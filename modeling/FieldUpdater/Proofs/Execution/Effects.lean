import FieldUpdater.Proofs.Execution.Refinement

/-!
# What calls do to a heap

A call makes an object, sets one slot or leaves the heap as it was, whether or not it succeeds.
A slot is set only after two casts: the object has passed the cast to the class that declares the
accessor's field, and the value the cast to the field's type.
-/

namespace FieldUpdater

namespace Machine

/-- What a call can do to a heap. -/
inductive Effect (m : Machine) (h : Heap) : Heap → Prop
  | unchanged : Effect m h h
  | allocated {c : ClassId} {o : ObjRef} {h' : Heap} (taken : h.alloc m.table c = .ok (o, h')) :
      Effect m h h'
  | written {key : FieldKey} {a : Accessor} {o : ObjRef} {v : Value}
      (entry : (key, a) ∈ m.registry.byField)
      (target : m.checkCast h (.value (.ref o)) a.field.declaring .castclass = .ok ())
      (value : m.checkCast h (.value v) a.field.type .castclass = .ok ()) :
      Effect m h (h.setWord o a.field.slot v.toWord)

variable {m : Machine} {h : Heap} {fuel : Nat} {x : ObjRef} {key : FieldKey} {a : Accessor}

/-- A load sets nothing. -/
theorem Sound.effect_get (hm : m.Sound) (hfuel : 11 ≤ fuel)
    (ha : (key, a) ∈ m.registry.byField) (target : Value) :
    m.Effect h (m.execute fuel (a.method .get) [.ref x, target] h).2 := by
  rw [execute_method (hm.registry.entry key a ha).bodies hfuel
    (runThrough_get (hm.isInstance key a ha))]
  exact .unchanged

/-- A store sets a slot after two casts. -/
theorem Sound.effect_set (hm : m.Sound) (hfuel : 11 ≤ fuel)
    (ha : (key, a) ∈ m.registry.byField) (target v : Value) :
    m.Effect h (m.execute fuel (a.method .set) [.ref x, target, v] h).2 := by
  rw [execute_method (hm.registry.entry key a ha).bodies hfuel
    (runThrough_set (hm.isInstance key a ha))]
  cases htarget : m.checkCast h (.value target) a.field.declaring .castclass with
  | error err => exact .unchanged
  | ok _ =>
    cases hvalue : m.checkCast h (.value v) a.field.type .castclass with
    | error err => exact .unchanged
    | ok _ =>
      cases target with
      | ref o =>
        cases hstore : h.store o a.field.slot v with
        | error err =>
          simp only [Registers.object, bind, Except.bind, hstore]
          exact .unchanged
        | ok h' =>
          simp only [Registers.object, bind, Except.bind, hstore]
          rw [Heap.of_store hstore]
          exact .written ha htarget hvalue
      | _ => exact .unchanged

/-- A compare-and-set sets a slot after the casts of the target and of the update. -/
theorem Sound.effect_compareAndSet (hm : m.Sound) (hfuel : 11 ≤ fuel)
    (ha : (key, a) ∈ m.registry.byField) (target expected update : Value) :
    m.Effect h
      (m.execute fuel (a.method .compareAndSet) [.ref x, target, expected, update] h).2 := by
  rw [execute_method (hm.registry.entry key a ha).bodies hfuel
    (runThrough_compareAndSet (hm.isInstance key a ha))]
  cases htarget : m.checkCast h (.value target) a.field.declaring .castclass with
  | error err => exact .unchanged
  | ok _ =>
    cases target with
    | ref o =>
      simp only [Registers.object, bind, Except.bind]
      cases hupdate : m.checkCast h (.value update) a.field.type .castclass with
      | error err => exact .unchanged
      | ok _ =>
        cases m.checkCast h (.value expected) a.field.type .castclass with
        | error err => exact .unchanged
        | ok _ =>
          cases hexchange : h.compareExchange o a.field.slot expected update with
          | error err => exact .unchanged
          | ok result =>
            rcases Heap.of_compareExchange hexchange with hset | hsame
            · simpa only [hset] using Effect.written ha htarget hupdate
            · simpa only [hsame] using Effect.unchanged
    | _ => exact .unchanged

/-- A call does what the operation of an accessor of the registry does, if it comes to one. -/
theorem Sound.effect_invoke (hm : m.Sound) {op : FieldOp} {args : List Value}
    (hbody : ∀ key a, (key, a) ∈ m.registry.byField →
      m.Effect h (m.execute fuel (a.method op) (.ref x :: args) h).2) :
    m.Effect h (m.invoke fuel x op args h).2 := by
  rw [invoke]
  cases h.classOf x with
  | error err => exact .unchanged
  | ok c =>
    dsimp only
    cases hfound : m.registry.ofClass? c with
    | none => exact .unchanged
    | some a =>
      obtain ⟨key, hmem, -⟩ := hm.registry.mem_of_ofClass? hfound
      dsimp only
      split
      · exact hbody key a hmem
      · exact .unchanged

/-- The construction of an object makes it, and its constructor sets nothing. -/
theorem Sound.effect_makeObject (hm : m.Sound) (hfuel : 11 ≤ fuel) (c : ClassId) :
    m.Effect h (m.makeObject fuel c h).2 := by
  rw [makeObject, constructWith]
  cases halloc : h.alloc m.table c with
  | error err => exact .unchanged
  | ok result =>
    dsimp only
    cases hfound : m.registry.ofClass? c with
    | none => exact .allocated halloc
    | some a =>
      obtain ⟨key, hmem, -⟩ := hm.registry.mem_of_ofClass? hfound
      simp only [execute_init (hm.registry.entry key a hmem).bodies
        ((by decide : 3 ≤ 11).trans hfuel)]
      exact .allocated halloc

/-- A load has the heap of its operation. -/
theorem snd_get (target : Value) :
    (m.get fuel x target h).2 = (m.invoke fuel x .get [target] h).2 := by
  rw [get]
  split <;> rename_i heq <;> rw [heq]

/-- A store has the heap of its operation. -/
theorem snd_set (target v : Value) :
    (m.set fuel x target v h).2 = (m.invoke fuel x .set [target, v] h).2 := by
  rw [set]
  split <;> rename_i heq <;> rw [heq]

/-- A compare-and-set has the heap of its operation. -/
theorem snd_compareAndSet (target expected update : Value) :
    (m.compareAndSet fuel x target expected update h).2 =
      (m.invoke fuel x .compareAndSet [target, expected, update] h).2 := by
  rw [compareAndSet]
  split
  · rename_i heq
    rw [heq]
  · rename_i heq
    rw [heq]
    split <;> rfl

/-- Every call does one of these things, or nothing, to the heap. -/
theorem Sound.effect_perform (hm : m.Sound) (hfuel : 11 ≤ fuel) (call : Call) :
    m.Effect h (m.perform fuel call h).2 := by
  cases call with
  | make c => exact hm.effect_makeObject hfuel c
  | get x target =>
    change m.Effect h (m.get fuel x target h).2
    rw [snd_get]
    exact hm.effect_invoke fun _ _ ha => hm.effect_get hfuel ha target
  | set x target v =>
    change m.Effect h (m.set fuel x target v h).2
    rw [snd_set]
    exact hm.effect_invoke fun _ _ ha => hm.effect_set hfuel ha target v
  | compareAndSet x target expected update =>
    change m.Effect h (m.compareAndSet fuel x target expected update h).2
    rw [snd_compareAndSet]
    exact hm.effect_invoke fun _ _ ha => hm.effect_compareAndSet hfuel ha target expected update

end Machine

end FieldUpdater
