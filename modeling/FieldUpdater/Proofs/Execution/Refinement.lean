import FieldUpdater.Proofs.Execution.Operations

/-!
# Accessors are registers

A heap represents registers when every slot that an accessor works on holds the word of
the register of its object and field. Slots along a lineage are never shared, so that
every operation of an accessor changes one register and no other.
-/

namespace FieldUpdater

/-- A machine whose registry is sound and serves instance fields only. -/
structure Machine.Sound (m : Machine) : Prop where
  registry : m.registry.Sound m.table
  isInstance : ∀ key a, (key, a) ∈ m.registry.byField → a.field.isStatic = false

/-- The heap has the objects of the registers, and their slots hold the values of the registers. -/
structure Represents (m : Machine) (R : Registers) (h : Heap) : Prop where
  classes : h.objects.map (·.classId) = R.classes
  known : ∀ o obj, h.find? o = some obj → obj.classId.index < m.table.size
  words : ∀ o obj key a, h.find? o = some obj → (key, a) ∈ m.registry.byField →
    m.table.isAssignable obj.classId a.field.declaring = true →
    obj.words[a.field.slot]? = some (R.entry o a.field.key).toWord
  fresh : ∀ o key, R.classes.size ≤ o.index.toNat → R.entry o key = .null

namespace Represents

variable {m : Machine} {R : Registers} {h h' : Heap} {o o' x : ObjRef} {key : FieldKey}
  {a : Accessor} {c : ClassId} {v expected update : Value} {op : Opcode} {fieldOp : FieldOp}

/-- The empty heap represents registers without objects. -/
theorem empty (tag : Nat) : Represents m {} ⟨tag, #[]⟩ where
  classes := Array.map_empty
  known := by simp [Heap.find?]
  words := by simp [Heap.find?]
  fresh _ _ _ := rfl

theorem size (hR : Represents m R h) : h.size = R.classes.size := by
  rw [← hR.classes, Array.size_map]
  rfl

/-- The class of an object is that of the registers. -/
theorem find?_classId (hR : Represents m R h) : (h.find? o).map (·.classId) = R.classOf? o := by
  rw [Heap.map_classId_find?, hR.classes]
  rfl

theorem classOf_eq (hR : Represents m R h) :
    h.classOf o = match R.classOf? o with
      | some c => .ok c
      | none => .error (.invalidReference o) := by
  rw [← hR.find?_classId]
  unfold Heap.classOf Heap.get
  cases h.find? o <;> rfl

/-- A cast is judged as the registers judge it. -/
theorem checkCast_eq (hR : Represents m R h) :
    m.checkCast h (.value v) c op = R.accept m v c := by
  unfold Machine.checkCast Registers.accept
  cases v with
  | ref o =>
    dsimp only
    rw [hR.classOf_eq]
    cases R.classOf? o <;> rfl
  | _ => rfl

/-- The object of an accepted reference. -/
theorem exists_of_accept (hR : Represents m R h) (haccept : R.accept m (.ref o) c = .ok ()) :
    ∃ obj, h.find? o = some obj ∧ m.table.isAssignable obj.classId c = true := by
  have hclass := hR.find?_classId (o := o)
  unfold Registers.accept at haccept
  cases hfind : h.find? o with
  | none =>
    simp only [hfind, Option.map_none] at hclass
    simp [← hclass] at haccept
  | some obj =>
    simp only [hfind, Option.map_some] at hclass
    simp only [← hclass] at haccept
    split at haccept
    · rename_i hassignable
      exact ⟨obj, rfl, hassignable⟩
    · cases haccept

/-- A slot of an accepted target holds the word of its register. -/
theorem word_eq (hR : Represents m R h) (ha : (key, a) ∈ m.registry.byField)
    (haccept : R.accept m (.ref o) a.field.declaring = .ok ()) :
    h.word o a.field.slot = .ok (R.entry o a.field.key).toWord := by
  obtain ⟨obj, hobj, hassignable⟩ := hR.exists_of_accept haccept
  have hword := hR.words o obj key a hobj ha hassignable
  unfold Heap.word Heap.get
  simp only [hobj, hword]

/-- Setting the slot of an accepted target sets its register. -/
theorem setWord (hR : Represents m R h) (hm : m.Sound) (ha : (key, a) ∈ m.registry.byField)
    (haccept : R.accept m (.ref o) a.field.declaring = .ok ()) :
    Represents m (R.update o a.field.key v) (h.setWord o a.field.slot v.toWord) := by
  obtain ⟨target, htarget, hassignable⟩ := hR.exists_of_accept haccept
  constructor
  · rw [Heap.map_classId_setWord]
    exact hR.classes
  · intro o' obj hobj
    rw [Heap.find?_setWord] at hobj
    split at hobj
    · rw [htarget, Option.map_some, Option.some.injEq] at hobj
      rw [← hobj]
      exact hR.known o target htarget
    · exact hR.known o' obj hobj
  · intro o' obj key' b hobj hb hassignable'
    rw [Heap.find?_setWord] at hobj
    by_cases heq : o = o'
    · subst heq
      rw [if_pos rfl, htarget, Option.map_some, Option.some.injEq] at hobj
      subst hobj
      have hold := hR.words o target key a htarget ha hassignable
      have hold' := hR.words o target key' b htarget hb hassignable'
      simp only [Registers.update, true_and]
      by_cases hslot : a.field.slot = b.field.slot
      · -- One slot of an object belongs to one field, hence to one accessor.
        have hfield : a.field = b.field :=
          hm.registry.reachable.sound.eq_of_slot_lineage (hR.known o target htarget)
            (hm.registry.entry key a ha).declared (hm.registry.entry key' b hb).declared
            (hm.isInstance key a ha) (hm.isInstance key' b hb) (by simpa [ClassTable.isAssignable]
              using hassignable) (by simpa [ClassTable.isAssignable] using hassignable') hslot
        have hlt := (Array.getElem?_eq_some_iff.mp hold).1
        rw [← hfield, if_pos rfl, Array.getElem?_setIfInBounds_self_of_lt hlt]
      · have hkey : b.field.key ≠ a.field.key := by
          intro hkey
          rw [hm.registry.eq_of_key hb ha hkey] at hslot
          exact hslot rfl
        rw [if_neg hkey, Array.getElem?_setIfInBounds_ne hslot]
        exact hold'
    · rw [if_neg heq] at hobj
      have hne : ¬ (o' = o ∧ b.field.key = a.field.key) := fun hboth => heq hboth.1.symm
      simp only [Registers.update, if_neg hne]
      exact hR.words o' obj key' b hobj hb hassignable'
  · intro o' key' hle
    have hlt : o.index.toNat < R.classes.size := by
      have hindex := (Array.getElem?_eq_some_iff.mp htarget).1
      rw [← hR.size]
      exact hindex
    have hne : ¬ (o' = o ∧ key' = a.field.key) := by
      rintro ⟨rfl, -⟩
      exact absurd hle (by simpa [Registers.update] using hlt)
    simp only [Registers.update, if_neg hne]
    exact hR.fresh o' key' hle

/-- An allocation makes an object of the registers. -/
theorem alloc (hR : Represents m R h) (hm : m.Sound) (halloc : h.alloc m.table c = .ok (x, h')) :
    Represents m { R with classes := R.classes.push c } h' := by
  obtain ⟨info, hinfo, -, -, rfl⟩ := Heap.alloc_eq_ok_iff.mp halloc
  have hsplit : ∀ o' obj, Heap.find? { h with
      objects := h.objects.push ⟨c, Array.replicate info.instanceSlots Value.null.toWord⟩ } o'
        = some obj → h.find? o' = some obj ∨ (o'.index.toNat = h.size ∧
          obj = ⟨c, Array.replicate info.instanceSlots Value.null.toWord⟩) := by
    intro o' obj hobj
    unfold Heap.find? at hobj ⊢
    rw [Array.getElem?_push] at hobj
    split at hobj
    · rename_i hlast
      exact .inr ⟨hlast, (Option.some.inj hobj).symm⟩
    · exact .inl hobj
  constructor
  · simp [hR.classes]
  · intro o' obj hobj
    rcases hsplit o' obj hobj with hold | ⟨-, rfl⟩
    · exact hR.known o' obj hold
    · exact ClassTable.lt_size_of_find? hinfo
  · intro o' obj key a hobj ha hassignable
    rcases hsplit o' obj hobj with hold | ⟨hlast, rfl⟩
    · exact hR.words o' obj key a hold ha hassignable
    · obtain ⟨owner, howner, hmem⟩ := (hm.registry.entry key a ha).declared
      have hsound := hm.registry.reachable.sound
      have hslot := (hsound.slot_bounds howner hmem (hm.isInstance key a ha)).2
      have hle := hsound.instanceSlots_le (by simpa [ClassTable.isAssignable] using hassignable)
        hinfo howner
      rw [hR.fresh o' a.field.key (by rw [hlast, hR.size]), Array.getElem?_replicate,
        if_pos (by omega)]
  · intro o' key hle
    refine hR.fresh o' key ?_
    simp only [Array.size_push] at hle
    omega

/-- An execution has the result of the registers and leaves a heap that represents them. -/
def Agrees {α : Type} (m : Machine) (out : Except Halt α × Heap)
    (spec : Except ExecError α × Registers) : Prop :=
  out.1 = spec.1.mapError .error ∧ Represents m spec.2 out.2

variable {fuel : Nat}

theorem Agrees.map {α β : Type} {out : Except Halt α × Heap}
    {spec : Except ExecError α × Registers} (hagree : Agrees m out spec) (f : α → β) :
    Agrees m (Prod.map (Except.map f) id out) (Prod.map (Except.map f) id spec) := by
  obtain ⟨hresult, hheap⟩ := hagree
  refine ⟨?_, hheap⟩
  simp only [Prod.map_fst, hresult]
  cases spec.1 <;> rfl

/-- The accessor of an object is one of the registry. -/
theorem entry_of_accessor (hm : m.Sound) (hx : R.accessor m x = .ok a) :
    ∃ key, (key, a) ∈ m.registry.byField := by
  unfold Registers.accessor at hx
  split at hx
  · cases hx
  · split at hx
    · cases hx
    · rename_i hfound
      obtain ⟨key, hmem, -⟩ := hm.registry.mem_of_ofClass? hfound
      cases hx
      exact ⟨key, hmem⟩

/-- An operation is that of the accessor whose object is called. -/
theorem invoke_eq (hR : Represents m R h) {args : List Value}
    (hargs : args.length = FieldOp.argCount fieldOp - 1) :
    m.invoke fuel x fieldOp args h = match R.accessor m x with
      | .error err => (.error (.error err), h)
      | .ok a => m.execute fuel (a.method fieldOp) (.ref x :: args) h := by
  unfold Machine.invoke Registers.accessor
  rw [hR.classOf_eq]
  cases R.classOf? x with
  | none => rfl
  | some c =>
    dsimp only
    cases m.registry.ofClass? c with
    | none => rfl
    | some a =>
      dsimp only
      rw [if_pos hargs]

/-- An allocation fails as the registers say. -/
theorem make_eq_error {err : ExecError} (halloc : h.alloc m.table c = .error err) :
    R.make m c = .error err := by
  unfold Heap.alloc at halloc
  unfold Registers.make
  cases hfind : m.table.find? c with
  | none =>
    simp only [hfind, Except.error.injEq] at halloc ⊢
    exact halloc
  | some info =>
    by_cases hstage : info.stage = .defining
    · simp only [hfind, if_pos hstage, Except.error.injEq] at halloc ⊢
      exact halloc
    · simp [hfind, if_neg hstage] at halloc

/-- Making an object makes one of the registers. -/
theorem make_agrees (hR : Represents m R h) (hm : m.Sound) (hfuel : 3 ≤ fuel) :
    Agrees m (m.makeObject fuel c h) (R.settle (R.make m c)) := by
  unfold Machine.makeObject Machine.constructWith
  cases halloc : h.alloc m.table c with
  | error err =>
    rw [make_eq_error halloc]
    exact ⟨rfl, hR⟩
  | ok out =>
    obtain ⟨o, h'⟩ := out
    have hrep := hR.alloc hm halloc
    obtain ⟨info, hinfo, hstage, rfl, -⟩ := Heap.alloc_eq_ok_iff.mp halloc
    unfold Registers.make
    simp only [hinfo, if_neg hstage, Registers.settle]
    rw [← hR.size]
    cases hclass : m.registry.ofClass? c with
    | none => exact ⟨rfl, hrep⟩
    | some a =>
      obtain ⟨key, hmem, -⟩ := hm.registry.mem_of_ofClass? hclass
      simp only [Machine.execute_init (hm.registry.entry key a hmem).bodies hfuel]
      exact ⟨rfl, hrep⟩

/-- A load of an accepted target loads its register. -/
theorem load_eq (hR : Represents m R h) (ha : (key, a) ∈ m.registry.byField)
    (haccept : R.accept m (.ref o) a.field.declaring = .ok ()) :
    h.load o a.field.slot = .ok (R.entry o a.field.key) := by
  unfold Heap.load
  rw [hR.word_eq ha haccept]
  simp [Except.map, Value.ofWord_toWord]

/-- A store into an accepted target stores into its register. -/
theorem store_eq (hR : Represents m R h) (ha : (key, a) ∈ m.registry.byField)
    (haccept : R.accept m (.ref o) a.field.declaring = .ok ()) :
    h.store o a.field.slot v = .ok (h.setWord o a.field.slot v.toWord) := by
  unfold Heap.store
  rw [hR.word_eq ha haccept]
  rfl

/-- An exchange at an accepted target compares values. -/
theorem compareExchange_eq (hR : Represents m R h) (ha : (key, a) ∈ m.registry.byField)
    (haccept : R.accept m (.ref o) a.field.declaring = .ok ()) :
    h.compareExchange o a.field.slot expected update = .ok (R.entry o a.field.key,
      if R.entry o a.field.key = expected then h.setWord o a.field.slot update.toWord else h) := by
  unfold Heap.compareExchange
  rw [hR.word_eq ha haccept]
  simp only [Except.map, Value.ofWord_toWord, Value.toWord_inj]

/-- Loading loads a register. -/
theorem get_agrees (hR : Represents m R h) (hm : m.Sound) (hfuel : 11 ≤ fuel) (x : ObjRef)
    (target : Value) :
    Agrees m (m.get fuel x target h) (R.settle (do
      let a ← R.accessor m x
      R.get m a.field target)) := by
  unfold Machine.get
  rw [hR.invoke_eq rfl]
  cases hx : R.accessor m x with
  | error err => exact ⟨rfl, hR⟩
  | ok a =>
    obtain ⟨key, hmem⟩ := entry_of_accessor hm hx
    have hrun : m.execute fuel (a.method .get) [.ref x, target] h = _ :=
      Machine.execute_method (hm.registry.entry key a hmem).bodies hfuel
        (Machine.runThrough_get (hm.isInstance key a hmem))
    dsimp only
    rw [hrun, hR.checkCast_eq]
    change Agrees m _ (R.settle (R.get m a.field target))
    unfold Registers.get
    cases haccept : R.accept m target a.field.declaring with
    | error err => exact ⟨rfl, hR⟩
    | ok _ =>
      cases target with
      | ref o =>
        simp only [Registers.object, bind, Except.bind, hR.load_eq hmem haccept]
        exact ⟨rfl, hR⟩
      | _ => exact ⟨rfl, hR⟩

/-- Storing stores into a register. -/
theorem set_agrees (hR : Represents m R h) (hm : m.Sound) (hfuel : 11 ≤ fuel) (x : ObjRef)
    (target v : Value) :
    Agrees m (m.set fuel x target v h) (R.settle (do
      let a ← R.accessor m x
      R.set m a.field target v)) := by
  unfold Machine.set
  rw [hR.invoke_eq rfl]
  cases hx : R.accessor m x with
  | error err => exact ⟨rfl, hR⟩
  | ok a =>
    obtain ⟨key, hmem⟩ := entry_of_accessor hm hx
    have hrun : m.execute fuel (a.method .set) [.ref x, target, v] h = _ :=
      Machine.execute_method (hm.registry.entry key a hmem).bodies hfuel
        (Machine.runThrough_set (hm.isInstance key a hmem))
    dsimp only
    rw [hrun, hR.checkCast_eq, hR.checkCast_eq]
    change Agrees m _ (R.settle (R.set m a.field target v))
    unfold Registers.set
    cases haccept : R.accept m target a.field.declaring with
    | error err => exact ⟨rfl, hR⟩
    | ok _ =>
      cases R.accept m v a.field.type with
      | error err => exact ⟨rfl, hR⟩
      | ok _ =>
        cases target with
        | ref o =>
          simp only [Registers.object, bind, Except.bind, hR.store_eq hmem haccept]
          exact ⟨rfl, hR.setWord hm hmem haccept⟩
        | _ => exact ⟨rfl, hR⟩

/-- Exchanging exchanges a register. -/
theorem compareAndSet_agrees (hR : Represents m R h) (hm : m.Sound) (hfuel : 11 ≤ fuel)
    (x : ObjRef) (target expected update : Value) :
    Agrees m (m.compareAndSet fuel x target expected update h) (R.settle (do
      let a ← R.accessor m x
      R.compareAndSet m a.field target expected update)) := by
  unfold Machine.compareAndSet
  rw [hR.invoke_eq rfl]
  cases hx : R.accessor m x with
  | error err => exact ⟨rfl, hR⟩
  | ok a =>
    obtain ⟨key, hmem⟩ := entry_of_accessor hm hx
    have hrun : m.execute fuel (a.method .compareAndSet) [.ref x, target, expected, update] h = _ :=
      Machine.execute_method (hm.registry.entry key a hmem).bodies hfuel
        (Machine.runThrough_compareAndSet (hm.isInstance key a hmem))
    dsimp only
    rw [hrun, hR.checkCast_eq, hR.checkCast_eq, hR.checkCast_eq]
    change Agrees m _ (R.settle (R.compareAndSet m a.field target expected update))
    unfold Registers.compareAndSet
    cases haccept : R.accept m target a.field.declaring with
    | error err => exact ⟨rfl, hR⟩
    | ok _ =>
      cases target with
      | ref o =>
        simp only [Registers.object, bind, Except.bind]
        cases R.accept m update a.field.type with
        | error err => exact ⟨rfl, hR⟩
        | ok _ =>
          cases R.accept m expected a.field.type with
          | error err => exact ⟨rfl, hR⟩
          | ok _ =>
            simp only [hR.compareExchange_eq hmem haccept]
            by_cases heq : R.entry o a.field.key = expected
            · simp only [if_pos heq, decide_eq_true heq]
              exact ⟨rfl, hR.setWord hm hmem haccept⟩
            · simp only [if_neg heq, decide_eq_false heq]
              exact ⟨rfl, hR⟩
      | _ => exact ⟨rfl, hR⟩

/-- Every call has the answer of the registers. -/
theorem perform_agrees (hR : Represents m R h) (hm : m.Sound) (hfuel : 11 ≤ fuel) (call : Call) :
    Agrees m (m.perform fuel call h) (R.perform m call) := by
  cases call with
  | make c => exact (hR.make_agrees hm (by omega)).map _
  | get x target => exact (hR.get_agrees hm hfuel x target).map _
  | set x target v => exact (hR.set_agrees hm hfuel x target v).map _
  | compareAndSet x target expected update =>
    exact (hR.compareAndSet_agrees hm hfuel x target expected update).map _

/-- A sequence of calls has the answers of the registers. -/
theorem performAll_agrees (hR : Represents m R h) (hm : m.Sound) (hfuel : 11 ≤ fuel)
    (calls : List Call) :
    (m.performAll fuel calls h).1 =
        (Registers.performAll m calls R).1.map (·.mapError .error) ∧
      Represents m (Registers.performAll m calls R).2 (m.performAll fuel calls h).2 := by
  induction calls generalizing R h with
  | nil => exact ⟨rfl, hR⟩
  | cons call calls ih =>
    obtain ⟨hanswer, hheap⟩ := hR.perform_agrees hm hfuel call
    obtain ⟨hanswers, hrest⟩ := ih hheap
    refine ⟨?_, hrest⟩
    simp only [Machine.performAll, Registers.performAll, List.map_cons, hanswer, hanswers]

end Represents

end FieldUpdater
