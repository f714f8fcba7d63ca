import FieldUpdater.Proofs.Classes.Occupancy
import FieldUpdater.Proofs.Execution.Calls
import FieldUpdater.Proofs.Execution.Effects

/-!
# Fields hold values of their types

Slots can be loaded and stored without any check, and the bodies of accessors go through casts
before they do so. When objects are made and their fields changed by calls alone, every field of
every object therefore holds null or a reference to an existing object that its type expects,
whatever the arguments of the calls were, whichever calls failed, and whatever became of the
class table and of the registry between them.
-/

namespace FieldUpdater

namespace Heap

variable {t t' : ClassTable} {h h' : Heap} {c : ClassId} {o : ObjRef} {v : Value}

/-- The value is null, or refers to an object whose class can stand for the expected one. -/
def Conforms (t : ClassTable) (h : Heap) (c : ClassId) (v : Value) : Prop :=
  v = .null ∨ ∃ o target, v = .ref o ∧ h.find? o = some target ∧
    t.isAssignable target.classId c = true

/-- Every instance field of every object has a slot of the object, which holds a value of the
field's type. -/
structure WellTyped (t : ClassTable) (h : Heap) : Prop where
  known : ∀ obj ∈ h.objects, obj.classId.index < t.size
  conforms : ∀ obj ∈ h.objects, ∀ f, t.HasField obj.classId f →
    ∃ v, obj.words[f.slot]? = some v.toWord ∧ h.Conforms t f.type v

/-- Objects stay and keep their classes. -/
def Keeps (h h' : Heap) : Prop :=
  ∀ o obj, h.find? o = some obj → ∃ obj', h'.find? o = some obj' ∧ obj'.classId = obj.classId

/-- A value conforms as long as the object that it refers to stays. -/
theorem Conforms.keeps (hv : h.Conforms t c v) (hkeeps : h.Keeps h') : h'.Conforms t c v := by
  rcases hv with rfl | ⟨o, target, rfl, htarget, hassignable⟩
  · exact .inl rfl
  · obtain ⟨target', htarget', hclass⟩ := hkeeps o target htarget
    exact .inr ⟨o, target', rfl, htarget', by rw [hclass]; exact hassignable⟩

/-- A value that passes a cast conforms. -/
theorem conforms_of_checkCast {m : Machine} {op : Opcode}
    (hcast : m.checkCast h (.value v) c op = .ok ()) : h.Conforms m.table c v := by
  rcases Machine.eq_null_or_ref_of_checkCast hcast with rfl | ⟨o, rfl⟩
  · exact .inl rfl
  · rw [Machine.checkCast, classOf, get] at hcast
    cases hfind : h.find? o with
    | none => simp [hfind, Except.map] at hcast
    | some target =>
      by_cases hassignable : m.table.isAssignable target.classId c = true
      · exact .inr ⟨o, target, rfl, hfind, hassignable⟩
      · simp [hfind, Except.map, hassignable] at hcast

/-- Setting a slot keeps objects. -/
theorem keeps_setWord (h : Heap) (o : ObjRef) (slot : Nat) (w : UInt64) :
    h.Keeps (h.setWord o slot w) := by
  intro o' obj hobj
  rw [find?_setWord]
  split
  · rename_i heq
    subst heq
    rw [hobj, Option.map_some]
    exact ⟨_, rfl, rfl⟩
  · exact ⟨obj, hobj, rfl⟩

/-- Allocation keeps objects. -/
theorem keeps_alloc (halloc : h.alloc t c = .ok (o, h')) : h.Keeps h' := by
  obtain ⟨info, -, -, -, rfl⟩ := alloc_eq_ok_iff.mp halloc
  intro o' obj hobj
  obtain ⟨hlt, -⟩ := Array.getElem?_eq_some_iff.mp hobj
  refine ⟨obj, ?_, rfl⟩
  rw [find?, Array.getElem?_push, if_neg hlt.ne]
  exact hobj

/-- A heap stays well-typed while the class table grows. -/
theorem WellTyped.extends (htyped : h.WellTyped t) (hextends : t.Extends t') : h.WellTyped t' where
  known obj hobj := (htyped.known obj hobj).trans_le hextends.size_le
  conforms obj hobj f hf := by
    obtain ⟨v, hword, hv⟩ :=
      htyped.conforms obj hobj f (hf.of_extends hextends (htyped.known obj hobj))
    refine ⟨v, hword, ?_⟩
    rcases hv with rfl | ⟨o, target, rfl, htarget, hassignable⟩
    · exact .inl rfl
    · have hknown := htyped.known target (Array.mem_of_getElem? htarget)
      exact .inr ⟨o, target, rfl, htarget, by rw [hextends.isAssignable hknown]; exact hassignable⟩

/-- The fields of a new object are null. -/
theorem WellTyped.alloc (htyped : h.WellTyped t) (hsound : t.Sound)
    (halloc : h.alloc t c = .ok (o, h')) : h'.WellTyped t := by
  have hkeeps := keeps_alloc halloc
  obtain ⟨info, hinfo, -, -, rfl⟩ := alloc_eq_ok_iff.mp halloc
  constructor
  · intro obj hobj
    rcases Array.mem_push.mp hobj with hold | rfl
    · exact htyped.known obj hold
    · exact ClassTable.lt_size_of_find? hinfo
  · intro obj hobj f hf
    rcases Array.mem_push.mp hobj with hold | rfl
    · obtain ⟨v, hword, hv⟩ := htyped.conforms obj hold f hf
      exact ⟨v, hword, hv.keeps hkeeps⟩
    · have hslot := hsound.slot_lt hf hinfo
      exact ⟨.null, by rw [Array.getElem?_replicate, if_pos hslot], .inl rfl⟩

/-- A field can be set to a value of its type: no other field has its slot. -/
theorem WellTyped.setWord (htyped : h.WellTyped t) (hsound : t.Sound) {obj : HeapObject}
    {f : Field} (hobj : h.find? o = some obj) (hf : t.HasField obj.classId f)
    (hv : h.Conforms t f.type v) : (h.setWord o f.slot v.toWord).WellTyped t := by
  have hkeeps := h.keeps_setWord o f.slot v.toWord
  have hmem := Array.mem_of_getElem? hobj
  constructor
  · intro other hother
    rcases mem_setWord hother with hold | ⟨old, hold, rfl⟩
    · exact htyped.known other hold
    · exact htyped.known old (Array.mem_of_getElem? hold)
  · intro other hother g hg
    rcases mem_setWord hother with hold | ⟨old, hold, rfl⟩
    · obtain ⟨w, hword, hw⟩ := htyped.conforms other hold g hg
      exact ⟨w, hword, hw.keeps hkeeps⟩
    · obtain rfl := Option.some.inj (hobj.symm.trans hold)
      obtain ⟨w, hword, hw⟩ := htyped.conforms obj hmem g hg
      by_cases hslot : f.slot = g.slot
      · obtain rfl : f = g := hsound.eq_of_slot_lineage (htyped.known obj hmem) hf.declared
          hg.declared hf.isInstance hg.isInstance hf.mem_lineage hg.mem_lineage hslot
        have hlt := (Array.getElem?_eq_some_iff.mp hword).1
        exact ⟨v, Array.getElem?_setIfInBounds_self_of_lt hlt, hv.keeps hkeeps⟩
      · exact ⟨w, by rw [Array.getElem?_setIfInBounds_ne hslot]; exact hword, hw.keeps hkeeps⟩

end Heap

namespace Machine

variable {m : Machine} {h h' : Heap}

/-- A machine and a heap that come about, over one class table, by calls with the fuel to end, by
requests for the accessors of instance fields, by operations on the class table and by the ends
of builds. Calls and requests may fail. -/
inductive Reached : Machine → Heap → Prop
  | start {t : ClassTable} (reachable : t.Reachable) : Reached ⟨t, { tag := t.tag }⟩ ⟨t.tag, #[]⟩
  | call {m : Machine} {h : Heap} {fuel : Nat} (before : Reached m h) (enough : 11 ≤ fuel)
      (call : Call) : Reached m (m.perform fuel call h).2
  | table {m : Machine} {h : Heap} {t : ClassTable} (before : Reached m h)
      (taken : m.table.Step t) : Reached { m with table := t } h
  | request {m : Machine} {h : Heap} {q : CompletionQueue Accessor} {baseType : String} {f : Field}
      {result : Except SynthesisError Accessor} {w : Workspace} (before : Reached m h)
      (declared : m.table.Declares f) (isInstance : f.isStatic = false)
      (taken : Workspace.synthesize ⟨m.table, m.registry, q⟩ baseType f = (result, w)) :
      Reached ⟨w.table, w.registry⟩ h
  | complete {m : Machine} {h : Heap} (before : Reached m h) (b : Build) :
      Reached { m with table := (b.complete m.table).2 } h

/-- Operations on the class table leave the machine sound. -/
theorem Sound.evolves (hm : m.Sound) {t : ClassTable} (hevolves : m.table.Evolves t) :
    ({ m with table := t } : Machine).Sound :=
  ⟨hm.registry.evolves hevolves, hm.isInstance⟩

/-- A request for the accessor of an instance field leaves the machine sound. -/
theorem Sound.request (hm : m.Sound) {q : CompletionQueue Accessor} {baseType : String} {f : Field}
    {result : Except SynthesisError Accessor} {w : Workspace} (hdeclared : m.table.Declares f)
    (hinstance : f.isStatic = false)
    (htaken : Workspace.synthesize ⟨m.table, m.registry, q⟩ baseType f = (result, w)) :
    (⟨w.table, w.registry⟩ : Machine).Sound := by
  have hregistry : Registry.Sound m.table m.registry := hm.registry
  refine ⟨Registry.Sound.request (w := ⟨m.table, m.registry, q⟩) hregistry hdeclared htaken, ?_⟩
  have hkept := Workspace.synthesize_keeps (w := ⟨m.table, m.registry, q⟩)
    (P := fun w => ∀ key a, (key, a) ∈ w.registry.byField → a.field.isStatic = false)
    hm.isInstance baseType f ?_
  · rw [htaken] at hkept
    exact hkept
  · intro a t _ _ _ _ hfield key b hb
    rcases List.mem_cons.mp hb with heq | hold
    · obtain ⟨-, rfl⟩ := Prod.mk.inj heq
      rw [hfield]
      exact hinstance
    · exact hm.isInstance key b hold

/-- What a call does to a well-typed heap leaves it well-typed. -/
theorem Effect.wellTyped (heffect : m.Effect h h') (hm : m.Sound) (htyped : h.WellTyped m.table) :
    h'.WellTyped m.table := by
  have hsound := hm.registry.reachable.sound
  cases heffect with
  | unchanged => exact htyped
  | allocated halloc => exact htyped.alloc hsound halloc
  | @written key a o v hentry htarget hvalue =>
    obtain hnull | ⟨o', obj, heq, hobj, hassignable⟩ := Heap.conforms_of_checkCast htarget
    · cases hnull
    · obtain rfl := Value.ref.inj heq
      have hmem : a.field.declaring ∈ m.table.lineage obj.classId := by
        simpa [ClassTable.isAssignable] using hassignable
      exact htyped.setWord hsound hobj
        ⟨(hm.registry.entry key a hentry).declared, hm.isInstance key a hentry, hmem⟩
        (Heap.conforms_of_checkCast hvalue)

/-- Whatever is done, the machine is sound and the heap well-typed. -/
theorem Reached.invariant (hreached : Reached m h) : m.Sound ∧ h.WellTyped m.table := by
  induction hreached with
  | start hreachable =>
    refine ⟨⟨(Registry.History.start hreachable).sound, by simp⟩, ?_⟩
    exact ⟨fun obj hobj => absurd hobj (Array.not_mem_empty obj),
      fun obj hobj => absurd hobj (Array.not_mem_empty obj)⟩
  | call _ henough call ih =>
    obtain ⟨hm, htyped⟩ := ih
    exact ⟨hm, (hm.effect_perform henough call).wellTyped hm htyped⟩
  | table _ hstep ih =>
    obtain ⟨hm, htyped⟩ := ih
    exact ⟨hm.evolves (.single hstep), htyped.extends hstep.extends⟩
  | @request m h q baseType f _ _ _ hdeclared hinstance htaken ih =>
    obtain ⟨hm, htyped⟩ := ih
    have hgrows := Workspace.grows_synthesize ⟨m.table, m.registry, q⟩ baseType f
    rw [htaken] at hgrows
    exact ⟨hm.request hdeclared hinstance htaken, htyped.extends hgrows.table⟩
  | @complete m _ _ b ih =>
    obtain ⟨hm, htyped⟩ := ih
    have hevolves := b.evolves_complete m.table
    exact ⟨hm.evolves hevolves, htyped.extends hevolves.extends⟩

/-- Any number of operations on the class table can be taken. -/
theorem Reached.evolves (hreached : Reached m h) {t : ClassTable} (hevolves : m.table.Evolves t) :
    Reached { m with table := t } h := by
  induction hevolves with
  | refl => exact hreached
  | @tail t _ _ hstep ih => exact .table (m := { m with table := t }) ih hstep

/-- Any number of calls can be made. -/
theorem Reached.calls {fuel : Nat} (hreached : Reached m h) (henough : 11 ≤ fuel)
    (calls : List Call) : Reached m (m.performAll fuel calls h).2 := by
  induction calls generalizing h with
  | nil => exact hreached
  | cons call calls ih => exact ih (.call hreached henough call)

/-- In every state that calls and other operations lead to, each instance field of the class of
an object holds null or a reference to an existing object whose class can stand for the type of
the field. -/
theorem Reached.fields_conform (hreached : Reached m h) :
    ∀ obj ∈ h.objects, ∀ f, m.table.HasField obj.classId f →
      ∃ v, obj.words[f.slot]? = some v.toWord ∧ h.Conforms m.table f.type v :=
  hreached.invariant.2.conforms

end Machine

namespace Sample

/-- The heap of the sample comes about by a request, the completion of the accessor and calls. -/
theorem reached_heap : Machine.Reached machine heap := by
  have htaken : space.synthesize baseType next = ((space.synthesize baseType next).1, served) := rfl
  have hserved : Machine.Reached ⟨served.table, served.registry⟩ ⟨table.tag, #[]⟩ :=
    .request (.start reachable_table) declares_next rfl htaken
  have htag : machine.table.tag = table.tag := by decide +kernel
  rw [heap, htag]
  exact (hserved.evolves evolves_machine).calls (le_refl 11) calls

end Sample

/-- In the sample the field of the second object has come to hold a reference that conforms. -/
theorem Machine.fields_conform_node : ∃ obj ∈ Sample.heap.objects, obj.classId = ⟨11⟩ ∧
    ∃ v, obj.words[Sample.next.slot]? = some v.toWord ∧ v ≠ .null ∧
      Sample.heap.Conforms Sample.machine.table Sample.next.type v := by
  have hobject : Sample.heap.find? ⟨1⟩ = some ⟨⟨11⟩, #[(Value.ref ⟨1⟩).toWord]⟩ := by
    decide +kernel
  have hmem := Array.mem_of_getElem? hobject
  have hlineage : (⟨11⟩ : ClassId) ∈ Sample.machine.table.lineage ⟨11⟩ := by decide +kernel
  have hdeclared : Sample.machine.table.Declares Sample.next :=
    (Sample.declares_next.extends
      (Sample.space.grows_synthesize Sample.baseType Sample.next).table).extends
        Sample.evolves_machine.extends
  obtain ⟨v, hword, hv⟩ := Machine.Reached.fields_conform Sample.reached_heap _ hmem Sample.next
    ⟨hdeclared, rfl, hlineage⟩
  refine ⟨_, hmem, rfl, v, hword, ?_, hv⟩
  rintro rfl
  cases hword

end FieldUpdater
