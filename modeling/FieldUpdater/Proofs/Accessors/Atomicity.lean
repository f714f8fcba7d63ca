import FieldUpdater.Proofs.Accessors.Attempts
import FieldUpdater.Proofs.Accessors.History

/-!
# Requests are all or nothing

The class of an accessor is defined before its bodies are assembled, its completion is queued
and its entry is made. Nothing after the definition can fail, so that a request that fails has
changed nothing; it fails only for the class that accessors extend. One that makes an accessor
adds one class, one entry of either index and one completion.
-/

namespace FieldUpdater

namespace Workspace

variable {w : Workspace} {baseType : String} {f : Field} {base : ClassId} {info : ClassRecord}

/-- One class, one entry of either index, one accessor made and one completion more. -/
structure AddsOne (w : Workspace) (f : Field) (a : Accessor) (w' : Workspace) : Prop where
  field : a.field = f
  table : ∃ info : ClassRecord, info.id = a.classId ∧
    w'.table = { w.table with classes := w.table.classes.push info }
  tag : w'.registry.tag = w.registry.tag
  /-- The field had no accessor. -/
  absent : w.registry.find? f.key = none
  byField : w'.registry.byField = (f.key, a) :: w.registry.byField
  /-- The class was no accessor's. -/
  fresh : w.registry.ofClass? a.classId = none
  byClass : w'.registry.byClass = (a.classId, a) :: w.registry.byClass
  created : w'.registry.created = w.registry.created + 1
  pending : w'.pending.tasks = w.pending.tasks.push ("finish " ++ a.name, a)

/-- A field with an accessor gets it, and nothing changes. -/
theorem synthesize_of_entry {a : Accessor} (h : w.registry.find? f.key = some a)
    (baseType : String) : w.synthesize baseType f = (.ok a, w) := by
  unfold synthesize Registry.findOrCreate
  rw [h]

/-- Without the class that accessors extend none is made, and nothing changes. -/
theorem synthesize_of_baseMissing (habsent : w.registry.find? f.key = none)
    (hmissing : w.table.lookup baseType = none) :
    w.synthesize baseType f =
      (.error (.baseTypeMissing baseType (.classNotFound baseType)), w) := by
  have hrequire : w.table.require baseType = .error (.classNotFound baseType) := by
    rw [ClassTable.require, hmissing]
  unfold synthesize Registry.findOrCreate Accessor.generate
  rw [habsent]
  simp only [hrequire]

/-- No accessor extends a class with a fault, and nothing changes. -/
theorem synthesize_of_baseFault {fault : BaseFault} (habsent : w.registry.find? f.key = none)
    (hdeclaring : f.declaring.index < w.table.size) (hlookup : w.table.lookup baseType = some base)
    (hinfo : w.table.find? base = some info) (hfault : info.baseFault? = some fault) :
    ∃ name, w.synthesize baseType f =
      (.error (.defineType (.invalidBase name info.name fault)), w) := by
  have hrequire : w.table.require baseType = .ok base := by rw [ClassTable.require, hlookup]
  obtain ⟨outer, houter⟩ := ClassTable.exists_find? hdeclaring
  obtain ⟨k, hk, hfirst⟩ :=
    Accessor.exists_firstFree w.table outer.name (Accessor.simpleName f)
  have hrefused := Accessor.defineClass_eq houter hinfo hfirst hk
  simp only [hfault] at hrefused
  refine ⟨ClassTable.nestedName outer.name (Accessor.candidate (Accessor.simpleName f) k), ?_⟩
  unfold synthesize Registry.findOrCreate Accessor.generate
  rw [habsent]
  simp only [hrequire, hrefused]

/-- An accessor that is made adds one of each. -/
theorem addsOne_synthesize (h : w.registry.History w.table)
    (habsent : w.registry.find? f.key = none) {a : Accessor} {w' : Workspace}
    (hmade : w.synthesize baseType f = (.ok a, w')) : w.AddsOne f a w' := by
  have hsynthesized := w.synthesized baseType f
  rw [hmade] at hsynthesized
  cases hsynthesized with
  | found hentry =>
    rw [habsent] at hentry
    cases hentry
  | made _ _ hdefined _ _ hfield _ =>
    obtain ⟨_, hadd⟩ := Accessor.add_of_defineClass hdefined
    obtain ⟨-, hid, _, _, _, -, -, -, ht⟩ := ClassTable.of_add hadd
    refine ⟨hfield, ⟨_, rfl, ht⟩, rfl, habsent, rfl, ?_, rfl, rfl, rfl⟩
    -- The classes of all entries come before the one defined now.
    rw [Option.eq_none_iff_forall_ne_some]
    intro b hb
    obtain ⟨key, hmem, hclass⟩ := h.sound.mem_of_ofClass? hb
    have hlt := (h.sound.entry key b hmem).classId
    rw [hclass, hid] at hlt
    exact Nat.lt_irrefl _ hlt

/-- A request fails when the field has no accessor and the class that accessors extend is missing
or cannot be extended, and never for its code. A request that fails changes nothing, nor does one
for an accessor that is there; any other adds one of each. -/
theorem synthesize_all_or_nothing (h : w.registry.History w.table) (hf : w.table.Declares f)
    (baseType : String) :
    let result := (w.synthesize baseType f).1
    let w' := (w.synthesize baseType f).2
    ((∃ name source, result = .error (.baseTypeMissing name source)) ↔
      w.registry.find? f.key = none ∧ w.table.lookup baseType = none) ∧
    ((∃ source, result = .error (.defineType source)) ↔
      w.registry.find? f.key = none ∧ ∃ base info, w.table.lookup baseType = some base ∧
        w.table.find? base = some info ∧ (info.isSealed = true ∨ info.kind ≠ .reference)) ∧
    (∀ source, result ≠ .error (.assembly source)) ∧
    (∀ err, result = .error err → w' = w) ∧
    (∀ a, w.registry.find? f.key = some a → result = .ok a ∧ w' = w) ∧
    ∀ a, w.registry.find? f.key = none → result = .ok a → w.AddsOne f a w' := by
  intro result w'
  have hoccurs : w.synthesize baseType f = (result, w') := rfl
  obtain ⟨record, hrecord, -⟩ := hf
  have hdeclaring := ClassTable.lt_size_of_find? hrecord
  cases hentry : w.registry.find? f.key with
  | some a =>
    obtain ⟨hresult, hsame⟩ :=
      Prod.mk.inj (hoccurs.symm.trans (synthesize_of_entry hentry baseType))
    simp [hresult, hsame]
  | none =>
    cases hlookup : w.table.lookup baseType with
    | none =>
      obtain ⟨hresult, hsame⟩ :=
        Prod.mk.inj (hoccurs.symm.trans (synthesize_of_baseMissing hentry hlookup))
      simp [hresult, hsame]
    | some base =>
      obtain ⟨⟨info, hinfo, -⟩, -⟩ := ClassTable.lookup_eq_some_iff.mp hlookup
      cases hfault : info.baseFault? with
      | some fault =>
        obtain ⟨name, hrefused⟩ :=
          synthesize_of_baseFault hentry hdeclaring hlookup hinfo hfault
        obtain ⟨hresult, hsame⟩ := Prod.mk.inj (hoccurs.symm.trans hrefused)
        have hfaulty := ClassRecord.exists_baseFault?.mp ⟨fault, hfault⟩
        simpa [hresult, hsame, hinfo] using hfaulty
      | none =>
        obtain ⟨hsealed, hkind⟩ := ClassRecord.baseFault?_eq_none_iff.mp hfault
        obtain ⟨a, after, hmade⟩ :=
          exists_synthesize ⟨base, info, hlookup, hinfo, hsealed, hkind⟩ hdeclaring
        obtain ⟨hresult, hsame⟩ := Prod.mk.inj (hoccurs.symm.trans hmade)
        have hadds := addsOne_synthesize h hentry hmade
        simpa [hresult, hsame, hinfo, hsealed, hkind] using hadds

/-- A request fails for a base class that is missing and for a primitive type, both without a
change; the next one makes the accessor. -/
theorem synthesize_all_or_nothing_next :
    let w := Sample.space
    (∃ name source, (w.synthesize "Missing" Sample.next).1 =
      .error (.baseTypeMissing name source)) ∧ (w.synthesize "Missing" Sample.next).2 = w ∧
    (∃ source, (w.synthesize "boolean" Sample.next).1 = .error (.defineType source)) ∧
    (w.synthesize "boolean" Sample.next).2 = w ∧
    ∃ a w', w.synthesize Sample.baseType Sample.next = (.ok a, w') ∧
      w.AddsOne Sample.next a w' := by
  intro w
  have hhistory : w.registry.History w.table := .start Sample.reachable_table
  have hdeclared : w.table.Declares Sample.next := Sample.declares_next
  have hprimitive : w.table.lookup "boolean" = some ⟨3⟩ ∧ ∃ info, w.table.find? ⟨3⟩ = some info ∧
      (info.isSealed = true ∨ info.kind ≠ .reference) := by
    decide +kernel
  have hextensible : w.table.lookup Sample.baseType = some ⟨12⟩ ∧ ∃ info,
      w.table.find? ⟨12⟩ = some info ∧ info.isSealed = false ∧ info.kind = .reference := by
    decide +kernel
  obtain ⟨hboolean, info, hinfo, hfault⟩ := hprimitive
  obtain ⟨hbase, other, hother, hsound⟩ := hextensible
  obtain ⟨⟨-, hmissing⟩, -, -, hunchanged, -⟩ :=
    synthesize_all_or_nothing hhistory hdeclared "Missing"
  obtain ⟨-, ⟨-, hfaulty⟩, -, hunchanged', -⟩ :=
    synthesize_all_or_nothing hhistory hdeclared "boolean"
  obtain ⟨-, -, -, -, -, hadds⟩ := synthesize_all_or_nothing hhistory hdeclared Sample.baseType
  obtain ⟨name, source, hmissing⟩ := hmissing ⟨rfl, by decide +kernel⟩
  obtain ⟨fault, hfaulty⟩ := hfaulty ⟨rfl, ⟨3⟩, info, hboolean, hinfo, hfault⟩
  obtain ⟨a, w', hmade⟩ : ∃ a w', w.synthesize Sample.baseType Sample.next = (.ok a, w') :=
    exists_synthesize ⟨⟨12⟩, other, hbase, hother, hsound⟩ (by decide +kernel)
  rw [hmade] at hadds
  exact ⟨⟨name, source, hmissing⟩, hunchanged _ hmissing, ⟨fault, hfaulty⟩,
    hunchanged' _ hfaulty, a, w', hmade, hadds a rfl rfl⟩

end Workspace

end FieldUpdater
