import FieldUpdater.Proofs.Accessors.Synthesis
import Mathlib.Data.Fintype.Pigeonhole
import Std.Data.String.ToNat

/-!
# Free names

The candidates for the name of an accessor are all different, so that one of more candidates
than classes is free, and the class of the accessor gets the first that is. A request for the
accessor of a field therefore succeeds, whatever classes have come before, as soon as the class
that accessors extend can be extended; and if it cannot, no accessor is ever made.
-/

namespace FieldUpdater

/-- Why a class cannot be extended, if it cannot. -/
def ClassRecord.baseFault? (info : ClassRecord) : Option BaseFault :=
  if info.isSealed then some .isSealed
  else if info.kind ≠ .reference then some .notReference
  else none

theorem ClassRecord.baseFault?_eq_none_iff {info : ClassRecord} :
    info.baseFault? = none ↔ info.isSealed = false ∧ info.kind = .reference := by
  unfold ClassRecord.baseFault?
  split
  · simp_all
  · split <;> simp_all

theorem ClassRecord.exists_baseFault? {info : ClassRecord} :
    (∃ fault, info.baseFault? = some fault) ↔ info.isSealed = true ∨ info.kind ≠ .reference := by
  rw [← Option.isSome_iff_exists, Option.isSome_iff_ne_none, ne_eq, baseFault?_eq_none_iff]
  cases info.isSealed <;> simp

namespace ClassTable

variable {t : ClassTable} {owner base : ClassId} {outer info : ClassRecord} {name : String}

/-- The slots of a class are inherited unless it has a fault. -/
theorem inheritedSlots_eq (hbase : t.find? base = some info) (name : String) :
    t.inheritedSlots name (some base) =
      match info.baseFault? with
      | some fault => .error (.invalidBase name info.name fault)
      | none => .ok info.instanceSlots := by
  have hget : t.get base = .ok info := by rw [ClassTable.get, hbase]
  unfold inheritedSlots ClassRecord.baseFault?
  simp only [hget]
  split
  · rfl
  · split <;> rfl

/-- The table with one more class, sealed and private, nested in another. -/
def withNested (t : ClassTable) (owner base : ClassId) (name : String) (slots : Nat) :
    ClassTable :=
  let info : ClassRecord :=
    { id := ⟨t.size⟩, name, kind := .reference, signature := signatureOf .reference name,
      superclass := some base, outer := some owner, visibility := .nestedPrivate, isSealed := true,
      fields := #[], instanceSlots := slots, staticSlots := 0, stage := .defining, baked := false }
  { t with classes := t.classes.push info }

/-- A class added under a free name is found under it. -/
theorem lookup_withNested (owner base : ClassId) (slots : Nat) (hfree : t.lookup name = none) :
    (t.withNested owner base name slots).lookup name = some ⟨t.size⟩ :=
  (lookup_push hfree name).trans (if_pos rfl)

/-- A nested class with a free name is added if it can inherit slots. -/
theorem defineNested_of_free (howner : t.find? owner = some outer)
    (hfree : t.lookup (nestedName outer.name name) = none) :
    t.defineNested owner name base .nestedPrivate true =
      (t.inheritedSlots (nestedName outer.name name) (some base)).map fun slots =>
        (⟨t.size⟩, t.withNested owner base (nestedName outer.name name) slots) := by
  have hsuper : t.superclassFor ⟨nestedName outer.name name, .reference, some base,
      .nestedPrivate, true, []⟩ = .ok (some base) := superclassFor_eq rfl
  unfold defineNested ClassTable.get
  rw [howner]
  dsimp only [bind, Except.bind]
  unfold add
  simp only [hfree, Option.isSome_none, Bool.false_eq_true, ite_false, hsuper, bind, Except.bind,
    layOut]
  cases t.inheritedSlots (nestedName outer.name name) (some base) <;> rfl

end ClassTable

namespace Accessor

open ClassTable (nestedName)

variable {t : ClassTable} {owner base : ClassId} {outer info : ClassRecord} {simple : String}
  {k : Nat}

/-- Different candidates are different names. -/
theorem candidate_injective (simple : String) : Function.Injective (candidate simple) := by
  have hlonger (n : Nat) : simple ≠ candidate simple (n + 1) := by
    intro heq
    have hlength := congrArg String.length heq
    have hone : "$".length = 1 := rfl
    rw [candidate, String.length_append, String.length_append] at hlength
    omega
  intro n n' heq
  cases n with
  | zero =>
    cases n' with
    | zero => rfl
    | succ n' => exact absurd heq (hlonger n')
  | succ n =>
    cases n' with
    | zero => exact absurd heq.symm (hlonger n)
    | succ n' =>
      have hrepr : (n + 1).repr = (n' + 1).repr := by simpa [candidate] using heq
      exact Nat.repr_inj.mp hrepr

/-- Of more candidates than classes one is no class's name. -/
theorem exists_free (t : ClassTable) (outer simple : String) :
    ∃ n < t.size + 1, t.lookup (nestedName outer (candidate simple n)) = none := by
  by_contra hnone
  push Not at hnone
  have htaken (n : Fin (t.size + 1)) : ∃ id info, t.find? id = some info ∧
      info.name = nestedName outer (candidate simple n) := by
    obtain ⟨id, hid⟩ := Option.ne_none_iff_exists'.mp (hnone n n.isLt)
    obtain ⟨⟨info, hinfo, hname⟩, -⟩ := ClassTable.lookup_eq_some_iff.mp hid
    exact ⟨id, info, hinfo, hname⟩
  choose id info hinfo hname using htaken
  obtain ⟨n, n', hne, heq⟩ := Fintype.exists_ne_map_eq_of_card_lt
    (fun n => (⟨(id n).index, ClassTable.lt_size_of_find? (hinfo n)⟩ : Fin t.size)) (by simp)
  have hid : id n = id n' := congrArg ClassId.mk (Fin.mk.inj heq)
  have hrecord : info n = info n' := Option.some.inj ((hinfo n).symm.trans (hid ▸ hinfo n'))
  have hnames := (hname n).symm.trans ((congrArg ClassRecord.name hrecord).trans (hname n'))
  refine hne (Fin.ext (candidate_injective simple ?_))
  simpa [nestedName] using hnames

/-- The first candidate that names no class of the table. -/
structure FirstFree (t : ClassTable) (outer simple : String) (k : Nat) : Prop where
  free : t.lookup (nestedName outer (candidate simple k)) = none
  taken : ∀ j < k, t.lookup (nestedName outer (candidate simple j)) ≠ none

/-- Among as many candidates as there are classes and one more there is a first free one. -/
theorem exists_firstFree (t : ClassTable) (outer simple : String) :
    ∃ k ≤ t.size, FirstFree t outer simple k := by
  obtain ⟨n, hn, hfree⟩ := exists_free t outer simple
  have hexists : ∃ n, t.lookup (nestedName outer (candidate simple n)) = none := ⟨n, hfree⟩
  have hle : Nat.find hexists ≤ n := Nat.find_min' hexists hfree
  exact ⟨Nat.find hexists, by omega, Nat.find_spec hexists, fun j hj => Nat.find_min hexists hj⟩

/-- Only one candidate is the first free one. -/
theorem FirstFree.unique {outer : String} {n : Nat} (h : FirstFree t outer simple k)
    (h' : FirstFree t outer simple n) : k = n := by
  rcases Nat.lt_trichotomy k n with hlt | heq | hlt
  · exact absurd h.free (h'.taken k hlt)
  · exact heq
  · exact absurd h'.free (h.taken n hlt)

/-- The name chosen is the first free candidate. -/
theorem FirstFree.freeName_eq {outer : String} (h : FirstFree t outer simple k) (hk : k ≤ t.size) :
    freeName t outer simple = candidate simple k := by
  have hfound : ((List.range (t.size + 1)).find? fun n =>
      (t.lookup (nestedName outer (candidate simple n))).isNone) = some k := by
    rw [List.find?_range_eq_some]
    refine ⟨by simp [h.free], by simp; omega, fun j hj => ?_⟩
    simpa [Option.isSome_iff_ne_none] using h.taken j hj
  unfold freeName
  rw [hfound]
  rfl

/-- The class of an accessor is added under the first free name, or refused for the fault of its
superclass. -/
theorem defineClass_eq (howner : t.find? owner = some outer) (hbase : t.find? base = some info)
    (hfirst : FirstFree t outer.name simple k) (hk : k ≤ t.size) :
    let name := nestedName outer.name (candidate simple k)
    defineClass t owner simple base =
      match info.baseFault? with
      | some fault => .error (.invalidBase name info.name fault)
      | none => .ok (⟨t.size⟩, t.withNested owner base name info.instanceSlots) := by
  have hget : t.get owner = .ok outer := by rw [ClassTable.get, howner]
  unfold defineClass
  simp only [hget, bind, Except.bind]
  rw [hfirst.freeName_eq hk, ClassTable.defineNested_of_free howner hfirst.free,
    ClassTable.inheritedSlots_eq hbase]
  cases info.baseFault? <;> rfl

/-- The class of an accessor can be defined when its superclass can be extended. -/
theorem exists_defineClass (hbase : t.find? base = some info) (hsealed : info.isSealed = false)
    (hkind : info.kind = .reference) (howner : owner.index < t.size) (simple : String) :
    ∃ result, defineClass t owner simple base = .ok result := by
  obtain ⟨outer, houter⟩ := ClassTable.exists_find? howner
  obtain ⟨k, hk, hfirst⟩ := exists_firstFree t outer.name simple
  have hdefined := defineClass_eq houter hbase hfirst hk
  simp only [ClassRecord.baseFault?_eq_none_iff.mpr ⟨hsealed, hkind⟩] at hdefined
  exact ⟨_, hdefined⟩

/-- Only a class that can be extended is the superclass of an accessor's. -/
theorem base_of_defineClass {t' : ClassTable} {id : ClassId}
    (h : defineClass t owner simple base = .ok (id, t')) :
    ∃ info, t.find? base = some info ∧ info.isSealed = false ∧ info.kind = .reference := by
  obtain ⟨_, hadd⟩ := add_of_defineClass h
  obtain ⟨-, -, superclass, inherited, layout, hsuper, hslots, -, -⟩ := ClassTable.of_add hadd
  obtain rfl : superclass = some base :=
    Except.ok.inj (hsuper.symm.trans (ClassTable.superclassFor_eq rfl))
  obtain ⟨info, hinfo, hsealed, hkind, -⟩ := ClassTable.inheritedSlots_eq_ok_iff.mp hslots
  exact ⟨info, hinfo, hsealed, hkind⟩

end Accessor

/-- A class of this name can be extended. -/
def ClassTable.Extensible (t : ClassTable) (name : String) : Prop :=
  ∃ base info, t.lookup name = some base ∧ t.find? base = some info ∧ info.isSealed = false ∧
    info.kind = .reference

/-- A class that can be extended can be so while the table grows. -/
theorem ClassTable.Extensible.extends {t t' : ClassTable} {name : String} (h : t.Extensible name)
    (hextends : t.Extends t') : t'.Extensible name := by
  obtain ⟨base, info, hlookup, hinfo, hsealed, hkind⟩ := h
  obtain ⟨info', hinfo', hadvance⟩ := hextends.find? base info hinfo
  refine ⟨base, info', hextends.lookup hlookup, hinfo', ?_⟩
  rw [hadvance.eq]
  exact ⟨hsealed, hkind⟩

namespace Workspace

variable {w : Workspace} {baseType : String} {f : Field}

/-- A request for an accessor succeeds when the class that accessors extend can be extended. -/
theorem exists_synthesize (h : w.table.Extensible baseType)
    (hdeclaring : f.declaring.index < w.table.size) :
    ∃ a w', w.synthesize baseType f = (.ok a, w') := by
  obtain ⟨base, info, hlookup, hinfo, hsealed, hkind⟩ := h
  have hrequire : w.table.require baseType = .ok base := by rw [ClassTable.require, hlookup]
  have hsynthesized := w.synthesized baseType f
  generalize hresult : w.synthesize baseType f = result at hsynthesized ⊢
  obtain ⟨outcome, w'⟩ := result
  dsimp only at hsynthesized
  cases hsynthesized with
  | found _ => exact ⟨_, _, rfl⟩
  | baseMissing _ hmissing =>
    rw [hrequire] at hmissing
    cases hmissing
  | undefinable _ hrequired hrefused =>
    obtain rfl : base = _ := Except.ok.inj (hrequire.symm.trans hrequired)
    obtain ⟨_, hdefined⟩ :=
      Accessor.exists_defineClass hinfo hsealed hkind hdeclaring (Accessor.simpleName f)
    rw [hrefused] at hdefined
    cases hdefined
  | made _ _ _ _ _ _ _ => exact ⟨_, _, rfl⟩

/-- No accessor is made when the class that accessors extend cannot be extended. -/
theorem synthesize_of_not_extensible (h : ¬ w.table.Extensible baseType) (f : Field) :
    (w.synthesize baseType f).2 = w := by
  refine synthesize_keeps (P := (· = w)) rfl baseType f fun a t _ hrequired hdefined _ _ => ?_
  refine absurd ?_ h
  have hlookup : w.table.lookup baseType = some a.base := by
    unfold ClassTable.require at hrequired
    split at hrequired
    · rename_i id hid
      rw [hid, Except.ok.inj hrequired]
    · cases hrequired
  obtain ⟨info, hinfo, hsealed, hkind⟩ := Accessor.base_of_defineClass hdefined
  exact ⟨a.base, info, hlookup, hinfo, hsealed, hkind⟩

end Workspace

end FieldUpdater
