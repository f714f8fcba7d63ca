import FieldUpdater.Proofs.Classes.Hierarchy
import Mathlib.Data.List.Infix

/-!
# Which field has which slot

List the instance fields of a class and its superclasses, those of the farthest superclass first:
they have the slots `0, 1, 2, …` in this order, as many as the class has. The list of a
superclass is the beginning of that of the class, so that its fields keep their slots. Static
fields are numbered for each class on its own. There is no definition that runs out of slots
without needing more of them than there are.
-/

namespace FieldUpdater

namespace ClassTable

variable {t t' : ClassTable} {c k id : ClassId} {info info' : ClassRecord} {f : Field}
  {d : ClassDecl} {superclass : Option ClassId}

/-- The fields that a class itself declares, in order: the static ones or the others. -/
def ownFields (t : ClassTable) (isStatic : Bool) (c : ClassId) : List Field :=
  ((t.find? c).map (·.fields.toList.filter (·.isStatic == isStatic))).getD []

/-- The instance fields of a class and its superclasses, the nearest class last. -/
def instanceFields (t : ClassTable) (c : ClassId) : List Field :=
  (t.lineage c).reverse.flatMap (t.ownFields false)

/-- A declaration with nothing against it but perhaps the number of its fields. -/
structure Definable (t : ClassTable) (d : ClassDecl) (superclass : Option ClassId) : Prop where
  free : t.lookup d.name = none
  extended : t.superclassFor d = .ok superclass
  base : ∀ base, superclass = some base →
    ∃ record, t.find? base = some record ∧ record.isSealed = false ∧ record.kind = .reference
  types : ∀ f ∈ d.fields, f.type.index < t.size

/-- The number of instance slots of a superclass, if there is one. -/
def slotsOf (t : ClassTable) (superclass : Option ClassId) : Nat :=
  ((superclass.bind t.find?).map (·.instanceSlots)).getD 0

/-- There are no slots for that many fields. -/
def Exceeds (t : ClassTable) (superclass : Option ClassId) (d : ClassDecl) : Prop :=
  maxSlots < t.slotsOf superclass + d.fields.countP (!·.isStatic) ∨
    maxSlots < d.fields.countP (·.isStatic)

theorem ownFields_eq (hinfo : t.find? c = some info) (isStatic : Bool) :
    t.ownFields isStatic c = info.fields.toList.filter (·.isStatic == isStatic) := by
  rw [ownFields, hinfo]
  rfl

/-- The instance fields of a class follow those of its superclass. -/
theorem Sound.instanceFields_eq (h : t.Sound) (c : ClassId) : t.instanceFields c =
    (t.superclass? c).elim [] t.instanceFields ++ t.ownFields false c := by
  rw [instanceFields, h.lineage_eq, List.reverse_cons, List.flatMap_append,
    List.flatMap_singleton]
  cases t.superclass? c <;> rfl

/-- The slots of a class's own instance fields are those after the inherited ones. -/
theorem Sound.slots_ownFields (h : t.Sound) (hinfo : t.find? c = some info) :
    ∃ count, info.instanceSlots = t.inherited info + count ∧
      (t.ownFields false c).map (·.slot) = List.range' (t.inherited info) count := by
  obtain ⟨count, hcount, hslots⟩ := (h c info hinfo).laidOut.instanceSlots
  refine ⟨count, hcount, ?_⟩
  rw [ownFields_eq hinfo, ← hslots]
  simp

/-- The instance fields of a class have its slots, each one of them, in order. -/
theorem Sound.slots_instanceFields (h : t.Sound) (hinfo : t.find? c = some info) :
    (t.instanceFields c).map (·.slot) = List.range info.instanceSlots := by
  fun_induction lineage t c generalizing info with
  | case1 c hnone =>
    obtain ⟨count, hcount, hown⟩ := h.slots_ownFields hinfo
    have hinherited : t.inherited info = 0 := by
      have hsuper : info.superclass = none := by simpa [superclass?, hinfo] using hnone
      simp [inherited, hsuper]
    rw [h.instanceFields_eq, hnone, Option.elim_none, List.nil_append, hown, hcount, hinherited,
      Nat.zero_add, List.range_eq_range']
  | case2 c base hbase hlt ih =>
    obtain ⟨count, hcount, hown⟩ := h.slots_ownFields hinfo
    obtain ⟨-, record, hrecord, hinherited⟩ := h.base hinfo hbase
    have happend := List.range'_append_1 (s := 0) (m := record.instanceSlots) (n := count)
    rw [Nat.zero_add] at happend
    rw [h.instanceFields_eq, hbase, Option.elim_some, List.map_append, ih hrecord, hown, hcount,
      hinherited, List.range_eq_range', List.range_eq_range', happend]
  | case3 c base hbase hlt => exact absurd (h.superclass?_lt hbase) hlt

/-- The static fields of a class have its static slots, each one of them, in order. -/
theorem Sound.slots_static (h : t.Sound) (hinfo : t.find? c = some info) :
    (t.ownFields true c).map (·.slot) = List.range info.staticSlots := by
  rw [ownFields_eq hinfo, ← (h c info hinfo).laidOut.staticSlots]
  simp

/-- A class of a lineage has the rest of the lineage for its own. -/
theorem lineage_suffix (h : k ∈ t.lineage c) : t.lineage k <:+ t.lineage c := by
  fun_induction lineage t c with
  | case1 c hnone =>
    rw [List.mem_singleton.mp h, lineage, hnone]
  | case2 c base hbase hlt ih =>
    rcases List.mem_cons.mp h with rfl | hmem
    · rw [lineage, hbase]
      simp [hlt]
    · exact (ih hmem).trans (List.suffix_cons c _)
  | case3 c base hbase hlt =>
    rw [List.mem_singleton.mp h, lineage, hbase]
    simp [hlt]

/-- The instance fields of a superclass are the first of those of the class. -/
theorem instanceFields_prefix (h : k ∈ t.lineage c) : t.instanceFields k <+: t.instanceFields c :=
  (List.reverse_prefix.mpr (lineage_suffix h)).flatMap _

/-- An instance field that the class or one of its superclasses declares. -/
structure HasField (t : ClassTable) (c : ClassId) (f : Field) : Prop where
  declared : t.Declares f
  isInstance : f.isStatic = false
  mem_lineage : f.declaring ∈ t.lineage c

/-- A field of a class has one of the class's slots. -/
theorem Sound.slot_lt (h : t.Sound) (hf : t.HasField c f) (hinfo : t.find? c = some info) :
    f.slot < info.instanceSlots := by
  obtain ⟨owner, howner, hmem⟩ := hf.declared
  exact (h.slot_bounds howner hmem hf.isInstance).2.trans_le
    (h.instanceSlots_le hf.mem_lineage hinfo howner)

/-- An instance field that is found on a class is one of every class that can stand for it. -/
theorem Sound.hasField_of_findField? (h : t.Sound) {name signature : String}
    (hfound : t.findField? k name signature = some f) (hinstance : f.isStatic = false)
    (hassignable : t.isAssignable c k = true) : t.HasField c f := by
  obtain ⟨owner, howner, hdeclared⟩ := exists_declaredField? hfound
  obtain ⟨record, hrecord, hmem, -, -⟩ := mem_of_declaredField? hdeclared
  have hdeclaring : f.declaring = owner := h.declaring_of_declaredField? hdeclared
  have hk : k ∈ t.lineage c := by simpa [isAssignable] using hassignable
  subst hdeclaring
  exact ⟨⟨record, hrecord, hmem⟩, hinstance, (lineage_suffix hk).subset howner⟩

/-- A class has no other fields when the table has grown. -/
theorem HasField.of_extends (hf : t'.HasField c f) (hextends : t.Extends t')
    (hc : c.index < t.size) : t.HasField c f := by
  have hmem := hf.mem_lineage
  rw [hextends.lineage hc] at hmem
  obtain ⟨record', hrecord', hdeclared⟩ := hf.declared
  obtain ⟨record, hrecord, hadvance⟩ :=
    hextends.exists_of_lt ((index_le_of_mem_lineage hmem).trans_lt hc) hrecord'
  rw [hadvance.eq] at hdeclared
  exact ⟨⟨record, hrecord, hdeclared⟩, hf.isInstance, hmem⟩

/-- Slots are within their number. -/
structure BoundedClass (_ : ClassTable) (_ : ClassId) (info : ClassRecord) : Prop where
  instanceSlots : info.instanceSlots ≤ maxSlots
  staticSlots : info.staticSlots ≤ maxSlots

/-- Fields are not laid out beyond the last slot. -/
theorem slots_le_of_layOut {name : String} {ds : List FieldDecl} {l l' : Layout}
    (hl : l.instanceSlots ≤ maxSlots ∧ l.staticSlots ≤ maxSlots)
    (h : t.layOut id name ds l = .ok l') :
    l'.instanceSlots ≤ maxSlots ∧ l'.staticSlots ≤ maxSlots := by
  induction ds generalizing l with
  | nil =>
    cases h
    exact hl
  | cons d ds ih =>
    obtain ⟨type, -, hslot, hrest⟩ := of_layOut_cons h
    refine ih ?_ hrest
    cases hd : d.isStatic with
    | true =>
      simp only [Layout.next, Layout.place, hd, ↓reduceIte] at hslot ⊢
      omega
    | false =>
      simp only [Layout.next, Layout.place, hd, Bool.false_eq_true, ↓reduceIte] at hslot ⊢
      omega

/-- Classes have no more slots than there are when they are added, and get no more. -/
theorem boundedClass_invariant : ClassInvariant BoundedClass where
  grows _ _ hadvance h := by
    rw [hadvance.eq]
    exact ⟨h.instanceSlots, h.staticSlots⟩
  added := by
    intro t t' d outer stage id info hall _ hadd hinfo
    obtain ⟨superclass, slots, layout, -, hslots, hlayout, hfind⟩ := find?_of_add hadd
    obtain rfl := Option.some.inj (hfind.symm.trans hinfo)
    have hinherited : slots ≤ maxSlots := by
      cases superclass with
      | none =>
        obtain rfl := Except.ok.inj hslots
        exact Nat.zero_le _
      | some base =>
        obtain ⟨record, hrecord, -, -, rfl⟩ := inheritedSlots_eq_ok_iff.mp hslots
        exact (hall base record hrecord).instanceSlots
    have hle := slots_le_of_layOut (l := { instanceSlots := slots })
      ⟨hinherited, Nat.zero_le _⟩ hlayout
    exact ⟨hle.1, hle.2⟩

/-- Every class of a reachable table has no more slots than there are. -/
theorem Reachable.bounded (h : t.Reachable) :
    ∀ c info, t.find? c = some info → t.BoundedClass c info :=
  boundedClass_invariant.reachable h

/-- Fields of classes of the table are laid out unless there are no slots for them, and then that
is what is wrong. -/
theorem layOut_eq_error_iff {name : String} {ds : List FieldDecl} {l : Layout} {err : TableError}
    (htypes : ∀ d ∈ ds, d.type.index < t.size)
    (hl : l.instanceSlots ≤ maxSlots ∧ l.staticSlots ≤ maxSlots) :
    t.layOut id name ds l = .error err ↔ err = .tooManySlots name ∧
      (maxSlots < l.instanceSlots + ds.countP (!·.isStatic) ∨
        maxSlots < l.staticSlots + ds.countP (·.isStatic)) := by
  induction ds generalizing l with
  | nil =>
    have hno : ¬ (maxSlots < l.instanceSlots ∨ maxSlots < l.staticSlots) := by omega
    simpa [layOut] using fun _ => hno
  | cons d ds ih =>
    obtain ⟨type, htype⟩ := exists_find? (htypes d List.mem_cons_self)
    rw [layOut_cons htype, List.countP_cons, List.countP_cons]
    cases hd : d.isStatic with
    | true =>
      simp only [Layout.next, ↓reduceIte, Bool.not_true, Bool.false_eq_true, Nat.add_zero]
      split
      · rename_i hslot
        rw [ih (fun d hd => htypes d (List.mem_cons_of_mem _ hd))
          (by simp only [Layout.place, hd, ↓reduceIte]; omega)]
        simp only [Layout.place, hd, ↓reduceIte, Nat.add_zero, Nat.add_assoc, Nat.add_comm 1]
      · have hexceeds : maxSlots < l.staticSlots + (ds.countP (·.isStatic) + 1) := by omega
        simp [hexceeds, eq_comm]
    | false =>
      simp only [Layout.next, Bool.false_eq_true, ↓reduceIte, Bool.not_false, Nat.add_zero]
      split
      · rename_i hslot
        rw [ih (fun d hd => htypes d (List.mem_cons_of_mem _ hd))
          (by simp only [Layout.place, hd, Bool.false_eq_true, ↓reduceIte]; omega)]
        simp only [Layout.place, hd, Bool.false_eq_true, ↓reduceIte, Nat.add_zero, Nat.add_assoc,
          Nat.add_comm 1]
      · have hexceeds : maxSlots < l.instanceSlots + (ds.countP (!·.isStatic) + 1) := by omega
        simp [hexceeds, eq_comm]

/-- The superclass of a declaration gives it the slots that it has. -/
theorem Definable.inheritedSlots_eq (h : t.Definable d superclass) :
    t.inheritedSlots d.name superclass = .ok (t.slotsOf superclass) := by
  cases hsuper : superclass with
  | none => rfl
  | some base =>
    obtain ⟨record, hrecord, hsealed, hkind⟩ := h.base base hsuper
    exact inheritedSlots_eq_ok_iff.mpr
      ⟨record, hrecord, hsealed, hkind, by simp [slotsOf, hrecord]⟩

/-- A declaration with nothing else against it is refused exactly for want of slots. -/
theorem Reachable.define_eq_error_iff (ht : t.Reachable) (h : t.Definable d superclass)
    (err : TableError) :
    t.define d = .error err ↔ err = .tooManySlots d.name ∧ t.Exceeds superclass d := by
  have hslots : t.slotsOf superclass ≤ maxSlots := by
    cases hsuper : superclass with
    | none => exact Nat.zero_le _
    | some base =>
      obtain ⟨record, hrecord, -⟩ := h.base base hsuper
      simpa [slotsOf, hrecord] using (ht.bounded base record hrecord).instanceSlots
  have hlayout : t.layOut ⟨t.size⟩ d.name d.fields { instanceSlots := t.slotsOf superclass } =
      .error err ↔ err = .tooManySlots d.name ∧ t.Exceeds superclass d := by
    rw [layOut_eq_error_iff h.types ⟨hslots, Nat.zero_le _⟩, Nat.zero_add]
    rfl
  rw [← hlayout, define, add, h.free]
  simp only [Option.isSome_none, Bool.false_eq_true, ↓reduceIte, h.extended, h.inheritedSlots_eq,
    bind, Except.bind]
  cases t.layOut ⟨t.size⟩ d.name d.fields { instanceSlots := t.slotsOf superclass } with
  | error err' => simp
  | ok layout => simp

end ClassTable

end FieldUpdater
