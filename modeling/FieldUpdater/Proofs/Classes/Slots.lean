import FieldUpdater.Proofs.Classes.Reachable
import Mathlib.Data.List.Nodup

/-!
# Slots of fields

A class lays out its instance fields in the slots after those of its superclass. In
every table that the operations on tables lead to, the fields along a lineage therefore
have slots of their own, within the slots of the class.
-/

namespace FieldUpdater

namespace ClassTable

/-- The number of instance slots that a class has from its superclass. -/
def inherited (t : ClassTable) (info : ClassRecord) : Nat :=
  ((info.superclass.bind t.find?).map (·.instanceSlots)).getD 0

/-- A class declares the field. -/
def Declares (t : ClassTable) (f : Field) : Prop :=
  ∃ info, t.find? f.declaring = some info ∧ f ∈ info.fields

/-- Slots are given out in the order of declaration, from the first free one on. -/
structure LaidOut (id : ClassId) (first : Nat) (l : Layout) : Prop where
  declaring : ∀ f ∈ l.fields, f.declaring = id
  instanceSlots : ∃ count, l.instanceSlots = first + count ∧
    (l.fields.toList.filter (!·.isStatic)).map (·.slot) = List.range' first count
  staticSlots : (l.fields.toList.filter (·.isStatic)).map (·.slot) = List.range l.staticSlots

/-- A class follows the one that it extends and lays its fields out after those inherited. -/
structure SoundClass (t : ClassTable) (c : ClassId) (info : ClassRecord) : Prop where
  superclass_lt : ∀ base, info.superclass = some base → base.index < c.index
  laidOut : LaidOut c (t.inherited info) ⟨info.fields, info.instanceSlots, info.staticSlots⟩

/-- Every class of the table is laid out after its superclass. -/
def Sound (t : ClassTable) : Prop := ∀ c info, t.find? c = some info → t.SoundClass c info

variable {t t' : ClassTable} {c k k' id : ClassId} {info info' : ClassRecord} {f f' : Field}

/-- The next free slot among the static ones or among those of instances. -/
def Layout.next (l : Layout) (isStatic : Bool) : Nat :=
  if isStatic then l.staticSlots else l.instanceSlots

/-- The layout with one more field, in the next free slot. -/
def Layout.place (l : Layout) (id : ClassId) (d : FieldDecl) (type : ClassRecord) : Layout where
  fields := l.fields.push
    ⟨⟨id, d.name, type.signature⟩, d.type, d.isStatic, d.isVolatile, l.next d.isStatic⟩
  instanceSlots := l.instanceSlots + if d.isStatic then 0 else 1
  staticSlots := l.staticSlots + if d.isStatic then 1 else 0

/-- A field of a class of the table is laid out if there is a slot for it. -/
theorem layOut_cons {name : String} {d : FieldDecl} {ds : List FieldDecl} {l : Layout}
    {type : ClassRecord} (htype : t.find? d.type = some type) :
    t.layOut id name (d :: ds) l =
      if l.next d.isStatic < maxSlots then t.layOut id name ds (l.place id d type)
      else .error (.tooManySlots name) := by
  rw [layOut, ClassTable.get, htype]
  cases hd : d.isStatic <;> simp [Layout.next, Layout.place, hd]

/-- Fields that are laid out begin with one that there is a slot for. -/
theorem of_layOut_cons {name : String} {d : FieldDecl} {ds : List FieldDecl} {l l' : Layout}
    (h : t.layOut id name (d :: ds) l = .ok l') :
    ∃ type, t.find? d.type = some type ∧ l.next d.isStatic < maxSlots ∧
      t.layOut id name ds (l.place id d type) = .ok l' := by
  cases htype : t.find? d.type with
  | none => simp [layOut, ClassTable.get, htype] at h
  | some type =>
    rw [layOut_cons htype] at h
    split at h
    · rename_i hslot
      exact ⟨type, rfl, hslot, h⟩
    · cases h

/-- One more field keeps slots in order. -/
theorem LaidOut.place {first : Nat} {l : Layout} (hl : LaidOut id first l) (d : FieldDecl)
    (type : ClassRecord) : LaidOut id first (l.place id d type) := by
  obtain ⟨count, hcount, hslots⟩ := hl.instanceSlots
  have hstatic := hl.staticSlots
  constructor
  · intro f hf
    rcases Array.mem_push.mp hf with hold | rfl
    · exact hl.declaring f hold
    · rfl
  · cases hd : d.isStatic with
    | true => exact ⟨count, by simp [Layout.place, hd, hcount], by simp [Layout.place, hd, hslots]⟩
    | false =>
      refine ⟨count + 1, by simp [Layout.place, hd, hcount, Nat.add_assoc], ?_⟩
      simp [Layout.place, Layout.next, hd, hslots, hcount, List.range'_concat]
  · cases hd : d.isStatic with
    | true => simp [Layout.place, Layout.next, hd, hstatic, List.range_succ]
    | false => simp [Layout.place, hd, hstatic]

/-- Laying out further fields keeps slots in order. -/
theorem LaidOut.layOut {name : String} {ds : List FieldDecl} {first : Nat} {l l' : Layout}
    (hl : LaidOut id first l) (h : t.layOut id name ds l = .ok l') : LaidOut id first l' := by
  induction ds generalizing l with
  | nil =>
    cases h
    exact hl
  | cons d ds ih =>
    obtain ⟨type, -, -, hrest⟩ := of_layOut_cons h
    exact ih (hl.place d type) hrest

/-- A superclass found for a declaration is a class of the table, and its slots are those
inherited. -/
theorem inherited_of_add {d : ClassDecl} {superclass : Option ClassId} {slots : Nat}
    (h : t.inheritedSlots d.name superclass = .ok slots) :
    (∀ base, superclass = some base → base.index < t.size) ∧
      ((superclass.bind t.find?).map (·.instanceSlots)).getD 0 = slots := by
  cases superclass with
  | none =>
    cases h
    exact ⟨by simp, rfl⟩
  | some base =>
    obtain ⟨info, hbase, -, -, hslots⟩ := inheritedSlots_eq_ok_iff.mp h
    refine ⟨?_, by simp [hbase, hslots]⟩
    rintro _ ⟨⟩
    exact lt_size_of_find? hbase

/-- What a class inherits does not change. -/
theorem Extends.inherited (h : t.Extends t') (hadvance : info.Advances info')
    (hbase : ∀ base, info.superclass = some base → base.index < t.size) :
    t'.inherited info' = t.inherited info := by
  have hsuper : info'.superclass = info.superclass := by rw [hadvance.eq]
  unfold ClassTable.inherited
  rw [hsuper]
  cases hsuperclass : info.superclass with
  | none => rfl
  | some base =>
    obtain ⟨record, hrecord⟩ := exists_find? (hbase base hsuperclass)
    obtain ⟨record', hrecord', hadvance'⟩ := h.find? base record hrecord
    simp only [Option.bind_some, hrecord, hrecord', Option.map_some, Option.getD_some]
    rw [hadvance'.eq]

/-- A sound class stays sound. -/
theorem SoundClass.extends (h : t.SoundClass c info) (hc : c.index < t.size)
    (hextends : t.Extends t') (hadvance : info.Advances info') : t'.SoundClass c info' := by
  have hinherited := hextends.inherited hadvance fun base hbase =>
    (h.superclass_lt base hbase).trans hc
  constructor
  · intro base hbase
    rw [hadvance.eq] at hbase
    exact h.superclass_lt base hbase
  · rw [hinherited, hadvance.eq]
    exact h.laidOut

/-- Classes are sound when they are added, and stay so. -/
theorem soundClass_invariant : ClassInvariant SoundClass where
  grows hc hextends hadvance h := h.extends hc hextends hadvance
  added := by
    intro t t' d outer stage id info _ _ hadd hinfo
    have hextends := extends_of_add hadd
    obtain ⟨-, rfl, superclass, slots, layout, -, hslots, hlayout, rfl⟩ := of_add hadd
    obtain rfl : recordOf d ⟨t.size⟩ outer stage superclass layout = info :=
      Option.some.inj ((find?_push t _).symm.trans hinfo)
    obtain ⟨hbase, hinherited⟩ := inherited_of_add hslots
    have hlaid : LaidOut ⟨t.size⟩ slots layout :=
      LaidOut.layOut (l := { instanceSlots := slots }) ⟨by simp, ⟨0, rfl, rfl⟩, rfl⟩ hlayout
    have hslots : t.inherited (recordOf d ⟨t.size⟩ outer stage superclass layout) = slots :=
      hinherited
    refine ⟨hbase, ?_⟩
    rw [hextends.inherited (.refl _) hbase, hslots]
    exact hlaid

/-- Every table that operations lead to is sound. -/
theorem Reachable.sound (h : t.Reachable) : t.Sound := soundClass_invariant.reachable h

/-- A declared field stays declared. -/
theorem Declares.extends (h : t.Declares f) (hextends : t.Extends t') : t'.Declares f := by
  obtain ⟨info, hinfo, hf⟩ := h
  obtain ⟨info', hinfo', hadvance⟩ := hextends.find? _ info hinfo
  exact ⟨info', hinfo', by rw [hadvance.eq]; exact hf⟩

/-- A field that a class is found to declare is one of its fields. -/
theorem mem_of_declaredField? {name signature : String}
    (h : t.declaredField? c name signature = some f) :
    ∃ info, t.find? c = some info ∧ f ∈ info.fields ∧ f.name = name ∧ f.signature = signature := by
  obtain ⟨info, hinfo, hfirst⟩ := Option.bind_eq_some_iff.mp h
  have hsame := Array.find?_some hfirst
  obtain ⟨hname, hsignature⟩ := of_decide_eq_true hsame
  exact ⟨info, hinfo, Array.mem_of_find?_eq_some hfirst, hname, hsignature⟩

/-- A field that is found is declared by a class of the lineage. -/
theorem exists_declaredField? {name signature : String}
    (h : t.findField? c name signature = some f) :
    ∃ k ∈ t.lineage c, t.declaredField? k name signature = some f :=
  List.exists_of_findSome?_eq_some h

/-- A declared field belongs to the class that declares it. -/
theorem Sound.declaring_of_declaredField? (ht : t.Sound) {name signature : String}
    (h : t.declaredField? c name signature = some f) : f.declaring = c := by
  obtain ⟨info, hinfo, hmem, -, -⟩ := mem_of_declaredField? h
  exact (ht c info hinfo).laidOut.declaring f hmem

/-- The superclass of a sound class is a class of the table, whose slots are inherited. -/
theorem Sound.base (h : t.Sound) (hinfo : t.find? c = some info) {base : ClassId}
    (hbase : t.superclass? c = some base) : base.index < c.index ∧
      ∃ record, t.find? base = some record ∧ t.inherited info = record.instanceSlots := by
  have hsuper : info.superclass = some base := by
    simpa [ClassTable.superclass?, hinfo] using hbase
  have hlt := (h c info hinfo).superclass_lt base hsuper
  obtain ⟨record, hrecord⟩ := exists_find? (hlt.trans (lt_size_of_find? hinfo))
  exact ⟨hlt, record, hrecord, by simp [ClassTable.inherited, hsuper, hrecord]⟩

/-- An instance field has a slot after those inherited and within those of its class. -/
theorem Sound.slot_bounds (h : t.Sound) (hinfo : t.find? c = some info) (hf : f ∈ info.fields)
    (hinstance : f.isStatic = false) :
    t.inherited info ≤ f.slot ∧ f.slot < info.instanceSlots := by
  obtain ⟨count, hcount, hslots⟩ := (h c info hinfo).laidOut.instanceSlots
  have hmem : f.slot ∈ (info.fields.toList.filter (!·.isStatic)).map (·.slot) :=
    List.mem_map_of_mem (List.mem_filter.mpr ⟨Array.mem_toList_iff.mpr hf, by simp [hinstance]⟩)
  rw [hslots, List.mem_range'_1] at hmem
  dsimp only at hcount
  omega

/-- Instance fields of one class have different slots. -/
theorem Sound.eq_of_slot (h : t.Sound) (hinfo : t.find? c = some info) (hf : f ∈ info.fields)
    (hf' : f' ∈ info.fields) (hinstance : f.isStatic = false) (hinstance' : f'.isStatic = false)
    (hslot : f.slot = f'.slot) : f = f' := by
  obtain ⟨count, -, hslots⟩ := (h c info hinfo).laidOut.instanceSlots
  have hnodup : ((info.fields.toList.filter (!·.isStatic)).map (·.slot)).Nodup := by
    rw [hslots]
    exact List.nodup_range'
  refine List.inj_on_of_nodup_map hnodup ?_ ?_ hslot
  · exact List.mem_filter.mpr ⟨Array.mem_toList_iff.mpr hf, by simp [hinstance]⟩
  · exact List.mem_filter.mpr ⟨Array.mem_toList_iff.mpr hf', by simp [hinstance']⟩

/-- A class has at least the slots of every class of its lineage. -/
theorem Sound.instanceSlots_le (h : t.Sound) (hk : k ∈ t.lineage c)
    (hinfo : t.find? c = some info) (hinfo' : t.find? k = some info') :
    info'.instanceSlots ≤ info.instanceSlots := by
  fun_induction lineage t c generalizing info with
  | case1 c hnone =>
    obtain rfl := List.mem_singleton.mp hk
    rw [Option.some.inj (hinfo.symm.trans hinfo')]
  | case2 c base hbase hlt ih =>
    obtain ⟨-, record, hrecord, hinherited⟩ := h.base hinfo hbase
    obtain ⟨count, hcount, -⟩ := (h c info hinfo).laidOut.instanceSlots
    rcases List.mem_cons.mp hk with rfl | hmem
    · rw [Option.some.inj (hinfo.symm.trans hinfo')]
    · have hle := ih hmem hrecord
      dsimp only at hcount
      omega
  | case3 c base hbase hlt =>
    exact absurd (h.base hinfo hbase).1 hlt

/-- Instance fields along a lineage have different slots. -/
theorem Sound.eq_of_slot_lineage (h : t.Sound) (hc : c.index < t.size)
    (hf : t.Declares f) (hf' : t.Declares f') (hinstance : f.isStatic = false)
    (hinstance' : f'.isStatic = false) (hk : f.declaring ∈ t.lineage c)
    (hk' : f'.declaring ∈ t.lineage c) (hslot : f.slot = f'.slot) : f = f' := by
  obtain ⟨info, hinfo, hmem⟩ := hf
  obtain ⟨info', hinfo', hmem'⟩ := hf'
  have hbounds := h.slot_bounds hinfo hmem hinstance
  have hbounds' := h.slot_bounds hinfo' hmem' hinstance'
  have hsame (heq : f.declaring = f'.declaring) : f = f' := by
    rw [heq] at hinfo
    obtain rfl := Option.some.inj (hinfo.symm.trans hinfo')
    exact h.eq_of_slot hinfo hmem hmem' hinstance hinstance' hslot
  fun_induction lineage t c with
  | case1 c hnone =>
    exact hsame ((List.mem_singleton.mp hk).trans (List.mem_singleton.mp hk').symm)
  | case2 c base hbase hlt ih =>
    -- A field of the class lies after every field of a superclass.
    obtain ⟨record, hrecord⟩ := exists_find? hc
    obtain ⟨-, recordBase, hrecordBase, hinherited⟩ := h.base hrecord hbase
    rcases List.mem_cons.mp hk with heq | hin <;> rcases List.mem_cons.mp hk' with heq' | hin'
    · exact hsame (heq.trans heq'.symm)
    · have hle := h.instanceSlots_le hin' hrecordBase hinfo'
      rw [heq] at hinfo
      obtain rfl := Option.some.inj (hrecord.symm.trans hinfo)
      omega
    · have hle := h.instanceSlots_le hin hrecordBase hinfo
      rw [heq'] at hinfo'
      obtain rfl := Option.some.inj (hrecord.symm.trans hinfo')
      omega
    · exact ih (hlt.trans hc) hin hin'
  | case3 c base hbase hlt =>
    obtain ⟨record, hrecord⟩ := exists_find? hc
    exact absurd (h.base hrecord hbase).1 hlt

end ClassTable

end FieldUpdater
