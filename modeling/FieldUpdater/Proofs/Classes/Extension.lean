import FieldUpdater.Classes.Lineage
import FieldUpdater.Classes.Resolve
import Mathlib.Order.Monotone.Basic

/-!
# Growth of class tables

A class that is in a table stays there: a definition appends, and completion changes
only how far a definition has come. Whatever is looked up for a class of a table is
therefore found again in every extension of the table.
-/

namespace FieldUpdater

/-- A class stays as it is, except that its definition can be completed. -/
structure ClassRecord.Advances (info info' : ClassRecord) : Prop where
  /-- All but the progress of the definition stays. -/
  eq : info' = { info with stage := info'.stage, baked := info'.baked }
  /-- The stage stays or becomes the last one. -/
  stage : info'.stage = info.stage ∨ info'.stage = .finished
  /-- A generator's declaration is not taken back. -/
  baked : info.baked = true → info'.baked = true

namespace ClassRecord.Advances

variable {a b c : ClassRecord}

theorem refl (a : ClassRecord) : a.Advances a := ⟨rfl, .inl rfl, fun h => h⟩

theorem trans (h : a.Advances b) (h' : b.Advances c) : a.Advances c where
  eq := by
    rw [h'.eq, h.eq]
  stage := by
    rcases h'.stage with heq | hfinished
    · rw [heq]
      exact h.stage
    · exact .inr hfinished
  baked hbaked := h'.baked (h.baked hbaked)

/-- A finished class stays finished. -/
theorem finished (h : a.Advances b) (ha : a.stage = .finished) : b.stage = .finished := by
  rcases h.stage with heq | hfinished
  · exact heq.trans ha
  · exact hfinished

end ClassRecord.Advances

namespace ClassTable

/-- Every class of the first table is, perhaps further advanced, in the second. -/
structure Extends (t t' : ClassTable) : Prop where
  /-- The tables are the same one at two times. -/
  tag : t'.tag = t.tag
  /-- Classes stay where they are. -/
  find? : ∀ c info, t.find? c = some info → ∃ info', t'.find? c = some info' ∧ info.Advances info'

variable {t t' t'' : ClassTable} {c : ClassId} {id : ClassId} {info : ClassRecord}
  {d : ClassDecl} {outer : Option ClassId} {stage : Stage}

theorem Extends.refl (t : ClassTable) : t.Extends t :=
  ⟨rfl, fun _ info h => ⟨info, h, .refl info⟩⟩

theorem Extends.trans (h : t.Extends t') (h' : t'.Extends t'') : t.Extends t'' where
  tag := h'.tag.trans h.tag
  find? c info hinfo := by
    obtain ⟨info', hinfo', hadvance⟩ := h.find? c info hinfo
    obtain ⟨info'', hinfo'', hadvance'⟩ := h'.find? c info' hinfo'
    exact ⟨info'', hinfo'', hadvance.trans hadvance'⟩

/-- A class number is in range exactly when a class has it. -/
theorem find?_isSome_iff : (t.find? c).isSome ↔ c.index < t.size := by
  simp [ClassTable.find?, size]

/-- A class of the table has a number in range. -/
theorem lt_size_of_find? (h : t.find? c = some info) : c.index < t.size :=
  find?_isSome_iff.mp (by rw [h]; rfl)

/-- A number in range is that of a class. -/
theorem exists_find? (h : c.index < t.size) : ∃ info, t.find? c = some info :=
  Option.isSome_iff_exists.mp (find?_isSome_iff.mpr h)

/-- A class of an extension whose number is in range was there before. -/
theorem Extends.exists_of_lt (h : t.Extends t') (hc : c.index < t.size)
    (hinfo : t'.find? c = some info) : ∃ old, t.find? c = some old ∧ old.Advances info := by
  obtain ⟨old, hold⟩ := exists_find? hc
  obtain ⟨new, hnew, hadvance⟩ := h.find? c old hold
  obtain rfl : info = new := Option.some.inj (hinfo.symm.trans hnew)
  exact ⟨old, hold, hadvance⟩

/-- An extension is at least as large. -/
theorem Extends.size_le (h : t.Extends t') : t.size ≤ t'.size := by
  refine Nat.le_of_not_lt fun hlt => ?_
  obtain ⟨info, hinfo⟩ := exists_find? (t := t) (c := ⟨t'.size⟩) hlt
  obtain ⟨info', hinfo', -⟩ := h.find? _ _ hinfo
  exact Nat.lt_irrefl _ (lt_size_of_find? hinfo')

/-- A class of the table has the same superclass in an extension. -/
theorem Extends.superclass? (h : t.Extends t') (hc : c.index < t.size) :
    t'.superclass? c = t.superclass? c := by
  obtain ⟨info, hinfo⟩ := exists_find? hc
  obtain ⟨info', hinfo', hadvance⟩ := h.find? c info hinfo
  rw [ClassTable.superclass?, ClassTable.superclass?, hinfo, hinfo', hadvance.eq]
  rfl

/-- A lineage consists of the class and of classes defined before it. -/
theorem index_le_of_mem_lineage {k : ClassId} (h : k ∈ t.lineage c) : k.index ≤ c.index := by
  fun_induction lineage t c with
  | case1 c hnone =>
    rw [List.mem_singleton.mp h]
  | case2 c base hbase hlt ih =>
    rcases List.mem_cons.mp h with rfl | hmem
    · rfl
    · exact (ih hmem).trans hlt.le
  | case3 c base hbase hlt =>
    rw [List.mem_singleton.mp h]

/-- A lineage begins with the class itself, and its superclasses were defined before. -/
theorem lineage_eq_cons (t : ClassTable) (c : ClassId) :
    ∃ bases, t.lineage c = c :: bases ∧ ∀ k ∈ bases, k.index < c.index := by
  rw [lineage]
  cases t.superclass? c with
  | none => exact ⟨[], rfl, by simp⟩
  | some base =>
    by_cases hlt : base.index < c.index
    · exact ⟨t.lineage base, by simp [hlt], fun k hk => (index_le_of_mem_lineage hk).trans_lt hlt⟩
    · exact ⟨[], by simp [hlt], by simp⟩

/-- A class of the table has the same lineage in an extension. -/
theorem Extends.lineage (h : t.Extends t') (hc : c.index < t.size) :
    t'.lineage c = t.lineage c := by
  fun_induction ClassTable.lineage t c with
  | case1 c hnone =>
    rw [ClassTable.lineage, h.superclass? hc, hnone]
  | case2 c base hbase hlt ih =>
    rw [ClassTable.lineage, h.superclass? hc, hbase]
    simp [hlt, ih (hlt.trans hc)]
  | case3 c base hbase hlt =>
    rw [ClassTable.lineage, h.superclass? hc, hbase]
    simp [hlt]

/-- Assignability from a class of the table is the same in an extension. -/
theorem Extends.isAssignable (h : t.Extends t') (hc : c.index < t.size) (target : ClassId) :
    t'.isAssignable c target = t.isAssignable c target := by
  rw [ClassTable.isAssignable, ClassTable.isAssignable, h.lineage hc]

/-- A class of the table declares the same fields in an extension. -/
theorem Extends.declaredField? (h : t.Extends t') (hc : c.index < t.size)
    (name signature : String) :
    t'.declaredField? c name signature = t.declaredField? c name signature := by
  obtain ⟨info, hinfo⟩ := exists_find? hc
  obtain ⟨info', hinfo', hadvance⟩ := h.find? c info hinfo
  rw [ClassTable.declaredField?, ClassTable.declaredField?, hinfo, hinfo', hadvance.eq]
  rfl

/-- A field found for a class of the table is found in an extension. -/
theorem Extends.findField? (h : t.Extends t') (hc : c.index < t.size) (name signature : String) :
    t'.findField? c name signature = t.findField? c name signature := by
  rw [ClassTable.findField?, ClassTable.findField?, h.lineage hc]
  have hall : ∀ l : List ClassId, (∀ k ∈ l, k.index < t.size) →
      l.findSome? (t'.declaredField? · name signature) =
        l.findSome? (t.declaredField? · name signature) := by
    intro l hl
    induction l with
    | nil => rfl
    | cons k l ih =>
      rw [List.findSome?_cons, List.findSome?_cons, h.declaredField? (hl k List.mem_cons_self),
        ih fun k' hk' => hl k' (List.mem_cons_of_mem k hk')]
  exact hall _ fun k hk => (index_le_of_mem_lineage hk).trans_lt hc

/-- A name is that of the first class that bears it. -/
theorem lookup_eq_some_iff {name : String} :
    t.lookup name = some id ↔ (∃ info, t.find? id = some info ∧ info.name = name) ∧
      ∀ k < id.index, ∀ info, t.find? ⟨k⟩ = some info → info.name ≠ name := by
  unfold lookup
  rw [Option.map_eq_some_iff]
  constructor
  · rintro ⟨k, hk, rfl⟩
    obtain ⟨hlt, hname, hfirst⟩ := Array.findIdx?_eq_some_iff_getElem.mp hk
    refine ⟨⟨t.classes[k], Array.getElem?_eq_getElem hlt, of_decide_eq_true hname⟩, ?_⟩
    intro j hj info hinfo heq
    have hget : t.classes[j] = info :=
      Option.some.inj ((Array.getElem?_eq_getElem (hj.trans hlt)).symm.trans hinfo)
    exact hfirst j hj (decide_eq_true (hget ▸ heq))
  · rintro ⟨⟨info, hinfo, hname⟩, hfirst⟩
    obtain ⟨hlt, hget⟩ := Array.getElem?_eq_some_iff.mp hinfo
    refine ⟨id.index, Array.findIdx?_eq_some_iff_getElem.mpr ⟨hlt, ?_, ?_⟩, rfl⟩
    · exact decide_eq_true (hget ▸ hname)
    · intro j hj heq
      exact hfirst j hj _ (Array.getElem?_eq_getElem (hj.trans hlt)) (of_decide_eq_true heq)

/-- A name is free when no class bears it. -/
theorem lookup_eq_none_iff :
    t.lookup name = none ↔ ∀ c info, t.find? c = some info → info.name ≠ name := by
  simp only [lookup, Option.map_eq_none_iff, Array.findIdx?_eq_none_iff, decide_eq_false_iff_not]
  constructor
  · intro h c info hinfo
    exact h info (Array.mem_of_getElem? hinfo)
  · intro h info hinfo
    obtain ⟨k, hk⟩ := Array.mem_iff_getElem?.mp hinfo
    exact h ⟨k⟩ info hk

/-- A name of the table is that of the same class in an extension. -/
theorem Extends.lookup {name : String} (h : t.Extends t') (hid : t.lookup name = some id) :
    t'.lookup name = some id := by
  obtain ⟨⟨info, hinfo, hname⟩, hfirst⟩ := lookup_eq_some_iff.mp hid
  obtain ⟨info', hinfo', hadvance⟩ := h.find? id info hinfo
  refine lookup_eq_some_iff.mpr ⟨⟨info', hinfo', by rw [hadvance.eq]; exact hname⟩, ?_⟩
  intro k hk other' hother'
  have hlt : k < t.size := hk.trans (lt_size_of_find? hinfo)
  obtain ⟨other, hother, hadvance'⟩ := h.exists_of_lt (c := ⟨k⟩) hlt hother'
  rw [hadvance'.eq]
  exact hfirst k hk other hother

/-- A class name of the table stands for the same class in an extension. -/
theorem Extends.resolve {name : String} (h : t.Extends t') (hid : t.lookup name = some id) :
    t'.resolve name = t.resolve name := by
  obtain ⟨⟨info, hinfo, -⟩, -⟩ := lookup_eq_some_iff.mp hid
  obtain ⟨info', hinfo', hadvance⟩ := h.find? id info hinfo
  simp only [ClassTable.resolve, hid, h.lookup hid, Option.bind_some, hinfo, hinfo']
  rw [hadvance.eq]

/-- A class of the table is there, as it was, when another has been appended. -/
theorem find?_push_of_find? {old : ClassRecord} (h : t.find? c = some old) (info : ClassRecord) :
    ({ t with classes := t.classes.push info } : ClassTable).find? c = some old := by
  have hlt := lt_size_of_find? h
  rw [ClassTable.find?, Array.getElem?_push_lt hlt]
  exact (Array.getElem?_eq_getElem hlt).symm.trans h

/-- Appending a class extends the table. -/
theorem extends_push (t : ClassTable) (info : ClassRecord) :
    t.Extends { t with classes := t.classes.push info } where
  tag := rfl
  find? _ old hold := ⟨old, find?_push_of_find? hold info, .refl old⟩

theorem find?_push (t : ClassTable) (info : ClassRecord) :
    ({ t with classes := t.classes.push info } : ClassTable).find? ⟨t.size⟩ = some info := by
  simp [ClassTable.find?, size]

/-- A class appended under a free name is found under it, and the others under theirs. -/
theorem lookup_push (hfree : t.lookup info.name = none) (name : String) :
    ({ t with classes := t.classes.push info } : ClassTable).lookup name =
      if name = info.name then some ⟨t.size⟩ else t.lookup name := by
  have hextends := extends_push t info
  have hnew := find?_push t info
  by_cases hname : name = info.name
  · rw [if_pos hname, hname]
    refine lookup_eq_some_iff.mpr ⟨⟨info, hnew, rfl⟩, fun k hk other hother => ?_⟩
    obtain ⟨old, hold, hadvance⟩ := hextends.exists_of_lt (c := ⟨k⟩) hk hother
    rw [hadvance.eq]
    exact lookup_eq_none_iff.mp hfree _ old hold
  · rw [if_neg hname]
    cases hlookup : t.lookup name with
    | some id => exact hextends.lookup hlookup
    | none =>
      refine lookup_eq_none_iff.mpr fun k other hother => ?_
      by_cases hk : k.index < t.size
      · obtain ⟨old, hold, hadvance⟩ := hextends.exists_of_lt hk hother
        rw [hadvance.eq]
        exact lookup_eq_none_iff.mp hlookup _ old hold
      · have hlast : k.index = t.size := by
          have hlt := lt_size_of_find? hother
          simp only [size, Array.size_push] at hlt hk ⊢
          omega
        obtain rfl : k = ⟨t.size⟩ := congrArg ClassId.mk hlast
        obtain rfl : info = other := Option.some.inj (hnew.symm.trans hother)
        exact Ne.symm hname

/-- The class that a declaration adds. -/
def recordOf (d : ClassDecl) (id : ClassId) (outer : Option ClassId) (stage : Stage)
    (superclass : Option ClassId) (l : Layout) : ClassRecord :=
  { id, name := d.name, kind := d.kind, signature := signatureOf d.kind d.name, superclass, outer,
    visibility := d.visibility, isSealed := d.isSealed, fields := l.fields,
    instanceSlots := l.instanceSlots, staticSlots := l.staticSlots, stage, baked := false }

/-- A superclass that is asked for is the one that a class gets. -/
theorem superclassFor_eq {base : ClassId} (h : d.superclass = some base) :
    t.superclassFor d = .ok (some base) := by
  unfold superclassFor
  rw [h]
  split <;> rfl

/-- Only an unsealed reference class of the table is extended, and its slots are inherited. -/
theorem inheritedSlots_eq_ok_iff {name : String} {base : ClassId} {slots : Nat} :
    t.inheritedSlots name (some base) = .ok slots ↔ ∃ info, t.find? base = some info ∧
      info.isSealed = false ∧ info.kind = .reference ∧ info.instanceSlots = slots := by
  unfold inheritedSlots ClassTable.get
  cases hfind : t.find? base with
  | none => simp [hfind]
  | some info =>
    by_cases hsealed : info.isSealed = true
    · simp [hfind, hsealed]
    · by_cases hkind : info.kind = .reference
      · simp [hfind, hsealed, hkind]
      · simp [hfind, hsealed, hkind]

/-- An added class comes after all others, under a name that was free. -/
theorem of_add (h : t.add d outer stage = .ok (id, t')) :
    t.lookup d.name = none ∧ id = ⟨t.size⟩ ∧ ∃ superclass inherited layout,
      t.superclassFor d = .ok superclass ∧ t.inheritedSlots d.name superclass = .ok inherited ∧
      t.layOut id d.name d.fields { instanceSlots := inherited } = .ok layout ∧
      t' = { t with classes :=
        t.classes.push (recordOf d id outer stage superclass layout) } := by
  unfold add at h
  split at h
  · cases h
  · rename_i hfree
    cases hsuper : t.superclassFor d with
    | error err => simp [hsuper, bind, Except.bind] at h
    | ok superclass =>
      cases hslots : t.inheritedSlots d.name superclass with
      | error err => simp [hsuper, hslots, bind, Except.bind] at h
      | ok inherited =>
        cases hlayout : t.layOut ⟨t.size⟩ d.name d.fields { instanceSlots := inherited } with
        | error err => simp [hsuper, hslots, hlayout, bind, Except.bind] at h
        | ok layout =>
          simp only [hsuper, hslots, hlayout, bind, Except.bind, Except.ok.injEq,
            Prod.mk.injEq] at h
          obtain ⟨rfl, rfl⟩ := h
          exact ⟨by simpa using hfree, rfl, superclass, inherited, layout, rfl, hslots, hlayout,
            rfl⟩

/-- An added class is in the table. -/
theorem lt_size_of_add (h : t.add d outer stage = .ok (id, t')) : id.index < t'.size := by
  obtain ⟨-, rfl, _, _, _, -, -, -, rfl⟩ := of_add h
  simp [size]

/-- The added class is the only one that is new. -/
theorem eq_of_add (h : t.add d outer stage = .ok (id, t')) (hinfo : t'.find? c = some info)
    (hc : ¬ c.index < t.size) : c = id := by
  obtain ⟨-, rfl, _, _, _, -, -, -, rfl⟩ := of_add h
  have hlt := lt_size_of_find? hinfo
  cases c
  simp only [size, Array.size_push, ClassId.mk.injEq] at hlt hc ⊢
  omega

/-- Every definition extends the table. -/
theorem extends_of_add (h : t.add d outer stage = .ok (id, t')) : t.Extends t' := by
  obtain ⟨-, -, superclass, inherited, layout, -, -, -, rfl⟩ := of_add h
  exact extends_push t _

/-- What the table has about an added class. -/
theorem find?_of_add (h : t.add d outer stage = .ok (id, t')) :
    ∃ superclass inherited layout, t.superclassFor d = .ok superclass ∧
      t.inheritedSlots d.name superclass = .ok inherited ∧
      t.layOut id d.name d.fields { instanceSlots := inherited } = .ok layout ∧
      t'.find? id = some (recordOf d id outer stage superclass layout) := by
  obtain ⟨-, rfl, superclass, inherited, layout, hsuper, hslots, hlayout, rfl⟩ := of_add h
  exact ⟨superclass, inherited, layout, hsuper, hslots, hlayout, find?_push t _⟩

/-- An added class is found under its name. -/
theorem lookup_of_add (h : t.add d outer stage = .ok (id, t')) : t'.lookup d.name = some id := by
  obtain ⟨hfree, rfl, _, _, _, -, -, -, rfl⟩ := of_add h
  exact (lookup_push hfree d.name).trans (if_pos rfl)

/-- A nested class is an added class that is being defined. -/
theorem of_defineNested {simple : String} {base outer : ClassId} {visibility : Visibility}
    {isSealed : Bool} (h : t.defineNested outer simple base visibility isSealed = .ok (id, t')) :
    ∃ enclosing, t.find? outer = some enclosing ∧
      t.add ⟨nestedName enclosing.name simple, .reference, some base, visibility, isSealed, []⟩
        (some outer) .defining = .ok (id, t') := by
  unfold defineNested ClassTable.get at h
  cases hfind : t.find? outer with
  | none => simp [hfind, bind, Except.bind] at h
  | some enclosing =>
    simp only [hfind, bind, Except.bind] at h
    exact ⟨enclosing, rfl, h⟩

/-- Changing one class in an advancing way extends the table. -/
theorem extends_modify (t : ClassTable) (c : ClassId) {f : ClassRecord → ClassRecord}
    (hf : ∀ info : ClassRecord, info.Advances (f info)) :
    t.Extends { t with classes := t.classes.modify c.index f } where
  tag := rfl
  find? k info hinfo := by
    have hget : t.classes[k.index]? = some info := hinfo
    rw [ClassTable.find?, Array.getElem?_modify, hget]
    by_cases hk : c.index = k.index
    · rw [if_pos hk]
      exact ⟨f info, rfl, hf info⟩
    · rw [if_neg hk]
      exact ⟨info, rfl, .refl info⟩

/-- Baking extends the table. -/
theorem extends_bake (t : ClassTable) (c : ClassId) : t.Extends (t.bake c) :=
  extends_modify t c fun _ => ⟨rfl, .inl rfl, fun _ => rfl⟩

/-- Finishing a class changes its stage and nothing else. -/
theorem finish_eq_ok_iff : t.finish c = .ok t' ↔ c.index < t.size ∧
    t' = { t with classes := t.classes.modify c.index ({ · with stage := .finished }) } := by
  unfold finish
  cases hfind : t.find? c with
  | none =>
    have hno : ¬ c.index < t.size := by
      rw [← find?_isSome_iff, hfind]
      simp
    simp [hno]
  | some info =>
    have hlt := lt_size_of_find? hfind
    have hmodify : t.classes.setIfInBounds c.index { info with stage := .finished } =
        t.classes.modify c.index ({ · with stage := .finished }) := by
      apply Array.ext_getElem?
      intro k
      rw [Array.getElem?_modify, Array.getElem?_setIfInBounds]
      by_cases hk : c.index = k
      · subst hk
        have hget : t.classes[c.index]? = some info := hfind
        have hsize : c.index < t.classes.size := hlt
        rw [hget, if_pos rfl, if_pos hsize, if_pos rfl, Option.map_some]
      · simp [hk]
    simp only [hmodify, Except.ok.injEq, hlt, true_and]
    exact eq_comm

/-- Finishing a class extends the table. -/
theorem extends_of_finish (h : t.finish c = .ok t') : t.Extends t' := by
  obtain ⟨-, rfl⟩ := finish_eq_ok_iff.mp h
  exact extends_modify t c fun _ => ⟨rfl, .inr rfl, fun h => h⟩

end ClassTable

end FieldUpdater
