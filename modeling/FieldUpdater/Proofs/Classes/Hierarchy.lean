import FieldUpdater.Proofs.Accessors.History
import FieldUpdater.Proofs.Classes.Types

/-!
# The hierarchy of classes

A class names only classes that were defined before it, and extends only unsealed reference
classes. In every table that the operations on tables lead to, superclass links therefore form
a tree: whoever follows them comes, from every class that has a superclass, to the class with
the name of the root, however late and as whatever kind that class was defined. The searches
along the links know no bound of their own, and end.
-/

namespace FieldUpdater

namespace ClassTable

variable {t t' : ClassTable} {c : ClassId} {info info' : ClassRecord} {α : Type}

/-- A class comes after the one in which it is nested, and extends an unsealed reference class
unless it is the root or no reference class itself. -/
structure RootedClass (t : ClassTable) (c : ClassId) (info : ClassRecord) : Prop where
  outer_lt : ∀ outer, info.outer = some outer → outer.index < c.index
  base : ∀ base, info.superclass = some base →
    ∃ record, t.find? base = some record ∧ record.isSealed = false ∧ record.kind = .reference
  root : info.kind = .reference → info.superclass = none → info.name = rootName

/-- Every class of the table is rooted. -/
def Rooted (t : ClassTable) : Prop := ∀ c info, t.find? c = some info → t.RootedClass c info

/-- Look at classes along the superclass links until something is found at one of them. There is
no result when the rounds do not suffice. -/
def climb (t : ClassTable) (look : ClassId → Option α) : Nat → Option ClassId → Option (Option α)
  | _, none => some none
  | 0, some _ => none
  | rounds + 1, some c =>
    match look c with
    | some found => some (some found)
    | none => t.climb look rounds (t.superclass? c)

/-- A table whose classes have their places, their names and their superclasses as they should. -/
structure WellFormed (t : ClassTable) : Prop where
  /-- A class has the number of its place. -/
  id : ∀ c info, t.find? c = some info → info.id = c
  /-- A name is that of the class that bears it, and of no other. -/
  lookup : ∀ name c, t.lookup name = some c ↔ ∃ info, t.find? c = some info ∧ info.name = name
  superclass_lt : ∀ c info base, t.find? c = some info → info.superclass = some base →
    base.index < c.index
  outer_lt : ∀ c info outer, t.find? c = some info → info.outer = some outer →
    outer.index < c.index
  type_lt : ∀ c info, t.find? c = some info → ∀ f ∈ info.fields, f.type.index < c.index
  /-- Only unsealed reference classes are extended. -/
  base : ∀ c info base, t.find? c = some info → info.superclass = some base →
    ∃ record, t.find? base = some record ∧ record.isSealed = false ∧ record.kind = .reference
  /-- A reference class that is not the root extends another class. -/
  extended : ∀ c info, t.find? c = some info → info.kind = .reference → info.name ≠ rootName →
    ∃ base, info.superclass = some base
  /-- A lineage goes on wherever there is a superclass. -/
  lineage : ∀ c, t.lineage c = c :: (t.superclass? c).elim [] t.lineage
  /-- From a class with a superclass the links lead to the root, which is a reference class then
  and has no superclass. -/
  root : ∀ c info base, t.find? c = some info → info.superclass = some base →
    ∃ root record, (t.lineage c).getLast? = some root ∧ t.find? root = some record ∧
      record.name = rootName ∧ record.kind = .reference ∧ record.superclass = none

/-- A rooted class stays rooted. -/
theorem RootedClass.extends (h : t.RootedClass c info) (hextends : t.Extends t')
    (hadvance : info.Advances info') : t'.RootedClass c info' := by
  rw [hadvance.eq]
  refine ⟨h.outer_lt, fun base hbase => ?_, h.root⟩
  obtain ⟨record, hrecord, hsealed, hkind⟩ := h.base base hbase
  obtain ⟨record', hrecord', hadvance'⟩ := hextends.find? base record hrecord
  exact ⟨record', hrecord', by rw [hadvance'.eq]; exact ⟨hsealed, hkind⟩⟩

/-- A reference class that is declared without a superclass, and gets none, is the root. -/
theorem name_of_superclassFor {d : ClassDecl} (h : t.superclassFor d = .ok none)
    (hkind : d.kind = .reference) : d.name = rootName := by
  by_contra hname
  unfold superclassFor at h
  rw [if_pos ⟨hkind, hname⟩] at h
  cases hsuper : d.superclass with
  | some base => simp [hsuper] at h
  | none =>
    simp only [hsuper] at h
    cases hroot : t.require rootName with
    | error err => simp [hroot, Except.map] at h
    | ok root => simp [hroot, Except.map] at h

/-- Classes are rooted when they are added, and stay so. -/
theorem rootedClass_invariant : ClassInvariant RootedClass where
  grows _ hextends hadvance h := h.extends hextends hadvance
  added := by
    intro t t' d outer stage id info _ houter hadd hinfo
    have hextends := extends_of_add hadd
    obtain ⟨-, rfl, superclass, slots, layout, hsuper, hslots, -, rfl⟩ := of_add hadd
    obtain rfl : recordOf d ⟨t.size⟩ outer stage superclass layout = info :=
      Option.some.inj ((find?_push t _).symm.trans hinfo)
    refine RootedClass.extends ⟨houter, ?_, ?_⟩ hextends (.refl _)
    · rintro base rfl
      obtain ⟨record, hrecord, hsealed, hkind, -⟩ := inheritedSlots_eq_ok_iff.mp hslots
      exact ⟨record, hrecord, hsealed, hkind⟩
    · rintro hkind rfl
      exact name_of_superclassFor hsuper hkind

/-- Every class of a reachable table is rooted. -/
theorem Reachable.rooted (h : t.Reachable) : t.Rooted := rootedClass_invariant.reachable h

/-- The superclass of a class in a sound table comes before it. -/
theorem Sound.superclass?_lt (h : t.Sound) {base : ClassId} (hbase : t.superclass? c = some base) :
    base.index < c.index := by
  obtain ⟨info, hinfo, hsuper⟩ := Option.bind_eq_some_iff.mp hbase
  exact (h c info hinfo).superclass_lt base hsuper

/-- In a sound table nothing cuts a lineage off: it goes on wherever there is a superclass. -/
theorem Sound.lineage_eq (h : t.Sound) (c : ClassId) :
    t.lineage c = c :: (t.superclass? c).elim [] t.lineage := by
  rw [lineage]
  cases hbase : t.superclass? c with
  | none => rfl
  | some base => simp [h.superclass?_lt hbase]

/-- A walk looks at the lineage, one class a round, and ends. -/
theorem Sound.climb_eq (h : t.Sound) (look : ClassId → Option α) {rounds : Nat}
    (hrounds : c.index < rounds) :
    t.climb look rounds (some c) = some ((t.lineage c).findSome? look) := by
  induction rounds generalizing c with
  | zero => exact absurd hrounds (Nat.not_lt_zero _)
  | succ rounds ih =>
    rw [climb, h.lineage_eq, List.findSome?_cons]
    cases look c with
    | some found => rfl
    | none =>
      cases hbase : t.superclass? c with
      | none => cases rounds <;> rfl
      | some base => exact ih ((h.superclass?_lt hbase).trans_le (Nat.le_of_lt_succ hrounds))

/-- The lineage of a reference class ends at the root. -/
theorem Rooted.getLast?_lineage (h : t.Rooted) (hsound : t.Sound) (hinfo : t.find? c = some info)
    (hkind : info.kind = .reference) :
    ∃ root record, (t.lineage c).getLast? = some root ∧ t.find? root = some record ∧
      record.name = rootName ∧ record.kind = .reference ∧ record.superclass = none := by
  fun_induction lineage t c generalizing info with
  | case1 c hnone =>
    have hsuper : info.superclass = none := by simpa [superclass?, hinfo] using hnone
    exact ⟨c, info, rfl, hinfo, (h c info hinfo).root hkind hsuper, hkind, hsuper⟩
  | case2 c base hbase hlt ih =>
    have hsuper : info.superclass = some base := by simpa [superclass?, hinfo] using hbase
    obtain ⟨record, hrecord, -, hreference⟩ := (h c info hinfo).base base hsuper
    obtain ⟨root, last, hlast, hroot⟩ := ih hrecord hreference
    exact ⟨root, last, by rw [List.getLast?_cons, hlast]; rfl, hroot⟩
  | case3 c base hbase hlt => exact absurd (hsound.superclass?_lt hbase) hlt

/-- The search for a field ends, whatever class it begins at, in as many rounds as there are
classes up to that one, and finds what the lineage has. -/
theorem Sound.climb_declaredField? (h : t.Sound) {rounds : Nat} (hrounds : c.index < rounds)
    (name signature : String) : t.climb (t.declaredField? · name signature) rounds (some c) =
      some (t.findField? c name signature) :=
  h.climb_eq _ hrounds

/-- The search for a class along the links ends likewise, and tells whether it is there. -/
theorem Sound.climb_target (h : t.Sound) {rounds : Nat} (hrounds : c.index < rounds)
    (target : ClassId) : t.climb (fun k => if k = target then some () else none) rounds (some c) =
      some (if t.isAssignable c target then some () else none) := by
  rw [h.climb_eq _ hrounds, isAssignable]
  congr 1
  induction t.lineage c with
  | nil => rfl
  | cons k ks ih =>
    by_cases hk : k = target
    · simp [hk]
    · simpa [hk] using ih

/-- Tables that operations lead to are well-formed, and both searches along superclass links end
in them: with one round for each class up to the one where they begin. -/
theorem Reachable.wellFormed (h : t.Reachable) :
    t.WellFormed ∧ ∀ c rounds, c.index < rounds →
      (∀ name signature, t.climb (t.declaredField? · name signature) rounds (some c) =
        some (t.findField? c name signature)) ∧
      ∀ target, t.climb (fun k => if k = target then some () else none) rounds (some c) =
        some (if t.isAssignable c target then some () else none) := by
  have hsound := h.sound
  have htyped := h.typed
  have hrooted := h.rooted
  refine ⟨?_, fun c rounds hrounds => ⟨hsound.climb_declaredField? hrounds,
    hsound.climb_target hrounds⟩⟩
  constructor
  · exact fun c info hinfo => (htyped c info hinfo).id
  · intro name c
    refine ⟨fun hlookup => (lookup_eq_some_iff.mp hlookup).1, ?_⟩
    rintro ⟨info, hinfo, rfl⟩
    exact htyped.lookup_eq hinfo
  · exact fun c info base hinfo hbase => (hsound c info hinfo).superclass_lt base hbase
  · exact fun c info outer hinfo houter => (hrooted c info hinfo).outer_lt outer houter
  · exact fun c info hinfo f hf => ((htyped c info hinfo).field f hf).1
  · exact fun c info base hinfo hbase => (hrooted c info hinfo).base base hbase
  · intro c info hinfo hkind hname
    exact Option.ne_none_iff_exists'.mp fun hnone =>
      hname ((hrooted c info hinfo).root hkind hnone)
  · exact hsound.lineage_eq
  · intro c info base hinfo hbase
    have hlink : t.superclass? c = some base := by simp [superclass?, hinfo, hbase]
    obtain ⟨record, hrecord, -, hkind⟩ := (hrooted c info hinfo).base base hbase
    obtain ⟨root, last, hlast, hroot⟩ := hrooted.getLast?_lineage hsound hrecord hkind
    refine ⟨root, last, ?_, hroot⟩
    rw [hsound.lineage_eq, hlink, Option.elim_some, List.getLast?_cons, hlast]
    rfl

end ClassTable

namespace Sample

/-- A primitive type, the root after it, and two classes with fields, one of which hides a field
of the other. -/
def shapes : List ClassDecl :=
  [{ name := "int", kind := .primitive }, { name := rootName },
    { name := "Point", fields := [⟨"x", ⟨0⟩, false, false⟩, ⟨"made", ⟨0⟩, true, false⟩,
      ⟨"y", ⟨0⟩, false, false⟩] },
    { name := "Pixel", superclass := some ⟨2⟩, fields := [⟨"x", ⟨0⟩, false, false⟩,
      ⟨"owner", ⟨2⟩, false, true⟩] }]

/-- The table of these classes. -/
def canvas : ClassTable := shapes.foldl declare (.empty 0)

theorem reachable_canvas : canvas.Reachable := reachable_declarations (.empty 0) shapes

end Sample

/-- In the sample the links lead from the last class to the root, and a search that begins there
ends after four rounds. -/
theorem ClassTable.wellFormed_canvas :
    (∃ root record, (Sample.canvas.lineage ⟨3⟩).getLast? = some root ∧
      Sample.canvas.find? root = some record ∧ record.name = rootName) ∧
    Sample.canvas.climb (Sample.canvas.declaredField? · "y" "I") 4 (some ⟨3⟩) =
      some (Sample.canvas.findField? ⟨3⟩ "y" "I") := by
  obtain ⟨hformed, hsearch⟩ := Reachable.wellFormed Sample.reachable_canvas
  have hpixel : (Sample.canvas.find? ⟨3⟩).map (·.superclass) = some (some ⟨2⟩) := by
    decide +kernel
  obtain ⟨info, hinfo, hbase⟩ := Option.map_eq_some_iff.mp hpixel
  obtain ⟨root, record, hlast, hrecord, hname, -⟩ := hformed.root ⟨3⟩ info ⟨2⟩ hinfo hbase
  exact ⟨⟨root, record, hlast, hrecord, hname⟩, (hsearch ⟨3⟩ 4 (by decide)).1 "y" "I"⟩

end FieldUpdater
