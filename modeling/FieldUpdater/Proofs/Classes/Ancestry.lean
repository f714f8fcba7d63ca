import FieldUpdater.Proofs.Classes.Hierarchy
import Mathlib.Data.List.Pairwise

/-!
# Assignability as an order

One class can be stored where another is expected exactly when superclass links lead from the one
to the other. A class has one superclass at most and comes after it, so that this is the order of a
forest: what lies above a class is a chain. The reference classes form a single tree, with the root
class above all of them. A field is searched along such a chain, and the one found hides those of
its name and signature further up.
-/

namespace FieldUpdater

namespace ClassTable

variable {t : ClassTable} {a b c k : ClassId} {info : ClassRecord} {f : Field}
  {name signature : String}

/-- A class of the table has another for its superclass. -/
def Links (t : ClassTable) (c base : ClassId) : Prop :=
  ∃ info, t.find? c = some info ∧ info.superclass = some base

/-- Any number of superclass links lead from one class to the other. -/
def Descends (t : ClassTable) : ClassId → ClassId → Prop := Relation.ReflTransGen t.Links

/-- A class declares fields of a name and a signature, and this is the first of them. -/
def DeclaresFirst (t : ClassTable) (c : ClassId) (name signature : String) (f : Field) : Prop :=
  ∃ (info : ClassRecord) (before after : Array Field), t.find? c = some info ∧
    info.fields = before.push f ++ after ∧ (f.name = name ∧ f.signature = signature) ∧
    ∀ g ∈ before, ¬ (g.name = name ∧ g.signature = signature)

/-- A class declares a field of a name and a signature. -/
def DeclaresSome (t : ClassTable) (c : ClassId) (name signature : String) : Prop :=
  ∃ info, t.find? c = some info ∧ ∃ f ∈ info.fields, f.name = name ∧ f.signature = signature

/-- A field is the first of its name and signature on a class, and no class between another and
that one declares any. -/
structure Nearest (t : ClassTable) (c : ClassId) (name signature : String) (f : Field) : Prop where
  descends : t.Descends c f.declaring
  first : t.DeclaresFirst f.declaring name signature f
  nearer : ∀ k, t.Descends c k → t.Descends k f.declaring → k ≠ f.declaring →
    ¬ t.DeclaresSome k name signature

theorem superclass?_eq_some_iff : t.superclass? c = some b ↔ t.Links c b :=
  Option.bind_eq_some_iff

/-- A class has one superclass at most. -/
theorem links_rightUnique (t : ClassTable) : Relator.RightUnique t.Links := by
  rintro c a b ha hb
  rw [← superclass?_eq_some_iff] at ha hb
  exact Option.some.inj (ha.symm.trans hb)

/-- The lineage of a class consists of the classes to which links lead from it. -/
theorem Sound.mem_lineage_iff (h : t.Sound) : k ∈ t.lineage c ↔ t.Descends c k := by
  constructor
  · intro hmem
    fun_induction lineage t c with
    | case1 c hnone =>
      rw [List.mem_singleton.mp hmem]
      exact .refl
    | case2 c base hbase hlt ih =>
      rcases List.mem_cons.mp hmem with rfl | hmem
      · exact .refl
      · exact .head (superclass?_eq_some_iff.mp hbase) (ih hmem)
    | case3 c base hbase hlt => exact absurd (h.superclass?_lt hbase) hlt
  · intro hdescends
    induction hdescends using Relation.ReflTransGen.head_induction_on with
    | refl =>
      rw [h.lineage_eq]
      exact List.mem_cons_self
    | head hlink _ ih =>
      rw [h.lineage_eq, superclass?_eq_some_iff.mpr hlink]
      exact List.mem_cons_of_mem _ ih

/-- Links lead to classes defined before. -/
theorem Sound.index_le_of_descends (h : t.Sound) (hdescends : t.Descends a b) :
    b.index ≤ a.index :=
  index_le_of_mem_lineage (h.mem_lineage_iff.mpr hdescends)

/-- Links do not lead back. -/
theorem Sound.descends_antisymm (h : t.Sound) (hab : t.Descends a b) (hba : t.Descends b a) :
    a = b := by
  have hle := h.index_le_of_descends hab
  have hge := h.index_le_of_descends hba
  obtain ⟨i⟩ := a
  obtain ⟨j⟩ := b
  exact congrArg ClassId.mk (Nat.le_antisymm hge hle)

/-- What lies above one class is a chain. -/
theorem descends_total (hb : t.Descends a b) (hc : t.Descends a c) :
    t.Descends b c ∨ t.Descends c b :=
  Relation.ReflTransGen.total_of_right_unique t.links_rightUnique hb hc

/-- Along a lineage links lead from every class to those after it, and not back. -/
theorem Sound.pairwise_lineage (h : t.Sound) (c : ClassId) :
    (t.lineage c).Pairwise fun a b => t.Descends a b ∧ a ≠ b := by
  fun_induction lineage t c with
  | case1 c hnone => exact List.pairwise_singleton _ _
  | case2 c base hbase hlt ih =>
    refine List.pairwise_cons.mpr ⟨fun k hk => ?_, ih⟩
    have hbefore := (index_le_of_mem_lineage hk).trans_lt hlt
    refine ⟨.head (superclass?_eq_some_iff.mp hbase) (h.mem_lineage_iff.mp hk), ?_⟩
    rintro rfl
    exact Nat.lt_irrefl _ hbefore
  | case3 c base hbase hlt => exact absurd (h.superclass?_lt hbase) hlt

/-- One class can be stored where another is expected when links lead from the one to the other. -/
theorem Sound.isAssignable_iff (h : t.Sound) : t.isAssignable a b = true ↔ t.Descends a b := by
  rw [← h.mem_lineage_iff]
  simp [isAssignable]

/-- The root class, in a table with a reference class, is above every one of them. -/
theorem Reachable.exists_root (h : t.Reachable) (hinfo : t.find? c = some info)
    (hkind : info.kind = .reference) :
    ∃ root, t.lookup rootName = some root ∧ t.isAssignable c root = true := by
  obtain ⟨root, record, hlast, hrecord, hname, -⟩ := h.rooted.getLast?_lineage h.sound hinfo hkind
  refine ⟨root, hname ▸ h.typed.lookup_eq hrecord, ?_⟩
  exact h.sound.isAssignable_iff.mpr (h.sound.mem_lineage_iff.mp (List.mem_of_getLast? hlast))

/-- What a class is found to declare is its first field of the name and signature. -/
theorem declaredField?_eq_some_iff :
    t.declaredField? c name signature = some f ↔ t.DeclaresFirst c name signature f := by
  simp only [declaredField?, Option.bind_eq_some_iff, Array.find?_eq_some_iff_append,
    decide_eq_true_eq, Bool.not_eq_true', decide_eq_false_iff_not, DeclaresFirst]
  constructor
  · rintro ⟨info, hinfo, hsame, before, after, hsplit, hbefore⟩
    exact ⟨info, before, after, hinfo, hsplit, hsame, hbefore⟩
  · rintro ⟨info, before, after, hinfo, hsplit, hsame, hbefore⟩
    exact ⟨info, hinfo, hsame, before, after, hsplit, hbefore⟩

/-- Nothing is found exactly on a class that declares no field of the name and signature. -/
theorem declaredField?_eq_none_iff :
    t.declaredField? c name signature = none ↔ ¬ t.DeclaresSome c name signature := by
  simp only [declaredField?, Option.bind_eq_none_iff, Array.find?_eq_none, DeclaresSome]
  simp

/-- The field found is that of the nearest class. -/
theorem Sound.findField?_eq_some_iff (h : t.Sound) :
    t.findField? c name signature = some f ↔ t.Nearest c name signature f := by
  rw [findField?, List.findSome?_eq_some_iff]
  have hordered := h.pairwise_lineage c
  constructor
  · rintro ⟨before, k, after, hsplit, hdeclared, hbefore⟩
    obtain rfl : f.declaring = k := h.declaring_of_declaredField? hdeclared
    refine ⟨?_, declaredField?_eq_some_iff.mp hdeclared, ?_⟩
    · rw [← h.mem_lineage_iff, hsplit]
      simp
    · intro k hk hto hne
      refine declaredField?_eq_none_iff.mp (hbefore k ?_)
      -- A class after the one of the field is not below it.
      rw [← h.mem_lineage_iff, hsplit] at hk
      rw [hsplit, List.pairwise_append] at hordered
      rcases List.mem_append.mp hk with hbefore | hafter
      · exact hbefore
      · rcases List.mem_cons.mp hafter with heq | hafter
        · exact absurd heq hne
        · have hfrom := (List.pairwise_cons.mp hordered.2.1).1 k hafter
          exact absurd (h.descends_antisymm hto hfrom.1) hne
  · rintro ⟨hdescends, hfirst, hnearer⟩
    obtain ⟨before, after, hsplit⟩ := List.append_of_mem (h.mem_lineage_iff.mpr hdescends)
    refine ⟨before, f.declaring, after, hsplit, declaredField?_eq_some_iff.mpr hfirst, ?_⟩
    intro k hk
    have hmem : k ∈ t.lineage c := by
      rw [hsplit]
      exact List.mem_append_left _ hk
    rw [hsplit, List.pairwise_append] at hordered
    have hto := hordered.2.2 k hk f.declaring List.mem_cons_self
    exact declaredField?_eq_none_iff.mpr
      (hnearer k (h.mem_lineage_iff.mp hmem) hto.1 hto.2)

/-- No field is found exactly where no class of the chain declares one. -/
theorem Sound.findField?_eq_none_iff (h : t.Sound) : t.findField? c name signature = none ↔
    ∀ k, t.Descends c k → ¬ t.DeclaresSome k name signature := by
  simp only [findField?, List.findSome?_eq_none_iff, h.mem_lineage_iff, declaredField?_eq_none_iff]

/-- A value of a class can be stored where another class is expected exactly when superclass links
lead from the one to the other. This is a partial order, in which what lies above a class is a
chain, and every reference class lies below the one root class. A search for a field finds, as the
first of its class, what the nearest class of the chain declares, so that the class searched lies
below the one that declares the field; it finds nothing exactly where no class of the chain
declares any. -/
theorem Reachable.assignability_tree (h : t.Reachable) :
    (∀ a b, t.isAssignable a b = true ↔ t.Descends a b) ∧
    ((∀ a, t.isAssignable a a = true) ∧
      (∀ a b c, t.isAssignable a b = true → t.isAssignable b c = true →
        t.isAssignable a c = true) ∧
      (∀ a b, t.isAssignable a b = true → t.isAssignable b a = true → a = b) ∧
      ∀ a b c, t.isAssignable a b = true → t.isAssignable a c = true →
        t.isAssignable b c = true ∨ t.isAssignable c b = true) ∧
    (∀ c info, t.find? c = some info → info.kind = .reference →
      ∃ root, t.lookup rootName = some root ∧ t.isAssignable c root = true) ∧
    ∀ c name signature,
      (∀ f, t.findField? c name signature = some f ↔ t.Nearest c name signature f) ∧
      (t.findField? c name signature = none ↔
        ∀ k, t.Descends c k → ¬ t.DeclaresSome k name signature) ∧
      ∀ f, t.findField? c name signature = some f → t.isAssignable c f.declaring = true := by
  have hsound := h.sound
  refine ⟨fun a b => hsound.isAssignable_iff, ?_, fun c info => h.exists_root,
    fun c name signature => ⟨fun f => hsound.findField?_eq_some_iff,
      hsound.findField?_eq_none_iff, fun f hfound => ?_⟩⟩
  · simp only [hsound.isAssignable_iff]
    exact ⟨fun a => .refl, fun a b c hab hbc => hab.trans hbc,
      fun a b => hsound.descends_antisymm, fun a b c => descends_total⟩
  · exact hsound.isAssignable_iff.mpr (hsound.findField?_eq_some_iff.mp hfound).descends

/-- In the sample the field of the subclass hides that of its superclass, another field comes from
the superclass, and the root lies above. -/
theorem assignability_tree_canvas :
    (∃ f, Sample.canvas.Nearest ⟨3⟩ "x" "I" f ∧ f.declaring = ⟨3⟩) ∧
    (∃ f, Sample.canvas.Nearest ⟨3⟩ "y" "I" f ∧ f.declaring = ⟨2⟩ ∧
      Sample.canvas.Descends ⟨3⟩ ⟨2⟩) ∧
    ∃ root, Sample.canvas.lookup rootName = some root ∧
      Sample.canvas.isAssignable ⟨3⟩ root = true := by
  obtain ⟨hassignable, -, hroot, hfield⟩ := Reachable.assignability_tree Sample.reachable_canvas
  have hfound (name : String) (owner : ClassId)
      (h : (Sample.canvas.findField? ⟨3⟩ name "I").map Field.declaring = some owner) :
      ∃ f, Sample.canvas.Nearest ⟨3⟩ name "I" f ∧ f.declaring = owner := by
    obtain ⟨f, hf, howner⟩ := Option.map_eq_some_iff.mp h
    exact ⟨f, ((hfield ⟨3⟩ name "I").1 f).mp hf, howner⟩
  have hpixel : (Sample.canvas.find? ⟨3⟩).map (·.kind) = some .reference := by decide +kernel
  obtain ⟨info, hinfo, hkind⟩ := Option.map_eq_some_iff.mp hpixel
  obtain ⟨f, hnearest, howner⟩ := hfound "y" ⟨2⟩ (by decide +kernel)
  exact ⟨hfound "x" ⟨3⟩ (by decide +kernel),
    ⟨f, hnearest, howner, (hassignable ⟨3⟩ ⟨2⟩).mp (by decide +kernel)⟩,
    hroot ⟨3⟩ info hinfo hkind⟩

end ClassTable

end FieldUpdater
