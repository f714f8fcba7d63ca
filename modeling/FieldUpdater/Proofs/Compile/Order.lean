import FieldUpdater.Proofs.Compile.Lockstep
import FieldUpdater.Proofs.Compile.Method
import Mathlib.Tactic.IntervalCases

/-!
# The order of compilations

Compiling one class makes accessors that the compilation of another finds, and classes whose
numbers and names the other's must avoid. Two classes compiled in either order nevertheless
come out the same, but for the numbers of the classes that were made on the way: there is one
renaming of these, a bijection, that turns the results of one order into those of the other.
-/

namespace FieldUpdater

/-- An instruction with its class renamed, if it has one. -/
def Instr.renameClass (σ : ClassId → ClassId) (i : Instr) : Instr :=
  match i.operand with
  | .classRef c => { i with operand := .classRef (σ c) }
  | _ => i

/-- Sites with the classes constructed there renamed. -/
def Layout.renameSites (σ : ClassId → ClassId) (sites : Array Site) : Array Site :=
  sites.map fun site => { site with accessor := σ site.accessor }

/-- Whether a place holds the last instruction of a construction, which names the class. -/
def Layout.isConstruction (sites : Array Site) (place : Nat) : Bool :=
  sites.any fun site => position sites site.index + 3 = place

/-- A compiled method with the classes renamed that it constructs in place of calls. Numbers of
classes that were in the code before stay. -/
def CompiledMethod.rename (σ : ClassId → ClassId) (cm : CompiledMethod) : CompiledMethod where
  body := { cm.body with code := cm.body.code.mapIdx fun place i =>
    if Layout.isConstruction cm.sites place then i.renameClass σ else i }
  sites := Layout.renameSites σ cm.sites

/-- A compiled class with the classes renamed that it constructs in place of calls. -/
def CompiledClass.rename (σ : ClassId → ClassId) (c : CompiledClass) : CompiledClass :=
  { c with methods := c.methods.map (CompiledMethod.rename σ) }

namespace Layout

variable {σ : ClassId → ClassId} {sites : Array Site} {k j size : Nat} {i i' i'' : Instr}
  {a : ClassId}

theorem replacement?_renameSites :
    replacement? (renameSites σ sites) k = (replacement? sites k).map σ := by
  simp [replacement?, renameSites, Array.find?_map, Function.comp_def]

/-- A renaming moves nothing. -/
theorem position_renameSites (k : Nat) : position (renameSites σ sites) k = position sites k := by
  induction k with
  | zero => rfl
  | succ k ih => rw [position_succ, position_succ, ih, width, width, replacement?_renameSites,
      Option.isSome_map]

/-- The last instruction of a construction stands three places after where it begins. -/
theorem isConstruction_iff {q : Nat} : isConstruction sites q = true ↔
    ∃ k a, replacement? sites k = some a ∧ q = position sites k + 3 := by
  unfold isConstruction
  simp only [Array.any_eq_true', decide_eq_true_eq]
  constructor
  · rintro ⟨site, hsite, rfl⟩
    have hsome : (replacement? sites site.index).isSome := by
      simpa [replacement?] using ⟨site, hsite, rfl⟩
    obtain ⟨a, ha⟩ := Option.isSome_iff_exists.mp hsome
    exact ⟨site.index, a, ha, rfl⟩
  · rintro ⟨k, a, ha, rfl⟩
    obtain ⟨site, hsite, -⟩ := Option.map_eq_some_iff.mp ha
    have hindex : site.index = k := by simpa using Array.find?_some hsite
    exact ⟨site, Array.mem_of_find?_eq_some hsite, by rw [hindex]⟩

theorem isConstruction_of_replaced (h : replacement? sites k = some a) (hj : j < 4) :
    isConstruction sites (position sites k + j) = true ↔ j = 3 := by
  rw [isConstruction_iff]
  constructor
  · rintro ⟨k', a', h', hplace⟩
    exact (position_add_inj (by rw [width_of_replaced h]; exact hj)
      (by rw [width_of_replaced h']; omega) hplace).2
  · rintro rfl
    exact ⟨k, a, h, rfl⟩

/-- No construction ends where a source instruction begins. -/
theorem isConstruction_position (k : Nat) : isConstruction sites (position sites k) = false := by
  rw [Bool.eq_false_iff, ne_eq, isConstruction_iff]
  rintro ⟨k', a, h, hplace⟩
  obtain ⟨-, hzero⟩ := position_add_inj width_pos (by rw [width_of_replaced h]; omega)
    (hplace : position sites k + 0 = position sites k' + 3)
  cases hzero

/-- Of the code of a construction only the last instruction names the class. -/
theorem constructionOf_rename (h : replacement? sites k = some a) (hj : j < 4) :
    (constructionOf (σ a))[j]? = (constructionOf a)[j]?.map fun i =>
      if isConstruction sites (position sites k + j) then i.renameClass σ else i := by
  simp only [isConstruction_of_replaced h hj]
  interval_cases j <;> rfl

/-- An instruction is relocated in one way. -/
theorem Relocated.unique (h : Relocated sites size i i')
    (h' : Relocated (renameSites σ sites) size i i'') : i'' = i' := by
  unfold Relocated at h h'
  split at h
  · rename_i hnone
    rw [hnone] at h'
    rw [h, h']
  · rename_i target htarget
    rw [htarget] at h'
    rw [h.2, h'.2, position_renameSites]

/-- Sites of the same calls, with the classes of one renamed to those of the other, are the one
renamed. -/
theorem eq_renameSites {sites' : Array Site} (hindex : sites'.map (·.index) = sites.map (·.index))
    (haccessor : ∀ site ∈ sites, ∀ site' ∈ sites', site'.index = site.index →
      site'.accessor = σ site.accessor) : sites' = renameSites σ sites := by
  have hsize : sites'.size = sites.size := by simpa using congrArg Array.size hindex
  refine Array.ext (by simpa [renameSites] using hsize) fun n hn' hn => ?_
  have hlt : n < sites.size := hsize ▸ hn'
  have hsame : sites'[n].index = sites[n].index := by
    have hget := congrArg (·[n]?) hindex
    simpa [hn', hlt] using hget
  have hclass := haccessor _ (Array.getElem_mem hlt) _ (Array.getElem_mem hn') hsame
  simp only [renameSites, Array.getElem_map]
  rw [← hclass, ← hsame]

/-- Code that follows one source, with the classes constructed in the one renamed to those in the
other, is the one with these renamed. -/
theorem Linked.code_eq_rename {m : SourceMethod} {cm cm' : CompiledMethod} (h : Linked m cm)
    (h' : Linked m cm') (hsites : cm'.sites = renameSites σ cm.sites) :
    cm'.body.code = (cm.rename σ).body.code := by
  refine Array.ext_getElem? fun q => ?_
  simp only [CompiledMethod.rename, Array.getElem?_mapIdx]
  by_cases hq : q < position cm.sites m.code.size
  · obtain ⟨k, hk, j, hj, rfl⟩ := exists_place hq
    have hi := Array.getElem?_eq_getElem hk
    cases hreplaced : replacement? cm.sites k with
    | none =>
      have hreplaced' : replacement? cm'.sites k = none := by
        rw [hsites, replacement?_renameSites, hreplaced]
        rfl
      obtain ⟨i, hplaced, hrelocated⟩ := h.kept k _ hi hreplaced
      obtain ⟨i', hplaced', hrelocated'⟩ := h'.kept k _ hi hreplaced'
      rw [hsites] at hplaced' hrelocated'
      rw [position_renameSites] at hplaced'
      rw [width_of_kept hreplaced] at hj
      obtain rfl : j = 0 := by omega
      simp only [Nat.add_zero, hplaced, hplaced', Option.map_some, isConstruction_position,
        Bool.false_eq_true, ite_false, hrelocated.unique hrelocated']
    | some a =>
      have hreplaced' : replacement? cm'.sites k = some (σ a) := by
        rw [hsites, replacement?_renameSites, hreplaced]
        rfl
      rw [width_of_replaced hreplaced] at hj
      have hplaced := h.replaced k _ a hi hreplaced j hj
      have hplaced' := h'.replaced k _ (σ a) hi hreplaced' j hj
      rw [hsites, position_renameSites] at hplaced'
      rw [hplaced, hplaced', constructionOf_rename hreplaced hj]
  · rw [Array.getElem?_eq_none (by rw [h'.size, hsites, position_renameSites]; omega),
      Array.getElem?_eq_none (by rw [h.size]; omega)]
    rfl

end Layout

/-- Renaming no class changes nothing. -/
theorem CompiledClass.rename_id (c : CompiledClass) : c.rename id = c := by
  have hinstr (i : Instr) : i.renameClass id = i := by
    unfold Instr.renameClass
    split
    · rename_i heq
      rw [id_eq, ← heq]
    · rfl
  have hmethod (cm : CompiledMethod) : cm.rename id = cm := by
    have hcode : cm.body.code.mapIdx (fun _ i => i) = cm.body.code :=
      Array.ext (by simp) fun q _ _ => by simp
    simp [CompiledMethod.rename, Layout.renameSites, hinstr, hcode]
  simp [rename, funext hmethod]

namespace Compile

variable {settings : Settings} {c : SourceClass} {m : SourceMethod} {cm cm' : CompiledMethod}
  {t : ClassTable} {w v v' s s' u u' : Workspace} {mode : Arithmetic} {σ : ClassId → ClassId}

/-- A method compiled in two workspaces comes out renamed, when the classes of the accessors
are. -/
theorem method_eq_rename (ht : t.Reachable) (hunder : Underway c t s) (hunder' : Underway c t u)
    (h : method settings c m s mode = (.ok cm, s'))
    (h' : method settings c m u mode = (.ok cm', u'))
    (halike : cm.Alike cm') (hgrows : s'.Grows v) (hgrows' : u'.Grows v')
    (hrenaming : Workspace.Renaming σ w v v') : cm' = cm.rename σ := by
  have hafter := method_keeps (Underway.kept settings c ht) mode m hunder
  have hafter' := method_keeps (Underway.kept settings c ht) mode m hunder'
  rw [h] at hafter
  rw [h'] at hafter'
  obtain ⟨hlinked, -, hstands⟩ := linked_of_method h
  obtain ⟨hlinked', -, hstands'⟩ := linked_of_method h'
  have hsites : cm'.sites = Layout.renameSites σ cm.sites := by
    refine Layout.eq_renameSites halike.sites fun site hsite site' hsite' hindex => ?_
    obtain ⟨f, a, hstand⟩ := hstands site hsite
    obtain ⟨f', a', hstand'⟩ := hstands' site' hsite'
    -- Both sites stand for the field that the window named when the class was taken up.
    have hfield := (hafter.steady m site.index).symm.trans hstand.matched
    have hfield' := (hafter'.steady m site'.index).symm.trans hstand'.matched
    rw [hindex, hfield, Option.some.injEq] at hfield'
    subst hfield'
    rw [← hstand.constructed, ← hstand'.constructed]
    exact hrenaming.entry f.key a a' (hgrows.entry _ _ hstand.entry)
      (hgrows'.entry _ _ hstand'.entry)
  have hbody : cm'.body = (cm.rename σ).body := by
    rw [halike.body.eq, hlinked.code_eq_rename hlinked' hsites]
    rfl
  calc cm' = ⟨cm'.body, cm'.sites⟩ := rfl
    _ = ⟨(cm.rename σ).body, Layout.renameSites σ cm.sites⟩ := by rw [hbody, hsites]

/-- What three relations say of the elements of three lists, they say of them place by place. -/
theorem forall₂_join {α β γ : Type} {P : α → β → Prop} {Q : α → γ → Prop} {R : β → γ → Prop}
    {as : List α} {bs : List β} {cs : List γ} (hP : List.Forall₂ P as bs)
    (hQ : List.Forall₂ Q as cs) (hR : List.Forall₂ R bs cs) :
    List.Forall₂ (fun c b => ∃ a, P a b ∧ Q a c ∧ R b c) cs bs := by
  induction hP generalizing cs with
  | nil =>
    cases hR
    exact .nil
  | cons hp _ ih =>
    cases hQ with
    | cons hq hQ =>
      cases hR with
      | cons hr hR => exact .cons ⟨_, hp, hq, hr⟩ (ih hQ hR)

/-- A class compiled in two workspaces comes out renamed, when the classes of the accessors
are. -/
theorem compile_eq_rename (hstep : InStep settings c t s u)
    (hgrows : (c.compile settings s mode).2.Grows v)
    (hgrows' : (c.compile settings u mode).2.Grows v')
    (hrenaming : Workspace.Renaming σ w v v') :
    (c.compile settings u mode).1 =
      (c.compile settings s mode).1.map (CompiledClass.rename σ) := by
  obtain ⟨hresult, -⟩ := compile_endAlike hstep mode
  generalize h : c.compile settings s mode = x at *
  generalize h' : c.compile settings u mode = y at *
  obtain ⟨x, s'⟩ := x
  obtain ⟨y, u'⟩ := y
  cases hresult with
  | error => rfl
  | @ok compiled compiled' halike =>
    have hkept := Underway.kept settings c hstep.reachable
    obtain ⟨-, hmethods⟩ := SourceClass.of_compile_keeping hkept hstep.left h
    obtain ⟨-, hmethods'⟩ := SourceClass.of_compile_keeping hkept hstep.right h'
    have hrenamed : compiled'.methods = compiled.methods.map (CompiledMethod.rename σ) := by
      rw [← List.forall₂_eq_eq_eq, List.forall₂_map_right_iff]
      refine (forall₂_join hmethods hmethods' halike.methods).imp ?_
      rintro cm' cm ⟨m, ⟨_, _, hunder, hmethod, -, hlater⟩, ⟨_, _, hunder', hmethod', -, hlater'⟩,
        hmethods⟩
      exact method_eq_rename hstep.reachable hunder hunder' hmethod hmethod' hmethods
        (hlater.trans hgrows) (hlater'.trans hgrows') hrenaming
    obtain ⟨thisClass', methods'⟩ := compiled'
    obtain rfl : thisClass' = compiled.thisClass := halike.thisClass
    obtain rfl : methods' = _ := hrenamed
    rfl

/-- Every synthesis adds an entry at most. -/
theorem adds_kept (settings : Settings) (c : SourceClass) (w : Workspace) :
    KeptBySynthesis settings c fun space => ∃ added, w.Adds space added :=
  fun _ _ f _ _ ⟨_, h⟩ => h.synthesize settings.baseType f

/-- Every synthesis operates on the table. -/
theorem evolves_kept (settings : Settings) (c : SourceClass) (t : ClassTable) :
    KeptBySynthesis settings c fun space => t.Evolves space.table :=
  fun _ _ f space _ h => h.trans (space.evolves_synthesize settings.baseType f)

/-- Without a class to extend, a synthesis leaves no trace. -/
theorem eq_kept (h : ¬ w.table.Extensible settings.baseType) (c : SourceClass) :
    KeptBySynthesis settings c (· = w) :=
  fun _ _ f _ _ heq => heq ▸ Workspace.synthesize_of_not_extensible h f

/-- A class is compiled in step before and after another. -/
theorem inStep_of_compile (ht : w.table.Reachable) (hthis : c.thisClass.index < w.table.size)
    (hbase : w.table.Extensible settings.baseType) (mode : Arithmetic) (other : SourceClass) :
    InStep settings c w.table w (other.compile settings w mode).2 := by
  have hevolves : w.table.Evolves (other.compile settings w mode).2.table :=
    SourceClass.compile_keeps (evolves_kept settings other w.table) .refl
  exact ⟨ht, .start ht, (Underway.start ht).evolves ht hevolves hthis, hthis, hbase⟩

end Compile

/-- Two classes compiled in either order come out the same but for one renaming of the classes
of the accessors that are made: with the same errors or, up to the renaming, the same methods.
The same fields have accessors in the end, and as many completions are queued. This takes a
registry of accessors whose classes are in the table, as every registry is that was filled by
requests. -/
theorem SourceClass.compile_comm (settings : Settings) (a b : SourceClass) (mode : Arithmetic)
    {w : Workspace} (ht : w.table.Reachable)
    (hregistry : ∀ key x, w.registry.find? key = some x → x.classId.index < w.table.size)
    (hthisA : a.thisClass.index < w.table.size) (hthisB : b.thisClass.index < w.table.size) :
    let afterA := a.compile settings w mode
    let afterAB := b.compile settings afterA.2 mode
    let afterB := b.compile settings w mode
    let afterBA := a.compile settings afterB.2 mode
    ∃ σ, Workspace.Renaming σ w afterAB.2 afterBA.2 ∧
      afterBA.1 = afterA.1.map (CompiledClass.rename σ) ∧
      afterB.1 = afterAB.1.map (CompiledClass.rename σ) := by
  intro afterA afterAB afterB afterBA
  by_cases hbase : w.table.Extensible settings.baseType
  · have hstepA := Compile.inStep_of_compile ht hthisA hbase mode b
    have hstepB := (Compile.inStep_of_compile ht hthisB hbase mode a).symm
    obtain ⟨keysA, haskedA, haskedA'⟩ := (Compile.compile_endAlike hstepA mode).asked
    obtain ⟨keysB, haskedB, haskedB'⟩ := (Compile.compile_endAlike hstepB mode).asked
    have hsame (key : FieldKey) :
        (afterAB.2.registry.find? key).isSome ↔ (afterBA.2.registry.find? key).isSome := by
      rw [haskedA.trans haskedB key, haskedB'.trans haskedA' key, Set.union_comm]
    obtain ⟨added, hadds⟩ : ∃ added, w.Adds afterAB.2 added :=
      compile_keeps (Compile.adds_kept settings b w)
        (compile_keeps (Compile.adds_kept settings a w) ⟨[], .refl w⟩)
    obtain ⟨added', hadds'⟩ : ∃ added, w.Adds afterBA.2 added :=
      compile_keeps (Compile.adds_kept settings a w)
        (compile_keeps (Compile.adds_kept settings b w) ⟨[], .refl w⟩)
    have hrenaming := hadds.renaming hadds' hsame hregistry
    have hgrows : afterA.2.Grows afterAB.2 :=
      compile_keeps (Compile.grows_kept settings b _) (.refl _)
    have hgrows' : afterB.2.Grows afterBA.2 :=
      compile_keeps (Compile.grows_kept settings a _) (.refl _)
    exact ⟨_, hrenaming, Compile.compile_eq_rename hstepA hgrows (.refl _) hrenaming,
      Compile.compile_eq_rename hstepB (.refl _) hgrows' hrenaming⟩
  · -- No accessor can be made, so that neither compilation changes what the other starts from.
    have hA : afterA.2 = w := compile_keeps (Compile.eq_kept hbase a) rfl
    have hB : afterB.2 = w := compile_keeps (Compile.eq_kept hbase b) rfl
    have hAB : afterAB = afterB := congrArg (b.compile settings · mode) hA
    have hBA : afterBA = afterA := congrArg (a.compile settings · mode) hB
    have hmap (x : Except CompileError CompiledClass) : x = x.map (CompiledClass.rename id) := by
      cases x with
      | error err => rfl
      | ok c => exact congrArg Except.ok c.rename_id.symm
    rw [hAB, hBA, hA, hB]
    exact ⟨id, .refl w w, hmap _, hmap _⟩

namespace Sample

/-- A workspace with a second class that has a volatile field. -/
def pair : Workspace where
  table := declare table { name := "List", fields := [⟨"head", ⟨0⟩, false, true⟩] }
  registry := { tag := table.tag }
  pending := {}

/-- The volatile field of the second class. -/
def head : Field := ⟨⟨⟨13⟩, "head", "Ljava/lang/Object;"⟩, ⟨0⟩, false, true, 0⟩

/-- The second class. After the call in its first method was replaced, its second fails. -/
def list : SourceClass where
  thisClass := ⟨13⟩
  pool := ⟨#[.classRef "List", .classRef rootName, .text "head"] ++ pool.entries.extract 3⟩
  methods := [updater, { name := "underflow", descriptor := "()V", code := #[⟨.pop, .none⟩] }]

end Sample

/-- The accessors of the two samples have their classes interchanged when the samples are compiled
in the other order, though the compilation of the second class fails. -/
theorem SourceClass.compile_comm_list :
    let afterA := Sample.node.compile {} Sample.pair
    let afterAB := Sample.list.compile {} afterA.2
    let afterB := Sample.list.compile {} Sample.pair
    let afterBA := Sample.node.compile {} afterB.2
    ∃ σ, Workspace.Renaming σ Sample.pair afterAB.2 afterBA.2 ∧
      afterBA.1 = afterA.1.map (CompiledClass.rename σ) ∧ σ ⟨14⟩ = ⟨15⟩ ∧ σ ⟨15⟩ = ⟨14⟩ ∧
      afterB.1 = .error (.assembly (.stackUnderflow .pop 0 1)) ∧ afterAB.1 = afterB.1 := by
  intro afterA afterAB afterB afterBA
  obtain ⟨σ, hrenaming, hA, -⟩ := compile_comm {} Sample.node Sample.list .checked
    (w := Sample.pair) (Sample.reachable_declare Sample.reachable_table _) nofun (by decide +kernel)
    (by decide +kernel)
  have hclasses : (afterAB.2.registry.find? Sample.next.key).map (·.classId) = some ⟨14⟩ ∧
      (afterAB.2.registry.find? Sample.head.key).map (·.classId) = some ⟨15⟩ ∧
      (afterBA.2.registry.find? Sample.next.key).map (·.classId) = some ⟨15⟩ ∧
      (afterBA.2.registry.find? Sample.head.key).map (·.classId) = some ⟨14⟩ := by
    decide +kernel
  have hfails : afterB.1 = .error (.assembly (.stackUnderflow .pop 0 1)) ∧
      afterAB.1 = afterB.1 := by
    decide +kernel
  simp only [Option.map_eq_some_iff] at hclasses
  obtain ⟨⟨x, hx, hxClass⟩, ⟨y, hy, hyClass⟩, ⟨x', hx', hxClass'⟩, y', hy', hyClass'⟩ := hclasses
  have hnext := hrenaming.entry _ _ _ hx hx'
  have hhead := hrenaming.entry _ _ _ hy hy'
  rw [hxClass, hxClass'] at hnext
  rw [hyClass, hyClass'] at hhead
  exact ⟨σ, hrenaming, hA, hnext.symm, hhead.symm, hfails⟩

end FieldUpdater
