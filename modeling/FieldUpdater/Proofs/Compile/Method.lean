import FieldUpdater.Proofs.Accessors.Synthesis
import FieldUpdater.Proofs.Compile.Layout
import FieldUpdater.Proofs.Compile.Run
import FieldUpdater.Proofs.Compile.Window

/-!
# Compiled methods

A compiled method consists of what its source instructions become, each at its
position, with every jump sent to the position of its source target. Every site is a
factory call whose window names a field, and constructs the class of that field's
accessor.
-/

namespace FieldUpdater

/-- What a site of a compiled method stands for: a field that the window of a factory
call names, and the accessor that the registry has for it. -/
structure Compile.Stands (settings : Settings) (c : SourceClass) (m : SourceMethod)
    (space : Workspace) (site : Site) (f : Field) (a : Accessor) : Prop where
  /-- The source instruction calls the factory. -/
  factory : ∃ i, m.code[site.index]? = some i ∧ settings.isFactoryCall c.pool i = true
  /-- Its window names the field. -/
  matched : (c.window m site.index).target? space.table = some f
  /-- The registry has the accessor of the field. -/
  entry : space.registry.find? f.key = some a
  /-- The class constructed is the accessor's. -/
  constructed : a.classId = site.accessor

namespace Layout

/-- A linked instruction: a jump goes to the position of its target, which is an
instruction of the source or its end, and any other instruction is as it was. -/
def Relocated (sites : Array Site) (size : Nat) (i i' : Instr) : Prop :=
  match i.branchTarget? with
  | none => i' = i
  | some target => target ≤ size ∧ i' = { i with operand := .target (position sites target) }

/-- A compiled method follows its source. -/
structure Linked (m : SourceMethod) (cm : CompiledMethod) : Prop where
  /-- The method keeps its name. -/
  name : cm.body.name = m.name
  /-- The code ends at the position of the end of the source. -/
  size : cm.body.code.size = position cm.sites m.code.size
  /-- A kept instruction stands at its position. -/
  kept : ∀ k i, m.code[k]? = some i → replacement? cm.sites k = none →
    ∃ i', cm.body.code[position cm.sites k]? = some i' ∧ Relocated cm.sites m.code.size i i'
  /-- A replaced call has become a construction. -/
  replaced : ∀ k i a, m.code[k]? = some i → replacement? cm.sites k = some a →
    ∀ j < 4, cm.body.code[position cm.sites k + j]? = (constructionOf a)[j]?

variable {code : Array Instr} {d : Draft}

/-- The labels of a laid out draft are the positions of its instructions and of its end. -/
theorem LaidOut.position_closedLabels {index : Nat} (h : LaidOut code d index) (k : Nat) :
    Assembler.position d.assembler.closedLabels k =
      if k ≤ index then .ok (position d.sites k) else .error (.undefinedLabel k) := by
  have hlabel := h.label k
  unfold Assembler.position Assembler.closedLabels
  rw [Std.TreeMap.getElem?_insertIfNew, h.sourceEnd, h.size]
  rcases Nat.lt_trichotomy k index with hlt | rfl | hgt
  · rw [if_pos hlt] at hlabel
    have hcompare : ¬ (compare index k = .eq ∧ index ∉ d.assembler.labels) := by
      rintro ⟨heq, -⟩
      rw [Nat.compare_eq_eq] at heq
      omega
    rw [if_neg hcompare, hlabel, if_pos hlt.le]
  · rw [if_neg (Nat.lt_irrefl k)] at hlabel
    have hnew : k ∉ d.assembler.labels := by
      rw [Std.TreeMap.mem_iff_isSome_getElem?, hlabel]
      simp
    rw [if_pos ⟨Nat.compare_eq_eq.mpr rfl, hnew⟩, if_pos le_rfl]
  · rw [if_neg (by omega)] at hlabel
    have hcompare : ¬ (compare index k = .eq ∧ index ∉ d.assembler.labels) := by
      rintro ⟨heq, -⟩
      rw [Nat.compare_eq_eq] at heq
      omega
    rw [if_neg hcompare, hlabel, if_neg (by omega)]

/-- An instruction resolved against the labels of a laid out draft is relocated. -/
theorem LaidOut.relocated {size : Nat} (h : LaidOut code d size) {i i' : Instr}
    (hresolve : Assembler.resolve d.assembler.closedLabels i = .ok i') :
    Relocated d.sites size i i' := by
  unfold Assembler.resolve at hresolve
  unfold Relocated
  cases htarget : i.branchTarget? with
  | none =>
    simp only [htarget, Except.ok.injEq] at hresolve
    exact hresolve.symm
  | some target =>
    simp only [htarget, h.position_closedLabels] at hresolve
    by_cases hle : target ≤ size
    · simp only [if_pos hle, Except.map, Except.ok.injEq] at hresolve
      exact ⟨hle, hresolve.symm⟩
    · simp [if_neg hle, Except.map] at hresolve

/-- Linking a draft of all instructions gives a method that follows its source. -/
theorem LaidOut.linked {m : SourceMethod} {cm : CompiledMethod}
    (h : LaidOut m.code d m.code.size)
    (hlink : d.assembler.link m.name m.descriptor m.handlers = .ok cm.body)
    (hsites : cm.sites = d.sites) : Linked m cm := by
  obtain ⟨hsize, hplace⟩ := Assembler.code_of_link hlink
  refine ⟨(Assembler.of_link hlink).name, by rw [hsize, h.size, hsites], ?_, ?_⟩
  · intro k i hi hkept
    rw [hsites] at hkept ⊢
    have hlt : k < m.code.size := (Array.getElem?_eq_some_iff.mp hi).1
    have hemitted := h.emitted k i hlt hi 0 (by rw [width_of_kept hkept]; omega)
    rw [Nat.add_zero, expansion, hkept] at hemitted
    obtain ⟨i', hi', hresolve⟩ := hplace _ i hemitted
    exact ⟨i', hi', h.relocated hresolve⟩
  · intro k i a hi hreplaced j hj
    rw [hsites] at hreplaced ⊢
    have hlt : k < m.code.size := (Array.getElem?_eq_some_iff.mp hi).1
    have hemitted := h.emitted k i hlt hi j (by rw [width_of_replaced hreplaced]; exact hj)
    rw [expansion, hreplaced] at hemitted
    dsimp only at hemitted
    -- The code of a construction holds no jump, so that linking leaves it alone.
    have hstays : ∀ instr ∈ constructionOf a,
        Assembler.resolve d.assembler.closedLabels instr = .ok instr := by
      simp [constructionOf, Assembler.resolve, Instr.branchTarget?, Opcode.isBranch]
    obtain ⟨instr, hinstr⟩ : ∃ instr, (constructionOf a)[j]? = some instr :=
      ⟨_, List.getElem?_eq_getElem hj⟩
    rw [hinstr] at hemitted ⊢
    obtain ⟨instr', hinstr', hresolve⟩ := hplace _ instr hemitted
    rw [hstays instr (List.mem_of_getElem? hinstr), Except.ok.injEq] at hresolve
    rw [hinstr', hresolve]

end Layout

namespace Compile

variable {settings : Settings} {c : SourceClass} {m : SourceMethod} {space space' : Workspace}
  {mode : Arithmetic}

/-- When all instructions of a method have been compiled, all are laid out. -/
theorem laidOut_of_instrs {d : Draft} (h : instrs settings c m (Flow.flags m.code m.handlers) 0
    m.code.toList { assembler := { arithmetic := mode } } space = (.ok d, space')) :
    Layout.LaidOut m.code d m.code.size :=
  instrs_invariant (P := fun k d _ => Layout.LaidOut m.code d k)
    (fun _ _ _ _ _ _ hi hd hc => hd.compiled hi hc) .empty h

/-- What a site stands for stays so. -/
theorem Stands.grows {site : Site} {f : Field} {a : Accessor}
    (h : Stands settings c m space site f a) (hgrows : space.Grows space') :
    Stands settings c m space' site f a where
  factory := h.factory
  matched := Window.target?_of_extends hgrows.table h.matched
  entry := hgrows.entry _ _ h.entry
  constructed := h.constructed

/-- A call that is replaced stands for the field that its window names, and the accessor asked
for. -/
theorem Stands.of_synthesize {index : Nat} {i : Instr} {f : Field} {a : Accessor}
    (hi : m.code[index]? = some i) (hfactory : settings.isFactoryCall c.pool i = true)
    (hmatched : (c.window m index).target? space.table = some f)
    (hsynthesized : space.synthesize settings.baseType f = (.ok a, space')) :
    Stands settings c m space' ⟨index, a.classId⟩ f a where
  factory := ⟨i, hi, hfactory⟩
  matched := by
    have hgrows := space.grows_synthesize settings.baseType f
    rw [hsynthesized] at hgrows
    exact Window.target?_of_extends hgrows.table hmatched
  entry := Workspace.find?_of_synthesize hsynthesized
  constructed := rfl

/-- A replaced call is one of the sites. -/
theorem mem_of_replacement? {sites : Array Site} {k : Nat} {a : ClassId}
    (h : Layout.replacement? sites k = some a) : ⟨k, a⟩ ∈ sites := by
  obtain ⟨site, hsite, rfl⟩ := Option.map_eq_some_iff.mp h
  have hindex := Array.find?_some hsite
  obtain rfl : site.index = k := of_decide_eq_true hindex
  exact Array.mem_of_find?_eq_some hsite

/-- The sites of one call construct the same class. -/
theorem replacement?_of_mem {sites : Array Site} {site : Site}
    (hstands : ∀ site ∈ sites, ∃ f a, Stands settings c m space site f a)
    (hsite : site ∈ sites) :
    Layout.replacement? sites site.index = some site.accessor := by
  cases hreplaced : Layout.replacement? sites site.index with
  | none =>
    simp only [Layout.replacement?, Option.map_eq_none_iff, Array.find?_eq_none] at hreplaced
    exact absurd (decide_eq_true rfl) (hreplaced site hsite)
  | some a =>
    obtain ⟨f, b, hfirst⟩ := hstands _ (mem_of_replacement? hreplaced)
    obtain ⟨f', b', hsecond⟩ := hstands site hsite
    obtain rfl : f = f' := Option.some.inj (hfirst.matched.symm.trans hsecond.matched)
    obtain rfl : b = b' := Option.some.inj (hfirst.entry.symm.trans hsecond.entry)
    rw [← hsecond.constructed, hfirst.constructed]

/-- A site of the compiled code constructs the class that it names. -/
theorem newobj_of_mem {cm : CompiledMethod} {site : Site} (hlinked : Layout.Linked m cm)
    (hstands : ∀ site ∈ cm.sites, ∃ f a, Stands settings c m space site f a)
    (hsite : site ∈ cm.sites) :
    cm.body.code[Layout.position cm.sites site.index + 3]? =
      some ⟨.newobj, .classRef site.accessor⟩ := by
  obtain ⟨f, a, hstand⟩ := hstands site hsite
  obtain ⟨i, hi, -⟩ := hstand.factory
  exact hlinked.replaced _ i _ hi (replacement?_of_mem hstands hsite) 3 (by omega)

/-- The state of a compilation before an instruction of a method. -/
structure Drafted (settings : Settings) (c : SourceClass) (m : SourceMethod) (start : Workspace)
    (index : Nat) (d : Draft) (space : Workspace) : Prop where
  /-- The instructions before are laid out. -/
  laidOut : Layout.LaidOut m.code d index
  /-- The workspace has only grown. -/
  grown : start.Grows space
  /-- Every site stands for a field and its accessor. -/
  stands : ∀ site ∈ d.sites, ∃ f a, Stands settings c m space site f a

/-- Compiling an instruction keeps the state of the compilation in order. -/
theorem Drafted.compiled {start : Workspace} {index : Nat} {i : Instr} {d d' : Draft}
    (hi : m.code[index]? = some i) (h : Drafted settings c m start index d space)
    (hc : Compiled settings c m index i d space d' space') :
    Drafted settings c m start (index + 1) d' space' := by
  refine ⟨h.laidOut.compiled hi hc, ?_, ?_⟩
  · cases hc with
    | kept _ _ _ => exact h.grown
    | replaced _ _ hsynthesized _ =>
      have hgrows := space.grows_synthesize settings.baseType ‹Field›
      rw [hsynthesized] at hgrows
      exact h.grown.trans hgrows
  · cases hc with
    | kept _ _ _ => exact h.stands
    | replaced hfactory hmatched hsynthesized _ =>
      have hgrows := space.grows_synthesize settings.baseType ‹Field›
      rw [hsynthesized] at hgrows
      intro site hsite
      rcases Array.mem_push.mp hsite with hold | rfl
      · obtain ⟨f, a, hstands⟩ := h.stands site hold
        exact ⟨f, a, hstands.grows hgrows⟩
      · exact ⟨_, _, .of_synthesize hi hfactory hmatched hsynthesized⟩

/-- A compiled method follows its source, and its sites stand for fields and their accessors. -/
theorem linked_of_method {cm : CompiledMethod}
    (h : method settings c m space mode = (.ok cm, space')) :
    Layout.Linked m cm ∧ space.Grows space' ∧
      ∀ site ∈ cm.sites, ∃ f a, Stands settings c m space' site f a := by
  obtain ⟨d, hinstrs, hlink, hsites⟩ := of_method h
  have hdrafted : Drafted settings c m space m.code.size d space' :=
    instrs_invariant (P := Drafted settings c m space)
      (fun _ _ _ _ _ _ hi hd hc => hd.compiled hi hc) ⟨.empty, .refl space, by simp⟩ hinstrs
  exact ⟨hdrafted.laidOut.linked hlink hsites, hdrafted.grown, hsites ▸ hdrafted.stands⟩

/-- The methods of a compiled class are compiled one after the other. -/
theorem of_methods {ms : List SourceMethod} {done : Array CompiledMethod}
    {result : List CompiledMethod}
    (h : methods settings c ms done space mode = (.ok result, space')) :
    ∃ cms, result = done.toList ++ cms ∧ space.Grows space' ∧ List.Forall₂ (fun m cm =>
      ∃ before after, space.Grows before ∧ method settings c m before mode = (.ok cm, after) ∧
        after.Grows space') ms cms := by
  induction ms generalizing done space with
  | nil =>
    cases h
    exact ⟨[], by simp, .refl _, .nil⟩
  | cons m ms ih =>
    unfold methods at h
    split at h
    · cases h
    · rename_i cm after hmethod
      obtain ⟨cms, rfl, hgrows, hall⟩ := ih h
      have hafter := (linked_of_method hmethod).2.1
      refine ⟨cm :: cms, by simp, hafter.trans hgrows,
        .cons ⟨space, after, .refl space, hmethod, hgrows⟩ (hall.imp ?_)⟩
      rintro m' cm' ⟨before, after', hbefore, hmethod', hafter'⟩
      exact ⟨before, after', hafter.trans hbefore, hmethod', hafter'⟩

end Compile

/-- The methods of a compiled class are those of its source, in order, each compiled in a
workspace between the one at the start and the one at the end. -/
theorem SourceClass.of_compile {c : SourceClass} {settings : Settings} {space space' : Workspace}
    {mode : Arithmetic} {compiled : CompiledClass}
    (h : c.compile settings space mode = (.ok compiled, space')) :
    compiled.thisClass = c.thisClass ∧ space.Grows space' ∧ List.Forall₂ (fun m cm =>
      ∃ before after, space.Grows before ∧
        Compile.method settings c m before mode = (.ok cm, after) ∧ after.Grows space')
      c.methods compiled.methods := by
  unfold compile at h
  split at h
  · cases h
  · rename_i hmethods
    cases h
    obtain ⟨cms, rfl, hgrows, hall⟩ := Compile.of_methods hmethods
    exact ⟨rfl, hgrows, by simpa using hall⟩

/-- Every site of a compiled class constructs the class of an accessor that the registry has. -/
theorem SourceClass.accessor_of_compile {c : SourceClass} {settings : Settings}
    {space space' : Workspace} {mode : Arithmetic} {compiled : CompiledClass}
    (h : c.compile settings space mode = (.ok compiled, space')) :
    ∀ cm ∈ compiled.methods, ∀ site ∈ cm.sites,
      cm.body.code[Layout.position cm.sites site.index + 3]? =
        some ⟨.newobj, .classRef site.accessor⟩ ∧
      ∃ key a, space'.registry.find? key = some a ∧ a.classId = site.accessor := by
  obtain ⟨-, -, hmethods⟩ := of_compile h
  obtain ⟨hlength, hget⟩ := List.forall₂_iff_get.mp hmethods
  intro cm hcm site hsite
  obtain ⟨k, hk, rfl⟩ := List.getElem_of_mem hcm
  obtain ⟨before, after, -, hmethod, hafter⟩ := hget k (hlength ▸ hk) hk
  obtain ⟨hlinked, -, hstands⟩ := Compile.linked_of_method hmethod
  refine ⟨Compile.newobj_of_mem hlinked hstands hsite, ?_⟩
  obtain ⟨f, a, hstand⟩ := hstands site hsite
  exact ⟨f.key, a, hafter.entry _ _ hstand.entry, hstand.constructed⟩

/-- What is computed of a success tells that there is one. -/
theorem exists_eq_ok_of_toOption {ε α β σ : Type} {x : Except ε α × σ} {y : β} (f : α → β)
    (h : x.1.toOption.map f = some y) : ∃ a s, x = (.ok a, s) ∧ f a = y := by
  obtain ⟨result, s⟩ := x
  cases result with
  | error err => cases h
  | ok a => exact ⟨a, s, rfl, Option.some.inj h⟩

namespace Sample

/-- The constants of a factory call for the field. -/
def pool : ConstantPool :=
  ⟨#[.classRef "Node", .classRef rootName, .text "next",
    .classRef "java/util/concurrent/atomic/AtomicReferenceFieldUpdater",
    .methodRef 3 "newUpdater"
      ("(Ljava/lang/Class;Ljava/lang/Class;Ljava/lang/String;)" ++
        "Ljava/util/concurrent/atomic/AtomicReferenceFieldUpdater;")]⟩

/-- A method that loops before the factory call and returns the accessor. -/
def updater : SourceMethod where
  name := "updater"
  descriptor := "()Ljava/lang/Object;"
  code := #[⟨.ldarg, .localVar 0⟩, ⟨.ifnull, .target 0⟩, ⟨.ldc, .pool 0⟩, ⟨.ldc, .pool 1⟩,
    ⟨.ldc, .pool 2⟩, ⟨.invokestatic, .pool 4⟩, ⟨.areturn, .none⟩]

/-- The class with the method. -/
def node : SourceClass := ⟨⟨11⟩, pool, [updater]⟩

/-- The call of the class is replaced. -/
theorem applied_node :
    ((node.compile {} space).1.toOption.map CompiledClass.applied) = some 1 := by
  decide +kernel

/-- The class is compiled, and the replaced call constructs the class after the declared ones. -/
theorem compile_node : ∃ compiled space', node.compile {} space = (.ok compiled, space') ∧
    compiled.methods.map (·.sites) = [#[⟨5, ⟨13⟩⟩]] := by
  have hsites : ((node.compile {} space).1.toOption.map
      fun compiled => compiled.methods.map (·.sites)) = some [#[⟨5, ⟨13⟩⟩]] := by
    decide +kernel
  exact exists_eq_ok_of_toOption _ hsites

end Sample

end FieldUpdater
