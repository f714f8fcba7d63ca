import FieldUpdater.Proofs.Accessors.Synthesis
import FieldUpdater.Proofs.Classes.Types
import FieldUpdater.Proofs.Compile.Run
import FieldUpdater.Proofs.Compile.Window

/-!
# Windows while the table grows

A field that a window names is declared by a class that is in the table, and its type was
in the table before that class. Classes that come later therefore change nothing about the
windows of a class: whatever accessors are made while it is compiled, each window names the
field that it named at the beginning, or none as at the beginning.
-/

namespace FieldUpdater

namespace ClassTable

variable {t t' : ClassTable} {c : ClassId} {name signature : String} {f : Field}

/-- The type of a field that is found was defined before the class. -/
theorem Typed.type_lt_of_findField? (ht : t.Typed) (h : t.findField? c name signature = some f) :
    f.type.index < c.index := by
  obtain ⟨k, hk, hdeclared⟩ := exists_declaredField? h
  obtain ⟨info, hinfo, hmem, -, -⟩ := mem_of_declaredField? hdeclared
  exact ((ht k info hinfo).field f hmem).1.trans_le (index_le_of_mem_lineage hk)

end ClassTable

namespace Window

variable {w : Window} {t t' : ClassTable} {f : Field}

/-- A class constant that stands for an old class in an extension did so before. -/
theorem classConstant?_of_lt (h : t.Extends t') (ht' : t'.Typed) {pool : ConstantPool}
    {index : Nat} {type : ResolvedType} {id : ClassId}
    (htype : t'.classConstant? pool index = some type) (hid : type.id = some id)
    (hlt : id.index < t.size) : t.classConstant? pool index = some type := by
  unfold ClassTable.classConstant? at htype ⊢
  obtain ⟨name, hname, rfl⟩ := Option.map_eq_some_iff.mp htype
  rw [hname, Option.map_some, h.resolve_of_lt ht' hid hlt]

/-- A window of a class of the table names the same field in every extension, or none. -/
theorem target?_eq_of_extends (ht : t.Typed) (ht' : t'.Typed) (h : t.Extends t')
    (hthis : w.thisClass.index < t.size) : w.target? t' = w.target? t := by
  refine Option.ext fun f => ⟨fun hf => ?_, target?_of_extends h⟩
  obtain ⟨n⟩ := target?_eq_some_iff.mp hf
  have hfound : t.findField? w.thisClass n.name n.valueType.signature = some f :=
    (h.findField? hthis _ _).symm.trans n.found
  -- The value class is the type of a field of the class, so that it is no newer than the class.
  have hold : n.valueClass.index < t.size :=
    n.type_eq ▸ (ht.type_lt_of_findField? hfound).trans hthis
  exact target?_eq_some_iff.mpr ⟨{ n with
    owner_type := classConstant?_of_lt h ht' n.owner_type n.owner_id hthis
    value_type := classConstant?_of_lt h ht' n.value_type n.value_id hold
    found := hfound }⟩

end Window

/-- The table after a request for an accessor is one that table operations lead to. -/
theorem Workspace.evolves_synthesize (w : Workspace) (baseType : String) (f : Field) :
    w.table.Evolves (w.synthesize baseType f).2.table := by
  refine synthesize_keeps (P := fun w' => w.table.Evolves w'.table) .refl baseType f
    fun a t _ _ hdefined _ _ => ?_
  obtain ⟨outer, -, hnested⟩ := Accessor.of_defineClass hdefined
  exact .single (.defineNested hnested)

namespace Compile

/-- A workspace in which a class is compiled that was taken up with a class table. -/
structure Underway (c : SourceClass) (t : ClassTable) (space : Workspace) : Prop where
  reachable : space.table.Reachable
  grown : t.Extends space.table
  /-- Every window of the class names the field that it named at first. -/
  steady : ∀ m index, (c.window m index).target? space.table = (c.window m index).target? t

variable {settings : Settings} {c : SourceClass} {m : SourceMethod} {t : ClassTable}
  {space space' : Workspace}

/-- A class can be taken up with every reachable table. -/
theorem Underway.start (h : space.table.Reachable) : Underway c space.table space :=
  ⟨h, .refl _, fun _ _ => rfl⟩

/-- A table that grows on leaves the windows of a class of the table steady. -/
theorem Underway.evolves (h : Underway c t space) (ht : t.Reachable)
    (hevolves : space.table.Evolves space'.table) (hthis : c.thisClass.index < t.size) :
    Underway c t space' := by
  have hreachable := h.reachable.evolves hevolves
  have hgrown := h.grown.trans hevolves.extends
  refine ⟨hreachable, hgrown, fun m index => ?_⟩
  exact Window.target?_eq_of_extends ht.typed hreachable.typed hgrown hthis

/-- Whether an instruction is to be replaced was settled when the class was taken up. -/
theorem Underway.replaced?_eq (h : Underway c t space) {index : Nat} {i : Instr} :
    replaced? settings c m index i space.table = replaced? settings c m index i t := by
  rw [replaced?, replaced?, h.steady]

/-- An accessor asked for while the class is compiled leaves its windows steady. -/
theorem Underway.kept (settings : Settings) (c : SourceClass) (ht : t.Reachable) :
    KeptBySynthesis settings c (Underway c t) := by
  intro m index field space hmatched h
  obtain ⟨n⟩ := Window.target?_eq_some_iff.mp ((h.steady m index).symm.trans hmatched)
  exact h.evolves ht (space.evolves_synthesize settings.baseType field) n.thisClass_lt

/-- A compiled instruction keeps what every synthesis keeps. -/
theorem Compiled.keeps {P : Workspace → Prop} {index : Nat} {i : Instr} {d d' : Draft}
    (hP : KeptBySynthesis settings c P) (h : P space)
    (hc : Compiled settings c m index i d space d' space') : P space' := by
  cases hc with
  | kept _ _ _ => exact h
  | replaced _ hmatched hsynthesized _ =>
    have hkept := hP m index _ space hmatched h
    rwa [hsynthesized] at hkept

/-- No synthesis loses anything. -/
theorem grows_kept (settings : Settings) (c : SourceClass) (start : Workspace) :
    KeptBySynthesis settings c start.Grows :=
  fun _ _ field space _ h => h.trans (space.grows_synthesize settings.baseType field)

/-- The methods of a class are compiled one after the other, in workspaces that have what
every synthesis keeps. -/
theorem of_methods_keeping {P : Workspace → Prop} (hP : KeptBySynthesis settings c P)
    {mode : Arithmetic} {ms : List SourceMethod} {done : Array CompiledMethod}
    {result : List CompiledMethod} (h₀ : P space)
    (h : methods settings c ms done space mode = (.ok result, space')) :
    ∃ cms, result = done.toList ++ cms ∧ P space' ∧ List.Forall₂ (fun m cm => ∃ before after,
      P before ∧ method settings c m before mode = (.ok cm, after) ∧ P after ∧
        after.Grows space') ms cms := by
  induction ms generalizing done space with
  | nil =>
    cases h
    exact ⟨[], by simp, h₀, .nil⟩
  | cons m ms ih =>
    unfold methods at h
    split at h
    · cases h
    · rename_i cm after hmethod
      have hafter := method_keeps hP mode m h₀
      rw [hmethod] at hafter
      obtain ⟨cms, rfl, hend, hall⟩ := ih hafter h
      have hgrows := methods_keep (grows_kept settings c after) mode ms (done.push cm)
        (.refl after)
      rw [h] at hgrows
      exact ⟨cm :: cms, by simp, hend, .cons ⟨space, after, h₀, hmethod, hafter, hgrows⟩ hall⟩

end Compile

/-- The methods of a compiled class are those of its source, in order, each compiled in a
workspace that has what every synthesis keeps. -/
theorem SourceClass.of_compile_keeping {c : SourceClass} {settings : Settings}
    {P : Workspace → Prop} {space space' : Workspace} {mode : Arithmetic}
    {compiled : CompiledClass} (hP : Compile.KeptBySynthesis settings c P) (h₀ : P space)
    (h : c.compile settings space mode = (.ok compiled, space')) :
    P space' ∧ List.Forall₂ (fun m cm => ∃ before after, P before ∧
      Compile.method settings c m before mode = (.ok cm, after) ∧ P after ∧
        after.Grows space')
      c.methods compiled.methods := by
  unfold compile at h
  split at h
  · cases h
  · rename_i hmethods
    cases h
    obtain ⟨cms, rfl, hend, hall⟩ := Compile.of_methods_keeping hP h₀ hmethods
    exact ⟨hend, by simpa using hall⟩

end FieldUpdater
