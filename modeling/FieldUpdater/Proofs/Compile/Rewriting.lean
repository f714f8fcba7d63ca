import FieldUpdater.Proofs.Compile.DepthRange
import FieldUpdater.Proofs.Compile.Switch

/-!
# Rewritten sites

The accessor of a field is made before its construction is assembled in the place of a call. That
construction is never refused, since the stack model counts the three arguments of the call
wherever its window names a field. An instruction that cannot be compiled has therefore made no
accessor, and however a compilation ends, every accessor that it has made is constructed by the
code assembled. Where depths wrap, the arguments of a call can be lost on the way, so that this is
shown in checked arithmetic, and in wrapping arithmetic unless a depth is no word.
-/

namespace FieldUpdater

namespace Workspace

variable {w w' : Workspace} {baseType : String} {f : Field} {a b : Accessor} {key : FieldKey}

/-- A request adds an entry for its own field only. -/
theorem find?_before_synthesize (h : w.synthesize baseType f = (.ok a, w'))
    (hfound : w'.registry.find? key = some b) : w.registry.find? key = some b ∨ f.key = key := by
  have hsynthesized := w.synthesized baseType f
  rw [h] at hsynthesized
  cases hsynthesized with
  | found _ => exact .inl hfound
  | made _ _ _ _ _ _ _ =>
    exact (Registry.of_find?_insert hfound).symm.imp_right fun hnew => hnew.1.symm

end Workspace

/-- A class is compiled by compiling its methods. -/
theorem SourceClass.compile_eq (c : SourceClass) (settings : Settings) (space : Workspace)
    (mode : Arithmetic) : c.compile settings space mode =
      ((Compile.methods settings c c.methods #[] space mode).1.map (⟨c.thisClass, ·⟩),
        (Compile.methods settings c c.methods #[] space mode).2) := by
  unfold compile
  cases Compile.methods settings c c.methods #[] space mode with
  | mk result space' => cases result <;> rfl

/-- The code has the construction of a class in the place of a source instruction. -/
structure Layout.ConstructsAt (sites : Array Site) (code : Array Instr) (site : Site) : Prop where
  replaced : replacement? sites site.index = some site.accessor
  placed : ∀ j < 4, code[position sites site.index + j]? = (constructionOf site.accessor)[j]?

namespace Compile

/-- A moment of the compilation of a class: the methods before one are compiled, and of that one
the instructions before an index. -/
def Moment (settings : Settings) (c : SourceClass) (start : Workspace) (m : SourceMethod)
    (index : Nat) (d : Draft) (space : Workspace) (mode : Arithmetic := .checked) : Prop :=
  ∃ before after done between, c.methods = before ++ m :: after ∧
    methods settings c before #[] start mode = (.ok done, between) ∧
    instrs settings c m (Flow.flags m.code m.handlers) 0 (m.code.toList.take index)
      { assembler := { arithmetic := mode } } between = (.ok d, space)

/-- A call before an index whose window names a field has become the construction of the field's
accessor. -/
def Rewritten (settings : Settings) (c : SourceClass) (m : SourceMethod) (index : Nat) (d : Draft)
    (space : Workspace) (f : Field) (a : Accessor) : Prop :=
  ∃ site ∈ d.sites, site.index < index ∧ Stands settings c m space site f a ∧
    Layout.ConstructsAt d.sites d.assembler.code site

/-- The state of a compilation before an instruction of a method, when every accessor made since
the method began is constructed at one of the sites. -/
structure Accounted (settings : Settings) (c : SourceClass) (m : SourceMethod) (start : Workspace)
    (index : Nat) (d : Draft) (space : Workspace) : Prop
    extends Drafted settings c m start index d space where
  loaded : Layout.Loaded m.code m.handlers index d.assembler
  made : ∀ key a, space.registry.find? key = some a → start.registry.find? key = none →
    ∃ site ∈ d.sites, ∃ f, Stands settings c m space site f a ∧ f.key = key

variable {settings : Settings} {c : SourceClass} {m : SourceMethod} {start space space' : Workspace}
  {index count : Nat} {i : Instr} {is : List Instr} {d d' : Draft} {f : Field} {a : Accessor}
  {key : FieldKey} {err : CompileError} {ms : List SourceMethod} {mode : Arithmetic}

/-- Where some of the instructions of a method cannot be compiled, the class cannot. -/
theorem compile_error_of_take {before after : List SourceMethod} {done : List CompiledMethod}
    {between : Workspace} (hsplit : c.methods = before ++ m :: after)
    (hbefore : methods settings c before #[] start mode = (.ok done, between))
    (h : (instrs settings c m (Flow.flags m.code m.handlers) 0 (m.code.toList.take index)
      { assembler := { arithmetic := mode } } between).1 = .error err) :
    (c.compile settings start mode).1 = .error err := by
  -- The failure passes from the instructions to their method, and from there to the class.
  have hmethod : (method settings c m between mode).1 = .error err := by
    unfold method
    rw [← List.take_append_drop index m.code.toList, instrs_append]
    generalize instrs settings c m (Flow.flags m.code m.handlers) 0 (m.code.toList.take index)
      { assembler := { arithmetic := mode } } between = x at h ⊢
    obtain ⟨result, space'⟩ := x
    obtain rfl : result = _ := h
    rfl
  rw [SourceClass.compile_eq, hsplit, methods_append, hbefore]
  dsimp only
  rw [methods]
  generalize method settings c m between mode = x at hmethod ⊢
  obtain ⟨result, space'⟩ := x
  obtain rfl : result = _ := hmethod
  rfl

/-- Compiling an instruction keeps account of the accessors made. -/
theorem Accounted.compiled (hi : m.code[index]? = some i)
    (h : Accounted settings c m start index d space)
    (hc : Compiled settings c m index i d space d' space') :
    Accounted settings c m start (index + 1) d' space' := by
  have hdrafted := h.toDrafted.compiled hi hc
  refine ⟨hdrafted, h.loaded.compiled hi hc, ?_⟩
  intro key a hfound habsent
  cases hc with
  | kept _ _ _ => exact h.made key a hfound habsent
  | @replaced b field accessor _ _ _ hsynthesized _ =>
    rcases Workspace.find?_before_synthesize hsynthesized hfound with hbefore | rfl
    · have hgrows := space.grows_synthesize settings.baseType field
      rw [hsynthesized] at hgrows
      obtain ⟨site, hsite, g, hstands, hkey⟩ := h.made key a hbefore habsent
      exact ⟨site, Array.mem_push_of_mem _ hsite, g, hstands.grows hgrows, hkey⟩
    · have hentry := Workspace.find?_of_synthesize hsynthesized
      obtain rfl : accessor = a := Option.some.inj (hentry.symm.trans hfound)
      exact ⟨_, Array.mem_push_self, field,
        .of_synthesize hi ‹_› ‹_› hsynthesized, rfl⟩

/-- Whatever instructions of a method are compiled, the accessors made are accounted for. -/
theorem accounted_of_instrs (h : instrs settings c m (Flow.flags m.code m.handlers) 0
    (m.code.toList.take count) {} start = (.ok d, space)) :
    Accounted settings c m start (min count m.code.size) d space := by
  refine instrs_take_invariant (P := Accounted settings c m start)
    (fun _ _ _ _ _ _ hi hd hc => hd.compiled hi hc) ?_ h
  refine ⟨⟨.empty, .refl start, by simp⟩, .empty, fun key a hfound habsent => ?_⟩
  rw [habsent] at hfound
  cases hfound

/-- The code of a draft has the construction of every site. -/
theorem Drafted.constructsAt (h : Drafted settings c m start index d space) {site : Site}
    (hsite : site ∈ d.sites) : Layout.ConstructsAt d.sites d.assembler.code site := by
  have hreplaced := replacement?_of_mem h.stands hsite
  refine ⟨hreplaced, fun j hj => ?_⟩
  obtain ⟨f, a, hstands⟩ := h.stands site hsite
  obtain ⟨i, hi, -⟩ := hstands.factory
  have hemitted := h.laidOut.emitted site.index i (h.laidOut.site_lt site hsite) hi j
    (by rw [Layout.width_of_replaced hreplaced]; exact hj)
  rw [Layout.expansion, hreplaced] at hemitted
  exact hemitted

/-- An accessor made since the method began is constructed by the code assembled. -/
theorem Accounted.rewritten (h : Accounted settings c m start (min count m.code.size) d space)
    (hfound : space.registry.find? key = some a) (habsent : start.registry.find? key = none) :
    ∃ f, f.key = key ∧ Rewritten settings c m count d space f a := by
  obtain ⟨site, hsite, f, hstands, hkey⟩ := h.made key a hfound habsent
  have hlt := h.laidOut.site_lt site hsite
  exact ⟨f, hkey, site, hsite, by omega, hstands, h.constructsAt hsite⟩

/-- Wherever a compilation is, the stack model counts what windows have loaded. -/
theorem Moment.loaded (h : Moment settings c start m index d space) (hlt : index < m.code.size) :
    Layout.Loaded m.code m.handlers index d.assembler := by
  obtain ⟨_, _, _, _, -, -, hinstrs⟩ := h
  have hloaded := (accounted_of_instrs hinstrs).loaded
  rwa [Nat.min_eq_left hlt.le] at hloaded

end Compile

/-- The accessor of the replaced call is made although a later instruction fails. -/
example :
    let m : SourceMethod :=
      { name := "m", descriptor := "()V"
        code := #[⟨.ldc, .pool 0⟩, ⟨.ldc, .pool 1⟩, ⟨.ldc, .pool 2⟩, ⟨.invokestatic, .pool 4⟩,
          ⟨.pop, .none⟩, ⟨.pop, .none⟩] }
    let result := (⟨⟨11⟩, Sample.pool, [m]⟩ : SourceClass).compile {} Sample.space
    (∃ err, result.1 = .error err) ∧ result.2.registry.size = 1 := by
  exact ⟨⟨.assembly (.stackUnderflow .pop 0 1), by decide +kernel⟩, by decide +kernel⟩

end FieldUpdater
