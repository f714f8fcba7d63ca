import FieldUpdater.Proofs.Compile.Method
import FieldUpdater.Proofs.Compile.Steady

/-!
# Compiling a class again

A class that has been compiled can be compiled again wherever its windows name the fields that
they named and the accessors made are still entered. Every request then finds its accessor, so
that the second compilation comes out like the first and does nothing else.
-/

namespace FieldUpdater

/-- An accessor that is entered is found, and nothing else happens. -/
theorem Workspace.synthesize_of_find? {w : Workspace} {f : Field} {a : Accessor}
    (h : w.registry.find? f.key = some a) (baseType : String) :
    w.synthesize baseType f = (.ok a, w) := by
  simp only [synthesize, Registry.findOrCreate, h]

namespace Compile

variable {settings : Settings} {c : SourceClass} {m : SourceMethod} {cm : CompiledMethod}
  {t : ClassTable} {mode : Arithmetic} {index : Nat} {i : Instr} {d d' : Draft}
  {s s' final : Workspace}

/-- The accessors that are entered in the one workspace are entered in the other. -/
def Remembers (s final : Workspace) : Prop :=
  ∀ key a, s.registry.find? key = some a → final.registry.find? key = some a

/-- What is remembered of a workspace is remembered of those before it. -/
theorem Remembers.of_grows (h : Remembers s' final) (hgrows : s.Grows s') : Remembers s final :=
  fun key a ha => h key a (hgrows.entry key a ha)

/-- An instruction that was compiled is compiled to the same again. -/
theorem instr_again (hunder : Underway c t s) (hfinal : Underway c t final)
    (hremembers : Remembers s' final)
    (h : instr settings c m (Flow.flags m.code m.handlers) index i d s = (.ok d', s')) :
    instr settings c m (Flow.flags m.code m.handlers) index i d final = (.ok d', final) := by
  rw [instr_eq, hunder.replaced?_eq] at h
  rw [instr_eq, hfinal.replaced?_eq]
  cases hreplaced : replaced? settings c m index i t with
  | none =>
    rw [hreplaced] at h
    exact congrArg (·, final) (Prod.mk.inj h).1
  | some f =>
    rw [hreplaced] at h
    obtain ⟨accessor, a, hsynthesized, happended, rfl⟩ := of_construct h
    have hentry := hremembers f.key accessor (Workspace.find?_of_synthesize hsynthesized)
    dsimp only
    rw [construct, Workspace.synthesize_of_find? hentry]
    dsimp only
    rw [happended]

/-- The rest of a method that was compiled is compiled to the same again. -/
theorem instrs_again (ht : t.Reachable) (hfinal : Underway c t final) {is : List Instr} :
    ∀ {index : Nat} {d : Draft} {s : Workspace}, Underway c t s → Remembers s' final →
      instrs settings c m (Flow.flags m.code m.handlers) index is d s = (.ok d', s') →
      instrs settings c m (Flow.flags m.code m.handlers) index is d final = (.ok d', final) := by
  induction is with
  | nil =>
    intro index d s _ _ h
    cases h
    rfl
  | cons i is ih =>
    intro index d s hunder hremembers h
    have hkept := instr_keeps (Underway.kept settings c ht) m index i d s hunder
    unfold instrs at h ⊢
    split at h
    · cases h
    · rename_i d₁ s₁ hinstr
      rw [hinstr] at hkept
      have hgrows := (instr_keeps (grows_kept settings c s₁)).instrs (m := m) is (index + 1) d₁ s₁
        (.refl s₁)
      rw [h] at hgrows
      rw [instr_again hunder hfinal (hremembers.of_grows hgrows) hinstr]
      exact ih hkept hremembers h

/-- A method that was compiled is compiled to the same again. -/
theorem method_again (ht : t.Reachable) (hunder : Underway c t s) (hfinal : Underway c t final)
    (hremembers : Remembers s' final) (h : method settings c m s mode = (.ok cm, s')) :
    method settings c m final mode = (.ok cm, final) := by
  obtain ⟨d, hinstrs, hlink, hsites⟩ := of_method h
  unfold method
  rw [instrs_again ht hfinal hunder hremembers hinstrs]
  dsimp only
  rw [hlink, ← hsites]

end Compile

/-- A class that was compiled is compiled to the same again, without a trace. -/
theorem SourceClass.compile_eq_of_remembers {settings : Settings} {c : SourceClass}
    {compiled : CompiledClass} {s s' final : Workspace} {mode : Arithmetic}
    (ht : s.table.Reachable)
    (hfinal : Compile.Underway c s.table final) (hremembers : Compile.Remembers s' final)
    (h : c.compile settings s mode = (.ok compiled, s')) :
    c.compile settings final mode = (.ok compiled, final) := by
  obtain ⟨-, hmethods⟩ :=
    of_compile_keeping (Compile.Underway.kept settings c ht) (Compile.Underway.start ht) h
  have hagain : List.Forall₂ (fun m cm =>
      Compile.method settings c m final mode = (.ok cm, final)) c.methods compiled.methods := by
    refine hmethods.imp ?_
    rintro m cm ⟨before, after, hunder, hmethod, -, hgrows⟩
    exact Compile.method_again ht hunder hfinal (hremembers.of_grows hgrows) hmethod
  obtain ⟨thisClass, methods⟩ := compiled
  obtain rfl : thisClass = c.thisClass := (of_compile h).1
  unfold compile
  rw [Compile.methods_eq_of_forall₂ hagain]
  rfl

end FieldUpdater
