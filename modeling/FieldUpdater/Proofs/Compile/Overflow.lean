import FieldUpdater.Proofs.Assembler.Overflow
import FieldUpdater.Proofs.Compile.Method

/-!
# Compilations that overflow

In checked arithmetic a compilation ends where a depth or the number of the operands of a call is
no word. Until then wrapping arithmetic has nothing to wrap: it goes through the same depths,
replaces the same calls and leaves the same workspaces. A compilation in wrapping arithmetic is
therefore that in checked arithmetic, unless the latter overflows. The construction of an accessor
never does, since it takes more than it leaves.
-/

namespace FieldUpdater

/-- The sum of two words that is a word is the same in wrapping arithmetic. -/
theorem Arithmetic.add_wrapping {mode : Arithmetic} {x y sum : UInt16}
    (h : mode.add x y = .ok sum) : Arithmetic.wrapping.add x y = .ok sum := by
  unfold add at h ⊢
  split at h
  · cases h
  · rw [if_neg (by simp)]
    exact h

namespace Compile

/-- Whether a compilation met an overflow. -/
def Overflowed {α : Type} (result : Except CompileError α) : Prop :=
  ∃ source, result = .error (.assembly (.overflow source))

/-- The draft in wrapping arithmetic. -/
def wrapped (d : Draft) : Draft := ⟨d.assembler.wrapped, d.sites⟩

/-- What is the same in wrapping arithmetic unless it overflows. -/
def WrapsAlike (x y : Except CompileError Draft × Workspace) : Prop :=
  Overflowed x.1 ∨ y = (x.1.map wrapped, x.2)

variable {settings : Settings} {c : SourceClass} {m : SourceMethod} {flags : Array FlowFlags}
  {index : Nat} {i : Instr} {a : Assembler} {d d' : Draft} {f : Field} {space space' : Workspace}

/-- What was appended alike is kept alike. -/
theorem kept_wrapped {x y : Except AssemblyError Unit × Assembler}
    (h : Assembler.WrapsAlike x y) :
    Overflowed (kept x) ∨ kept y = (kept x).map Assembler.wrapped := by
  obtain ⟨answer, b⟩ := x
  rcases h with ⟨source, rfl⟩ | rfl
  · exact .inl ⟨source, rfl⟩
  · cases answer <;> exact .inr rfl

theorem enter_wrapped (handlers : List Handler) (index : Nat) (a : Assembler) :
    enter handlers index a.wrapped = (enter handlers index a).wrapped := by
  unfold enter Assembler.beginSource
  cases hterminated : a.afterTerminator <;> simp only [Assembler.wrapped, hterminated] <;>
    split <;> rfl

/-- A call is kept alike when its operands are counted without overflow. -/
theorem keepCall_wrapped (i : Instr) (callee : Callee) (a : Assembler) :
    Overflowed (keepCall i callee a) ∨
      keepCall i callee a.wrapped = (keepCall i callee a).map Assembler.wrapped := by
  unfold keepCall
  cases Signature.parse callee.descriptor with
  | error err => exact .inr rfl
  | ok signature =>
    dsimp only
    cases hcount : countOperands a.arithmetic i.opcode signature with
    | error source => exact .inl ⟨source, rfl⟩
    | ok operands =>
      have hsame : countOperands a.wrapped.arithmetic i.opcode signature = .ok operands :=
        Arithmetic.add_wrapping hcount
      rw [hsame]
      exact kept_wrapped (a.appendWith_wrapped i operands _)

theorem keep_wrapped (c : SourceClass) (index : Nat) (i : Instr) (a : Assembler) :
    Overflowed (keep c index i a) ∨
      keep c index i a.wrapped = (keep c index i a).map Assembler.wrapped := by
  unfold keep
  split
  · split
    · exact .inr rfl
    · split
      · exact .inr rfl
      · exact keepCall_wrapped i _ a
  · exact kept_wrapped (a.append_wrapped i)

/-- The construction of an accessor is the same in wrapping arithmetic. -/
theorem construct_wrapped (settings : Settings) (index : Nat) (f : Field) (a : Assembler)
    (sites : Array Site) (space : Workspace) :
    construct settings index f a.wrapped sites space =
      ((construct settings index f a sites space).1.map wrapped,
        (construct settings index f a sites space).2) := by
  unfold construct
  cases space.synthesize settings.baseType f with
  | mk requested after =>
    cases requested with
    | error err => rfl
    | ok accessor =>
      have hfits : ¬ Assembler.Overflowed (a.appendAll accessor.constructionCode) :=
        Assembler.not_overflowed_appendAll_pop (Nat.le_refl 1)
      have hsame := (Assembler.appendAll_wrapped accessor.constructionCode a).resolve_left hfits
      dsimp only
      rw [hsame]
      generalize a.appendAll accessor.constructionCode = result
      obtain ⟨answer, b⟩ := result
      cases answer <;> rfl

/-- An instruction is compiled alike, whether it is kept or replaced. -/
theorem instr_wrapped (settings : Settings) (c : SourceClass) (m : SourceMethod) (index : Nat)
    (i : Instr) (d : Draft) (space : Workspace) :
    WrapsAlike (instr settings c m (Flow.flags m.code m.handlers) index i d space)
      (instr settings c m (Flow.flags m.code m.handlers) index i (wrapped d) space) := by
  rw [instr_eq, instr_eq]
  unfold wrapped
  rw [enter_wrapped]
  cases replaced? settings c m index i space.table with
  | none =>
    dsimp only
    rcases keep_wrapped c index i (enter m.handlers index d.assembler) with ⟨source, hover⟩ | hsame
    · exact .inl ⟨source, by rw [hover]; rfl⟩
    · rw [hsame]
      cases keep c index i (enter m.handlers index d.assembler) <;> exact .inr rfl
  | some f => exact .inr (construct_wrapped settings index f _ d.sites space)

/-- The rest of a method is compiled alike. -/
theorem instrs_wrapped (settings : Settings) (c : SourceClass) (m : SourceMethod) (is : List Instr)
    (index : Nat) (d : Draft) (space : Workspace) :
    WrapsAlike (instrs settings c m (Flow.flags m.code m.handlers) index is d space)
      (instrs settings c m (Flow.flags m.code m.handlers) index is (wrapped d) space) := by
  induction is generalizing index d space with
  | nil => exact .inr rfl
  | cons i is ih =>
    have hinstr := instr_wrapped settings c m index i d space
    unfold instrs
    generalize instr settings c m (Flow.flags m.code m.handlers) index i d space = x at hinstr ⊢
    generalize instr settings c m (Flow.flags m.code m.handlers) index i (wrapped d) space = y
      at hinstr ⊢
    obtain ⟨result, after⟩ := x
    rcases hinstr with ⟨source, rfl⟩ | rfl
    · exact .inl ⟨source, rfl⟩
    · cases result with
      | error err => exact .inr rfl
      | ok d => exact ih (index + 1) d after

/-- A method is compiled to the same in wrapping arithmetic unless it overflows. -/
theorem method_wrapping (settings : Settings) (c : SourceClass) (m : SourceMethod)
    (space : Workspace) : Overflowed (method settings c m space).1 ∨
      method settings c m space .wrapping = method settings c m space := by
  have hinstrs := instrs_wrapped settings c m m.code.toList 0 {} space
  unfold method
  generalize instrs settings c m (Flow.flags m.code m.handlers) 0 m.code.toList {} space = x
    at hinstrs ⊢
  obtain ⟨result, after⟩ := x
  rcases hinstrs with ⟨source, rfl⟩ | hsame
  · exact .inl ⟨source, rfl⟩
  · change instrs settings c m (Flow.flags m.code m.handlers) 0 m.code.toList
      { assembler := { arithmetic := .wrapping } } space = _ at hsame
    rw [hsame]
    cases result <;> exact .inr rfl

end Compile

end FieldUpdater
