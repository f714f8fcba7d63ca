import FieldUpdater.Proofs.Assembler.Operations
import FieldUpdater.Substitution.Compile

/-!
# Assemblers that differ in operands

What the assembler does with an instruction depends on the opcode and, for a jump, on the
target. Code that differs only in other operands is therefore accepted or rejected alike, and
leaves assemblers that differ in nothing but these operands.
-/

namespace FieldUpdater

/-- Results agree when they are the same error or successes that are related. -/
inductive Agree {ε α β : Type} (R : α → β → Prop) : Except ε α → Except ε β → Prop
  | ok {a : α} {b : β} (related : R a b) : Agree R (.ok a) (.ok b)
  | error {err : ε} : Agree R (.error err) (.error err)

theorem Agree.map {ε α β α' β' : Type} {R : α → β → Prop} {S : α' → β' → Prop} {f : α → α'}
    {g : β → β'} (hfg : ∀ a b, R a b → S (f a) (g b)) {x : Except ε α} {y : Except ε β}
    (h : Agree R x y) : Agree S (x.map f) (y.map g) := by
  cases h with
  | ok hrelated => exact .ok (hfg _ _ hrelated)
  | error => exact .error

/-- Traversals agree when they agree on every element. -/
theorem Agree.mapM {ε α β α' β' : Type} {R : α → β → Prop} {S : α' → β' → Prop}
    {f : α → Except ε α'} {g : β → Except ε β'} (hfg : ∀ a b, R a b → Agree S (f a) (g b))
    {xs : List α} {ys : List β} (h : List.Forall₂ R xs ys) :
    Agree (List.Forall₂ S) (xs.mapM f) (ys.mapM g) := by
  induction h with
  | nil => exact .ok .nil
  | @cons x y xs ys hxy _ ih =>
    have hfirst := hfg x y hxy
    rw [List.mapM_cons, List.mapM_cons]
    generalize f x = first at hfirst ⊢
    generalize g y = first' at hfirst ⊢
    cases hfirst with
    | error => exact .error
    | ok hrelated =>
      generalize xs.mapM f = rest at ih ⊢
      generalize ys.mapM g = rest' at ih ⊢
      cases ih with
      | error => exact .error
      | ok hrest => exact .ok (.cons hrelated hrest)

/-- Instructions that differ in an operand that is no jump's target, if at all. -/
structure Instr.Alike (i i' : Instr) : Prop where
  opcode : i'.opcode = i.opcode
  branchTarget? : i'.branchTarget? = i.branchTarget?

theorem Instr.Alike.refl (i : Instr) : i.Alike i := ⟨rfl, rfl⟩

namespace Assembler

/-- Assemblers whose code is alike, instruction by instruction, and whose states are the same. -/
structure Alike (a b : Assembler) : Prop where
  eq : b = { a with code := b.code }
  code : List.Forall₂ Instr.Alike a.code.toList b.code.toList

variable {a b a' : Assembler} {i i' : Instr} {is is' : List Instr}

theorem Alike.refl (a : Assembler) : a.Alike a :=
  ⟨rfl, List.forall₂_same.mpr fun i _ => .refl i⟩

theorem Alike.size (h : a.Alike b) : b.code.size = a.code.size := by
  simpa using h.code.length_eq.symm

theorem Alike.arithmetic (h : a.Alike b) : a.arithmetic = b.arithmetic := by rw [h.eq]

/-- Assemblers that are alike begin an instruction alike. -/
theorem Alike.beginSource (h : a.Alike b) (index : Nat) :
    (a.beginSource index).Alike (b.beginSource index) := by
  have hsize := h.size
  obtain ⟨heq, hcode⟩ := h
  generalize b.code = code at heq hcode hsize
  subst heq
  unfold Assembler.beginSource
  dsimp only
  rw [hsize]
  split <;> exact ⟨rfl, hcode⟩

theorem Alike.resetDepth (h : a.Alike b) (depth : UInt16) :
    (a.resetDepth depth).Alike (b.resetDepth depth) := by
  obtain ⟨heq, hcode⟩ := h
  generalize b.code = code at heq hcode
  subst heq
  exact ⟨rfl, hcode⟩

theorem Alike.enter (h : a.Alike b) (handlers : List Handler) (index : Nat) :
    (Compile.enter handlers index a).Alike (Compile.enter handlers index b) := by
  unfold Compile.enter
  dsimp only
  split
  · exact (h.beginSource index).resetDepth 1
  · exact h.beginSource index

theorem Alike.extended (h : a.Alike b) (hi : i.Alike i') (pops pushes : UInt16) :
    (a.extended i pops pushes).Alike (b.extended i' pops pushes) := by
  obtain ⟨heq, hcode⟩ := h
  generalize b.code = code at heq hcode
  subst heq
  refine ⟨?_, ?_⟩
  · unfold Assembler.extended
    rw [hi.branchTarget?, hi.opcode]
  · simpa using List.rel_append hcode (.cons hi .nil)

/-- Outcomes of appending: the same error, or success with assemblers that are alike. -/
inductive SameOutcome : Except AssemblyError Unit × Assembler →
    Except AssemblyError Unit × Assembler → Prop
  | ok {a b : Assembler} (alike : a.Alike b) : SameOutcome (.ok (), a) (.ok (), b)
  | error {err : AssemblyError} {a b : Assembler} : SameOutcome (.error err, a) (.error err, b)

/-- Instructions that are alike are accepted or rejected alike. -/
theorem Alike.appendWith (h : a.Alike b) (hi : i.Alike i') (pops pushes : UInt16) :
    SameOutcome (a.appendWith i pops pushes) (b.appendWith i' pops pushes) := by
  have hdepth : b.depth = a.depth := by rw [h.eq]
  rcases appendWith_congr hi.opcode hdepth h.arithmetic.symm pops pushes with
    ⟨hfirst, hsecond⟩ | ⟨err, hfirst, hsecond⟩
  · rw [hfirst, hsecond]
    exact .ok (h.extended hi pops pushes)
  · rw [hfirst, hsecond]
    exact .error

theorem Alike.append (h : a.Alike b) (hi : i.Alike i') :
    SameOutcome (a.append i) (b.append i') := by
  unfold Assembler.append
  rw [hi.opcode]
  cases i.opcode.stackEffect with
  | none => exact .error
  | some effect => exact h.appendWith hi effect.1.toUInt16 effect.2.toUInt16

/-- Code that is alike is accepted or rejected alike. -/
theorem Alike.appendAll (h : a.Alike b) (his : List.Forall₂ Instr.Alike is is') :
    SameOutcome (a.appendAll is) (b.appendAll is') := by
  induction his generalizing a b with
  | nil => exact .ok h
  | @cons i i' is is' hi _ ih =>
    have hfirst := h.append hi
    unfold Assembler.appendAll
    generalize a.append i = result at hfirst ⊢
    generalize b.append i' = result' at hfirst ⊢
    cases hfirst with
    | ok halike => exact ih halike
    | error => exact .error

/-- What an assembler accepts, one that is alike accepts alike. -/
theorem Alike.exists_appendAll (h : a.Alike b) (his : List.Forall₂ Instr.Alike is is')
    (happended : a.appendAll is = (.ok (), a')) :
    ∃ b', b.appendAll is' = (.ok (), b') ∧ a'.Alike b' := by
  have houtcome := h.appendAll his
  rw [happended] at houtcome
  generalize b.appendAll is' = result at houtcome ⊢
  cases houtcome with
  | ok halike => exact ⟨_, rfl, halike⟩

/-- Instructions that are alike are resolved alike. -/
theorem Alike.resolve (labels : Std.TreeMap Nat Nat) (hi : i.Alike i') :
    Agree Instr.Alike (Assembler.resolve labels i) (Assembler.resolve labels i') := by
  unfold Assembler.resolve
  rw [hi.branchTarget?]
  cases i.branchTarget? with
  | none => exact .ok hi
  | some target =>
    dsimp only
    cases position labels target with
    | error err => exact .error
    | ok p =>
      refine .ok ⟨hi.opcode, ?_⟩
      simp only [Instr.branchTarget?, Instr.target?, hi.opcode]

end Assembler

/-- Assembled methods that differ in their code only, which is alike. -/
structure AssembledMethod.Alike (body body' : AssembledMethod) : Prop where
  eq : body' = { body with code := body'.code }
  code : List.Forall₂ Instr.Alike body.code.toList body'.code.toList

/-- Assemblers that are alike are linked alike. -/
theorem Assembler.Alike.link {a b : Assembler} (h : a.Alike b) (name descriptor : String)
    (handlers : List Handler) :
    Agree AssembledMethod.Alike (a.link name descriptor handlers)
      (b.link name descriptor handlers) := by
  have hlabels : b.closedLabels = a.closedLabels := by
    unfold Assembler.closedLabels
    rw [h.size, h.eq]
  have hmax : b.maxDepth = a.maxDepth := by rw [h.eq]
  have hcode := Agree.mapM (fun _ _ hi => Alike.resolve a.closedLabels hi) h.code
  unfold Assembler.link
  simp only [Array.mapM_eq_mapM_toList, hlabels, hmax]
  generalize a.code.toList.mapM (Assembler.resolve a.closedLabels) = code at hcode ⊢
  generalize b.code.toList.mapM (Assembler.resolve a.closedLabels) = code' at hcode ⊢
  cases hcode with
  | error => exact .error
  | ok hcode =>
    cases handlers.mapM (resolveHandler a.closedLabels) with
    | error err => exact .error
    | ok resolved => exact .ok ⟨rfl, by simpa using hcode⟩

end FieldUpdater
