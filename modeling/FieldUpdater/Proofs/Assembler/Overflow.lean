import FieldUpdater.Proofs.Assembler.DepthHistory
import Mathlib.Algebra.Order.BigOperators.Group.List
import Mathlib.Algebra.Order.Ring.Nat

/-!
# When depths overflow

A depth overflows only where it would be larger than any word, so that instructions are appended
without overflow as long as the largest depth measured leaves room for what they add. Until an
overflow the two arithmetics do the same: what an assembler in checked arithmetic accepts or
refuses, for want of entries or of an effect, one in wrapping arithmetic accepts or refuses alike.
-/

namespace FieldUpdater

/-- By how much an instruction leaves more on the stack than there was, if at all. Calls, which
have no fixed effect, are left out. -/
def Instr.growth (i : Instr) : Nat :=
  match i.opcode.stackEffect with
  | none => 0
  | some (pops, pushes) => pushes - pops

/-- An instruction leaves at most one entry more than there was. -/
theorem Instr.growth_le_one (i : Instr) : i.growth ≤ 1 := by
  unfold growth
  split
  · exact Nat.zero_le 1
  · rename_i heffect
    have hsmall := Opcode.stackEffect_small heffect
    omega

namespace Assembler

variable {a : Assembler} {pops pushes : UInt16}

/-- A sum of words is no larger than that of the numbers. -/
theorem toNat_add_le (x y : UInt16) : (x + y).toNat ≤ x.toNat + y.toNat := by
  rw [UInt16.toNat_add]
  exact Nat.mod_le _ _

/-- The depth grows by no more than what an instruction leaves in excess of what it takes. -/
theorem depth_appendWith_le (a : Assembler) (i : Instr) (pops pushes : UInt16) :
    (a.appendWith i pops pushes).2.depth.toNat ≤ a.depth.toNat + (pushes.toNat - pops.toNat) := by
  have hcases := a.appending i pops pushes
  generalize a.appendWith i pops pushes = result at hcases ⊢
  cases hcases with
  | accepted hadmitted =>
    have henough := hadmitted.enough
    have hsum := toNat_add_le (a.depth - pops) pushes
    have hleft := Arithmetic.toNat_sub henough
    rw [extended_depth]
    omega
  | missing _ => exact Nat.le_add_right ..
  | overflows _ _ => exact Nat.le_add_right ..

theorem depth_append_le (a : Assembler) (i : Instr) :
    (a.append i).2.depth.toNat ≤ a.depth.toNat + i.growth := by
  unfold Assembler.append Instr.growth
  cases heffect : i.opcode.stackEffect with
  | none => exact Nat.le_refl _
  | some effect =>
    obtain ⟨hpops, hpushes⟩ := Opcode.toNat_stackEffect heffect
    have hdepth := a.depth_appendWith_le i effect.1.toUInt16 effect.2.toUInt16
    rwa [hpops, hpushes] at hdepth

/-- So does the largest depth. -/
theorem Bounded.maxDepth_appendWith_le (h : a.Bounded) (i : Instr) (pops pushes : UInt16) :
    (a.appendWith i pops pushes).2.maxDepth.toNat ≤
      a.maxDepth.toNat + (pushes.toNat - pops.toNat) := by
  have hgrown := a.depth_appendWith_le i pops pushes
  have hdepth : a.depth.toNat ≤ a.maxDepth.toNat := h.depth
  rw [maxDepth_appendWith h]
  omega

theorem Bounded.maxDepth_append_le (h : a.Bounded) (i : Instr) :
    (a.append i).2.maxDepth.toNat ≤ a.maxDepth.toNat + i.growth := by
  have hgrown := a.depth_append_le i
  have hdepth : a.depth.toNat ≤ a.maxDepth.toNat := h.depth
  rw [maxDepth_append h]
  omega

/-- Several instructions raise the largest depth by no more than their growths together. -/
theorem Bounded.maxDepth_appendAll_le (h : a.Bounded) (is : List Instr) :
    (a.appendAll is).2.maxDepth.toNat ≤ a.maxDepth.toNat + (is.map Instr.growth).sum := by
  induction is generalizing a with
  | nil => exact Nat.le_refl _
  | cons i is ih =>
    have hfirst := h.maxDepth_append_le i
    have hrest := ih (h.append i)
    rw [List.map_cons, List.sum_cons, appendAll_cons_eq]
    cases (a.append i).1 <;> dsimp only <;> omega

/-- Whether an instruction met an overflow. -/
def Overflowed (result : Except AssemblyError Unit × Assembler) : Prop :=
  ∃ err, result.1 = .error (.overflow err)

/-- Only a depth that is no word overflows. -/
theorem not_overflowed_appendWith (i : Instr)
    (hroom : pops.toNat ≤ a.depth.toNat → a.depth.toNat - pops.toNat + pushes.toNat < 65536) :
    ¬ Overflowed (a.appendWith i pops pushes) := by
  have hcases := a.appending i pops pushes
  generalize a.appendWith i pops pushes = result at hcases ⊢
  rintro ⟨err, herror⟩
  cases hcases with
  | accepted _ => cases herror
  | missing _ => cases herror
  | overflows henough hlarge => exact hlarge fun _ => hroom henough

/-- An instruction does not overflow when the depth leaves room for what it adds. -/
theorem not_overflowed_append {i : Instr} (hroom : a.depth.toNat + i.growth < 65536) :
    ¬ Overflowed (a.append i) := by
  unfold Assembler.append
  unfold Instr.growth at hroom
  cases heffect : i.opcode.stackEffect with
  | none => rintro ⟨err, ⟨⟩⟩
  | some effect =>
    rw [heffect] at hroom
    obtain ⟨hpops, hpushes⟩ := Opcode.toNat_stackEffect heffect
    refine not_overflowed_appendWith i fun henough => ?_
    rw [hpops] at henough
    rw [hpops, hpushes]
    dsimp only at hroom
    omega

/-- Instructions overflow only where the first of them does, or the others after it. -/
theorem not_overflowed_appendAll_cons {i : Instr} {is : List Instr}
    (hfirst : ¬ Overflowed (a.append i)) (hrest : ¬ Overflowed ((a.append i).2.appendAll is)) :
    ¬ Overflowed (a.appendAll (i :: is)) := by
  unfold appendAll
  generalize a.append i = result at hfirst hrest ⊢
  obtain ⟨answer, b⟩ := result
  cases answer with
  | error err => exact hfirst
  | ok _ => exact hrest

/-- They do not when the depth leaves room for what they add together. -/
theorem not_overflowed_appendAll {is : List Instr}
    (hroom : a.depth.toNat + (is.map Instr.growth).sum < 65536) :
    ¬ Overflowed (a.appendAll is) := by
  induction is generalizing a with
  | nil => rintro ⟨err, ⟨⟩⟩
  | cons i is ih =>
    rw [List.map_cons, List.sum_cons] at hroom
    have hdepth := a.depth_append_le i
    exact not_overflowed_appendAll_cons (not_overflowed_append (by omega)) (ih (by omega))

/-- What begins with a pop makes room for an entry, so that it can add one. -/
theorem not_overflowed_appendAll_pop {is : List Instr} (h : (is.map Instr.growth).sum ≤ 1) :
    ¬ Overflowed (a.appendAll (⟨.pop, .none⟩ :: is)) := by
  have hword := a.depth.toNat_lt
  have hpop : ¬ Overflowed (a.append ⟨.pop, .none⟩) :=
    not_overflowed_append (by change a.depth.toNat + 0 < 65536; omega)
  refine not_overflowed_appendAll_cons hpop (not_overflowed_appendAll ?_)
  have hpopped : (a.append ⟨.pop, .none⟩).2.depth.toNat ≤ 65534 := by
    have hcases := a.appending ⟨.pop, .none⟩ 1 0
    change (a.appendWith ⟨.pop, .none⟩ 1 0).2.depth.toNat ≤ 65534
    generalize a.appendWith ⟨.pop, .none⟩ 1 0 = result at hcases ⊢
    cases hcases with
    | accepted hadmitted =>
      have henough := hadmitted.enough
      have hleft : (a.depth - 1 + 0).toNat = a.depth.toNat - 1 + 0 :=
        Arithmetic.toNat_depth henough (by change a.depth.toNat - 1 + 0 < 65536; omega)
      dsimp only [extended_depth]
      omega
    | missing hless =>
      change a.depth.toNat < 1 at hless
      dsimp only
      omega
    | overflows henough hlarge =>
      exact absurd (fun _ => by change a.depth.toNat - 1 + 0 < 65536; omega) hlarge
  omega

/-- The assembler in wrapping arithmetic. -/
def wrapped (a : Assembler) : Assembler := { a with arithmetic := .wrapping }

/-- What is the same in wrapping arithmetic unless it overflows. -/
def WrapsAlike (x y : Except AssemblyError Unit × Assembler) : Prop :=
  Overflowed x ∨ y = (x.1, x.2.wrapped)

/-- An instruction that does not overflow is accepted or refused alike in wrapping arithmetic. -/
theorem appendWith_wrapped (a : Assembler) (i : Instr) (pops pushes : UInt16) :
    WrapsAlike (a.appendWith i pops pushes) (a.wrapped.appendWith i pops pushes) := by
  have hcases := a.appending i pops pushes
  generalize a.appendWith i pops pushes = result at hcases ⊢
  cases hcases with
  | accepted hadmitted => exact .inr (appendWith_eq_ok_iff.mpr ⟨⟨hadmitted.enough, nofun⟩, rfl⟩)
  | missing hless =>
    have hmissing : a.wrapped.depth < pops := UInt16.lt_iff_toNat_lt.mpr hless
    exact .inr (if_pos hmissing)
  | overflows _ _ => exact .inl ⟨.add, rfl⟩

theorem append_wrapped (a : Assembler) (i : Instr) :
    WrapsAlike (a.append i) (a.wrapped.append i) := by
  unfold Assembler.append
  cases i.opcode.stackEffect with
  | none => exact .inr rfl
  | some effect => exact appendWith_wrapped a i _ _

theorem appendAll_wrapped (is : List Instr) (a : Assembler) :
    WrapsAlike (a.appendAll is) (a.wrapped.appendAll is) := by
  induction is generalizing a with
  | nil => exact .inr rfl
  | cons i is ih =>
    have hfirst := append_wrapped a i
    unfold appendAll
    generalize a.append i = result at hfirst ⊢
    obtain ⟨answer, b⟩ := result
    rcases hfirst with ⟨err, rfl⟩ | hsame
    · exact .inl ⟨err, rfl⟩
    · rw [hsame]
      cases answer with
      | error err => exact .inr rfl
      | ok _ => exact ih b

/-- Code of few enough instructions assembles alike in either arithmetic. -/
theorem straightLine_eq (name descriptor : String) {code : List Instr}
    (hlength : code.length ≤ 65535) (mode : Arithmetic) :
    straightLine name descriptor code mode = straightLine name descriptor code := by
  cases mode with
  | checked => rfl
  | wrapping =>
    have hgrowth : (code.map Instr.growth).sum ≤ code.length := by
      simpa using (code.map Instr.growth).sum_le_card_nsmul 1 (by simp [Instr.growth_le_one])
    have hfits : ¬ Overflowed (appendAll code {}) :=
      not_overflowed_appendAll (by change 0 + _ < 65536; omega)
    have hsame := (appendAll_wrapped code {}).resolve_left hfits
    change appendAll code { arithmetic := .wrapping } = _ at hsame
    unfold straightLine
    rw [hsame]
    generalize appendAll code {} = result
    obtain ⟨answer, a⟩ := result
    cases answer <;> rfl

end Assembler

end FieldUpdater
