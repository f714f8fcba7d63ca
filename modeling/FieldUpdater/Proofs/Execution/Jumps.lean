import FieldUpdater.Execution.Machine

/-!
# Jumps

Only a branch makes execution go on elsewhere than at the next instruction, and then at
the target of the branch. Another target changes the step in nothing else.
-/

namespace FieldUpdater

/-- The step with another target for its jump, if it is one. -/
def Step.retarget (target : Nat) : Step → Step
  | .jump _ f => .jump target f
  | s => s

namespace Machine

/-- A plain step that does not jump. -/
private def NoJump (result : Except ExecError (Step × Heap)) : Prop :=
  ∀ target f h, result ≠ .ok (.jump target f, h)

private theorem noJump_error (err : ExecError) : NoJump (.error err) := by
  intro target f h heq
  cases heq

private theorem noJump_next (f : Frame) (h : Heap) : NoJump (.ok (.next f, h)) := by
  intro target f' h' heq
  cases heq

private theorem noJump_leave (result : Option Value) (h : Heap) :
    NoJump (.ok (.leave result, h)) := by
  intro target f' h' heq
  cases heq

private theorem noJump_bind {α : Type} {x : Except ExecError α}
    {rest : α → Except ExecError (Step × Heap)} (hrest : ∀ a, NoJump (rest a)) :
    NoJump (x >>= rest) := by
  cases x with
  | error err => exact noJump_error err
  | ok a => exact hrest a

variable {m : Machine} {construct : Construct} {i : Instr} {f f' : Frame} {h h' : Heap}

/-- An instruction that is no branch does not jump. -/
private theorem noJump_stepPlain (hbranch : i.opcode.isBranch = false) :
    NoJump (m.stepPlain i f h) := by
  obtain ⟨opcode, operand⟩ := i
  cases opcode with
  | goto | ifnull | ifnonnull => cases hbranch
  | _ =>
    simp only [stepPlain]
    -- A sequence of pops and heap operations ends at the next instruction, leaves or fails.
    repeat' first
      | exact noJump_error _
      | exact noJump_next _ _
      | exact noJump_leave _ _
      | refine noJump_bind fun _ => ?_
      | split

/-- A branch whose operand is no target fails. -/
private theorem stepPlain_branch_malformed (hbranch : i.opcode.isBranch = true)
    (htarget : i.branchTarget? = none) :
    m.stepPlain i f h = .error (.malformedOperand i.opcode) := by
  obtain ⟨opcode, operand⟩ := i
  rw [Instr.branchTarget?, if_pos hbranch] at htarget
  cases opcode with
  | goto | ifnull | ifnonnull =>
    cases operand with
    | target t => cases htarget
    | _ => rfl
  | _ => cases hbranch

/-- A plain step under another target of its branch. -/
private theorem stepPlain_retarget {target : Nat} (htarget : i.branchTarget? = some target)
    (target' : Nat) :
    m.stepPlain { i with operand := .target target' } f h =
        (m.stepPlain i f h).map (Prod.map (Step.retarget target') id) ∧
      ∀ t f' h', m.stepPlain i f h = .ok (.jump t f', h') → t = target := by
  obtain ⟨opcode, operand⟩ := i
  obtain ⟨hbranch, htarget⟩ := Instr.branchTarget?_eq_some_iff.mp htarget
  cases operand with
  | target t =>
    obtain rfl : t = target := Option.some.inj htarget
    cases opcode with
    | goto =>
      refine ⟨rfl, ?_⟩
      intro t' f' h' heq
      cases heq
      rfl
    | ifnull | ifnonnull =>
      simp only [stepPlain, Instr.targetOperand, bind, Except.bind]
      cases f.popValue _ with
      | error err => simp [Except.map]
      | ok result =>
        obtain ⟨v, f'⟩ := result
        cases hnull : v.isNull with
        | true =>
          simp only [hnull, Except.map, Prod.map, Step.retarget, id, true_and, ↓reduceIte]
          intro t' f'' h' heq
          cases heq <;> rfl
        | false =>
          simp only [hnull, Except.map, Prod.map, Step.retarget, id, true_and, Bool.false_eq_true,
            ↓reduceIte]
          intro t' f'' h' heq
          cases heq <;> rfl
    | _ => cases hbranch
  | _ => cases htarget

/-- A step that jumps goes to the target of its instruction. -/
theorem branchTarget?_of_step_jump {target : Nat}
    (hstep : m.step construct i f h = (.ok (.jump target f'), h')) :
    i.branchTarget? = some target := by
  have hplain : m.stepPlain i f h = .ok (.jump target f', h') := by
    unfold step at hstep
    split at hstep
    · split at hstep
      · cases hstep
      · split at hstep <;> cases hstep
    · split at hstep
      · cases hstep
      · rename_i hplain
        cases hstep
        exact hplain
  cases htarget : i.branchTarget? with
  | none =>
    by_cases hbranch : i.opcode.isBranch = true
    · rw [stepPlain_branch_malformed hbranch htarget] at hplain
      cases hplain
    · exact absurd hplain (noJump_stepPlain (by simpa using hbranch) _ _ _)
  | some t => rw [(stepPlain_retarget htarget 0).2 _ _ _ hplain]

/-- The step of a branch under another target. -/
theorem step_retarget {target : Nat} (htarget : i.branchTarget? = some target) (target' : Nat) :
    m.step construct { i with operand := .target target' } f h =
      Prod.map (Except.map (Step.retarget target')) id (m.step construct i f h) := by
  have hnew : i.opcode ≠ .newobj := by
    intro hop
    simp [Instr.branchTarget?, hop, Opcode.isBranch] at htarget
  unfold step
  rw [if_neg hnew, if_neg hnew, (stepPlain_retarget htarget target').1]
  cases m.stepPlain i f h <;> rfl

end Machine

end FieldUpdater
