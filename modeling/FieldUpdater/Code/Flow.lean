import FieldUpdater.Code.Instr

/-!
# Control flow

Each instruction has two flags. It is a branch target when control can come to it
from elsewhere than the instruction before it: by a jump or as the entry of an
exception handler. It is reachable when control can come to it at all, from the
first instruction or from the entry of a handler. Indices outside the code count
for nothing.
-/

namespace FieldUpdater

/-- What control flow says about an instruction. -/
structure FlowFlags where
  /-- Control can come from elsewhere than the instruction before. -/
  branchTarget : Bool := false
  /-- Control can come here. -/
  reachable : Bool := false
  deriving DecidableEq

namespace FlowFlags

/-- The flags of either. -/
def union (a b : FlowFlags) : FlowFlags :=
  ⟨a.branchTarget || b.branchTarget, a.reachable || b.reachable⟩

/-- Whether every flag of the second is one of the first. -/
def contains (a b : FlowFlags) : Bool :=
  (a.branchTarget || !b.branchTarget) && (a.reachable || !b.reachable)

end FlowFlags

namespace Flow

/-- The indices that jumps and handlers name. -/
def targets (code : Array Instr) (handlers : List Handler) : List Nat :=
  code.toList.filterMap Instr.branchTarget? ++ handlers.map Handler.entry

/-- Set the marks of some indices. -/
def mark (marks : Array Bool) (indices : List Nat) : Array Bool :=
  indices.foldl (fun marks i => marks.setIfInBounds i true) marks

/-- Where control can go from an instruction. -/
def successors (code : Array Instr) (index : Nat) : List Nat :=
  match code[index]? with
  | none => []
  | some i =>
    i.branchTarget?.toList ++ if i.opcode.isTerminator then [] else [index + 1]

/-- An instruction has at most two successors. -/
theorem length_successors_le (code : Array Instr) (index : Nat) :
    (successors code index).length ≤ 2 := by
  unfold successors
  split
  · simp
  · rename_i i _
    cases i.branchTarget? <;> split <;> simp

/-- Marking an unmarked index leaves one unmarked index fewer. -/
theorem count_set_lt {seen : Array Bool} {index : Nat} (h : seen[index]? = some false) :
    (seen.setIfInBounds index true).count false < seen.count false := by
  obtain ⟨hlt, hget⟩ := Array.getElem?_eq_some_iff.mp h
  have hpos : 0 < seen.count false := by
    rw [Array.count_pos_iff]
    exact hget ▸ Array.getElem_mem hlt
  simp only [Array.setIfInBounds, hlt, ↓reduceDIte]
  rw [Array.count_set hlt, hget]
  have hnone : (true == false) = false := rfl
  simp only [BEq.rfl, hnone, ↓reduceIte, Bool.false_eq_true]
  omega

/-- Mark everything that control can come to from the indices of a worklist without
passing a marked instruction. -/
def explore (code : Array Instr) (work : List Nat) (seen : Array Bool) : Array Bool :=
  match work with
  | [] => seen
  | index :: rest =>
    if _h : seen[index]? = some false then
      explore code (successors code index ++ rest) (seen.setIfInBounds index true)
    else explore code rest seen
termination_by 2 * seen.count false + work.length
decreasing_by
  · have h₁ := length_successors_le code index
    have h₂ := count_set_lt _h
    simp only [List.length_append, List.length_cons]
    omega
  · simp

/-- The flags of every instruction of a method. -/
def flags (code : Array Instr) (handlers : List Handler) : Array FlowFlags :=
  let clear := Array.replicate code.size false
  let targeted := mark clear (targets code handlers)
  let reached := explore code (0 :: handlers.map Handler.entry) clear
  Array.zipWith FlowFlags.mk targeted reached

end Flow

end FieldUpdater
