import FieldUpdater.Code.Opcode
import FieldUpdater.Classes.Field

/-!
# Instructions

An instruction is an opcode with at most one operand. Any sort of operand can
stand with any opcode; what an opcode makes of an operand is decided where it is
used.
-/

namespace FieldUpdater

/-- The operand of an instruction. -/
inductive Operand where
  /-- No operand. -/
  | none
  /-- An index of the constant pool. -/
  | pool (index : Nat)
  /-- The number of a local variable or argument. -/
  | localVar (index : Nat)
  /-- An immediate integer. -/
  | int (value : Int32)
  /-- The index of an instruction. -/
  | target (index : Nat)
  /-- A class. -/
  | classRef (id : ClassId)
  /-- A field. -/
  | fieldRef (f : Field)
  deriving DecidableEq

/-- The text of an operand after an opcode. -/
def Operand.text : Operand → String
  | .none => ""
  | .pool index => s!" #{index}"
  | .localVar index => s!" {index}"
  | .int value => s!" {value.toInt}"
  | .target index => s!" @{index}"
  | .classRef id => s!" {id.text}"
  | .fieldRef f => s!" {f.text}"

/-- An instruction. -/
structure Instr where
  /-- What to do. -/
  opcode : Opcode
  /-- What to do it with. -/
  operand : Operand := .none
  deriving DecidableEq

namespace Instr

/-- The text of an instruction. -/
def text (i : Instr) : String := i.opcode.mnemonic ++ i.operand.text

/-- The index into the constant pool, if the operand is one. -/
def poolIndex? (i : Instr) : Option Nat :=
  match i.operand with
  | .pool index => some index
  | _ => none

/-- The index of an instruction, if the operand is one. -/
def target? (i : Instr) : Option Nat :=
  match i.operand with
  | .target index => some index
  | _ => none

/-- The instruction that a jump goes to. -/
def branchTarget? (i : Instr) : Option Nat := if i.opcode.isBranch then i.target? else none

/-- What goes to an instruction is a jump that names it. -/
theorem branchTarget?_eq_some_iff {i : Instr} {target : Nat} :
    i.branchTarget? = some target ↔ i.opcode.isBranch = true ∧ i.target? = some target :=
  Option.ite_none_right_eq_some

end Instr

/-- A stretch of code with the entry of its exception handler, in instruction indices. -/
structure Handler where
  /-- The first protected instruction. -/
  start : Nat
  /-- One past the last protected instruction. -/
  stop : Nat
  /-- Where the handler begins. -/
  entry : Nat
  deriving DecidableEq

end FieldUpdater
