/-!
# Arithmetic of words

A depth of the operand stack is a word of sixteen bits, a label one of thirty-two. What becomes of
a sum or a difference that is no word depends on how the program was built. Checked arithmetic
ends the program, and wrapping arithmetic drops what does not fit.
-/

namespace FieldUpdater

/-- An operation whose result is no word. -/
inductive Overflow where
  /-- The sum is too large. -/
  | add
  /-- The difference is negative. -/
  | sub
  deriving DecidableEq

/-- The wording of an overflow. -/
def Overflow.message : Overflow → String
  | .add => "attempt to add with overflow"
  | .sub => "attempt to subtract with overflow"

/-- What becomes of results that are no words. -/
inductive Arithmetic where
  /-- They end the program. -/
  | checked
  /-- They are reduced to words. -/
  | wrapping
  deriving DecidableEq

namespace Arithmetic

/-- Add two words. -/
def add (mode : Arithmetic) (x y : UInt16) : Except Overflow UInt16 :=
  if mode = .checked ∧ 65536 ≤ x.toNat + y.toNat then .error .add else .ok (x + y)

/-- Subtract a word from another. -/
def sub (mode : Arithmetic) (x y : UInt16) : Except Overflow UInt16 :=
  if mode = .checked ∧ x.toNat < y.toNat then .error .sub else .ok (x - y)

/-- The depths after entries are popped and after others are then pushed. -/
def depths (mode : Arithmetic) (depth pops pushes : UInt16) :
    Except Overflow (UInt16 × UInt16) := do
  let left ← mode.sub depth pops
  let after ← mode.add left pushes
  .ok (left, after)

/-- The label that a sum of labels comes to. -/
def label (mode : Arithmetic) (n : Nat) : Except Overflow Nat :=
  if mode = .checked ∧ 4294967296 ≤ n then .error .add else .ok (n % 4294967296)

end Arithmetic

end FieldUpdater
