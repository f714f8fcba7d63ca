import FieldUpdater.Classes.Resolve
import FieldUpdater.Classes.Lineage
import FieldUpdater.Code.Flow

/-!
# The window of a factory call

A factory call can be replaced when its three arguments are constants loaded by
the three instructions before it: the class being compiled, the type of the field
and the name of the field, in this order. The field has to be a volatile instance
field that the class itself declares with exactly that type. No instruction of the
window may be a branch target, since control could then come to the call with
other arguments.
-/

namespace FieldUpdater

/-- The code around a call that may be replaced. -/
structure Window where
  /-- The class being compiled. -/
  thisClass : ClassId
  /-- The constants of the code. -/
  pool : ConstantPool
  /-- The code. -/
  code : Array Instr
  /-- The flow flags of the code. -/
  flags : Array FlowFlags
  /-- Where the call is. -/
  position : Nat

namespace Window

/-- The index of the constant that an instruction loads, if it loads one. -/
def loadedConstant? (i : Instr) : Option Nat :=
  if i.opcode = .ldc then i.poolIndex? else none

/-- Whether some instruction of the window is a branch target. -/
def isEntered (w : Window) : Bool :=
  (w.flags.extract (w.position - 3) (w.position + 1)).any (·.branchTarget)

/-- The constant loaded some instructions before the call. -/
def argument? (w : Window) (before : Nat) : Option Nat :=
  (w.code[w.position - before]?).bind loadedConstant?

/-- Whether an accessor can serve a field for the class being compiled. -/
def isEligible (w : Window) (valueClass : ClassId) (f : Field) : Bool :=
  !f.isStatic ∧ f.isVolatile ∧ f.declaring = w.thisClass ∧ f.type = valueClass

/-- The field that the arguments of the call name under a resolver, if the call can be
replaced. -/
def targetBy? (w : Window) (r : Resolver) (t : ClassTable) : Option Field := do
  guard (3 ≤ w.position ∧ w.position < w.code.size ∧ w.position < w.flags.size)
  guard (!w.isEntered)
  let owner ← r.classConstant? (← w.argument? 3)
  let value ← r.classConstant? (← w.argument? 2)
  let name ← r.text? (← w.argument? 1)
  guard (owner.id = some w.thisClass)
  guard (value.kind = .reference)
  let valueClass ← value.id
  let field ← t.findField? w.thisClass name value.signature
  guard (w.isEligible valueClass field)
  return field

/-- The field that the arguments of the call name with the constants of the code. -/
def target? (w : Window) (t : ClassTable) : Option Field := w.targetBy? (t.resolver w.pool) t

end Window

end FieldUpdater
