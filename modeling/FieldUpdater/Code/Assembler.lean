import Std.Data.TreeMap
import FieldUpdater.Code.Arithmetic
import FieldUpdater.Code.Instr

/-!
# The assembler

Code is assembled instruction by instruction against a model of the operand
stack, which rejects an instruction that takes more than is there and measures
the largest depth. Jumps and handlers name source instructions. The assembler
records where each source instruction begins and, once all is assembled, puts
positions of the assembled code in their place.

Depths are words, and a depth that is no word overflows. The program ends there
when its arithmetic is checked, so that nobody sees the assembler that an overflow
leaves.
-/

namespace FieldUpdater

/-- Why code cannot be assembled. -/
inductive AssemblyError where
  /-- The modelled stack holds fewer entries than the instruction takes. -/
  | stackUnderflow (opcode : Opcode) (depth needed : UInt16)
  /-- The opcode is a call, whose effect has to be given. -/
  | variableEffect (opcode : Opcode)
  /-- A jump or handler names a source instruction that was never begun. -/
  | undefinedLabel (index : Nat)
  /-- A depth, a number of operands or a label is no word. -/
  | overflow (source : Overflow)
  deriving DecidableEq

/-- The wording of an assembly error. -/
def AssemblyError.message : AssemblyError → String
  | .stackUnderflow opcode depth needed =>
    s!"Stack underflow at {opcode.mnemonic}: depth {depth}, needs {needed}"
  | .variableEffect opcode => s!"{opcode.mnemonic} has no fixed stack effect"
  | .undefinedLabel index => s!"Branch or handler refers to unknown instruction {index}"
  | .overflow source => source.message

/-- An assembled method. -/
structure AssembledMethod where
  /-- The name of the method. -/
  name : String
  /-- The descriptor of the method. -/
  descriptor : String
  /-- The instructions. -/
  code : Array Instr
  /-- The exception handlers, in positions of the code. -/
  handlers : List Handler
  /-- The largest modelled depth of the operand stack. -/
  maxStack : UInt16
  deriving DecidableEq

/-- A method in the making. -/
structure Assembler where
  /-- The instructions so far. Their jumps still name source instructions. -/
  code : Array Instr := #[]
  /-- The modelled depth of the operand stack. -/
  depth : UInt16 := 0
  /-- The largest modelled depth so far. -/
  maxDepth : UInt16 := 0
  /-- Where source instructions begin in the assembled code. -/
  labels : Std.TreeMap Nat Nat := ∅
  /-- One past the largest source instruction begun. -/
  sourceEnd : Nat := 0
  /-- The depth with which the first jump to a source instruction arrives. -/
  branchDepths : Std.TreeMap Nat UInt16 := ∅
  /-- Whether control does not fall through from the last instruction. -/
  afterTerminator : Bool := false
  /-- The arithmetic of depths and labels. -/
  arithmetic : Arithmetic := .checked

namespace Assembler

/-- Begin a source instruction here. When nothing falls through to it, the depth is
that of the first jump to it, or zero if there was none. -/
def beginSource (a : Assembler) (index : Nat) : Assembler :=
  let labels := a.labels.insert index a.code.size
  let sourceEnd := max a.sourceEnd (index + 1)
  if a.afterTerminator then
    { a with
      labels, sourceEnd, depth := a.branchDepths[index]?.getD 0, afterTerminator := false }
  else { a with labels, sourceEnd }

/-- Set the depth, as at the entry of an exception handler. -/
def resetDepth (a : Assembler) (depth : UInt16) : Assembler :=
  { a with depth, maxDepth := max a.maxDepth depth, afterTerminator := false }

/-- Append an instruction with the effect given. When the modelled stack is too small
for it, nothing changes. -/
def appendWith (a : Assembler) (i : Instr) (pops pushes : UInt16) :
    Except AssemblyError Unit × Assembler :=
  if a.depth < pops then (.error (.stackUnderflow i.opcode a.depth pops), a)
  else
    match a.arithmetic.depths a.depth pops pushes with
    | .error err => (.error (.overflow err), a)
    | .ok (left, depth) =>
      (.ok (),
        { a with
          code := a.code.push i
          depth
          maxDepth := max a.maxDepth depth
          branchDepths :=
            match i.branchTarget? with
            | some target => a.branchDepths.insertIfNew target left
            | none => a.branchDepths
          afterTerminator := i.opcode.isTerminator })

/-- Append an instruction with the effect of its opcode. -/
def append (a : Assembler) (i : Instr) : Except AssemblyError Unit × Assembler :=
  match i.opcode.stackEffect with
  | none => (.error (.variableEffect i.opcode), a)
  | some (pops, pushes) => a.appendWith i pops.toUInt16 pushes.toUInt16

/-- Append instructions up to the first that fails. Those before it stay. -/
def appendAll : List Instr → Assembler → Except AssemblyError Unit × Assembler
  | [], a => (.ok (), a)
  | i :: is, a =>
    match a.append i with
    | (.error err, a) => (.error err, a)
    | (.ok (), a) => appendAll is a

/-- The labels with one more, unless it is there, for the end of the code. -/
def closedLabels (a : Assembler) : Std.TreeMap Nat Nat :=
  a.labels.insertIfNew a.sourceEnd a.code.size

/-- The position of a source instruction. -/
def position (labels : Std.TreeMap Nat Nat) (index : Nat) : Except AssemblyError Nat :=
  match labels[index]? with
  | some position => .ok position
  | none => .error (.undefinedLabel index)

/-- Put the position of its target into a jump. -/
def resolve (labels : Std.TreeMap Nat Nat) (i : Instr) : Except AssemblyError Instr :=
  match i.branchTarget? with
  | none => .ok i
  | some target => (position labels target).map fun p => { i with operand := .target p }

/-- Put positions into a handler. -/
def resolveHandler (labels : Std.TreeMap Nat Nat) (h : Handler) :
    Except AssemblyError Handler := do
  let start ← position labels h.start
  let stop ← position labels h.stop
  let entry ← position labels h.entry
  .ok ⟨start, stop, entry⟩

/-- The finished method: jumps are resolved in order, then the handlers. -/
def link (a : Assembler) (name descriptor : String) (handlers : List Handler) :
    Except AssemblyError AssembledMethod := do
  let labels := a.closedLabels
  let code ← a.code.mapM (resolve labels)
  let handlers ← handlers.mapM (resolveHandler labels)
  .ok { name, descriptor, code, handlers, maxStack := a.maxDepth }

/-- The finished method when source instructions are named by labels, so that the end of the code
needs one as well. -/
def finish (a : Assembler) (name descriptor : String) (handlers : List Handler) :
    Except AssemblyError AssembledMethod :=
  match a.arithmetic.label a.sourceEnd with
  | .error err => .error (.overflow err)
  | .ok sourceEnd => { a with sourceEnd }.link name descriptor handlers

/-- Assemble a method without jumps and handlers. -/
def straightLine (name descriptor : String) (code : List Instr)
    (mode : Arithmetic := .checked) : Except AssemblyError AssembledMethod :=
  match appendAll code { arithmetic := mode } with
  | (.error err, _) => .error err
  | (.ok (), a) => a.link name descriptor []

end Assembler

end FieldUpdater
