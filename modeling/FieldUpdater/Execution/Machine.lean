import FieldUpdater.Classes.Lineage
import FieldUpdater.Accessor.Registry
import FieldUpdater.Execution.Heap

/-!
# The machine

The machine executes assembled code over a heap. One step takes an instruction, the
operand stack and the local variables, and says where execution goes on. Calls
through the pool are not executed. Construction of an object may itself execute a
constructor, so that a step is told how to construct; a run has fuel, and running
out of it is neither a result nor an error.
-/

namespace FieldUpdater

/-- Why a run stops without a result. -/
inductive Halt where
  /-- Execution failed. -/
  | error (err : ExecError)
  /-- The fuel was used up. -/
  | outOfFuel
  deriving DecidableEq

/-- An entry of the operand stack. -/
inductive Entry where
  /-- A value. -/
  | value (v : Value)
  /-- The address of a slot. -/
  | address (obj : ObjRef) (slot : Nat)
  /-- A constant of the pool, which can only be discarded or copied. -/
  | constant
  deriving DecidableEq

/-- The operand stack, top first, and the local variables of a running method. -/
structure Frame where
  /-- The operand stack. -/
  stack : List Entry := []
  /-- The local variables, which begin with the arguments. -/
  locals : Array Value
  deriving DecidableEq

/-- Where execution goes on after an instruction. -/
inductive Step where
  /-- At the next instruction. -/
  | next (f : Frame)
  /-- At another instruction. -/
  | jump (target : Nat) (f : Frame)
  /-- The method is left, perhaps with a value. -/
  | leave (result : Option Value)
  deriving DecidableEq

/-- What execution reads besides the heap. -/
structure Machine where
  /-- The classes. -/
  table : ClassTable
  /-- The accessors. -/
  registry : Registry

namespace Frame

/-- The frame of a method on entry. -/
def ofArgs (args : List Value) : Frame := { locals := args.toArray }

/-- Push an entry. -/
def push (f : Frame) (e : Entry) : Frame := { f with stack := e :: f.stack }

/-- Push a value. -/
def pushValue (f : Frame) (v : Value) : Frame := f.push (.value v)

/-- Pop an entry. -/
def pop (f : Frame) (op : Opcode) : Except ExecError (Entry × Frame) :=
  match f.stack with
  | [] => .error (.stackUnderflow op)
  | e :: rest => .ok (e, { f with stack := rest })

/-- Pop a value. -/
def popValue (f : Frame) (op : Opcode) : Except ExecError (Value × Frame) :=
  match f.pop op with
  | .error err => .error err
  | .ok (.value v, f) => .ok (v, f)
  | .ok _ => .error (.typeMismatch op "value")

/-- Pop a reference to an object. -/
def popRef (f : Frame) (op : Opcode) : Except ExecError (ObjRef × Frame) :=
  match f.popValue op with
  | .error err => .error err
  | .ok (.ref obj, f) => .ok (obj, f)
  | .ok (.null, _) => .error (.nullReference op)
  | .ok _ => .error (.typeMismatch op "reference")

/-- Set a local variable. Variables that this brings into being are null. -/
def setLocal (f : Frame) (index : Nat) (v : Value) : Frame :=
  let missing := index + 1 - f.locals.size
  { f with locals := (f.locals ++ Array.replicate missing Value.null).setIfInBounds index v }

end Frame

namespace Instr

/-- The operand as the number of a local variable. -/
def localOperand (i : Instr) : Except ExecError Nat :=
  match i.operand with
  | .localVar index => .ok index
  | _ => .error (.malformedOperand i.opcode)

/-- The operand as a class. -/
def classOperand (i : Instr) : Except ExecError ClassId :=
  match i.operand with
  | .classRef id => .ok id
  | _ => .error (.malformedOperand i.opcode)

/-- The operand as the index of an instruction. -/
def targetOperand (i : Instr) : Except ExecError Nat :=
  match i.operand with
  | .target index => .ok index
  | _ => .error (.malformedOperand i.opcode)

/-- The operand as an instance field. -/
def fieldOperand (i : Instr) : Except ExecError Field :=
  match i.operand with
  | .fieldRef f => if f.isStatic then .error (.unsupported i.opcode) else .ok f
  | _ => .error (.malformedOperand i.opcode)

end Instr

namespace Machine

/-- The name of a class, or its number if it has no name. -/
def className (m : Machine) (c : ClassId) : String :=
  match m.table.find? c with
  | some info => info.name
  | none => c.text

/-- Whether an entry can be cast to a class. Null can always, a reference when its
object's class is assignable to the class. -/
def checkCast (m : Machine) (h : Heap) (e : Entry) (target : ClassId) (op : Opcode) :
    Except ExecError Unit :=
  match e with
  | .value .null => .ok ()
  | .value (.ref obj) =>
    match h.classOf obj with
    | .error err => .error err
    | .ok c =>
      if m.table.isAssignable c target then .ok ()
      else .error (.classCast (m.className target) (m.className c))
  | .value v => .error (.classCast (m.className target) v.kindWord)
  | _ => .error (.typeMismatch op "value")

/-- Execute an instruction that constructs nothing. The heap is as before when it fails. -/
def stepPlain (m : Machine) (i : Instr) (f : Frame) (h : Heap) : Except ExecError (Step × Heap) :=
  let op := i.opcode
  match op with
  | .nop | .membar => .ok (.next f, h)
  | .pop => do
    let (_, f) ← f.pop op
    .ok (.next f, h)
  | .dup => do
    let (e, f) ← f.pop op
    .ok (.next ((f.push e).push e), h)
  | .aconstNull => .ok (.next (f.pushValue .null), h)
  | .ldc =>
    match i.operand with
    | .pool _ => .ok (.next (f.push .constant), h)
    | _ => .error (.malformedOperand op)
  | .iconst =>
    match i.operand with
    | .int v => .ok (.next (f.pushValue (.int v)), h)
    | _ => .error (.malformedOperand op)
  | .aload | .ldarg => do
    let index ← i.localOperand
    match f.locals[index]? with
    | some v => .ok (.next (f.pushValue v), h)
    | none => .error (.localOutOfRange index)
  | .astore => do
    let index ← i.localOperand
    let (v, f) ← f.popValue op
    .ok (.next (f.setLocal index v), h)
  | .castclass => do
    let target ← i.classOperand
    let (e, _) ← f.pop op
    m.checkCast h e target op
    .ok (.next f, h)
  | .getfield | .volatileLdfld => do
    let field ← i.fieldOperand
    let (obj, f) ← f.popRef op
    let v ← h.load obj field.slot
    .ok (.next (f.pushValue v), h)
  | .putfield | .volatileStfld => do
    let field ← i.fieldOperand
    let (v, f) ← f.popValue op
    let (obj, f) ← f.popRef op
    let h ← h.store obj field.slot v
    .ok (.next f, h)
  | .ldflda => do
    let field ← i.fieldOperand
    let (obj, f) ← f.popRef op
    .ok (.next (f.push (.address obj field.slot)), h)
  | .cmpxchg => do
    let (expected, f) ← f.popValue op
    let (update, f) ← f.popValue op
    match ← f.pop op with
    | (.address obj slot, f) =>
      let (previous, h) ← h.compareExchange obj slot expected update
      .ok (.next (f.pushValue previous), h)
    | _ => .error (.typeMismatch op "field address")
  | .ceq => do
    let (b, f) ← f.popValue op
    let (a, f) ← f.popValue op
    .ok (.next (f.pushValue (.bool (a = b))), h)
  | .callBaseCtor => do
    let (_, f) ← f.popRef op
    .ok (.next f, h)
  | .goto => do
    let target ← i.targetOperand
    .ok (.jump target f, h)
  | .ifnull => do
    let target ← i.targetOperand
    let (v, f) ← f.popValue op
    .ok (if v.isNull then .jump target f else .next f, h)
  | .ifnonnull => do
    let target ← i.targetOperand
    let (v, f) ← f.popValue op
    .ok (if v.isNull then .next f else .jump target f, h)
  | .ret => .ok (.leave none, h)
  | .areturn => do
    let (v, _) ← f.popValue op
    .ok (.leave (some v), h)
  | .new | .newobj | .invokestatic | .invokevirtual | .invokespecial | .athrow =>
    .error (.unsupported op)

/-- How an object of a class is constructed. What was allocated before a failure stays
in the heap. -/
abbrev Construct := ClassId → Heap → Except Halt ObjRef × Heap

/-- Execute an instruction. -/
def step (m : Machine) (construct : Construct) (i : Instr) (f : Frame) (h : Heap) :
    Except Halt Step × Heap :=
  if i.opcode = .newobj then
    match i.classOperand with
    | .error err => (.error (.error err), h)
    | .ok c =>
      match construct c h with
      | (.error halt, h) => (.error halt, h)
      | (.ok obj, h) => (.ok (.next (f.pushValue (.ref obj))), h)
  else
    match m.stepPlain i f h with
    | .error err => (.error (.error err), h)
    | .ok (s, h) => (.ok s, h)

/-- How a method is executed from its start. -/
abbrev Invoke := AssembledMethod → List Value → Heap → Except Halt (Option Value) × Heap

/-- Allocate an object and, if its class is an accessor's, run the constructor. -/
def constructWith (m : Machine) (invoke : Invoke) : Construct := fun c h =>
  match h.alloc m.table c with
  | .error err => (.error (.error err), h)
  | .ok (obj, h) =>
    match m.registry.ofClass? c with
    | none => (.ok obj, h)
    | some a =>
      match invoke a.init [.ref obj] h with
      | (.error halt, h) => (.error halt, h)
      | (.ok _, h) => (.ok obj, h)

/-- Execute a method from an instruction on. -/
def run (m : Machine) : Nat → AssembledMethod → Nat → Frame → Heap →
    Except Halt (Option Value) × Heap
  | 0, _, _, _, h => (.error .outOfFuel, h)
  | fuel + 1, body, pc, f, h =>
    match body.code[pc]? with
    | none => (.error (.error (.fellOffEnd body.name)), h)
    | some i =>
      let invoke : Invoke := fun body args h => m.run fuel body 0 (.ofArgs args) h
      match m.step (m.constructWith invoke) i f h with
      | (.error halt, h) => (.error halt, h)
      | (.ok (.next f), h) => m.run fuel body (pc + 1) f h
      | (.ok (.jump target f), h) => m.run fuel body target f h
      | (.ok (.leave result), h) => (.ok result, h)

/-- Execute a method with arguments, the receiver first. -/
def execute (m : Machine) (fuel : Nat) : Invoke := fun body args h =>
  m.run fuel body 0 (.ofArgs args) h

/-- Make an object of a class. -/
def makeObject (m : Machine) (fuel : Nat) : Construct := m.constructWith (m.execute fuel)

/-- A machine over a heap, for which the registry has to be of the same class table. -/
def attach (h : Heap) (t : ClassTable) (r : Registry) : Except ExecError Machine :=
  if r.tag = h.tag then .ok ⟨t, r⟩ else .error .foreignRegistry

end Machine

end FieldUpdater
