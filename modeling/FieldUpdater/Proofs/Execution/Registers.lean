import FieldUpdater.Execution.Invoke

/-!
# Registers

What accessors promise, without code, slots or words: for every object and every field
there is one value, null at first. A load reads it, a store overwrites it and a
compare-and-set overwrites it when it is the expected one. The arguments are judged
against the class that declares the field and the type of the field.
-/

namespace FieldUpdater

/-- The classes of the objects made so far, and the value of every field of every object. -/
structure Registers where
  classes : Array ClassId := #[]
  entry : ObjRef → FieldKey → Value := fun _ _ => .null

/-- A call on objects and accessors. -/
inductive Call where
  | make (c : ClassId)
  | get (accessor : ObjRef) (target : Value)
  | set (accessor : ObjRef) (target v : Value)
  | compareAndSet (accessor : ObjRef) (target expected update : Value)

/-- What a call answers. -/
inductive Answer where
  | object (obj : ObjRef)
  | value (v : Value)
  | done
  | changed (b : Bool)
  deriving DecidableEq

namespace Registers

/-- The class of an object. -/
def classOf? (R : Registers) (o : ObjRef) : Option ClassId := R.classes[o.index.toNat]?

/-- Overwrite the value of a field of an object. -/
def update (R : Registers) (o : ObjRef) (key : FieldKey) (v : Value) : Registers :=
  { R with entry := fun o' key' => if o' = o ∧ key' = key then v else R.entry o' key' }

/-- Whether a value can stand where a class is expected. Null can, and an existing instance
of the class. -/
def accept (R : Registers) (m : Machine) (v : Value) (c : ClassId) : Except ExecError Unit :=
  match v with
  | .null => .ok ()
  | .ref o =>
    match R.classOf? o with
    | none => .error (.invalidReference o)
    | some k =>
      if m.table.isAssignable k c then .ok ()
      else .error (.classCast (m.className c) (m.className k))
  | v => .error (.classCast (m.className c) v.kindWord)

/-- The object that a target refers to. -/
def object (target : Value) (op : Opcode) : Except ExecError ObjRef :=
  match target with
  | .ref o => .ok o
  | _ => .error (.nullReference op)

/-- Load a field of a target. -/
def get (R : Registers) (m : Machine) (f : Field) (target : Value) :
    Except ExecError (Value × Registers) := do
  R.accept m target f.declaring
  let o ← object target .volatileLdfld
  .ok (R.entry o f.key, R)

/-- Store into a field of a target. -/
def set (R : Registers) (m : Machine) (f : Field) (target v : Value) :
    Except ExecError (Unit × Registers) := do
  R.accept m target f.declaring
  R.accept m v f.type
  let o ← object target .volatileStfld
  .ok ((), R.update o f.key v)

/-- Store into a field of a target if it has the expected value, and tell whether it had. -/
def compareAndSet (R : Registers) (m : Machine) (f : Field) (target expected update : Value) :
    Except ExecError (Bool × Registers) := do
  R.accept m target f.declaring
  let o ← object target .ldflda
  R.accept m update f.type
  R.accept m expected f.type
  .ok (if R.entry o f.key = expected then (true, R.update o f.key update) else (false, R))

/-- The accessor that an object is an instance of. -/
def accessor (R : Registers) (m : Machine) (o : ObjRef) : Except ExecError Accessor :=
  match R.classOf? o with
  | none => .error (.invalidReference o)
  | some c =>
    match m.registry.ofClass? c with
    | none => .error (.notAnAccessor o)
    | some a => .ok a

/-- Make an object of a class that is not being defined. -/
def make (R : Registers) (m : Machine) (c : ClassId) : Except ExecError (ObjRef × Registers) :=
  match m.table.find? c with
  | none => .error (.unknownClass c.text)
  | some info =>
    if info.stage = .defining then .error (.typeNotFinalized info.name)
    else .ok (⟨R.classes.size.toUInt32⟩, { R with classes := R.classes.push c })

/-- The registers after an operation. One that fails changes nothing. -/
def settle {α : Type} (R : Registers) :
    Except ExecError (α × Registers) → Except ExecError α × Registers
  | .error err => (.error err, R)
  | .ok (a, R) => (.ok a, R)

/-- Answer a call. -/
def perform (R : Registers) (m : Machine) (call : Call) : Except ExecError Answer × Registers :=
  match call with
  | .make c => Prod.map (Except.map .object) id (R.settle (R.make m c))
  | .get x target =>
    Prod.map (Except.map .value) id (R.settle (do
      let a ← R.accessor m x
      R.get m a.field target))
  | .set x target v =>
    Prod.map (Except.map fun _ => .done) id (R.settle (do
      let a ← R.accessor m x
      R.set m a.field target v))
  | .compareAndSet x target expected update =>
    Prod.map (Except.map .changed) id (R.settle (do
      let a ← R.accessor m x
      R.compareAndSet m a.field target expected update))

/-- Answer calls one after the other. -/
def performAll (m : Machine) : List Call → Registers → List (Except ExecError Answer) × Registers
  | [], R => ([], R)
  | call :: calls, R =>
    let (answer, R) := R.perform m call
    let (answers, R) := performAll m calls R
    (answer :: answers, R)

end Registers

namespace Machine

/-- Answer a call by executing code over the heap. -/
def perform (m : Machine) (fuel : Nat) (call : Call) (h : Heap) : Except Halt Answer × Heap :=
  match call with
  | .make c => Prod.map (Except.map .object) id (m.makeObject fuel c h)
  | .get x target => Prod.map (Except.map .value) id (m.get fuel x target h)
  | .set x target v => Prod.map (Except.map fun _ => .done) id (m.set fuel x target v h)
  | .compareAndSet x target expected update =>
    Prod.map (Except.map .changed) id (m.compareAndSet fuel x target expected update h)

/-- Answer calls one after the other by executing code over the heap. -/
def performAll (m : Machine) (fuel : Nat) :
    List Call → Heap → List (Except Halt Answer) × Heap
  | [], h => ([], h)
  | call :: calls, h =>
    let (answer, h) := m.perform fuel call h
    let (answers, h) := m.performAll fuel calls h
    (answer :: answers, h)

end Machine

end FieldUpdater
