import FieldUpdater.Execution.Machine

/-!
# Calling accessors

The operations of an accessor are entered by the accessor's object. Their results
are those of the executed bodies, and a body that leaves without the result its
operation has is an error.
-/

namespace FieldUpdater

namespace Machine

/-- Run an operation of an accessor object with arguments other than the object itself. -/
def invoke (m : Machine) (fuel : Nat) (obj : ObjRef) (op : FieldOp) (args : List Value)
    (h : Heap) : Except Halt (Option Value) × Heap :=
  match h.classOf obj with
  | .error err => (.error (.error err), h)
  | .ok c =>
    match m.registry.ofClass? c with
    | none => (.error (.error (.notAnAccessor obj)), h)
    | some a =>
      let expected := op.argCount - 1
      if args.length = expected then m.execute fuel (a.method op) (.ref obj :: args) h
      else (.error (.error (.argCount op expected args.length)), h)

/-- Replace an expected value of the field by another and tell whether that happened. -/
def compareAndSet (m : Machine) (fuel : Nat) (obj : ObjRef) (target expected update : Value)
    (h : Heap) : Except Halt Bool × Heap :=
  match m.invoke fuel obj .compareAndSet [target, expected, update] h with
  | (.error halt, h) => (.error halt, h)
  | (.ok result, h) =>
    match result.bind Value.bool? with
    | some b => (.ok b, h)
    | none => (.error (.error (.typeMismatch .areturn "boolean")), h)

/-- Load the field. -/
def get (m : Machine) (fuel : Nat) (obj : ObjRef) (target : Value) (h : Heap) :
    Except Halt Value × Heap :=
  match m.invoke fuel obj .get [target] h with
  | (.error halt, h) => (.error halt, h)
  | (.ok (some v), h) => (.ok v, h)
  | (.ok none, h) => (.error (.error (.typeMismatch .ret "value")), h)

/-- Store into the field. -/
def set (m : Machine) (fuel : Nat) (obj : ObjRef) (target v : Value) (h : Heap) :
    Except Halt Unit × Heap :=
  match m.invoke fuel obj .set [target, v] h with
  | (.error halt, h) => (.error halt, h)
  | (.ok _, h) => (.ok (), h)

end Machine

end FieldUpdater
