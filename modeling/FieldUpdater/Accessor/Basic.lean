import FieldUpdater.Code.Assembler
import FieldUpdater.Completion

/-!
# Accessors

An accessor is a synthesized class with three operations on one field: an atomic
compare-and-set, a load and a store. Its bodies work on the field directly. The
class cannot be instantiated before the accessor has been completed, which happens
once.
-/

namespace FieldUpdater

/-- The operations of an accessor. -/
inductive FieldOp where
  /-- Replace an expected value by another and tell whether that happened. -/
  | compareAndSet
  /-- Load the field. -/
  | get
  /-- Store into the field. -/
  | set
  deriving DecidableEq

namespace FieldOp

/-- Every operation, in the order of the method table. -/
def all : List FieldOp := [compareAndSet, get, set]

/-- The name of the method. -/
def name : FieldOp → String
  | compareAndSet => "compareAndSet"
  | get => "get"
  | set => "set"

/-- The descriptor of the method. -/
def descriptor : FieldOp → String
  | compareAndSet => "(Ljava/lang/Object;Ljava/lang/Object;Ljava/lang/Object;)Z"
  | get => "(Ljava/lang/Object;)Ljava/lang/Object;"
  | set => "(Ljava/lang/Object;Ljava/lang/Object;)V"

/-- The number of arguments, the accessor itself included. -/
def argCount : FieldOp → Nat
  | compareAndSet => 4
  | get => 2
  | set => 3

end FieldOp

/-- A synthesized class with atomic access to one field. -/
structure Accessor where
  /-- The tag of the class table in which the class was defined. -/
  home : Nat
  /-- The number of the class. -/
  classId : ClassId
  /-- The name of the class. -/
  name : String
  /-- The superclass. -/
  base : ClassId
  /-- The field. -/
  field : Field
  /-- The bodies of the operations. -/
  method : FieldOp → AssembledMethod
  /-- The body of the argumentless constructor. -/
  init : AssembledMethod

namespace Accessor

/-- The class that declares the field. -/
def owner (a : Accessor) : ClassId := a.field.declaring

/-- Whether the accessor has been completed, by the table in which it is defined. -/
def isFinalized (a : Accessor) (t : ClassTable) : Bool := t.isBaked a.classId

/-- Complete the accessor's own class, which succeeds once. -/
def bakeClass (a : Accessor) (t : ClassTable) : Except CompletionError ClassTable :=
  if a.isFinalized t then .error (.alreadyFinalized a.name)
  else
    match t.finish a.classId with
    | .error err => .error (.type a.name err)
    | .ok t => .ok (t.bake a.classId)

/-- Complete an accessor: first its base class, then its own. -/
def complete (a : Accessor) (t : ClassTable) : Except CompletionError Unit × ClassTable :=
  match t.finish a.base with
  | .error err => (.error (.type a.name err), t)
  | .ok t =>
    match a.bakeClass t with
    | .error err => (.error err, t)
    | .ok t => (.ok (), t)

/-- Compare-and-set as code: the value stored is the third argument and the one
compared with is the second, both cast to the type of the field. -/
def compareAndSetCode (f : Field) : List Instr :=
  [⟨.ldarg, .localVar 1⟩, ⟨.castclass, .classRef f.declaring⟩, ⟨.ldflda, .fieldRef f⟩,
    ⟨.ldarg, .localVar 3⟩, ⟨.castclass, .classRef f.type⟩,
    ⟨.ldarg, .localVar 2⟩, ⟨.castclass, .classRef f.type⟩, ⟨.cmpxchg, .classRef f.type⟩,
    ⟨.ldarg, .localVar 2⟩, ⟨.ceq, .none⟩, ⟨.areturn, .none⟩]

/-- The load as code. -/
def getCode (f : Field) : List Instr :=
  [⟨.ldarg, .localVar 1⟩, ⟨.castclass, .classRef f.declaring⟩, ⟨.volatileLdfld, .fieldRef f⟩,
    ⟨.areturn, .none⟩]

/-- The store as code. The barrier after it keeps later writes from becoming visible
before it. -/
def setCode (f : Field) : List Instr :=
  [⟨.ldarg, .localVar 1⟩, ⟨.castclass, .classRef f.declaring⟩,
    ⟨.ldarg, .localVar 2⟩, ⟨.castclass, .classRef f.type⟩, ⟨.volatileStfld, .fieldRef f⟩,
    ⟨.membar, .none⟩, ⟨.ret, .none⟩]

/-- The constructor as code: it runs that of the base class. -/
def initCode (base : ClassId) : List Instr :=
  [⟨.ldarg, .localVar 0⟩, ⟨.callBaseCtor, .classRef base⟩, ⟨.ret, .none⟩]

/-- An operation as code. -/
def codeOf (f : Field) : FieldOp → List Instr
  | .compareAndSet => compareAndSetCode f
  | .get => getCode f
  | .set => setCode f

/-- Assemble an operation. -/
def assembleOp (f : Field) (op : FieldOp) : Except AssemblyError AssembledMethod :=
  Assembler.straightLine op.name op.descriptor (codeOf f op)

/-- Assemble the accessor of a class that has been defined for it. -/
def assemble (home : Nat) (classId : ClassId) (name : String) (base : ClassId) (f : Field) :
    Except AssemblyError Accessor := do
  let compareAndSet ← assembleOp f .compareAndSet
  let get ← assembleOp f .get
  let set ← assembleOp f .set
  let init ← Assembler.straightLine "<init>" "()V" (initCode base)
  let method : FieldOp → AssembledMethod
    | .compareAndSet => compareAndSet
    | .get => get
    | .set => set
  .ok { home, classId, name, base, field := f, method, init }

end Accessor

end FieldUpdater
