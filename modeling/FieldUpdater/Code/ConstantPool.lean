/-!
# The constant pool

A pool lists the constants that the code of one class refers to by index. A
method reference takes two entries, that of its class and its own.
-/

namespace FieldUpdater

/-- An entry of a constant pool. -/
inductive Constant where
  /-- A class, by internal name. -/
  | classRef (name : String)
  /-- A text. -/
  | text (value : String)
  /-- An integer. -/
  | integer (value : Int32)
  /-- A method, by the index of its class entry, its name and its descriptor. -/
  | methodRef (owner : Nat) (name descriptor : String)
  deriving DecidableEq

/-- The sorts of entries. -/
inductive ConstantSort where
  | classRef
  | text
  | integer
  | methodRef
  deriving DecidableEq

/-- The word for a sort of entries. -/
def ConstantSort.word : ConstantSort → String
  | .classRef => "class"
  | .text => "string"
  | .integer => "integer"
  | .methodRef => "method ref"

/-- The sort of an entry. -/
def Constant.sort : Constant → ConstantSort
  | .classRef _ => .classRef
  | .text _ => .text
  | .integer _ => .integer
  | .methodRef .. => .methodRef

/-- Why an entry cannot be used. -/
inductive PoolError where
  /-- The pool ends before this index. -/
  | outOfRange (index : Nat)
  /-- The entry is of another sort. -/
  | wrongSort (index : Nat) (expected found : ConstantSort)
  deriving DecidableEq

/-- The wording of a pool error. -/
def PoolError.message : PoolError → String
  | .outOfRange index => s!"Constant pool index {index} out of range"
  | .wrongSort index expected found =>
    s!"Constant pool entry {index} is a {found.word}, expected {expected.word}"

/-- A method reference with its class name looked up. -/
structure Callee where
  /-- The internal name of the class. -/
  owner : String
  /-- The name of the method. -/
  name : String
  /-- The descriptor of the method. -/
  descriptor : String
  deriving DecidableEq

/-- The constants of one class. -/
structure ConstantPool where
  /-- The entries by index. -/
  entries : Array Constant := #[]

namespace ConstantPool

/-- The number of entries. -/
def size (p : ConstantPool) : Nat := p.entries.size

/-- The entry at an index. -/
def find? (p : ConstantPool) (index : Nat) : Option Constant := p.entries[index]?

/-- Append an entry. The result begins with the entry's index. -/
def add (p : ConstantPool) (c : Constant) : Nat × ConstantPool :=
  (p.size, { entries := p.entries.push c })

/-- Append a method reference after an entry for its class. -/
def addMethod (p : ConstantPool) (owner name descriptor : String) : Nat × ConstantPool :=
  let (ownerIndex, p) := p.add (.classRef owner)
  p.add (.methodRef ownerIndex name descriptor)

/-- The class name at an index, if the entry is a class. -/
def className? (p : ConstantPool) (index : Nat) : Option String :=
  match p.find? index with
  | some (.classRef name) => some name
  | _ => none

/-- The text at an index, if the entry is a text. -/
def text? (p : ConstantPool) (index : Nat) : Option String :=
  match p.find? index with
  | some (.text value) => some value
  | _ => none

/-- The method reference at an index. Its own entry is judged before the entry of
its class. -/
def callee (p : ConstantPool) (index : Nat) : Except PoolError Callee :=
  match p.find? index with
  | none => .error (.outOfRange index)
  | some (.methodRef ownerIndex name descriptor) =>
    match p.find? ownerIndex with
    | none => .error (.outOfRange ownerIndex)
    | some (.classRef owner) => .ok ⟨owner, name, descriptor⟩
    | some other => .error (.wrongSort ownerIndex .classRef other.sort)
  | some other => .error (.wrongSort index .methodRef other.sort)

end ConstantPool

end FieldUpdater
