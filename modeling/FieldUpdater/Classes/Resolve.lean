import FieldUpdater.Classes.Table
import FieldUpdater.Code.ConstantPool

/-!
# Class constants

A class constant stands for whatever class bears its name, and is a type of its
own when no class does.
-/

namespace FieldUpdater

/-- What a class name stands for. -/
structure ResolvedType where
  /-- The class, unless the name is of none. -/
  id : Option ClassId
  /-- The internal name. -/
  name : String
  /-- The kind of type. -/
  kind : ClassKind
  /-- The signature by which fields of this type are found. -/
  signature : String
  deriving DecidableEq

/-- What a name stands for that is of no class. -/
def ResolvedType.unloadable (name : String) : ResolvedType :=
  ⟨none, name, .unloadable, "L" ++ name ++ ";"⟩

namespace ClassTable

/-- What a class name stands for. -/
def resolve (t : ClassTable) (name : String) : ResolvedType :=
  match (t.lookup name).bind t.find? with
  | some info => ⟨some info.id, info.name, info.kind, info.signature⟩
  | none => .unloadable name

/-- What the class constant at an index of a pool stands for. -/
def classConstant? (t : ClassTable) (pool : ConstantPool) (index : Nat) : Option ResolvedType :=
  (pool.className? index).map t.resolve

end ClassTable

/-- What the constants of some code stand for, by index. A constant that is missing or of another
sort stands for nothing. -/
structure Resolver where
  /-- The type that a class constant stands for. -/
  classConstant? : Nat → Option ResolvedType
  /-- The text of a text constant. -/
  text? : Nat → Option String

/-- The constants of a pool, with the classes of the table. -/
def ClassTable.resolver (t : ClassTable) (pool : ConstantPool) : Resolver :=
  ⟨t.classConstant? pool, pool.text?⟩

end FieldUpdater
