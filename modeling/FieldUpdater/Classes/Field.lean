/-!
# Classes by number and their fields

A class is named by its position in a class table. A field is identified by its
key: the class that declares it, its name and its signature.
-/

namespace FieldUpdater

/-- The number of a class in a class table. -/
structure ClassId where
  /-- The position of the class. -/
  index : Nat
  deriving DecidableEq

/-- The text of a class number. -/
def ClassId.text (c : ClassId) : String := s!"class#{c.index}"

/-- What identifies a field. -/
structure FieldKey where
  /-- The class that declares the field. -/
  declaring : ClassId
  /-- The name of the field. -/
  name : String
  /-- The signature of the field's type. -/
  signature : String
  deriving DecidableEq

/-- A declared field. -/
structure Field where
  /-- The identity of the field. -/
  key : FieldKey
  /-- The declared type. -/
  type : ClassId
  /-- Whether the field belongs to the class and not to its instances. -/
  isStatic : Bool
  /-- Whether the field is declared volatile. -/
  isVolatile : Bool
  /-- The position among the instance slots, or among the static slots of a static field. -/
  slot : Nat
  deriving DecidableEq

namespace Field

/-- The class that declares the field. -/
def declaring (f : Field) : ClassId := f.key.declaring

/-- The name of the field. -/
def name (f : Field) : String := f.key.name

/-- The signature of the field's type. -/
def signature (f : Field) : String := f.key.signature

/-- Two fields are the same when their keys are. -/
def same (f g : Field) : Bool := f.key = g.key

/-- The text of a field: its class, name and signature. -/
def text (f : Field) : String := s!"{f.declaring.text}.{f.name}:{f.signature}"

end Field

end FieldUpdater
