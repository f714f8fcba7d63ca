/-!
# Values and slot words

An instance slot is one 64-bit word, so that a compare-and-exchange works on it as
a whole. The word of a value is four times its payload plus the tag of its kind:
zero for null, one for references, two for integers, three for truth values. A
fresh word is zero and reads as null.
-/

namespace FieldUpdater

/-- A reference to an object of a heap. -/
structure ObjRef where
  /-- The position of the object. -/
  index : UInt32
  deriving DecidableEq

/-- The text of a reference. -/
def ObjRef.text (o : ObjRef) : String := s!"obj#{o.index.toNat}"

/-- A value of a slot, a local variable or an argument. -/
inductive Value where
  /-- The null reference. -/
  | null
  /-- A reference; two are equal when they are the same. -/
  | ref (obj : ObjRef)
  /-- An integer. -/
  | int (value : Int32)
  /-- A truth value. -/
  | bool (value : Bool)
  deriving DecidableEq

namespace Value

/-- The word of a value. -/
def toWord : Value → UInt64
  | null => 0
  | ref obj => 4 * obj.index.toUInt64 + 1
  | int value => 4 * value.toUInt32.toUInt64 + 2
  | bool value => 4 * value.toUInt64 + 3

/-- The value of a word. Payload bits that the kind has no use for are ignored, but a
truth value is true when any bit of its payload is set. -/
def ofWord (word : UInt64) : Value :=
  let payload := word / 4
  match (word % 4).toNat with
  | 1 => ref ⟨payload.toUInt32⟩
  | 2 => int payload.toUInt32.toInt32
  | 3 => bool (payload != 0)
  | _ => null

/-- Whether the value is null. -/
def isNull (v : Value) : Bool := v = null

/-- The object referred to, if there is one. -/
def obj? : Value → Option ObjRef
  | ref obj => some obj
  | _ => none

/-- The truth value, if it is one. -/
def bool? : Value → Option Bool
  | bool value => some value
  | _ => none

/-- The word for the kind of a value. -/
def kindWord : Value → String
  | null => "null"
  | ref _ => "reference"
  | int _ => "int"
  | bool _ => "boolean"

end Value

end FieldUpdater
