import FieldUpdater.Classes.Field

/-!
# The class table

A class table holds every class that code can name, in order of definition. A
definition appends one class or leaves the table as it was. Instance slots of a
class continue those of its superclass, so that a field keeps its slot in every
subclass.
-/

namespace FieldUpdater

/-- The internal name of the root class. -/
def rootName : String := "java/lang/Object"

/-- What kind of type a class is. -/
inductive ClassKind where
  /-- Instances live on the heap. -/
  | reference
  /-- A primitive type such as `int`. -/
  | primitive
  /-- Instances are stored inline. -/
  | valueType
  /-- A name that no class of the table bears. -/
  | unloadable
  deriving DecidableEq

/-- Who can see a class. -/
inductive Visibility where
  /-- Everyone. -/
  | unrestricted
  /-- Only the class in which it is nested. -/
  | nestedPrivate
  deriving DecidableEq

/-- How far the definition of a class has come. -/
inductive Stage where
  /-- Loaded; instances can be made. -/
  | loaded
  /-- Being generated; no instance can be made yet. -/
  | defining
  /-- Complete. -/
  | finished
  deriving DecidableEq

/-- A class of a table. -/
structure ClassRecord where
  /-- The number of the class. -/
  id : ClassId
  /-- The internal name. -/
  name : String
  /-- The kind of type. -/
  kind : ClassKind
  /-- The signature by which fields of this type are found. -/
  signature : String
  /-- The superclass. -/
  superclass : Option ClassId
  /-- The class in which this one is nested. -/
  outer : Option ClassId
  /-- Who can see the class. -/
  visibility : Visibility
  /-- Whether no class can extend this one. -/
  isSealed : Bool
  /-- The fields that the class itself declares. -/
  fields : Array Field
  /-- The number of instance slots, those of the superclass included. -/
  instanceSlots : Nat
  /-- The number of static slots. -/
  staticSlots : Nat
  /-- How far the definition has come. -/
  stage : Stage
  /-- Whether the generator of the class has declared it complete. -/
  baked : Bool
  deriving DecidableEq

/-- The declaration of a field. -/
structure FieldDecl where
  /-- The name of the field. -/
  name : String
  /-- The type of the field. -/
  type : ClassId
  /-- Whether the field belongs to the class. -/
  isStatic : Bool := false
  /-- Whether the field is volatile. -/
  isVolatile : Bool := false
  deriving DecidableEq

/-- The declaration of a class. -/
structure ClassDecl where
  /-- The internal name. -/
  name : String
  /-- The kind of type. -/
  kind : ClassKind := .reference
  /-- The superclass; a reference class without one extends the root class. -/
  superclass : Option ClassId := none
  /-- Who can see the class. -/
  visibility : Visibility := .unrestricted
  /-- Whether no class can extend this one. -/
  isSealed : Bool := false
  /-- The declared fields, in order. -/
  fields : List FieldDecl := []
  deriving DecidableEq

/-- Why a class cannot be extended. -/
inductive BaseFault where
  | isSealed
  | notReference
  deriving DecidableEq

/-- The wording of a fault of a base class. -/
def BaseFault.message : BaseFault → String
  | .isSealed => "base class is sealed"
  | .notReference => "base is not a reference type"

/-- Why an operation on a class table fails. -/
inductive TableError where
  /-- No class has this name. -/
  | classNotFound (name : String)
  /-- A class of this name is there already. -/
  | duplicateClass (name : String)
  /-- No class has this number. -/
  | unknownClassId (id : ClassId)
  /-- The slots of this class do not fit in sixteen bits. -/
  | tooManySlots (name : String)
  /-- The class cannot extend the base. -/
  | invalidBase (name base : String) (fault : BaseFault)
  deriving DecidableEq

/-- The wording of a class table error. -/
def TableError.message : TableError → String
  | .classNotFound name => s!"Class not found: {name}"
  | .duplicateClass name => s!"Class already defined: {name}"
  | .unknownClassId id => s!"Unknown class id {id.text}"
  | .tooManySlots name => s!"Class {name} has more than 65535 field slots"
  | .invalidBase name base fault => s!"Class {name} cannot extend {base}: {fault.message}"

/-- A table of classes. -/
structure ClassTable where
  /-- What tells this table from every other; class numbers of one table mean
  nothing in another. -/
  tag : Nat
  /-- The classes in order of definition. -/
  classes : Array ClassRecord := #[]

namespace ClassTable

/-- The number of classes. -/
def size (t : ClassTable) : Nat := t.classes.size

/-- The class of a number. -/
def find? (t : ClassTable) (c : ClassId) : Option ClassRecord := t.classes[c.index]?

/-- The class of a number, or the error that there is none. -/
def get (t : ClassTable) (c : ClassId) : Except TableError ClassRecord :=
  match t.find? c with
  | some info => .ok info
  | none => .error (.unknownClassId c)

/-- The number of the class of a name. -/
def lookup (t : ClassTable) (name : String) : Option ClassId :=
  (t.classes.findIdx? fun info => info.name = name).map ClassId.mk

/-- The number of a class that has to be there. -/
def require (t : ClassTable) (name : String) : Except TableError ClassId :=
  match t.lookup name with
  | some id => .ok id
  | none => .error (.classNotFound name)

/-- The signature of a class: a letter for a primitive type, the name between `L`
and `;` for every other. -/
def signatureOf (kind : ClassKind) (name : String) : String :=
  match kind with
  | .primitive =>
    match name with
    | "boolean" => "Z"
    | "byte" => "B"
    | "char" => "C"
    | "short" => "S"
    | "int" => "I"
    | "long" => "J"
    | "float" => "F"
    | "double" => "D"
    | _ => "?"
  | _ => "L" ++ name ++ ";"

/-- The superclass that a declaration asks for: a reference class other than the
root has one, and it is the root unless another is named. -/
def superclassFor (t : ClassTable) (d : ClassDecl) : Except TableError (Option ClassId) :=
  if d.kind = .reference ∧ d.name ≠ rootName then
    match d.superclass with
    | some base => .ok (some base)
    | none => (t.require rootName).map some
  else .ok d.superclass

/-- The instance slots that a class of this name inherits from a base class. A base
is an unsealed reference class of the table. -/
def inheritedSlots (t : ClassTable) (name : String) : Option ClassId → Except TableError Nat
  | none => .ok 0
  | some base =>
    match t.get base with
    | .error err => .error err
    | .ok info =>
      if info.isSealed then .error (.invalidBase name info.name .isSealed)
      else if info.kind ≠ .reference then .error (.invalidBase name info.name .notReference)
      else .ok info.instanceSlots

/-- The fields laid out so far and the next free slots. -/
structure Layout where
  /-- The fields with their slots. -/
  fields : Array Field := #[]
  /-- The number of instance slots taken. -/
  instanceSlots : Nat
  /-- The number of static slots taken. -/
  staticSlots : Nat := 0

/-- The largest number of slots of either sort. -/
def maxSlots : Nat := 65535

/-- Give every declared field the next free slot of its sort. -/
def layOut (t : ClassTable) (id : ClassId) (name : String) :
    List FieldDecl → Layout → Except TableError Layout
  | [], l => .ok l
  | d :: ds, l =>
    match t.get d.type with
    | .error err => .error err
    | .ok type =>
      let slot := if d.isStatic then l.staticSlots else l.instanceSlots
      if slot < maxSlots then
        t.layOut id name ds
          { fields := l.fields.push
              ⟨⟨id, d.name, type.signature⟩, d.type, d.isStatic, d.isVolatile, slot⟩
            instanceSlots := if d.isStatic then l.instanceSlots else slot + 1
            staticSlots := if d.isStatic then slot + 1 else l.staticSlots }
      else .error (.tooManySlots name)

/-- Append a class. -/
def add (t : ClassTable) (d : ClassDecl) (outer : Option ClassId) (stage : Stage) :
    Except TableError (ClassId × ClassTable) :=
  if (t.lookup d.name).isSome then .error (.duplicateClass d.name)
  else do
    let superclass ← t.superclassFor d
    let inherited ← t.inheritedSlots d.name superclass
    let id : ClassId := ⟨t.size⟩
    let layout ← t.layOut id d.name d.fields { instanceSlots := inherited }
    let info : ClassRecord :=
      { id, name := d.name, kind := d.kind, signature := signatureOf d.kind d.name, superclass,
        outer, visibility := d.visibility, isSealed := d.isSealed, fields := layout.fields,
        instanceSlots := layout.instanceSlots, staticSlots := layout.staticSlots, stage,
        baked := false }
    .ok (id, { t with classes := t.classes.push info })

/-- Define a class. -/
def define (t : ClassTable) (d : ClassDecl) : Except TableError (ClassId × ClassTable) :=
  t.add d none .loaded

/-- The internal name of a class nested in another. -/
def nestedName (outer simple : String) : String := outer ++ "$" ++ simple

/-- Define a class nested in another, which stays unfinished. -/
def defineNested (t : ClassTable) (outer : ClassId) (simple : String) (base : ClassId)
    (visibility : Visibility) (isSealed : Bool) : Except TableError (ClassId × ClassTable) := do
  let enclosing ← t.get outer
  t.add { name := nestedName enclosing.name simple, superclass := some base, visibility, isSealed }
    (some outer) .defining

/-- Declare a class finished. -/
def finish (t : ClassTable) (c : ClassId) : Except TableError ClassTable :=
  match t.find? c with
  | none => .error (.unknownClassId c)
  | some info =>
    .ok { t with classes := t.classes.setIfInBounds c.index { info with stage := .finished } }

/-- Record that the generator of a class has declared it complete. -/
def bake (t : ClassTable) (c : ClassId) : ClassTable :=
  { t with classes := t.classes.modify c.index fun info => { info with baked := true } }

/-- Whether the generator of a class has declared it complete. -/
def isBaked (t : ClassTable) (c : ClassId) : Bool := (t.find? c).any (·.baked)

/-- The classes that a table begins with: the root class, the classes of class
literals and strings, and the primitive types. -/
def builtins : List ClassDecl :=
  [rootName, "java/lang/Class", "java/lang/String"].map (fun name => { name := name }) ++
    ["boolean", "byte", "char", "short", "int", "long", "float", "double"].map
      fun name => { name, kind := .primitive }

/-- A table without classes. -/
def empty (tag : Nat) : ClassTable := { tag := tag }

/-- The table with a builtin class, which is finished. -/
def addBuiltin (t : ClassTable) (d : ClassDecl) : ClassTable :=
  match t.add d none .finished with
  | .ok (_, t') => t'
  | .error _ => t

/-- A table with the builtin classes, all finished. -/
def withBuiltins (tag : Nat) : ClassTable := builtins.foldl addBuiltin (empty tag)

end ClassTable

end FieldUpdater
