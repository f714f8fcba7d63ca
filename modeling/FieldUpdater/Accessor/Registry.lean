import FieldUpdater.Accessor.Basic

/-!
# The registry of accessors

A registry holds at most one accessor for each field of one class table and finds
it by the field and by the accessor's class. An entry, once made, stays.
-/

namespace FieldUpdater

/-- The accessors made for one class table. -/
structure Registry where
  /-- The tag of the class table. -/
  tag : Nat
  /-- The accessors by field, the newest first. -/
  byField : List (FieldKey × Accessor) := []
  /-- The accessors by their own class, the newest first. -/
  byClass : List (ClassId × Accessor) := []
  /-- The number of accessors ever made. -/
  created : Nat := 0

namespace Registry

variable {State Error : Type}

/-- Whether the registry is for this class table. -/
def isFor (r : Registry) (t : ClassTable) : Bool := r.tag = t.tag

/-- The accessor of a field. -/
def find? (r : Registry) (key : FieldKey) : Option Accessor := r.byField.lookup key

/-- The accessor whose class this is, the newest if there are several. -/
def ofClass? (r : Registry) (c : ClassId) : Option Accessor := r.byClass.lookup c

/-- The number of fields with an accessor. -/
def size (r : Registry) : Nat := r.byField.length

/-- Enter the accessor of a field that has none yet. -/
def insert (r : Registry) (key : FieldKey) (a : Accessor) : Registry :=
  { r with
    byField := (key, a) :: r.byField
    byClass := (a.classId, a) :: r.byClass
    created := r.created + 1 }

/-- The accessor of a field. It is created, and entered if that succeeds, when there is
none; otherwise nothing runs. -/
def findOrCreate (r : Registry) (key : FieldKey)
    (create : State → Except Error Accessor × State) (s : State) :
    Except Error Accessor × Registry × State :=
  match r.find? key with
  | some a => (.ok a, r, s)
  | none =>
    match create s with
    | (.error err, s) => (.error err, r, s)
    | (.ok a, s) => (.ok a, r.insert key a, s)

end Registry

end FieldUpdater
