import FieldUpdater.Accessor.Synthesis

/-!
# Attempts at a name

Instead of looking for a free name and defining the class of an accessor once, it can be
attempted under one name after the other: under the simple name first and, as long as the table
answers that the name is taken, under the next number, which has thirty-two bits.
-/

namespace FieldUpdater

namespace Accessor

/-- One attempt to define the class of an accessor. -/
def attempt (owner base : ClassId) (name : String) (t : ClassTable) :
    Except TableError ClassId × ClassTable :=
  match t.defineNested owner name base .nestedPrivate true with
  | .error err => (.error err, t)
  | .ok (id, t) => (.ok id, t)

/-- Attempts from a name on, which comes after a number of taken ones, up to the first that meets
no taken name. The outcome is that of the last attempt; there is none yet when the attempts
allowed have all met taken names. -/
def attempts (owner base : ClassId) (simple : String) :
    Nat → String → UInt32 → ClassTable → Option (Except SynthesisError ClassId × ClassTable)
  | 0, _, _, _ => none
  | limit + 1, name, taken, t =>
    match attempt owner base name t with
    | (.error (.duplicateClass _), t) =>
      attempts owner base simple limit (simple ++ "$" ++ toString (taken + 1)) (taken + 1) t
    | (.error err, t) => some (.error (.defineType err), t)
    | (.ok id, t) => some (.ok id, t)

/-- The outcome of so many attempts to define the class of an accessor. -/
def defineWithin (limit : Nat) (owner : ClassId) (simple : String) (base : ClassId)
    (t : ClassTable) : Option (Except SynthesisError ClassId × ClassTable) :=
  attempts owner base simple limit simple 0 t

end Accessor

end FieldUpdater
