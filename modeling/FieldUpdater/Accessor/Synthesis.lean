import FieldUpdater.Accessor.Registry

/-!
# Synthesis of accessors

The accessor of a field is a sealed class nested in the class that declares the
field. Its name is made from the field's name and signature; when that name is
taken, the least number that makes it free is appended. Its completion is queued.
-/

namespace FieldUpdater

/-- Why an accessor cannot be made or used. -/
inductive SynthesisError where
  /-- The class that accessors extend is not in the table. -/
  | baseTypeMissing (name : String) (source : TableError)
  /-- The class of the accessor cannot be defined. -/
  | defineType (source : TableError)
  /-- Code cannot be assembled. -/
  | assembly (source : AssemblyError)
  deriving DecidableEq

/-- The wording of a synthesis error. -/
def SynthesisError.message : SynthesisError → String
  | .baseTypeMissing name source =>
    s!"Intrinsic base type {name} could not be loaded: {source.message}"
  | .defineType source => s!"Failed to define accessor type: {source.message}"
  | .assembly source => source.message

/-- What a build works on: a class table, the accessors made for it
and the completions that are still to be done. -/
structure Workspace where
  /-- The classes. -/
  table : ClassTable
  /-- The accessors. -/
  registry : Registry
  /-- The accessors to complete. -/
  pending : CompletionQueue Accessor

namespace Accessor

/-- The name of a field's accessor within the class that declares the field. No field
name of a source text contains `<`. -/
def simpleName (f : Field) : String :=
  "__<AtomicField>$" ++ f.name ++
    String.ofList (f.signature.toList.map fun c => if c = '.' then '/' else c)

/-- The name to try after a number of names were taken. -/
def candidate (simple : String) : Nat → String
  | 0 => simple
  | n + 1 => simple ++ "$" ++ toString (n + 1)

/-- The first candidate that names no class of the table. There are more candidates
than classes, so that one of them is free. -/
def freeName (t : ClassTable) (outer simple : String) : String :=
  let free := (List.range (t.size + 1)).find? fun n =>
    (t.lookup (ClassTable.nestedName outer (candidate simple n))).isNone
  candidate simple (free.getD 0)

/-- Define the class of an accessor under the first free name. -/
def defineClass (t : ClassTable) (owner : ClassId) (simple : String) (base : ClassId) :
    Except TableError (ClassId × ClassTable) := do
  let outer ← t.get owner
  t.defineNested owner (freeName t outer.name simple) base .nestedPrivate true

/-- Make the accessor of a field and queue its completion. -/
def generate (baseType : String) (f : Field) :
    ClassTable × CompletionQueue Accessor →
      Except SynthesisError Accessor × ClassTable × CompletionQueue Accessor
  | (t, q) =>
    match t.require baseType with
    | .error err => (.error (.baseTypeMissing baseType err), t, q)
    | .ok base =>
      let simple := simpleName f
      match defineClass t f.declaring simple base with
      | .error err => (.error (.defineType err), t, q)
      | .ok (classId, t) =>
        let name := ((t.find? classId).map (·.name)).getD simple
        match assemble t.tag classId name base f with
        | .error err => (.error (.assembly err), t, q)
        | .ok a => (.ok a, t, q.register ("finish " ++ name) a)

end Accessor

namespace Workspace

/-- The accessor of a field, made on the first request. -/
def synthesize (w : Workspace) (baseType : String) (f : Field) :
    Except SynthesisError Accessor × Workspace :=
  match w.registry.findOrCreate f.key (Accessor.generate baseType f) (w.table, w.pending) with
  | (result, registry, table, pending) => (result, { table, registry, pending })

end Workspace

end FieldUpdater
