import Std.Data.HashMap
import FieldUpdater.Classes.Resolve

/-!
# The class table in place

While code is compiled, one class table is kept and changed in place. Beside its classes it has an
index of their names. A definition that fails ends where it fails, and nothing takes back what has
been changed by then.
-/

namespace FieldUpdater

/-- A class table with an index of the names. -/
structure ClassStore extends ClassTable where
  /-- The class of every name. -/
  byName : Std.HashMap String ClassId := ∅

namespace ClassStore

/-- A change of a store that can fail. What it has changed before stays. -/
abbrev Change (α : Type) := ExceptT TableError (StateM ClassStore) α

/-- What a change answers, and the store after it. -/
def Change.run {α : Type} (x : Change α) (s : ClassStore) : Except TableError α × ClassStore :=
  ExceptT.run x s

/-- The number of the class of a name. -/
def lookup (s : ClassStore) (name : String) : Option ClassId := s.byName[name]?

/-- What a class name stands for. -/
def resolve (s : ClassStore) (name : String) : ResolvedType :=
  match s.lookup name with
  | none => .unloadable name
  | some id =>
    match s.find? id with
    | none => .unloadable name
    | some info => ⟨some id, info.name, info.kind, info.signature⟩

/-- The superclass that a declaration asks for, with the root class found by its name. -/
def superclassFor (s : ClassStore) (d : ClassDecl) : Except TableError (Option ClassId) :=
  if d.kind = .reference ∧ d.name ≠ rootName then
    match d.superclass, s.lookup rootName with
    | some base, _ => .ok (some base)
    | none, some root => .ok (some root)
    | none, none => .error (.classNotFound rootName)
  else .ok d.superclass

/-- Append a class and index its name. -/
def insert (d : ClassDecl) (outer : Option ClassId) (stage : Stage) : Change ClassId := do
  if (← get).byName.contains d.name then throw (.duplicateClass d.name)
  let superclass ← ofExcept ((← get).superclassFor d)
  let inherited ← ofExcept ((← get).inheritedSlots d.name superclass)
  let id : ClassId := ⟨(← get).size⟩
  let layout ← ofExcept ((← get).layOut id d.name d.fields { instanceSlots := inherited })
  let info : ClassRecord :=
    { id, name := d.name, kind := d.kind, signature := ClassTable.signatureOf d.kind d.name,
      superclass, outer, visibility := d.visibility, isSealed := d.isSealed,
      fields := layout.fields, instanceSlots := layout.instanceSlots,
      staticSlots := layout.staticSlots, stage, baked := false }
  modify fun s => { s with classes := s.classes.push info }
  modify fun s => { s with byName := s.byName.insert d.name id }
  return id

/-- Define a class. -/
def define (d : ClassDecl) : Change ClassId := insert d none .loaded

/-- Define a class nested in another, which stays unfinished. -/
def defineNested (outer : ClassId) (simple : String) (base : ClassId) (visibility : Visibility)
    (isSealed : Bool) : Change ClassId := do
  let enclosing ← ofExcept ((← get).get outer)
  insert { name := ClassTable.nestedName enclosing.name simple, superclass := some base, visibility,
           isSealed } (some outer) .defining

/-- Declare a class finished. -/
def finish (c : ClassId) : Change Unit := do
  if c.index < (← get).size then
    modify fun s => { s with classes := s.classes.modify c.index ({ · with stage := .finished }) }
  else throw (.unknownClassId c)

/-- A store without classes. -/
def empty (tag : Nat) : ClassStore := { tag := tag }

/-- A store with the builtin classes, all finished. -/
def withBuiltins (tag : Nat) : ClassStore :=
  ClassTable.builtins.foldl (fun s d => (Change.run (insert d none .finished) s).2) (empty tag)

end ClassStore

end FieldUpdater
