import FieldUpdater.Classes.Table

/-!
# Superclasses

The lineage of a class is the class itself followed by its superclasses, nearest
first. A superclass is defined before its subclasses, so that its number is
smaller and the lineage ends. Fields are found along the lineage, and a value can
be stored where any class of its lineage is expected.
-/

namespace FieldUpdater

namespace ClassTable

/-- The superclass of a class, if the class is in the table and has one. -/
def superclass? (t : ClassTable) (c : ClassId) : Option ClassId :=
  (t.find? c).bind (·.superclass)

/-- A class and its superclasses, nearest first. -/
def lineage (t : ClassTable) (c : ClassId) : List ClassId :=
  match t.superclass? c with
  | none => [c]
  | some base => if _h : base.index < c.index then c :: t.lineage base else [c]
termination_by c.index

/-- Whether a value of one class can be stored where another is expected. -/
def isAssignable (t : ClassTable) (source target : ClassId) : Bool :=
  (t.lineage source).any (· = target)

/-- The first field of this name and signature that the class itself declares. -/
def declaredField? (t : ClassTable) (c : ClassId) (name signature : String) : Option Field :=
  (t.find? c).bind fun info =>
    info.fields.find? fun f => f.name = name ∧ f.signature = signature

/-- The field of this name and signature on the nearest class of the lineage that
declares one. -/
def findField? (t : ClassTable) (c : ClassId) (name signature : String) : Option Field :=
  (t.lineage c).findSome? fun k => t.declaredField? k name signature

end ClassTable

end FieldUpdater
