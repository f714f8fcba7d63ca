import FieldUpdater.Accessor.Synthesis
import FieldUpdater.Substitution.Settings
import FieldUpdater.Substitution.Window

/-!
# Replaced call sites

A replaced factory call discards its three arguments and constructs the accessor of
the field instead. Either way one reference is left on the stack.
-/

namespace FieldUpdater

namespace Accessor

/-- The code that stands for a factory call. -/
def constructionCode (a : Accessor) : List Instr :=
  [⟨.pop, .none⟩, ⟨.pop, .none⟩, ⟨.pop, .none⟩, ⟨.newobj, .classRef a.classId⟩]

end Accessor

namespace Window

/-- Replace the call of a window whose arguments have been assembled. The accessor is
the one constructed; there is none, and nothing happens, when the call cannot be
replaced. -/
def substitute (w : Window) (baseType : String) (space : Workspace) (a : Assembler) :
    Except SynthesisError (Option Accessor) × Workspace × Assembler :=
  match w.target? space.table with
  | none => (.ok none, space, a)
  | some field =>
    match space.synthesize baseType field with
    | (.error err, space) => (.error err, space, a)
    | (.ok accessor, space) =>
      match a.appendAll accessor.constructionCode with
      | (.error err, a) => (.error (.assembly err), space, a)
      | (.ok (), a) => (.ok (some accessor), space, a)

end Window

end FieldUpdater
