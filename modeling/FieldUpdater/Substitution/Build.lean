import FieldUpdater.Substitution.Compile

/-!
# Builds

A build compiles classes under one choice of settings and completes, at its end, the
accessors that were made on the way. Builds that share a class table and a registry
share the accessors; each accessor is completed by the build that made it.
-/

namespace FieldUpdater

/-- A build in progress. -/
structure Build where
  /-- What is replaced. -/
  settings : Settings := {}
  /-- The accessors made by the build, to be completed at its end. -/
  pending : CompletionQueue Accessor := {}

namespace Build

/-- Compile a class against a class table and the registry of its accessors. -/
def compile (b : Build) (c : SourceClass) (t : ClassTable) (r : Registry)
    (mode : Arithmetic := .checked) :
    Except CompileError CompiledClass × Build × ClassTable × Registry :=
  match c.compile b.settings { table := t, registry := r, pending := b.pending } mode with
  | (result, space) => (result, { b with pending := space.pending }, space.table, space.registry)

/-- End the build: complete its accessors in the order in which they were made, up to
the first failure. The result is their number. -/
def complete (b : Build) (t : ClassTable) : Except CompletionError Nat × ClassTable :=
  b.pending.run (fun _ a => a.complete) t

end Build

end FieldUpdater
