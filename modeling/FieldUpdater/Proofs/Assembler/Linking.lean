import FieldUpdater.Proofs.Assembler.Alike

/-!
# How linking fails

Linking fails with the first source instruction named that was never begun, jumps before
handlers. Whether and how it fails depends on the instructions named and on the labels, not on
the rest of the code.
-/

namespace FieldUpdater

/-- The error of a result, if it is one. -/
def failure? {ε α : Type} : Except ε α → Option ε
  | .error err => some err
  | .ok _ => none

variable {ε α β : Type}

theorem failure?_eq_none_iff {x : Except ε α} : failure? x = none ↔ ∃ a, x = .ok a := by
  cases x <;> simp [failure?]

theorem failure?_eq_some_iff {x : Except ε α} {err : ε} :
    failure? x = some err ↔ x = .error err := by
  cases x <;> simp [failure?]

/-- Results that fail alike agree on what relates their values. -/
theorem agree_of_failure? {R : α → β → Prop} {x : Except ε α} {y : Except ε β}
    (h : failure? y = failure? x) (hrelated : ∀ a b, x = .ok a → y = .ok b → R a b) :
    Agree R x y := by
  cases x with
  | error err =>
    rw [failure?_eq_some_iff.mp h]
    exact .error
  | ok a =>
    obtain ⟨b, rfl⟩ := failure?_eq_none_iff.mp h
    exact .ok (hrelated a b rfl rfl)

/-- A traversal fails with the first failure of an element. -/
theorem failure?_mapM (f : α → Except ε β) (xs : List α) :
    failure? (xs.mapM f) = xs.findSome? fun x => failure? (f x) := by
  induction xs with
  | nil => rfl
  | cons x xs ih =>
    rw [List.mapM_cons, List.findSome?_cons, ← ih]
    cases f x with
    | error err => rfl
    | ok y => cases xs.mapM f <;> rfl

namespace Assembler

variable {a : Assembler} {i : Instr} {labels : Std.TreeMap Nat Nat}

/-- The source instructions that the jumps of the code name, in order. -/
def jumps (a : Assembler) : List Nat := a.code.toList.filterMap Instr.branchTarget?

theorem jumps_extended {pops pushes : UInt16} :
    (a.extended i pops pushes).jumps = a.jumps ++ i.branchTarget?.toList := by
  unfold jumps
  rw [extended_code, Array.toList_push, List.filterMap_append]
  cases htarget : i.branchTarget? <;> simp [htarget]

/-- The source instructions that handlers name, in order. -/
def bounds (handlers : List Handler) : List Nat :=
  handlers.flatMap fun h => [h.start, h.stop, h.entry]

/-- The error of a source instruction without a label. -/
def missing (labels : Std.TreeMap Nat Nat) (k : Nat) : Option AssemblyError :=
  if k ∈ labels then none else some (.undefinedLabel k)

theorem failure?_position (labels : Std.TreeMap Nat Nat) (k : Nat) :
    failure? (position labels k) = missing labels k := by
  unfold position missing
  cases hlabel : labels[k]? with
  | none =>
    have hnew : k ∉ labels := by simp [Std.TreeMap.mem_iff_isSome_getElem?, hlabel]
    rw [if_neg hnew]
    rfl
  | some p =>
    have hmem : k ∈ labels := by simp [Std.TreeMap.mem_iff_isSome_getElem?, hlabel]
    rw [if_pos hmem]
    rfl

/-- An instruction that is no jump is resolved, and a jump when its target has a label. -/
theorem failure?_resolve (labels : Std.TreeMap Nat Nat) (i : Instr) :
    failure? (resolve labels i) = i.branchTarget?.bind (missing labels) := by
  unfold resolve
  cases i.branchTarget? with
  | none => rfl
  | some target =>
    rw [Option.bind_some, ← failure?_position]
    dsimp only
    cases position labels target <;> rfl

theorem failure?_resolveHandler (labels : Std.TreeMap Nat Nat) (h : Handler) :
    failure? (resolveHandler labels h) =
      [h.start, h.stop, h.entry].findSome? (missing labels) := by
  unfold resolveHandler
  simp only [List.findSome?_cons, List.findSome?_nil, ← failure?_position]
  cases position labels h.start with
  | error err => rfl
  | ok start =>
    cases position labels h.stop with
    | error err => rfl
    | ok stop => cases position labels h.entry <;> rfl

/-- Linking fails with the first source instruction named that has no label. -/
theorem failure?_link (a : Assembler) (name descriptor : String) (handlers : List Handler) :
    failure? (a.link name descriptor handlers) =
      (a.jumps ++ bounds handlers).findSome? (missing a.closedLabels) := by
  have hcode : failure? (a.code.toList.mapM (resolve a.closedLabels)) =
      a.jumps.findSome? (missing a.closedLabels) := by
    rw [failure?_mapM, jumps, ← List.head?_filterMap, ← List.head?_filterMap,
      List.filterMap_filterMap]
    simp only [failure?_resolve]
  have hhandlers : failure? (handlers.mapM (resolveHandler a.closedLabels)) =
      (bounds handlers).findSome? (missing a.closedLabels) := by
    rw [failure?_mapM, bounds, ← List.head?_filterMap (f := missing a.closedLabels),
      List.filterMap_flatMap, List.head?_flatMap]
    simp only [failure?_resolveHandler, List.head?_filterMap]
  rw [List.findSome?_append, ← hcode, ← hhandlers]
  unfold link
  dsimp only
  rw [Array.mapM_eq_mapM_toList]
  cases a.code.toList.mapM (resolve a.closedLabels) with
  | error err => rfl
  | ok code => cases handlers.mapM (resolveHandler a.closedLabels) <;> rfl

end Assembler

end FieldUpdater
