import FieldUpdater.Execution.Machine

/-!
# Runs as repeated steps

A run repeats one step until the method is left or execution stops. Fuel bounds the
number of steps, those of constructors included. A result that does not come from a
lack of fuel is the result under any larger amount, so that a computation has at most
one outcome.
-/

namespace FieldUpdater

/-- The execution of one instruction of some code, given the fuel for constructors, the
index of the instruction, the frame and the heap. -/
abbrev StepAt := Nat → Nat → Frame → Heap → Except Halt Step × Heap

/-- Where execution goes on after an instruction and with which frame. -/
def Step.after? (pc : Nat) : Step → Option (Nat × Frame)
  | .next f => some (pc + 1, f)
  | .jump target f => some (target, f)
  | .leave _ => none

/-- A result that is not a lack of fuel. -/
def Settled {α : Type} (out : Except Halt α × Heap) : Prop := out.1 ≠ .error .outOfFuel

theorem settled_error_iff {α : Type} {halt : Halt} {h : Heap} :
    Settled ((.error halt, h) : Except Halt α × Heap) ↔ halt ≠ .outOfFuel := by
  simp [Settled]

theorem settled_ok {α : Type} (a : α) (h : Heap) : Settled ((.ok a, h) : Except Halt α × Heap) := by
  simp [Settled]

/-- With enough fuel the computation has this result. -/
def ComesTo {α : Type} (run : Nat → Except Halt α × Heap) (out : Except Halt α × Heap) : Prop :=
  Settled out ∧ ∃ fuel, run fuel = out

/-- No fuel is enough. -/
def Diverges {α : Type} (run : Nat → Except Halt α × Heap) : Prop := ∀ fuel, ¬ Settled (run fuel)

/-- Two computations have the same outcome: the same result over the same heap, or none. -/
structure SameOutcome {α : Type} (run run' : Nat → Except Halt α × Heap) : Prop where
  /-- They come to the same results. -/
  result : ∀ out, ComesTo run out ↔ ComesTo run' out
  /-- One diverges exactly when the other does. -/
  divergence : Diverges run ↔ Diverges run'

/-- A computation diverges exactly when it comes to nothing. -/
theorem diverges_iff {α : Type} {run : Nat → Except Halt α × Heap} :
    Diverges run ↔ ¬ ∃ out, ComesTo run out := by
  constructor
  · rintro hdiverges ⟨out, hsettled, fuel, rfl⟩
    exact hdiverges fuel hsettled
  · intro hnone fuel hsettled
    exact hnone ⟨run fuel, hsettled, fuel, rfl⟩

/-- Computations that come to each other's results have the same outcome. -/
theorem SameOutcome.of_comesTo {α : Type} {run run' : Nat → Except Halt α × Heap}
    (h : ∀ out, ComesTo run out → ComesTo run' out)
    (h' : ∀ out, ComesTo run' out → ComesTo run out) : SameOutcome run run' where
  result out := ⟨h out, h' out⟩
  divergence := by
    rw [diverges_iff, diverges_iff]
    constructor
    · rintro hnone ⟨out, hout⟩
      exact hnone ⟨out, h' out hout⟩
    · rintro hnone ⟨out, hout⟩
      exact hnone ⟨out, h out hout⟩

namespace Machine

/-- Repeat a step. -/
def follow (step : StepAt) : Nat → Nat → Frame → Heap → Except Halt (Option Value) × Heap
  | 0, _, _, h => (.error .outOfFuel, h)
  | fuel + 1, pc, f, h =>
    match step fuel pc f h with
    | (.error halt, h) => (.error halt, h)
    | (.ok (.next f), h) => follow step fuel (pc + 1) f h
    | (.ok (.jump target f), h) => follow step fuel target f h
    | (.ok (.leave result), h) => (.ok result, h)

/-- The states that repeating a step comes to. -/
inductive Reaches (step : StepAt) (pc₀ : Nat) (f₀ : Frame) (h₀ : Heap) :
    Nat → Frame → Heap → Prop
  /-- The first state. -/
  | start : Reaches step pc₀ f₀ h₀ pc₀ f₀ h₀
  /-- The state after a step that goes on. -/
  | step {fuel pc pc' : Nat} {f f' : Frame} {h h' : Heap} {s : Step}
      (before : Reaches step pc₀ f₀ h₀ pc f h) (taken : step fuel pc f h = (.ok s, h'))
      (after : s.after? pc = some (pc', f')) : Reaches step pc₀ f₀ h₀ pc' f' h'

/-- The step of a method's code. Beyond its end there is none. -/
def stepAt (m : Machine) (body : AssembledMethod) : StepAt := fun fuel pc f h =>
  match body.code[pc]? with
  | none => (.error (.error (.fellOffEnd body.name)), h)
  | some i => m.step (m.makeObject fuel) i f h

/-- A run repeats the step of its code. -/
theorem run_eq_follow (m : Machine) (fuel : Nat) (body : AssembledMethod) (pc : Nat) (f : Frame)
    (h : Heap) : m.run fuel body pc f h = follow (m.stepAt body) fuel pc f h := by
  induction fuel generalizing pc f h with
  | zero => rfl
  | succ fuel ih =>
    unfold run follow
    simp only [← ih]
    unfold stepAt
    cases body.code[pc]? <;> rfl

variable {m : Machine} {step : StepAt} {fuel fuel' pc pc' : Nat} {f f' : Frame} {h h' : Heap}

/-- A run stops at an instruction that fails. -/
theorem follow_of_error {halt : Halt} (hstep : step fuel pc f h = (.error halt, h')) :
    follow step (fuel + 1) pc f h = (.error halt, h') := by
  rw [follow, hstep]

/-- A run goes on after an instruction that does. -/
theorem follow_of_after {s : Step} (hstep : step fuel pc f h = (.ok s, h'))
    (hafter : s.after? pc = some (pc', f')) :
    follow step (fuel + 1) pc f h = follow step fuel pc' f' h' := by
  rw [follow, hstep]
  cases s <;> cases hafter <;> rfl

/-- The first step of a settled run is settled. -/
theorem settled_of_follow (hsettled : Settled (follow step (fuel + 1) pc f h)) :
    Settled (step fuel pc f h) := by
  cases hstep : step fuel pc f h with
  | mk result h' =>
    cases result with
    | error halt =>
      rw [follow_of_error hstep] at hsettled
      exact settled_error_iff.mpr (settled_error_iff.mp hsettled)
    | ok s => exact settled_ok s h'

/-- A run that fails does so at a state that it comes to. -/
theorem exists_reaches_of_follow_error {pc₀ : Nat} {f₀ : Frame} {h₀ : Heap} {err : ExecError}
    (hreaches : Reaches step pc₀ f₀ h₀ pc f h)
    (hfollow : follow step fuel pc f h = (.error (.error err), h')) :
    ∃ k pc₁ f₁ h₁, Reaches step pc₀ f₀ h₀ pc₁ f₁ h₁ ∧
      step k pc₁ f₁ h₁ = (.error (.error err), h') := by
  induction fuel generalizing pc f h with
  | zero => cases hfollow
  | succ fuel ih =>
    cases hstep : step fuel pc f h with
    | mk result h₂ =>
      cases result with
      | error halt =>
        rw [follow_of_error hstep] at hfollow
        cases hfollow
        exact ⟨fuel, pc, f, h, hreaches, hstep⟩
      | ok s =>
        cases hafter : s.after? pc with
        | none =>
          cases s with
          | leave result =>
            rw [follow, hstep] at hfollow
            cases hfollow
          | next f' => cases hafter
          | jump target f' => cases hafter
        | some next =>
          rw [follow_of_after hstep hafter] at hfollow
          exact ih (hreaches.step hstep hafter) hfollow

/-- Steps that more fuel does not change make a run that more fuel does not change. -/
theorem follow_stable
    (hstep : ∀ k < fuel, ∀ k' ≥ k, ∀ pc f h, Settled (step k pc f h) →
      step k' pc f h = step k pc f h)
    (hle : fuel ≤ fuel') (hsettled : Settled (follow step fuel pc f h)) :
    follow step fuel' pc f h = follow step fuel pc f h := by
  induction fuel generalizing fuel' pc f h with
  | zero => exact absurd rfl hsettled
  | succ fuel ih =>
    obtain ⟨fuel', rfl⟩ : ∃ k, fuel' = k + 1 := ⟨fuel' - 1, by omega⟩
    have hle' : fuel ≤ fuel' := by omega
    have hsame := hstep fuel (by omega) fuel' hle' pc f h (settled_of_follow hsettled)
    have hrest : ∀ pc f h, Settled (follow step fuel pc f h) →
        follow step fuel' pc f h = follow step fuel pc f h :=
      fun _ _ _ => ih (fun k hk => hstep k (by omega)) hle'
    unfold follow at hsettled ⊢
    rw [hsame]
    generalize step fuel pc f h = out at hsettled ⊢
    obtain ⟨result, h'⟩ := out
    cases result with
    | error halt => rfl
    | ok s =>
      cases s with
      | next f' => exact hrest _ _ _ hsettled
      | jump target f' => exact hrest _ _ _ hsettled
      | leave result => rfl

/-- The second way to construct agrees with the first wherever that settles. -/
def Construct.Refines (construct construct' : Construct) : Prop :=
  ∀ c h, Settled (construct c h) → construct' c h = construct c h

/-- A settled step stays as it is under a refined way to construct. -/
theorem step_refines {construct construct' : Construct} (hrefines : construct.Refines construct')
    {i : Instr} (hsettled : Settled (m.step construct i f h)) :
    m.step construct' i f h = m.step construct i f h := by
  unfold step at hsettled ⊢
  split
  · rename_i hnew
    rw [if_pos hnew] at hsettled
    cases hclass : i.classOperand with
    | error err => rfl
    | ok c =>
      simp only [hclass] at hsettled ⊢
      have hsame := hrefines c h
      generalize construct c h = out at hsame hsettled ⊢
      obtain ⟨result, h'⟩ := out
      cases result with
      | error halt => rw [hsame (settled_error_iff.mpr (settled_error_iff.mp hsettled))]
      | ok obj => rw [hsame (settled_ok _ _)]
  · rfl

/-- Construction settles the same way under refined invocations. -/
theorem constructWith_refines {invoke invoke' : Invoke}
    (hinvoke : ∀ body args h, Settled (invoke body args h) →
      invoke' body args h = invoke body args h) :
    (m.constructWith invoke).Refines (m.constructWith invoke') := by
  intro c h hsettled
  unfold constructWith at hsettled ⊢
  cases halloc : h.alloc m.table c with
  | error err => rfl
  | ok result =>
    obtain ⟨obj, h'⟩ := result
    simp only [halloc] at hsettled ⊢
    cases hentry : m.registry.ofClass? c with
    | none => rfl
    | some a =>
      simp only [hentry] at hsettled ⊢
      have hsame := hinvoke a.init [.ref obj] h'
      generalize invoke a.init [.ref obj] h' = out at hsame hsettled ⊢
      obtain ⟨result, h''⟩ := out
      cases result with
      | error halt => rw [hsame (settled_error_iff.mpr (settled_error_iff.mp hsettled))]
      | ok _ => rw [hsame (settled_ok _ _)]

/-- A settled step of a method's code stays as it is under refined invocations. -/
theorem stepAt_stable_of_execute {body : AssembledMethod}
    (hexecute : ∀ body args h, Settled (m.execute fuel body args h) →
      m.execute fuel' body args h = m.execute fuel body args h)
    (hsettled : Settled (m.stepAt body fuel pc f h)) :
    m.stepAt body fuel' pc f h = m.stepAt body fuel pc f h := by
  unfold stepAt at hsettled ⊢
  split
  · rfl
  · rename_i i hi
    simp only [hi] at hsettled
    exact step_refines (constructWith_refines hexecute) hsettled

/-- More fuel does not change a settled execution. -/
theorem execute_stable (hle : fuel ≤ fuel') {body : AssembledMethod} {args : List Value}
    (hsettled : Settled (m.execute fuel body args h)) :
    m.execute fuel' body args h = m.execute fuel body args h := by
  induction fuel using Nat.strongRecOn generalizing fuel' body args h with
  | _ fuel ih =>
    unfold execute at hsettled ⊢
    rw [run_eq_follow] at hsettled
    rw [run_eq_follow, run_eq_follow]
    refine follow_stable (fun k hk k' hk' pc f h => ?_) hle hsettled
    exact stepAt_stable_of_execute fun body args h => ih k hk hk'

/-- More fuel does not change a settled construction. -/
theorem makeObject_refines (hle : fuel ≤ fuel') :
    (m.makeObject fuel).Refines (m.makeObject fuel') :=
  constructWith_refines fun _ _ _ => execute_stable hle

/-- An execution comes to at most one result. -/
theorem execute_comesTo_unique {body : AssembledMethod} {args : List Value}
    {out out' : Except Halt (Option Value) × Heap}
    (hout : ComesTo (fun fuel => m.execute fuel body args h) out)
    (hout' : ComesTo (fun fuel => m.execute fuel body args h) out') : out = out' := by
  obtain ⟨hsettled, fuel, rfl⟩ := hout
  obtain ⟨hsettled', fuel', rfl⟩ := hout'
  rcases Nat.le_total fuel fuel' with hle | hle
  · exact (execute_stable hle hsettled).symm
  · exact execute_stable hle hsettled'

end Machine

end FieldUpdater
