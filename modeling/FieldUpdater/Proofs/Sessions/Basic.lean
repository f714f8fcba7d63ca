import FieldUpdater.Proofs.Accessors.Completion
import FieldUpdater.Proofs.Compile.Method
import Mathlib.Logic.Function.Basic

/-!
# Sessions

In a session any number of builds share one class table and one registry. Classes are
defined, finished and compiled, and builds are ended, in any order. A build ends once,
and with what outcome is remembered. Whatever happens, the session goes on in steps of
three kinds: the table grows, a build makes an accessor, or a build ends.
-/

namespace FieldUpdater

/-- A class table and a registry with the builds that share them. -/
structure Session where
  table : ClassTable
  registry : Registry
  builds : Nat → Build
  /-- The outcome of a build that has ended. -/
  outcome : Nat → Option (Except CompletionError Nat) := fun _ => none
  /-- The arithmetic in which classes are compiled. -/
  arithmetic : Arithmetic := .checked

/-- Something that happens in a session. -/
inductive Event where
  | define (d : ClassDecl)
  | nest (outer : ClassId) (simple : String) (base : ClassId) (visibility : Visibility)
      (isSealed : Bool)
  | finish (c : ClassId)
  | compile (build : Nat) (c : SourceClass)
  | complete (build : Nat)

namespace Session

/-- The session with new builds of these settings. -/
def start (t : ClassTable) (r : Registry) (settings : Nat → Settings)
    (mode : Arithmetic := .checked) : Session where
  table := t
  registry := r
  builds u := { settings := settings u }
  arithmetic := mode

/-- The session after the table has changed. -/
def onTable (s : Session) (t : ClassTable) : Session := { s with table := t }

/-- The session after a build has worked. -/
def work (s : Session) (u : Nat) (b : Build) (t : ClassTable) (r : Registry) : Session :=
  { s with table := t, registry := r, builds := Function.update s.builds u b }

/-- The session after a build has ended. -/
def ended (s : Session) (u : Nat) (result : Except CompletionError Nat) (t : ClassTable) :
    Session :=
  { s with table := t, outcome := Function.update s.outcome u (some result) }

/-- Compile a class in a build that has not ended. -/
def compile (s : Session) (u : Nat) (c : SourceClass) :
    Option (Except CompileError CompiledClass) × Session :=
  match s.outcome u with
  | some _ => (none, s)
  | none =>
    match (s.builds u).compile c s.table s.registry s.arithmetic with
    | (result, b, t, r) => (some result, s.work u b t r)

/-- End a build that has not ended. -/
def complete (s : Session) (u : Nat) : Session :=
  match s.outcome u with
  | some _ => s
  | none =>
    match (s.builds u).complete s.table with
    | (result, t) => s.ended u result t

/-- Let something happen. A class that cannot be defined or finished changes nothing. -/
def perform (s : Session) : Event → Session
  | .define d =>
    match s.table.define d with
    | .ok (_, t) => s.onTable t
    | .error _ => s
  | .nest outer simple base visibility isSealed =>
    match s.table.defineNested outer simple base visibility isSealed with
    | .ok (_, t) => s.onTable t
    | .error _ => s
  | .finish c =>
    match s.table.finish c with
    | .ok t => s.onTable t
    | .error _ => s
  | .compile u c => (s.compile u c).2
  | .complete u => s.complete u

/-- Let things happen one after the other. -/
def performAll (s : Session) (events : List Event) : Session := events.foldl perform s

/-- The completion of an accessor of this class is in the queue of the build. -/
def Queued (s : Session) (u : Nat) (c : ClassId) : Prop :=
  ∃ task ∈ (s.builds u).pending.tasks.toList, task.2.classId = c

variable {s s' : Session} {u v : Nat} {a : Accessor} {c : ClassId}

/-- The session after a build has made the accessor of a field. -/
def making (s : Session) (u : Nat) (key : FieldKey) (a : Accessor) (t : ClassTable) : Session :=
  s.work u { s.builds u with pending := (s.builds u).pending.register ("finish " ++ a.name) a }
    t (s.registry.insert key a)

/-- A step of a session. -/
inductive Step (s : Session) : Session → Prop
  /-- The table grows. -/
  | table {t : ClassTable} (grown : s.table.Extends t) : Step s (s.onTable t)
  /-- A build makes the accessor of a field that has none, of a class new to the table. -/
  | make {u : Nat} {key : FieldKey} {a : Accessor} {t : ClassTable} (running : s.outcome u = none)
      (absent : s.registry.find? key = none) (grown : s.table.Extends t)
      (fresh : a.classId = ⟨s.table.size⟩) (defined : a.classId.index < t.size) :
      Step s (s.making u key a t)
  /-- A build ends. -/
  | complete {u : Nat} {result : Except CompletionError Nat} {t : ClassTable}
      (running : s.outcome u = none) (completed : (s.builds u).complete s.table = (result, t)) :
      Step s (s.ended u result t)

/-- Any number of steps lead from one session to the other. -/
def Leads (s s' : Session) : Prop := Relation.ReflTransGen Step s s'

/-- A build that makes an accessor has queued it besides those that it queued before. -/
theorem queued_making {key : FieldKey} {t : ClassTable} :
    (s.making u key a t).Queued v c ↔ s.Queued v c ∨ v = u ∧ c = a.classId := by
  unfold Queued making work
  by_cases hv : v = u
  · subst hv
    simp [CompletionQueue.register, or_and_right, exists_or, eq_comm]
  · simp [hv]

/-- The session in which a build has come to a workspace. -/
def reached (s : Session) (u : Nat) (space : Workspace) : Session :=
  s.work u { s.builds u with pending := space.pending } space.table space.registry

/-- A running build that compiles a class comes to the workspace that the compilation leaves. -/
theorem perform_compile (hrunning : s.outcome u = none) (c : SourceClass) :
    s.perform (.compile u c) = s.reached u
      (c.compile (s.builds u).settings ⟨s.table, s.registry, (s.builds u).pending⟩
        s.arithmetic).2 := by
  rw [perform, compile, hrunning]
  rfl

/-- Nothing that happens changes the arithmetic. -/
theorem arithmetic_perform (s : Session) (e : Event) :
    (s.perform e).arithmetic = s.arithmetic := by
  cases e with
  | define d =>
    rw [perform]
    cases s.table.define d <;> rfl
  | nest outer simple base visibility isSealed =>
    rw [perform]
    cases s.table.defineNested outer simple base visibility isSealed <;> rfl
  | finish c =>
    rw [perform]
    cases s.table.finish c <;> rfl
  | compile u c =>
    cases hrunning : s.outcome u with
    | some result => rw [perform, compile, hrunning]
    | none => rw [perform_compile hrunning]; rfl
  | complete u =>
    rw [perform, complete]
    cases s.outcome u <;> rfl

/-- A build that makes an accessor in a workspace comes to one with the accessor. -/
theorem making_reached (s : Session) (u : Nat) (space : Workspace) (key : FieldKey) (a : Accessor)
    (t : ClassTable) : (s.reached u space).making u key a t =
      s.reached u ⟨t, space.registry.insert key a,
        space.pending.register ("finish " ++ a.name) a⟩ := by
  simp [making, reached, work]

/-- A request for an accessor takes a step at most. -/
private theorem leads_synthesize (hrunning : s.outcome u = none) {space : Workspace}
    (h : s.Leads (s.reached u space)) (baseType : String) (f : Field) :
    s.Leads (s.reached u (space.synthesize baseType f).2) := by
  refine space.synthesize_keeps (P := fun space => s.Leads (s.reached u space)) h baseType f
    fun a t habsent _ hdefined _ _ => ?_
  rw [← making_reached]
  exact h.tail (.make hrunning habsent (Accessor.extends_of_defineClass hdefined)
    (Accessor.id_of_defineClass hdefined) (Accessor.lt_size_of_defineClass hdefined))

/-- Compiling a class takes a step for every accessor made. -/
theorem leads_compile (s : Session) (u : Nat) (c : SourceClass) : s.Leads (s.compile u c).2 := by
  unfold compile
  cases hrunning : s.outcome u with
  | some result => exact .refl
  | none =>
    have hstart : s.Leads (s.reached u ⟨s.table, s.registry, (s.builds u).pending⟩) := by
      simp only [reached, work, Function.update_eq_self]
      exact .refl
    exact c.compile_keeps (P := fun space => s.Leads (s.reached u space))
      (fun _ _ f _ _ h => leads_synthesize hrunning h _ f) hstart

/-- Ending a build takes a step at most. -/
theorem leads_complete (s : Session) (u : Nat) : s.Leads (s.complete u) := by
  unfold complete
  cases hrunning : s.outcome u with
  | some result => exact .refl
  | none => exact .single (.complete hrunning rfl)

/-- Whatever happens takes steps. -/
theorem leads_perform (s : Session) (e : Event) : s.Leads (s.perform e) := by
  unfold perform
  cases e with
  | define d =>
    dsimp only
    cases hdefine : s.table.define d with
    | error err => exact .refl
    | ok result => exact .single (.table (ClassTable.Step.define hdefine).extends)
  | nest outer simple base visibility isSealed =>
    dsimp only
    cases hnest : s.table.defineNested outer simple base visibility isSealed with
    | error err => exact .refl
    | ok result => exact .single (.table (ClassTable.Step.defineNested hnest).extends)
  | finish c =>
    dsimp only
    cases hfinish : s.table.finish c with
    | error err => exact .refl
    | ok t => exact .single (.table (ClassTable.Step.finish hfinish).extends)
  | compile u c => exact s.leads_compile u c
  | complete u => exact s.leads_complete u

/-- Events one after the other take steps. -/
theorem leads_performAll (s : Session) (events : List Event) : s.Leads (s.performAll events) := by
  induction events generalizing s with
  | nil => exact .refl
  | cons e events ih => exact (s.leads_perform e).trans (ih (s.perform e))

end Session

end FieldUpdater
