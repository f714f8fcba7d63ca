import FieldUpdater.Proofs.Accessors.Finishing
import FieldUpdater.Proofs.Accessors.Names
import FieldUpdater.Proofs.Sessions.Completion
import FieldUpdater.Proofs.Sessions.Memoization

/-!
# The ends of builds

The class of an accessor is new when the accessor is made, sealed and still being defined, and
only the build that made the accessor has its completion in its queue. The base class of an
accessor is not sealed, so that it is never the class of another. As long as classes are finished
by builds alone, each build can therefore complete what it has made when it ends, completes
nothing else, and no accessor can be used before.
-/

namespace FieldUpdater

/-- Every class of the first table is, as it was, in the second. -/
structure ClassTable.Appends (t t' : ClassTable) : Prop where
  tag : t'.tag = t.tag
  find? : ∀ c info, t.find? c = some info → t'.find? c = some info

/-- The accessors that a registry has got since it was another, in the order of their making. -/
def Registry.since (r' r : Registry) : List Accessor :=
  ((r'.byField.take (r'.size - r.size)).map (·.2)).reverse

/-- The class of the accessor is being defined. The accessor is not finalized, and no object of
it can be made. -/
structure Accessor.Unfinished (a : Accessor) (t : ClassTable) : Prop where
  stage : ∃ info, t.find? a.classId = some info ∧ info.stage = .defining
  notFinalized : a.isFinalized t = false
  alloc : ∀ h : Heap, h.alloc t a.classId = .error (.typeNotFinalized a.name)

namespace ClassTable

variable {t t' : ClassTable} {d : ClassDecl} {outer : Option ClassId} {stage : Stage} {id : ClassId}

theorem Appends.extends (h : t.Appends t') : t.Extends t' :=
  ⟨h.tag, fun c info hinfo => ⟨info, h.find? c info hinfo, .refl info⟩⟩

/-- Every definition leaves the other classes as they are. -/
theorem appends_of_add (h : t.add d outer stage = .ok (id, t')) : t.Appends t' := by
  obtain ⟨-, -, _, _, _, -, -, -, rfl⟩ := of_add h
  exact ⟨rfl, fun c info hinfo => find?_push_of_find? hinfo _⟩

end ClassTable

namespace Accessor

variable {a : Accessor} {t t' : ClassTable} {owner base id : ClassId} {simple : String}

/-- The class of an accessor leaves the other classes as they are. -/
theorem appends_of_defineClass (h : defineClass t owner simple base = .ok (id, t')) :
    t.Appends t' := by
  obtain ⟨_, hadd⟩ := add_of_defineClass h
  exact ClassTable.appends_of_add hadd

/-- The class of a new accessor is being defined, and nobody has declared it complete. -/
theorem defining_of_defineClass (h : defineClass t owner simple base = .ok (id, t')) :
    ∃ info, t'.find? id = some info ∧ info.stage = .defining ∧ info.baked = false := by
  obtain ⟨_, hadd⟩ := add_of_defineClass h
  obtain ⟨_, _, _, -, -, -, hfind⟩ := ClassTable.find?_of_add hadd
  exact ⟨_, hfind, rfl, rfl⟩

/-- An accessor that is finalized stays so. -/
theorem isFinalized_extends (hextends : t.Extends t') (h : a.isFinalized t = true) :
    a.isFinalized t' = true := by
  obtain ⟨info, hinfo, hbaked⟩ := (Option.any_eq_true _ _).mp h
  obtain ⟨info', hinfo', hadvance⟩ := hextends.find? _ info hinfo
  exact (Option.any_eq_true _ _).mpr ⟨info', hinfo', hadvance.baked hbaked⟩

end Accessor

/-- The accessors that were entered since are those in front of the old ones. -/
theorem Registry.since_eq {r r' : Registry} {added : List (FieldKey × Accessor)}
    (h : r'.byField = added ++ r.byField) : r'.since r = (added.map (·.2)).reverse := by
  rw [since, size, size, h, List.length_append, Nat.add_sub_cancel, List.take_left']
  rfl

namespace Session

/-- The accessors that a build makes by compiling classes while one event after the other happens,
also where a compilation fails. -/
def madeBy (u : Nat) : Session → List Event → List Accessor
  | _, [] => []
  | s, e :: events =>
    (if (Action.event e).build? = some u then (s.perform e).registry.since s.registry else []) ++
      madeBy u (s.perform e) events

/-- What is known of the accessors of builds as long as classes are finished by builds alone. -/
structure Orderly (s : Session) : Prop where
  defined : ∀ u, ∀ a ∈ (s.builds u).accessors, a.DefinedIn s.table
  /-- Base classes are not sealed, as the classes of accessors are. -/
  base : ∀ u, ∀ a ∈ (s.builds u).accessors,
    ∃ info, s.table.find? a.base = some info ∧ info.isSealed = false
  /-- What a build has made waits for its end. -/
  waiting : ∀ u, s.outcome u = none → ∀ a ∈ (s.builds u).accessors,
    ∃ info, s.table.find? a.classId = some info ∧ info.stage = .defining ∧ info.baked = false
  classes : ∀ u, ((s.builds u).accessors.map (·.classId)).Nodup
  /-- Builds have ended without failure. -/
  outcome : ∀ u result, s.outcome u = some result → result = .ok (s.builds u).accessors.length

variable {s : Session} {r : Registry} {t : ClassTable} {u v : Nat} {a : Accessor} {key : FieldKey}

theorem orderly_start (t : ClassTable) (r : Registry) (settings : Nat → Settings)
    (mode : Arithmetic) : (start t r settings mode).Orderly where
  defined u a h := by simp [start, Build.accessors] at h
  base u a h := by simp [start, Build.accessors] at h
  waiting u _ a h := by simp [start, Build.accessors] at h
  classes u := by simp [start, Build.accessors]
  outcome u result h := by simp [start] at h

/-- A class that is added changes nothing for the accessors there are. -/
theorem Orderly.onTable (h : s.Orderly) (happends : s.table.Appends t) : (s.onTable t).Orderly where
  defined u a ha := (h.defined u a ha).extends happends.extends
  base u a ha := by
    obtain ⟨info, hinfo, hsealed⟩ := h.base u a ha
    exact ⟨info, happends.find? _ info hinfo, hsealed⟩
  waiting u hrunning a ha := by
    obtain ⟨info, hinfo, hwaiting⟩ := h.waiting u hrunning a ha
    exact ⟨info, happends.find? _ info hinfo, hwaiting⟩
  classes := h.classes
  outcome := h.outcome

/-- An accessor that is made comes after the others of its build. -/
theorem accessors_making : ((s.making u key a t).builds v).accessors =
    (s.builds v).accessors ++ if v = u then [a] else [] := by
  by_cases hv : v = u
  · subst hv
    simp [making, work, Build.accessors, CompletionQueue.register]
  · simp [making, work, hv]

/-- A running build can make an accessor. -/
theorem Orderly.making (h : s.Orderly)
    (hdefined : Accessor.defineClass s.table a.field.declaring (Accessor.simpleName a.field) a.base
      = .ok (a.classId, t))
    (hname : a.name = ((t.find? a.classId).map (·.name)).getD (Accessor.simpleName a.field))
    (hrunning : s.outcome u = none) : (s.making u key a t).Orderly := by
  have happends := Accessor.appends_of_defineClass hdefined
  have hbefore := h.onTable happends
  have hsplit (v : Nat) (b : Accessor) (hb : b ∈ ((s.making u key a t).builds v).accessors) :
      b ∈ (s.builds v).accessors ∨ v = u ∧ b = a := by
    rw [accessors_making, List.mem_append] at hb
    exact hb.imp id fun hnew => by
      split at hnew
      · exact ⟨‹_›, List.mem_singleton.mp hnew⟩
      · cases hnew
  constructor
  · intro v b hb
    rcases hsplit v b hb with hold | ⟨-, rfl⟩
    · exact hbefore.defined v b hold
    · exact .of_defineClass hdefined hname
  · intro v b hb
    rcases hsplit v b hb with hold | ⟨-, rfl⟩
    · exact hbefore.base v b hold
    · obtain ⟨info, hinfo, hsealed, -⟩ := Accessor.base_of_defineClass hdefined
      exact ⟨info, happends.find? _ info hinfo, hsealed⟩
  · intro v hv b hb
    rcases hsplit v b hb with hold | ⟨-, rfl⟩
    · exact hbefore.waiting v hv b hold
    · exact Accessor.defining_of_defineClass hdefined
  · intro v
    rw [accessors_making, List.map_append, List.nodup_append]
    refine ⟨h.classes v, by split <;> simp, ?_⟩
    rintro c hc c' hc' rfl
    obtain ⟨b, hb, rfl⟩ := List.mem_map.mp hc
    have hlt := (h.defined v b hb).lt_size
    split at hc'
    · have heq : b.classId = a.classId := by simpa using hc'
      rw [heq, Accessor.id_of_defineClass hdefined] at hlt
      exact Nat.lt_irrefl _ hlt
    · cases hc'
  · intro v result hresult
    have hv : v ≠ u := by
      rintro rfl
      exact absurd (hrunning.symm.trans hresult) (by simp)
    rw [accessors_making, if_neg hv, List.append_nil]
    exact h.outcome v result hresult

/-- A running build can complete what it has made. -/
theorem Orderly.complete_eq (h : s.Orderly) (hrunning : s.outcome u = none) :
    ∃ t, (s.builds u).complete s.table = (.ok (s.builds u).accessors.length, t) ∧
      s.table.Completes (s.builds u).accessors t := by
  refine Build.complete_eq (fun a ha => ?_) (h.classes u)
  obtain ⟨base, hbase, -⟩ := h.base u a ha
  obtain ⟨info, hinfo, -, hbaked⟩ := h.waiting u hrunning a ha
  refine ⟨ClassTable.lt_size_of_find? hbase, ClassTable.lt_size_of_find? hinfo, ?_⟩
  rw [Accessor.isFinalized, ClassTable.isBaked, hinfo]
  exact hbaked

theorem queued_of_mem (ha : a ∈ (s.builds u).accessors) : s.Queued u a.classId := by
  obtain ⟨task, htask, rfl⟩ := List.mem_map.mp ha
  exact ⟨task, htask, rfl⟩

/-- The end of a build leaves the classes of other accessors alone. -/
theorem Orderly.find?_ended (h : s.Orderly) (hs : s.Accounted) (hne : v ≠ u)
    (ha : a ∈ (s.builds v).accessors) {t : ClassTable}
    (hcompletes : s.table.Completes (s.builds u).accessors t) :
    t.find? a.classId = s.table.find? a.classId := by
  obtain ⟨info, hinfo, -, -, -, hsealed, -⟩ := (h.defined v a ha).record
  -- The class is none of the build's own, which are of that build only, and being sealed no base.
  have hno : ∀ b ∈ (s.builds u).accessors, b.classId ≠ a.classId ∧ b.base ≠ a.classId := by
    intro b hb
    constructor
    · intro heq
      exact hne (hs.unique v u _ (queued_of_mem ha) (heq ▸ queued_of_mem hb))
    · intro heq
      obtain ⟨base, hbase, hopen⟩ := h.base u b hb
      rw [heq, hinfo] at hbase
      obtain rfl := Option.some.inj hbase
      rw [hopen] at hsealed
      cases hsealed
  rw [hcompletes, hinfo, Option.map_some, ClassRecord.completed_of_ne hno]

/-- A running build can end. -/
theorem Orderly.ended (h : s.Orderly) (hs : s.Accounted) {t : ClassTable}
    (hcompleted : (s.builds u).complete s.table = (.ok (s.builds u).accessors.length, t))
    (hcompletes : s.table.Completes (s.builds u).accessors t) :
    (s.ended u (.ok (s.builds u).accessors.length) t).Orderly := by
  have hextends := Build.extends_of_complete hcompleted
  constructor
  · exact fun v a ha => (h.defined v a ha).extends hextends
  · intro v a ha
    obtain ⟨info, hinfo, hsealed⟩ := h.base v a ha
    obtain ⟨info', hinfo', hadvance⟩ := hextends.find? _ info hinfo
    exact ⟨info', hinfo', by rw [hadvance.eq]; exact hsealed⟩
  · intro v hrunning a ha
    have hne : v ≠ u := by
      rintro rfl
      simp [Session.ended] at hrunning
    have hbefore : s.outcome v = none := by simpa [Session.ended, hne] using hrunning
    obtain ⟨info, hinfo, hwaiting⟩ := h.waiting v hbefore a ha
    exact ⟨info, by rw [← hinfo]; exact h.find?_ended hs hne ha hcompletes, hwaiting⟩
  · exact h.classes
  · intro v result hresult
    by_cases hv : v = u
    · subst hv
      simpa [Session.ended, eq_comm] using hresult
    · exact h.outcome v result (by simpa [Session.ended, hv] using hresult)

/-- A running build that ends has the outcome of its completion. -/
theorem complete_of_running (hrunning : s.outcome u = none) {result : Except CompletionError Nat}
    (hcompleted : (s.builds u).complete s.table = (result, t)) :
    s.complete u = s.ended u result t := by
  rw [complete, hrunning]
  dsimp only
  rw [hcompleted]

/-- Every event but the finishing of a class keeps accessors in order. -/
theorem Orderly.perform (h : s.Orderly) (hs : s.Accounted) {e : Event}
    (hfree : ∀ c, e ≠ .finish c) : (s.perform e).Orderly := by
  cases e with
  | finish c => exact absurd rfl (hfree c)
  | define d =>
    rw [Session.perform]
    cases hdefine : s.table.define d with
    | error err => exact h
    | ok result => exact h.onTable (ClassTable.appends_of_add hdefine)
  | nest outer simple base visibility isSealed =>
    rw [Session.perform]
    cases hnest : s.table.defineNested outer simple base visibility isSealed with
    | error err => exact h
    | ok result =>
      obtain ⟨_, -, hadd⟩ := ClassTable.of_defineNested hnest
      exact h.onTable (ClassTable.appends_of_add hadd)
  | complete u =>
    rw [Session.perform]
    cases hrunning : s.outcome u with
    | some result => rwa [complete, hrunning]
    | none =>
      obtain ⟨t, hcompleted, hcompletes⟩ := h.complete_eq hrunning
      rw [complete_of_running hrunning hcompleted]
      exact h.ended hs hcompleted hcompletes
  | compile u c =>
    cases hrunning : s.outcome u with
    | some result =>
      rw [Session.perform, compile, hrunning]
      exact h
    | none =>
      rw [perform_compile hrunning]
      refine c.compile_keeps (P := fun space => (s.reached u space).Orderly)
        (fun _ _ f space _ hspace => ?_) (by rwa [reached_self])
      refine space.synthesize_keeps (P := fun space => (s.reached u space).Orderly) hspace _ f
        fun a t _ _ hdefined hname hfield => ?_
      subst hfield
      rw [← making_reached]
      exact hspace.making hdefined hname hrunning

/-- The build has queued the accessors that it has entered in the registry, in this order. -/
def Recorded (s : Session) (u : Nat) (space : Workspace) : Prop :=
  ∃ added, space.registry.byField = added ++ s.registry.byField ∧
    space.pending.tasks.toList.map (·.2) = (s.builds u).accessors ++ (added.map (·.2)).reverse

/-- A request enters and queues an accessor at most. -/
theorem Recorded.synthesize {space : Workspace} (h : s.Recorded u space) (baseType : String)
    (f : Field) : s.Recorded u (space.synthesize baseType f).2 := by
  refine space.synthesize_keeps h baseType f fun a t _ _ _ _ _ => ?_
  obtain ⟨added, hentries, hqueued⟩ := h
  refine ⟨(f.key, a) :: added, by simp [Registry.insert, hentries], ?_⟩
  simp [CompletionQueue.register, hqueued]

/-- A compilation queues the accessors that it enters in the registry. -/
theorem accessors_compile (s : Session) (u : Nat) (c : SourceClass) :
    ((s.perform (.compile u c)).builds u).accessors =
      (s.builds u).accessors ++ (s.perform (.compile u c)).registry.since s.registry := by
  cases hrunning : s.outcome u with
  | some result =>
    rw [perform, compile, hrunning]
    simp [Registry.since]
  | none =>
    rw [perform_compile hrunning]
    have hstart : s.Recorded u ⟨s.table, s.registry, (s.builds u).pending⟩ :=
      ⟨[], rfl, by simp [Build.accessors]⟩
    obtain ⟨added, hentries, hqueued⟩ := c.compile_keeps (P := s.Recorded u)
      (fun _ _ f _ _ hspace => hspace.synthesize (s.builds u).settings.baseType f) hstart
    rw [reached, work, Registry.since_eq hentries, ← hqueued]
    simp [Build.accessors]

/-- Whatever else happens leaves the queue of a build alone. -/
theorem builds_perform {e : Event} (hother : (Action.event e).build? ≠ some u) :
    (s.perform e).builds u = s.builds u := by
  cases e with
  | define d =>
    rw [perform]
    cases s.table.define d <;> rfl
  | nest outer simple base visibility isSealed =>
    rw [perform]
    cases s.table.defineNested outer simple base visibility isSealed <;> rfl
  | finish c =>
    rw [perform]
    cases s.table.finish c <;> rfl
  | complete v =>
    rw [perform, complete]
    cases s.outcome v <;> rfl
  | compile v c =>
    have hne : u ≠ v := fun heq => hother (by rw [heq]; rfl)
    cases hrunning : s.outcome v with
    | some result => rw [perform, compile, hrunning]
    | none =>
      rw [perform_compile hrunning]
      exact Function.update_of_ne hne _ _

/-- The queue of a build is extended by what it makes, event after event. -/
theorem accessors_performAll (s : Session) (u : Nat) (events : List Event) :
    ((s.performAll events).builds u).accessors = (s.builds u).accessors ++ s.madeBy u events := by
  induction events generalizing s with
  | nil => simp [performAll, madeBy]
  | cons e events ih =>
    change (((s.perform e).performAll events).builds u).accessors = _
    rw [ih, madeBy, ← List.append_assoc]
    congr 1
    by_cases hbuild : (Action.event e).build? = some u
    · rw [if_pos hbuild]
      cases e with
      | compile v c =>
        obtain rfl : v = u := Option.some.inj hbuild
        exact s.accessors_compile v c
      | define _ => cases hbuild
      | nest _ _ _ _ _ => cases hbuild
      | finish _ => cases hbuild
      | complete _ => cases hbuild
    · rw [if_neg hbuild, List.append_nil, builds_perform hbuild]

/-- As long as classes are finished by builds alone, accessors are in order. -/
theorem Orderly.performAll (h : s.Orderly) (hs : s.Accounted) {events : List Event}
    (hfree : ∀ c, Event.finish c ∉ events) : (s.performAll events).Orderly := by
  induction events generalizing s with
  | nil => exact h
  | cons e events ih =>
    refine ih (h.perform hs ?_) (hs.leads (s.leads_perform e)) ?_
    · rintro c rfl
      exact hfree c List.mem_cons_self
    · exact fun c hc => hfree c (List.mem_cons_of_mem e hc)

/-- What a running build has made is unfinished. -/
theorem Orderly.unfinished (h : s.Orderly) (hrunning : s.outcome u = none)
    (ha : a ∈ (s.builds u).accessors) : a.Unfinished s.table := by
  obtain ⟨info, hinfo, hstage, hbaked⟩ := h.waiting u hrunning a ha
  obtain ⟨record, hrecord, hname, -⟩ := (h.defined u a ha).record
  obtain rfl := Option.some.inj (hinfo.symm.trans hrecord)
  refine ⟨⟨info, hinfo, hstage⟩, ?_, ?_⟩
  · rw [Accessor.isFinalized, ClassTable.isBaked, hinfo]
    exact hbaked
  · intro heap
    rw [Heap.alloc, hinfo]
    dsimp only
    rw [if_pos hstage, hname]

/-- What a build has made is finished when it has ended, with the base classes. -/
theorem Orderly.finished (h : s.Orderly) (ha : a ∈ (s.builds u).accessors)
    (hcompletes : s.table.Completes (s.builds u).accessors t) :
    t.IsFinished a.classId ∧ t.IsFinished a.base := by
  obtain ⟨base, hbase, -⟩ := h.base u a ha
  obtain ⟨info, hinfo, -⟩ := (h.defined u a ha).record
  have hown : ((s.builds u).accessors.any fun b => b.classId = a.classId ∨ b.base = a.classId)
      = true := List.any_eq_true.mpr ⟨a, ha, by simp⟩
  have hextended : ((s.builds u).accessors.any fun b => b.classId = a.base ∨ b.base = a.base)
      = true := List.any_eq_true.mpr ⟨a, ha, by simp⟩
  constructor
  · exact ⟨_, by rw [hcompletes, hinfo]; rfl, if_pos hown⟩
  · exact ⟨_, by rw [hcompletes, hbase]; rfl, if_pos hextended⟩

/-- In a session in which classes are finished by builds alone, what a build has made is unfinished
until the build ends. The build ends with the number of accessors that it has made. It completes
exactly those, together with their base classes, and finalizes no other accessor. Whatever
happens afterwards, what is finished stays so, and what is finalized. -/
theorem complete_exact (t : ClassTable) (r : Registry) (settings : Nat → Settings)
    (mode : Arithmetic) {events : List Event} (hfree : ∀ c, Event.finish c ∉ events) (u : Nat) :
    let s := (start t r settings mode).performAll events
    let made := (start t r settings mode).madeBy u events
    (s.outcome u = none →
      (∀ a ∈ made, a.Unfinished s.table) ∧
      (made.map (·.classId)).Nodup ∧
      (s.complete u).outcome u = some (.ok made.length) ∧
      (∀ a ∈ made, (s.complete u).table.IsFinished a.classId ∧
        (s.complete u).table.IsFinished a.base) ∧
      s.table.Completes made (s.complete u).table ∧
      ∀ a : Accessor, a.isFinalized (s.complete u).table =
        (a.isFinalized s.table || made.any fun b => b.classId = a.classId)) ∧
    (∀ result, s.outcome u = some result → result = .ok made.length) ∧
    ∀ later, (∀ c, s.table.IsFinished c → (s.performAll later).table.IsFinished c) ∧
      ∀ a : Accessor, a.isFinalized s.table = true →
        a.isFinalized (s.performAll later).table = true := by
  intro s made
  have haccounted := accounted_start t r settings mode
  have horderly : s.Orderly := (orderly_start t r settings mode).performAll haccounted hfree
  have hmade : (s.builds u).accessors = made := by
    have hall := (start t r settings mode).accessors_performAll u events
    rwa [show ((start t r settings mode).builds u).accessors = [] from rfl, List.nil_append] at hall
  refine ⟨fun hrunning => ?_, ?_, fun later => ?_⟩
  · obtain ⟨t', hcompleted, hcompletes⟩ := horderly.complete_eq hrunning
    rw [complete_of_running hrunning hcompleted]
    have hunfinished : ∀ a ∈ (s.builds u).accessors, a.Unfinished s.table :=
      fun a ha => horderly.unfinished hrunning ha
    have hfinished : ∀ a ∈ (s.builds u).accessors, t'.IsFinished a.classId ∧ t'.IsFinished a.base :=
      fun a ha => horderly.finished ha hcompletes
    have hfinalized := hcompletes.isFinalized fun a ha => (horderly.defined u a ha).lt_size
    have hclasses := horderly.classes u
    rw [hmade] at hunfinished hfinished hfinalized hclasses hcompletes
    exact ⟨hunfinished, hclasses, by simp [ended, hmade], hfinished, hcompletes, hfinalized⟩
  · intro result hresult
    rw [← hmade]
    exact horderly.outcome u result hresult
  · have hgrows := (s.leads_performAll later).grows
    exact ⟨fun c h => h.extends hgrows.table, fun a => Accessor.isFinalized_extends hgrows.table⟩

end Session

namespace Sample

/-- New builds that share an empty registry. -/
def builds : Session := Session.start table { tag := table.tag } fun _ => {}

/-- Two builds compile the class with the factory call, and the second ends. -/
def events : List Event := [.compile 0 node, .compile 1 node, .complete 1]

end Sample

/-- In the sample the first build has made the accessor, which the end of the second leaves
unfinished and that of the first finishes. -/
theorem Session.complete_exact_node :
    ((Sample.builds.performAll Sample.events).complete 0).outcome 0 = some (.ok 1) ∧
      ∃ a ∈ Sample.builds.madeBy 0 Sample.events, a.classId = ⟨13⟩ ∧
        a.Unfinished (Sample.builds.performAll Sample.events).table ∧
        ((Sample.builds.performAll Sample.events).complete 0).table.IsFinished a.classId := by
  have hfree : ∀ c, Event.finish c ∉ Sample.events := by simp [Sample.events]
  have hrunning : (Sample.builds.performAll Sample.events).outcome 0 = none := by decide +kernel
  have hclasses : (Sample.builds.madeBy 0 Sample.events).map (·.classId) = [⟨13⟩] := by
    decide +kernel
  have hlength := congrArg List.length hclasses
  rw [List.length_map] at hlength
  obtain ⟨hunfinished, -, houtcome, hfinished, -⟩ := (Session.complete_exact Sample.table
    { tag := Sample.table.tag } (fun _ => {}) .checked hfree 0).1 hrunning
  have hmem : ⟨13⟩ ∈ (Sample.builds.madeBy 0 Sample.events).map (·.classId) := by
    rw [hclasses]
    exact List.mem_singleton_self _
  obtain ⟨a, ha, hclass⟩ := List.mem_map.mp hmem
  exact ⟨houtcome.trans (congrArg (fun n => some (Except.ok n)) hlength), a, ha, hclass,
    hunfinished a ha, (hfinished a ha).1⟩

end FieldUpdater
