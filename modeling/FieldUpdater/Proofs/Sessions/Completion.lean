import FieldUpdater.Proofs.Accessors.History
import FieldUpdater.Proofs.Sessions.Basic
import Mathlib.Data.List.Induction

/-!
# Which sites can run

An accessor that several builds use was entered in the registry by a compilation of one of them,
which has its completion in its queue. A class that a replaced call constructs is therefore
finished once that build has ended without failure, and in general not before, whichever build
compiled the call.
-/

namespace FieldUpdater

namespace Session

variable {s s' : Session} {t : ClassTable} {r : Registry} {settings : Nat → Settings}
  {mode : Arithmetic} {events : List Event} {u v n : Nat} {key : FieldKey} {a b : Accessor}

/-- Nothing of the first session is lost in the second. -/
structure Grows (s s' : Session) : Prop where
  table : s.table.Extends s'.table
  entry : ∀ key a, s.registry.find? key = some a → s'.registry.find? key = some a

/-- What is known of a session that began with new builds. -/
structure Accounted (s : Session) : Prop where
  /-- The class of an accessor whose completion is queued is in the table. -/
  lt_size : ∀ u c, s.Queued u c → c.index < s.table.size
  /-- No two builds have queued completions of one class. -/
  unique : ∀ u v c, s.Queued u c → s.Queued v c → u = v
  /-- A build that has ended without failure has finished what it queued. -/
  finished : ∀ u n c, s.outcome u = some (.ok n) → s.Queued u c → s.table.IsFinished c

/-- A build entered an accessor in the registry: one of the events is the compilation of a class by
that build, before which the field had no accessor and after which it had this one. -/
def EnteredBy (s : Session) (events : List Event) (u : Nat) (key : FieldKey) (a : Accessor) :
    Prop :=
  ∃ before c after, events = before ++ .compile u c :: after ∧
    (s.performAll before).registry.find? key = none ∧
    ((s.performAll before).perform (.compile u c)).registry.find? key = some a

/-- No step loses anything. -/
theorem Step.grows (h : s.Step s') : s.Grows s' := by
  cases h with
  | table hgrown => exact ⟨hgrown, fun _ _ h => h⟩
  | make _ habsent hgrown _ _ =>
    exact ⟨hgrown, fun _ _ h => Registry.find?_insert_of_absent habsent h⟩
  | complete _ hcompleted => exact ⟨Build.extends_of_complete hcompleted, fun _ _ h => h⟩

/-- No number of steps loses anything. -/
theorem Leads.grows (h : s.Leads s') : s.Grows s' := by
  induction h with
  | refl => exact ⟨.refl _, fun _ _ h => h⟩
  | tail _ hstep ih =>
    have hgrows := hstep.grows
    exact ⟨ih.table.trans hgrows.table, fun key a h => hgrows.entry key a (ih.entry key a h)⟩

/-- Nothing is taken from a queue. -/
theorem Leads.queued (h : s.Leads s') {c : ClassId} (hqueued : s.Queued u c) : s'.Queued u c := by
  induction h with
  | refl => exact hqueued
  | tail _ hstep ih =>
    cases hstep with
    | table _ => exact ih
    | make _ _ _ _ _ => exact queued_making.mpr (.inl ih)
    | complete _ _ => exact ih

/-- New builds have queued nothing. -/
theorem accounted_start (t : ClassTable) (r : Registry) (settings : Nat → Settings)
    (mode : Arithmetic) : (start t r settings mode).Accounted where
  lt_size u c h := by simp [Queued, start] at h
  unique u v c h := by simp [Queued, start] at h
  finished u n c h := by simp [start] at h

/-- A table that grows keeps the account. -/
private theorem Accounted.onTable (h : s.Accounted) {t : ClassTable}
    (hgrown : s.table.Extends t) : (s.onTable t).Accounted where
  lt_size u c hqueued := (h.lt_size u c hqueued).trans_le hgrown.size_le
  unique := h.unique
  finished u n c houtcome hqueued := (h.finished u n c houtcome hqueued).extends hgrown

/-- No build has queued a class that is new to the table. -/
private theorem Accounted.not_queued (h : s.Accounted) (v : Nat) : ¬ s.Queued v ⟨s.table.size⟩ :=
  fun hqueued => Nat.lt_irrefl _ (h.lt_size v _ hqueued)

/-- Making an accessor keeps the account. -/
private theorem Accounted.making (h : s.Accounted) {t : ClassTable}
    (hrunning : s.outcome u = none) (hgrown : s.table.Extends t)
    (hfresh : a.classId = ⟨s.table.size⟩) (hdefined : a.classId.index < t.size) :
    (s.making u key a t).Accounted := by
  have hnew (v : Nat) : ¬ s.Queued v a.classId := hfresh ▸ h.not_queued v
  refine ⟨?_, ?_, ?_⟩
  · intro v c hqueued
    rcases queued_making.mp hqueued with hold | ⟨-, rfl⟩
    · exact (h.lt_size v c hold).trans_le hgrown.size_le
    · exact hdefined
  · intro v v' c hqueued hqueued'
    rcases queued_making.mp hqueued with hold | ⟨rfl, rfl⟩
    · rcases queued_making.mp hqueued' with hold' | ⟨rfl, rfl⟩
      · exact h.unique v v' c hold hold'
      · exact absurd hold (hnew v)
    · rcases queued_making.mp hqueued' with hold' | ⟨rfl, -⟩
      · exact absurd hold' (hnew v')
      · rfl
  · intro v n c houtcome hqueued
    rcases queued_making.mp hqueued with hold | ⟨rfl, rfl⟩
    · exact (h.finished v n c houtcome hold).extends hgrown
    · -- The build that makes an accessor has not ended.
      exact absurd (hrunning.symm.trans houtcome) (by simp)

/-- The end of a build keeps the account: without failure all that the build queued is finished. -/
private theorem Accounted.ended (h : s.Accounted) {result : Except CompletionError Nat}
    {t : ClassTable} (hcompleted : (s.builds u).complete s.table = (result, t)) :
    (s.ended u result t).Accounted := by
  have hgrown := Build.extends_of_complete hcompleted
  refine ⟨?_, h.unique, ?_⟩
  · intro v c hqueued
    exact (h.lt_size v c hqueued).trans_le hgrown.size_le
  · intro v n c houtcome hqueued
    by_cases hv : v = u
    · subst hv
      obtain rfl : result = .ok n := by simpa [Session.ended] using houtcome
      obtain ⟨⟨name, a⟩, htask, rfl⟩ := hqueued
      exact Build.isFinished_of_complete hcompleted name a htask
    · have hold : s.outcome v = some (.ok n) := by simpa [Session.ended, hv] using houtcome
      exact (h.finished v n c hold hqueued).extends hgrown

/-- A step keeps the account. -/
theorem Accounted.step (h : s.Accounted) (hstep : s.Step s') : s'.Accounted := by
  cases hstep with
  | table hgrown => exact h.onTable hgrown
  | make hrunning _ hgrown hfresh hdefined => exact h.making hrunning hgrown hfresh hdefined
  | complete _ hcompleted => exact h.ended hcompleted

/-- Any number of steps keep the account. -/
theorem Accounted.leads (h : s.Accounted) (hleads : s.Leads s') : s'.Accounted := by
  induction hleads with
  | refl => exact h
  | tail _ hstep ih => exact ih.step hstep

theorem performAll_append (s : Session) (events later : List Event) :
    s.performAll (events ++ later) = (s.performAll events).performAll later := List.foldl_append

/-- Only compilations enter accessors in the registry. -/
theorem registry_perform {e : Event} (h : ∀ u c, e ≠ .compile u c) :
    (s.perform e).registry = s.registry := by
  cases e with
  | define d =>
    rw [perform]
    cases s.table.define d <;> rfl
  | nest outer simple base visibility isSealed =>
    rw [perform]
    cases s.table.defineNested outer simple base visibility isSealed <;> rfl
  | finish c =>
    rw [perform]
    cases s.table.finish c <;> rfl
  | compile u c => exact absurd rfl (h u c)
  | complete u =>
    rw [perform, complete]
    cases s.outcome u <;> rfl

/-- An accessor of the registry was there at first, or a build entered it. -/
theorem exists_enteredBy (s : Session) (events : List Event)
    (hentry : (s.performAll events).registry.find? key = some a) :
    s.registry.find? key = some a ∨ ∃ u, s.EnteredBy events u key a := by
  induction events using List.reverseRecOn generalizing a with
  | nil => exact .inl hentry
  | append_singleton events e ih =>
    rw [performAll_append] at hentry
    cases hbefore : (s.performAll events).registry.find? key with
    | some b =>
      have hgrows := ((s.performAll events).leads_perform e).grows
      obtain rfl : b = a := Option.some.inj ((hgrows.entry key b hbefore).symm.trans hentry)
      refine (ih hbefore).imp_right ?_
      rintro ⟨u, before, c, after, rfl, hentered⟩
      exact ⟨u, before, c, after ++ [e], by simp, hentered⟩
    | none =>
      by_cases hcompile : ∃ u c, e = .compile u c
      · obtain ⟨u, c, rfl⟩ := hcompile
        exact .inr ⟨u, events, c, [], rfl, hbefore, hentry⟩
      · have hsame : ((s.performAll events).perform e).registry = _ :=
          registry_perform fun u c heq => hcompile ⟨u, c, heq⟩
        change ((s.performAll events).perform e).registry.find? key = some a at hentry
        rw [hsame, hbefore] at hentry
        cases hentry

/-- After an event that has entered an accessor the field has it. -/
private theorem entry_of_perform {before : List Event} {e : Event} (rest : List Event)
    (h : ((s.performAll before).perform e).registry.find? key = some a) :
    (s.performAll (before ++ e :: rest)).registry.find? key = some a := by
  rw [performAll_append]
  exact ((((s.performAll before).perform e).leads_performAll rest).grows).entry key a h

/-- An accessor is entered by one build only. -/
theorem EnteredBy.unique (h : s.EnteredBy events u key a) (h' : s.EnteredBy events v key b) :
    u = v := by
  obtain ⟨before, c, after, rfl, habsent, hentry⟩ := h
  obtain ⟨before', c', after', heq, habsent', hentry'⟩ := h'
  -- Of two different events the second would find the accessor that the first has entered.
  rcases List.append_eq_append_iff.mp heq with ⟨between, rfl, hrest⟩ | ⟨between, rfl, hrest⟩
  · cases between with
    | nil => exact (Event.compile.inj (List.cons.inj hrest).1).1
    | cons e between =>
      obtain ⟨rfl, -⟩ := List.cons.inj hrest
      rw [entry_of_perform between hentry] at habsent'
      cases habsent'
  · cases between with
    | nil => exact (Event.compile.inj (List.cons.inj hrest).1).1.symm
    | cons e between =>
      obtain ⟨rfl, -⟩ := List.cons.inj hrest
      rw [entry_of_perform between hentry'] at habsent
      cases habsent

/-- A compilation that enters an accessor queues its completion. -/
theorem queued_of_perform {c : SourceClass} (habsent : s.registry.find? key = none)
    (hentry : (s.perform (.compile u c)).registry.find? key = some a) :
    (s.perform (.compile u c)).Queued u a.classId := by
  cases hrunning : s.outcome u with
  | some result =>
    rw [perform, compile, hrunning] at hentry
    rw [habsent] at hentry
    cases hentry
  | none =>
    rw [perform_compile hrunning] at hentry ⊢
    refine c.compile_keeps (P := fun space => ∀ a, space.registry.find? key = some a →
      (s.reached u space).Queued u a.classId) (fun _ _ f space _ hspace => ?_) ?_ a hentry
    · refine space.synthesize_keeps (P := fun space => ∀ a, space.registry.find? key = some a →
        (s.reached u space).Queued u a.classId) hspace _ f fun b t _ _ _ _ _ a hfound => ?_
      rw [← making_reached]
      rcases Registry.of_find?_insert hfound with ⟨-, rfl⟩ | hold
      · exact queued_making.mpr (.inr ⟨rfl, rfl⟩)
      · exact queued_making.mpr (.inl (hspace a hold))
    · intro a hfound
      rw [habsent] at hfound
      cases hfound

/-- What a build has entered stays in its queue. -/
theorem EnteredBy.queued (h : s.EnteredBy events u key a) :
    (s.performAll events).Queued u a.classId := by
  obtain ⟨before, c, after, rfl, habsent, hentry⟩ := h
  rw [performAll_append]
  exact (((s.performAll before).perform (.compile u c)).leads_performAll after).queued
    (queued_of_perform habsent hentry)

/-- A compiled class is one that its build compiles in the session. -/
theorem of_compile {c : SourceClass} {compiled : CompiledClass}
    (h : s.compile u c = (some (.ok compiled), s')) :
    ∃ space, c.compile (s.builds u).settings ⟨s.table, s.registry, (s.builds u).pending⟩
      s.arithmetic = (.ok compiled, space) ∧ s'.registry = space.registry := by
  unfold compile Build.compile at h
  split at h
  · cases h
  · cases hcompile : c.compile (s.builds u).settings
      ⟨s.table, s.registry, (s.builds u).pending⟩ s.arithmetic with
    | mk result space =>
      rw [hcompile] at h
      cases h
      exact ⟨space, rfl, rfl⟩

/-- However builds that share a registry are interleaved, every replaced call of a compiled
class constructs an accessor that the registry had at first or that exactly one of the builds
has entered by compiling a class. That is the build that compiled the call where the registry had
no accessor of the field before. The class of the accessor is finished, and objects of it can be
made, once the build that entered it has ended without failure, or if it was finished at first. -/
theorem sites_finished {c : SourceClass} {compiled : CompiledClass}
    (hcompile : ((start t r settings mode).performAll events).compile u c =
      (some (.ok compiled), s)) (later : List Event) :
    let entered := (start t r settings mode).EnteredBy (events ++ .compile u c :: later)
    ∀ cm ∈ compiled.methods, ∀ site ∈ cm.sites,
      cm.body.code[Layout.position cm.sites site.index + 3]? =
        some ⟨.newobj, .classRef site.accessor⟩ ∧
      ∃ key a, (s.performAll later).registry.find? key = some a ∧ a.classId = site.accessor ∧
        (r.find? key = some a ∨ ∃! v, entered v key a) ∧
        (((start t r settings mode).performAll events).registry.find? key = none →
          ∀ v, entered v key a ↔ v = u) ∧
        ((t.IsFinished site.accessor ∨ ∃ v n, entered v key a ∧
            (s.performAll later).outcome v = some (.ok n)) →
          (s.performAll later).table.IsFinished site.accessor ∧
          ∀ heap : Heap, ∃ o heap',
            heap.alloc (s.performAll later).table site.accessor = .ok (o, heap')) := by
  intro entered cm hcm site hsite
  obtain ⟨space, hspace, hregistry⟩ := of_compile hcompile
  obtain ⟨hcode, key, a, hentry, hclass⟩ := c.accessor_of_compile hspace cm hcm site hsite
  rw [← hclass] at hcode ⊢
  rw [← hregistry] at hentry
  have hperformed : ((start t r settings mode).performAll events).perform (.compile u c) = s := by
    rw [perform, hcompile]
  have hfinal : (start t r settings mode).performAll (events ++ .compile u c :: later) =
      s.performAll later := by
    rw [performAll_append]
    exact congrArg (performAll · later) hperformed
  have hleads := (start t r settings mode).leads_performAll (events ++ .compile u c :: later)
  rw [hfinal] at hleads
  have haccounted := (accounted_start t r settings mode).leads hleads
  have hentry' := (s.leads_performAll later).grows.entry key a hentry
  refine ⟨hcode, key, a, hentry', rfl, ?_, fun habsent v => ?_, fun h => ?_⟩
  · refine (exists_enteredBy _ _ (hfinal ▸ hentry')).imp_right ?_
    rintro ⟨v, hentered⟩
    exact ⟨v, hentered, fun v' hentered' => hentered'.unique hentered⟩
  · have hown : entered u key a :=
      ⟨events, c, later, rfl, habsent, by rw [hperformed, hentry]⟩
    constructor
    · exact fun hentered => hentered.unique hown
    · rintro rfl
      exact hown
  · have hfinished : (s.performAll later).table.IsFinished a.classId := by
      rcases h with hgiven | ⟨v, n, hentered, houtcome⟩
      · exact hgiven.extends hleads.grows.table
      · have hqueued := hentered.queued
        rw [hfinal] at hqueued
        exact haccounted.finished v n _ houtcome hqueued
    exact ⟨hfinished, hfinished.exists_alloc⟩

end Session

namespace Sample

/-- The first of two builds has compiled the class with the factory call. -/
def shared : Session :=
  (Session.start table { tag := table.tag } fun _ => {}).performAll [.compile 0 node]

/-- A class whose sites have been computed has been compiled and has these sites. -/
theorem exists_site_of_sites {x : Option (Except CompileError CompiledClass) × Session}
    {sites : Array Site} (h : (x.1.bind (·.toOption)).map
      (fun compiled => compiled.methods.map (·.sites)) = some [sites]) :
    ∃ compiled, x = (some (.ok compiled), x.2) ∧
      ∀ site ∈ sites, ∃ cm ∈ compiled.methods, site ∈ cm.sites := by
  obtain ⟨result, s⟩ := x
  match result with
  | none => cases h
  | some (.error err) => cases h
  | some (.ok compiled) =>
    have hmethods : compiled.methods.map (·.sites) = [sites] := Option.some.inj h
    obtain ⟨cm, hcm, rfl⟩ := List.mem_map.mp (hmethods ▸ List.mem_singleton_self sites)
    exact ⟨compiled, rfl, fun site hsite => ⟨cm, hcm, hsite⟩⟩

/-- The second build constructs the class of the accessor that the first has made. -/
theorem compile_shared : ∃ compiled,
    shared.compile 1 node = (some (.ok compiled), (shared.compile 1 node).2) ∧
      ∃ cm ∈ compiled.methods, ⟨5, ⟨13⟩⟩ ∈ cm.sites := by
  have hsites : ((shared.compile 1 node).1.bind (·.toOption)).map
      (fun compiled => compiled.methods.map (·.sites)) = some [#[⟨5, ⟨13⟩⟩]] := by
    decide +kernel
  obtain ⟨compiled, hcompile, hall⟩ := exists_site_of_sites hsites
  exact ⟨compiled, hcompile, hall _ (by simp)⟩

end Sample

namespace Session

/-- What the second build has compiled can run once the first, which has entered the accessor, has
ended. -/
theorem sites_finished_node : ∃ compiled s,
    Sample.shared.compile 1 Sample.node = (some (.ok compiled), s) ∧
      ∃ cm ∈ compiled.methods, ∃ site ∈ cm.sites,
        (s.performAll [.complete 0]).table.IsFinished site.accessor := by
  have hkeys : (((Sample.shared.compile 1 Sample.node).2.performAll [.complete 0]).registry.byField
      |>.all fun entry => (Sample.shared.registry.find? entry.1).isSome) = true := by
    decide +kernel
  have houtcome : ((Sample.shared.compile 1 Sample.node).2.performAll [.complete 0]).outcome 0 =
      some (.ok 1) := by
    decide +kernel
  obtain ⟨compiled, hcompile, cm, hcm, hsite⟩ := Sample.compile_shared
  refine ⟨compiled, _, hcompile, cm, hcm, _, hsite, ?_⟩
  obtain ⟨-, key, a, hentry, -, -, -, hfinished⟩ :=
    sites_finished hcompile [.complete 0] cm hcm _ hsite
  -- The accessor was there after the first event, and not before.
  obtain ⟨b, hshared⟩ := Option.isSome_iff_exists.mp
    (List.all_eq_true.mp hkeys _ (Registry.mem_of_find? hentry))
  have hgrows := (Sample.shared.leads_performAll [.compile 1 Sample.node, .complete 0]).grows
  have hkept := hgrows.entry key b hshared
  obtain rfl : b = a := Option.some.inj (hkept.symm.trans hentry)
  exact (hfinished (.inr ⟨0, 1, ⟨[], Sample.node, _, rfl, rfl, hshared⟩, houtcome⟩)).1

/-- What the second build has compiled cannot run although the second build has ended without
failure. -/
theorem site_unfinished_node : ∃ compiled s,
    Sample.shared.compile 1 Sample.node = (some (.ok compiled), s) ∧
      (s.complete 1).outcome 1 = some (.ok 0) ∧
      ∃ cm ∈ compiled.methods, ∃ site ∈ cm.sites,
        ¬ (s.complete 1).table.IsFinished site.accessor ∧
        ∀ heap : Heap, heap.alloc (s.complete 1).table site.accessor =
          .error (.typeNotFinalized "Node$__<AtomicField>$nextLjava/lang/Object;") := by
  have houtcome : ((Sample.shared.compile 1 Sample.node).2.complete 1).outcome 1 =
      some (.ok 0) := by
    decide +kernel
  have hstage : (((Sample.shared.compile 1 Sample.node).2.complete 1).table.find? ⟨13⟩).map
      (fun info => (info.stage, info.name)) =
        some (.defining, "Node$__<AtomicField>$nextLjava/lang/Object;") := by
    decide +kernel
  obtain ⟨compiled, hcompile, cm, hcm, hsite⟩ := Sample.compile_shared
  refine ⟨compiled, _, hcompile, houtcome, cm, hcm, _, hsite, ?_⟩
  obtain ⟨info, hinfo, hpair⟩ := Option.map_eq_some_iff.mp hstage
  obtain ⟨hdefining, hname⟩ := Prod.mk.inj hpair
  constructor
  · rintro ⟨info', hinfo', hfinished⟩
    obtain rfl := Option.some.inj (hinfo.symm.trans hinfo')
    rw [hdefining] at hfinished
    cases hfinished
  · intro heap
    simp only [Heap.alloc, hinfo, if_pos hdefining, hname]

end Session

end FieldUpdater
