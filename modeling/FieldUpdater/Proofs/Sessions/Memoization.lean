import FieldUpdater.Proofs.Accessors.History
import FieldUpdater.Proofs.Classes.Types
import FieldUpdater.Proofs.Compile.Method
import FieldUpdater.Proofs.Sessions.Basic
import Mathlib.Data.List.Induction

/-!
# What a shared registry remembers

Four stores change together when an accessor is made: the class table gains its class, both
indices of the registry gain its entry, and the queue of one build gains its completion.
Whatever the builds of a session do, and whether or not they succeed, an accessor is made at
most once for a field, and the four stores go on agreeing about it.
-/

namespace FieldUpdater

/-- The class of an accessor is in the table, as the accessor has it. -/
structure Accessor.DefinedIn (a : Accessor) (t : ClassTable) : Prop where
  lookup : t.lookup a.name = some a.classId
  /-- The class is a sealed and private one without fields, nested in that of the field. -/
  record : ∃ info, t.find? a.classId = some info ∧ info.name = a.name ∧
    info.outer = some a.field.declaring ∧ info.superclass = some a.base ∧
    info.isSealed = true ∧ info.visibility = .nestedPrivate ∧ info.fields = #[]

namespace Accessor

variable {a : Accessor} {t t' : ClassTable}

/-- The class of an accessor stays as it is while the table grows. -/
theorem DefinedIn.extends (h : a.DefinedIn t) (hextends : t.Extends t') : a.DefinedIn t' where
  lookup := hextends.lookup h.lookup
  record := by
    obtain ⟨info, hinfo, hrecord⟩ := h.record
    obtain ⟨info', hinfo', hadvance⟩ := hextends.find? _ _ hinfo
    refine ⟨info', hinfo', ?_⟩
    rw [hadvance.eq]
    exact hrecord

theorem DefinedIn.lt_size (h : a.DefinedIn t) : a.classId.index < t.size := by
  obtain ⟨info, hinfo, -⟩ := h.record
  exact ClassTable.lt_size_of_find? hinfo

/-- An accessor that has just been made has its class in the table. -/
theorem DefinedIn.of_defineClass {simple : String}
    (h : defineClass t a.field.declaring simple a.base = .ok (a.classId, t'))
    (hname : a.name = ((t'.find? a.classId).map (·.name)).getD simple) : a.DefinedIn t' := by
  obtain ⟨outer, hadd⟩ := add_of_defineClass h
  have hlookup := ClassTable.lookup_of_add hadd
  obtain ⟨superclass, inherited, layout, hsuper, -, hlayout, hfind⟩ := ClassTable.find?_of_add hadd
  obtain rfl : superclass = some a.base :=
    Except.ok.inj (hsuper.symm.trans (ClassTable.superclassFor_eq rfl))
  obtain rfl : { instanceSlots := inherited } = layout := Except.ok.inj hlayout
  have hown : a.name = ClassTable.nestedName outer (freeName t outer simple) := by
    rw [hname, hfind]
    rfl
  exact ⟨hown ▸ hlookup, _, hfind, hown.symm, rfl, rfl, rfl, rfl, rfl⟩

end Accessor

namespace Session

/-- What is done in a session: something happens, or a build asks for the accessor of a field. -/
inductive Action where
  | event (e : Event)
  | request (build : Nat) (baseType : String) (f : Field)

/-- The build that an action makes work, if it can make accessors. -/
def Action.build? : Action → Option Nat
  | .event (.compile u _) => some u
  | .event _ => none
  | .request u _ _ => some u

/-- The base type that an action names, when builds have these settings: that of the build for a
compilation, and the one asked with for a request. -/
def Action.baseType? (settings : Nat → Settings) : Action → Option String
  | .event (.compile u _) => some (settings u).baseType
  | .event _ => none
  | .request _ baseType _ => some baseType

/-- Ask for the accessor of a field in a build that has not ended. -/
def request (s : Session) (u : Nat) (baseType : String) (f : Field) :
    Option (Except SynthesisError Accessor) × Session :=
  match s.outcome u with
  | some _ => (none, s)
  | none =>
    match Workspace.synthesize ⟨s.table, s.registry, (s.builds u).pending⟩ baseType f with
    | (result, space) => (some result, s.reached u space)

/-- Do one thing. -/
def act (s : Session) : Action → Session
  | .event e => s.perform e
  | .request u baseType f => (s.request u baseType f).2

/-- Do one thing after the other. -/
def actAll (s : Session) (actions : List Action) : Session := actions.foldl act s

/-- The completions of a class that a build has ever queued, with their names. -/
def completions (s : Session) (u : Nat) (c : ClassId) : List (String × Accessor) :=
  (s.builds u).pending.tasks.toList.filter fun task => task.2.classId = c

/-- The completion of an accessor was queued once, in one build. -/
def QueuedOnce (s : Session) (u : Nat) (a : Accessor) : Prop :=
  ∀ v, s.completions v a.classId = if v = u then [("finish " ++ a.name, a)] else []

/-- The stores of a session agree about the accessors. -/
structure Memoized (s : Session) : Prop where
  indexed : s.registry.Indexed
  created : s.registry.created = s.registry.size
  key : ∀ key a, (key, a) ∈ s.registry.byField → a.field.key = key
  defined : ∀ key a, (key, a) ∈ s.registry.byField → a.DefinedIn s.table
  /-- Completions are those of classes of the table. -/
  queued : ∀ u, ∀ task ∈ (s.builds u).pending.tasks.toList, task.2.classId.index < s.table.size

/-- What a build does, or any build if none is given, about accessors: those there stay as they
are, and others are made by the build. -/
structure Continues (u : Option Nat) (s s' : Session) : Prop where
  entry : ∀ key a, s.registry.find? key = some a → s'.registry.find? key = some a
  queued : ∀ v key a, s.registry.find? key = some a → s.QueuedOnce v a → s'.QueuedOnce v a
  made : ∀ key a, s'.registry.find? key = some a → s.registry.find? key = none →
    ∃ v, u = some v ∧ s'.QueuedOnce v a

variable {s s' s'' : Session} {u : Option Nat} {v : Nat} {a : Accessor} {key : FieldKey}

theorem Continues.refl (u : Option Nat) (s : Session) : s.Continues u s :=
  ⟨fun _ _ h => h, fun _ _ _ _ h => h, fun _ _ h h' => by rw [h] at h'; cases h'⟩

theorem Continues.trans (h : s.Continues u s') (h' : s'.Continues u s'') : s.Continues u s'' where
  entry key a ha := h'.entry key a (h.entry key a ha)
  queued v key a ha hqueued := h'.queued v key a (h.entry key a ha) (h.queued v key a ha hqueued)
  made key a ha habsent := by
    cases hmiddle : s'.registry.find? key with
    | none => exact h'.made key a ha hmiddle
    | some b =>
      obtain rfl : b = a := Option.some.inj ((h'.entry key b hmiddle).symm.trans ha)
      obtain ⟨v, hv, hqueued⟩ := h.made key b hmiddle habsent
      exact ⟨v, hv, h'.queued v key b hmiddle hqueued⟩

/-- New builds that share an empty registry. -/
theorem memoized_start (t : ClassTable) (settings : Nat → Settings) (mode : Arithmetic) :
    (start t { tag := t.tag } settings mode).Memoized where
  indexed := ⟨rfl, List.nodup_nil, List.nodup_nil⟩
  created := rfl
  key key a h := by cases h
  defined key a h := by cases h
  queued u task h := by simp [start] at h

/-- When nothing happens but that the table grows, the stores go on agreeing. -/
theorem Memoized.grows (h : s.Memoized) (hregistry : s'.registry = s.registry)
    (hbuilds : s'.builds = s.builds) (hgrown : s.table.Extends s'.table) :
    s'.Memoized ∧ s.Continues u s' := by
  refine ⟨⟨hregistry ▸ h.indexed, hregistry ▸ h.created, hregistry ▸ h.key, ?_, ?_⟩,
    ⟨hregistry ▸ fun _ _ h => h, ?_, ?_⟩⟩
  · intro key a hmem
    rw [hregistry] at hmem
    exact (h.defined key a hmem).extends hgrown
  · intro u task htask
    rw [hbuilds] at htask
    exact (h.queued u task htask).trans_le hgrown.size_le
  · intro v key a _ hqueued w
    rw [completions, hbuilds]
    exact hqueued w
  · intro key a ha habsent
    rw [hregistry, habsent] at ha
    cases ha

/-- The completions after an accessor has been made are those before and its own. -/
theorem completions_making {u : Nat} {t : ClassTable} {c : ClassId} :
    (s.making u key a t).completions v c =
      s.completions v c ++ if v = u ∧ a.classId = c then [("finish " ++ a.name, a)] else [] := by
  unfold completions making work
  by_cases hv : v = u
  · subst hv
    by_cases hc : a.classId = c
    · simp [CompletionQueue.register, List.filter_append, hc]
    · simp [CompletionQueue.register, List.filter_append, hc]
  · simp [hv]

/-- No completion of a class that is new to the table is queued. -/
theorem Memoized.completions_new (h : s.Memoized) (v : Nat) :
    s.completions v ⟨s.table.size⟩ = [] := by
  refine List.filter_eq_nil_iff.mpr fun task htask => ?_
  have hlt := h.queued v task htask
  simp only [decide_eq_true_eq]
  rintro heq
  rw [heq] at hlt
  exact Nat.lt_irrefl _ hlt

/-- When an accessor is made of a class new to the table, the stores go on agreeing. -/
theorem Memoized.making (h : s.Memoized) {u : Nat} {t : ClassTable}
    (habsent : s.registry.find? key = none) (hgrown : s.table.Extends t)
    (hfresh : a.classId = ⟨s.table.size⟩) (hkey : a.field.key = key) (hdefined : a.DefinedIn t) :
    (s.making u key a t).Memoized where
  indexed := h.indexed.insert habsent fun e he heq => by
    have hlt := (h.defined e.1 e.2 he).lt_size
    rw [heq, hfresh] at hlt
    exact Nat.lt_irrefl _ hlt
  created := by simp [Session.making, work, Registry.insert, Registry.size, h.created]
  key key' b hmem := by
    rcases List.mem_cons.mp hmem with heq | hold
    · obtain ⟨rfl, rfl⟩ := Prod.mk.inj heq
      exact hkey
    · exact h.key key' b hold
  defined key' b hmem := by
    rcases List.mem_cons.mp hmem with heq | hold
    · obtain ⟨rfl, rfl⟩ := Prod.mk.inj heq
      exact hdefined
    · exact (h.defined key' b hold).extends hgrown
  queued v task htask := by
    by_cases hv : v = u
    · subst hv
      simp only [Session.making, work, Function.update_self, CompletionQueue.register,
        Array.toList_push, List.mem_append, List.mem_singleton] at htask
      rcases htask with hold | rfl
      · exact (h.queued v task hold).trans_le hgrown.size_le
      · exact hdefined.lt_size
    · simp only [Session.making, work, Function.update_of_ne hv] at htask
      exact (h.queued v task htask).trans_le hgrown.size_le

/-- An accessor of a class new to the table is made by the build, and leaves the others alone. -/
theorem Memoized.continues_making (h : s.Memoized) {u : Nat} {t : ClassTable}
    (habsent : s.registry.find? key = none) (hfresh : a.classId = ⟨s.table.size⟩) :
    s.Continues (some u) (s.making u key a t) where
  entry key' b hb := Registry.find?_insert_of_absent habsent hb
  queued v key' b hb hqueued w := by
    have hlt := (h.defined key' b (Registry.mem_of_find? hb)).lt_size
    have hne : a.classId ≠ b.classId := by
      rintro heq
      rw [← heq, hfresh] at hlt
      exact Nat.lt_irrefl _ hlt
    rw [completions_making, if_neg (fun hand => hne hand.2), List.append_nil]
    exact hqueued w
  made key' b hb hnone := by
    refine ⟨u, rfl, fun w => ?_⟩
    have hentry : b = a := by
      have hmem := Registry.mem_of_find? hb
      rcases List.mem_cons.mp hmem with heq | hold
      · exact (Prod.mk.inj heq).2
      · rw [h.indexed.find?_of_mem hold] at hnone
        cases hnone
    subst hentry
    rw [completions_making, hfresh, h.completions_new, List.nil_append]
    simp

/-- A request for an accessor makes it at most, in the build that asks. -/
theorem memoized_synthesize {u : Nat} {space : Workspace} (baseType : String) (f : Field)
    (h : (s.reached u space).Memoized ∧ s.Continues (some u) (s.reached u space)) :
    (s.reached u (space.synthesize baseType f).2).Memoized ∧
      s.Continues (some u) (s.reached u (space.synthesize baseType f).2) := by
  refine space.synthesize_keeps (P := fun space => (s.reached u space).Memoized ∧
    s.Continues (some u) (s.reached u space)) h baseType f
    fun a t habsent _ hdefined hname hfield => ?_
  obtain ⟨hmemoized, hcontinues⟩ := h
  have hfresh := Accessor.id_of_defineClass hdefined
  have hnew : a.DefinedIn t := by
    subst hfield
    exact .of_defineClass hdefined hname
  rw [← making_reached]
  exact ⟨hmemoized.making habsent (Accessor.extends_of_defineClass hdefined) hfresh
    (by rw [hfield]) hnew, hcontinues.trans (hmemoized.continues_making habsent hfresh)⟩

/-- A build that comes back to where the session is has done nothing. -/
theorem reached_self (s : Session) (u : Nat) :
    s.reached u ⟨s.table, s.registry, (s.builds u).pending⟩ = s := by
  simp [reached, work]

/-- What an action does. -/
inductive Acts (s : Session) (action : Action) : Session → Prop
  /-- Nothing, where it cannot be done. -/
  | idle : Acts s action s
  /-- The table is operated on, and no accessor is asked for. -/
  | table {s' : Session} (named : ∀ settings, action.baseType? settings = none)
      (evolved : s.table.Evolves s'.table) (registry : s'.registry = s.registry)
      (builds : s'.builds = s.builds) : Acts s action s'
  /-- A build comes to a workspace where requests with one base type have led from its own. -/
  | reached {u : Nat} {baseType : String} {space : Workspace} (works : action.build? = some u)
      (named : action.baseType? (fun v => (s.builds v).settings) = some baseType)
      (asked : Workspace.Requested baseType ⟨s.table, s.registry, (s.builds u).pending⟩ space) :
      Acts s action (s.reached u space)

/-- Every action does one of these. -/
theorem acts (s : Session) (action : Action) : s.Acts action (s.act action) := by
  cases action with
  | request u baseType f =>
    dsimp only [act, request]
    cases s.outcome u with
    | some result => exact .idle
    | none => exact .reached rfl rfl (.request .start f)
  | event e =>
    dsimp only [act, perform]
    cases e with
    | define d =>
      dsimp only
      cases hdefine : s.table.define d with
      | error err => exact .idle
      | ok result => exact .table (fun _ => rfl) (.single (.define hdefine)) rfl rfl
    | nest outer simple base visibility isSealed =>
      dsimp only
      cases hnest : s.table.defineNested outer simple base visibility isSealed with
      | error err => exact .idle
      | ok result => exact .table (fun _ => rfl) (.single (.defineNested hnest)) rfl rfl
    | finish c =>
      dsimp only
      cases hfinish : s.table.finish c with
      | error err => exact .idle
      | ok t => exact .table (fun _ => rfl) (.single (.finish hfinish)) rfl rfl
    | compile u c =>
      dsimp only [compile]
      cases s.outcome u with
      | some result => exact .idle
      | none =>
        exact .reached rfl rfl (c.compile_keeps (fun _ _ f _ _ hasked => .request hasked f) .start)
    | complete u =>
      dsimp only [complete]
      cases s.outcome u with
      | some result => exact .idle
      | none => exact .table (fun _ => rfl) ((s.builds u).evolves_complete s.table) rfl rfl

/-- Whatever is done keeps the stores in agreement; accessors are made by the build that works. -/
theorem Memoized.acts (h : s.Memoized) {action : Action} (hacts : s.Acts action s') :
    s'.Memoized ∧ s.Continues action.build? s' := by
  cases hacts with
  | idle => exact ⟨h, .refl _ s⟩
  | table _ hevolves hregistry hbuilds => exact h.grows hregistry hbuilds hevolves.extends
  | @reached u baseType space hworks _ hasked =>
    rw [hworks]
    have hstart : (s.reached u ⟨s.table, s.registry, (s.builds u).pending⟩).Memoized ∧
        s.Continues (some u) (s.reached u ⟨s.table, s.registry, (s.builds u).pending⟩) := by
      rw [reached_self]
      exact ⟨h, .refl _ s⟩
    exact hasked.keeps
      (P := fun space => (s.reached u space).Memoized ∧ s.Continues (some u) (s.reached u space))
      (fun _ f hspace => memoized_synthesize baseType f hspace) hstart

theorem actAll_concat (s : Session) (actions : List Action) (action : Action) :
    s.actAll (actions ++ [action]) = (s.actAll actions).act action := by
  simp [actAll]

/-- Nothing that is done changes the arithmetic. -/
theorem arithmetic_actAll (s : Session) (actions : List Action) :
    (s.actAll actions).arithmetic = s.arithmetic := by
  have hact (s : Session) (action : Action) : (s.act action).arithmetic = s.arithmetic := by
    cases action with
    | event e => exact s.arithmetic_perform e
    | request u baseType f =>
      rw [act, request]
      cases s.outcome u <;> rfl
  induction actions using List.reverseRecOn with
  | nil => rfl
  | append_singleton actions action ih => rw [actAll_concat, hact, ih]

/-- The stores agree after any number of actions. -/
theorem Memoized.actAll (h : s.Memoized) (actions : List Action) : (s.actAll actions).Memoized := by
  induction actions using List.reverseRecOn with
  | nil => exact h
  | append_singleton actions action ih =>
    rw [actAll_concat]
    exact (ih.acts ((s.actAll actions).acts action)).1

/-- An accessor was made by an action: it was not there before, and was there after it. -/
structure MadeBy (s : Session) (actions : List Action) (u : Nat) (key : FieldKey) (a : Accessor) :
    Prop where
  action : ∃ before action after, actions = before ++ action :: after ∧ action.build? = some u ∧
    (s.actAll before).registry.find? key = none ∧
    (s.actAll (before ++ [action])).registry.find? key = some a

theorem MadeBy.concat {actions : List Action} {u : Nat} (h : s.MadeBy actions u key a)
    (action : Action) : s.MadeBy (actions ++ [action]) u key a := by
  obtain ⟨before, made, after, rfl, hrest⟩ := h.action
  exact ⟨before, made, after ++ [action], by simp, hrest⟩

/-- Each accessor that was not there at first was made by one action of one build, which alone
has queued its completion, once. -/
theorem Memoized.exists_madeBy (h : s.Memoized) (hempty : s.registry.byField = [])
    (actions : List Action) (hentry : (s.actAll actions).registry.find? key = some a) :
    ∃ u, s.MadeBy actions u key a ∧ (s.actAll actions).QueuedOnce u a := by
  induction actions using List.reverseRecOn generalizing key a with
  | nil =>
    have hmem := Registry.mem_of_find? hentry
    rw [Session.actAll, List.foldl_nil, hempty] at hmem
    cases hmem
  | append_singleton actions action ih =>
    have hcontinues := ((h.actAll actions).acts ((s.actAll actions).acts action)).2
    rw [← actAll_concat] at hcontinues
    cases hbefore : (s.actAll actions).registry.find? key with
    | some b =>
      obtain rfl : b = a := Option.some.inj ((hcontinues.entry key b hbefore).symm.trans hentry)
      obtain ⟨u, hmade, hqueued⟩ := ih hbefore
      exact ⟨u, hmade.concat action, hcontinues.queued u key b hbefore hqueued⟩
    | none =>
      obtain ⟨u, hu, hqueued⟩ := hcontinues.made key a hentry hbefore
      exact ⟨u, ⟨actions, action, [], rfl, hu, hbefore, hentry⟩, hqueued⟩

/-- In every session that begins with an empty registry, whatever is done, both indices of the
registry are inverse to each other, and each entry is the accessor of its key's field, of a
class of its own that the table has as the accessor says. The accessor was made once, by one
action of one build, and its completion was queued once, in that build. -/
theorem registry_actAll (t : ClassTable) (settings : Nat → Settings) (mode : Arithmetic)
    (actions : List Action) :
    let s₀ := start t { tag := t.tag } settings mode
    let s := s₀.actAll actions
    s.registry.size = s.registry.created ∧
    (∀ key a, s.registry.find? key = some a →
      a.field.key = key ∧ s.registry.ofClass? a.classId = some a ∧ a.DefinedIn s.table ∧
      ∃ u, s₀.MadeBy actions u key a ∧ s.QueuedOnce u a) ∧
    (∀ c a, s.registry.ofClass? c = some a →
      a.classId = c ∧ s.registry.find? a.field.key = some a) ∧
    (∀ key key' a a', s.registry.find? key = some a → s.registry.find? key' = some a' →
      key ≠ key' → a.classId ≠ a'.classId) := by
  intro s₀ s
  have hstart : s₀.Memoized := memoized_start t settings mode
  have hs : s.Memoized := hstart.actAll actions
  refine ⟨hs.created.symm, ?_, ?_, ?_⟩
  · intro key a hentry
    have hmem := Registry.mem_of_find? hentry
    exact ⟨hs.key key a hmem, hs.indexed.ofClass?_of_mem hmem, hs.defined key a hmem,
      hstart.exists_madeBy rfl actions hentry⟩
  · intro c a hfound
    obtain ⟨key, hmem, hclass⟩ := hs.indexed.mem_of_ofClass? hfound
    refine ⟨hclass, ?_⟩
    rw [hs.key key a hmem]
    exact hs.indexed.find?_of_mem hmem
  · intro key key' a a' ha ha' hne heq
    exact hne (hs.indexed.eq_of_classId (Registry.mem_of_find? ha) (Registry.mem_of_find? ha') heq)

/-- One build of the sample compiles a class and another asks for the accessor of the same
field: the first has made it and queued its completion. -/
theorem registry_actAll_node :
    let s := (start Sample.table { tag := Sample.table.tag } fun _ => {}).actAll
      [.event (.compile 0 Sample.node), .request 1 ({} : Settings).baseType Sample.next]
    ∃ a, s.registry.find? Sample.next.key = some a ∧ a.DefinedIn s.table ∧
      s.registry.created = 1 ∧ s.QueuedOnce 0 a := by
  intro s
  have hclass : (s.registry.find? Sample.next.key).map (·.classId) = some ⟨13⟩ ∧
      s.registry.size = 1 ∧ (s.completions 0 ⟨13⟩).length = 1 := by
    decide +kernel
  obtain ⟨hsome, hsize, hqueue⟩ := hclass
  obtain ⟨a, hentry, hid⟩ := Option.map_eq_some_iff.mp hsome
  obtain ⟨hcreated, hall, -⟩ := registry_actAll Sample.table (fun _ => {}) .checked
    [.event (.compile 0 Sample.node), .request 1 ({} : Settings).baseType Sample.next]
  obtain ⟨-, -, hdefined, u, -, hqueued⟩ := hall _ a hentry
  have hbuild : 0 = u := by
    by_contra hne
    have hnone := hqueued 0
    rw [if_neg hne, hid] at hnone
    rw [show s.completions 0 ⟨13⟩ = [] from hnone] at hqueue
    cases hqueue
  subst hbuild
  exact ⟨a, hentry, hdefined, hcreated ▸ hsize, hqueued⟩

end Session

end FieldUpdater
