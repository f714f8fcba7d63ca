import FieldUpdater.Proofs.Sessions.Repetition

/-!
# The base types of shared accessors

An accessor is remembered by its field alone. Which class it extends was decided by what first
asked for it with success, and another build gets it as it is, whatever base type the settings of
that build name. The base type of a build is therefore that of the accessors that it makes itself,
and of all that it uses if everything in the session names the same one.
-/

namespace FieldUpdater

/-- The class of an accessor extends the class of a name. -/
structure Accessor.ExtendsNamed (a : Accessor) (t : ClassTable) (baseType : String) : Prop where
  lookup : t.lookup baseType = some a.base
  superclass : t.superclass? a.classId = some a.base
  before : a.base.index < a.classId.index
  lt_size : a.classId.index < t.size

namespace Accessor

variable {a : Accessor} {t t' : ClassTable} {baseType : String}

/-- The class goes on extending it while the table grows. -/
theorem ExtendsNamed.extends (h : a.ExtendsNamed t baseType) (hextends : t.Extends t') :
    a.ExtendsNamed t' baseType where
  lookup := hextends.lookup h.lookup
  superclass := (hextends.superclass? h.lt_size).trans h.superclass
  before := h.before
  lt_size := h.lt_size.trans_le hextends.size_le

/-- Objects of the class can be used as themselves and as what they extend, and as nothing else. -/
theorem ExtendsNamed.isAssignable_iff (h : a.ExtendsNamed t baseType) (k : ClassId) :
    t.isAssignable a.classId k = true ↔
      k = a.classId ∨ t.isAssignable a.base k = true := by
  unfold ClassTable.isAssignable
  rw [ClassTable.lineage, h.superclass]
  simp only [dif_pos h.before, List.any_cons, Bool.or_eq_true, decide_eq_true_eq]
  exact or_congr_left eq_comm

/-- An accessor that has just been made extends the class of the base type. -/
theorem ExtendsNamed.of_defineClass {simple : String} {owner : ClassId}
    (hrequired : t.require baseType = .ok a.base)
    (hdefined : defineClass t owner simple a.base = .ok (a.classId, t')) :
    a.ExtendsNamed t' baseType := by
  have hlookup : t.lookup baseType = some a.base := by
    unfold ClassTable.require at hrequired
    cases hname : t.lookup baseType with
    | none => simp [hname] at hrequired
    | some id =>
      rw [hname] at hrequired
      exact congrArg some (Except.ok.inj hrequired)
  obtain ⟨⟨info, hinfo, -⟩, -⟩ := ClassTable.lookup_eq_some_iff.mp hlookup
  obtain ⟨_, hadd⟩ := add_of_defineClass hdefined
  obtain ⟨superclass, inherited, layout, hsuper, -, -, hfind⟩ := ClassTable.find?_of_add hadd
  obtain rfl : superclass = some a.base :=
    Except.ok.inj (hsuper.symm.trans (ClassTable.superclassFor_eq rfl))
  refine ⟨(ClassTable.extends_of_add hadd).lookup hlookup, ?_, ?_, ClassTable.lt_size_of_add hadd⟩
  · rw [ClassTable.superclass?, hfind]
    rfl
  · rw [id_of_defineClass hdefined]
    exact ClassTable.lt_size_of_find? hinfo

end Accessor

namespace Workspace

/-- The accessors that a registry does not have extend the class of a base type. -/
def MadeWith (w : Workspace) (r : Registry) (baseType : String) : Prop :=
  ∀ key a, w.registry.find? key = some a → r.find? key = some a ∨ a.ExtendsNamed w.table baseType

/-- A request with the base type makes at most one more of them. -/
theorem MadeWith.synthesize {w : Workspace} {r : Registry} {baseType : String}
    (h : w.MadeWith r baseType) (f : Field) : (w.synthesize baseType f).2.MadeWith r baseType := by
  refine w.synthesize_keeps (P := fun w => w.MadeWith r baseType) h baseType f ?_
  intro a t _ hrequired hdefined _ _ key b hentry
  rcases Registry.of_find?_insert hentry with ⟨-, rfl⟩ | hold
  · exact .inr (.of_defineClass hrequired hdefined)
  · exact (h key b hold).imp_right (·.extends (Accessor.extends_of_defineClass hdefined))

end Workspace

namespace Session

variable {s s' : Session} {u : Nat} {key : FieldKey} {a : Accessor} {settings : Nat → Settings}
  {action : Action} {actions : List Action} {baseType : String}

/-- Builds keep their settings. -/
theorem Acts.settings_eq (h : s.Acts action s') (u : Nat) :
    (s'.builds u).settings = (s.builds u).settings := by
  cases h with
  | idle => rfl
  | table _ _ _ hbuilds => rw [hbuilds]
  | @reached v _ _ _ _ _ =>
    by_cases hu : u = v
    · subst hu
      simp [Session.reached, work]
    · simp [Session.reached, work, Function.update_of_ne hu]

/-- An accessor that is new after an action extends the class of the base type that the action
names. -/
theorem Acts.extendsNamed (h : s.Acts action s') (hentry : s'.registry.find? key = some a)
    (habsent : s.registry.find? key = none) :
    ∃ baseType, action.baseType? (fun u => (s.builds u).settings) = some baseType ∧
      a.ExtendsNamed s'.table baseType := by
  cases h with
  | idle =>
    rw [habsent] at hentry
    cases hentry
  | table _ _ hregistry _ =>
    rw [hregistry, habsent] at hentry
    cases hentry
  | @reached u baseType space _ hnamed hasked =>
    have hmade : space.MadeWith s.registry baseType :=
      hasked.keeps (P := (·.MadeWith s.registry baseType)) (fun _ f h => h.synthesize f)
        fun _ _ h => .inl h
    refine ⟨baseType, hnamed, (hmade key a hentry).resolve_left ?_⟩
    rw [habsent]
    exact nofun

/-- Builds keep their settings whatever is done. -/
theorem settings_actAll (s : Session) (actions : List Action) (u : Nat) :
    ((s.actAll actions).builds u).settings = (s.builds u).settings := by
  induction actions using List.reverseRecOn with
  | nil => rfl
  | append_singleton actions action ih =>
    rw [actAll_concat, ((s.actAll actions).acts action).settings_eq, ih]

/-- One of some actions made the accessor of a field with a base type: before that action there
was none, and after it there was. -/
def MadeWith (s : Session) (actions : List Action) (key : FieldKey) (a : Accessor)
    (baseType : String) : Prop :=
  ∃ before action after, actions = before ++ action :: after ∧
    action.baseType? (fun u => (s.builds u).settings) = some baseType ∧
    (s.actAll before).registry.find? key = none ∧
    (s.actAll (before ++ [action])).registry.find? key = some a

/-- Every accessor of a registry that was empty at first was made by one of the actions, and its
class extends the class of the base type that this action named. -/
theorem exists_madeWith (hempty : s.registry.byField = []) (actions : List Action)
    (hentry : (s.actAll actions).registry.find? key = some a) :
    ∃ baseType, s.MadeWith actions key a baseType ∧
      a.ExtendsNamed (s.actAll actions).table baseType := by
  induction actions using List.reverseRecOn generalizing a with
  | nil =>
    have hmem := Registry.mem_of_find? hentry
    rw [Session.actAll, List.foldl_nil, hempty] at hmem
    cases hmem
  | append_singleton actions action ih =>
    have hgrows := ((s.actAll actions).acts action).grows
    rw [← actAll_concat] at hgrows
    -- An entry that was there keeps what made it; a new one was made by the last action.
    cases hbefore : (s.actAll actions).registry.find? key with
    | some b =>
      obtain rfl : b = a := Option.some.inj ((hgrows.entry key b hbefore).symm.trans hentry)
      obtain ⟨baseType, ⟨before, made, after, rfl, hmade⟩, hextends⟩ := ih hbefore
      exact ⟨baseType, ⟨before, made, after ++ [action], by simp, hmade⟩,
        hextends.extends hgrows.table⟩
    | none =>
      rw [actAll_concat] at hentry
      obtain ⟨baseType, hbase, hextends⟩ :=
        ((s.actAll actions).acts action).extendsNamed hentry hbefore
      simp only [settings_actAll] at hbase
      rw [← actAll_concat] at hentry hextends
      exact ⟨baseType, ⟨actions, action, [], rfl, hbase, hbefore, hentry⟩, hextends⟩

/-- What made an accessor that was not there before the last action is that action. -/
theorem MadeWith.of_last (h : s.MadeWith (actions ++ [action]) key a baseType)
    (habsent : (s.actAll actions).registry.find? key = none) :
    action.baseType? (fun u => (s.builds u).settings) = some baseType := by
  obtain ⟨before, made, after, heq, hbase, -, hafter⟩ := h
  rcases List.eq_nil_or_concat after with rfl | ⟨rest, last, rfl⟩
  · obtain ⟨-, hlast⟩ := List.append_inj' heq rfl
    rw [(List.cons.inj hlast).1]
    exact hbase
  · have hsplit : actions ++ [action] = (before ++ [made] ++ rest) ++ [last] := by
      rw [heq, List.concat_eq_append]
      simp
    obtain ⟨rfl, -⟩ := List.append_inj' hsplit rfl
    have hgrows := ((s.actAll (before ++ [made])).evolves_actAll rest).2
    have hentry : (s.actAll (before ++ [made] ++ rest)).registry.find? key = some a := by
      rw [actAll, List.foldl_append]
      exact hgrows.entry key a hafter
    rw [habsent] at hentry
    cases hentry

/-- Where everything names one base type, accessors are made with it. -/
theorem MadeWith.eq_of_forall (h : s.MadeWith actions key a baseType) {common : String}
    (hall : ∀ action ∈ actions, ∀ named,
      action.baseType? (fun u => (s.builds u).settings) = some named → named = common) :
    baseType = common := by
  obtain ⟨before, made, after, rfl, hbase, -⟩ := h
  exact hall made (by simp) baseType hbase

/-- However builds with settings of their own share a registry, the class constructed in the place
of a call extends the class that the accessor was made with: the base type of the build, or of the
request, that made the accessor names it. Its objects can be used as themselves and as what that
class can be used as, now and later. For an accessor that was made by compiling this very class,
and where everything done before names the same base type, that is the base type of the build. -/
theorem sites_extend_base {t : ClassTable} {mode : Arithmetic} {c : SourceClass}
    {compiled : CompiledClass}
    (hcompile : ((start t { tag := t.tag } settings mode).actAll actions).compile u c =
      (some (.ok compiled), s)) (later : List Action) :
    ∀ cm ∈ compiled.methods, ∀ site ∈ cm.sites,
      cm.body.code[Layout.position cm.sites site.index + 3]? =
        some ⟨.newobj, .classRef site.accessor⟩ ∧
      ∃ key a baseType, s.registry.find? key = some a ∧ a.classId = site.accessor ∧
        (start t { tag := t.tag } settings mode).MadeWith
          (actions ++ [.event (.compile u c)]) key a baseType ∧
        (s.actAll later).table.lookup baseType = some a.base ∧
        (s.actAll later).table.superclass? site.accessor = some a.base ∧
        (∀ k, (s.actAll later).table.isAssignable site.accessor k = true ↔
          k = site.accessor ∨ (s.actAll later).table.isAssignable a.base k = true) ∧
        (((start t { tag := t.tag } settings mode).actAll actions).registry.find? key = none ∨
          (∀ action ∈ actions, ∀ named, action.baseType? settings = some named →
            named = (settings u).baseType) →
          baseType = (settings u).baseType) := by
  intro cm hcm site hsite
  let action : Action := .event (.compile u c)
  obtain ⟨space, hspace, hregistry⟩ := of_compile hcompile
  obtain ⟨hcode, key, a, hentry, hclass⟩ := c.accessor_of_compile hspace cm hcm site hsite
  have hs : s = (start t { tag := t.tag } settings mode).actAll (actions ++ [action]) := by
    rw [actAll_concat, act, perform, hcompile]
  rw [← hregistry] at hentry
  have hrun := hentry
  rw [hs] at hrun
  obtain ⟨baseType, hmade, hextends⟩ := exists_madeWith rfl (actions ++ [action]) hrun
  rw [← hs] at hextends
  have hfinal := hextends.extends (s.evolves_actAll later).2.table
  refine ⟨hcode, key, a, baseType, hentry, hclass, hmade, hfinal.lookup,
    hclass ▸ hfinal.superclass, hclass ▸ hfinal.isAssignable_iff, ?_⟩
  rintro (habsent | hall)
  · exact (Option.some.inj (hmade.of_last habsent)).symm
  · refine hmade.eq_of_forall fun done hdone named hnamed => ?_
    rcases List.mem_append.mp hdone with hold | hlast
    · exact hall done hold named hnamed
    · obtain rfl := List.mem_singleton.mp hlast
      exact (Option.some.inj hnamed).symm

end Session

namespace Sample

/-- Settings that name the base class of the sample, another class, and none. -/
def divided : Nat → Settings
  | 0 => {}
  | 1 => { baseType := "java/lang/String" }
  | _ => { baseType := "runtime/Absent" }

/-- The first of three builds with these settings has compiled the class with the factory call. -/
def dividedSession : Session :=
  (Session.start table { tag := table.tag } divided).actAll [.event (.compile 0 node)]

/-- The others construct the class of the accessor that the first has made. -/
theorem compile_divided (u : Nat) (hu : u = 1 ∨ u = 2) : ∃ compiled,
    dividedSession.compile u node = (some (.ok compiled), (dividedSession.compile u node).2) ∧
      ∃ cm ∈ compiled.methods, ⟨5, ⟨13⟩⟩ ∈ cm.sites := by
  have hsites : ((dividedSession.compile u node).1.bind (·.toOption)).map
      (fun compiled => compiled.methods.map (·.sites)) = some [#[⟨5, ⟨13⟩⟩]] := by
    rcases hu with rfl | rfl <;> decide +kernel
  obtain ⟨compiled, hcompile, hall⟩ := exists_site_of_sites hsites
  exact ⟨compiled, hcompile, hall _ (by simp)⟩

end Sample

namespace Session

/-- The accessor that another build constructs can be used as what the base class of the first
build can be used as, whatever class its own settings name. -/
theorem sites_extend_base_node : ∃ compiled s,
    Sample.dividedSession.compile 1 Sample.node = (some (.ok compiled), s) ∧
      ∃ cm ∈ compiled.methods, ∃ site ∈ cm.sites, ∃ base,
        s.table.lookup (Sample.divided 0).baseType = some base ∧
        ∀ k, s.table.isAssignable site.accessor k = true ↔
          k = site.accessor ∨ s.table.isAssignable base k = true := by
  obtain ⟨compiled, hcompile, cm, hcm, hsite⟩ := Sample.compile_divided 1 (.inl rfl)
  obtain ⟨-, key, a, baseType, -, -, -, -, hsuper, hassignable, -⟩ :=
    sites_extend_base hcompile [] cm hcm _ hsite
  have hfirst : (Sample.dividedSession.compile 1 Sample.node).2.table.lookup
      (Sample.divided 0).baseType =
        (Sample.dividedSession.compile 1 Sample.node).2.table.superclass? ⟨13⟩ := by
    decide +kernel
  exact ⟨compiled, _, hcompile, cm, hcm, _, hsite, a.base, hfirst.trans hsuper, hassignable⟩

/-- A build constructs the class of an accessor that is not assignable to the class of the build's
base type, and one although no class has the name of its base type. -/
theorem sites_extend_another_base :
    (∃ compiled s, Sample.dividedSession.compile 1 Sample.node = (some (.ok compiled), s) ∧
      ∃ cm ∈ compiled.methods, ∃ site ∈ cm.sites, ∃ base,
        s.table.lookup (Sample.divided 1).baseType = some base ∧
          s.table.isAssignable site.accessor base = false) ∧
    ∃ compiled s, Sample.dividedSession.compile 2 Sample.node = (some (.ok compiled), s) ∧
      (∃ cm ∈ compiled.methods, ∃ site, site ∈ cm.sites) ∧
        s.table.lookup (Sample.divided 2).baseType = none := by
  constructor
  · obtain ⟨compiled, hcompile, cm, hcm, hsite⟩ := Sample.compile_divided 1 (.inl rfl)
    refine ⟨compiled, _, hcompile, cm, hcm, _, hsite, ⟨2⟩, ?_, ?_⟩ <;> decide +kernel
  · obtain ⟨compiled, hcompile, cm, hcm, hsite⟩ := Sample.compile_divided 2 (.inr rfl)
    exact ⟨compiled, _, hcompile, ⟨cm, hcm, _, hsite⟩, by decide +kernel⟩

end Session

end FieldUpdater
