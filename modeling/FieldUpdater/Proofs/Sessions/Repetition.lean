import FieldUpdater.Proofs.Compile.Order
import FieldUpdater.Proofs.Compile.Repetition
import FieldUpdater.Proofs.Sessions.Completion
import FieldUpdater.Proofs.Sessions.Memoization

/-!
# Compiling a class again in a session

Whatever is done in a session, the table goes on from where it was by table operations, and the
accessors that are entered stay so. A class of the table therefore always names the same fields,
and compiling it once more, in any build with the same settings, gives the same code.
-/

namespace FieldUpdater

namespace Session

variable {s s' : Session} {u v : Nat} {c : SourceClass} {compiled : CompiledClass}
  {action : Action}

/-- Nothing that is done loses a class or an accessor. -/
theorem Acts.grows (h : s.Acts action s') : s.Grows s' := by
  cases h with
  | idle => exact ⟨.refl _, fun _ _ h => h⟩
  | table _ hevolves hregistry _ => exact ⟨hevolves.extends, hregistry ▸ fun _ _ h => h⟩
  | @reached u _ _ _ _ hasked =>
    have hgrows := hasked.keeps (P := Workspace.Grows ⟨s.table, s.registry, (s.builds u).pending⟩)
      (fun space f h => h.trans (space.grows_synthesize _ f)) (.refl _)
    exact ⟨hgrows.table, hgrows.entry⟩

/-- Whatever is done to the table is done by table operations. -/
theorem Acts.evolves (h : s.Acts action s') : s.table.Evolves s'.table := by
  cases h with
  | idle => exact .refl
  | table _ hevolves _ _ => exact hevolves
  | reached _ _ hasked =>
    exact hasked.keeps (P := fun space => s.table.Evolves space.table)
      (fun space f h => h.trans (space.evolves_synthesize _ f)) .refl

/-- What holds of one action holds of any number of them. -/
theorem evolves_actAll (s : Session) (actions : List Action) :
    s.table.Evolves (s.actAll actions).table ∧ s.Grows (s.actAll actions) := by
  induction actions generalizing s with
  | nil => exact ⟨.refl, .refl _, fun _ _ h => h⟩
  | cons action actions ih =>
    obtain ⟨hevolves, hgrows⟩ := ih (s.act action)
    have hfirst := (s.acts action).grows
    exact ⟨(s.acts action).evolves.trans hevolves, hfirst.table.trans hgrows.table,
      fun key a h => hgrows.entry key a (hfirst.entry key a h)⟩

/-- Compiling again gives the same code. A class of the table that was compiled in some build is
compiled to the same in any build with the same settings, whatever has been done in between, and
nothing of the session changes. -/
theorem compile_again (ht : s.table.Reachable) (hthis : c.thisClass.index < s.table.size)
    (h : s.compile u c = (some (.ok compiled), s')) (actions : List Action)
    (hrunning : (s'.actAll actions).outcome v = none)
    (hsettings : ((s'.actAll actions).builds v).settings = (s.builds u).settings) :
    (s'.actAll actions).compile v c = (some (.ok compiled), s'.actAll actions) := by
  obtain ⟨space, hcompile, hregistry⟩ := of_compile h
  have hs' : s' = s.act (.event (.compile u c)) := by
    rw [act, perform, h]
  have hfirst := (s.acts (.event (.compile u c))).evolves
  rw [← hs'] at hfirst
  have harithmetic : (s'.actAll actions).arithmetic = s.arithmetic := by
    rw [arithmetic_actAll, hs']
    exact s.arithmetic_perform _
  obtain ⟨hevolves, hgrows⟩ := s'.evolves_actAll actions
  generalize s'.actAll actions = s'' at *
  have hstart : Compile.Underway c s.table ⟨s.table, s.registry, (s.builds u).pending⟩ :=
    @Compile.Underway.start c ⟨s.table, s.registry, (s.builds u).pending⟩ ht
  have hfinal : Compile.Underway c s.table ⟨s''.table, s''.registry, (s''.builds v).pending⟩ :=
    hstart.evolves ht (hfirst.trans hevolves) hthis
  have hremembers : Compile.Remembers space ⟨s''.table, s''.registry, (s''.builds v).pending⟩ :=
    fun key a ha => hgrows.entry key a (hregistry ▸ ha)
  have hagain := SourceClass.compile_eq_of_remembers ht hfinal hremembers hcompile
  rw [← hsettings, ← harithmetic] at hagain
  rw [compile, hrunning, Build.compile, hagain]
  exact Prod.ext rfl (reached_self s'' v)

end Session

namespace Sample

/-- Builds that share the table of the sample, of which the first has compiled the class. -/
def compiledOnce : Session :=
  ((Session.start table { tag := table.tag } fun _ => {}).compile 0 node).2

/-- Another class is defined, and the first build ends. -/
def meanwhile : List Session.Action :=
  [.event (.define { name := "Leaf" }), .event (.complete 0)]

end Sample

/-- After another class has been defined and the first build has ended, the second build compiles
the sample to what the first has compiled it to. -/
theorem Session.compile_again_node : ∃ compiled : CompiledClass, compiled.applied = 1 ∧
    (Session.start Sample.table { tag := Sample.table.tag } fun _ => {}).compile 0 Sample.node =
      (some (.ok compiled), Sample.compiledOnce) ∧
    (Sample.compiledOnce.actAll Sample.meanwhile).outcome 0 = some (.ok 1) ∧
    (Sample.compiledOnce.actAll Sample.meanwhile).compile 1 Sample.node =
      (some (.ok compiled), Sample.compiledOnce.actAll Sample.meanwhile) := by
  have hthis : Sample.node.thisClass.index < Sample.table.size := by decide +kernel
  have hended : (Sample.compiledOnce.actAll Sample.meanwhile).outcome 0 = some (.ok 1) := by
    decide +kernel
  have hrunning : (Sample.compiledOnce.actAll Sample.meanwhile).outcome 1 = none := by
    decide +kernel
  have hsettings : ((Sample.compiledOnce.actAll Sample.meanwhile).builds 1).settings = {} := by
    decide +kernel
  obtain ⟨compiled, space', hcompile, happlied⟩ :=
    exists_eq_ok_of_toOption _ Sample.applied_node
  have hfirst : (Session.start Sample.table { tag := Sample.table.tag } fun _ => {}).compile 0
      Sample.node = (some (.ok compiled), Sample.compiledOnce) := by
    refine Prod.ext ?_ rfl
    exact congrArg (fun result => some result.1) hcompile
  exact ⟨compiled, happlied, hfirst, hended, compile_again Sample.reachable_table hthis hfirst
    Sample.meanwhile hrunning hsettings⟩

end FieldUpdater
