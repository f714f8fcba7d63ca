import FieldUpdater.Execution.Heap
import FieldUpdater.Proofs.Classes.Slots
import FieldUpdater.Substitution.Build

/-!
# Completed accessors

Completing an accessor finishes its class, and a finished class stays finished in
every extension of the table. A queue that is run without failure therefore leaves all
classes of its accessors finished.
-/

namespace FieldUpdater

namespace ClassTable

/-- The class is there, and its definition is complete. -/
def IsFinished (t : ClassTable) (c : ClassId) : Prop :=
  ∃ info, t.find? c = some info ∧ info.stage = .finished

variable {t t' : ClassTable} {c : ClassId}

/-- A finished class stays finished. -/
theorem IsFinished.extends (h : t.IsFinished c) (hextends : t.Extends t') : t'.IsFinished c := by
  obtain ⟨info, hinfo, hstage⟩ := h
  obtain ⟨info', hinfo', hadvance⟩ := hextends.find? c info hinfo
  exact ⟨info', hinfo', hadvance.finished hstage⟩

/-- Finishing a class leaves it finished. -/
theorem isFinished_of_finish (h : t.finish c = .ok t') : t'.IsFinished c := by
  obtain ⟨hlt, rfl⟩ := finish_eq_ok_iff.mp h
  obtain ⟨info, hinfo⟩ := exists_find? hlt
  have hget : t.classes[c.index]? = some info := hinfo
  refine ⟨{ info with stage := .finished }, ?_, rfl⟩
  simp [ClassTable.find?, Array.getElem?_modify, hget]

/-- An instance of a finished class can be made. -/
theorem IsFinished.exists_alloc (h : t.IsFinished c) (heap : Heap) :
    ∃ o heap', heap.alloc t c = .ok (o, heap') := by
  obtain ⟨info, hinfo, hstage⟩ := h
  unfold Heap.alloc
  simp only [hinfo, hstage, reduceCtorEq, ↓reduceIte]
  exact ⟨_, _, rfl⟩

end ClassTable

namespace Accessor

variable {a : Accessor} {t t' : ClassTable}

/-- The own class of an accessor is finished and declared complete once. -/
theorem bakeClass_eq_ok_iff : a.bakeClass t = .ok t' ↔
    a.isFinalized t = false ∧ ∃ t₁, t.finish a.classId = .ok t₁ ∧ t' = t₁.bake a.classId := by
  unfold bakeClass
  by_cases hfinal : a.isFinalized t = true
  · simp [hfinal]
  · cases hfinish : t.finish a.classId with
    | error err => simp [hfinal]
    | ok t₁ =>
      simp only [hfinal, Bool.false_eq_true, ↓reduceIte, Except.ok.injEq, exists_eq_left', true_and]
      exact eq_comm

/-- Completing an accessor consists of table operations. -/
theorem evolves_complete (a : Accessor) (t : ClassTable) : t.Evolves (a.complete t).2 := by
  unfold complete
  cases hbase : t.finish a.base with
  | error err => exact .refl
  | ok t₁ =>
    have hfirst : t.Evolves t₁ := .single (.finish hbase)
    dsimp only
    cases hbake : a.bakeClass t₁ with
    | error err => exact hfirst
    | ok t₂ =>
      obtain ⟨-, t₃, hfinish, rfl⟩ := bakeClass_eq_ok_iff.mp hbake
      exact (hfirst.tail (.finish hfinish)).tail (.bake a.classId)

/-- A completed accessor has a finished class. -/
theorem isFinished_of_complete (h : a.complete t = (.ok (), t')) : t'.IsFinished a.classId := by
  unfold complete at h
  split at h
  · cases h
  · split at h
    · cases h
    · rename_i hbake
      cases h
      obtain ⟨-, t₁, hfinish, rfl⟩ := bakeClass_eq_ok_iff.mp hbake
      exact (ClassTable.isFinished_of_finish hfinish).extends (ClassTable.extends_bake t₁ a.classId)

end Accessor

namespace CompletionQueue

variable {t t' : ClassTable}

/-- Running tasks consists of table operations. -/
theorem evolves_runTasks (tasks : List (String × Accessor)) (t : ClassTable) :
    t.Evolves (runTasks (fun _ (a : Accessor) => a.complete) tasks t).2 := by
  induction tasks generalizing t with
  | nil => exact .refl
  | cons task tasks ih =>
    obtain ⟨name, a⟩ := task
    have hfirst := a.evolves_complete t
    unfold runTasks
    cases hcomplete : a.complete t with
    | mk result t₁ =>
      rw [hcomplete] at hfirst
      cases result with
      | error err => exact hfirst
      | ok _ => exact hfirst.trans (ih t₁)

/-- Tasks that are all run leave the classes of their accessors finished. -/
theorem isFinished_of_runTasks {tasks : List (String × Accessor)}
    (h : runTasks (fun _ (a : Accessor) => a.complete) tasks t = (.ok (), t')) :
    ∀ name a, (name, a) ∈ tasks → t'.IsFinished a.classId := by
  induction tasks generalizing t with
  | nil => simp
  | cons task tasks ih =>
    obtain ⟨name, a⟩ := task
    unfold runTasks at h
    cases hcomplete : a.complete t with
    | mk result t₁ =>
      rw [hcomplete] at h
      cases result with
      | error err => cases h
      | ok _ =>
        have hrun : runTasks (fun _ (a : Accessor) => a.complete) tasks t₁ = (.ok (), t') := h
        intro name' b hb
        rcases List.mem_cons.mp hb with heq | hrest
        · cases heq
          have hevolves := evolves_runTasks tasks t₁
          rw [hrun] at hevolves
          exact (Accessor.isFinished_of_complete hcomplete).extends hevolves.extends
        · exact ih h name' b hrest

end CompletionQueue

namespace Build

/-- Ending a build consists of table operations. -/
theorem evolves_complete (b : Build) (t : ClassTable) : t.Evolves (b.complete t).2 := by
  have hevolves := CompletionQueue.evolves_runTasks b.pending.tasks.toList t
  unfold complete CompletionQueue.run
  split <;> rename_i heq <;> simpa only [heq] using hevolves

/-- The end of a build extends the table. -/
theorem extends_of_complete {b : Build} {t t' : ClassTable} {result : Except CompletionError Nat}
    (h : b.complete t = (result, t')) : t.Extends t' := by
  have hevolves := b.evolves_complete t
  rw [h] at hevolves
  exact hevolves.extends

/-- A build that ends without failure leaves the classes of its accessors finished. -/
theorem isFinished_of_complete {b : Build} {t t' : ClassTable} {n : Nat}
    (h : b.complete t = (.ok n, t')) :
    ∀ name a, (name, a) ∈ b.pending.tasks.toList → t'.IsFinished a.classId := by
  unfold complete CompletionQueue.run at h
  split at h
  · cases h
  · rename_i hrun
    cases h
    exact CompletionQueue.isFinished_of_runTasks hrun

end Build

end FieldUpdater
