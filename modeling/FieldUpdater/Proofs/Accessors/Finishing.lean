import FieldUpdater.Proofs.Accessors.Completion

/-!
# What completing accessors changes

Completing an accessor finishes its class and its base class, and declares its own class complete.
No other class changes. It fails only when one of the two classes is missing or the accessor has
been completed before, so that accessors of different classes can be completed one after the
other.
-/

namespace FieldUpdater

/-- What becomes of the class of a number when accessors are completed. -/
def ClassRecord.completed (info : ClassRecord) (as : List Accessor) (c : ClassId) : ClassRecord :=
  { info with
    stage := if as.any fun a => a.classId = c ∨ a.base = c then .finished else info.stage
    baked := info.baked || as.any fun a => a.classId = c }

/-- The second table is the first one after accessors have been completed. -/
def ClassTable.Completes (t : ClassTable) (as : List Accessor) (t' : ClassTable) : Prop :=
  ∀ c, t'.find? c = (t.find? c).map (·.completed as c)

/-- Nothing stands in the way of completing the accessor. -/
structure Accessor.Completable (a : Accessor) (t : ClassTable) : Prop where
  base : a.base.index < t.size
  own : a.classId.index < t.size
  unfinished : a.isFinalized t = false

/-- A class that belongs to none of the accessors stays as it is. -/
theorem ClassRecord.completed_of_ne {info : ClassRecord} {as : List Accessor} {c : ClassId}
    (h : ∀ a ∈ as, a.classId ≠ c ∧ a.base ≠ c) : info.completed as c = info := by
  have hown : (as.any fun a => a.classId = c) = false :=
    List.any_eq_false.mpr fun a ha => by simpa using (h a ha).1
  have heither : (as.any fun a => a.classId = c ∨ a.base = c) = false :=
    List.any_eq_false.mpr fun a ha => by simpa using h a ha
  rw [completed, hown, heither, Bool.or_false]
  rfl

namespace ClassTable

variable {t t' t'' : ClassTable} {c k : ClassId} {a b : Accessor} {as : List Accessor}

/-- A class that is changed is found as changed, and every other as it was. -/
theorem find?_modify (t : ClassTable) (c k : ClassId) (f : ClassRecord → ClassRecord) :
    ({ t with classes := t.classes.modify c.index f } : ClassTable).find? k =
      (t.find? k).map fun info => if c = k then f info else info := by
  rw [find?, Array.getElem?_modify, find?]
  by_cases hk : c = k
  · simp [hk]
  · have hindex : c.index ≠ k.index := fun heq => hk (by cases c; cases k; exact congrArg _ heq)
    simp [hk, hindex]

theorem find?_finish (h : t.finish c = .ok t') (k : ClassId) : t'.find? k =
    (t.find? k).map fun info => if c = k then { info with stage := .finished } else info := by
  obtain ⟨-, rfl⟩ := finish_eq_ok_iff.mp h
  exact t.find?_modify c k _

theorem find?_bake (t : ClassTable) (c k : ClassId) : (t.bake c).find? k =
    (t.find? k).map fun info => if c = k then { info with baked := true } else info :=
  t.find?_modify c k _

theorem Completes.nil (t : ClassTable) : t.Completes [] t := by
  intro c
  simp [ClassRecord.completed]

/-- Accessors that are completed later add to those completed before. -/
theorem Completes.cons (h : t.Completes [a] t') (h' : t'.Completes as t'') :
    t.Completes (a :: as) t'' := by
  intro c
  rw [h' c, h c, Option.map_map]
  congr 1
  funext info
  by_cases hown : a.classId = c <;> by_cases hbase : a.base = c <;>
    simp [ClassRecord.completed, hown, hbase]

/-- No class comes or goes. -/
theorem Completes.size_eq (h : t.Completes as t') : t'.size = t.size := by
  have hsame (k : Nat) : k < t'.size ↔ k < t.size := by
    rw [← find?_isSome_iff (c := ⟨k⟩), ← find?_isSome_iff (c := ⟨k⟩), h, Option.isSome_map]
  have hle := (hsame t.size).not.mpr (Nat.lt_irrefl _)
  have hge := (hsame t'.size).not.mp (Nat.lt_irrefl _)
  omega

/-- Exactly the accessors that have been completed are finalized in addition. -/
theorem Completes.isFinalized (h : t.Completes as t') (hown : ∀ a ∈ as, a.classId.index < t.size)
    (b : Accessor) :
    b.isFinalized t' = (b.isFinalized t || as.any fun a => a.classId = b.classId) := by
  rw [Accessor.isFinalized, isBaked, h, Accessor.isFinalized, isBaked]
  cases hfind : t.find? b.classId with
  | some info => rfl
  | none =>
    have hno : as.any (fun a => a.classId = b.classId) = false := by
      refine List.any_eq_false.mpr fun a ha heq => ?_
      have hlt := hown a ha
      rw [of_decide_eq_true heq, ← find?_isSome_iff, hfind] at hlt
      cases hlt
    rw [hno]
    rfl

end ClassTable

namespace Accessor

variable {t t' : ClassTable} {a b : Accessor} {as : List Accessor}

/-- An accessor can be completed after one of another class. -/
theorem Completable.completes (h : b.Completable t) (hcompletes : t.Completes [a] t')
    (hown : a.classId.index < t.size) (hne : a.classId ≠ b.classId) : b.Completable t' where
  base := hcompletes.size_eq ▸ h.base
  own := hcompletes.size_eq ▸ h.own
  unfinished := by
    rw [hcompletes.isFinalized (by simpa using hown), h.unfinished]
    simp [hne]

/-- An accessor that can be completed is, and nothing else changes. -/
theorem Completable.complete_eq (h : a.Completable t) :
    ∃ t', a.complete t = (.ok (), t') ∧ t.Completes [a] t' := by
  have hbase := ClassTable.finish_eq_ok_iff.mpr ⟨h.base, rfl⟩
  generalize ({ t with classes := _ } : ClassTable) = t₁ at hbase
  have hfirst := ClassTable.find?_finish hbase
  have hopen : a.isFinalized t₁ = false := by
    rw [← h.unfinished, isFinalized, ClassTable.isBaked, hfirst, isFinalized, ClassTable.isBaked,
      Option.any_map]
    congr 1
    funext info
    split <;> rfl
  have hlt : a.classId.index < t₁.size := by
    rw [← ClassTable.find?_isSome_iff, hfirst, Option.isSome_map, ClassTable.find?_isSome_iff]
    exact h.own
  have hown := ClassTable.finish_eq_ok_iff.mpr ⟨hlt, rfl⟩
  generalize ({ t₁ with classes := _ } : ClassTable) = t₂ at hown
  refine ⟨t₂.bake a.classId, ?_, ?_⟩
  · rw [complete, hbase]
    dsimp only
    rw [bakeClass_eq_ok_iff.mpr ⟨hopen, t₂, hown, rfl⟩]
  · intro c
    rw [ClassTable.find?_bake, ClassTable.find?_finish hown, hfirst, Option.map_map,
      Option.map_map]
    congr 1
    funext info
    by_cases hc : a.classId = c <;> by_cases hc' : a.base = c <;>
      simp [ClassRecord.completed, hc, hc']

end Accessor

/-- The accessors that a build is to complete, in order. -/
def Build.accessors (b : Build) : List Accessor := b.pending.tasks.toList.map (·.2)

/-- Accessors of different classes that can be completed are all completed. -/
theorem CompletionQueue.runTasks_eq {t : ClassTable} {tasks : List (String × Accessor)}
    (hall : ∀ task ∈ tasks, task.2.Completable t)
    (hclasses : (tasks.map (·.2.classId)).Nodup) :
    ∃ t', runTasks (fun _ (a : Accessor) => a.complete) tasks t = (.ok (), t') ∧
      t.Completes (tasks.map (·.2)) t' := by
  induction tasks generalizing t with
  | nil => exact ⟨t, rfl, .nil t⟩
  | cons task tasks ih =>
    obtain ⟨hnew, hrest⟩ := List.nodup_cons.mp hclasses
    have hfirst := hall task List.mem_cons_self
    obtain ⟨t₁, hcomplete, hcompletes⟩ := hfirst.complete_eq
    have hnext : ∀ other ∈ tasks, other.2.Completable t₁ := by
      intro other hother
      refine (hall other (List.mem_cons_of_mem _ hother)).completes hcompletes hfirst.own ?_
      exact fun heq => hnew (List.mem_map.mpr ⟨other, hother, heq.symm⟩)
    obtain ⟨t', hrun, hcompletes'⟩ := ih hnext hrest
    refine ⟨t', ?_, hcompletes.cons hcompletes'⟩
    rw [runTasks, hcomplete]
    exact hrun

/-- A build whose accessors are of different classes and can be completed ends with their number,
and exactly they have been completed. -/
theorem Build.complete_eq {b : Build} {t : ClassTable}
    (hall : ∀ a ∈ b.accessors, a.Completable t) (hclasses : (b.accessors.map (·.classId)).Nodup) :
    ∃ t', b.complete t = (.ok b.accessors.length, t') ∧ t.Completes b.accessors t' := by
  obtain ⟨t', hrun, hcompletes⟩ := CompletionQueue.runTasks_eq
    (fun task htask => hall task.2 (List.mem_map_of_mem htask))
    (by simpa [accessors, Function.comp_def] using hclasses)
  refine ⟨t', ?_, hcompletes⟩
  rw [complete, CompletionQueue.run, hrun]
  simp [accessors, CompletionQueue.size]

end FieldUpdater
