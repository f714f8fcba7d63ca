import FieldUpdater.Proofs.Accessors.History

/-!
# Requests with creators of any kind

A request brings its own creator, which may have effects, may fail and may return any accessor at
all, also one that is entered under another key. What the registry then holds is told by the runs
of the creators: an accessor for each run that succeeded, under the key of the run, and for each
class the last accessor made with it. Accessors may share a class, so that the index by class can
be smaller than the one by field.
-/

namespace FieldUpdater

namespace Registry

/-- A request for the accessor of a key, with what is to run when there is none. -/
structure Request (State Error : Type) where
  key : FieldKey
  create : State → Except Error Accessor × State

/-- The runs of creators in their order, with their keys and results. -/
abbrev Runs (Error : Type) := List (FieldKey × Except Error Accessor)

variable {State Error : Type}

/-- The request whose creator also takes down that it ran. -/
def Request.recorded (q : Request State Error) : Request (State × Runs Error) Error where
  key := q.key
  create := fun (s, runs) => ((q.create s).1, (q.create s).2, runs ++ [(q.key, (q.create s).1)])

/-- Answer requests one after the other. -/
def answerAll : List (Request State Error) → Registry → State →
    List (Except Error Accessor) × Registry × State
  | [], r, s => ([], r, s)
  | q :: qs, r, s =>
    let (answer, r, s) := r.findOrCreate q.key q.create s
    let (answers, r, s) := answerAll qs r s
    (answer :: answers, r, s)

/-- The accessors that runs have made, with the keys of the runs. -/
def made (runs : Runs Error) : List (FieldKey × Accessor) :=
  runs.filterMap fun run => run.2.toOption.map (run.1, ·)

/-- How a request ends when its creator takes down that it ran. -/
inductive Answered (r : Registry) (q : Request State Error) (s : State) (runs : Runs Error) :
    Except Error Accessor × Registry × State × Runs Error → Prop
  /-- There is an entry. -/
  | found {a : Accessor} (entry : r.find? q.key = some a) : Answered r q s runs (.ok a, r, s, runs)
  /-- The creator has run and has failed. -/
  | failed {err : Error} {s' : State} (absent : r.find? q.key = none)
      (run : q.create s = (.error err, s')) :
      Answered r q s runs (.error err, r, s', runs ++ [(q.key, .error err)])
  /-- The creator has run and has made an accessor. -/
  | made {a : Accessor} {s' : State} (absent : r.find? q.key = none)
      (run : q.create s = (.ok a, s')) :
      Answered r q s runs (.ok a, r.insert q.key a, s', runs ++ [(q.key, .ok a)])

/-- The last accessor with a class among those made. -/
def IsNewest (c : ClassId) (a : Accessor) (entries : List (FieldKey × Accessor)) : Prop :=
  ∃ older key newer, entries = older ++ (key, a) :: newer ∧ a.classId = c ∧
    ∀ e ∈ newer, e.2.classId ≠ c

/-- A registry has what runs of creators have made. -/
structure Follows (r : Registry) (runs : Runs Error) : Prop where
  size : r.size = runs.countP (·.2.isOk)
  created : r.created = runs.countP (·.2.isOk)
  find? : ∀ key a, r.find? key = some a ↔ (key, .ok a) ∈ runs
  newest : ∀ c a, r.ofClass? c = some a ↔ IsNewest c a (made runs)
  present : ∀ c, (∃ a, r.ofClass? c = some a) ↔ ∃ key a, r.find? key = some a ∧ a.classId = c
  entry : ∀ c a, r.ofClass? c = some a → ∃ key, r.find? key = some a

variable {r r' : Registry} {q : Request State Error} {qs : List (Request State Error)}
  {s s' : State} {runs runs' : Runs Error} {key : FieldKey} {a b : Accessor} {c : ClassId}
  {answer : Except Error Accessor} {answers : List (Except Error Accessor)}

theorem key_recorded : q.recorded.key = q.key := rfl

/-- Every request ends in one of these ways. -/
theorem answered (r : Registry) (q : Request State Error) (s : State) (runs : Runs Error) :
    Answered r q s runs (r.findOrCreate q.key q.recorded.create (s, runs)) := by
  unfold findOrCreate Request.recorded
  cases hentry : r.find? q.key with
  | some a => exact .found hentry
  | none =>
    cases hrun : q.create s with
    | mk result s' =>
      cases result with
      | error err => simpa only [hrun] using .failed hentry hrun
      | ok a => simpa only [hrun] using .made hentry hrun

/-- Taking down that a creator ran changes nothing else. -/
theorem findOrCreate_recorded (r : Registry) (q : Request State Error) (s : State)
    (runs : Runs Error) :
    Prod.map id (Prod.map id Prod.fst) (r.findOrCreate q.key q.recorded.create (s, runs)) =
      r.findOrCreate q.key q.create s := by
  unfold findOrCreate Request.recorded
  cases r.find? q.key with
  | some a => rfl
  | none =>
    cases hrun : q.create s with
    | mk result s' => cases result <;> simp only [hrun] <;> rfl

/-- An entry stays. -/
theorem find?_findOrCreate (h : r.find? key = some a) :
    (r.findOrCreate q.key q.create s).2.1.find? key = some a := by
  unfold findOrCreate
  cases hentry : r.find? q.key with
  | some b => exact h
  | none =>
    cases hrun : q.create s with
    | mk result s' =>
      cases result with
      | error err => exact h
      | ok b => exact find?_insert_of_absent hentry h

theorem made_append_error (runs : Runs Error) (key : FieldKey) (err : Error) :
    made (runs ++ [(key, .error err)]) = made runs := by
  simp [made, Except.toOption]

theorem made_append_ok (runs : Runs Error) (key : FieldKey) (a : Accessor) :
    made (runs ++ [(key, .ok a)]) = made runs ++ [(key, a)] := by
  simp [made, Except.toOption]

theorem mem_made : (key, a) ∈ made runs ↔ (key, .ok a) ∈ runs := by
  rw [made, List.mem_filterMap]
  constructor
  · rintro ⟨⟨key', result⟩, hmem, hmade⟩
    cases result with
    | error err => cases hmade
    | ok b =>
      obtain ⟨rfl, rfl⟩ := Prod.mk.inj (Option.some.inj hmade)
      exact hmem
  · exact fun hmem => ⟨_, hmem, rfl⟩

theorem length_made (runs : Runs Error) : (made runs).length = runs.countP (·.2.isOk) := by
  rw [made, List.length_filterMap_eq_countP]
  refine List.countP_congr fun run _ => ?_
  obtain ⟨key, result⟩ := run
  cases result <;> simp [Except.toOption, Except.isOk, Except.toBool]

/-- Both indices list what runs have made, the newest first, and no two runs have made an accessor
for one key. -/
structure Lists (r : Registry) (runs : Runs Error) : Prop where
  byField : r.byField = (made runs).reverse
  byClass : r.byClass = (made runs).reverse.map fun e => (e.2.classId, e.2)
  created : r.created = (made runs).length
  keys : (r.byField.map (·.1)).Nodup

/-- A request keeps the registry in step with the runs. -/
theorem Lists.answered (h : r.Lists runs)
    (hanswered : Answered r q s runs (answer, r', s', runs')) : r'.Lists runs' := by
  cases hanswered with
  | found _ => exact h
  | failed _ _ =>
    obtain ⟨hfield, hclass, hcreated, hkeys⟩ := h
    refine ⟨?_, ?_, ?_, hkeys⟩ <;> rw [made_append_error] <;> assumption
  | @made a _ habsent _ =>
    refine ⟨?_, ?_, ?_, keys_insert habsent h.keys⟩
    · rw [made_append_ok, List.reverse_append, insert, h.byField]
      rfl
    · rw [made_append_ok, List.reverse_append, insert, h.byClass]
      rfl
    · rw [made_append_ok, List.length_append, insert, h.created]
      rfl

/-- The accessor found by a class is the last one made with it. -/
theorem Lists.ofClass?_eq_some_iff (h : r.Lists runs) :
    r.ofClass? c = some a ↔ IsNewest c a (made runs) := by
  rw [ofClass?, h.byClass, List.lookup_eq_some_iff]
  constructor
  · rintro ⟨newer, older, heq, hother⟩
    obtain ⟨newerEntries, rest, hsplit, rfl, hrest⟩ := List.map_eq_append_iff.mp heq
    obtain ⟨⟨key, b⟩, olderEntries, rfl, hpair, -⟩ := List.map_eq_cons_iff.mp hrest
    obtain ⟨hclass, rfl⟩ := Prod.mk.inj hpair
    refine ⟨olderEntries.reverse, key, newerEntries.reverse, ?_, hclass, fun e he hsame => ?_⟩
    · rw [List.reverse_eq_iff.mp hsplit]
      simp
    · have hne := hother _ (List.mem_map_of_mem (List.mem_reverse.mp he))
      simp [hsame] at hne
  · rintro ⟨older, key, newer, hsplit, rfl, hother⟩
    refine ⟨newer.reverse.map fun e => (e.2.classId, e.2),
      older.reverse.map fun e => (e.2.classId, e.2), by simp [hsplit], fun p hp => ?_⟩
    obtain ⟨e, he, rfl⟩ := List.mem_map.mp hp
    simpa using (hother e (List.mem_reverse.mp he)).symm

/-- An accessor is found for a key if a run has made it. -/
theorem Lists.find?_eq_some_iff (h : r.Lists runs) :
    r.find? key = some a ↔ (key, .ok a) ∈ runs := by
  rw [← mem_made, ← List.mem_reverse, ← h.byField]
  exact ⟨mem_of_lookup, lookup_eq_some_of_mem h.keys⟩

/-- A registry that lists what runs have made follows them. -/
theorem Lists.follows (h : r.Lists runs) : r.Follows runs := by
  have hentry : ∀ c a, r.ofClass? c = some a → ∃ key, r.find? key = some a ∧ a.classId = c := by
    intro c a hfound
    obtain ⟨older, key, newer, hsplit, hclass, -⟩ := h.ofClass?_eq_some_iff.mp hfound
    refine ⟨key, h.find?_eq_some_iff.mpr (mem_made.mp ?_), hclass⟩
    rw [hsplit]
    exact List.mem_append_right _ List.mem_cons_self
  have hcount := length_made runs
  refine ⟨?_, h.created.trans hcount, fun _ _ => h.find?_eq_some_iff,
    fun _ _ => h.ofClass?_eq_some_iff, fun c => ⟨?_, ?_⟩, ?_⟩
  · rw [size, h.byField, List.length_reverse, hcount]
  · rintro ⟨a, hfound⟩
    obtain ⟨key, hkey, hclass⟩ := hentry c a hfound
    exact ⟨key, a, hkey, hclass⟩
  · rintro ⟨key, a, hkey, rfl⟩
    cases hfound : r.ofClass? a.classId with
    | some b => exact ⟨b, rfl⟩
    | none =>
      have hmem : (a.classId, a) ∈ r.byClass := by
        rw [h.byClass, ← h.byField]
        exact List.mem_map_of_mem (mem_of_lookup hkey)
      have hne := List.lookup_eq_none_iff.mp hfound _ hmem
      simp at hne
  · intro c a hfound
    obtain ⟨key, hkey, -⟩ := hentry c a hfound
    exact ⟨key, hkey⟩

/-- Requests keep the registry in step with the runs. -/
theorem Lists.answerAll (h : r.Lists runs) (qs : List (Request State Error)) (s : State) :
    (Registry.answerAll (qs.map .recorded) r (s, runs)).2.1.Lists
      (Registry.answerAll (qs.map .recorded) r (s, runs)).2.2.2 := by
  induction qs generalizing r s runs with
  | nil => exact h
  | cons q qs ih => exact ih (h.answered (Registry.answered r q s runs)) _

/-- Taking down which creators ran changes nothing else. -/
theorem answerAll_recorded (qs : List (Request State Error)) (r : Registry) (s : State)
    (runs : Runs Error) :
    Prod.map id (Prod.map id Prod.fst) (answerAll (qs.map .recorded) r (s, runs)) =
      answerAll qs r s := by
  induction qs generalizing r s runs with
  | nil => rfl
  | cons q qs ih =>
    rw [List.map_cons, answerAll, answerAll, ← findOrCreate_recorded r q s runs, key_recorded]
    generalize r.findOrCreate q.key q.recorded.create (s, runs) = out
    obtain ⟨answer, r', s', runs'⟩ := out
    simp only [Prod.map_apply, id_eq, ← ih r' s' runs']
    rfl

/-- An entry stays, and answers all requests for its key. -/
theorem answerAll_found (h : r.find? key = some a) (qs : List (Request State Error)) (s : State) :
    (answerAll qs r s).2.1.find? key = some a ∧
      ∀ (i : Nat) (q : Request State Error), qs[i]? = some q → q.key = key →
        (answerAll qs r s).1[i]? = some (.ok a) := by
  induction qs generalizing r s with
  | nil => exact ⟨h, by simp⟩
  | cons q qs ih =>
    obtain ⟨hstays, hanswers⟩ := ih (find?_findOrCreate (q := q) (s := s) h) _
    refine ⟨hstays, fun i q' hi hkey => ?_⟩
    cases i with
    | zero =>
      obtain rfl : q = q' := Option.some.inj hi
      subst hkey
      simp [answerAll, findOrCreate, h]
    | succ i => exact hanswers i q' hi hkey

/-- Whatever is requested of an empty registry, with creators of any kind, the registry has what
the runs of the creators have made. A creator runs when its key has no entry and not otherwise, a
creator that fails leaves the registry as it is, and an entry stays and answers all further
requests for its key. -/
theorem answerAll_exact (tag : Nat) (qs : List (Request State Error)) (s : State) :
    ∃ answers r s' runs,
      answerAll (qs.map .recorded) { tag } (s, []) = (answers, r, s', runs) ∧
      answerAll qs { tag } s = (answers, r, s') ∧
      r.Follows runs ∧
      (∀ q : Request State Error,
        Answered r q s' runs (r.findOrCreate q.key q.recorded.create (s', runs))) ∧
      ∀ key a, r.find? key = some a → ∀ more : List (Request State Error),
        (answerAll more r s').2.1.find? key = some a ∧
        ∀ (i : Nat) (q : Request State Error), more[i]? = some q → q.key = key →
          (answerAll more r s').1[i]? = some (.ok a) := by
  have hempty : ({ tag } : Registry).Lists ([] : Runs Error) := ⟨rfl, rfl, rfl, List.nodup_nil⟩
  have hlists := hempty.answerAll qs s
  exact ⟨_, _, _, _, rfl, (answerAll_recorded qs { tag } s []).symm, hlists.follows,
    fun q => answered _ q _ _, fun key a hfound more => answerAll_found hfound more _⟩

/-- Two accessors of one class are both entered, and the later one is found by the class. -/
example :
    let body : AssembledMethod := ⟨"m", "()V", #[], [], 0⟩
    let first : Accessor := ⟨0, ⟨13⟩, "first", ⟨0⟩, Sample.next, fun _ => body, body⟩
    let second : Accessor := { first with name := "second" }
    let other : FieldKey := ⟨⟨11⟩, "other", "I"⟩
    let requests : List (Request Unit String) :=
      [⟨Sample.next.key, (.ok first, ·)⟩, ⟨other, (.error "refused", ·)⟩,
        ⟨other, (.ok second, ·)⟩, ⟨Sample.next.key, (.ok second, ·)⟩]
    let r := (answerAll requests { tag := 0 } ()).2.1
    r.size = 2 ∧ r.created = 2 ∧ (r.find? Sample.next.key).map (·.name) = some "first" ∧
      (r.ofClass? ⟨13⟩).map (·.name) = some "second" := by
  decide +kernel

end Registry

end FieldUpdater
