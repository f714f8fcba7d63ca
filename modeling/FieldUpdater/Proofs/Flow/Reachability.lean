import FieldUpdater.Proofs.Compile.Window
import Mathlib.Data.List.Perm.Basic

/-!
# Exact flow flags

Control goes from an instruction to the next one, unless it is a terminator, and to the target
of a branch. What it can come to from the first instruction and from the entries of handlers is
what the walk over the code marks: a round of the walk takes one of the pending indices, whichever,
and either passes it over or marks it and adds what control can go to from there. The marks stay
sound, and what follows a marked instruction stays marked or pending. Each round makes twice the
number of unmarked instructions plus the number of pending indices smaller, so that the walk ends,
and what it ends with does not depend on the order in which it takes the indices.
-/

namespace FieldUpdater

namespace Flow

/-- The instruction at an index is a branch with a target. -/
def JumpsTo (code : Array Instr) (index target : Nat) : Prop :=
  ∃ i, code[index]? = some i ∧ i.opcode.isBranch = true ∧ i.target? = some target

/-- The instruction at an index is no terminator. -/
def FallsThrough (code : Array Instr) (index : Nat) : Prop :=
  ∃ i, code[index]? = some i ∧ i.opcode.isTerminator = false

/-- Control can go from one index to another. -/
inductive Follows (code : Array Instr) : Nat → Nat → Prop
  /-- To the next instruction, unless this one is a terminator. -/
  | next {index : Nat} (falls : FallsThrough code index) : Follows code index (index + 1)
  /-- To the target of a branch. -/
  | jump {index target : Nat} (jumps : JumpsTo code index target) : Follows code index target

/-- Control begins at the first instruction or at the entry of a handler. -/
def IsEntry (handlers : List Handler) (index : Nat) : Prop :=
  index = 0 ∨ ∃ h ∈ handlers, h.entry = index

/-- Control can come to an instruction of the code. -/
inductive Reachable (code : Array Instr) (handlers : List Handler) : Nat → Prop
  /-- Control begins there. -/
  | entry {index : Nat} (entry : IsEntry handlers index) (inside : index < code.size) :
      Reachable code handlers index
  /-- Control goes there from another instruction that it can come to. -/
  | step {index index' : Nat} (before : Reachable code handlers index)
      (follows : Follows code index index') (inside : index' < code.size) :
      Reachable code handlers index'

/-- The flags of a method say exactly what control flow does. -/
structure Exact (code : Array Instr) (handlers : List Handler) (result : Array FlowFlags) :
    Prop where
  /-- Each instruction has its flags. -/
  size : result.size = code.size
  /-- A branch target is what some branch of the code or some handler names. -/
  branchTarget : ∀ index f, result[index]? = some f → (f.branchTarget = true ↔
    (∃ source, JumpsTo code source index) ∨ ∃ h ∈ handlers, h.entry = index)
  /-- Reachable is what control can come to. -/
  reachable : ∀ index f, result[index]? = some f →
    (f.reachable = true ↔ Reachable code handlers index)

/-- Two methods differ at most in branch targets and handler entries outside the code, as far as
control is concerned. -/
structure AgreeInside (code code' : Array Instr) (handlers handlers' : List Handler) : Prop where
  size : code'.size = code.size
  falls : ∀ index, FallsThrough code' index ↔ FallsThrough code index
  jumps : ∀ index target, target < code.size →
    (JumpsTo code' index target ↔ JumpsTo code index target)
  entries : ∀ index < code.size,
    ((∃ h ∈ handlers', h.entry = index) ↔ ∃ h ∈ handlers, h.entry = index)

variable {code code' : Array Instr} {handlers handlers' : List Handler} {index : Nat}

/-- The successors of an instruction are where control can go from it. -/
theorem mem_successors_iff {index' : Nat} :
    index' ∈ successors code index ↔ Follows code index index' := by
  unfold successors
  constructor
  · cases hi : code[index]? with
    | none => simp
    | some i =>
      simp only [List.mem_append, Option.mem_toList]
      rintro (htarget | hnext)
      · exact .jump ⟨i, hi, Instr.branchTarget?_eq_some_iff.mp htarget⟩
      · split at hnext
        · cases hnext
        · rename_i hfalls
          rw [List.mem_singleton.mp hnext]
          exact .next ⟨i, hi, by simpa using hfalls⟩
  · intro h
    cases h with
    | next hfalls =>
      obtain ⟨i, hi, hfalls⟩ := hfalls
      simp [hi, hfalls]
    | jump hjumps =>
      obtain ⟨i, hi, hbranch⟩ := hjumps
      simp [hi, Instr.branchTarget?_eq_some_iff.mpr hbranch]

/-- The pending indices and the marks of a walk over the code. -/
abbrev Progress := List Nat × Array Bool

/-- A round of the walk takes one of the pending indices. -/
inductive Round (code : Array Instr) : Progress → Progress → Prop
  /-- An unmarked instruction is marked, and what control can go to from it is pending. -/
  | mark {work rest : List Nat} {seen : Array Bool} {index : Nat}
      (taken : work.Perm (index :: rest)) (clear : seen[index]? = some false) :
      Round code (work, seen) (successors code index ++ rest, seen.setIfInBounds index true)
  /-- What is marked already, or is no instruction of the code, is passed over. -/
  | skip {work rest : List Nat} {seen : Array Bool} {index : Nat}
      (taken : work.Perm (index :: rest)) (settled : seen[index]? ≠ some false) :
      Round code (work, seen) (rest, seen)

/-- A walk of some number of rounds. -/
inductive Walk (code : Array Instr) : Nat → Progress → Progress → Prop
  | nil (s : Progress) : Walk code 0 s s
  | cons {rounds : Nat} {s s' s'' : Progress} (first : Round code s s')
      (rest : Walk code rounds s' s'') : Walk code (rounds + 1) s s''

/-- Where a walk over the code of a method begins. -/
def start (code : Array Instr) (handlers : List Handler) : Progress :=
  (0 :: handlers.map Handler.entry, Array.replicate code.size false)

/-- What is left to do in a walk. -/
def weight (s : Progress) : Nat := 2 * s.2.count false + s.1.length

/-- What holds throughout a walk over the code of a method. -/
structure Walked (code : Array Instr) (handlers : List Handler) (s : Progress) : Prop where
  /-- There is one mark for each instruction. -/
  size : s.2.size = code.size
  /-- Only what control can come to is marked. -/
  marked : ∀ index, s.2[index]? = some true → Reachable code handlers index
  /-- Only what control can come to is pending. -/
  pending : ∀ index ∈ s.1, index < code.size → Reachable code handlers index
  /-- Where control begins is marked or pending. -/
  entry : ∀ index, IsEntry handlers index → index < code.size →
    s.2[index]? = some true ∨ index ∈ s.1
  /-- What follows a marked instruction is marked or pending. -/
  closed : ∀ index index', s.2[index]? = some true → Follows code index index' →
    index' < code.size → s.2[index']? = some true ∨ index' ∈ s.1

variable {s s' : Progress} {seen : Array Bool} {rounds : Nat}

/-- Each round leaves less to do. -/
theorem Round.weight_lt (h : Round code s s') : weight s' < weight s := by
  cases h with
  | @mark work rest seen index htaken hclear =>
    have hsuccessors := length_successors_le code index
    have hcount := count_set_lt hclear
    have hlength : work.length = rest.length + 1 := htaken.length_eq
    simp only [weight, List.length_append]
    omega
  | @skip work rest seen index htaken hsettled =>
    have hlength : work.length = rest.length + 1 := htaken.length_eq
    simp only [weight]
    omega

/-- There are no more rounds than there is to do. -/
theorem Walk.rounds_le (h : Walk code rounds s s') : rounds + weight s' ≤ weight s := by
  induction h with
  | nil s => omega
  | cons hfirst hrest ih =>
    have hless := hfirst.weight_lt
    omega

theorem weight_start (code : Array Instr) (handlers : List Handler) :
    weight (start code handlers) = 2 * code.size + handlers.length + 1 := by
  simp [weight, start, Array.count_replicate_self, Nat.add_assoc]

/-- Exploring is a walk, which takes the pending indices in their order. -/
theorem exists_walk_explore (code : Array Instr) (work : List Nat) (seen : Array Bool) :
    ∃ rounds, Walk code rounds (work, seen) ([], explore code work seen) := by
  fun_induction explore code work seen with
  | case1 seen => exact ⟨0, .nil _⟩
  | case2 seen index rest hclear ih =>
    obtain ⟨rounds, hwalk⟩ := ih
    exact ⟨rounds + 1, .cons (.mark (.refl _) hclear) hwalk⟩
  | case3 seen index rest hsettled ih =>
    obtain ⟨rounds, hwalk⟩ := ih
    exact ⟨rounds + 1, .cons (.skip (.refl _) hsettled) hwalk⟩

theorem walked_start (code : Array Instr) (handlers : List Handler) :
    Walked code handlers (start code handlers) where
  size := Array.size_replicate
  marked index h := by simp [start, Array.getElem?_replicate] at h
  pending index hmem hlt := by
    refine .entry ?_ hlt
    simpa [start, IsEntry] using hmem
  entry index hentry _ := .inr (by simpa [start, IsEntry] using hentry)
  closed index index' h := by simp [start, Array.getElem?_replicate] at h

/-- Each round keeps what holds throughout a walk. -/
theorem Walked.round (h : Walked code handlers s) (hround : Round code s s') :
    Walked code handlers s' := by
  cases hround with
  | @mark work rest seen index htaken hclear =>
    have hlt : index < code.size := h.size ▸ (Array.getElem?_eq_some_iff.mp hclear).1
    have hindex : Reachable code handlers index :=
      h.pending index (htaken.mem_iff.mpr (by simp)) hlt
    -- The marks are those before and that of the index taken.
    have hmarks (k : Nat) : (seen.setIfInBounds index true)[k]? = some true ↔
        seen[k]? = some true ∨ k = index := by
      rw [Array.getElem?_setIfInBounds]
      by_cases hk : index = k
      · subst hk
        simp [h.size ▸ hlt]
      · simp [hk, Ne.symm hk]
    -- What was marked or pending is so still.
    have hkept (k : Nat) (hk : seen[k]? = some true ∨ k ∈ work) :
        (seen.setIfInBounds index true)[k]? = some true ∨ k ∈ successors code index ++ rest := by
      rw [hmarks, List.mem_append]
      rcases hk with hk | hk
      · exact .inl (.inl hk)
      · rcases List.mem_cons.mp (htaken.mem_iff.mp hk) with rfl | hk
        · exact .inl (.inr rfl)
        · exact .inr (.inr hk)
    refine ⟨Array.size_setIfInBounds.trans h.size, ?_, ?_, ?_, ?_⟩
    · intro k hk
      rcases (hmarks k).mp hk with hk | rfl
      · exact h.marked k hk
      · exact hindex
    · intro k hk hinside
      rcases List.mem_append.mp hk with hk | hk
      · exact .step hindex (mem_successors_iff.mp hk) hinside
      · exact h.pending k (htaken.mem_iff.mpr (List.mem_cons_of_mem _ hk)) hinside
    · intro k hentry hinside
      exact hkept k (h.entry k hentry hinside)
    · intro k k' hk hfollows hinside
      rcases (hmarks k).mp hk with hk | rfl
      · exact hkept k' (h.closed k k' hk hfollows hinside)
      · exact .inr (List.mem_append_left rest (mem_successors_iff.mpr hfollows))
  | @skip work rest seen index htaken hsettled =>
    -- The index taken is marked, if it is one of the code.
    have hkept (k : Nat) (hinside : k < code.size) (hk : seen[k]? = some true ∨ k ∈ work) :
        seen[k]? = some true ∨ k ∈ rest := by
      rcases hk with hk | hk
      · exact .inl hk
      · rcases List.mem_cons.mp (htaken.mem_iff.mp hk) with rfl | hk
        · have hsize : k < seen.size := h.size.symm ▸ hinside
          rw [Array.getElem?_eq_getElem hsize] at hsettled ⊢
          cases hmark : seen[k] with
          | true => exact .inl rfl
          | false => exact absurd (congrArg some hmark) hsettled
        · exact .inr hk
    refine ⟨h.size, h.marked, ?_, ?_, ?_⟩
    · intro k hk hinside
      exact h.pending k (htaken.mem_iff.mpr (List.mem_cons_of_mem _ hk)) hinside
    · intro k hentry hinside
      exact hkept k hinside (h.entry k hentry hinside)
    · intro k k' hk hfollows hinside
      exact hkept k' hinside (h.closed k k' hk hfollows hinside)

/-- It holds at every state of a walk from the start. -/
theorem Walked.walk (h : Walked code handlers s) (hwalk : Walk code rounds s s') :
    Walked code handlers s' := by
  induction hwalk with
  | nil s => exact h
  | cons hfirst _ ih => exact ih (h.round hfirst)

/-- When nothing is pending, what control can come to is marked. -/
theorem Walked.marked_of_reachable (h : Walked code handlers ([], seen))
    (hindex : Reachable code handlers index) : seen[index]? = some true := by
  induction hindex with
  | entry hentry hinside => exact (h.entry _ hentry hinside).resolve_right List.not_mem_nil
  | step _ hfollows hinside ih =>
    exact (h.closed _ _ ih hfollows hinside).resolve_right List.not_mem_nil

/-- When nothing is pending, exactly what control can come to is marked. -/
theorem Walked.marked_iff (h : Walked code handlers ([], seen)) :
    seen[index]? = some true ↔ Reachable code handlers index :=
  ⟨h.marked index, h.marked_of_reachable⟩

/-- All walks that have come to an end have the same marks. -/
theorem Walked.eq {seen' : Array Bool} (h : Walked code handlers ([], seen))
    (h' : Walked code handlers ([], seen')) : seen' = seen := by
  apply Array.ext (h'.size.trans h.size.symm)
  intro k hk' hk
  rw [Bool.eq_iff_iff]
  have hmarks : seen'[k]? = some true ↔ seen[k]? = some true :=
    h'.marked_iff.trans h.marked_iff.symm
  simpa [Array.getElem?_eq_getElem hk, Array.getElem?_eq_getElem hk'] using hmarks

/-- The marks that exploring the code of a method ends with. -/
theorem walked_explore (code : Array Instr) (handlers : List Handler) :
    Walked code handlers
      ([], explore code (start code handlers).1 (start code handlers).2) := by
  obtain ⟨rounds, hwalk⟩ := exists_walk_explore code (start code handlers).1 (start code handlers).2
  exact (walked_start code handlers).walk hwalk

/-- What the jumps and handlers of a method name. -/
theorem mem_targets_iff_jumpsTo : index ∈ targets code handlers ↔
    (∃ source, JumpsTo code source index) ∨ ∃ h ∈ handlers, h.entry = index := by
  rw [mem_targets_iff]
  refine or_congr_left ⟨?_, ?_⟩
  · rintro ⟨i, hmem, htarget⟩
    obtain ⟨source, hi⟩ := Array.mem_iff_getElem?.mp hmem
    exact ⟨source, i, hi, Instr.branchTarget?_eq_some_iff.mp htarget⟩
  · rintro ⟨source, i, hi, hbranch⟩
    exact ⟨i, Array.mem_of_getElem? hi, Instr.branchTarget?_eq_some_iff.mpr hbranch⟩

/-- The reachable instructions are those that exploring marks. -/
theorem map_reachable_flags (code : Array Instr) (handlers : List Handler) :
    (flags code handlers).map FlowFlags.reachable =
      explore code (start code handlers).1 (start code handlers).2 := by
  have hsize := (walked_explore code handlers).size
  apply Array.ext
  · rw [Array.size_map, size_flags, hsize]
  · intro k hk hk'
    obtain ⟨reachable, hreached, hflags⟩ := getElem?_flags (hsize ▸ hk') handlers
    rw [Array.getElem_map, (Array.getElem?_eq_some_iff.mp hflags).2]
    exact ((Array.getElem?_eq_some_iff.mp hreached).2).symm

/-- The flags of a method are exact. -/
theorem exact_flags (code : Array Instr) (handlers : List Handler) :
    Exact code handlers (flags code handlers) := by
  refine ⟨size_flags code handlers, fun index f hf => ?_, fun index f hf => ?_⟩
  · have hlt : index < code.size := size_flags code handlers ▸ (Array.getElem?_eq_some_iff.mp hf).1
    obtain ⟨reachable, -, hflags⟩ := getElem?_flags hlt handlers
    obtain rfl := Option.some.inj (hf.symm.trans hflags)
    rw [decide_eq_true_iff, mem_targets_iff_jumpsTo]
  · have hmark : (explore code (start code handlers).1 (start code handlers).2)[index]? =
        some f.reachable := by
      rw [← map_reachable_flags, Array.getElem?_map, hf, Option.map_some]
    rw [← (walked_explore code handlers).marked_iff, hmark, Option.some.injEq]

theorem AgreeInside.symm (h : AgreeInside code code' handlers handlers') :
    AgreeInside code' code handlers' handlers where
  size := h.size.symm
  falls index := (h.falls index).symm
  jumps index target hlt := (h.jumps index target (h.size ▸ hlt)).symm
  entries index hlt := (h.entries index (h.size ▸ hlt)).symm

/-- Control comes to the same instructions of methods that agree inside the code. -/
theorem AgreeInside.reachable (h : AgreeInside code code' handlers handlers')
    (hindex : Reachable code handlers index) : Reachable code' handlers' index := by
  induction hindex with
  | entry hentry hinside =>
    exact .entry (hentry.imp_right (h.entries _ hinside).mpr) (h.size ▸ hinside)
  | step _ hfollows hinside ih =>
    apply Reachable.step ih _ (h.size ▸ hinside)
    cases hfollows with
    | next hfalls => exact .next ((h.falls _).mpr hfalls)
    | jump hjumps => exact .jump ((h.jumps _ _ hinside).mpr hjumps)

/-- Methods that agree inside the code have the same flags. -/
theorem Exact.eq_of_agreeInside {result result' : Array FlowFlags} (h : Exact code handlers result)
    (h' : Exact code' handlers' result') (hagree : AgreeInside code code' handlers handlers') :
    result' = result := by
  have hsize : result'.size = result.size := h'.size.trans (hagree.size.trans h.size.symm)
  apply Array.ext hsize
  intro k hk' hk
  have hlt : k < code.size := h.size ▸ hk
  have htarget := h.branchTarget k _ (Array.getElem?_eq_getElem hk)
  have htarget' := h'.branchTarget k _ (Array.getElem?_eq_getElem hk')
  have hreachable := h.reachable k _ (Array.getElem?_eq_getElem hk)
  have hreachable' := h'.reachable k _ (Array.getElem?_eq_getElem hk')
  have hnamed : (∃ source, JumpsTo code' source k) ↔ ∃ source, JumpsTo code source k :=
    exists_congr fun source => hagree.jumps source k hlt
  rw [hnamed, hagree.entries k hlt, ← htarget] at htarget'
  have hsame : Reachable code' handlers' k ↔ Reachable code handlers k :=
    ⟨hagree.symm.reachable, hagree.reachable⟩
  rw [hsame, ← hreachable] at hreachable'
  have hfields (f f' : FlowFlags) (h₁ : f'.branchTarget = f.branchTarget)
      (h₂ : f'.reachable = f.reachable) : f' = f := by
    cases f
    cases f'
    simp_all
  exact hfields _ _ (Bool.eq_iff_iff.mpr htarget') (Bool.eq_iff_iff.mpr hreachable')

/-- The flags are exact: each instruction has its flags, a branch target is what a branch or a
handler names, and reachable is what control can come to. What branches and handlers name outside
the code changes no flag. The walk that finds the reachable instructions ends, after at most twice
as many rounds as there are instructions and one for each place where control begins; in whatever
order it takes the pending indices, it ends with the reachable instructions marked. -/
theorem flags_exact (code : Array Instr) (handlers : List Handler) :
    Exact code handlers (flags code handlers) ∧
    (∀ code' handlers', AgreeInside code code' handlers handlers' →
      flags code' handlers' = flags code handlers) ∧
    (∀ rounds s, Walk code rounds (start code handlers) s →
      rounds ≤ 2 * code.size + handlers.length + 1) ∧
    (∃ rounds seen, Walk code rounds (start code handlers) ([], seen)) ∧
    ∀ rounds seen, Walk code rounds (start code handlers) ([], seen) →
      seen = (flags code handlers).map FlowFlags.reachable := by
  refine ⟨exact_flags code handlers, fun code' handlers' hagree => ?_, fun rounds s hwalk => ?_,
    ?_, fun rounds seen hwalk => ?_⟩
  · exact (exact_flags code handlers).eq_of_agreeInside (exact_flags code' handlers') hagree
  · have hrounds := hwalk.rounds_le
    rw [weight_start] at hrounds
    omega
  · obtain ⟨rounds, hwalk⟩ :=
      exists_walk_explore code (start code handlers).1 (start code handlers).2
    exact ⟨rounds, _, hwalk⟩
  · rw [map_reachable_flags]
    exact (walked_explore code handlers).eq ((walked_start code handlers).walk hwalk)

/-- A method that ends in a loop. Before the loop is code that control cannot come to, with a jump
out of the method. -/
def looping : Array Instr :=
  #[⟨.goto, .target 3⟩, ⟨.nop, .none⟩, ⟨.goto, .target 9⟩, ⟨.aconstNull, .none⟩,
    ⟨.ifnull, .target 3⟩, ⟨.ret, .none⟩]

/-- Control comes to the end of the method but not to the code before the loop. A handler outside
the code changes nothing. -/
theorem flags_exact_looping :
    Reachable looping [⟨0, 1, 40⟩] 5 ∧ ¬ Reachable looping [⟨0, 1, 40⟩] 2 ∧
      flags looping [⟨0, 1, 40⟩] = flags looping [] := by
  obtain ⟨hexact, -⟩ := flags_exact looping [⟨0, 1, 40⟩]
  have hend : (flags looping [⟨0, 1, 40⟩])[5]? = some ⟨false, true⟩ := by decide +kernel
  have hdead : (flags looping [⟨0, 1, 40⟩])[2]? = some ⟨false, false⟩ := by decide +kernel
  refine ⟨(hexact.reachable 5 _ hend).mp rfl, ?_, ?_⟩
  · intro hreachable
    cases (hexact.reachable 2 _ hdead).mpr hreachable
  · refine (flags_exact looping []).2.1 looping [⟨0, 1, 40⟩]
      ⟨rfl, fun _ => .rfl, fun _ _ _ => .rfl, fun index hlt => ?_⟩
    have hsize : looping.size = 6 := rfl
    simp only [List.mem_singleton, exists_eq_left, List.not_mem_nil, false_and, exists_false,
      iff_false]
    omega

end Flow

end FieldUpdater
