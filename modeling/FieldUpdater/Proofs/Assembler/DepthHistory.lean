import FieldUpdater.Proofs.Assembler.Positions
import Mathlib.Order.Bounds.Basic

/-!
# The depths an assembler has had

The modelled depth changes with every instruction, but also without one: a source instruction
may begin with a depth that a jump recorded long before, and a handler sets its own. The largest
depth measured is that of all depths the assembler has had nonetheless, since no recorded depth
exceeds it. An instruction that is refused leaves no trace, and of several instructions those
before the first that is refused remain.
-/

namespace FieldUpdater

namespace Assembler

/-- Whether a directive appends a single instruction. -/
def Directive.isSingle : Directive → Bool
  | .append _ | .appendWith _ _ _ => true
  | _ => false

/-- The assembler after further directives, whether or not each of them succeeds. -/
def performAll (a : Assembler) (ds : List Directive) : Assembler :=
  ds.foldl (fun a d => (a.perform d).2) a

/-- The instructions that are accepted before one is refused. -/
def admitted : List Instr → Assembler → List Instr
  | [], _ => []
  | i :: is, a =>
    match a.append i with
    | (.error _, _) => []
    | (.ok (), a) => i :: admitted is a

/-- A directive, unless it appends a single instruction that is refused. -/
def unlessRefused (a : Assembler) (d : Directive) : List Directive :=
  if d.isSingle && !(a.perform d).1.isOk then [] else [d]

/-- What a directive does, step by step: instructions are appended one at a time, and what is
refused is not done. -/
def steps (a : Assembler) : Directive → List Directive
  | .appendAll is => (a.admitted is).map .append
  | d => a.unlessRefused d

/-- Directives with others in the place of each, which depend on the assembler that it meets. -/
def rewritten (f : Assembler → Directive → List Directive) :
    List Directive → Assembler → List Directive
  | [], _ => []
  | d :: ds, a => f a d ++ rewritten f ds (a.perform d).2

/-- The directives without the single instructions that are refused. -/
def accepted (mode : Arithmetic) (ds : List Directive) : List Directive :=
  rewritten unlessRefused ds { arithmetic := mode }

/-- What directives do, step by step. -/
def history (mode : Arithmetic) (ds : List Directive) : List Directive :=
  rewritten steps ds { arithmetic := mode }

/-- Each of the directives succeeds, one after the other. -/
def AllSucceed : List Directive → Assembler → Prop
  | [], _ => True
  | d :: ds, a => (a.perform d).1 = .ok () ∧ AllSucceed ds (a.perform d).2

/-- No depth exceeds the largest that was measured. -/
structure Bounded (a : Assembler) : Prop where
  depth : a.depth.toNat ≤ a.maxDepth.toNat
  recorded : ∀ (k : Nat) (depth : UInt16), a.branchDepths[k]? = some depth →
    depth.toNat ≤ a.maxDepth.toNat

variable {mode : Arithmetic} {a b : Assembler} {d : Directive} {ds ds' : List Directive}
  {i : Instr} {is p : List Instr}
  {pops pushes : UInt16} {err : AssemblyError}

theorem performAll_append (a : Assembler) (ds ds' : List Directive) :
    a.performAll (ds ++ ds') = (a.performAll ds).performAll ds' := List.foldl_append

/-- An instruction that is refused leaves the assembler as it was. -/
theorem appendWith_of_error (h : (a.appendWith i pops pushes).1 = .error err) :
    (a.appendWith i pops pushes).2 = a := by
  have hcases := a.appending i pops pushes
  generalize a.appendWith i pops pushes = result at hcases h ⊢
  cases hcases with
  | accepted _ => cases h
  | missing _ => rfl
  | overflows _ _ => rfl

theorem append_of_error (h : (a.append i).1 = .error err) : (a.append i).2 = a := by
  unfold append at h ⊢
  cases heffect : i.opcode.stackEffect with
  | none => rfl
  | some effect =>
    rw [heffect] at h
    exact appendWith_of_error h

/-- A directive for a single instruction that is refused leaves the assembler as it was. -/
theorem perform_of_error (hsingle : d.isSingle = true) (h : (a.perform d).1 = .error err) :
    (a.perform d).2 = a := by
  cases d with
  | append i => exact append_of_error h
  | appendWith i pops pushes => exact appendWith_of_error h
  | source k => cases hsingle
  | depth depth => cases hsingle
  | appendAll is => cases hsingle

/-- Leaving out a single instruction that is refused makes no difference. -/
theorem performAll_unlessRefused (a : Assembler) (d : Directive) :
    a.performAll (a.unlessRefused d) = (a.perform d).2 := by
  unfold unlessRefused
  split
  · rename_i hrefused
    obtain ⟨hsingle, herror⟩ := Bool.and_eq_true_iff.mp hrefused
    cases hanswer : (a.perform d).1 with
    | error err => exact (perform_of_error hsingle hanswer).symm
    | ok _ => simp [hanswer, Except.isOk, Except.toBool] at herror
  · rfl

/-- The accepted instructions are a beginning of those given. -/
theorem admitted_isPrefix (is : List Instr) (a : Assembler) : a.admitted is <+: is := by
  induction is generalizing a with
  | nil => exact List.nil_prefix
  | cons i is ih =>
    unfold admitted
    split
    · exact List.nil_prefix
    · exact (List.prefix_cons_inj i).mpr (ih _)

/-- Appending the accepted instructions succeeds and leaves what appending all of them leaves. -/
theorem appendAll_admitted (is : List Instr) (a : Assembler) :
    a.appendAll (a.admitted is) = (.ok (), (a.appendAll is).2) := by
  induction is generalizing a with
  | nil => rfl
  | cons i is ih =>
    unfold admitted
    cases happend : a.append i with
    | mk answer b =>
      cases answer with
      | error err =>
        have hsame : b = a := by simpa [happend] using append_of_error (congrArg Prod.fst happend)
        simp only [appendAll, happend, hsame]
      | ok _ =>
        simp only [appendAll, happend]
        exact ih b

/-- No longer beginning is accepted. -/
theorem isPrefix_admitted (hp : p <+: is) (h : (a.appendAll p).1 = .ok ()) :
    p <+: a.admitted is := by
  induction p generalizing is a with
  | nil => exact List.nil_prefix
  | cons i p ih =>
    obtain ⟨rest, rfl⟩ := hp
    unfold appendAll at h
    rw [List.cons_append, admitted]
    cases happend : a.append i with
    | mk answer b =>
      rw [happend] at h
      cases answer with
      | error err => cases h
      | ok _ => exact (List.prefix_cons_inj i).mpr (ih (List.prefix_append p rest) h)

/-- Instructions that are all accepted can be appended one at a time. -/
theorem performAll_map_append (h : (a.appendAll is).1 = .ok ()) :
    AllSucceed (is.map .append) a ∧ a.performAll (is.map .append) = (a.appendAll is).2 := by
  induction is generalizing a with
  | nil => exact ⟨trivial, rfl⟩
  | cons i is ih =>
    unfold appendAll at h ⊢
    cases happend : a.append i with
    | mk answer b =>
      rw [happend] at h
      cases answer with
      | error err => cases h
      | ok _ =>
        have hperform : a.perform (.append i) = (.ok (), b) := happend
        obtain ⟨hsucceed, hsame⟩ := ih h
        rw [List.map_cons, AllSucceed, hperform, performAll, List.foldl_cons, hperform]
        exact ⟨⟨rfl, hsucceed⟩, hsame⟩

/-- What is not refused succeeds, unless it appends several instructions. -/
theorem allSucceed_unlessRefused (hone : ∀ is, d ≠ .appendAll is) :
    AllSucceed (a.unlessRefused d) a := by
  unfold unlessRefused
  split
  · trivial
  · rename_i hkept
    refine ⟨?_, trivial⟩
    cases d with
    | source k => rfl
    | depth depth => rfl
    | appendAll is => exact absurd rfl (hone is)
    | _ =>
      cases hanswer : (a.perform _).1 with
      | ok _ => rfl
      | error err =>
        rw [hanswer] at hkept
        exact absurd rfl hkept

/-- The steps of a directive succeed and leave what the directive leaves. -/
theorem performAll_steps (a : Assembler) (d : Directive) :
    AllSucceed (a.steps d) a ∧ a.performAll (a.steps d) = (a.perform d).2 := by
  cases d with
  | appendAll is =>
    have hadmitted := appendAll_admitted is a
    obtain ⟨hsucceed, hsame⟩ := performAll_map_append (congrArg Prod.fst hadmitted)
    exact ⟨hsucceed, by rw [steps, hsame, hadmitted]; rfl⟩
  | _ => exact ⟨allSucceed_unlessRefused nofun, a.performAll_unlessRefused _⟩

/-- Directives that leave the same at each place leave the same in the end. -/
theorem performAll_rewritten {f : Assembler → Directive → List Directive}
    (hf : ∀ (a : Assembler) (d : Directive), a.performAll (f a d) = (a.perform d).2)
    (ds : List Directive) (a : Assembler) :
    a.performAll (rewritten f ds a) = a.performAll ds := by
  induction ds generalizing a with
  | nil => rfl
  | cons d ds ih =>
    rw [rewritten, performAll_append, hf, ih]
    rfl

theorem AllSucceed.append (h : AllSucceed ds a) (h' : AllSucceed ds' (a.performAll ds)) :
    AllSucceed (ds ++ ds') a := by
  induction ds generalizing a with
  | nil => exact h'
  | cons d ds ih => exact ⟨h.1, ih h.2 h'⟩

/-- All steps succeed. -/
theorem allSucceed_steps (ds : List Directive) (a : Assembler) :
    AllSucceed (rewritten steps ds a) a := by
  induction ds generalizing a with
  | nil => trivial
  | cons d ds ih =>
    obtain ⟨hsucceed, hsame⟩ := a.performAll_steps d
    exact hsucceed.append (hsame ▸ ih _)

/-- No step appends several instructions. -/
theorem appendAll_notMem_steps (ds : List Directive) (a : Assembler) :
    .appendAll is ∉ rewritten steps ds a := by
  induction ds generalizing a with
  | nil => exact List.not_mem_nil
  | cons d ds ih =>
    rw [rewritten, List.mem_append, not_or]
    refine ⟨?_, ih _⟩
    cases d with
    | appendAll is => simp [steps]
    | _ =>
      simp only [steps, unlessRefused]
      split <;> simp

theorem bounded_empty (mode : Arithmetic) : Bounded { arithmetic := mode } := ⟨le_rfl, by simp⟩

/-- Beginning a source instruction measures nothing. -/
theorem maxDepth_beginSource (a : Assembler) (k : Nat) :
    (a.beginSource k).maxDepth = a.maxDepth := by
  unfold beginSource
  dsimp only
  split <;> rfl

/-- Setting the depth measures it. -/
theorem toNat_maxDepth_resetDepth (a : Assembler) (depth : UInt16) :
    (a.resetDepth depth).maxDepth.toNat = max a.maxDepth.toNat depth.toNat :=
  UInt16.toNat_max ..

/-- A source instruction begins with the depth before it or one recorded, or without any. -/
theorem Bounded.beginSource (h : a.Bounded) (k : Nat) : (a.beginSource k).Bounded := by
  unfold Assembler.beginSource
  dsimp only
  split
  · refine ⟨?_, h.recorded⟩
    cases hrecorded : a.branchDepths[k]? with
    | none => exact Nat.zero_le _
    | some depth => exact h.recorded k depth hrecorded
  · exact ⟨h.depth, h.recorded⟩

theorem Bounded.resetDepth (h : a.Bounded) (depth : UInt16) : (a.resetDepth depth).Bounded := by
  refine ⟨?_, fun k recorded hrecorded => ?_⟩
  · rw [toNat_maxDepth_resetDepth]
    exact Nat.le_max_right ..
  · rw [toNat_maxDepth_resetDepth]
    exact (h.recorded k recorded hrecorded).trans (Nat.le_max_left ..)

/-- A jump records at most the depth before it. -/
theorem Bounded.extended (h : a.Bounded) (i : Instr) (hpops : pops.toNat ≤ a.depth.toNat)
    (pushes : UInt16) : (a.extended i pops pushes).Bounded := by
  refine ⟨?_, fun k depth hrecorded => ?_⟩
  · rw [toNat_maxDepth_extended]
    exact Nat.le_max_right ..
  · have hdepth := h.depth
    have hleft := Arithmetic.toNat_sub hpops
    rw [toNat_maxDepth_extended]
    rcases branchDepths_extended hrecorded with hold | ⟨-, rfl⟩
    · have hle := h.recorded k depth hold
      omega
    · omega

theorem Bounded.appendWith (h : a.Bounded) (i : Instr) (pops pushes : UInt16) :
    (a.appendWith i pops pushes).2.Bounded := by
  have hcases := a.appending i pops pushes
  generalize a.appendWith i pops pushes = result at hcases ⊢
  cases hcases with
  | accepted hadmitted => exact h.extended i hadmitted.enough pushes
  | missing _ => exact h
  | overflows _ _ => exact h

theorem Bounded.append (h : a.Bounded) (i : Instr) : (a.append i).2.Bounded := by
  unfold Assembler.append
  split
  · exact h
  · exact h.appendWith i _ _

theorem Bounded.appendAll (h : a.Bounded) (is : List Instr) : (a.appendAll is).2.Bounded :=
  appendAll_rel (R := fun a b => a.Bounded → b.Bounded) (fun _ h => h)
    (fun hfirst hrest h => hrest (hfirst h)) (fun _ i h => h.append i) is a h

theorem Bounded.perform (h : a.Bounded) (d : Directive) : (a.perform d).2.Bounded := by
  cases d with
  | source k => exact h.beginSource k.toNat
  | depth depth => exact h.resetDepth depth
  | append i => exact h.append i
  | appendWith i pops pushes => exact h.appendWith i pops pushes
  | appendAll is => exact h.appendAll is

/-- Whatever an assembler was told, no depth exceeds the largest that was measured. -/
theorem bounded_assembled (mode : Arithmetic) (ds : List Directive) :
    (assembled mode ds).Bounded := by
  induction ds using List.reverseRecOn with
  | nil => exact bounded_empty mode
  | append_singleton ds d ih =>
    rw [assembled_concat]
    exact ih.perform d

/-- An instruction measures the depth that it leaves. -/
theorem maxDepth_appendWith (h : a.Bounded) (i : Instr) (pops pushes : UInt16) :
    (a.appendWith i pops pushes).2.maxDepth.toNat =
      max a.maxDepth.toNat (a.appendWith i pops pushes).2.depth.toNat := by
  have hcases := a.appending i pops pushes
  generalize a.appendWith i pops pushes = result at hcases ⊢
  cases hcases with
  | accepted _ => exact toNat_maxDepth_extended
  | missing _ => exact (Nat.max_eq_left h.depth).symm
  | overflows _ _ => exact (Nat.max_eq_left h.depth).symm

theorem maxDepth_append (h : a.Bounded) (i : Instr) : (a.append i).2.maxDepth.toNat =
    max a.maxDepth.toNat (a.append i).2.depth.toNat := by
  unfold Assembler.append
  split
  · exact (Nat.max_eq_left h.depth).symm
  · exact maxDepth_appendWith h i _ _

/-- Every step measures the depth that it leaves. -/
theorem maxDepth_perform (h : a.Bounded) (hone : ∀ is, d ≠ .appendAll is) :
    (a.perform d).2.maxDepth.toNat = max a.maxDepth.toNat (a.perform d).2.depth.toNat := by
  cases d with
  | source k =>
    have hbounded := (h.beginSource k.toNat).depth
    rw [maxDepth_beginSource] at hbounded
    exact (congrArg UInt16.toNat (a.maxDepth_beginSource k.toNat)).trans
      (Nat.max_eq_left hbounded).symm
  | depth depth => exact a.toNat_maxDepth_resetDepth depth
  | append i => exact maxDepth_append h i
  | appendWith i pops pushes => exact maxDepth_appendWith h i pops pushes
  | appendAll is => exact absurd rfl (hone is)

/-- The depths that directives lead to one after the other. -/
def depthsOf (mode : Arithmetic) (ds : List Directive) : Set Nat :=
  {n | ∃ past, past <+: ds ∧ (assembled mode past).depth.toNat = n}

/-- Steps measure the largest of the depths that they leave one after the other. -/
theorem isGreatest_maxDepth (mode : Arithmetic) (ds : List Directive)
    (hone : ∀ is, .appendAll is ∉ ds) :
    IsGreatest (depthsOf mode ds) (assembled mode ds).maxDepth.toNat := by
  induction ds using List.reverseRecOn with
  | nil => simp [depthsOf, assembled]
  | append_singleton ds d ih =>
    have hbefore := ih fun is hmem => hone is (List.mem_append_left [d] hmem)
    have hd : ∀ is, d ≠ .appendAll is := fun is heq => hone is (by simp [heq])
    have hdepths : depthsOf mode (ds ++ [d]) =
        insert (assembled mode (ds ++ [d])).depth.toNat (depthsOf mode ds) := by
      ext n
      simp only [depthsOf, List.prefix_concat_iff, or_and_right, exists_or, exists_eq_left,
        Set.mem_insert_iff, Set.mem_ofPred_eq, @eq_comm _ n]
    rw [hdepths, assembled_concat, maxDepth_perform (bounded_assembled mode ds) hd, Nat.max_comm]
    exact hbefore.insert _

/-- The depth and the depths recorded never exceed the largest depth measured, and that is exactly
the largest depth there has been after any step. A single instruction that is refused changes
nothing: without those refused the assembler would be the same, and finished alike. Of several
instructions exactly the longest beginning that is accepted remains. All this holds in checked
arithmetic, where an overflow is a refusal, and in wrapping arithmetic, where there is none. -/
theorem history_exact (mode : Arithmetic) (ds : List Directive) :
    let a := assembled mode ds
    (a.depth ≤ a.maxDepth ∧
      ∀ (k : Nat) (depth : UInt16), a.branchDepths[k]? = some depth → depth ≤ a.maxDepth) ∧
    (AllSucceed (history mode ds) { arithmetic := mode } ∧ assembled mode (history mode ds) = a ∧
      IsGreatest (depthsOf mode (history mode ds)) a.maxDepth.toNat) ∧
    (∀ d err, d.isSingle = true → (a.perform d).1 = .error err → (a.perform d).2 = a) ∧
    (assembled mode (accepted mode ds) = a ∧ ∀ name descriptor handlers,
      (assembled mode (accepted mode ds)).finish name descriptor handlers =
        a.finish name descriptor handlers) ∧
    ∀ is, a.appendAll (a.admitted is) = (.ok (), (a.appendAll is).2) ∧ a.admitted is <+: is ∧
      ∀ p, p <+: is → (a.appendAll p).1 = .ok () → p <+: a.admitted is := by
  intro a
  have hbounded := bounded_assembled mode ds
  have hhistory : assembled mode (history mode ds) = a :=
    performAll_rewritten (fun a d => (a.performAll_steps d).2) ds { arithmetic := mode }
  have haccepted : assembled mode (accepted mode ds) = a :=
    performAll_rewritten performAll_unlessRefused ds { arithmetic := mode }
  have hgreatest := isGreatest_maxDepth mode (history mode ds) fun _ =>
    appendAll_notMem_steps ds { arithmetic := mode }
  rw [hhistory] at hgreatest
  exact ⟨⟨hbounded.depth, hbounded.recorded⟩,
    ⟨allSucceed_steps ds { arithmetic := mode }, hhistory, hgreatest⟩,
    fun _ _ hsingle => perform_of_error hsingle, ⟨haccepted, fun _ _ _ => by rw [haccepted]⟩,
    fun is => ⟨appendAll_admitted is a, admitted_isPrefix is a, fun _ => isPrefix_admitted⟩⟩

/-- The pop is refused at first, and of the three instructions the last. -/
example : let ds : List Directive :=
      [.append ⟨.pop, .none⟩, .depth 1, .appendAll [⟨.dup, .none⟩, ⟨.pop, .none⟩, ⟨.ceq, .none⟩]]
    (assembled .checked ds).maxDepth = 2 ∧ (assembled .checked ds).depth = 1 ∧
      (accepted .checked ds).length = 2 ∧ (history .checked ds).length = 3 := by
  decide

end Assembler

end FieldUpdater
