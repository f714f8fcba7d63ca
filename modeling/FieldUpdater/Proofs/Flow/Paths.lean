import FieldUpdater.Proofs.Compile.Method
import FieldUpdater.Proofs.Execution.Fuel
import FieldUpdater.Proofs.Execution.Jumps
import FieldUpdater.Proofs.Execution.StackEffect
import FieldUpdater.Proofs.Flow.Reachability
import Mathlib.Data.List.Chain

/-!
# Paths to a matched call

A path of control begins at the first instruction or at the entry of a handler and goes on as
control can, any number of times through the same instructions. To an instruction of a straight
window other than its first it comes only from the one before, because no branch and no handler
names it. The call of a window that names a field is therefore reached only through the three
loads before it, and whatever the other instructions do with the operand stack, the constants that
these loads put there are on top.
-/

namespace FieldUpdater

namespace Flow

/-- A list of indices that control can pass through, one after the other. -/
structure IsPath (code : Array Instr) (handlers : List Handler) (path : List Nat) : Prop where
  /-- Control begins at the first. -/
  begins : ∀ index ∈ path.head?, IsEntry handlers index
  /-- Control can go from each to the one after it. -/
  follows : path.IsChain (Follows code)

/-- Control goes from one index to another, each with the operand stack on arrival. A load puts its
constant on the stack; nothing is said of what other instructions do with it. -/
structure Passes {α : Type} (code : Array Instr) (constant : Nat → α) (a b : Nat × List α) :
    Prop where
  follows : Follows code a.1 b.1
  load : ∀ index, code[a.1]? = some ⟨.ldc, .pool index⟩ → b.2 = constant index :: a.2

/-- A path together with the operand stacks on arrival at each index, where the constants of the
pool are given as entries. -/
structure IsTrace {α : Type} (code : Array Instr) (handlers : List Handler) (constant : Nat → α)
    (trace : List (Nat × List α)) : Prop where
  /-- Control begins at the first, with any stack. -/
  begins : ∀ a ∈ trace.head?, IsEntry handlers a.1
  /-- Control goes from each to the one after it. -/
  passes : trace.IsChain (Passes code constant)

variable {α : Type} {code : Array Instr} {handlers : List Handler} {constant : Nat → α}
  {index : Nat}

/-- What comes first on a path is a path. -/
theorem IsPath.of_append {before after : List Nat} (h : IsPath code handlers (before ++ after)) :
    IsPath code handlers before where
  begins index hindex := h.begins index (by simp_all [List.head?_append])
  follows := h.follows.left_of_append

/-- A trace passes along a path. -/
theorem IsTrace.isPath {trace : List (Nat × List α)} (h : IsTrace code handlers constant trace) :
    IsPath code handlers (trace.map Prod.fst) where
  begins index hindex := by
    rw [List.head?_map] at hindex
    obtain ⟨a, ha, rfl⟩ := Option.map_eq_some_iff.mp hindex
    exact h.begins a ha
  follows := (List.isChain_map Prod.fst).mpr (h.passes.imp fun _ _ hpasses => hpasses.follows)

/-- Where control begins but at the first instruction is named by a handler, and where it goes but
to the next instruction is named by a branch. -/
theorem mem_targets_of_follows {index' : Nat} (h : Follows code index index')
    (hnext : index' ≠ index + 1) : index' ∈ targets code handlers := by
  cases h with
  | next _ => exact absurd rfl hnext
  | jump hjumps => exact mem_targets_iff_jumpsTo.mpr (.inl ⟨index, hjumps⟩)

end Flow

namespace Window

open FieldUpdater.Flow (IsPath IsTrace IsEntry)

/-- What every path that comes to a call passes right before it, and what it finds on the stack
there. -/
structure Fed (code : Array Instr) (handlers : List Handler) (position owner value text : Nat) :
    Prop where
  /-- The three instructions before the call load the three constants. -/
  loads : code[position - 3]? = some ⟨.ldc, .pool owner⟩ ∧
    code[position - 2]? = some ⟨.ldc, .pool value⟩ ∧ code[position - 1]? = some ⟨.ldc, .pool text⟩
  /-- Every path that comes to the call has passed them right before, each time. -/
  path : ∀ before after, IsPath code handlers (before ++ position :: after) →
    [position - 3, position - 2, position - 1] <:+ before
  /-- Whatever the entries are and whatever the other instructions do with them, the constants are
  on top of the stack on arrival. -/
  operands : ∀ {α : Type} (constant : Nat → α) (before : List (Nat × List α)) stack after,
    IsTrace code handlers constant (before ++ (position, stack) :: after) →
    ∃ rest, stack = constant text :: constant value :: constant owner :: rest
  /-- So they are whenever the machine executes the code up to the call. -/
  run : ∀ (m : Machine) (body : AssembledMethod) start f₀ h₀ f h, body.code = code →
    IsEntry handlers start → Machine.Reaches (m.stepAt body) start f₀ h₀ position f h →
    ∃ rest, f.stack = .constant :: .constant :: .constant :: rest

variable {code : Array Instr} {handlers : List Handler} {position : Nat}

/-- Control comes to an instruction of a straight window, other than its first, from the one
before. -/
theorem Straight.pred (hs : Straight code handlers position) {before : List Nat} {k : Nat}
    (hfirst : position ≤ k + 3) (hlast : k < position)
    (hpath : IsPath code handlers (before ++ [k + 1])) : ∃ earlier, before = earlier ++ [k] := by
  have hnamed : k + 1 ∉ Flow.targets code handlers := by
    intro hmem
    have houtside := hs.not_entered (k + 1) hmem (by omega)
    omega
  rcases List.eq_nil_or_concat' before with rfl | ⟨earlier, k', rfl⟩
  · rcases hpath.begins (k + 1) rfl with hzero | hhandler
    · omega
    · exact absurd (Flow.mem_targets_iff_jumpsTo.mpr (.inr hhandler)) hnamed
  · have hfollows : Flow.Follows code k' (k + 1) :=
      List.isChain_iff_forall_rel_of_append_cons_cons.mp hpath.follows
        (by rw [List.append_assoc]; rfl)
    have hnext : k + 1 = k' + 1 := by
      by_contra hne
      exact hnamed (Flow.mem_targets_of_follows hfollows hne)
    exact ⟨earlier, by rw [Nat.succ.inj hnext]⟩

/-- Every path that comes to the call of a straight window has passed its loads right before. -/
theorem Straight.path (hs : Straight code handlers position) {before after : List Nat}
    (hpath : IsPath code handlers (before ++ position :: after)) :
    [position - 3, position - 2, position - 1] <:+ before := by
  have hthree := hs.three_le
  obtain ⟨k, rfl⟩ : ∃ k, position = k + 3 := ⟨position - 3, by omega⟩
  have hsplit : IsPath code handlers (before ++ [k + 3] ++ after) := by rwa [List.append_assoc]
  have hcall : IsPath code handlers (before ++ [k + 3]) := hsplit.of_append
  obtain ⟨before₁, rfl⟩ := hs.pred (by omega) (by omega) hcall
  obtain ⟨before₂, rfl⟩ := hs.pred (by omega) (by omega) hcall.of_append
  obtain ⟨before₃, rfl⟩ := hs.pred (by omega) (by omega) hcall.of_append.of_append
  exact ⟨before₃, by simp⟩

/-- On every trace the constants loaded right before the call of a straight window are on top of the
stack on arrival. -/
theorem Straight.operands (hs : Straight code handlers position) {owner value text : Nat}
    (howner : code[position - 3]? = some ⟨.ldc, .pool owner⟩)
    (hvalue : code[position - 2]? = some ⟨.ldc, .pool value⟩)
    (htext : code[position - 1]? = some ⟨.ldc, .pool text⟩) {α : Type} {constant : Nat → α}
    {before after : List (Nat × List α)} {stack : List α}
    (htrace : IsTrace code handlers constant (before ++ (position, stack) :: after)) :
    ∃ rest, stack = constant text :: constant value :: constant owner :: rest := by
  have hpath := htrace.isPath
  rw [List.map_append, List.map_cons] at hpath
  obtain ⟨loads, ⟨earlier, rfl⟩, hloads⟩ := List.suffix_map_iff.mp (hs.path hpath)
  obtain ⟨⟨_, rest⟩, loads₁, rfl, rfl, hloads₁⟩ := List.map_eq_cons_iff.mp hloads.symm
  obtain ⟨⟨_, stack₁⟩, loads₂, rfl, rfl, hloads₂⟩ := List.map_eq_cons_iff.mp hloads₁
  obtain ⟨⟨_, stack₂⟩, loads₃, rfl, rfl, hloads₃⟩ := List.map_eq_cons_iff.mp hloads₂
  obtain rfl := List.map_eq_nil_iff.mp hloads₃
  have hpasses := htrace.passes
  rw [List.append_assoc] at hpasses
  obtain ⟨hfirst, hpasses₁⟩ := List.isChain_cons_cons.mp hpasses.right_of_append
  obtain ⟨hsecond, hpasses₂⟩ := List.isChain_cons_cons.mp hpasses₁
  obtain ⟨hthird, -⟩ := List.isChain_cons_cons.mp hpasses₂
  have howner' : stack₁ = constant owner :: rest := hfirst.load owner howner
  have hvalue' : stack₂ = constant value :: stack₁ := hsecond.load value hvalue
  have htext' : stack = constant text :: stack₂ := hthird.load text htext
  exact ⟨rest, by rw [htext', hvalue', howner']⟩

end Window

namespace Machine

open FieldUpdater.Flow (IsTrace IsEntry Passes)

variable {m : Machine} {body : AssembledMethod} {handlers : List Handler} {fuel pc pc' : Nat}
  {f f' : Frame} {h h' : Heap} {s : Step}

/-- A step of the machine goes where control can go, and a load puts a constant on the stack. -/
theorem passes_of_stepAt (hstep : m.stepAt body fuel pc f h = (.ok s, h'))
    (hafter : s.after? pc = some (pc', f')) :
    Passes body.code (fun _ => Entry.constant) (pc, f.stack) (pc', f'.stack) := by
  unfold stepAt at hstep
  split at hstep
  · cases hstep
  · rename_i i hi
    constructor
    · cases s with
      | next g =>
        cases hafter
        exact .next ⟨i, hi, isTerminator_of_step_next hstep⟩
      | jump target g =>
        cases hafter
        have htarget := branchTarget?_of_step_jump hstep
        exact .jump ⟨i, hi, Instr.branchTarget?_eq_some_iff.mp htarget⟩
      | leave result => cases hafter
    · intro index hload
      obtain rfl : i = ⟨.ldc, .pool index⟩ := Option.some.inj (hi.symm.trans hload)
      cases hstep
      cases hafter
      rfl

/-- What the machine executes is a trace of its code. -/
theorem exists_trace_of_reaches {start : Nat} {f₀ : Frame} {h₀ : Heap}
    (hentry : IsEntry handlers start)
    (hreaches : Reaches (m.stepAt body) start f₀ h₀ pc f h) :
    ∃ before, IsTrace body.code handlers (fun _ => Entry.constant) (before ++ [(pc, f.stack)]) := by
  induction hreaches with
  | start => exact ⟨[], ⟨by simpa using hentry, List.isChain_singleton _⟩⟩
  | @step fuel pc pc' f f' h h' s _ htaken hafter ih =>
    obtain ⟨before, htrace⟩ := ih
    refine ⟨before ++ [(pc, f.stack)], ?_, ?_⟩
    · intro a ha
      rw [List.head?_append_of_ne_nil _ (by simp)] at ha
      exact htrace.begins a ha
    · apply htrace.passes.append (List.isChain_singleton _)
      simpa using passes_of_stepAt htaken hafter

end Machine

/-- A matched window is straight-line. Whenever a window with the flags of its code names a field,
under any resolver and any class table, the three instructions before the call load constants,
every path that comes to the call has passed them right before, however long it is and however
often it has been there, and these constants are on top of the operand stack on arrival. -/
theorem Window.fed_of_targetBy? {w : Window} {r : Resolver} {t : ClassTable} {f : Field}
    {handlers : List Handler} (hflags : w.flags = Flow.flags w.code handlers)
    (h : w.targetBy? r t = some f) :
    ∃ owner value text, Fed w.code handlers w.position owner value text := by
  obtain ⟨-, -, -, owner, value, text, howner, hvalue, htext⟩ := of_targetBy? h
  have hs := straight_of_targetBy? hflags h
  refine ⟨owner, value, text, ⟨howner, hvalue, htext⟩, ?_, ?_, ?_⟩
  · intro before after hpath
    exact hs.path hpath
  · intro α constant before stack after htrace
    exact hs.operands howner hvalue htext htrace
  · intro m body start f₀ h₀ f h hcode hentry hreaches
    obtain ⟨before, htrace⟩ := Machine.exists_trace_of_reaches hentry hreaches
    rw [hcode] at htrace
    exact hs.operands howner hvalue htext htrace

/-- The window of the sample's call, after a loop at the beginning of the method. -/
theorem Window.fed_of_targetBy?_node :
    ∃ f, (Sample.node.window Sample.updater 5).target? Sample.space.table = some f ∧
      Fed Sample.updater.code [] 5 0 1 2 := by
  have hnamed : ((Sample.node.window Sample.updater 5).target? Sample.space.table).isSome := by
    decide +kernel
  obtain ⟨f, hf⟩ := Option.isSome_iff_exists.mp hnamed
  have hflags : (Sample.node.window Sample.updater 5).flags = Flow.flags Sample.updater.code [] :=
    rfl
  obtain ⟨owner, value, text, hfed⟩ := fed_of_targetBy? hflags hf
  obtain ⟨howner, hvalue, htext⟩ := hfed.loads
  cases howner
  cases hvalue
  cases htext
  exact ⟨f, hf, hfed⟩

end FieldUpdater
