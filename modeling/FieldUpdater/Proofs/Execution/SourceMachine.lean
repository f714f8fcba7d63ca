import FieldUpdater.Proofs.Compile.Method
import FieldUpdater.Proofs.Execution.Fuel
import FieldUpdater.Proofs.Execution.Jumps

/-!
# The source machine

The source machine executes the code of a method as it was before compilation, with
indices of the source as program counter. At a replaced call it discards three entries
and constructs an object instead. The window of a replaced call is entered only at its
first load, so that the entries discarded are always its three constants.
-/

namespace FieldUpdater

/-- Discard a number of entries. -/
def Frame.discard (op : Opcode) : Nat → Frame → Except ExecError Frame
  | 0, f => .ok f
  | n + 1, f =>
    match f.pop op with
    | .error err => .error err
    | .ok (_, f) => Frame.discard op n f

namespace Machine

/-- Execute a source instruction, or construct an object in its place. -/
def sourceStep (m : Machine) (sites : Array Site) (construct : Construct) (index : Nat) (i : Instr)
    (f : Frame) (h : Heap) : Except Halt Step × Heap :=
  match Layout.replacement? sites index with
  | none => m.step construct i f h
  | some c =>
    match Frame.discard .pop 3 f with
    | .error err => (.error (.error err), h)
    | .ok f =>
      match construct c h with
      | (.error halt, h) => (.error halt, h)
      | (.ok obj, h) => (.ok (.next (f.pushValue (.ref obj))), h)

/-- The step of a method's source code. Beyond its end there is none. -/
def sourceStepAt (m : Machine) (sites : Array Site) (source : SourceMethod) : StepAt :=
  fun fuel pc f h =>
    match source.code[pc]? with
    | none => (.error (.error (.fellOffEnd source.name)), h)
    | some i => m.sourceStep sites (m.makeObject fuel) pc i f h

/-- Execute the source code of a method with arguments, the receiver first. -/
def executeSource (m : Machine) (sites : Array Site) (source : SourceMethod) (fuel : Nat)
    (args : List Value) (h : Heap) : Except Halt (Option Value) × Heap :=
  follow (m.sourceStepAt sites source) fuel 0 (.ofArgs args) h

variable {m : Machine} {sites : Array Site} {source : SourceMethod} {pc pc' : Nat} {f f' : Frame}
  {h h' : Heap}

/-- Beyond the end of the source there is no step. -/
theorem sourceStepAt_beyond (hnone : source.code[pc]? = none) (m : Machine) (fuel : Nat)
    (f : Frame) (h : Heap) :
    m.sourceStepAt sites source fuel pc f h = (.error (.error (.fellOffEnd source.name)), h) := by
  simp only [sourceStepAt, hnone]

/-- A kept instruction is executed as it stands. -/
theorem sourceStepAt_kept {i : Instr} (hi : source.code[pc]? = some i)
    (hkept : Layout.replacement? sites pc = none) (m : Machine) (fuel : Nat) (f : Frame)
    (h : Heap) :
    m.sourceStepAt sites source fuel pc f h = m.step (m.makeObject fuel) i f h := by
  simp only [sourceStepAt, hi, sourceStep, hkept]

/-- A source step that jumps goes to the target of its instruction. -/
theorem branchTarget?_of_sourceStepAt {fuel target : Nat}
    (hstep : m.sourceStepAt sites source fuel pc f h = (.ok (.jump target f'), h')) :
    ∃ i, source.code[pc]? = some i ∧ i.branchTarget? = some target := by
  unfold sourceStepAt at hstep
  split at hstep
  · cases hstep
  · rename_i i hi
    unfold sourceStep at hstep
    split at hstep
    · exact ⟨i, hi, branchTarget?_of_step_jump hstep⟩
    · split at hstep
      · cases hstep
      · split at hstep <;> cases hstep

/-- A source step that jumps goes to a target of the source code. -/
theorem mem_targets_of_sourceStepAt {fuel target : Nat}
    (hstep : m.sourceStepAt sites source fuel pc f h = (.ok (.jump target f'), h')) :
    target ∈ Flow.targets source.code source.handlers := by
  obtain ⟨i, hi, htarget⟩ := branchTarget?_of_sourceStepAt hstep
  exact Flow.mem_targets_iff.mpr (.inl ⟨i, Array.mem_of_getElem? hi, htarget⟩)

/-- Every replaced call is a static call at the end of a straight window. -/
def Windowed (sites : Array Site) (source : SourceMethod) : Prop :=
  ∀ p c, Layout.replacement? sites p = some c →
    Window.Straight source.code source.handlers p ∧
      ∃ i, source.code[p]? = some i ∧ i.opcode = .invokestatic

/-- The stack begins with the constants that the windows around an index have loaded. -/
def Loaded (sites : Array Site) (pc : Nat) (f : Frame) : Prop :=
  ∀ p c, Layout.replacement? sites p = some c → pc ≤ p →
    ∃ rest, f.stack = List.replicate (pc + 3 - p) .constant ++ rest

/-- A load of a window is executed as it stands. -/
private theorem sourceStepAt_load {fuel constant : Nat} (hsites : Windowed sites source)
    (hi : source.code[pc]? = some ⟨.ldc, .pool constant⟩) :
    m.sourceStepAt sites source fuel pc f h = (.ok (.next (f.push .constant)), h) := by
  have hkept : Layout.replacement? sites pc = none := by
    cases hreplaced : Layout.replacement? sites pc with
    | none => rfl
    | some c =>
      obtain ⟨-, i, hi', hop⟩ := hsites pc c hreplaced
      obtain rfl := Option.some.inj (hi.symm.trans hi')
      cases hop
  rw [sourceStepAt_kept hi hkept]
  rfl

/-- Every step of the source machine keeps the loaded constants on the stack. -/
theorem Loaded.step {fuel : Nat} {s : Step} (hsites : Windowed sites source)
    (hloaded : Loaded sites pc f)
    (hstep : m.sourceStepAt sites source fuel pc f h = (.ok s, h'))
    (hafter : s.after? pc = some (pc', f')) : Loaded sites pc' f' := by
  intro p c hp hle
  obtain ⟨hstraight, -⟩ := hsites p c hp
  cases s with
  | leave result => cases hafter
  | jump target g =>
    cases hafter
    -- A window is not entered by a jump, so that its first load lies ahead.
    have hentered := hstraight.not_entered pc' (mem_targets_of_sourceStepAt hstep)
    have hcount : pc' + 3 - p = 0 := by omega
    exact ⟨f'.stack, by simp [hcount]⟩
  | next g =>
    cases hafter
    by_cases hwindow : p ≤ pc + 3
    · obtain ⟨constant, hi⟩ := hstraight.loads pc hwindow hle
      rw [sourceStepAt_load hsites hi] at hstep
      cases hstep
      obtain ⟨rest, hrest⟩ := hloaded p c hp (by omega)
      have hcount : pc + 1 + 3 - p = pc + 3 - p + 1 := by omega
      exact ⟨rest, by simp [Frame.push, hrest, hcount, List.replicate_succ]⟩
    · have hcount : pc + 1 + 3 - p = 0 := by omega
      exact ⟨f'.stack, by simp [hcount]⟩

/-- Every state of the source machine has the loaded constants on the stack. -/
theorem loaded_of_reaches {args : List Value} (hsites : Windowed sites source)
    (hreaches : Reaches (m.sourceStepAt sites source) 0 (.ofArgs args) h pc f h') :
    Loaded sites pc f := by
  induction hreaches with
  | start =>
    intro p c hp _
    have hthree := (hsites p c hp).1.three_le
    have hcount : 0 + 3 - p = 0 := by omega
    exact ⟨(Frame.ofArgs args).stack, by simp [hcount]⟩
  | step _ htaken hafter ih => exact ih.step hsites htaken hafter

end Machine

end FieldUpdater
