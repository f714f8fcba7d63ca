import FieldUpdater.Proofs.Compile.Depth
import FieldUpdater.Proofs.Execution.Operations
import FieldUpdater.Proofs.Execution.Preservation
import FieldUpdater.Proofs.Execution.StackEffect

/-!
# The operand stack at run time

Depths assigned to the instructions of a method are the lengths of the operand stack with which
its compiled code comes to them, in every run: a step changes the length by the stack effect,
and the assignment follows control. The stack therefore never outgrows the size that compilation
measured, and no instruction finds too few entries on it.
-/

namespace FieldUpdater

namespace Machine

open Layout (position replacement?)

variable {m : Machine} {pool : ConstantPool} {source : SourceMethod} {cm : CompiledMethod}
  {d : Nat → Nat} {fuel k k' : Nat} {i : Instr} {f f' : Frame} {h h' h₀ : Heap} {s : Step}
  {args : List Value}

/-- Every replaced call is one that takes three arguments and leaves a result. -/
def Ternary (pool : ConstantPool) (source : SourceMethod) (cm : CompiledMethod) : Prop :=
  ∀ k a, replacement? cm.sites k = some a → source.terminates k = false ∧
    source.effect pool k = (3, 1)

/-- The operand stack is as deep as assigned to the instruction, and nowhere deeper than the
peak. -/
structure Held (pool : ConstantPool) (source : SourceMethod) (d : Nat → Nat) (k : Nat)
    (f : Frame) : Prop where
  depth : k < source.code.size → f.stack.length = d k
  bound : f.stack.length ≤ source.peak pool d

/-- The effect of an instruction that is no call is that of its opcode. -/
theorem stackEffect_eq (pool : ConstantPool) (hi : source.code[k]? = some i)
    (hcall : i.opcode.isCall = false) :
    i.opcode.stackEffect = some (source.effect pool k) := by
  have heffect : i.effect? pool = i.opcode.stackEffect := by simp [Instr.effect?, hcall]
  obtain ⟨e, he⟩ : ∃ e, i.opcode.stackEffect = some e := by
    rw [← Option.ne_none_iff_exists', ne_eq, Opcode.stackEffect_eq_none_iff, hcall]
    exact Bool.false_ne_true
  simp [SourceMethod.effect, hi, heffect, he]

/-- A source step changes the stack as its instruction says. -/
theorem changes_of_sourceStepAt (hternary : Ternary pool source cm) (hi : source.code[k]? = some i)
    (hstep : m.sourceStepAt cm.sites source fuel k f h = (.ok s, h')) :
    s.Changes (source.effect pool k).1 (source.effect pool k).2 f.stack := by
  cases hreplaced : replacement? cm.sites k with
  | none =>
    rw [sourceStepAt_kept hi hreplaced] at hstep
    cases hcall : i.opcode.isCall with
    | true =>
      rw [step_call hcall] at hstep
      cases hstep
    | false => exact changes_of_step (stackEffect_eq pool hi hcall) hstep
  | some a =>
    rw [sourceStepAt_replaced hi hreplaced] at hstep
    rw [(hternary k a hreplaced).2]
    split at hstep
    · rename_i hlength
      split at hstep
      · cases hstep
      · rename_i obj _ _
        cases hstep
        exact ⟨f.stack.take 3, [.value (.ref obj)], f.stack.drop 3,
          (List.take_append_drop 3 f.stack).symm, List.length_take_of_le hlength, rfl, rfl⟩
    · cases hstep

/-- Control falls through from no terminator of the source. -/
theorem terminates_of_sourceStepAt (hternary : Ternary pool source cm)
    (hi : source.code[k]? = some i)
    (hstep : m.sourceStepAt cm.sites source fuel k f h = (.ok (.next f'), h')) :
    source.terminates k = false := by
  cases hreplaced : replacement? cm.sites k with
  | none =>
    rw [sourceStepAt_kept hi hreplaced] at hstep
    simpa [SourceMethod.terminates, hi] using isTerminator_of_step_next hstep
  | some a => exact (hternary k a hreplaced).1

/-- No instruction finds or leaves more on the stack than the peak. -/
theorem le_peak (pool : ConstantPool) (d : Nat → Nat) (hk : k < source.code.size) :
    max (d k) (source.depthAfter pool d k) ≤ source.peak pool d :=
  Finset.le_sup (f := fun k => max (d k) (source.depthAfter pool d k)) (Finset.mem_range.mpr hk)

/-- At first nothing is on the stack. -/
theorem Held.start (hd : source.Depths pool d) (args : List Value) :
    Held pool source d 0 (.ofArgs args) :=
  ⟨fun _ => hd.start.symm, Nat.zero_le _⟩

/-- A source step comes to the next instruction with the depth assigned to it. -/
theorem Held.step (hd : source.Depths pool d) (hternary : Ternary pool source cm)
    (hheld : Held pool source d k f)
    (hstep : m.sourceStepAt cm.sites source fuel k f h = (.ok s, h'))
    (hafter : s.after? k = some (k', f')) : Held pool source d k' f' := by
  cases hi : source.code[k]? with
  | none =>
    rw [sourceStepAt_beyond hi] at hstep
    cases hstep
  | some i =>
    have hk : k < source.code.size := (Array.getElem?_eq_some_iff.mp hi).1
    have hchanges := changes_of_sourceStepAt hternary hi hstep
    have hpeak : max (d k) (source.depthAfter pool d k) ≤ source.peak pool d := le_peak pool d hk
    cases s with
    | leave result => cases hafter
    | next g =>
      cases hafter
      have hlength : f'.stack.length = source.depthAfter pool d k := by
        rw [hchanges.length_eq, hheld.depth hk, SourceMethod.depthAfter]
      refine ⟨fun _ => ?_, by omega⟩
      rw [hlength, hd.next k hk (terminates_of_sourceStepAt hternary hi hstep)]
    | jump target g =>
      cases hafter
      obtain ⟨i', hi', htarget⟩ := branchTarget?_of_sourceStepAt hstep
      obtain rfl : i = i' := Option.some.inj (hi.symm.trans hi')
      have hbranch := (Instr.branchTarget?_eq_some_iff.mp htarget).1
      have hnothing : (source.effect pool k).2 = 0 :=
        Opcode.pushes_of_isBranch hbranch
          (stackEffect_eq pool hi (Opcode.isCall_of_isBranch hbranch))
      have hlength : f'.stack.length = d k' := by
        rw [hchanges.length_eq, hheld.depth hk, hnothing, Nat.add_zero]
        exact (hd.jump k hk k' (by simp [SourceMethod.jump?, hi, htarget])).symm
      have hless : f'.stack.length ≤ d k := by
        rw [hchanges.length_eq, hheld.depth hk, hnothing]
        omega
      exact ⟨fun _ => hlength, by omega⟩

/-- In every run of the source machine the stack is as deep as assigned. -/
theorem held_of_reaches (hd : source.Depths pool d) (hternary : Ternary pool source cm)
    (hreaches : Reaches (m.sourceStepAt cm.sites source) 0 (.ofArgs args) h₀ k f h) :
    Held pool source d k f := by
  induction hreaches with
  | start => exact .start hd args
  | step _ htaken hafter ih => exact ih.step hd hternary htaken hafter

/-- No instruction of the source lacks entries, but a constructor may. -/
theorem of_sourceStepAt_underflow (hd : source.Depths pool d) (hternary : Ternary pool source cm)
    (hheld : Held pool source d k f) {op : Opcode}
    (hstep : m.sourceStepAt cm.sites source fuel k f h =
      (.error (.error (.stackUnderflow op)), h')) :
    ∃ a h₁, m.makeObject fuel a h₁ = (.error (.error (.stackUnderflow op)), h') := by
  cases hi : source.code[k]? with
  | none =>
    rw [sourceStepAt_beyond hi] at hstep
    cases hstep
  | some i =>
    have hk : k < source.code.size := (Array.getElem?_eq_some_iff.mp hi).1
    have hpops := hd.pops k hk
    rw [← hheld.depth hk] at hpops
    cases hreplaced : replacement? cm.sites k with
    | none =>
      rw [sourceStepAt_kept hi hreplaced] at hstep
      cases hcall : i.opcode.isCall with
      | true =>
        rw [step_call hcall] at hstep
        cases hstep
      | false =>
        have hlacking : f.stack.length < (source.effect pool k).1 ∨ ∃ a,
            m.makeObject fuel a h = (.error (.error (.stackUnderflow op)), h') :=
          of_step_underflow (stackEffect_eq pool hi hcall) hstep
        obtain ⟨a, hconstruct⟩ := hlacking.resolve_left (by omega)
        exact ⟨a, h, hconstruct⟩
    | some a =>
      rw [(hternary k a hreplaced).2] at hpops
      rw [sourceStepAt_replaced hi hreplaced, if_pos hpops] at hstep
      split at hstep
      · rename_i halt _ hobject
        cases hstep
        exact ⟨a, h, hobject⟩
      · cases hstep

/-- The constructor of an accessor does not lack entries. -/
theorem makeObject_ne_underflow (hmade : ∀ c a, m.registry.ofClass? c = some a → a.WellMade)
    (fuel : Nat) (c : ClassId) (h h' : Heap) (op : Opcode) :
    m.makeObject fuel c h ≠ (.error (.error (.stackUnderflow op)), h') := by
  intro hobject
  unfold makeObject constructWith at hobject
  split at hobject
  · rename_i err halloc
    cases hobject
    unfold Heap.alloc at halloc
    split at halloc
    · cases halloc
    · split at halloc <;> cases halloc
  · split at hobject
    · cases hobject
    · rename_i obj h₁ _ _ a hentry
      split at hobject
      · rename_i halt _ hinit
        cases hobject
        -- With more fuel the constructor would have succeeded.
        have hsettled : Settled (m.execute fuel a.init [.ref obj] h₁) := by
          rw [hinit]
          exact settled_error_iff.mpr nofun
        have hstable := execute_stable (Nat.le_max_left fuel 3) hsettled
        rw [hinit, execute_init (hmade c a hentry) (Nat.le_max_right fuel 3)] at hstable
        cases hstable
      · cases hobject

end Machine

namespace Compile

open Machine (Reaches)

/-- What depths assigned to a method say of its compiled code, in every run. -/
structure StackSafe (d : Nat → Nat) (source : SourceMethod) (cm : CompiledMethod) : Prop where
  /-- Control comes to the place of an instruction with the depth assigned to it. -/
  depth : ∀ (m : Machine) (args : List Value) (h₀ : Heap) (k : Nat) (f : Frame) (h : Heap),
    k < source.code.size →
    Reaches (m.stepAt cm.body) 0 (.ofArgs args) h₀ (Layout.position cm.sites k) f h →
    f.stack.length = d k
  /-- The stack never holds more than was measured. -/
  bound : ∀ (m : Machine) (args : List Value) (h₀ : Heap) (q : Nat) (f : Frame) (h : Heap),
    Reaches (m.stepAt cm.body) 0 (.ofArgs args) h₀ q f h →
    f.stack.length ≤ cm.body.maxStack.toNat
  /-- Entries are never missing for an instruction of the code, only within a constructor. -/
  underflow : ∀ (m : Machine) (fuel : Nat) (args : List Value) (h h' : Heap) (op : Opcode),
    m.execute fuel cm.body args h = (.error (.error (.stackUnderflow op)), h') →
    ∃ fuel' a h₁, m.makeObject fuel' a h₁ = (.error (.error (.stackUnderflow op)), h')
  /-- Nor are they with accessors whose constructors are those that synthesis assembles. -/
  never : ∀ m : Machine, (∀ c a, m.registry.ofClass? c = some a → a.WellMade) →
    ∀ (fuel : Nat) (args : List Value) (h h' : Heap) (op : Opcode),
      m.execute fuel cm.body args h ≠ (.error (.error (.stackUnderflow op)), h')

variable {c : SourceClass} {settings : Settings} {source : SourceMethod} {cm : CompiledMethod}
  {d : Nat → Nat} {space space' : Workspace} {mode : Arithmetic}

/-- The calls of the factory that are replaced take three arguments and leave a result. -/
theorem ternary_of_method
    (hdescriptor : settings.factoryDescriptor = ({} : Settings).factoryDescriptor)
    (h : method settings c source space mode = (.ok cm, space')) :
    Machine.Ternary c.pool source cm := by
  obtain ⟨-, -, hstands⟩ := linked_of_method h
  intro k a hreplaced
  obtain ⟨f, x, hstand⟩ := hstands _ (mem_of_replacement? hreplaced)
  obtain ⟨i, hi, hfactory⟩ := hstand.factory
  have heffect := Settings.effect?_of_isFactoryCall hdescriptor hfactory
  constructor
  · simp [SourceMethod.terminates, hi, Settings.opcode_of_isFactoryCall hfactory,
      Opcode.isTerminator]
  · simp [SourceMethod.effect, hi, heffect]

/-- A method compiled with success keeps to the depths assigned to it. -/
theorem stackSafe_of_method
    (hdescriptor : settings.factoryDescriptor = ({} : Settings).factoryDescriptor)
    (hd : source.Depths c.pool d) (hforward : source.EnteredForward d)
    (h : method settings c source space mode = (.ok cm, space')) : StackSafe d source cm := by
  obtain ⟨hlinked, -⟩ := linked_of_method h
  have hternary := ternary_of_method hdescriptor h
  have hunderflow (m : Machine) (fuel : Nat) (args : List Value) (h h' : Heap) (op : Opcode)
      (hexecute : m.execute fuel cm.body args h = (.error (.error (.stackUnderflow op)), h')) :
      ∃ fuel' a h₁, m.makeObject fuel' a h₁ = (.error (.error (.stackUnderflow op)), h') := by
    have hsettled : Settled (m.execute fuel cm.body args h) := by
      rw [hexecute]
      exact settled_error_iff.mpr nofun
    obtain ⟨-, fuel', hsource⟩ :=
      ((Machine.sameOutcome_of_linked hlinked m args h).result _).mp ⟨hsettled, fuel, rfl⟩
    obtain ⟨n, k, f, h₁, hreaches, hstep⟩ :=
      Machine.exists_reaches_of_follow_error .start (hsource.trans hexecute)
    exact ⟨n, Machine.of_sourceStepAt_underflow hd hternary
      (Machine.held_of_reaches hd hternary hreaches) hstep⟩
  refine ⟨?_, ?_, hunderflow, ?_⟩
  · intro m args h₀ k f h hk hreaches
    generalize hq : Layout.position cm.sites k = q at hreaches
    cases Machine.placed_of_reaches hlinked hreaches with
    | @begun k' _ _ hreached =>
      obtain rfl : k = k' := (Layout.position_strictMono cm.sites).injective hq
      exact (Machine.held_of_reaches hd hternary hreached).depth hk
    | @within k' j _ _ _ _ hreached hi hreplaced hle hpopped =>
      have hplace : Layout.position cm.sites k + 0 = Layout.position cm.sites k' + j := hq
      obtain ⟨rfl, rfl⟩ := Layout.position_add_inj Layout.width_pos
        (by rw [Layout.width_of_replaced hreplaced]; omega) hplace
      exact (Machine.held_of_reaches hd hternary hreached).depth hk
  · intro m args h₀ q f h hreaches
    rw [source.peak_of_method (fun _ => Settings.effect?_of_isFactoryCall hdescriptor) hd hforward
      ‹_›]
    cases Machine.placed_of_reaches hlinked hreaches with
    | begun hreached => exact (Machine.held_of_reaches hd hternary hreached).bound
    | within hreached hi hreplaced hle hpopped =>
      have hbound := (Machine.held_of_reaches hd hternary hreached).bound
      simp only [List.length_drop]
      omega
  · intro m hmade fuel args h h' op hexecute
    obtain ⟨fuel', a, h₁, hobject⟩ := hunderflow m fuel args h h' op hexecute
    exact Machine.makeObject_ne_underflow hmade fuel' a h₁ h' op hobject

end Compile

/-- The stack model is sound at run time. Whenever a class is compiled with the factory of the
default descriptor, and depths can be assigned to a method such that code after a terminator is
entered forward, the compiled method keeps to these depths in every run: control comes to the
place of each instruction with the depth assigned, the stack never outgrows the size measured,
and no instruction of the method lacks entries. -/
theorem SourceClass.compile_stackSafe {c : SourceClass} {settings : Settings}
    {compiled : CompiledClass} {space space' : Workspace} {mode : Arithmetic}
    (hdescriptor : settings.factoryDescriptor = ({} : Settings).factoryDescriptor)
    (h : c.compile settings space mode = (.ok compiled, space')) :
    List.Forall₂ (fun source cm => ∀ d, source.Depths c.pool d → source.EnteredForward d →
      Compile.StackSafe d source cm) c.methods compiled.methods := by
  obtain ⟨-, -, hmethods⟩ := of_compile h
  refine hmethods.imp ?_
  rintro source cm ⟨before, after, -, hmethod, -⟩ d hd hforward
  exact Compile.stackSafe_of_method hdescriptor hd hforward hmethod

/-- The compiled method of the sample, with its replaced call, keeps to the depths of its
source. -/
theorem SourceClass.compile_stackSafe_node : ∃ compiled space',
    Sample.node.compile {} Sample.space = (.ok compiled, space') ∧
    compiled.methods.map (·.sites) = [#[⟨5, ⟨13⟩⟩]] ∧
    List.Forall₂ (Compile.StackSafe Sample.depths) Sample.node.methods compiled.methods := by
  obtain ⟨compiled, space', hcompile, hsites⟩ := Sample.compile_node
  refine ⟨compiled, space', hcompile, hsites, ?_⟩
  have hsafe := compile_stackSafe rfl hcompile
  obtain ⟨cm, rest, hmethod, hrest, heq⟩ := List.forall₂_cons_left_iff.mp hsafe
  obtain rfl := List.forall₂_nil_left_iff.mp hrest
  rw [heq]
  exact .cons (hmethod _ Sample.depths_updater Sample.enteredForward_updater) .nil

end FieldUpdater
