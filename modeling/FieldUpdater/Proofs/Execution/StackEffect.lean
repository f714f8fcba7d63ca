import FieldUpdater.Execution.Machine

/-!
# The machine keeps to the stack effects

The stack effect of an opcode says what the machine does with the operand stack: a step takes as
many entries as the effect says and puts on as many, leaves everything below alone, and fails for
want of entries only when there are fewer than it takes. This is read off the code of each opcode
pop by pop; what happens between the pops fails for other reasons, if it does.
-/

namespace FieldUpdater

/-- Between two stacks, some entries are taken off and others are put on. -/
def StackChange (pops pushes : Nat) (s s' : List Entry) : Prop :=
  ∃ taken pushed rest, s = taken ++ rest ∧ taken.length = pops ∧
    s' = pushed ++ rest ∧ pushed.length = pushes

namespace StackChange

variable {pops pushes : Nat} {s s' : List Entry} {e : Entry}

theorem refl (s : List Entry) : StackChange 0 0 s s := ⟨[], [], s, rfl, rfl, rfl, rfl⟩

/-- One more entry is put on. -/
theorem push (h : StackChange pops pushes s s') (e : Entry) :
    StackChange pops (pushes + 1) s (e :: s') := by
  obtain ⟨taken, pushed, rest, hs, htaken, rfl, hpushed⟩ := h
  exact ⟨taken, e :: pushed, rest, hs, htaken, rfl, congrArg (· + 1) hpushed⟩

/-- One more entry has been taken off before. -/
theorem pop (h : StackChange pops pushes s s') (e : Entry) :
    StackChange (pops + 1) pushes (e :: s) s' := by
  obtain ⟨taken, pushed, rest, rfl, htaken, hs', hpushed⟩ := h
  exact ⟨e :: taken, pushed, rest, rfl, congrArg (· + 1) htaken, hs', hpushed⟩

theorem length_eq (h : StackChange pops pushes s s') : s'.length = s.length - pops + pushes := by
  obtain ⟨taken, pushed, rest, rfl, rfl, rfl, rfl⟩ := h
  simp [Nat.add_comm]

end StackChange

/-- The entries that a step takes off the stack and puts on. Of a method that is left no stack
remains. -/
def Step.Changes (pops pushes : Nat) (s : List Entry) : Step → Prop
  | .next f => StackChange pops pushes s f.stack
  | .jump _ f => StackChange pops pushes s f.stack
  | .leave _ => pops ≤ s.length

/-- A result that keeps to a stack effect: with success the stack changes by it, and entries are
missing only when there are fewer than it takes. -/
def Obeys (pops pushes : Nat) (s : List Entry) : Except ExecError (Step × Heap) → Prop
  | .ok (step, _) => step.Changes pops pushes s
  | .error err => (∃ op, err = .stackUnderflow op) → s.length < pops

namespace Obeys

variable {pops pushes : Nat} {s : List Entry} {e : Entry} {op : Opcode} {f : Frame}
  {result : Except ExecError (Step × Heap)}

/-- Taking one more entry first. -/
theorem pop (h : Obeys pops pushes s result) (e : Entry) :
    Obeys (pops + 1) pushes (e :: s) result := by
  cases result with
  | error err =>
    intro hunderflow
    exact Nat.succ_lt_succ (h hunderflow)
  | ok taken =>
    obtain ⟨step, h'⟩ := taken
    cases step with
    | next f' => exact StackChange.pop h e
    | jump target f' => exact StackChange.pop h e
    | leave value => exact Nat.succ_le_succ h

theorem underflow : Obeys (pops + 1) pushes [] (.error (.stackUnderflow op)) :=
  fun _ => Nat.succ_pos pops

/-- An error that no entry is missing for. -/
theorem error {err : ExecError} (h : ∀ op, err ≠ .stackUnderflow op) :
    Obeys pops pushes s (.error err) :=
  fun ⟨op, hop⟩ => absurd hop (h op)

/-- What can fail in another way comes between the pops. -/
theorem bind {α : Type} {x : Except ExecError α} {rest : α → Except ExecError (Step × Heap)}
    (hx : ∀ op, x ≠ .error (.stackUnderflow op)) (hrest : ∀ a, Obeys pops pushes s (rest a)) :
    Obeys pops pushes s (x >>= rest) := by
  cases x with
  | error err =>
    apply error
    rintro op rfl
    exact hx op rfl
  | ok a => exact hrest a

/-- An entry is popped. -/
theorem pop_bind {rest : Entry × Frame → Except ExecError (Step × Heap)}
    (hrest : ∀ e f', Obeys pops pushes f'.stack (rest (e, f'))) :
    Obeys (pops + 1) pushes f.stack (f.pop op >>= rest) := by
  obtain ⟨stack, locals⟩ := f
  cases stack with
  | nil => exact underflow
  | cons e stack => exact (hrest e ⟨stack, locals⟩).pop e

/-- A value is popped. -/
theorem popValue_bind {rest : Value × Frame → Except ExecError (Step × Heap)}
    (hrest : ∀ v f', Obeys pops pushes f'.stack (rest (v, f'))) :
    Obeys (pops + 1) pushes f.stack (f.popValue op >>= rest) := by
  obtain ⟨stack, locals⟩ := f
  cases stack with
  | nil => exact underflow
  | cons e stack =>
    cases e with
    | value v => exact (hrest v ⟨stack, locals⟩).pop (.value v)
    | address obj slot => exact error nofun
    | constant => exact error nofun

/-- A reference to an object is popped. -/
theorem popRef_bind {rest : ObjRef × Frame → Except ExecError (Step × Heap)}
    (hrest : ∀ obj f', Obeys pops pushes f'.stack (rest (obj, f'))) :
    Obeys (pops + 1) pushes f.stack (f.popRef op >>= rest) := by
  obtain ⟨stack, locals⟩ := f
  cases stack with
  | nil => exact underflow
  | cons e stack =>
    cases e with
    | value v =>
      cases v with
      | ref obj => exact (hrest obj ⟨stack, locals⟩).pop (.value (.ref obj))
      | null => exact error nofun
      | int value => exact error nofun
      | bool value => exact error nofun
    | address obj slot => exact error nofun
    | constant => exact error nofun

end Obeys

theorem Instr.localOperand_ne_underflow (i : Instr) (op : Opcode) :
    i.localOperand ≠ .error (.stackUnderflow op) := by
  unfold localOperand
  split <;> simp

theorem Instr.classOperand_ne_underflow (i : Instr) (op : Opcode) :
    i.classOperand ≠ .error (.stackUnderflow op) := by
  unfold classOperand
  split <;> simp

theorem Instr.targetOperand_ne_underflow (i : Instr) (op : Opcode) :
    i.targetOperand ≠ .error (.stackUnderflow op) := by
  unfold targetOperand
  split <;> simp

theorem Instr.fieldOperand_ne_underflow (i : Instr) (op : Opcode) :
    i.fieldOperand ≠ .error (.stackUnderflow op) := by
  unfold fieldOperand
  split
  · split <;> simp
  · simp

namespace Heap

theorem word_ne_underflow (h : Heap) (o : ObjRef) (slot : Nat) (op : Opcode) :
    h.word o slot ≠ .error (.stackUnderflow op) := by
  unfold word get
  cases h.find? o with
  | none => simp
  | some obj =>
    dsimp only
    split <;> simp

/-- An operation on a slot fails as reading its word does. -/
theorem map_word_ne_underflow {α : Type} (h : Heap) (o : ObjRef) (slot : Nat) (g : UInt64 → α)
    (op : Opcode) : (h.word o slot).map g ≠ .error (.stackUnderflow op) := by
  have hword := h.word_ne_underflow o slot op
  cases hresult : h.word o slot with
  | error err =>
    rw [hresult] at hword
    simpa [Except.map] using hword
  | ok word => simp [Except.map]

end Heap

namespace Machine

variable {m : Machine} {construct : Construct} {i : Instr} {f f' : Frame} {h h' : Heap}
  {pops pushes : Nat}

theorem checkCast_ne_underflow (m : Machine) (h : Heap) (e : Entry) (target : ClassId)
    (op op' : Opcode) : m.checkCast h e target op ≠ .error (.stackUnderflow op') := by
  unfold checkCast Heap.classOf Heap.get
  split
  · simp
  · rename_i obj
    cases h.find? obj with
    | none => simp [Except.map]
    | some o =>
      simp only [Except.map]
      split <;> simp
  · simp
  · simp

/-- Every opcode but a construction keeps to its stack effect. -/
theorem obeys_stepPlain (heffect : i.opcode.stackEffect = some (pops, pushes)) (m : Machine)
    (f : Frame) (h : Heap) (hnew : i.opcode ≠ .newobj) :
    Obeys pops pushes f.stack (m.stepPlain i f h) := by
  obtain ⟨opcode, operand⟩ := i
  cases opcode <;> cases heffect <;> simp only [stepPlain]
  case newobj => exact absurd rfl hnew
  case new | athrow => exact .error nofun
  case nop | membar => exact StackChange.refl f.stack
  case ret => exact Nat.zero_le _
  case aconstNull => exact (StackChange.refl f.stack).push _
  case ldc | iconst =>
    split
    · exact (StackChange.refl f.stack).push _
    · exact .error nofun
  case aload | ldarg =>
    refine .bind (Instr.localOperand_ne_underflow _) fun index => ?_
    split
    · exact (StackChange.refl f.stack).push _
    · exact .error nofun
  case pop => exact .pop_bind fun e g => StackChange.refl g.stack
  case dup => exact .pop_bind fun e g => ((StackChange.refl g.stack).push e).push e
  case areturn => exact .popValue_bind fun v g => Nat.zero_le _
  case callBaseCtor => exact .popRef_bind fun obj g => StackChange.refl g.stack
  case astore =>
    refine .bind (Instr.localOperand_ne_underflow _) fun index => ?_
    exact .popValue_bind fun v g => StackChange.refl g.stack
  case castclass =>
    refine .bind (Instr.classOperand_ne_underflow _) fun target => ?_
    obtain ⟨stack, locals⟩ := f
    cases stack with
    | nil => exact .underflow
    | cons e stack =>
      -- The entry is looked at and stays.
      change Obeys 1 1 (e :: stack) (m.checkCast h e target .castclass >>= fun _ =>
        .ok (.next ⟨e :: stack, locals⟩, h))
      exact .bind (m.checkCast_ne_underflow h e target _) fun _ =>
        ((StackChange.refl stack).push e).pop e
  case getfield | volatileLdfld =>
    refine .bind (Instr.fieldOperand_ne_underflow _) fun field => .popRef_bind fun obj g => ?_
    exact .bind (h.map_word_ne_underflow obj field.slot _) fun v =>
      (StackChange.refl g.stack).push _
  case ldflda =>
    refine .bind (Instr.fieldOperand_ne_underflow _) fun field => ?_
    exact .popRef_bind fun obj g => (StackChange.refl g.stack).push _
  case putfield | volatileStfld =>
    refine .bind (Instr.fieldOperand_ne_underflow _) fun field => ?_
    refine .popValue_bind fun v g => .popRef_bind fun obj g => ?_
    exact .bind (h.map_word_ne_underflow obj field.slot _) fun h' => StackChange.refl g.stack
  case ceq =>
    exact .popValue_bind fun b g => .popValue_bind fun a g => (StackChange.refl g.stack).push _
  case cmpxchg =>
    refine .popValue_bind fun expected g => .popValue_bind fun update g => ?_
    refine .pop_bind fun e g => ?_
    cases e with
    | address obj slot =>
      exact .bind (h.map_word_ne_underflow obj slot _) fun exchanged =>
        (StackChange.refl g.stack).push _
    | value v => exact .error nofun
    | constant => exact .error nofun
  case goto =>
    exact .bind (Instr.targetOperand_ne_underflow _) fun target => StackChange.refl f.stack
  case ifnull | ifnonnull =>
    refine .bind (Instr.targetOperand_ne_underflow _) fun target => .popValue_bind fun v g => ?_
    dsimp only
    split <;> exact StackChange.refl g.stack

/-- A step of any opcode with a stack effect keeps to it, a construction as long as it is itself
not short of entries. -/
theorem changes_of_step (heffect : i.opcode.stackEffect = some (pops, pushes)) {s : Step}
    (hstep : m.step construct i f h = (.ok s, h')) : s.Changes pops pushes f.stack := by
  unfold step at hstep
  split at hstep
  · rename_i hnew
    rw [hnew] at heffect
    cases heffect
    split at hstep
    · cases hstep
    · split at hstep
      · cases hstep
      · cases hstep
        exact (StackChange.refl f.stack).push _
  · rename_i hnew
    have hobeys := obeys_stepPlain heffect m f h hnew
    split at hstep
    · cases hstep
    · rename_i hplain
      cases hstep
      rwa [hplain] at hobeys

/-- Entries are missing for a step only when there are fewer than its effect takes, or when they
are missing within a construction. -/
theorem of_step_underflow (heffect : i.opcode.stackEffect = some (pops, pushes)) {op : Opcode}
    (hstep : m.step construct i f h = (.error (.error (.stackUnderflow op)), h')) :
    f.stack.length < pops ∨ ∃ c, construct c h = (.error (.error (.stackUnderflow op)), h') := by
  unfold step at hstep
  split at hstep
  · split at hstep
    · rename_i hclass
      cases hstep
      exact absurd hclass (i.classOperand_ne_underflow op)
    · rename_i c _
      split at hstep
      · rename_i halt _ hconstruct
        cases hstep
        exact .inr ⟨c, hconstruct⟩
      · cases hstep
  · rename_i hnew
    have hobeys := obeys_stepPlain heffect m f h hnew
    split at hstep
    · rename_i hplain
      cases hstep
      rw [hplain] at hobeys
      exact .inl (hobeys ⟨op, rfl⟩)
    · cases hstep

/-- A call through the pool is not executed. -/
theorem step_call (hcall : i.opcode.isCall = true) (m : Machine) (construct : Construct)
    (f : Frame) (h : Heap) :
    m.step construct i f h = (.error (.error (.unsupported i.opcode)), h) := by
  obtain ⟨opcode, operand⟩ := i
  cases opcode with
  | invokestatic | invokevirtual | invokespecial => rfl
  | _ => cases hcall

/-- Control does not fall through from a terminator. -/
theorem isTerminator_of_step_next (hstep : m.step construct i f h = (.ok (.next f'), h')) :
    i.opcode.isTerminator = false := by
  obtain ⟨opcode, operand⟩ := i
  cases opcode with
  | goto => cases operand <;> cases hstep
  | ret => cases hstep
  | areturn =>
    obtain ⟨stack, locals⟩ := f
    cases stack with
    | nil => cases hstep
    | cons e stack => cases e <;> cases hstep
  | athrow => cases hstep
  | _ => rfl

end Machine

end FieldUpdater
