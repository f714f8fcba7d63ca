import FieldUpdater.Proofs.Compile.Eligible

/-!
# The operands of instructions

An instruction that is no call pops and pushes what its opcode says. A call pops the arguments
that its callee's descriptor lists, and the receiver unless it is static. The stack model takes
every instruction for what it is as long as the operands can be counted in a word.
-/

namespace FieldUpdater

/-- What a call takes of the operand stack when it has that many arguments. -/
def Opcode.operands (opcode : Opcode) (arguments : Nat) : Nat :=
  arguments + if opcode = .invokestatic then 0 else 1

/-- The signature of the method that a call names. -/
def Instr.signature? (pool : ConstantPool) (i : Instr) : Option Signature := do
  let index ← i.poolIndex?
  let callee ← (pool.callee index).toOption
  (Signature.parse callee.descriptor).toOption

/-- What an instruction pops and pushes. -/
def Instr.effect? (pool : ConstantPool) (i : Instr) : Option (Nat × Nat) :=
  if i.opcode.isCall then
    (i.signature? pool).map fun signature =>
      (i.opcode.operands signature.params.length, if signature.hasResult then 1 else 0)
  else i.opcode.stackEffect

variable {mode : Arithmetic} {pool : ConstantPool} {i : Instr} {opcode : Opcode}
  {signature : Signature} {pops pushes : Nat}

theorem Instr.signature?_eq_some_iff : i.signature? pool = some signature ↔
    ∃ constant callee, i.poolIndex? = some constant ∧ pool.callee constant = .ok callee ∧
      Signature.parse callee.descriptor = .ok signature := by
  unfold signature?
  cases hindex : i.poolIndex? with
  | none => simp
  | some constant =>
    cases hcallee : pool.callee constant with
    | error err => simp [hcallee, Except.toOption]
    | ok callee =>
      cases hparse : Signature.parse callee.descriptor <;>
        simp [hcallee, hparse, Except.toOption]

/-- A call has an effect when its callee has a signature. -/
theorem Instr.effect?_call_iff (hcall : i.opcode.isCall = true) :
    i.effect? pool = some (pops, pushes) ↔ ∃ signature, i.signature? pool = some signature ∧
      i.opcode.operands signature.params.length = pops ∧
      (if signature.hasResult then 1 else 0) = pushes := by
  simp [effect?, hcall]

/-- No instruction pushes more than two entries. -/
theorem Instr.pushes_le_of_effect? (h : i.effect? pool = some (pops, pushes)) : pushes ≤ 2 := by
  cases hcall : i.opcode.isCall with
  | true =>
    obtain ⟨signature, -, -, rfl⟩ := (effect?_call_iff hcall).mp h
    split <;> omega
  | false =>
    rw [effect?, hcall, if_neg Bool.false_ne_true] at h
    exact (Opcode.stackEffect_small h).2.1

/-- A terminator pushes nothing. -/
theorem Instr.pushes_of_isTerminator (hterminator : i.opcode.isTerminator = true)
    (h : i.effect? pool = some (pops, pushes)) : pushes = 0 := by
  unfold effect? at h
  rw [Opcode.isCall_of_isTerminator hterminator, if_neg Bool.false_ne_true] at h
  exact Opcode.pushes_of_isTerminator hterminator h

namespace Compile

/-- The operands of a call are counted as what they are when they are few enough. -/
theorem countOperands_eq_ok (h : opcode.operands signature.params.length ≤ 65535) :
    countOperands mode opcode signature =
      .ok (opcode.operands signature.params.length).toUInt16 := by
  unfold Opcode.operands at h ⊢
  have hcount : signature.argCount = signature.params.length := by
    unfold Signature.argCount
    omega
  have harguments : signature.params.length.toUInt16.toNat = signature.params.length :=
    UInt16.toNat_ofNat_of_lt' (by change _ < 65536; omega)
  have hreceiver : (if opcode = .invokestatic then 0 else 1 : UInt16).toNat =
      if opcode = .invokestatic then 0 else 1 := by
    split <;> rfl
  unfold countOperands
  rw [hcount, Arithmetic.add_eq_ok fun _ => by omega, Except.ok.injEq, ← UInt16.toNat_inj,
    Arithmetic.toNat_add_of_lt (by omega), harguments, hreceiver]
  exact (UInt16.toNat_ofNat_of_lt' (by change _ < 65536; omega)).symm

end Compile

/-- The stack model takes an instruction for what it is unless its operands are too many to be
counted. -/
theorem Instr.modelEffect?_of_effect? (mode : Arithmetic)
    (h : i.effect? pool = some (pops, pushes)) (hpops : pops ≤ 65535) :
    i.modelEffect? mode pool = some (pops.toUInt16, pushes.toUInt16) := by
  cases hcall : i.opcode.isCall with
  | true =>
    obtain ⟨signature, hsignature, rfl, rfl⟩ := (effect?_call_iff hcall).mp h
    obtain ⟨constant, callee, hindex, hcallee, hparse⟩ := signature?_eq_some_iff.mp hsignature
    refine (Compile.modelEffect?_call_iff hcall).mpr ⟨constant, callee, signature, hindex, hcallee,
      hparse, Compile.countOperands_eq_ok hpops, ?_⟩
    split <;> rfl
  | false =>
    rw [effect?, hcall, if_neg Bool.false_ne_true] at h
    exact (Compile.modelEffect?_plain_iff hcall).mpr ⟨pops, pushes, h, rfl, rfl⟩

/-- What the stack model knows the effect of has one. -/
theorem Instr.isSome_effect?_of_modelEffect? {operands result : UInt16}
    (h : i.modelEffect? mode pool = some (operands, result)) : (i.effect? pool).isSome := by
  cases hcall : i.opcode.isCall with
  | true =>
    obtain ⟨constant, callee, signature, hindex, hcallee, hparse, -⟩ :=
      (Compile.modelEffect?_call_iff hcall).mp h
    have hsignature : i.signature? pool = some signature :=
      signature?_eq_some_iff.mpr ⟨constant, callee, hindex, hcallee, hparse⟩
    simp [effect?, hcall, hsignature]
  | false =>
    obtain ⟨p, q, heffect, -⟩ := (Compile.modelEffect?_plain_iff hcall).mp h
    simp [effect?, hcall, heffect]

namespace Settings

variable {s : Settings}

/-- The factory of the default settings takes three arguments and leaves a result. -/
theorem parse_factoryDescriptor : ∃ signature,
    Signature.parse ({} : Settings).factoryDescriptor = .ok signature ∧
      signature.params.length = 3 ∧ signature.hasResult = true :=
  ⟨⟨["Ljava/lang/Class;", "Ljava/lang/Class;", "Ljava/lang/String;"],
    some "Ljava/util/concurrent/atomic/AtomicReferenceFieldUpdater;"⟩, by decide +kernel, rfl, rfl⟩

/-- So does every call of it. -/
theorem effect?_of_isFactoryCall
    (hdescriptor : s.factoryDescriptor = ({} : Settings).factoryDescriptor)
    (h : s.isFactoryCall pool i = true) : i.effect? pool = some (3, 1) := by
  obtain ⟨-, constant, callee, rfl, hcallee, -, -, hnames⟩ := isFactoryCall_iff.mp h
  obtain ⟨signature, hparse, hcount, hresult⟩ := parse_factoryDescriptor
  rw [← hdescriptor, ← hnames] at hparse
  refine (Instr.effect?_call_iff rfl).mpr ⟨signature,
    Instr.signature?_eq_some_iff.mpr ⟨constant, callee, rfl, hcallee, hparse⟩, ?_, ?_⟩
  · rw [hcount]
    rfl
  · rw [hresult]
    rfl

/-- And so it is counted. -/
theorem modelEffect?_of_isFactoryCall (mode : Arithmetic)
    (hdescriptor : s.factoryDescriptor = ({} : Settings).factoryDescriptor)
    (h : s.isFactoryCall pool i = true) : i.modelEffect? mode pool = some (3, 1) :=
  Instr.modelEffect?_of_effect? mode (effect?_of_isFactoryCall hdescriptor h) (by decide)

end Settings

end FieldUpdater
