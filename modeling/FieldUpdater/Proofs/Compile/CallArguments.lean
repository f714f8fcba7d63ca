import FieldUpdater.Proofs.Compile.Rewriting
import FieldUpdater.Proofs.Compile.Depth
import FieldUpdater.Proofs.Signatures.Grammar

/-!
# The arguments of a kept call

A call that is kept takes its arguments, and its receiver unless it is static, from the modelled
stack and leaves its result there. The stack model counts them in sixteen bits. It takes what the
call takes where that is a word. Of 65536 parameters it counts none, and a receiver on top of 65535
overflows.
-/

namespace FieldUpdater

/-- Of 65536 parameters none is counted. -/
theorem Signature.argCount_of_wraps {s : Signature} (h : s.params.length = 65536) :
    s.argCount = 0 := by
  rw [argCount, h]

/-- Between two states of the stack model operands that were there are taken, and the result of a
call is left. -/
def Assembler.Takes (a b : Assembler) (operands : UInt16) (hasResult : Bool) : Prop :=
  operands ≤ a.depth ∧ b.depth = a.depth - operands + if hasResult then 1 else 0

namespace Compile

variable {settings : Settings} {c : SourceClass} {m : SourceMethod} {start space space' : Workspace}
  {mode : Arithmetic} {index : Nat} {i : Instr} {d : Draft} {err : CompileError}
  {signature : Signature} {a : Assembler} {operands : UInt16} {source : Overflow}

/-- The operands of a call are counted as what they are exactly when that is a word. -/
theorem toNat_countOperands {opcode : Opcode}
    (h : countOperands mode opcode signature = .ok operands) :
    operands.toNat = opcode.operands signature.params.length ↔
      opcode.operands signature.params.length < 65536 := by
  constructor
  · intro heq
    rw [← heq]
    exact operands.toNat_lt
  · intro hlt
    rw [countOperands_eq_ok (Nat.le_of_lt_succ hlt), Except.ok.injEq] at h
    rw [← h]
    exact UInt16.toNat_ofNat_of_lt' hlt

/-- The arithmetic is the same at every moment. -/
theorem Moment.arithmetic (h : Moment settings c start m index d space mode) :
    d.assembler.arithmetic = mode := by
  obtain ⟨_, _, _, _, -, -, hinstrs⟩ := h
  exact instrs_take_invariant (P := fun _ d _ => d.assembler.arithmetic = mode)
    (fun _ _ _ _ _ _ _ hd hc => hc.arithmetic.trans hd) rfl hinstrs

/-- An instruction that cannot be compiled at a moment of a compilation ends it. -/
theorem Moment.compile_error (h : Moment settings c start m index d space mode)
    (hi : m.code[index]? = some i)
    (herror : instr settings c m (Flow.flags m.code m.handlers) index i d space =
      (.error err, space')) :
    (c.compile settings start mode).1 = .error err := by
  obtain ⟨before, after, done, between, hsplit, hbefore, hinstrs⟩ := h
  have hlt : index < m.code.toList.length := by
    simpa using (Array.getElem?_eq_some_iff.mp hi).1
  have hhere : m.code.toList[index]? = some i := by rw [Array.getElem?_toList, hi]
  have hfails : (instrs settings c m (Flow.flags m.code m.handlers) 0
      (m.code.toList.take (index + 1)) { assembler := { arithmetic := mode } } between).1 =
        .error err := by
    rw [List.take_add_one, hhere, instrs_append, hinstrs]
    dsimp only [Option.toList]
    rw [List.length_take_of_le hlt.le, Nat.zero_add, instrs, herror]
  exact compile_error_of_take hsplit hbefore hfails

/-- A compilation that succeeds comes to every instruction of every method. -/
theorem exists_moment {compiled : CompiledClass}
    (h : (c.compile settings start mode).1 = .ok compiled) (hm : m ∈ c.methods) (index : Nat) :
    ∃ d now, Moment settings c start m index d now mode := by
  obtain ⟨before, after, hsplit⟩ := List.append_of_mem hm
  rw [SourceClass.compile_eq, hsplit, methods_append] at h
  cases hbefore : methods settings c before #[] start mode with
  | mk result between =>
    rw [hbefore] at h
    cases result with
    | error err => cases h
    | ok done =>
      dsimp only at h
      rw [methods] at h
      cases hmethod : method settings c m between mode with
      | mk result space' =>
        rw [hmethod] at h
        cases result with
        | error err => cases h
        | ok cm =>
          obtain ⟨d, hinstrs, -⟩ := of_method hmethod
          rw [← List.take_append_drop index m.code.toList, instrs_append] at hinstrs
          cases htake : instrs settings c m (Flow.flags m.code m.handlers) 0
              (m.code.toList.take index) { assembler := { arithmetic := mode } } between with
          | mk result now =>
            rw [htake] at hinstrs
            cases result with
            | error err => cases hinstrs
            | ok d' => exact ⟨d', now, before, after, done, between, hsplit, hbefore, htake⟩

/-- A compilation comes to a call and keeps it. -/
structure KeptCall (settings : Settings) (c : SourceClass) (start : Workspace) (m : SourceMethod)
    (index : Nat) (d : Draft) (now : Workspace) (i : Instr) (signature : Signature)
    (mode : Arithmetic := .checked) : Prop where
  moment : Moment settings c start m index d now mode
  placed : m.code[index]? = some i
  call : i.opcode.isCall = true
  kept : replaced? settings c m index i now.table = none
  /-- The callee has the signature. -/
  callee : i.signature? c.pool = some signature

/-- A call is kept with the operands of its callee as they are counted. -/
theorem keep_of_signature? (hcall : i.opcode.isCall = true)
    (hsignature : i.signature? c.pool = some signature) :
    keep c index i a =
      match countOperands a.arithmetic i.opcode signature with
      | .error source => .error (.assembly (.overflow source))
      | .ok operands =>
        Compile.kept (a.appendWith i operands (if signature.hasResult then 1 else 0)) := by
  obtain ⟨constant, callee, hindex, hcallee, hparse⟩ := Instr.signature?_eq_some_iff.mp hsignature
  have hkeep : keep c index i a = keepCall i callee a := by
    rw [keep, if_pos hcall, hindex]
    simp only [hcallee]
  rw [hkeep]
  unfold keepCall
  split
  · rename_i err herr
    rw [hparse] at herr
    cases herr
  · rename_i parsed hparsed
    obtain rfl := Except.ok.inj (hparse.symm.trans hparsed)
    rfl

/-- Compiling a kept call appends it with the operands counted. -/
theorem KeptCall.instr_eq (h : KeptCall settings c start m index d space i signature mode)
    (hcount : countOperands mode i.opcode signature = .ok operands) :
    instr settings c m (Flow.flags m.code m.handlers) index i d space =
      ((Compile.kept ((enter m.handlers index d.assembler).appendWith i operands
        (if signature.hasResult then 1 else 0))).map (⟨·, d.sites⟩), space) := by
  rw [Compile.instr_eq, h.kept, keep_of_signature? h.call h.callee, arithmetic_enter,
    h.moment.arithmetic, hcount]

/-- A kept call whose operands cannot be counted ends the compilation. -/
theorem KeptCall.overflows (h : KeptCall settings c start m index d space i signature mode)
    (hcount : countOperands mode i.opcode signature = .error source) :
    (c.compile settings start mode).1 = .error (.assembly (.overflow source)) := by
  have hfails : instr settings c m (Flow.flags m.code m.handlers) index i d space =
      (.error (.assembly (.overflow source)), space) := by
    rw [Compile.instr_eq, h.kept, keep_of_signature? h.call h.callee, arithmetic_enter,
      h.moment.arithmetic, hcount]
    rfl
  exact h.moment.compile_error h.placed hfails

/-- So does one whose operands are not on the stack. -/
theorem KeptCall.refused (h : KeptCall settings c start m index d space i signature mode)
    (hcount : countOperands mode i.opcode signature = .ok operands)
    (hmissing : (enter m.handlers index d.assembler).depth < operands) :
    (c.compile settings start mode).1 = .error (.assembly (.stackUnderflow i.opcode
      (enter m.handlers index d.assembler).depth operands)) := by
  have hfails : instr settings c m (Flow.flags m.code m.handlers) index i d space =
      (.error (.assembly (.stackUnderflow i.opcode
        (enter m.handlers index d.assembler).depth operands)), space) := by
    rw [h.instr_eq hcount, Assembler.appendWith, if_pos hmissing]
    rfl
  exact h.moment.compile_error h.placed hfails

/-- In a compilation that succeeds a kept call takes the operands counted. -/
theorem KeptCall.accepted (h : KeptCall settings c start m index d space i signature mode)
    (hcount : countOperands mode i.opcode signature = .ok operands) {compiled : CompiledClass}
    (hcompile : (c.compile settings start mode).1 = .ok compiled) :
    ∃ after, instr settings c m (Flow.flags m.code m.handlers) index i d space =
        (.ok ⟨after, d.sites⟩, space) ∧
      (enter m.handlers index d.assembler).Takes after operands signature.hasResult ∧
      (mode = .checked → after.depth.toNat = (enter m.handlers index d.assembler).depth.toNat -
        operands.toNat + if signature.hasResult then 1 else 0) := by
  have hinstr := h.instr_eq hcount
  cases happended : (enter m.handlers index d.assembler).appendWith i operands
      (if signature.hasResult then 1 else 0) with
  | mk answer after =>
    rw [happended] at hinstr
    cases answer with
    | error err =>
      rw [h.moment.compile_error h.placed hinstr] at hcompile
      cases hcompile
    | ok _ =>
      obtain ⟨hadmitted, rfl⟩ := Assembler.appendWith_eq_ok_iff.mp happended
      refine ⟨_, hinstr, ⟨UInt16.le_iff_toNat_le.mpr hadmitted.enough, rfl⟩, fun hchecked => ?_⟩
      have hresult : (if signature.hasResult then 1 else 0 : UInt16).toNat =
          if signature.hasResult then 1 else 0 := by
        split <;> rfl
      rw [hadmitted.toNat_depth ((arithmetic_enter ..).trans (h.moment.arithmetic.trans hchecked)),
        hresult]

end Compile

/-- A compilation that succeeds comes to every instruction. A kept call, wherever it stands and
whatever has led there, is accepted where the stack model holds the operands that it counts for
it; it takes these and leaves the result of the call. Otherwise the class is refused. The operands
counted are the arguments and the receiver exactly where these are fewer than 65536. One parameter
short of that a receiver overflows in checked arithmetic, which ends the compilation, and of
more parameters only what is left of them in sixteen bits is counted. -/
theorem SourceClass.compile_counts (settings : Settings) (c : SourceClass) (space : Workspace)
    (mode : Arithmetic) :
    (∀ compiled, (c.compile settings space mode).1 = .ok compiled → ∀ m ∈ c.methods, ∀ index,
      ∃ d now, Compile.Moment settings c space m index d now mode) ∧
    ∀ m index d now i signature,
      Compile.KeptCall settings c space m index d now i signature mode →
      let before := Compile.enter m.handlers index d.assembler
      (∀ source, Compile.countOperands mode i.opcode signature = .error source →
        (c.compile settings space mode).1 = .error (.assembly (.overflow source))) ∧
      ∀ counted, Compile.countOperands mode i.opcode signature = .ok counted →
        (counted.toNat = i.opcode.operands signature.params.length ↔
          i.opcode.operands signature.params.length < 65536) ∧
        (before.depth < counted → (c.compile settings space mode).1 =
          .error (.assembly (.stackUnderflow i.opcode before.depth counted))) ∧
        ∀ compiled, (c.compile settings space mode).1 = .ok compiled → ∃ after,
          Compile.instr settings c m (Flow.flags m.code m.handlers) index i d now =
            (.ok ⟨after, d.sites⟩, now) ∧
          before.Takes after counted signature.hasResult ∧
          (mode = .checked → after.depth.toNat =
            before.depth.toNat - counted.toNat + if signature.hasResult then 1 else 0) := by
  refine ⟨fun compiled h m hm index => Compile.exists_moment h hm index, ?_⟩
  intro m index d now i signature hcall before
  refine ⟨fun source => hcall.overflows, fun counted hcount => ?_⟩
  exact ⟨Compile.toNat_countOperands hcount, hcall.refused hcount,
    fun compiled => hcall.accepted hcount⟩

/-- Without substitution the factory call of the sample is kept and takes three arguments. -/
theorem SourceClass.compile_counts_node : ∃ d now after,
    Compile.Moment { enabled := false } Sample.node Sample.space Sample.updater 5 d now ∧
      (Compile.enter Sample.updater.handlers 5 d.assembler).Takes after 3 true := by
  let settings : Settings := { enabled := false }
  have happlied : (Sample.node.compile settings Sample.space).1.toOption.map
      CompiledClass.applied = some 0 := by
    decide +kernel
  obtain ⟨compiled, space', hcompile, -⟩ := exists_eq_ok_of_toOption _ happlied
  have hok : (Sample.node.compile settings Sample.space).1 = .ok compiled := by rw [hcompile]
  obtain ⟨hcomes, hcalls⟩ := SourceClass.compile_counts settings Sample.node Sample.space .checked
  obtain ⟨d, now, hmoment⟩ := hcomes compiled hok Sample.updater (List.mem_singleton_self _) 5
  obtain ⟨signature, hsignature, hparams, hresult⟩ : ∃ signature,
      (⟨.invokestatic, .pool 4⟩ : Instr).signature? Sample.node.pool = some signature ∧
        signature.params.length = 3 ∧ signature.hasResult = true := by
    have hread : ((⟨.invokestatic, .pool 4⟩ : Instr).signature? Sample.node.pool).map
        (fun signature => (signature.params.length, signature.hasResult)) = some (3, true) := by
      decide +kernel
    obtain ⟨signature, hsignature, heq⟩ := Option.map_eq_some_iff.mp hread
    exact ⟨signature, hsignature, (Prod.mk.inj heq).1, (Prod.mk.inj heq).2⟩
  have hcall : Compile.KeptCall settings Sample.node Sample.space Sample.updater 5 d now
      ⟨.invokestatic, .pool 4⟩ signature := by
    refine ⟨hmoment, rfl, rfl, ?_, hsignature⟩
    exact Compile.replaced?_eq_none_iff.mpr fun hfactory =>
      absurd hfactory (by simp [Settings.isFactoryCall_of_disabled, settings])
  have hcount : Compile.countOperands .checked .invokestatic signature = .ok 3 := by
    rw [Compile.countOperands_eq_ok, hparams]
    · rfl
    · rw [hparams]
      decide
  obtain ⟨-, -, haccepted⟩ := (hcalls _ _ _ _ _ _ hcall).2 3 hcount
  obtain ⟨after, -, htakes, -⟩ := haccepted compiled hok
  exact ⟨d, now, after, hmoment, hresult ▸ htakes⟩

namespace Sample

/-- Code that calls a method with nothing on the stack. -/
def caller : SourceMethod where
  name := "m"
  descriptor := "()V"
  code := #[⟨.invokestatic, .pool 1⟩, ⟨.ret, .none⟩]

/-- What is assembled of the code when no operands of the call are counted. -/
def assembled : Assembler :=
  (Compile.enter [] 1 ((Compile.enter [] 0 {}).extended ⟨.invokestatic, .pool 1⟩ 0 0)).extended
    ⟨.ret, .none⟩ 0 0

/-- The code is accepted when no operands of the call are counted. -/
theorem compile_caller {pool : ConstantPool} {signature : Signature}
    (hcall : Compile.KeptCall {} ⟨⟨11⟩, pool, [caller]⟩ space caller 0 {} space
      ⟨.invokestatic, .pool 1⟩ signature)
    (hcount : signature.argCount = 0) (hvoid : signature.hasResult = false) :
    ∃ compiled, (⟨⟨11⟩, pool, [caller]⟩ : SourceClass).compile {} space =
      (.ok compiled, space) := by
  have hnone : Compile.countOperands .checked .invokestatic signature = .ok 0 := by
    rw [Compile.countOperands, hcount]
    rfl
  have hinstr := hcall.instr_eq hnone
  rw [hvoid] at hinstr
  have hinstrs : Compile.instrs {} ⟨⟨11⟩, pool, [caller]⟩ caller
      (Flow.flags caller.code caller.handlers) 0 caller.code.toList {} space =
        (.ok ⟨assembled, #[]⟩, space) := by
    change Compile.instrs _ _ _ _ 0 [_, _] _ _ = _
    rw [Compile.instrs, hinstr]
    rfl
  have hlinks : (assembled.link caller.name caller.descriptor caller.handlers).isOk = true := by
    decide +kernel
  unfold SourceClass.compile
  dsimp only
  rw [Compile.methods, Compile.method, hinstrs]
  dsimp only
  cases hlink : assembled.link caller.name caller.descriptor caller.handlers with
  | error err => simp [hlink, Except.isOk, Except.toBool] at hlinks
  | ok body => exact ⟨_, rfl⟩

/-- The signature of a method with 65536 parameters. -/
def crowdedSignature : Signature := ⟨List.replicate 65536 "I", none⟩

/-- A class with the code, in which the method has these parameters. -/
def crowded : SourceClass where
  thisClass := ⟨11⟩
  pool := ⟨#[.classRef "Wide", .methodRef 0 "take" crowdedSignature.render]⟩
  methods := [caller]

/-- The descriptor of the method is read as its signature. -/
theorem parse_crowded : Signature.parse crowdedSignature.render = .ok crowdedSignature := by
  refine Signature.parse_eq_ok_iff.mpr ⟨⟨fun p hp => ?_, nofun⟩, rfl⟩
  obtain rfl : p = "I" := List.eq_of_mem_replicate hp
  exact .primitive (by decide)

/-- The method has that many parameters. -/
theorem params_crowded : crowdedSignature.params.length = 65536 := List.length_replicate

/-- The call of the method is kept. -/
theorem keptCall_crowded : Compile.KeptCall {} crowded space caller 0 {} space
    ⟨.invokestatic, .pool 1⟩ crowdedSignature where
  moment := ⟨[], [], [], space, rfl, rfl, rfl⟩
  placed := rfl
  call := rfl
  kept := rfl
  callee := Instr.signature?_eq_some_iff.mpr
    ⟨1, ⟨"Wide", "take", crowdedSignature.render⟩, rfl, rfl, parse_crowded⟩

end Sample

/-- A class is compiled although a call that it keeps finds none of its 65536 arguments on the
stack. -/
theorem SourceClass.compile_overlooks_arguments :
    (∃ compiled, Sample.crowded.compile {} Sample.space = (.ok compiled, Sample.space)) ∧
      Compile.KeptCall {} Sample.crowded Sample.space Sample.caller 0 {} Sample.space
        ⟨.invokestatic, .pool 1⟩ Sample.crowdedSignature ∧
      (Compile.enter Sample.caller.handlers 0 {}).depth = 0 ∧
      Sample.crowdedSignature.params.length = 65536 := by
  have hcount : Sample.crowdedSignature.argCount = 0 :=
    Signature.argCount_of_wraps Sample.params_crowded
  exact ⟨Sample.compile_caller Sample.keptCall_crowded hcount rfl, Sample.keptCall_crowded, rfl,
    Sample.params_crowded⟩

end FieldUpdater
