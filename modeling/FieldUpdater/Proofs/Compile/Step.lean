import FieldUpdater.Proofs.Assembler.Operations
import FieldUpdater.Substitution.Compile

/-!
# Compiling one instruction

Compiling an instruction asks the class table one question: which field the window names, if
the instruction is a factory call. Without a field the instruction is kept, with the effect
that its opcode or its callee's descriptor gives it, and the workspace plays no further part.
With one, the accessor of the field is asked for and constructed. `Compile.instr_eq` says so
once, and `Compile.Compiled` lists what is known when it succeeds, so that no later proof
opens the compiler again.
-/

namespace FieldUpdater

/-- What the stack model takes an instruction to pop and to push. The operands of a call may be too
many to be counted. -/
def Instr.modelEffect? (mode : Arithmetic) (pool : ConstantPool) (i : Instr) :
    Option (UInt16 × UInt16) :=
  if i.opcode.isCall then
    match i.poolIndex? with
    | none => none
    | some index =>
      match pool.callee index with
      | .error _ => none
      | .ok callee =>
        match Signature.parse callee.descriptor with
        | .error _ => none
        | .ok signature =>
          match Compile.countOperands mode i.opcode signature with
          | .error _ => none
          | .ok operands => some (operands, if signature.hasResult then 1 else 0)
  else i.opcode.stackEffect.map fun effect => (effect.1.toUInt16, effect.2.toUInt16)

/-- Whether an instruction calls the factory while substitution is enabled. -/
def Settings.isFactoryCall (s : Settings) (pool : ConstantPool) (i : Instr) : Bool :=
  match i.poolIndex? with
  | none => false
  | some index =>
    match pool.callee index with
    | .error _ => false
    | .ok callee => s.isCandidate i.opcode callee

/-- A factory call is a static call. -/
theorem Settings.opcode_of_isFactoryCall {s : Settings} {pool : ConstantPool} {i : Instr}
    (h : s.isFactoryCall pool i = true) : i.opcode = .invokestatic := by
  unfold isFactoryCall at h
  split at h
  · cases h
  · split at h
    · cases h
    · simp only [isCandidate, decide_eq_true_eq] at h
      exact h.2.1

/-- Disabled settings know no factory. -/
theorem Settings.isFactoryCall_of_disabled {s : Settings} (h : s.enabled = false)
    (pool : ConstantPool) (i : Instr) : s.isFactoryCall pool i = false := by
  unfold isFactoryCall
  split
  · rfl
  · split
    · rfl
    · simp [isCandidate, h]

/-- The window of a call in a method. -/
def SourceClass.window (c : SourceClass) (m : SourceMethod) (index : Nat) : Window :=
  ⟨c.thisClass, c.pool, m.code, Flow.flags m.code m.handlers, index⟩

namespace Compile

variable {settings : Settings} {c : SourceClass} {m : SourceMethod} {index : Nat} {i : Instr}
  {d d' : Draft} {space space' : Workspace} {a b : Assembler} {t : ClassTable} {f : Field}

/-- The field whose accessor an instruction is to construct, if it is to be replaced. -/
def replaced? (settings : Settings) (c : SourceClass) (m : SourceMethod) (index : Nat) (i : Instr)
    (t : ClassTable) : Option Field :=
  if settings.isFactoryCall c.pool i then (c.window m index).target? t else none

/-- Keep an instruction. -/
def keep (c : SourceClass) (index : Nat) (i : Instr) (a : Assembler) :
    Except CompileError Assembler :=
  if i.opcode.isCall then
    match i.poolIndex? with
    | none => .error (.missingOperand i.opcode index)
    | some constant =>
      match c.pool.callee constant with
      | .error err => .error (.pool err)
      | .ok callee => keepCall i callee a
  else keepPlain i a

/-- Construct the accessor of a field in place of a call. -/
def construct (settings : Settings) (index : Nat) (f : Field) (a : Assembler) (sites : Array Site)
    (space : Workspace) : Except CompileError Draft × Workspace :=
  match space.synthesize settings.baseType f with
  | (.error err, space) => (.error (.synthesis err), space)
  | (.ok accessor, space) =>
    match a.appendAll accessor.constructionCode with
    | (.error err, _) => (.error (.synthesis (.assembly err)), space)
    | (.ok (), a) => (.ok ⟨a, sites.push ⟨index, accessor.classId⟩⟩, space)

/-- An instruction is to be replaced exactly when it is a factory call whose window names a
field. -/
theorem replaced?_eq_some_iff : replaced? settings c m index i t = some f ↔
    settings.isFactoryCall c.pool i = true ∧ (c.window m index).target? t = some f := by
  unfold replaced?
  by_cases hfactory : settings.isFactoryCall c.pool i = true
  · rw [if_pos hfactory, and_iff_right hfactory]
  · simp [hfactory]

theorem replaced?_eq_none_iff : replaced? settings c m index i t = none ↔
    (settings.isFactoryCall c.pool i = true → (c.window m index).target? t = none) := by
  unfold replaced?
  by_cases hfactory : settings.isFactoryCall c.pool i = true <;> simp [hfactory]

/-- An instruction is kept, or the accessor of a field is constructed in its place. -/
theorem instr_eq : instr settings c m (Flow.flags m.code m.handlers) index i d space =
    match replaced? settings c m index i space.table with
    | none => ((keep c index i (enter m.handlers index d.assembler)).map (⟨·, d.sites⟩), space)
    | some f => construct settings index f (enter m.handlers index d.assembler) d.sites space := by
  unfold instr replaced? keep
  dsimp only
  by_cases hcall : i.opcode.isCall = true
  · rw [if_pos hcall, if_pos hcall]
    cases hindex : i.poolIndex? with
    | none => simp [Settings.isFactoryCall, hindex, Except.map]
    | some constant =>
      cases hcallee : c.pool.callee constant with
      | error err => simp [Settings.isFactoryCall, hindex, hcallee, Except.map]
      | ok callee =>
        have hfactory : settings.isFactoryCall c.pool i = settings.isCandidate i.opcode callee := by
          simp only [Settings.isFactoryCall, hindex, hcallee]
        rw [hfactory]
        simp only [hcallee]
        by_cases hcandidate : settings.isCandidate i.opcode callee = true
        · rw [if_pos hcandidate, if_pos hcandidate]
          unfold Window.substitute SourceClass.window
          cases htarget : (⟨c.thisClass, c.pool, m.code, Flow.flags m.code m.handlers, index⟩ :
              Window).target? space.table with
          | none => rfl
          | some f =>
            unfold construct
            dsimp only
            cases space.synthesize settings.baseType f with
            | mk result space' =>
              cases result with
              | error err => rfl
              | ok accessor =>
                dsimp only
                cases (enter m.handlers index d.assembler).appendAll accessor.constructionCode with
                | mk result a => cases result <;> rfl
        · rw [if_neg hcandidate, if_neg hcandidate]
  · rw [if_neg hcall, if_neg hcall]
    have hfactory : settings.isFactoryCall c.pool i ≠ true := fun h =>
      hcall (by rw [Settings.opcode_of_isFactoryCall h]; rfl)
    rw [if_neg hfactory]

/-- Beginning an instruction does not change the arithmetic. -/
@[simp] theorem arithmetic_enter (handlers : List Handler) (index : Nat) (a : Assembler) :
    (enter handlers index a).arithmetic = a.arithmetic := by
  unfold enter
  dsimp only
  split
  · exact a.arithmetic_beginSource index
  · exact a.arithmetic_beginSource index

/-- Keeping an instruction succeeds with the assembler that appending leaves. -/
theorem kept_eq_ok {result : Except AssemblyError Unit × Assembler} :
    kept result = .ok a ↔ result = (.ok (), a) := by
  obtain ⟨outcome, b⟩ := result
  cases outcome <;> simp [kept]

/-- A kept call is appended with the effect of its descriptor. -/
theorem keepCall_eq_ok {callee : Callee} :
    keepCall i callee a = .ok b ↔ ∃ signature operands,
      Signature.parse callee.descriptor = .ok signature ∧
      countOperands a.arithmetic i.opcode signature = .ok operands ∧
      a.appendWith i operands (if signature.hasResult then 1 else 0) = (.ok (), b) := by
  unfold keepCall
  cases hparse : Signature.parse callee.descriptor with
  | error err => simp
  | ok signature =>
    cases hcount : countOperands a.arithmetic i.opcode signature with
    | error err => simp [hcount]
    | ok operands => simp [hcount, kept_eq_ok]

/-- Any other kept instruction is appended with the effect of its opcode. -/
theorem keepPlain_eq_ok :
    keepPlain i a = .ok b ↔ ∃ pops pushes : Nat, i.opcode.stackEffect = some (pops, pushes) ∧
      a.appendWith i pops.toUInt16 pushes.toUInt16 = (.ok (), b) := by
  unfold keepPlain
  rw [kept_eq_ok]
  unfold Assembler.append
  cases i.opcode.stackEffect with
  | none => simp
  | some effect =>
    obtain ⟨pops, pushes⟩ := effect
    simp [and_assoc]

/-- The effect of a call is that of its callee's descriptor. -/
theorem modelEffect?_call_iff {mode : Arithmetic} {pool : ConstantPool} {pops pushes : UInt16}
    (hcall : i.opcode.isCall = true) :
    i.modelEffect? mode pool = some (pops, pushes) ↔ ∃ constant callee signature,
      i.poolIndex? = some constant ∧ pool.callee constant = .ok callee ∧
      Signature.parse callee.descriptor = .ok signature ∧
      countOperands mode i.opcode signature = .ok pops ∧
      (if signature.hasResult then 1 else 0) = pushes := by
  unfold Instr.modelEffect?
  rw [if_pos hcall]
  cases hindex : i.poolIndex? with
  | none => simp
  | some constant =>
    cases hcallee : pool.callee constant with
    | error err => simp [hcallee]
    | ok callee =>
      cases hparse : Signature.parse callee.descriptor with
      | error err => simp [hcallee, hparse]
      | ok signature =>
        cases hcount : countOperands mode i.opcode signature with
        | error err => simp [hcallee, hparse, hcount]
        | ok operands => simp [hcallee, hparse, hcount]

/-- The effect of any other instruction is that of its opcode. -/
theorem modelEffect?_plain_iff {mode : Arithmetic} {pool : ConstantPool} {pops pushes : UInt16}
    (hcall : i.opcode.isCall = false) :
    i.modelEffect? mode pool = some (pops, pushes) ↔ ∃ p q : Nat,
      i.opcode.stackEffect = some (p, q) ∧ p.toUInt16 = pops ∧ q.toUInt16 = pushes := by
  simp [Instr.modelEffect?, hcall]

/-- An instruction is kept when its effect is known and the stack model admits it. -/
theorem keep_eq_ok_iff : keep c index i a = .ok b ↔ ∃ pops pushes,
    i.modelEffect? a.arithmetic c.pool = some (pops, pushes) ∧
      a.appendWith i pops pushes = (.ok (), b) := by
  unfold keep
  cases hcall : i.opcode.isCall with
  | true =>
    rw [if_pos rfl]
    simp only [modelEffect?_call_iff hcall]
    cases hindex : i.poolIndex? with
    | none => simp
    | some constant =>
      cases hcallee : c.pool.callee constant with
      | error err => simp [hcallee]
      | ok callee =>
        simp only [hcallee, keepCall_eq_ok]
        constructor
        · rintro ⟨signature, operands, hparse, hcount, happended⟩
          exact ⟨operands, _,
            ⟨constant, callee, signature, rfl, hcallee, hparse, hcount, rfl⟩, happended⟩
        · rintro ⟨operands, _, ⟨_, callee', signature, hsame, hcallee', hparse, hcount, rfl⟩,
            happended⟩
          obtain rfl := Option.some.inj hsame
          obtain rfl : callee = callee' := Except.ok.inj (hcallee.symm.trans hcallee')
          exact ⟨signature, operands, hparse, hcount, happended⟩
  | false =>
    rw [if_neg Bool.false_ne_true, keepPlain_eq_ok]
    simp only [modelEffect?_plain_iff hcall]
    constructor
    · rintro ⟨p, q, heffect, happended⟩
      exact ⟨_, _, ⟨p, q, heffect, rfl, rfl⟩, happended⟩
    · rintro ⟨_, _, ⟨p, q, heffect, rfl, rfl⟩, happended⟩
      exact ⟨p, q, heffect, happended⟩

/-- An instruction that is not to be replaced is kept when its effect is known and the stack
model admits it. -/
theorem instr_eq_ok_of_kept {pops pushes : UInt16}
    (hkept : replaced? settings c m index i space.table = none)
    (heffect : i.modelEffect? d.assembler.arithmetic c.pool = some (pops, pushes))
    (happended : (enter m.handlers index d.assembler).appendWith i pops pushes = (.ok (), b)) :
    instr settings c m (Flow.flags m.code m.handlers) index i d space =
      (.ok ⟨b, d.sites⟩, space) := by
  have hkeep : keep c index i (enter m.handlers index d.assembler) = .ok b :=
    keep_eq_ok_iff.mpr ⟨pops, pushes, by rwa [arithmetic_enter], happended⟩
  rw [instr_eq, hkept, hkeep]
  rfl

/-- What is constructed is the accessor that the request for the field gives. -/
theorem of_construct {sites : Array Site}
    (h : construct settings index f a sites space = (.ok d, space')) : ∃ accessor b,
      space.synthesize settings.baseType f = (.ok accessor, space') ∧
      a.appendAll accessor.constructionCode = (.ok (), b) ∧
      d = ⟨b, sites.push ⟨index, accessor.classId⟩⟩ := by
  unfold construct at h
  split at h
  · cases h
  · rename_i accessor _ hsynthesized
    split at h
    · cases h
    · rename_i b happended
      cases h
      exact ⟨accessor, b, hsynthesized, happended, rfl⟩

/-- Whether or not it is admitted, the construction leaves the workspace of the request. -/
theorem construct_workspace (sites : Array Site) : (construct settings index f a sites space).2 =
    (space.synthesize settings.baseType f).2 := by
  unfold construct
  split
  · rename_i hsynthesized
    rw [hsynthesized]
  · rename_i hsynthesized
    rw [hsynthesized]
    split <;> rfl

/-- What a successful compilation of one instruction did. -/
inductive Compiled (settings : Settings) (c : SourceClass) (m : SourceMethod) (index : Nat)
    (i : Instr) (d : Draft) (space : Workspace) : Draft → Workspace → Prop
  /-- The instruction is kept: it is no factory call, or its window names no field. -/
  | kept {a : Assembler} {pops pushes : UInt16}
      (notReplaced : settings.isFactoryCall c.pool i = true →
        (c.window m index).target? space.table = none)
      (effect : i.modelEffect? d.assembler.arithmetic c.pool = some (pops, pushes))
      (appended : (enter m.handlers index d.assembler).appendWith i pops pushes = (.ok (), a)) :
      Compiled settings c m index i d space ⟨a, d.sites⟩ space
  /-- The instruction is replaced by the construction of an accessor. -/
  | replaced {a : Assembler} {field : Field} {accessor : Accessor} {space' : Workspace}
      (factory : settings.isFactoryCall c.pool i = true)
      (matched : (c.window m index).target? space.table = some field)
      (synthesized : space.synthesize settings.baseType field = (.ok accessor, space'))
      (appended : (enter m.handlers index d.assembler).appendAll accessor.constructionCode
        = (.ok (), a)) :
      Compiled settings c m index i d space ⟨a, d.sites.push ⟨index, accessor.classId⟩⟩ space'

/-- An instruction is compiled without a change of the arithmetic. -/
theorem Compiled.arithmetic (h : Compiled settings c m index i d space d' space') :
    d'.assembler.arithmetic = d.assembler.arithmetic := by
  cases h with
  | kept _ _ happended =>
    obtain ⟨-, rfl⟩ := Assembler.appendWith_eq_ok_iff.mp happended
    exact arithmetic_enter m.handlers index d.assembler
  | @replaced _ _ accessor _ _ _ _ happended =>
    have hsame := (enter m.handlers index d.assembler).arithmetic_appendAll
      accessor.constructionCode
    rw [happended, arithmetic_enter] at hsame
    exact hsame

/-- Every successful compilation of an instruction is one of the two cases. -/
theorem compiled_of_instr
    (h : instr settings c m (Flow.flags m.code m.handlers) index i d space = (.ok d', space')) :
    Compiled settings c m index i d space d' space' := by
  rw [instr_eq] at h
  cases hreplaced : replaced? settings c m index i space.table with
  | none =>
    rw [hreplaced] at h
    obtain ⟨hdraft, rfl⟩ := Prod.mk.inj h
    cases hkeep : keep c index i (enter m.handlers index d.assembler) with
    | error err => simp [hkeep, Except.map] at hdraft
    | ok a =>
      obtain ⟨pops, pushes, heffect, happended⟩ := keep_eq_ok_iff.mp hkeep
      rw [arithmetic_enter] at heffect
      rw [hkeep] at hdraft
      cases hdraft
      exact .kept (replaced?_eq_none_iff.mp hreplaced) heffect happended
  | some f =>
    rw [hreplaced] at h
    obtain ⟨hfactory, hmatched⟩ := replaced?_eq_some_iff.mp hreplaced
    obtain ⟨accessor, a, hsynthesized, happended, rfl⟩ := of_construct h
    exact .replaced hfactory hmatched hsynthesized happended

end Compile

end FieldUpdater
