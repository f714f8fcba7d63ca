import FieldUpdater.Proofs.Accessors.History
import FieldUpdater.Proofs.Execution.Registers
import FieldUpdater.Proofs.Execution.Words

/-!
# Operations of accessors

The bodies of an accessor run straight through. Each operation is executed once and for
all: what it answers depends on two casts, the reference to the target and one slot.
-/

namespace FieldUpdater

namespace Machine

/-- Execute code without jumps and constructions. There is no result when it does not leave. -/
def runThrough (m : Machine) : List Instr → Frame → Heap →
    Option (Except ExecError (Option Value) × Heap)
  | [], _, _ => none
  | i :: is, f, h =>
    match m.stepPlain i f h with
    | .error err => some (.error err, h)
    | .ok (.next f, h) => m.runThrough is f h
    | .ok (.jump _ _, _) => none
    | .ok (.leave result, h) => some (.ok result, h)

variable {m : Machine} {body : AssembledMethod} {f : Frame} {h : Heap}

/-- Code that runs through is what a run with enough fuel executes. -/
theorem run_of_runThrough {is : List Instr} {pc fuel : Nat}
    {out : Except ExecError (Option Value) × Heap} (hcode : body.code.toList.drop pc = is)
    (hplain : ∀ i ∈ is, i.opcode ≠ .newobj) (hfuel : is.length ≤ fuel)
    (hrun : m.runThrough is f h = some out) :
    m.run fuel body pc f h = (out.1.mapError .error, out.2) := by
  induction is generalizing pc fuel f h with
  | nil => cases hrun
  | cons i is ih =>
    obtain ⟨fuel, rfl⟩ : ∃ n, fuel = n + 1 := ⟨fuel - 1, by rw [List.length_cons] at hfuel; omega⟩
    have hi : body.code[pc]? = some i := by
      have hhead := congrArg (fun l => l[0]?) hcode
      simpa using hhead
    have hrest : body.code.toList.drop (pc + 1) = is := by
      rw [← List.tail_drop, hcode]
      rfl
    have hnew := hplain i List.mem_cons_self
    have hnext {f : Frame} {h : Heap} := ih (f := f) (h := h) hrest
      (fun j hj => hplain j (List.mem_cons_of_mem i hj)) (Nat.le_of_succ_le_succ hfuel)
    unfold run step
    rw [hi]
    dsimp only
    rw [if_neg hnew]
    unfold runThrough at hrun
    cases hstep : m.stepPlain i f h with
    | error err =>
      rw [hstep] at hrun
      cases hrun
      rfl
    | ok taken =>
      obtain ⟨s, h'⟩ := taken
      rw [hstep] at hrun
      cases s with
      | next f' => exact hnext hrun
      | jump target f' => cases hrun
      | leave value =>
        cases hrun
        rfl

variable {is : List Instr} {stack : List Entry} {locals : Array Value} {field : Field}
  {c : ClassId} {v w x target expected update : Value} {o : ObjRef} {slot : Nat}

theorem runThrough_ldarg (v : Value) {index : Nat} (hv : locals[index]? = some v) :
    m.runThrough (⟨.ldarg, .localVar index⟩ :: is) ⟨stack, locals⟩ h =
      m.runThrough is ⟨.value v :: stack, locals⟩ h := by
  simp [runThrough, stepPlain, Instr.localOperand, bind, Except.bind, hv, Frame.pushValue,
    Frame.push]

theorem runThrough_castclass :
    m.runThrough (⟨.castclass, .classRef c⟩ :: is) ⟨.value v :: stack, locals⟩ h =
      match m.checkCast h (.value v) c .castclass with
      | .error err => some (.error err, h)
      | .ok () => m.runThrough is ⟨.value v :: stack, locals⟩ h := by
  cases hcast : m.checkCast h (.value v) c .castclass <;>
    simp [runThrough, stepPlain, Instr.classOperand, bind, Except.bind, Frame.pop, hcast]

theorem runThrough_ldfld (hinstance : field.isStatic = false) :
    m.runThrough (⟨.volatileLdfld, .fieldRef field⟩ :: is) ⟨.value (.ref o) :: stack, locals⟩ h =
      match h.load o field.slot with
      | .error err => some (.error err, h)
      | .ok v => m.runThrough is ⟨.value v :: stack, locals⟩ h := by
  cases hload : h.load o field.slot <;>
    simp [runThrough, stepPlain, Instr.fieldOperand, bind, Except.bind, Frame.popRef,
      Frame.popValue, Frame.pop, Frame.pushValue, Frame.push, hinstance, hload]

theorem runThrough_ldfld_null (hinstance : field.isStatic = false) :
    m.runThrough (⟨.volatileLdfld, .fieldRef field⟩ :: is) ⟨.value .null :: stack, locals⟩ h =
      some (.error (.nullReference .volatileLdfld), h) := by
  simp [runThrough, stepPlain, Instr.fieldOperand, bind, Except.bind, Frame.popRef, Frame.popValue,
    Frame.pop, hinstance]

theorem runThrough_stfld (hinstance : field.isStatic = false) :
    m.runThrough (⟨.volatileStfld, .fieldRef field⟩ :: is)
        ⟨.value v :: .value (.ref o) :: stack, locals⟩ h =
      match h.store o field.slot v with
      | .error err => some (.error err, h)
      | .ok h => m.runThrough is ⟨stack, locals⟩ h := by
  cases hstore : h.store o field.slot v <;>
    simp [runThrough, stepPlain, Instr.fieldOperand, bind, Except.bind, Frame.popRef,
      Frame.popValue, Frame.pop, hinstance, hstore]

theorem runThrough_stfld_null (hinstance : field.isStatic = false) :
    m.runThrough (⟨.volatileStfld, .fieldRef field⟩ :: is)
        ⟨.value v :: .value .null :: stack, locals⟩ h =
      some (.error (.nullReference .volatileStfld), h) := by
  simp [runThrough, stepPlain, Instr.fieldOperand, bind, Except.bind, Frame.popRef, Frame.popValue,
    Frame.pop, hinstance]

theorem runThrough_ldflda (hinstance : field.isStatic = false) :
    m.runThrough (⟨.ldflda, .fieldRef field⟩ :: is) ⟨.value (.ref o) :: stack, locals⟩ h =
      m.runThrough is ⟨.address o field.slot :: stack, locals⟩ h := by
  simp [runThrough, stepPlain, Instr.fieldOperand, bind, Except.bind, Frame.popRef, Frame.popValue,
    Frame.pop, Frame.push, hinstance]

theorem runThrough_ldflda_null (hinstance : field.isStatic = false) :
    m.runThrough (⟨.ldflda, .fieldRef field⟩ :: is) ⟨.value .null :: stack, locals⟩ h =
      some (.error (.nullReference .ldflda), h) := by
  simp [runThrough, stepPlain, Instr.fieldOperand, bind, Except.bind, Frame.popRef, Frame.popValue,
    Frame.pop, hinstance]

theorem runThrough_cmpxchg {operand : Operand} :
    m.runThrough (⟨.cmpxchg, operand⟩ :: is)
        ⟨.value expected :: .value update :: .address o slot :: stack, locals⟩ h =
      match h.compareExchange o slot expected update with
      | .error err => some (.error err, h)
      | .ok (previous, h) => m.runThrough is ⟨.value previous :: stack, locals⟩ h := by
  cases hexchange : h.compareExchange o slot expected update <;>
    simp [runThrough, stepPlain, bind, Except.bind, Frame.popValue, Frame.pop, Frame.pushValue,
      Frame.push, hexchange]

theorem runThrough_ceq :
    m.runThrough (⟨.ceq, .none⟩ :: is) ⟨.value w :: .value v :: stack, locals⟩ h =
      m.runThrough is ⟨.value (.bool (v = w)) :: stack, locals⟩ h := by
  simp [runThrough, stepPlain, bind, Except.bind, Frame.popValue, Frame.pop, Frame.pushValue,
    Frame.push]

theorem runThrough_areturn :
    m.runThrough (⟨.areturn, .none⟩ :: is) ⟨.value v :: stack, locals⟩ h =
      some (.ok (some v), h) := by
  simp [runThrough, stepPlain, bind, Except.bind, Frame.popValue, Frame.pop]

/-- A value that a cast lets pass is null or a reference. -/
theorem eq_null_or_ref_of_checkCast {op : Opcode} (hcast : m.checkCast h (.value v) c op = .ok ()) :
    v = .null ∨ ∃ o, v = .ref o := by
  cases v with
  | null => exact .inl rfl
  | ref o => exact .inr ⟨o, rfl⟩
  | int n => cases hcast
  | bool b => cases hcast

/-- The load casts the target and reads the slot. -/
theorem runThrough_get (hinstance : field.isStatic = false) :
    m.runThrough (Accessor.codeOf field .get) (.ofArgs [x, target]) h =
      some (do
        m.checkCast h (.value target) field.declaring .castclass
        let o ← Registers.object target .volatileLdfld
        (h.load o field.slot).map some, h) := by
  unfold Accessor.codeOf Accessor.getCode Frame.ofArgs
  dsimp only
  rw [runThrough_ldarg target rfl, runThrough_castclass]
  cases hcast : m.checkCast h (.value target) field.declaring .castclass with
  | error err => rfl
  | ok _ =>
    rcases eq_null_or_ref_of_checkCast hcast with rfl | ⟨o, rfl⟩
    · exact runThrough_ldfld_null hinstance
    · dsimp only
      rw [runThrough_ldfld hinstance]
      simp only [Registers.object, bind, Except.bind]
      cases h.load o field.slot with
      | error err => rfl
      | ok v => exact runThrough_areturn

/-- The store casts the target and the value and writes the slot. -/
theorem runThrough_set (hinstance : field.isStatic = false) :
    m.runThrough (Accessor.codeOf field .set) (.ofArgs [x, target, v]) h =
      some (match (do
          m.checkCast h (.value target) field.declaring .castclass
          m.checkCast h (.value v) field.type .castclass
          let o ← Registers.object target .volatileStfld
          h.store o field.slot v : Except ExecError Heap) with
        | .error err => (.error err, h)
        | .ok h => (.ok none, h)) := by
  unfold Accessor.codeOf Accessor.setCode Frame.ofArgs
  dsimp only
  rw [runThrough_ldarg target rfl, runThrough_castclass]
  cases hcast : m.checkCast h (.value target) field.declaring .castclass with
  | error err => rfl
  | ok _ =>
    dsimp only
    rw [runThrough_ldarg v rfl, runThrough_castclass]
    cases m.checkCast h (.value v) field.type .castclass with
    | error err => rfl
    | ok _ =>
      rcases eq_null_or_ref_of_checkCast hcast with rfl | ⟨o, rfl⟩
      · exact runThrough_stfld_null hinstance
      · dsimp only
        rw [runThrough_stfld hinstance]
        simp only [Registers.object, bind, Except.bind]
        cases h.store o field.slot v with
        | error err => rfl
        | ok h => rfl

/-- The compare-and-set casts the target, the update and the expected value, in this order,
and tells whether the slot held the expected value. -/
theorem runThrough_compareAndSet (hinstance : field.isStatic = false) :
    m.runThrough (Accessor.codeOf field .compareAndSet) (.ofArgs [x, target, expected, update]) h =
      some (match (do
          m.checkCast h (.value target) field.declaring .castclass
          let o ← Registers.object target .ldflda
          m.checkCast h (.value update) field.type .castclass
          m.checkCast h (.value expected) field.type .castclass
          h.compareExchange o field.slot expected update : Except ExecError (Value × Heap)) with
        | .error err => (.error err, h)
        | .ok (previous, h) => (.ok (some (.bool (previous = expected))), h)) := by
  unfold Accessor.codeOf Accessor.compareAndSetCode Frame.ofArgs
  dsimp only
  rw [runThrough_ldarg target rfl, runThrough_castclass]
  cases hcast : m.checkCast h (.value target) field.declaring .castclass with
  | error err => rfl
  | ok _ =>
    dsimp only
    rcases eq_null_or_ref_of_checkCast hcast with rfl | ⟨o, rfl⟩
    · exact runThrough_ldflda_null hinstance
    · rw [runThrough_ldflda hinstance, runThrough_ldarg update rfl, runThrough_castclass]
      simp only [Registers.object, bind, Except.bind]
      cases m.checkCast h (.value update) field.type .castclass with
      | error err => rfl
      | ok _ =>
        dsimp only
        rw [runThrough_ldarg expected rfl, runThrough_castclass]
        cases m.checkCast h (.value expected) field.type .castclass with
        | error err => rfl
        | ok _ =>
          dsimp only
          rw [runThrough_cmpxchg]
          cases h.compareExchange o field.slot expected update with
          | error err => rfl
          | ok result =>
            dsimp only
            rw [runThrough_ldarg expected rfl, runThrough_ceq, runThrough_areturn]

/-- The constructor does nothing to the heap. -/
theorem runThrough_init (base : ClassId) :
    m.runThrough (Accessor.initCode base) (.ofArgs [.ref o]) h = some (.ok none, h) := by
  unfold Accessor.initCode Frame.ofArgs
  rw [runThrough_ldarg (.ref o) rfl]
  rfl

variable {a : Accessor} {fuel : Nat}

/-- The longest body has eleven instructions. -/
theorem length_codeOf_le (op : FieldOp) : (Accessor.codeOf field op).length ≤ 11 := by
  cases op <;> simp [Accessor.codeOf, Accessor.compareAndSetCode, Accessor.getCode,
    Accessor.setCode]

/-- No body constructs an object. -/
theorem opcode_ne_newobj_of_mem_codeOf {op : FieldOp} {i : Instr}
    (hi : i ∈ Accessor.codeOf field op) : i.opcode ≠ .newobj := by
  revert i
  cases op <;> simp [Accessor.codeOf, Accessor.compareAndSetCode, Accessor.getCode,
    Accessor.setCode]

/-- With fuel for eleven instructions an operation is executed to its end. -/
theorem execute_method (hmade : a.WellMade) {op : FieldOp} (hfuel : 11 ≤ fuel) {args : List Value}
    {out : Except ExecError (Option Value) × Heap}
    (hrun : m.runThrough (Accessor.codeOf a.field op) (.ofArgs args) h = some out) :
    m.execute fuel (a.method op) args h = (out.1.mapError .error, out.2) := by
  refine run_of_runThrough ?_ (fun i => opcode_ne_newobj_of_mem_codeOf)
    ((length_codeOf_le op).trans hfuel) hrun
  rw [hmade.method op, List.drop_zero]

/-- With fuel for three instructions a constructor is executed to its end. -/
theorem execute_init (hmade : a.WellMade) (hfuel : 3 ≤ fuel) :
    m.execute fuel a.init [.ref o] h = (.ok none, h) := by
  refine run_of_runThrough ?_ ?_ hfuel (runThrough_init a.base)
  · rw [hmade.init, List.drop_zero]
  · simp [Accessor.initCode]

end Machine

end FieldUpdater
