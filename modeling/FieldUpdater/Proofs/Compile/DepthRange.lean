import FieldUpdater.Proofs.Compile.Arguments
import FieldUpdater.Proofs.Compile.Operands
import FieldUpdater.Proofs.Compile.Overflow

/-!
# The range of depths

One instruction of a method leaves at most one entry more than there was, whether it is kept or
replaced. What a jump records and an instruction after a terminator takes up again was there
before, and a handler begins with one entry. Before an instruction there are therefore no more
entries than one for each instruction before it and one for the exception of a handler. In a method
of few enough instructions every depth is a word then, so that checked arithmetic meets no overflow
and wrapping arithmetic wraps nothing.
-/

namespace FieldUpdater

/-- No depth of the assembler exceeds a limit: not the present one, not one recorded and not the
largest measured. -/
structure Assembler.Within (limit : Nat) (a : Assembler) : Prop where
  bounded : a.Bounded
  maxDepth : a.maxDepth.toNat ≤ limit

/-- What the stack model takes an instruction to push is at most one more than what it pops. -/
theorem Instr.pushes_le_of_modelEffect? {mode : Arithmetic} {pool : ConstantPool} {i : Instr}
    {pops pushes : UInt16} (h : i.modelEffect? mode pool = some (pops, pushes)) :
    pushes.toNat ≤ pops.toNat + 1 := by
  cases hcall : i.opcode.isCall with
  | true =>
    obtain ⟨-, -, signature, -, -, -, -, rfl⟩ := (Compile.modelEffect?_call_iff hcall).mp h
    have hone : (if signature.hasResult then 1 else 0 : UInt16).toNat ≤ 1 := by
      split <;> decide
    omega
  | false =>
    obtain ⟨p, q, heffect, rfl, rfl⟩ := (Compile.modelEffect?_plain_iff hcall).mp h
    obtain ⟨hpops, hpushes⟩ := Opcode.toNat_stackEffect heffect
    rw [hpops, hpushes]
    exact (Opcode.stackEffect_small heffect).2.2

/-- The construction of an accessor leaves one entry more than the three that it takes. -/
theorem Accessor.growth_constructionCode (accessor : Accessor) :
    (accessor.constructionCode.map Instr.growth).sum = 1 := rfl

namespace Assembler

variable {a : Assembler} {n : Nat} {pops pushes : UInt16}

theorem Within.depth (h : a.Within n) : a.depth.toNat ≤ n := h.bounded.depth.trans h.maxDepth

/-- Nothing is deeper than the exception with which a handler begins, or than before. -/
theorem Within.enter (h : a.Within n) (hn : 1 ≤ n) (handlers : List Handler) (index : Nat) :
    (Compile.enter handlers index a).Within n := by
  refine ⟨Compile.bounded_enter h.bounded handlers index, ?_⟩
  have hbegun : (a.beginSource index).maxDepth.toNat ≤ n :=
    (congrArg UInt16.toNat (a.maxDepth_beginSource index)).trans_le h.maxDepth
  unfold Compile.enter
  dsimp only
  split
  · rw [toNat_maxDepth_resetDepth]
    exact Nat.max_le.mpr ⟨hbegun, hn⟩
  · exact hbegun

theorem Within.appendWith (h : a.Within n) (i : Instr) (hpushes : pushes.toNat ≤ pops.toNat + 1) :
    (a.appendWith i pops pushes).2.Within (n + 1) := by
  have hmax := h.bounded.maxDepth_appendWith_le i pops pushes
  have hn := h.maxDepth
  exact ⟨h.bounded.appendWith i pops pushes, by omega⟩

theorem Within.construction (h : a.Within n) (accessor : Accessor) :
    (a.appendAll accessor.constructionCode).2.Within (n + 1) := by
  have hmax := h.bounded.maxDepth_appendAll_le accessor.constructionCode
  have hn := h.maxDepth
  rw [accessor.growth_constructionCode] at hmax
  exact ⟨h.bounded.appendAll _, by omega⟩

end Assembler

namespace Compile

/-- Every call of a method is one of fewer than 65535 parameters. -/
def FewParams (c : SourceClass) (m : SourceMethod) : Prop :=
  ∀ i ∈ m.code, i.opcode.isCall = true → ∀ signature, i.signature? c.pool = some signature →
    signature.params.length < 65535

/-- Nothing has overflowed, neither in the code of a method nor in what replaces a call. -/
def InRange {α : Type} (result : Except CompileError α) : Prop :=
  ∀ source, result ≠ .error (.assembly (.overflow source)) ∧
    result ≠ .error (.synthesis (.assembly (.overflow source)))

variable {settings : Settings} {c : SourceClass} {m : SourceMethod} {mode : Arithmetic}
  {index n : Nat} {i : Instr} {d d' : Draft} {space space' : Workspace} {a : Assembler}

/-- The limit rises by one with every instruction, whether it is kept or replaced. -/
theorem Compiled.within (h : Compiled settings c m index i d space d' space')
    (hwithin : d.assembler.Within (index + 1)) : d'.assembler.Within (index + 2) := by
  have hentered := hwithin.enter (Nat.le_add_left 1 index) m.handlers index
  cases h with
  | kept _ heffect happended =>
    have hafter := hentered.appendWith i (Instr.pushes_le_of_modelEffect? heffect)
    rwa [happended] at hafter
  | @replaced _ _ accessor _ _ _ _ happended =>
    have hafter := hentered.construction accessor
    rwa [happended] at hafter

/-- Nothing is on the stack at first. -/
theorem within_empty (mode : Arithmetic) : Assembler.Within 1 { arithmetic := mode } :=
  ⟨Assembler.bounded_empty mode, Nat.zero_le 1⟩

/-- When an instruction is about to be compiled, no depth exceeds its index by more than one. -/
theorem within_of_instrs_take (hindex : index ≤ m.code.size)
    (h : instrs settings c m (Flow.flags m.code m.handlers) 0 (m.code.toList.take index)
      { assembler := { arithmetic := mode } } space = (.ok d, space')) :
    d.assembler.Within (index + 1) := by
  have hwithin := instrs_take_invariant (P := fun k d _ => d.assembler.Within (k + 1))
    (fun _ _ _ _ _ _ _ hwithin hcompiled => hcompiled.within hwithin) (within_empty mode) h
  rwa [Nat.min_eq_left hindex] at hwithin

/-- A compiled method measures at most one entry more than it has instructions. -/
theorem maxStack_le {cm : CompiledMethod}
    (h : method settings c m space mode = (.ok cm, space')) :
    cm.body.maxStack.toNat ≤ m.code.size + 1 := by
  obtain ⟨d, hinstrs, hlink, -⟩ := of_method h
  rw [← List.take_length (l := m.code.toList), Array.length_toList] at hinstrs
  rw [(Assembler.of_link hlink).maxStack]
  exact (within_of_instrs_take le_rfl hinstrs).maxDepth

/-- What is no value overflows or not whatever the values would be. -/
theorem InRange.error {α β : Type} {err : CompileError}
    (h : InRange (.error err : Except CompileError α)) :
    InRange (.error err : Except CompileError β) := fun source =>
  ⟨fun heq => (h source).1 (congrArg Except.error (Except.error.inj heq)),
    fun heq => (h source).2 (congrArg Except.error (Except.error.inj heq))⟩

/-- Keeping what was appended without overflow meets none. -/
theorem inRange_kept {result : Except AssemblyError Unit × Assembler}
    (h : ¬ Assembler.Overflowed result) : InRange (kept result) := by
  obtain ⟨answer, b⟩ := result
  intro source
  cases answer with
  | ok _ => exact ⟨nofun, nofun⟩
  | error err =>
    refine ⟨fun heq => h ⟨source, ?_⟩, nofun⟩
    exact congrArg Except.error (CompileError.assembly.inj (Except.error.inj heq))

/-- A call of fewer than 65535 parameters is kept without overflow. -/
theorem inRange_keepCall (hdepth : a.depth.toNat < 65535) {callee : Callee}
    (hparams : ∀ signature, Signature.parse callee.descriptor = .ok signature →
      signature.params.length < 65535) : InRange (keepCall i callee a) := by
  unfold keepCall
  cases hparse : Signature.parse callee.descriptor with
  | error err => exact fun _ => ⟨nofun, nofun⟩
  | ok signature =>
    have hlength := hparams signature hparse
    have hfew : i.opcode.operands signature.params.length ≤ 65535 := by
      unfold Opcode.operands
      split <;> omega
    dsimp only
    rw [countOperands_eq_ok hfew]
    refine inRange_kept (Assembler.not_overflowed_appendWith i fun _ => ?_)
    have hresult : (if signature.hasResult then 1 else 0 : UInt16).toNat ≤ 1 := by
      split <;> decide
    omega

/-- An instruction is kept without overflow. -/
theorem inRange_keep (hdepth : a.depth.toNat < 65535) (hfew : FewParams c m) (hi : i ∈ m.code) :
    InRange (keep c index i a) := by
  unfold keep
  cases hcall : i.opcode.isCall with
  | true =>
    rw [if_pos rfl]
    cases hconstant : i.poolIndex? with
    | none => exact fun _ => ⟨nofun, nofun⟩
    | some constant =>
      cases hcallee : c.pool.callee constant with
      | error err =>
        simp only [hcallee]
        exact fun _ => ⟨nofun, nofun⟩
      | ok callee =>
        simp only [hcallee]
        refine inRange_keepCall hdepth fun signature hparse => ?_
        exact hfew i hi hcall signature
          (Instr.signature?_eq_some_iff.mpr ⟨constant, callee, hconstant, hcallee, hparse⟩)
  | false =>
    have hgrowth := i.growth_le_one
    exact inRange_kept (Assembler.not_overflowed_append (by omega))

/-- An accessor is made and constructed without overflow. -/
theorem inRange_construct {sites : Array Site} {f : Field} :
    InRange (construct settings index f a sites space).1 := by
  unfold construct
  cases hrequested : space.synthesize settings.baseType f with
  | mk requested after =>
    have hsynthesized := space.synthesized settings.baseType f
    rw [hrequested] at hsynthesized
    cases requested with
    | error err => cases hsynthesized <;> exact fun _ => ⟨nofun, nofun⟩
    | ok accessor =>
      have hfits : ¬ Assembler.Overflowed (a.appendAll accessor.constructionCode) :=
        Assembler.not_overflowed_appendAll_pop (Nat.le_refl 1)
      dsimp only
      generalize a.appendAll accessor.constructionCode = result at hfits ⊢
      obtain ⟨answer, b⟩ := result
      cases answer with
      | ok _ => exact fun _ => ⟨nofun, nofun⟩
      | error err =>
        refine fun source => ⟨nofun, fun heq => hfits ⟨source, ?_⟩⟩
        exact congrArg Except.error
          (SynthesisError.assembly.inj (CompileError.synthesis.inj (Except.error.inj heq)))

/-- An instruction is compiled without overflow, whether it is kept or replaced. -/
theorem inRange_instr (settings : Settings) (space : Workspace)
    (hwithin : d.assembler.Within (index + 1)) (hindex : index + 1 < 65535)
    (hfew : FewParams c m) (hi : i ∈ m.code) :
    InRange (instr settings c m (Flow.flags m.code m.handlers) index i d space).1 := by
  have hdepth := (hwithin.enter (Nat.le_add_left 1 index) m.handlers index).depth
  rw [instr_eq]
  cases replaced? settings c m index i space.table with
  | some f => exact inRange_construct
  | none =>
    have hkept : InRange (keep c index i (enter m.handlers index d.assembler)) :=
      inRange_keep (hdepth.trans_lt hindex) hfew hi
    dsimp only
    generalize keep c index i (enter m.handlers index d.assembler) = result at hkept ⊢
    cases result with
    | ok b => exact fun _ => ⟨nofun, nofun⟩
    | error err => exact hkept.error

/-- The rest of a method of fewer than 65535 instructions is compiled without overflow. -/
theorem inRange_instrs (settings : Settings) (hsize : m.code.size < 65535) (hfew : FewParams c m)
    (is : List Instr) : ∀ {index : Nat} {d : Draft} (space : Workspace),
      m.code.toList.drop index = is → d.assembler.Within (index + 1) →
      InRange (instrs settings c m (Flow.flags m.code m.handlers) index is d space).1 := by
  induction is with
  | nil => exact fun _ _ _ _ => ⟨nofun, nofun⟩
  | cons i is ih =>
    intro index d space hsuffix hwithin
    obtain ⟨hi, hrest⟩ := getElem?_of_drop hsuffix
    -- An index of the method leaves room for the exception and for one more entry.
    have hindex : index < m.code.size := (Array.getElem?_eq_some_iff.mp hi).1
    have hinstr := inRange_instr settings space hwithin (by omega) hfew
      (Array.mem_of_getElem? hi)
    unfold instrs
    cases hcompiled : instr settings c m (Flow.flags m.code m.handlers) index i d space with
    | mk result after =>
      rw [hcompiled] at hinstr
      cases result with
      | error err => exact hinstr.error
      | ok d' => exact ih after hrest ((compiled_of_instr hcompiled).within hwithin)

end Compile

/-- Linking overflows nowhere. -/
theorem Assembler.link_ne_overflow (a : Assembler) (name descriptor : String)
    (handlers : List Handler) (source : Overflow) :
    a.link name descriptor handlers ≠ .error (.overflow source) := by
  intro herror
  have hfailed := a.failure?_link name descriptor handlers
  rw [herror] at hfailed
  obtain ⟨k, -, hmissing⟩ := List.exists_of_findSome?_eq_some hfailed.symm
  unfold missing at hmissing
  split at hmissing <;> cases hmissing

namespace Compile

variable {c : SourceClass} {m : SourceMethod}

/-- A method of fewer than 65535 instructions is compiled without overflow. -/
theorem inRange_method (settings : Settings) (space : Workspace) (hsize : m.code.size < 65535)
    (hfew : FewParams c m) : InRange (method settings c m space).1 := by
  have hinstrs := inRange_instrs settings hsize hfew m.code.toList space List.drop_zero
    (d := {}) (within_empty .checked)
  unfold method
  generalize instrs settings c m (Flow.flags m.code m.handlers) 0 m.code.toList {} space = compiled
    at hinstrs ⊢
  obtain ⟨result, after⟩ := compiled
  cases result with
  | error err => exact hinstrs.error
  | ok d =>
    have hlink := d.assembler.link_ne_overflow m.name m.descriptor m.handlers
    dsimp only
    generalize d.assembler.link m.name m.descriptor m.handlers = linked at hlink ⊢
    cases linked with
    | ok body => exact fun _ => ⟨nofun, nofun⟩
    | error err =>
      refine fun source => ⟨fun heq => hlink source ?_, nofun⟩
      exact congrArg Except.error (CompileError.assembly.inj (Except.error.inj heq))

end Compile

namespace Compile

variable {c : SourceClass} {m : SourceMethod}

/-- However a method is compiled, with calls replaced or kept, with jumps and with handlers, and
in either arithmetic: when an instruction is about to be assembled, the depth exceeds its index by
at most one, and the largest depth of the compiled method the number of its instructions. Words are
therefore enough for the depths of fewer than 65535 instructions and calls of fewer than 65535
parameters. No sum, of a depth or of the operands of a call, and no difference leaves the range of
words, so that wrapping makes no difference, and neither does one when the accessors in place of
the calls are assembled. -/
theorem depths_in_range (settings : Settings) (c : SourceClass) (m : SourceMethod)
    (space : Workspace) (hfew : FewParams c m) :
    (∀ mode index d now, index < m.code.size →
      instrs settings c m (Flow.flags m.code m.handlers) 0 (m.code.toList.take index)
        { assembler := { arithmetic := mode } } space = (.ok d, now) →
      (enter m.handlers index d.assembler).depth.toNat ≤ index + 1) ∧
    (∀ mode cm now, method settings c m space mode = (.ok cm, now) →
      cm.body.maxStack.toNat ≤ m.code.size + 1) ∧
    (m.code.size ≤ 65534 → InRange (method settings c m space).1 ∧
      method settings c m space .wrapping = method settings c m space) ∧
    (∀ f op, ∃ body, ∀ mode, Assembler.straightLine op.name op.descriptor (Accessor.codeOf f op)
      mode = .ok body) ∧
    ∀ base, ∃ body, ∀ mode, Assembler.straightLine "<init>" "()V" (Accessor.initCode base) mode =
      .ok body := by
  refine ⟨fun mode index d now hindex hinstrs => ?_, fun _ _ _ => maxStack_le, fun hsize => ?_,
    fun f op => ?_, fun base => ?_⟩
  · have hwithin := within_of_instrs_take hindex.le hinstrs
    exact (hwithin.enter (Nat.le_add_left 1 index) m.handlers index).depth
  · have hrange := inRange_method settings space (Nat.lt_succ_of_le hsize) hfew
    exact ⟨hrange, (method_wrapping settings c m space).resolve_left
      fun ⟨source, heq⟩ => (hrange source).1 heq⟩
  · obtain ⟨body, hbody, -⟩ := Accessor.exists_assembleOp f op
    refine ⟨body, fun mode => (Assembler.straightLine_eq _ _ ?_ mode).trans hbody⟩
    cases op <;> simp [Accessor.codeOf, Accessor.compareAndSetCode, Accessor.getCode,
      Accessor.setCode]
  · obtain ⟨body, hbody, -⟩ := Accessor.exists_assembleInit base
    exact ⟨body, fun mode =>
      (Assembler.straightLine_eq _ _ (by simp [Accessor.initCode]) mode).trans hbody⟩

/-- With the factory call of the sample about to be replaced there are at most six entries. The
method measures at most eight, and words are enough for it. -/
theorem depths_in_range_updater : ∃ d now cm after,
    instrs {} Sample.node Sample.updater
      (Flow.flags Sample.updater.code Sample.updater.handlers) 0
      (Sample.updater.code.toList.take 5) {} Sample.space = (.ok d, now) ∧
    (enter Sample.updater.handlers 5 d.assembler).depth.toNat ≤ 6 ∧
    method {} Sample.node Sample.updater Sample.space = (.ok cm, after) ∧
    cm.sites.map (·.index) = #[5] ∧ cm.body.maxStack.toNat ≤ 8 ∧
    method {} Sample.node Sample.updater Sample.space .wrapping = (.ok cm, after) := by
  have hfew : FewParams Sample.node Sample.updater := by
    intro i hi hcall signature hsignature
    have hread : Sample.updater.code.all (fun i => !i.opcode.isCall ||
        ((i.signature? Sample.node.pool).all fun signature => signature.params.length < 65535)) =
          true := by
      decide +kernel
    have hthis := Array.all_eq_true_iff_forall_mem.mp hread i hi
    rw [hcall, hsignature] at hthis
    simpa using hthis
  have htake : ((instrs {} Sample.node Sample.updater
      (Flow.flags Sample.updater.code Sample.updater.handlers) 0
      (Sample.updater.code.toList.take 5) {} Sample.space).1.toOption.map
        fun d => d.sites.size) = some 0 := by
    decide +kernel
  have hmethod : ((method {} Sample.node Sample.updater Sample.space).1.toOption.map
      fun cm => cm.sites.map (·.index)) = some #[5] := by
    decide +kernel
  obtain ⟨d, now, hinstrs, -⟩ := exists_eq_ok_of_toOption _ htake
  obtain ⟨cm, after, hcompiled, hsites⟩ := exists_eq_ok_of_toOption _ hmethod
  obtain ⟨hdepth, hmax, hwords, -⟩ :=
    depths_in_range {} Sample.node Sample.updater Sample.space hfew
  exact ⟨d, now, cm, after, hinstrs, hdepth .checked 5 d now (by decide) hinstrs, hcompiled,
    hsites, hmax .checked cm after hcompiled, (hwords (by decide)).2.trans hcompiled⟩

/-- Two entries on top of the exception of a handler that covers the whole method. -/
example : ((method {} ⟨⟨11⟩, ⟨#[]⟩, []⟩
    ⟨"m", "()V", #[⟨.aconstNull, .none⟩, ⟨.aconstNull, .none⟩], [⟨0, 2, 0⟩]⟩
    Sample.space).1.toOption.map fun cm => cm.body.maxStack) = some 3 := by
  decide +kernel

end Compile

end FieldUpdater
