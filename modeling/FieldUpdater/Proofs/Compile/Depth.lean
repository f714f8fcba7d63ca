import FieldUpdater.Proofs.Compile.Arguments
import FieldUpdater.Proofs.Compile.Operands
import Mathlib.Data.Finset.Lattice.Fold
import Mathlib.Order.Lattice.Nat

/-!
# The depth of the operand stack

Depths can be assigned to the instructions of verifiable code so that every path of
control agrees with them. The assembler meets such an assignment in a single pass as
long as it knows the depth when control does not fall through: from a handler, from a
jump that stands before, or because nothing is on the stack. It then accepts the code
and measures exactly the largest depth assigned. Since every depth assigned is a word,
the one after the last instruction included, this is so in either arithmetic.
-/

namespace FieldUpdater

namespace SourceMethod

variable {pool : ConstantPool} {m : SourceMethod} {d : Nat → Nat} {k t : Nat} {i : Instr}

/-- What the instruction at an index pops and pushes. -/
def effect (m : SourceMethod) (pool : ConstantPool) (k : Nat) : Nat × Nat :=
  ((m.code[k]?).bind (·.effect? pool)).getD (0, 0)

/-- Where the instruction at an index jumps to. -/
def jump? (m : SourceMethod) (k : Nat) : Option Nat := (m.code[k]?).bind Instr.branchTarget?

/-- Whether control never falls through from the instruction at an index. -/
def terminates (m : SourceMethod) (k : Nat) : Bool := (m.code[k]?).any (·.opcode.isTerminator)

/-- The depth after an instruction. -/
def depthAfter (m : SourceMethod) (pool : ConstantPool) (d : Nat → Nat) (k : Nat) : Nat :=
  d k - (m.effect pool k).1 + (m.effect pool k).2

/-- The largest depth before or after an instruction. -/
def peak (m : SourceMethod) (pool : ConstantPool) (d : Nat → Nat) : Nat :=
  (Finset.range m.code.size).sup fun k => max (d k) (m.depthAfter pool d k)

/-- Calls name methods of the pool, and jumps and handlers stay within the code. -/
structure WellFormed (pool : ConstantPool) (m : SourceMethod) : Prop where
  effect : ∀ i ∈ m.code, (i.effect? pool).isSome
  jump : ∀ k < m.code.size, ∀ t ∈ m.jump? k, t < m.code.size
  handler : ∀ h ∈ m.handlers,
    h.start < m.code.size ∧ h.stop ≤ m.code.size ∧ h.entry < m.code.size

/-- A consistent assignment of depths to the instructions of a method and, where control falls
through its last instruction, to its end. -/
structure Depths (pool : ConstantPool) (m : SourceMethod) (d : Nat → Nat) : Prop where
  start : d 0 = 0
  /-- A handler begins with the exception on the stack. -/
  handler : ∀ h ∈ m.handlers, d h.entry = 1
  /-- A depth is a word. -/
  bound : ∀ k ≤ m.code.size, d k ≤ 65535
  pops : ∀ k < m.code.size, (m.effect pool k).1 ≤ d k
  jump : ∀ k < m.code.size, ∀ t ∈ m.jump? k, d t = d k - (m.effect pool k).1
  next : ∀ k < m.code.size, m.terminates k = false → d (k + 1) = m.depthAfter pool d k

/-- Where control does not fall through to an instruction, a handler begins, a jump before it
comes there, or nothing is on the stack. -/
def EnteredForward (m : SourceMethod) (d : Nat → Nat) : Prop :=
  ∀ k, k + 1 < m.code.size → m.terminates k = true →
    (∃ h ∈ m.handlers, h.entry = k + 1) ∨ (∃ j ≤ k, m.jump? j = some (k + 1)) ∨ d (k + 1) = 0

/-- The state of the stack model before an instruction of a method with assigned depths. -/
structure Modelled (pool : ConstantPool) (m : SourceMethod) (d : Nat → Nat) (k : Nat)
    (a : Assembler) : Prop where
  /-- Control that falls through comes with the depth assigned. -/
  depth : a.afterTerminator = false → k < m.code.size →
    a.depth.toNat = d k ∧ d k ≤ a.maxDepth.toNat
  terminated : a.afterTerminator = true → ∃ j, k = j + 1 ∧ m.terminates j = true
  /-- Jumps have recorded the depths assigned to their targets. -/
  recorded : ∀ (t : Nat) (v : UInt16), a.branchDepths[t]? = some v →
    v.toNat = d t ∧ v.toNat ≤ a.maxDepth.toNat
  jumped : ∀ j < k, ∀ t ∈ m.jump? j, t ∈ a.branchDepths
  maxDepth : a.maxDepth.toNat = (Finset.range k).sup fun j => max (d j) (m.depthAfter pool d j)

/-- An instruction of a well formed method has an effect. -/
theorem WellFormed.effect?_eq (h : m.WellFormed pool) (hi : m.code[k]? = some i) :
    i.effect? pool = some (m.effect pool k) := by
  obtain ⟨effect, heffect⟩ := Option.isSome_iff_exists.mp (h.effect i (Array.mem_of_getElem? hi))
  simp [SourceMethod.effect, hi, heffect]

/-- The depth after an instruction is a word as well: it is assigned to the next, or nothing has
been pushed. -/
theorem Depths.depthAfter_le (hd : m.Depths pool d) (hk : k < m.code.size) :
    m.depthAfter pool d k ≤ 65535 := by
  cases hterminates : m.terminates k with
  | false =>
    rw [← hd.next k hk hterminates]
    exact hd.bound (k + 1) hk
  | true =>
    have hterminator : m.code[k].opcode.isTerminator = true := by
      simpa [terminates, hk] using hterminates
    have hnothing : (m.effect pool k).2 = 0 := by
      cases heffect : m.code[k].effect? pool with
      | none => simp [SourceMethod.effect, hk, heffect]
      | some e =>
        have hpushes := Instr.pushes_of_isTerminator hterminator heffect
        simpa [SourceMethod.effect, hk, heffect] using hpushes
    have hbound := hd.bound k hk.le
    rw [depthAfter, hnothing]
    omega

/-- What the stack model takes an instruction for is what it pops and pushes. -/
theorem effect_of_modelEffect? {mode : Arithmetic} {pops pushes : UInt16}
    (hi : m.code[k]? = some i) (h : i.modelEffect? mode pool = some (pops, pushes))
    (hle : (m.effect pool k).1 ≤ 65535) : m.effect pool k = (pops.toNat, pushes.toNat) := by
  obtain ⟨⟨p, q⟩, heffect?⟩ :=
    Option.isSome_iff_exists.mp (Instr.isSome_effect?_of_modelEffect? h)
  have heffect : m.effect pool k = (p, q) := by simp [effect, hi, heffect?]
  rw [heffect] at hle ⊢
  have hq : q ≤ 2 := Instr.pushes_le_of_effect? heffect?
  rw [Instr.modelEffect?_of_effect? mode heffect? hle] at h
  obtain ⟨rfl, rfl⟩ := Prod.mk.inj (Option.some.inj h)
  rw [UInt16.toNat_ofNat_of_lt' (Nat.lt_succ_of_le hle),
    UInt16.toNat_ofNat_of_lt' (hq.trans_lt (by decide))]

/-- An instruction is begun with the depth assigned to it. -/
theorem Modelled.enter {a : Assembler} (h : m.Modelled pool d k a) (hd : m.Depths pool d)
    (hforward : m.EnteredForward d) (hk : k < m.code.size) :
    (Compile.enter m.handlers k a).depth.toNat = d k ∧
      (Compile.enter m.handlers k a).maxDepth.toNat = max a.maxDepth.toNat (d k) ∧
      (Compile.enter m.handlers k a).branchDepths = a.branchDepths := by
  unfold Compile.enter
  by_cases hhandler : (m.handlers.any fun h => h.entry = k) = true
  · rw [if_pos hhandler]
    obtain ⟨handler, hmem, hentry⟩ := List.any_eq_true.mp hhandler
    have hone : d k = 1 := by
      rw [← of_decide_eq_true hentry]
      exact hd.handler handler hmem
    rw [hone]
    unfold Assembler.resetDepth Assembler.beginSource
    by_cases hterminated : a.afterTerminator = true <;> simp [hterminated, UInt16.toNat_max]
  · rw [if_neg hhandler]
    unfold Assembler.beginSource
    by_cases hterminated : a.afterTerminator = true
    · simp only [hterminated, ↓reduceIte]
      obtain ⟨j, rfl, hj⟩ := h.terminated hterminated
      rcases hforward j hk hj with ⟨handler, hmem, hentry⟩ | ⟨j', hj', hjump⟩ | hzero
      · exact absurd (List.any_eq_true.mpr ⟨handler, hmem, decide_eq_true hentry⟩) hhandler
      · have hmem := h.jumped j' (by omega) _ hjump
        obtain ⟨v, hv⟩ := Option.isSome_iff_exists.mp (Std.TreeMap.mem_iff_isSome_getElem?.mp hmem)
        obtain ⟨heq, hle⟩ := h.recorded _ v hv
        rw [heq] at hle
        simp [hv, heq, hle]
      · cases hv : a.branchDepths[j + 1]? with
        | none => simp [hzero]
        | some v =>
          obtain ⟨heq, hle⟩ := h.recorded _ v hv
          rw [heq] at hle
          simp [heq, hle]
    · obtain ⟨hdepth, hle⟩ := h.depth (by simpa using hterminated) hk
      simp [hterminated, hdepth, hle]

/-- What the code of an instruction does to the stack model when it pops and pushes what the
instruction does. -/
structure Carries (pool : ConstantPool) (m : SourceMethod) (d : Nat → Nat) (k : Nat)
    (a b : Assembler) : Prop where
  depth : b.depth.toNat = m.depthAfter pool d k
  maxDepth : b.maxDepth.toNat = max a.maxDepth.toNat (m.depthAfter pool d k)
  afterTerminator : b.afterTerminator = m.terminates k
  recorded : ∀ (t : Nat) (v : UInt16), b.branchDepths[t]? = some v →
    a.branchDepths[t]? = some v ∨ m.jump? k = some t ∧ v.toNat = d k - (m.effect pool k).1
  mem_branchDepths : ∀ t, t ∈ b.branchDepths ↔ m.jump? k = some t ∨ t ∈ a.branchDepths

/-- An instruction that is begun with the depth assigned to it leaves the state before the next. -/
theorem Modelled.next {a b : Assembler} (h : m.Modelled pool d k a) (hd : m.Depths pool d)
    (hforward : m.EnteredForward d) (hk : k < m.code.size)
    (hcarries : Carries pool m d k (Compile.enter m.handlers k a) b) :
    m.Modelled pool d (k + 1) b := by
  obtain ⟨hdepth, hmax, hbranches⟩ := h.enter hd hforward hk
  have hgreatest : b.maxDepth.toNat = max (max a.maxDepth.toNat (d k)) (m.depthAfter pool d k) := by
    rw [hcarries.maxDepth, hmax]
  refine ⟨?_, ?_, ?_, ?_, ?_⟩
  · intro hfalls hlt
    rw [hcarries.afterTerminator] at hfalls
    rw [hcarries.depth, hd.next k hk hfalls, hgreatest]
    exact ⟨rfl, Nat.le_max_right ..⟩
  · intro hterminated
    exact ⟨k, rfl, hcarries.afterTerminator.symm.trans hterminated⟩
  · intro t v hv
    rw [hgreatest]
    rcases hcarries.recorded t v hv with hold | ⟨htarget, hleft⟩
    · rw [hbranches] at hold
      obtain ⟨heq, hle⟩ := h.recorded t v hold
      exact ⟨heq, by omega⟩
    · rw [hleft]
      exact ⟨(hd.jump k hk t htarget).symm, by omega⟩
  · intro j hj t ht
    rw [hcarries.mem_branchDepths, hbranches]
    rcases Nat.lt_succ_iff_lt_or_eq.mp hj with hlt | rfl
    · exact .inr (h.jumped j hlt t ht)
    · exact .inl ht
  · rw [hgreatest, Finset.range_add_one, Finset.sup_insert, ← h.maxDepth]
    omega

/-- A kept instruction pops and pushes what it does, and is admitted. -/
theorem Modelled.kept {a : Assembler} (h : m.Modelled pool d k a) (hd : m.Depths pool d)
    (hforward : m.EnteredForward d) (hi : m.code[k]? = some i) {pops pushes : UInt16}
    (heffect : m.effect pool k = (pops.toNat, pushes.toNat)) :
    (Compile.enter m.handlers k a).Admits pops pushes ∧
      Carries pool m d k (Compile.enter m.handlers k a)
        ((Compile.enter m.handlers k a).extended i pops pushes) := by
  have hk : k < m.code.size := (Array.getElem?_eq_some_iff.mp hi).1
  obtain ⟨hdepth, -, -⟩ := h.enter hd hforward hk
  have hterminates : m.terminates k = i.opcode.isTerminator := by simp [terminates, hi]
  have hjump : m.jump? k = i.branchTarget? := by simp [jump?, hi]
  have hpops : pops.toNat ≤ (Compile.enter m.handlers k a).depth.toNat := by
    have hle := hd.pops k hk
    rwa [heffect, ← hdepth] at hle
  have hafter : m.depthAfter pool d k =
      (Compile.enter m.handlers k a).depth.toNat - pops.toNat + pushes.toNat := by
    rw [depthAfter, heffect, hdepth]
  have hroom := hd.depthAfter_le hk
  rw [hafter] at hroom
  have hleft : ((Compile.enter m.handlers k a).extended i pops pushes).depth.toNat =
      m.depthAfter pool d k :=
    (Arithmetic.toNat_depth hpops (Nat.lt_succ_of_le hroom)).trans hafter.symm
  refine ⟨.of_lt hpops (Nat.lt_succ_of_le hroom), hleft, ?_, hterminates.symm, ?_, ?_⟩
  · rw [Assembler.toNat_maxDepth_extended, hleft]
  · intro t v hv
    refine (Assembler.branchDepths_extended hv).imp_right ?_
    rintro ⟨htarget, rfl⟩
    rw [hjump, heffect, Arithmetic.toNat_sub hpops, hdepth]
    exact ⟨htarget, rfl⟩
  · intro t
    rw [hjump]
    exact Assembler.mem_branchDepths_extended

/-- The construction of an accessor pops and pushes what the call does that it replaces. -/
theorem Modelled.constructed {a b : Assembler} (h : m.Modelled pool d k a) (hd : m.Depths pool d)
    (hforward : m.EnteredForward d) (hi : m.code[k]? = some i) (hcall : i.opcode.isCall = true)
    (heffect : m.effect pool k = (3, 1)) {accessor : ClassId}
    (happended : (Compile.enter m.handlers k a).appendAll (Layout.constructionOf accessor) =
      (.ok (), b)) : Carries pool m d k (Compile.enter m.handlers k a) b := by
  have hk : k < m.code.size := (Array.getElem?_eq_some_iff.mp hi).1
  obtain ⟨hdepth, hmax, -⟩ := h.enter hd hforward hk
  have hthree := hd.pops k hk
  rw [heffect] at hthree
  obtain ⟨b', happended', hdepth', hmax', hbranches', hfalls, -⟩ :=
    Layout.appendAll_constructionOf accessor (hdepth ▸ hthree) (by omega)
  obtain rfl : b = b' := by
    rw [happended] at happended'
    exact (Prod.mk.inj happended').2
  have hafter : m.depthAfter pool d k = d k - 3 + 1 := by rw [depthAfter, heffect]
  have hterminates : m.terminates k = false := by
    cases hterminator : i.opcode.isTerminator with
    | false => simp [terminates, hi, hterminator]
    | true => rw [Opcode.isCall_of_isTerminator hterminator] at hcall; cases hcall
  have hjump : m.jump? k = none := by
    cases hbranch : i.opcode.isBranch with
    | false => simp [jump?, hi, Instr.branchTarget?, hbranch]
    | true => rw [Opcode.isCall_of_isBranch hbranch] at hcall; cases hcall
  have hless : d k - 3 + 1 ≤ d k := by omega
  have hroom := hd.bound k hk.le
  refine ⟨?_, ?_, hfalls.trans hterminates.symm, ?_, ?_⟩
  · rw [hdepth', hafter, ← hdepth]
    exact Arithmetic.toNat_depth (hdepth ▸ hthree) (by change _ - 3 + 1 < 65536; omega)
  · rw [hmax', hafter, hmax]
    omega
  · intro t v hv
    rw [hbranches'] at hv
    exact .inl hv
  · simp [hbranches', hjump]

variable {settings : Settings} {c : SourceClass} {mode : Arithmetic}

/-- At first nothing has been assembled. -/
theorem Depths.modelled_empty (hd : m.Depths pool d) (mode : Arithmetic) :
    m.Modelled pool d 0 { arithmetic := mode } where
  depth _ _ := ⟨hd.start.symm, hd.start.le⟩
  terminated := by simp
  recorded := by simp
  jumped := by simp
  maxDepth := rfl

/-- However an instruction is compiled, the depths stay those assigned. -/
theorem Modelled.compiled {draft draft' : Draft} {space space' : Workspace}
    (h : m.Modelled c.pool d k draft.assembler) (hd : m.Depths c.pool d)
    (hforward : m.EnteredForward d)
    (hfactory : settings.isFactoryCall c.pool i = true → i.effect? c.pool = some (3, 1))
    (hi : m.code[k]? = some i) (hc : Compile.Compiled settings c m k i draft space draft' space') :
    m.Modelled c.pool d (k + 1) draft'.assembler := by
  have hk : k < m.code.size := (Array.getElem?_eq_some_iff.mp hi).1
  refine h.next hd hforward hk ?_
  cases hc with
  | kept _ hknown happended =>
    obtain ⟨-, rfl⟩ := Assembler.appendWith_eq_ok_iff.mp happended
    have heffect := effect_of_modelEffect? hi hknown ((hd.pops k hk).trans (hd.bound k hk.le))
    exact (h.kept hd hforward hi heffect).2
  | replaced hcalls hmatched hsynthesized happended =>
    have heffect : m.effect c.pool k = (3, 1) := by simp [effect, hi, hfactory hcalls]
    have hcall : i.opcode.isCall = true := by rw [Settings.opcode_of_isFactoryCall hcalls]; rfl
    exact h.constructed hd hforward hi hcall heffect happended

/-- Of a method that is compiled the largest depth is measured. -/
theorem peak_of_method
    (hfactory : ∀ i, settings.isFactoryCall c.pool i = true → i.effect? c.pool = some (3, 1))
    (hd : m.Depths c.pool d) (hforward : m.EnteredForward d) {cm : CompiledMethod}
    {space space' : Workspace} (h : Compile.method settings c m space mode = (.ok cm, space')) :
    cm.body.maxStack.toNat = m.peak c.pool d := by
  obtain ⟨draft, hinstrs, hlink, -⟩ := Compile.of_method h
  have hend : m.Modelled c.pool d m.code.size draft.assembler :=
    Compile.instrs_invariant (P := fun k draft _ => m.Modelled c.pool d k draft.assembler)
      (fun k i _ _ _ _ hi hmodelled hc => hmodelled.compiled hd hforward (hfactory i) hi hc)
      (hd.modelled_empty mode) hinstrs
  exact (congrArg UInt16.toNat (Assembler.of_link hlink).maxStack).trans hend.maxDepth

/-- The next instruction is accepted. -/
private theorem Modelled.instr_eq_ok (hdisabled : settings.enabled = false)
    (hwf : m.WellFormed c.pool) (hd : m.Depths c.pool d) (hforward : m.EnteredForward d)
    (hi : m.code[k]? = some i) (space : Workspace) {draft : Draft}
    (h : m.Modelled c.pool d k draft.assembler) : ∃ a,
      Compile.instr settings c m (Flow.flags m.code m.handlers) k i draft space =
        (.ok ⟨a, draft.sites⟩, space) ∧
      a.code = draft.assembler.code.push i ∧ m.Modelled c.pool d (k + 1) a := by
  have hk : k < m.code.size := (Array.getElem?_eq_some_iff.mp hi).1
  have hknown := Instr.modelEffect?_of_effect? draft.assembler.arithmetic (hwf.effect?_eq hi)
    ((hd.pops k hk).trans (hd.bound k hk.le))
  have heffect := effect_of_modelEffect? hi hknown ((hd.pops k hk).trans (hd.bound k hk.le))
  obtain ⟨hadmitted, hcarries⟩ := h.kept hd hforward hi heffect
  have hkept : Compile.replaced? settings c m k i space.table = none :=
    Compile.replaced?_eq_none_iff.mpr fun hfactory =>
      absurd hfactory (by simp [Settings.isFactoryCall_of_disabled hdisabled])
  refine ⟨_, Compile.instr_eq_ok_of_kept hkept hknown
    (Assembler.appendWith_eq_ok_iff.mpr ⟨hadmitted, rfl⟩), ?_, h.next hd hforward hk hcarries⟩
  rw [Assembler.extended_code, (Layout.enter_facts m.handlers k draft.assembler).1]

/-- The rest of a method is accepted. -/
private theorem Modelled.instrs_eq_ok (hdisabled : settings.enabled = false)
    (hwf : m.WellFormed c.pool) (hd : m.Depths c.pool d) (hforward : m.EnteredForward d)
    (space : Workspace) {is : List Instr} (hsuffix : m.code.toList.drop k = is) (draft : Draft)
    (hcode : ∀ i ∈ draft.assembler.code, i ∈ m.code)
    (h : m.Modelled c.pool d k draft.assembler) :
    ∃ a, Compile.instrs settings c m (Flow.flags m.code m.handlers) k is draft space =
        (.ok ⟨a, draft.sites⟩, space) ∧ (∀ i ∈ a.code, i ∈ m.code) ∧
      m.Modelled c.pool d (k + is.length) a := by
  induction is generalizing k draft with
  | nil => exact ⟨draft.assembler, rfl, hcode, h⟩
  | cons i is ih =>
    obtain ⟨hi, hrest⟩ := Compile.getElem?_of_drop hsuffix
    obtain ⟨a, hinstr, hpushed, hmodelled⟩ := h.instr_eq_ok hdisabled hwf hd hforward hi space
    have hcode' : ∀ j ∈ a.code, j ∈ m.code := by
      rw [hpushed]
      intro j hj
      rcases Array.mem_push.mp hj with hold | rfl
      · exact hcode j hold
      · exact Array.mem_of_getElem? hi
    obtain ⟨b, hinstrs, hall, hend⟩ := ih hrest ⟨a, draft.sites⟩ hcode' hmodelled
    refine ⟨b, ?_, hall, ?_⟩
    · unfold Compile.instrs
      rw [hinstr]
      exact hinstrs
    · simpa only [List.length_cons, Nat.add_assoc, Nat.add_comm 1] using hend

/-- Linking succeeds, since jumps and handlers stay within the code. -/
private theorem exists_link {a : Assembler} (hwf : m.WellFormed pool)
    (hcode : ∀ i ∈ a.code, i ∈ m.code) (hlaid : Layout.LaidOut m.code ⟨a, #[]⟩ m.code.size) :
    ∃ body, a.link m.name m.descriptor m.handlers = .ok body := by
  have hposition (t : Nat) (ht : t ≤ m.code.size) :
      Assembler.position a.closedLabels t = .ok (Layout.position #[] t) := by
    rw [hlaid.position_closedLabels, if_pos ht]
  apply Assembler.exists_link
  · intro i hi
    obtain ⟨k, hk, rfl⟩ := Array.getElem_of_mem (hcode i hi)
    unfold Assembler.resolve
    cases htarget : m.code[k].branchTarget? with
    | none => exact ⟨_, rfl⟩
    | some t =>
      have hlt := hwf.jump k hk t (by simp [jump?, hk, htarget])
      simp only [hposition t hlt.le]
      exact ⟨_, rfl⟩
  · intro h hmem
    obtain ⟨hstart, hstop, hentry⟩ := hwf.handler h hmem
    unfold Assembler.resolveHandler
    rw [hposition _ hstart.le, hposition _ hstop, hposition _ hentry.le]
    exact ⟨_, rfl⟩

/-- A method with depths assigned is accepted. -/
theorem exists_method_eq_ok (hdisabled : settings.enabled = false) (hwf : m.WellFormed c.pool)
    (hd : m.Depths c.pool d) (hforward : m.EnteredForward d) (mode : Arithmetic)
    (space : Workspace) : ∃ cm, Compile.method settings c m space mode = (.ok cm, space) := by
  obtain ⟨a, hinstrs, hcode, -⟩ := Modelled.instrs_eq_ok hdisabled hwf hd hforward space
    List.drop_zero { assembler := { arithmetic := mode } } (by simp) (hd.modelled_empty mode)
  have hlaid : Layout.LaidOut m.code ⟨a, #[]⟩ m.code.size := Compile.laidOut_of_instrs hinstrs
  obtain ⟨body, hlink⟩ := exists_link hwf hcode hlaid
  refine ⟨⟨body, #[]⟩, ?_⟩
  unfold Compile.method
  rw [hinstrs]
  dsimp only
  rw [hlink]

end SourceMethod

/-- Methods that each compile without a trace in the workspace compile together. -/
theorem Compile.methods_eq_ok {settings : Settings} {c : SourceClass} {space : Workspace}
    {mode : Arithmetic} {P : SourceMethod → CompiledMethod → Prop} {ms : List SourceMethod}
    (h : ∀ m ∈ ms, ∃ cm, method settings c m space mode = (.ok cm, space) ∧ P m cm)
    (done : Array CompiledMethod) :
    ∃ cms, methods settings c ms done space mode = (.ok (done.toList ++ cms), space) ∧
      List.Forall₂ P ms cms := by
  obtain ⟨cms, hmethods, hall⟩ : ∃ cms, List.Forall₂ (fun m cm =>
      method settings c m space mode = (.ok cm, space)) ms cms ∧ List.Forall₂ P ms cms := by
    induction ms with
    | nil => exact ⟨[], .nil, .nil⟩
    | cons m ms ih =>
      obtain ⟨cm, hmethod, hP⟩ := h m List.mem_cons_self
      obtain ⟨cms, hmethods, hall⟩ := ih fun m' hm' => h m' (List.mem_cons_of_mem m hm')
      exact ⟨cm :: cms, .cons hmethod hmethods, .cons hP hall⟩
  exact ⟨cms, methods_eq_of_forall₂ hmethods done, hall⟩

/-- When no call is replaced, a class whose methods have depths assigned is compiled, and the
largest depth of each method is that of any such assignment. No depth overflows on the way, so
that it makes no difference whether arithmetic is checked. -/
theorem SourceClass.compile_maxStack {c : SourceClass} {settings : Settings}
    (hdisabled : settings.enabled = false)
    (hmethods : ∀ m ∈ c.methods, m.WellFormed c.pool ∧
      ∃ d, m.Depths c.pool d ∧ m.EnteredForward d) (mode : Arithmetic) (space : Workspace) :
    ∃ compiled, c.compile settings space mode = (.ok compiled, space) ∧
      List.Forall₂ (fun m cm => ∀ d, m.Depths c.pool d → m.EnteredForward d →
        cm.body.maxStack.toNat = m.peak c.pool d) c.methods compiled.methods := by
  have hfactory (i : Instr) (h : settings.isFactoryCall c.pool i = true) :
      i.effect? c.pool = some (3, 1) := by
    rw [Settings.isFactoryCall_of_disabled hdisabled] at h
    cases h
  have hall : ∀ m ∈ c.methods, ∃ cm, Compile.method settings c m space mode = (.ok cm, space) ∧
      ∀ d, m.Depths c.pool d → m.EnteredForward d →
        cm.body.maxStack.toNat = m.peak c.pool d := by
    intro m hm
    obtain ⟨hwf, d, hd, hforward⟩ := hmethods m hm
    obtain ⟨cm, hmethod⟩ := m.exists_method_eq_ok hdisabled hwf hd hforward mode space
    exact ⟨cm, hmethod, fun d' hd' hforward' => m.peak_of_method hfactory hd' hforward' hmethod⟩
  obtain ⟨cms, hcompiled, hpeaks⟩ := Compile.methods_eq_ok hall #[]
  refine ⟨⟨c.thisClass, cms⟩, ?_, hpeaks⟩
  unfold compile
  rw [hcompiled]
  rfl

namespace Sample

/-- The depths of the method of the sample. -/
def depths (k : Nat) : Nat := [0, 1, 0, 1, 2, 3, 1].getD k 0

/-- Code that comes to an instruction from behind only, with something on the stack. -/
def backward : SourceMethod where
  name := "backward"
  descriptor := "()V"
  code := #[⟨.aconstNull, .none⟩, ⟨.goto, .target 4⟩, ⟨.pop, .none⟩, ⟨.ret, .none⟩,
    ⟨.goto, .target 2⟩]

/-- The depths of the code. -/
def backwardDepths (k : Nat) : Nat := [0, 1, 1, 0, 1].getD k 0

/-- A class with the code. -/
def loop : SourceClass := ⟨⟨11⟩, ⟨#[]⟩, [backward]⟩

/-- The method of the sample has depths assigned. -/
theorem depths_updater : updater.Depths pool depths where
  start := rfl
  handler := by simp [updater]
  bound := by decide +kernel
  pops := by decide +kernel
  jump := by decide +kernel
  next := by decide +kernel

/-- The method of the sample is well formed. -/
theorem wellFormed_updater : updater.WellFormed pool where
  effect := by decide +kernel
  jump := by decide +kernel
  handler := by simp [updater]

/-- Control falls through to every instruction of the sample. -/
theorem enteredForward_updater : updater.EnteredForward depths := by
  intro k hk hterminates
  have hfalls : ∀ k < 6, updater.terminates k = false := by decide +kernel
  rw [hfalls k (Nat.lt_of_succ_lt_succ hk)] at hterminates
  cases hterminates

/-- The code has depths assigned. -/
theorem depths_backward : backward.Depths loop.pool backwardDepths where
  start := rfl
  handler := by simp [backward]
  bound := by decide +kernel
  pops := by decide +kernel
  jump := by decide +kernel
  next := by decide +kernel

/-- The code is well formed. -/
theorem wellFormed_backward : backward.WellFormed loop.pool where
  effect := by decide +kernel
  jump := by decide +kernel
  handler := by simp [backward]

end Sample

/-- The sample is compiled without substitution, and its largest depth is three. -/
theorem SourceClass.compile_maxStack_node : ∃ compiled,
    Sample.node.compile { enabled := false } Sample.space = (.ok compiled, Sample.space) ∧
      compiled.methods.map (·.body.maxStack) = [3] := by
  have hassigned : ∀ m ∈ Sample.node.methods, m.WellFormed Sample.node.pool ∧
      ∃ d, m.Depths Sample.node.pool d ∧ m.EnteredForward d := by
    intro m hm
    rw [List.mem_singleton.mp hm]
    exact ⟨Sample.wellFormed_updater, _, Sample.depths_updater, Sample.enteredForward_updater⟩
  have hdisabled : ({ enabled := false } : Settings).enabled = false := rfl
  obtain ⟨compiled, hcompile, hpeaks⟩ :=
    compile_maxStack hdisabled hassigned .checked Sample.space
  have hpeak : Sample.updater.peak Sample.pool Sample.depths = 3 := by decide +kernel
  obtain ⟨cm, rest, hmax, hrest, heq⟩ := List.forall₂_cons_left_iff.mp hpeaks
  rw [List.forall₂_nil_left_iff] at hrest
  have hthree := (hmax _ Sample.depths_updater Sample.enteredForward_updater).trans hpeak
  refine ⟨compiled, hcompile, ?_⟩
  rw [heq, hrest, List.map_singleton, List.singleton_inj]
  exact UInt16.toNat_inj.mp hthree

/-- Without a forward entry, reachable code with depths assigned can be refused: the pop that is
entered from behind is taken to find nothing on the stack. -/
theorem SourceClass.compile_backward_underflows :
    Sample.backward.WellFormed Sample.loop.pool ∧
      Sample.backward.Depths Sample.loop.pool Sample.backwardDepths ∧
      (Flow.flags Sample.backward.code Sample.backward.handlers).all (·.reachable) = true ∧
      (Sample.loop.compile { enabled := false } Sample.space).1 =
        .error (.assembly (.stackUnderflow .pop 0 1)) := by
  refine ⟨Sample.wellFormed_backward, Sample.depths_backward, ?_, ?_⟩
  · decide +kernel
  · decide +kernel

end FieldUpdater
