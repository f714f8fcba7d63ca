import FieldUpdater.Proofs.Compile.Eligible

/-!
# Compiled code as code to compile

The code of a compiled method is code like any other. Its places are those of the source
instructions, in order and without gaps; its jumps and handlers go to places of source
instructions; and a factory call that stands in it was kept, with the window that it had in
the source.
-/

namespace FieldUpdater

/-- A compiled method as one to compile again. -/
def CompiledMethod.toSource (cm : CompiledMethod) : SourceMethod :=
  { name := cm.body.name, descriptor := cm.body.descriptor, code := cm.body.code,
    handlers := cm.body.handlers }

namespace Layout

variable {sites : Array Site} {size k : Nat} {i i' : Instr}

/-- Within what a replaced call becomes no source instruction begins. -/
theorem position_ne_of_inside {a : ClassId} (h : replacement? sites k = some a) {j : Nat}
    (hpos : 0 < j) (hlt : j < 4) (other : Nat) : position sites other ≠ position sites k + j := by
  intro heq
  obtain ⟨-, rfl⟩ := position_add_inj width_pos (by rw [width_of_replaced h]; exact hlt)
    (heq : position sites other + 0 = position sites k + j)
  exact Nat.lt_irrefl _ hpos

/-- A replaced call leaves no jump behind. -/
theorem branchTarget?_of_mem_constructionOf {a : ClassId} (h : i ∈ constructionOf a) :
    i.branchTarget? = none := by
  simp only [constructionOf, List.mem_cons, List.not_mem_nil, or_false] at h
  rcases h with rfl | rfl | rfl | rfl <;> rfl

/-- A handler moved to the places of its instructions. -/
def relocateHandler (sites : Array Site) (h : Handler) : Handler :=
  ⟨position sites h.start, position sites h.stop, position sites h.entry⟩

/-- A handler resolved against the labels of a laid out draft is moved along. -/
theorem LaidOut.relocated_handler {code : Array Instr} {d : Draft} {h h' : Handler}
    (hlaid : LaidOut code d size)
    (hresolve : Assembler.resolveHandler d.assembler.closedLabels h = .ok h') :
    h' = relocateHandler d.sites h ∧ h.start ≤ size ∧ h.stop ≤ size ∧ h.entry ≤ size := by
  have hposition {k p : Nat} (hok : Assembler.position d.assembler.closedLabels k = .ok p) :
      k ≤ size ∧ p = position d.sites k := by
    rw [hlaid.position_closedLabels] at hok
    split at hok
    · rename_i hle
      exact ⟨hle, (Except.ok.inj hok).symm⟩
    · cases hok
  unfold Assembler.resolveHandler at hresolve
  cases hstart : Assembler.position d.assembler.closedLabels h.start with
  | error err => simp [hstart, bind, Except.bind] at hresolve
  | ok start =>
    cases hstop : Assembler.position d.assembler.closedLabels h.stop with
    | error err => simp [hstart, hstop, bind, Except.bind] at hresolve
    | ok stop =>
      cases hentry : Assembler.position d.assembler.closedLabels h.entry with
      | error err => simp [hstart, hstop, hentry, bind, Except.bind] at hresolve
      | ok entry =>
        simp only [hstart, hstop, hentry, bind, Except.bind, Except.ok.injEq] at hresolve
        obtain ⟨hstartLe, rfl⟩ := hposition hstart
        obtain ⟨hstopLe, rfl⟩ := hposition hstop
        obtain ⟨hentryLe, rfl⟩ := hposition hentry
        exact ⟨hresolve.symm, hstartLe, hstopLe, hentryLe⟩

/-- Linking moves every handler along, and handlers name instructions of the source or its end. -/
theorem LaidOut.linked_handlers {code : Array Instr} {d : Draft} {name descriptor : String}
    {handlers : List Handler} {body : AssembledMethod} (hlaid : LaidOut code d size)
    (hlink : d.assembler.link name descriptor handlers = .ok body) :
    body.handlers = handlers.map (relocateHandler d.sites) ∧
      ∀ h ∈ handlers, h.start ≤ size ∧ h.stop ≤ size ∧ h.entry ≤ size := by
  have hhandlers := (Assembler.of_link hlink).handlers
  obtain ⟨hbounds, hmoved⟩ := (List.forall₂_and_left _ _).mp
    (hhandlers.imp fun _ _ hresolve => (hlaid.relocated_handler hresolve).symm)
  refine ⟨?_, hbounds⟩
  rw [← List.forall₂_eq_eq_eq, List.forall₂_map_right_iff]
  exact hmoved.flip

/-- An instruction that is no jump stays as it is. -/
theorem Relocated.eq_self (h : Relocated sites size i i') (hnone : i.branchTarget? = none) :
    i' = i := by
  unfold Relocated at h
  rwa [hnone] at h

theorem Relocated.opcode (h : Relocated sites size i i') : i'.opcode = i.opcode := by
  unfold Relocated at h
  split at h
  · rw [h]
  · rw [h.2]

/-- A jump goes to the place of its target. -/
theorem Relocated.branchTarget? (h : Relocated sites size i i') :
    i'.branchTarget? = i.branchTarget?.map (position sites) := by
  unfold Relocated at h
  cases htarget : i.branchTarget? with
  | none =>
    simp only [htarget] at h
    rw [h, htarget]
    rfl
  | some target =>
    simp only [htarget] at h
    have hbranch := (Instr.branchTarget?_eq_some_iff.mp htarget).1
    rw [h.2]
    exact Instr.branchTarget?_eq_some_iff.mpr ⟨hbranch, rfl⟩

theorem Relocated.le_size (h : Relocated sites size i i') {target : Nat}
    (htarget : i.branchTarget? = some target) : target ≤ size := by
  unfold Relocated at h
  rw [htarget] at h
  exact h.1

/-- An instruction that refers to the pool stays as it is. -/
theorem Relocated.eq_of_poolIndex? (h : Relocated sites size i i') {constant : Nat}
    (hindex : i'.poolIndex? = some constant) : i' = i := by
  unfold Relocated at h
  split at h
  · exact h
  · rw [h.2] at hindex
    cases hindex

/-- What an instruction takes and leaves does not depend on where a jump goes. -/
theorem Relocated.modelEffect? (h : Relocated sites size i i') (mode : Arithmetic)
    (pool : ConstantPool) : i'.modelEffect? mode pool = i.modelEffect? mode pool := by
  cases htarget : i.branchTarget? with
  | none => rw [h.eq_self htarget]
  | some target =>
    have hcall : i.opcode.isCall = false :=
      Opcode.isCall_of_isBranch (Instr.branchTarget?_eq_some_iff.mp htarget).1
    simp [Instr.modelEffect?, h.opcode, hcall]

end Layout

namespace Compile

open Layout

variable {settings : Settings} {c : SourceClass} {t : ClassTable} {m : SourceMethod}
  {cm : CompiledMethod} {space space' : Workspace} {mode : Arithmetic} {k : Nat} {i : Instr}
  {f : Field}

/-- A compiled method consists of what its source instructions become, its handlers moved
along, and the instructions replaced are those to be replaced with the table at the start. -/
structure Translation (settings : Settings) (c : SourceClass) (t : ClassTable) (m : SourceMethod)
    (cm : CompiledMethod) : Prop where
  linked : Linked m cm
  handlers : cm.body.handlers = m.handlers.map (relocateHandler cm.sites)
  handler_le : ∀ h ∈ m.handlers,
    h.start ≤ m.code.size ∧ h.stop ≤ m.code.size ∧ h.entry ≤ m.code.size
  replaced_iff : ∀ k i, m.code[k]? = some i →
    ((replacement? cm.sites k).isSome ↔ (replaced? settings c m k i t).isSome)

/-- A method compiled with success is a translation. -/
theorem translation_of_method (ht : t.Reachable) (hunder : Underway c t space)
    (h : method settings c m space mode = (.ok cm, space')) : Translation settings c t m cm := by
  obtain ⟨d, hinstrs, hlink, hsites⟩ := of_method h
  obtain ⟨hhandlers, hbounds⟩ := (laidOut_of_instrs hinstrs).linked_handlers hlink
  obtain ⟨hlinked, -, hstands⟩ := linked_of_method h
  have hafter := method_keeps (Underway.kept settings c ht) mode m hunder
  rw [h] at hafter
  refine ⟨hlinked, hsites ▸ hhandlers, hbounds, fun k i hi =>
    ⟨fun hsome => ?_, fun hsome => ?_⟩⟩
  · obtain ⟨a, ha⟩ := Option.isSome_iff_exists.mp hsome
    obtain ⟨f, b, hstand⟩ := hstands _ (mem_of_replacement? ha)
    obtain ⟨i', hi', hfactory⟩ := hstand.factory
    obtain rfl : i = i' := Option.some.inj (hi.symm.trans hi')
    rw [replaced?_eq_some_iff.mpr ⟨hfactory, (hafter.steady m k).symm.trans hstand.matched⟩]
    rfl
  · obtain ⟨f, hf⟩ := Option.isSome_iff_exists.mp hsome
    obtain ⟨site, hsite, rfl⟩ := exists_site ht hunder h hi hf
    rw [replacement?_of_mem hstands hsite]
    rfl

namespace Translation

/-- A replaced instruction is a factory call. -/
theorem factory_of_replaced (h : Translation settings c t m cm) (hi : m.code[k]? = some i)
    {a : ClassId} (ha : replacement? cm.sites k = some a) :
    settings.isFactoryCall c.pool i = true := by
  obtain ⟨f, hf⟩ := Option.isSome_iff_exists.mp ((h.replaced_iff k i hi).mp (by rw [ha]; rfl))
  exact (replaced?_eq_some_iff.mp hf).1

/-- A jump is kept. -/
theorem kept_of_branchTarget? (h : Translation settings c t m cm) (hi : m.code[k]? = some i)
    {target : Nat} (htarget : i.branchTarget? = some target) :
    replacement? cm.sites k = none := by
  cases hreplaced : replacement? cm.sites k with
  | none => rfl
  | some a =>
    have hopcode := Settings.opcode_of_isFactoryCall (h.factory_of_replaced hi hreplaced)
    simp [Instr.branchTarget?, hopcode, Opcode.isBranch] at htarget

/-- Where a jump or handler of the source goes, one of the compiled method goes to its place. -/
theorem mem_targets (h : Translation settings c t m cm)
    (hk : k ∈ Flow.targets m.code m.handlers) :
    position cm.sites k ∈ Flow.targets cm.body.code cm.body.handlers := by
  rcases Flow.mem_targets_iff.mp hk with ⟨i, hi, htarget⟩ | ⟨handler, hmem, rfl⟩
  · obtain ⟨j, hj⟩ := Array.mem_iff_getElem?.mp hi
    obtain ⟨i', hi', hrelocated⟩ := h.linked.kept j i hj (h.kept_of_branchTarget? hj htarget)
    refine Flow.mem_targets_iff.mpr (.inl ⟨i', Array.mem_of_getElem? hi', ?_⟩)
    rw [hrelocated.branchTarget?, htarget]
    rfl
  · refine Flow.mem_targets_iff.mpr (.inr ⟨relocateHandler cm.sites handler, ?_, rfl⟩)
    rw [h.handlers]
    exact List.mem_map_of_mem hmem

/-- A constant loaded right before the place of an instruction is loaded right before it in the
source. -/
theorem load_before (h : Translation settings c t m cm) (hk : k ≤ m.code.size) {q constant : Nat}
    (hplace : position cm.sites k = q + 1)
    (hload : cm.body.code[q]? = some ⟨.ldc, .pool constant⟩) :
    ∃ j, k = j + 1 ∧ m.code[j]? = some ⟨.ldc, .pool constant⟩ ∧ position cm.sites j = q := by
  cases k with
  | zero => cases hplace
  | succ j =>
    obtain ⟨i, hi⟩ : ∃ i, m.code[j]? = some i := ⟨_, Array.getElem?_eq_getElem (by omega)⟩
    cases hreplaced : replacement? cm.sites j with
    | none =>
      rw [position_succ_of_kept hreplaced, Nat.add_right_cancel_iff] at hplace
      obtain ⟨i', hi', hrelocated⟩ := h.linked.kept j i hi hreplaced
      rw [hplace, hload, Option.some.injEq] at hi'
      obtain rfl := hrelocated.eq_of_poolIndex? (by rw [← hi']; rfl)
      exact ⟨j, rfl, hi' ▸ hi, hplace⟩
    | some a =>
      -- The last instruction of a construction loads no constant.
      have hlast := h.linked.replaced j i a hi hreplaced 3 (by omega)
      rw [position_succ_of_replaced hreplaced] at hplace
      rw [(by omega : position cm.sites j + 3 = q), hload] at hlast
      cases hlast

/-- A window of the compiled code names a field only if the window of the source does. -/
theorem target?_of_target? (h : Translation settings c t m cm) (hk : k < m.code.size)
    {t' : ClassTable}
    (hf : (c.window cm.toSource (position cm.sites k)).target? t' = some f) :
    (c.window m k).target? t' = some f := by
  obtain ⟨n⟩ := Window.target?_eq_some_iff.mp hf
  have hthree : 3 ≤ position cm.sites k := n.three_le
  have hlt : position cm.sites k < cm.body.code.size := n.lt_size
  generalize hp : position cm.sites k = p at n hthree hlt
  obtain ⟨k₁, rfl, htext, hplace₁⟩ := h.load_before (q := p - 1) hk.le (by omega) n.text_load
  obtain ⟨k₂, rfl, hvalue, hplace₂⟩ :=
    h.load_before (k := k₁) (q := p - 2) (by omega) (by omega) n.value_load
  obtain ⟨k₃, rfl, howner, hplace₃⟩ :=
    h.load_before (k := k₂) (q := p - 3) (by omega) (by omega) n.owner_load
  have hclear : (c.window m (k₃ + 1 + 1 + 1)).isEntered = false := by
    refine (Window.isEntered_iff hk).mpr fun target htarget hinside => ?_
    refine (Window.isEntered_iff hlt).mp n.not_entered _ (h.mem_targets htarget) ?_
    have hfirst : position cm.sites k₃ ≤ position cm.sites target := position_mono (by omega)
    have hlast : position cm.sites target ≤ position cm.sites (k₃ + 1 + 1 + 1) :=
      position_mono (by omega)
    omega
  exact Window.target?_eq_some_iff.mpr ⟨{ n with
    three_le := by simp only [SourceClass.window]; omega
    lt_size := hk
    lt_flags := hk.trans_eq (Flow.size_flags m.code m.handlers).symm
    not_entered := hclear
    owner_load := howner
    value_load := hvalue
    text_load := htext }⟩

end Translation

end Compile

end FieldUpdater
