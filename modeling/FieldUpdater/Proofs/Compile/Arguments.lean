import FieldUpdater.Proofs.Assembler.DepthHistory
import FieldUpdater.Proofs.Compile.Layout
import FieldUpdater.Proofs.Compile.Run
import FieldUpdater.Proofs.Compile.Window

/-!
# The arguments of a replaced call

The three loads of a window are kept, and control comes to them only one after the other, so
that nothing resets the depth of the stack model on the way to the call: it counts at least the
three arguments there. The construction that replaces the call discards exactly these and is
therefore always accepted, with the effect of a call that takes three arguments and leaves one
result, and without a new largest depth.
-/

namespace FieldUpdater

namespace Layout

variable {a b : Assembler} {code : Array Instr} {handlers : List Handler} {index : Nat}

/-- Where the instructions of a window have been assembled, the stack model counts what they
load. -/
structure Loaded (code : Array Instr) (handlers : List Handler) (index : Nat) (a : Assembler) :
    Prop where
  checked : a.arithmetic = .checked
  counted : ∀ position, Window.Straight code handlers position → index ≤ position →
    position < index + 3 → a.afterTerminator = false ∧
      index + 3 - position ≤ a.depth.toNat ∧ a.depth.toNat ≤ a.maxDepth.toNat

/-- Before the first instruction no window has begun. -/
theorem Loaded.empty : Loaded code handlers 0 {} where
  checked := rfl
  counted position hstraight _ hlt := by
    have hthree := hstraight.three_le
    omega

/-- Within a window an instruction is begun with the depth that the one before left. -/
theorem Loaded.enter (h : Loaded code handlers index a) {position : Nat}
    (hstraight : Window.Straight code handlers position) (hle : index ≤ position)
    (hlt : position < index + 3) :
    index + 3 - position ≤ (Compile.enter handlers index a).depth.toNat ∧
      (Compile.enter handlers index a).depth.toNat ≤
        (Compile.enter handlers index a).maxDepth.toNat := by
  obtain ⟨hfalls, hdepth, hmax⟩ := h.counted position hstraight hle hlt
  have hinside : ∀ handler ∈ handlers, handler.entry ≠ index := by
    rintro handler hmem rfl
    have hafter := hstraight.not_entered _ (Flow.mem_targets_iff.mpr (.inr ⟨handler, hmem, rfl⟩))
    omega
  rw [enter_of_falls hfalls hinside]
  exact ⟨hdepth, hmax⟩

/-- Compiling an instruction counts it if it is one of a window. -/
theorem Loaded.compiled {settings : Settings} {c : SourceClass} {m : SourceMethod} {i : Instr}
    {d d' : Draft} {space space' : Workspace} (h : Loaded m.code m.handlers index d.assembler)
    (hi : m.code[index]? = some i)
    (hc : Compile.Compiled settings c m index i d space d' space') :
    Loaded m.code m.handlers (index + 1) d'.assembler where
  checked := hc.arithmetic.trans h.checked
  counted position hstraight hle hlt := by
    obtain ⟨constant, hload⟩ := hstraight.loads index (by omega) (by omega)
    obtain rfl : i = ⟨.ldc, .pool constant⟩ := Option.some.inj (hi.symm.trans hload)
    cases hc with
    | @kept _ pops pushes hno heffect happended =>
      obtain ⟨p, q, hload, rfl, rfl⟩ := (Compile.modelEffect?_plain_iff rfl).mp heffect
      obtain ⟨rfl, rfl⟩ := Prod.mk.inj (Option.some.inj hload)
      obtain ⟨hadmitted, rfl⟩ := Assembler.appendWith_eq_ok_iff.mp happended
      have hdepth := hadmitted.toNat_depth (i := ⟨.ldc, .pool constant⟩)
        ((Compile.arithmetic_enter ..).trans h.checked)
      refine ⟨rfl, ?_, ?_⟩
      · rw [hdepth]
        -- At the first load of the window nothing has been counted yet.
        by_cases hfirst : position < index + 3
        · have hcounted := (h.enter hstraight (by omega) hfirst).1
          change _ ≤ _ - 0 + 1
          omega
        · change _ ≤ _ - 0 + 1
          omega
      · rw [Assembler.toNat_maxDepth_extended]
        exact Nat.le_max_right ..
    | replaced hfactory hmatched hsynthesized happended =>
      cases Settings.opcode_of_isFactoryCall hfactory

/-- Something on the stack can be popped. -/
theorem appendAll_pop (h : 1 ≤ a.depth.toNat) (is : List Instr) :
    a.appendAll (⟨.pop, .none⟩ :: is) = (a.extended ⟨.pop, .none⟩ 1 0).appendAll is ∧
      (a.extended ⟨.pop, .none⟩ 1 0).depth.toNat = a.depth.toNat - 1 := by
  have hword := a.depth.toNat_lt
  have hroom : a.depth.toNat - (1 : UInt16).toNat + (0 : UInt16).toNat < 65536 := by
    change a.depth.toNat - 1 + 0 < 65536
    omega
  exact ⟨Assembler.appendAll_cons rfl (.of_lt h hroom), Arithmetic.toNat_depth h hroom⟩

/-- The construction of an object in place of a call is accepted where three arguments are
counted. It leaves the stack model as a call would that takes these and leaves a result. -/
theorem appendAll_constructionOf (k : ClassId) (h : 3 ≤ a.depth.toNat)
    (hmax : a.depth.toNat ≤ a.maxDepth.toNat) :
    ∃ b, a.appendAll (constructionOf k) = (.ok (), b) ∧
      b.depth = a.depth - 3 + 1 ∧ b.maxDepth = a.maxDepth ∧
      b.branchDepths = a.branchDepths ∧ b.afterTerminator = false ∧
      b.code = a.code ++ (constructionOf k).toArray := by
  let a₁ := a.extended ⟨.pop, .none⟩ 1 0
  let a₂ := a₁.extended ⟨.pop, .none⟩ 1 0
  let a₃ := a₂.extended ⟨.pop, .none⟩ 1 0
  let b := a₃.extended ⟨.newobj, .classRef k⟩ 0 1
  obtain ⟨hfirst, hdepth₁⟩ : _ ∧ a₁.depth.toNat = a.depth.toNat - 1 := appendAll_pop (by omega) _
  obtain ⟨hsecond, hdepth₂⟩ : _ ∧ a₂.depth.toNat = a₁.depth.toNat - 1 := appendAll_pop (by omega) _
  obtain ⟨hthird, hdepth₃⟩ : _ ∧ a₃.depth.toNat = a₂.depth.toNat - 1 := appendAll_pop (by omega) _
  have hword := a.depth.toNat_lt
  have hroom : a₃.depth.toNat - (0 : UInt16).toNat + (1 : UInt16).toNat < 65536 := by
    change a₃.depth.toNat - 0 + 1 < 65536
    omega
  have hdepth : b.depth.toNat = a₃.depth.toNat + 1 := Arithmetic.toNat_depth (Nat.zero_le _) hroom
  have happended : a.appendAll (constructionOf k) = (.ok (), b) := by
    rw [constructionOf, hfirst, hsecond, hthird,
      Assembler.appendAll_cons rfl (.of_lt (Nat.zero_le _) hroom)]
    rfl
  have hcounted : (a.depth - 3 + 1).toNat = a.depth.toNat - 3 + 1 :=
    Arithmetic.toNat_depth h (by change a.depth.toNat - 3 + 1 < 65536; omega)
  refine ⟨b, happended, UInt16.toNat_inj.mp (by omega), ?_, rfl, rfl,
    (Assembler.of_appendAll happended).1⟩
  -- On the way nothing is deeper than it was before.
  have hmax₁ : a₁.maxDepth.toNat = max a.maxDepth.toNat a₁.depth.toNat :=
    Assembler.toNat_maxDepth_extended
  have hmax₂ : a₂.maxDepth.toNat = max a₁.maxDepth.toNat a₂.depth.toNat :=
    Assembler.toNat_maxDepth_extended
  have hmax₃ : a₃.maxDepth.toNat = max a₂.maxDepth.toNat a₃.depth.toNat :=
    Assembler.toNat_maxDepth_extended
  have hmaxEnd : b.maxDepth.toNat = max a₃.maxDepth.toNat b.depth.toNat :=
    Assembler.toNat_maxDepth_extended
  exact UInt16.toNat_inj.mp (by omega)

/-- No construction is accepted where fewer are counted. -/
theorem three_le_depth_of_appendAll {k : ClassId}
    (h : a.appendAll (constructionOf k) = (.ok (), b)) :
    3 ≤ a.depth.toNat := by
  obtain ⟨p₁, q₁, heffect₁, hadmitted₁, h₁⟩ := Assembler.of_appendAll_cons h
  obtain ⟨p₂, q₂, heffect₂, hadmitted₂, h₂⟩ := Assembler.of_appendAll_cons h₁
  obtain ⟨p₃, q₃, heffect₃, hadmitted₃, -⟩ := Assembler.of_appendAll_cons h₂
  obtain ⟨rfl, rfl⟩ := Prod.mk.inj (Option.some.inj heffect₁)
  obtain ⟨rfl, rfl⟩ := Prod.mk.inj (Option.some.inj heffect₂)
  obtain ⟨rfl, rfl⟩ := Prod.mk.inj (Option.some.inj heffect₃)
  have hfirst : 1 ≤ a.depth.toNat := hadmitted₁.enough
  have hsecond : 1 ≤ (a.extended ⟨.pop, .none⟩ 1 0).depth.toNat := hadmitted₂.enough
  have hthird : 1 ≤ ((a.extended ⟨.pop, .none⟩ 1 0).extended ⟨.pop, .none⟩ 1 0).depth.toNat :=
    hadmitted₃.enough
  rw [(appendAll_pop hsecond []).2, (appendAll_pop hfirst []).2] at hthird
  omega

end Layout

namespace Compile

variable {settings : Settings} {c : SourceClass} {m : SourceMethod} {index : Nat} {i : Instr}
  {d d' : Draft} {a : Assembler} {space space' : Workspace} {f : Field}

/-- An instruction is begun with a depth that was measured. -/
theorem bounded_enter (h : a.Bounded) (handlers : List Handler) (index : Nat) :
    (enter handlers index a).Bounded := by
  unfold enter
  dsimp only
  split
  · exact (h.beginSource index).resetDepth 1
  · exact h.beginSource index

/-- Whether it is kept or replaced, the depths that it leaves are measured. -/
theorem Compiled.bounded (h : Compiled settings c m index i d space d' space')
    (hbounded : d.assembler.Bounded) : d'.assembler.Bounded := by
  have hentered := bounded_enter hbounded m.handlers index
  cases h with
  | @kept _ pops pushes _ _ happended =>
    have hafter := hentered.appendWith i pops pushes
    rwa [happended] at hafter
  | @replaced _ _ accessor _ _ _ _ happended =>
    have hafter := hentered.appendAll accessor.constructionCode
    rwa [happended] at hafter

end Compile

end FieldUpdater
