import FieldUpdater.Proofs.Accessors.History
import FieldUpdater.Proofs.Assembler.Alike
import FieldUpdater.Proofs.Compile.Relocation

/-!
# Compiling compiled code

Compiling a compiled method goes through the same depths of the stack model as compiling its
source did: at the place of a source instruction the assembler is in the state in which it was
before the source instruction, with places for instructions. Nothing is replaced a second
time, so that the compiled code comes out as it went in.
-/

namespace FieldUpdater

namespace Layout

open Assembler (extended_depth extended_maxDepth extended_afterTerminator)

variable {sites : Array Site} {a a' b : Assembler} {i i' : Instr} {handlers : List Handler}
  {pops pushes : UInt16} {size q : Nat}

/-- An assembler of compiled code in the state of one of the source, with the places of source
instructions for the instructions. -/
structure Replays (sites : Array Site) (a b : Assembler) : Prop where
  depth : b.depth = a.depth
  maxDepth : b.maxDepth = a.maxDepth
  afterTerminator : b.afterTerminator = a.afterTerminator
  branchDepth : ∀ k, b.branchDepths[position sites k]? = a.branchDepths[k]?
  arithmetic : b.arithmetic = a.arithmetic

theorem Replays.empty {mode : Arithmetic} :
    Replays sites { arithmetic := mode } { arithmetic := mode } :=
  ⟨rfl, rfl, rfl, fun k => by simp, rfl⟩

/-- What is admitted is admitted when it is replayed. -/
theorem Replays.admits (h : Replays sites a b) (hadmitted : a.Admits pops pushes) :
    b.Admits pops pushes :=
  ⟨h.depth ▸ hadmitted.enough, h.depth ▸ h.arithmetic ▸ hadmitted.fits⟩

/-- What is replayed depends on the opcodes and jumps of the source only. -/
theorem Replays.of_alike (h : Replays sites a' b) (halike : a.Alike a') : Replays sites a b := by
  rw [halike.eq] at h
  exact ⟨h.depth, h.maxDepth, h.afterTerminator, h.branchDepth, h.arithmetic⟩

/-- At the place of a source instruction the depth is that at the source instruction. -/
theorem Replays.beginSource (h : Replays sites a b) (k : Nat) :
    Replays sites (a.beginSource k) (b.beginSource (position sites k)) := by
  unfold Assembler.beginSource
  dsimp only
  rw [h.afterTerminator]
  split
  · exact ⟨by rw [h.branchDepth], h.maxDepth, rfl, h.branchDepth, h.arithmetic⟩
  · exact ⟨h.depth, h.maxDepth, rfl, h.branchDepth, h.arithmetic⟩

theorem Replays.resetDepth (h : Replays sites a b) (depth : UInt16) :
    Replays sites (a.resetDepth depth) (b.resetDepth depth) :=
  ⟨rfl, congrArg (max · depth) h.maxDepth, rfl, h.branchDepth, h.arithmetic⟩

/-- A place is the entry of a handler exactly when its source instruction is. -/
theorem Replays.enter (h : Replays sites a b) (handlers : List Handler) (k : Nat) :
    Replays sites (Compile.enter handlers k a)
      (Compile.enter (handlers.map (relocateHandler sites)) (position sites k) b) := by
  have hentry : ((handlers.map (relocateHandler sites)).any
      fun handler => handler.entry = position sites k) =
      handlers.any fun handler => handler.entry = k := by
    simp [List.any_map, Function.comp_def, relocateHandler,
      (position_strictMono sites).injective.eq_iff]
  unfold Compile.enter
  dsimp only
  rw [hentry]
  split
  · exact (h.beginSource k).resetDepth 1
  · exact h.beginSource k

/-- A place without a source instruction is entered from the one before only. -/
theorem Replays.enter_inside (h : Replays sites a b) (hfalls : b.afterTerminator = false)
    (hinside : ∀ handler ∈ handlers, handler.entry ≠ q) :
    Replays sites a (Compile.enter handlers q b) := by
  rw [enter_of_falls hfalls hinside]
  exact ⟨h.depth, h.maxDepth, h.afterTerminator, h.branchDepth, h.arithmetic⟩

/-- A relocated instruction does to the stack model what the instruction does. -/
theorem Replays.extended (h : Replays sites a b) (hrelocated : Relocated sites size i i')
    (pops pushes : UInt16) :
    Replays sites (a.extended i pops pushes) (b.extended i' pops pushes) where
  arithmetic := h.arithmetic
  depth := by rw [extended_depth, extended_depth, h.depth]
  maxDepth := by rw [extended_maxDepth, extended_maxDepth, h.depth, h.maxDepth]
  afterTerminator := by rw [extended_afterTerminator, extended_afterTerminator, hrelocated.opcode]
  branchDepth k := by
    unfold Assembler.extended
    dsimp only
    rw [hrelocated.branchTarget?, h.depth]
    cases i.branchTarget? with
    | none => exact h.branchDepth k
    | some target =>
      have hmem : position sites target ∈ b.branchDepths ↔ target ∈ a.branchDepths := by
        rw [Std.TreeMap.mem_iff_isSome_getElem?, Std.TreeMap.mem_iff_isSome_getElem?,
          h.branchDepth]
      simp only [Option.map_some, Std.TreeMap.getElem?_insertIfNew, Nat.compare_eq_eq,
        (position_strictMono sites).injective.eq_iff, hmem, h.branchDepth]

end Layout

/-- Code whose jumps and handlers name begun instructions by their places stays as it is. -/
theorem Assembler.link_eq_ok {a : Assembler} {name descriptor : String} {handlers : List Handler}
    (hjumps : ∀ i ∈ a.code, Assembler.resolve a.closedLabels i = .ok i)
    (hhandlers : ∀ h ∈ handlers, Assembler.resolveHandler a.closedLabels h = .ok h) :
    a.link name descriptor handlers = .ok ⟨name, descriptor, a.code, handlers, a.maxDepth⟩ := by
  have hcode : a.code.toList.mapM (Assembler.resolve a.closedLabels) = .ok a.code.toList :=
    mapM_eq_ok_iff.mpr (List.forall₂_same.mpr fun i hi => hjumps i (Array.mem_toList_iff.mp hi))
  have hresolved : handlers.mapM (Assembler.resolveHandler a.closedLabels) = .ok handlers :=
    mapM_eq_ok_iff.mpr (List.forall₂_same.mpr hhandlers)
  unfold Assembler.link
  dsimp only
  rw [Array.mapM_eq_mapM_toList, hcode, hresolved]
  rfl

/-- A jump whose target is put into it is the jump. -/
theorem Instr.withTarget {i : Instr} {target : Nat} (h : i.branchTarget? = some target) :
    { i with operand := .target target } = i := by
  obtain ⟨opcode, operand⟩ := i
  unfold Instr.branchTarget? Instr.target? at h
  cases operand <;> simp_all

namespace Compile

open Layout

variable {settings : Settings} {c : SourceClass} {t : ClassTable} {m : SourceMethod}
  {cm : CompiledMethod} {space space' : Workspace} {mode : Arithmetic} {d d' : Draft} {k q : Nat}
  {i : Instr}

/-- The rest of a method goes on after an instruction that is compiled with success. -/
theorem instrs_drop (hi : m.code[q]? = some i)
    (hinstr : instr settings c m (Flow.flags m.code m.handlers) q i d space = (.ok d', space)) :
    instrs settings c m (Flow.flags m.code m.handlers) q (m.code.toList.drop q) d space =
      instrs settings c m (Flow.flags m.code m.handlers) (q + 1) (m.code.toList.drop (q + 1)) d'
        space := by
  obtain ⟨hlt, hget⟩ := Array.getElem?_eq_some_iff.mp hi
  have hrest : m.code.toList.drop q = i :: m.code.toList.drop (q + 1) := by
    rw [List.drop_eq_getElem_cons (by simpa using hlt), Array.getElem_toList, hget]
  rw [hrest, instrs, hinstr]

/-- Code of a method that control passes one instruction after the other, without calls. -/
structure StraightLine (m : SourceMethod) (q : Nat) (is : List Instr) : Prop where
  code : ∀ j < is.length, m.code[q + j]? = is[j]?
  plain : ∀ i ∈ is, i.opcode.isCall = false ∧ i.opcode.isTerminator = false ∧
    i.branchTarget? = none
  /-- No handler begins after the first instruction. -/
  not_entered : ∀ j, 0 < j → j < is.length → ∀ handler ∈ m.handlers, handler.entry ≠ q + j

theorem StraightLine.tail {is : List Instr} (h : StraightLine m q (i :: is)) :
    StraightLine m (q + 1) is where
  code j hj := by
    rw [Nat.add_assoc, Nat.add_comm 1]
    simpa using h.code (j + 1) (by simpa using hj)
  plain i hi := h.plain i (List.mem_cons_of_mem _ hi)
  not_entered j _ hj := by
    rw [Nat.add_assoc, Nat.add_comm 1]
    exact h.not_entered (j + 1) (by omega) (by simpa using hj)

/-- An instruction that is no call is kept, and does to the stack model what it does where it
stands alone. -/
theorem instr_plain (settings : Settings) (c : SourceClass) (space : Workspace)
    {sites : Array Site} {a : Assembler} {pops pushes : Nat}
    (hcall : i.opcode.isCall = false) (hnone : i.branchTarget? = none)
    (heffect : i.opcode.stackEffect = some (pops, pushes))
    (hadmitted : a.Admits pops.toUInt16 pushes.toUInt16)
    (h : Replays sites a (enter m.handlers q d.assembler)) :
    ∃ b, Replays sites (a.extended i pops.toUInt16 pushes.toUInt16) b ∧
      b.afterTerminator = i.opcode.isTerminator ∧
      instr settings c m (Flow.flags m.code m.handlers) q i d space =
        (.ok ⟨b, d.sites⟩, space) := by
  have hfactory (hyes : settings.isFactoryCall c.pool i = true) : False := by
    rw [Settings.opcode_of_isFactoryCall hyes] at hcall
    cases hcall
  have hsame : Relocated sites 0 i i := by
    unfold Relocated
    rw [hnone]
  exact ⟨_, h.extended hsame _ _, Assembler.extended_afterTerminator,
    instr_eq_ok_of_kept (replaced?_eq_none_iff.mpr fun hyes => (hfactory hyes).elim)
      ((modelEffect?_plain_iff hcall).mpr ⟨pops, pushes, heffect, rfl, rfl⟩)
      (Assembler.appendWith_eq_ok_iff.mpr ⟨h.admits hadmitted, rfl⟩)⟩

/-- Straight code is kept, and does to the stack model what it does where it stands alone. -/
theorem StraightLine.instrs_eq {sites : Array Site} {is : List Instr} {a a' : Assembler}
    (h : StraightLine m q is) (settings : Settings) (c : SourceClass) (space : Workspace)
    (hne : is ≠ [])
    (hreplays : Replays sites a (enter m.handlers q d.assembler))
    (happended : a.appendAll is = (.ok (), a')) :
    ∃ b, Replays sites a' b ∧
      instrs settings c m (Flow.flags m.code m.handlers) q (m.code.toList.drop q) d space =
        instrs settings c m (Flow.flags m.code m.handlers) (q + is.length)
          (m.code.toList.drop (q + is.length)) ⟨b, d.sites⟩ space := by
  induction is generalizing a d q with
  | nil => exact absurd rfl hne
  | cons i is ih =>
    obtain ⟨hcall, hfalls, hnone⟩ := h.plain i List.mem_cons_self
    have hi : m.code[q]? = some i := by simpa using h.code 0 (by simp)
    obtain ⟨pops, pushes, heffect, hadmitted, hrest⟩ := Assembler.of_appendAll_cons happended
    obtain ⟨b, hb, hafter, hinstr⟩ :=
      instr_plain settings c space hcall hnone heffect hadmitted hreplays
    cases is with
    | nil =>
      cases hrest
      exact ⟨b, hb, instrs_drop hi hinstr⟩
    | cons i' is =>
      have hlater := hb.enter_inside (hafter.trans hfalls) (h.not_entered 1 (by omega) (by simp))
      obtain ⟨b', hb', hinstrs⟩ := ih h.tail (List.cons_ne_nil _ _) (d := ⟨b, d.sites⟩) hlater hrest
      refine ⟨b', hb', (instrs_drop hi hinstr).trans (hinstrs.trans ?_)⟩
      simp only [List.length_cons, Nat.add_assoc, Nat.add_comm 1]

/-- The construction that a replaced call became is straight code. -/
theorem Translation.straightLine (h : Translation settings c t m cm) (hi : m.code[k]? = some i)
    {x : ClassId} (hx : replacement? cm.sites k = some x) :
    StraightLine cm.toSource (position cm.sites k) (constructionOf x) where
  code j hj := h.linked.replaced k i x hi hx j hj
  plain i hmem := by
    refine ⟨?_, ?_, branchTarget?_of_mem_constructionOf hmem⟩
    all_goals
      simp only [constructionOf, List.mem_cons, List.not_mem_nil, or_false] at hmem
      rcases hmem with rfl | rfl | rfl | rfl <;> rfl
  not_entered j hpos hj handler hmem := by
    rw [CompiledMethod.toSource, h.handlers] at hmem
    obtain ⟨source, -, rfl⟩ := List.mem_map.mp hmem
    exact position_ne_of_inside hx hpos hj source.entry

/-- Nothing of a compiled method is replaced again. -/
theorem Translation.replaced?_eq_none (h : Translation settings c t m cm)
    (hunder : Underway c t space) {i' : Instr} (hi : m.code[k]? = some i)
    (hkept : replacement? cm.sites k = none) (hrelocated : Relocated cm.sites m.code.size i i') :
    replaced? settings c cm.toSource (position cm.sites k) i' space.table = none := by
  have hlt := (Array.getElem?_eq_some_iff.mp hi).1
  cases hreplaced : replaced? settings c cm.toSource (position cm.sites k) i' space.table with
  | none => rfl
  | some f =>
    obtain ⟨hfactory, hmatched⟩ := replaced?_eq_some_iff.mp hreplaced
    obtain ⟨-, constant, _, rfl, -⟩ := Settings.isFactoryCall_iff.mp hfactory
    obtain rfl := hrelocated.eq_of_poolIndex? rfl
    have hsource := (hunder.steady m k).symm.trans (h.target?_of_target? hlt hmatched)
    have hyes := (h.replaced_iff k _ hi).mpr
      (by rw [replaced?_eq_some_iff.mpr ⟨hfactory, hsource⟩]; rfl)
    rw [hkept] at hyes
    cases hyes

/-- Compiling a compiled method as far as the place of an instruction. -/
structure Recompiled (settings : Settings) (c : SourceClass) (t : ClassTable) (cm : CompiledMethod)
    (mode : Arithmetic) (final : Workspace) (k : Nat) (d : Draft) (space : Workspace) :
    Prop where
  underway : Underway c t space
  /-- The rest of the compiled method is compiled in the state before the instruction. -/
  rest : ∃ b, Replays cm.sites d.assembler b ∧
    instrs settings c cm.toSource (Flow.flags cm.body.code cm.body.handlers) 0
        cm.body.code.toList { assembler := { arithmetic := mode } } final =
      instrs settings c cm.toSource (Flow.flags cm.body.code cm.body.handlers)
        (position cm.sites k) (cm.body.code.toList.drop (position cm.sites k)) ⟨b, #[]⟩ final

/-- What the next instruction became is compiled to itself. -/
theorem Recompiled.compiled {final : Workspace} (ht : t.Reachable)
    (htrans : Translation settings c t m cm) (hfinal : Underway c t final)
    (hi : m.code[k]? = some i) (h : Recompiled settings c t cm mode final k d space)
    (hc : Compiled settings c m k i d space d' space') :
    Recompiled settings c t cm mode final (k + 1) d' space' := by
  refine ⟨hc.keeps (Underway.kept settings c ht) h.underway, ?_⟩
  obtain ⟨b, hb, hrest⟩ := h.rest
  have hreplaced := htrans.replaced_iff k i hi
  have hentered := hb.enter m.handlers k
  rw [← htrans.handlers] at hentered
  cases hc with
  | kept hno heffect happended =>
    have hkept : replacement? cm.sites k = none := by
      rw [← Option.not_isSome_iff_eq_none, hreplaced, Option.not_isSome_iff_eq_none,
        ← h.underway.replaced?_eq]
      exact replaced?_eq_none_iff.mpr hno
    obtain ⟨i', hi', hrelocated⟩ := htrans.linked.kept k i hi hkept
    obtain ⟨hadmitted, rfl⟩ := Assembler.appendWith_eq_ok_iff.mp happended
    refine ⟨_, hentered.extended hrelocated _ _, hrest.trans ?_⟩
    rw [position_succ_of_kept hkept]
    exact instrs_drop (m := cm.toSource) hi' (instr_eq_ok_of_kept
      (htrans.replaced?_eq_none hfinal hi hkept hrelocated)
      (by rw [hb.arithmetic, hrelocated.modelEffect?, heffect])
      (Assembler.appendWith_eq_ok_iff.mpr ⟨hentered.admits hadmitted, rfl⟩))
  | @replaced a field accessor _ hfactory hmatched hsynthesized happended =>
    obtain ⟨x, hx⟩ : ∃ x, replacement? cm.sites k = some x := by
      rw [← Option.isSome_iff_exists, hreplaced, ← h.underway.replaced?_eq,
        replaced?_eq_some_iff.mpr ⟨hfactory, hmatched⟩]
      rfl
    -- The stack model does not look at the class constructed.
    obtain ⟨a', happended', halike⟩ := (Assembler.Alike.refl _).exists_appendAll
      (constructionOf_alike accessor.classId x) happended
    obtain ⟨b', hb', hrest'⟩ := (htrans.straightLine hi hx).instrs_eq settings c final
      (d := ⟨b, #[]⟩) (List.cons_ne_nil _ _) hentered happended'
    refine ⟨b', hb'.of_alike halike, hrest.trans (hrest'.trans ?_)⟩
    rw [position_succ_of_replaced hx]
    rfl

/-- Where nothing is replaced, every instruction stays at its index. -/
theorem position_empty (k : Nat) : position #[] k = k := by
  induction k with
  | zero => rfl
  | succ k ih => rw [position_succ_of_kept (by rfl), ih]

/-- A draft without replaced calls whose instructions are laid out holds the code itself. -/
theorem code_of_laidOut {code : Array Instr} (hlaid : LaidOut code d code.size)
    (hsites : d.sites = #[]) : d.assembler.code = code := by
  have hsize := hlaid.size
  rw [hsites, position_empty] at hsize
  refine Array.ext hsize fun k hk hk' => ?_
  have hemitted := hlaid.emitted k code[k] hk' (Array.getElem?_eq_getElem hk') 0 width_pos
  rw [hsites, position_empty, Nat.add_zero, Array.getElem?_eq_getElem hk] at hemitted
  exact Option.some.inj hemitted

/-- The jumps of a compiled method go to places within it. -/
theorem Translation.branchTarget?_le (h : Translation settings c t m cm)
    (hi : i ∈ cm.body.code) {target : Nat} (htarget : i.branchTarget? = some target) :
    target ≤ cm.body.code.size := by
  obtain ⟨q, hq, rfl⟩ := Array.getElem_of_mem hi
  have hplace := hq
  rw [h.linked.size] at hplace
  obtain ⟨k, hk, j, hj, rfl⟩ := exists_place hplace
  have hsource := Array.getElem?_eq_getElem hk
  cases hreplaced : replacement? cm.sites k with
  | none =>
    obtain ⟨i', hi', hrelocated⟩ := h.linked.kept k _ hsource hreplaced
    rw [width_of_kept hreplaced] at hj
    obtain rfl : j = 0 := by omega
    have hget := Option.some.inj ((Array.getElem?_eq_getElem hq).symm.trans hi')
    rw [hget, hrelocated.branchTarget?, Option.map_eq_some_iff] at htarget
    obtain ⟨source, hjump, rfl⟩ := htarget
    rw [h.linked.size]
    exact position_mono (hrelocated.le_size hjump)
  | some x =>
    have hget := h.linked.replaced k _ x hsource hreplaced j (width_of_replaced hreplaced ▸ hj)
    rw [Array.getElem?_eq_getElem hq] at hget
    rw [branchTarget?_of_mem_constructionOf (List.mem_of_getElem? hget.symm)] at htarget
    cases htarget

/-- The handlers of a compiled method stay within it. -/
theorem Translation.handler_le_size (h : Translation settings c t m cm) {handler : Handler}
    (hmem : handler ∈ cm.body.handlers) : handler.start ≤ cm.body.code.size ∧
      handler.stop ≤ cm.body.code.size ∧ handler.entry ≤ cm.body.code.size := by
  rw [h.handlers] at hmem
  obtain ⟨source, hsource, rfl⟩ := List.mem_map.mp hmem
  obtain ⟨hstart, hstop, hentry⟩ := h.handler_le source hsource
  rw [h.linked.size]
  exact ⟨position_mono hstart, position_mono hstop, position_mono hentry⟩

/-- A compiled method is compiled to itself. -/
theorem method_toSource {final : Workspace} (ht : t.Reachable) (hunder : Underway c t space)
    (hfinal : Underway c t final) (h : method settings c m space mode = (.ok cm, space')) :
    method settings c cm.toSource final mode = (.ok ⟨cm.body, #[]⟩, final) := by
  have htrans := translation_of_method ht hunder h
  obtain ⟨d, hinstrs, hlink, -⟩ := of_method h
  have hend : Recompiled settings c t cm mode final m.code.size d space' :=
    instrs_invariant (P := Recompiled settings c t cm mode final)
      (fun _ _ _ _ _ _ hi hd hc => hd.compiled ht htrans hfinal hi hc)
      ⟨hunder, { arithmetic := mode }, .empty, rfl⟩ hinstrs
  obtain ⟨b, hb, hrest⟩ := hend.rest
  rw [← htrans.linked.size, ← Array.length_toList, List.drop_length] at hrest
  have hlaid : LaidOut cm.body.code ⟨b, #[]⟩ cm.body.code.size :=
    laidOut_of_instrs (m := cm.toSource) hrest
  have hcode : b.code = cm.body.code := code_of_laidOut hlaid rfl
  have hlabel {k : Nat} (hk : k ≤ cm.body.code.size) :
      Assembler.position b.closedLabels k = .ok k := by
    rw [hlaid.position_closedLabels, if_pos hk, position_empty]
  have hlinked : b.link cm.body.name cm.body.descriptor cm.body.handlers = .ok cm.body := by
    have hmax : b.maxDepth = cm.body.maxStack :=
      hb.maxDepth.trans (Assembler.of_link hlink).maxStack.symm
    rw [Assembler.link_eq_ok, hcode, hmax]
    · intro i hi
      unfold Assembler.resolve
      cases htarget : i.branchTarget? with
      | none => rfl
      | some target =>
        rw [hcode] at hi
        dsimp only
        rw [hlabel (htrans.branchTarget?_le hi htarget), Except.map, Instr.withTarget htarget]
    · intro handler hmem
      obtain ⟨hstart, hstop, hentry⟩ := htrans.handler_le_size hmem
      unfold Assembler.resolveHandler
      rw [hlabel hstart, hlabel hstop, hlabel hentry]
      rfl
  have hcompiled : instrs settings c cm.toSource (Flow.flags cm.toSource.code cm.toSource.handlers)
      0 cm.toSource.code.toList { assembler := { arithmetic := mode } } final =
        (.ok ⟨b, #[]⟩, final) := hrest
  unfold method
  rw [hcompiled]
  dsimp only [CompiledMethod.toSource]
  rw [hlinked]

/-- How a method is compiled depends on the class and its constants, not on other methods. -/
theorem method_withMethods (ms : List SourceMethod) (space : Workspace) :
    method settings { c with methods := ms } m space mode = method settings c m space mode := by
  have hinstrs (flags : Array FlowFlags) (is : List Instr) : ∀ index d space,
      instrs settings { c with methods := ms } m flags index is d space =
        instrs settings c m flags index is d space := by
    induction is with
    | nil => exact fun _ _ _ => rfl
    | cons i is ih =>
      intro index d space
      have hinstr : instr settings { c with methods := ms } m flags index i d space =
          instr settings c m flags index i d space := rfl
      unfold instrs
      rw [hinstr]
      split
      · rfl
      · exact ih _ _ _
  unfold method
  rw [hinstrs]

end Compile

/-- Compiled code is a fixed point: a class whose methods are those of a compiled class, with the
same constants, is compiled to the same methods. No call of it is replaced, and class table,
registry and queue stay as they are. -/
theorem SourceClass.compile_toSource {settings : Settings} {c : SourceClass}
    {compiled : CompiledClass} {space space' : Workspace} {mode : Arithmetic}
    (ht : space.table.Reachable) (h : c.compile settings space mode = (.ok compiled, space')) :
    (compiled.toSource c.pool).compile settings space' mode =
      (.ok ⟨compiled.thisClass, compiled.methods.map fun cm => ⟨cm.body, #[]⟩⟩, space') := by
  obtain ⟨hfinal, hmethods⟩ := of_compile_keeping (Compile.Underway.kept settings c ht)
    (Compile.Underway.start ht) h
  have hsource : compiled.toSource c.pool =
      { c with methods := compiled.methods.map CompiledMethod.toSource } := by
    rw [CompiledClass.toSource, (of_compile h).1]
    rfl
  obtain ⟨hself, -⟩ := (List.forall₂_and_left (R := fun _ _ => True) _ _).mp
    (hmethods.flip.imp fun cm m ⟨before, after, hunder, hmethod, _⟩ =>
      ⟨Compile.method_toSource ht hunder hfinal hmethod, trivial⟩)
  have hall : List.Forall₂ (fun m cm =>
      Compile.method settings (compiled.toSource c.pool) m space' mode = (.ok cm, space'))
      (compiled.toSource c.pool).methods (compiled.methods.map fun cm => ⟨cm.body, #[]⟩) := by
    rw [hsource, List.forall₂_map_right_iff, List.forall₂_map_left_iff, List.forall₂_same]
    intro cm hcm
    rw [Compile.method_withMethods]
    exact hself cm hcm
  unfold compile
  rw [Compile.methods_eq_of_forall₂ hall]
  rfl

/-- The sample with its replaced call is compiled to itself, with no call replaced. -/
theorem SourceClass.compile_toSource_node : ∃ compiled space',
    Sample.space.table.Reachable ∧ Sample.node.compile {} Sample.space = (.ok compiled, space') ∧
    compiled.methods.map (·.sites) = [#[⟨5, ⟨13⟩⟩]] ∧
    (compiled.toSource Sample.node.pool).compile {} space' =
      (.ok ⟨compiled.thisClass, compiled.methods.map fun cm => ⟨cm.body, #[]⟩⟩, space') := by
  obtain ⟨compiled, space', hcompile, hsites⟩ := Sample.compile_node
  exact ⟨compiled, space', Sample.reachable_table, hcompile, hsites,
    compile_toSource Sample.reachable_table hcompile⟩

end FieldUpdater
