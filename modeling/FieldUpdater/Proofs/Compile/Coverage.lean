import FieldUpdater.Proofs.Compile.Relocation
import Mathlib.Data.Finset.Card
import Mathlib.Order.Interval.Finset.Nat

/-!
# The layout of compiled code and what its handlers cover

An instruction of the source stands three places later for each replaced call before it. Each
instruction has places of its own, and positions are monotone, so that a handler moved along
covers all places of an instruction that it covered and none of any other.
-/

namespace FieldUpdater

/-- A handler protects the instructions from its start to its stop. -/
def Handler.Covers (h : Handler) (k : Nat) : Prop := h.start ≤ k ∧ k < h.stop

namespace Layout

variable {sites : Array Site} {k q bound index : Nat} {h : Handler} {a : ClassId}

/-- The replaced calls before an index. -/
def replacedBefore (sites : Array Site) (index : Nat) : Finset Nat :=
  {k ∈ Finset.range index | (replacement? sites k).isSome}

/-- The places of what a source instruction becomes. -/
def places (sites : Array Site) (k : Nat) : Finset Nat :=
  Finset.Ico (position sites k) (position sites (k + 1))

theorem card_replacedBefore_succ (sites : Array Site) (index : Nat) :
    (replacedBefore sites (index + 1)).card = (replacedBefore sites index).card +
      if (replacement? sites index).isSome then 1 else 0 := by
  unfold replacedBefore
  rw [Finset.range_add_one, Finset.filter_insert]
  split
  · rw [Finset.card_insert_of_notMem (by simp)]
  · rfl

/-- Every replaced call moves what comes after it by three places. -/
theorem position_eq (sites : Array Site) (index : Nat) :
    position sites index = index + 3 * (replacedBefore sites index).card := by
  induction index with
  | zero => rfl
  | succ index ih =>
    rw [position_succ, card_replacedBefore_succ, ih, width]
    split <;> omega

/-- Replaced calls are counted by what happens to the instructions before the index. -/
theorem replacedBefore_congr {sites' : Array Site}
    (hsame : ∀ k < index, replacement? sites k = replacement? sites' k) :
    replacedBefore sites index = replacedBefore sites' index := by
  apply Finset.filter_congr
  intro k hk
  rw [hsame k (Finset.mem_range.mp hk)]

/-- The end of a source instruction comes after its last place. -/
theorem position_le_iff (hq : q ∈ places sites k) : position sites bound ≤ q ↔ bound ≤ k := by
  obtain ⟨hfirst, hlast⟩ := Finset.mem_Ico.mp hq
  constructor
  · intro hle
    by_contra hlt
    have hmono : position sites (k + 1) ≤ position sites bound := position_mono (by omega)
    omega
  · intro hle
    exact (position_mono hle).trans hfirst

/-- A moved handler covers a place exactly when the handler covers the instruction there. -/
theorem covers_relocateHandler_iff (hq : q ∈ places sites k) :
    (relocateHandler sites h).Covers q ↔ h.Covers k :=
  and_congr (position_le_iff hq)
    (not_le.symm.trans ((not_congr (position_le_iff hq)).trans not_le))

theorem places_nonempty (sites : Array Site) (k : Nat) : (places sites k).Nonempty :=
  Finset.nonempty_Ico.mpr (position_strictMono sites (Nat.lt_succ_self k))

/-- A handler covers an instruction exactly when the moved handler covers all its places. -/
theorem covers_iff_forall_places :
    h.Covers k ↔ ∀ q ∈ places sites k, (relocateHandler sites h).Covers q := by
  constructor
  · intro hcovers q hq
    exact (covers_relocateHandler_iff hq).mpr hcovers
  · intro hall
    obtain ⟨q, hq⟩ := places_nonempty sites k
    exact (covers_relocateHandler_iff hq).mp (hall q hq)

/-- A draft in which every site is a call of its own. -/
structure Counted (code : Array Instr) (d : Draft) (index : Nat) : Prop
    extends LaidOut code d index where
  count : d.sites.size = (replacedBefore d.sites index).card

theorem Counted.empty {code : Array Instr} {mode : Arithmetic} :
    Counted code { assembler := { arithmetic := mode } } 0 :=
  ⟨.empty, rfl⟩

/-- The next instruction adds one site if it is replaced. -/
theorem Counted.compiled {settings : Settings} {c : SourceClass} {m : SourceMethod} {i : Instr}
    {d d' : Draft} {space space' : Workspace} (h : Counted m.code d index)
    (hi : m.code[index]? = some i)
    (hc : Compile.Compiled settings c m index i d space d' space') :
    Counted m.code d' (index + 1) := by
  have hnew : ∀ site ∈ d.sites, site.index ≠ index := fun site hsite =>
    (h.site_lt site hsite).ne
  refine ⟨h.toLaidOut.compiled hi hc, ?_⟩
  cases hc with
  | kept hno heffect happended =>
    rw [card_replacedBefore_succ, replacement?_eq_none hnew, h.count]
    rfl
  | @replaced b field accessor _ hfactory hmatched hsynthesized happended =>
    have hbefore : ∀ k < index, replacement? (d.sites.push ⟨index, accessor.classId⟩) k =
        replacement? d.sites k := fun k hk => replacement?_push_of_ne hk.ne
    rw [Array.size_push, card_replacedBefore_succ, replacement?_push_self hnew, h.count,
      replacedBefore_congr hbefore]
    rfl

/-- How a compiled method is laid out, instruction by instruction and handler by handler. -/
structure Arranged (m : SourceMethod) (cm : CompiledMethod) : Prop extends Linked m cm where
  /-- Every replaced call moves what comes after it by three places. -/
  place : ∀ k ≤ m.code.size, position cm.sites k = k + 3 * (replacedBefore cm.sites k).card
  applied : cm.applied = (replacedBefore cm.sites m.code.size).card
  handlers : cm.body.handlers = m.handlers.map (relocateHandler cm.sites)
  /-- Handlers name instructions of the source or its end. -/
  handler_le : ∀ h ∈ m.handlers,
    h.start ≤ m.code.size ∧ h.stop ≤ m.code.size ∧ h.entry ≤ m.code.size
  /-- What a handler covers is covered with all its places. -/
  covered : ∀ h ∈ m.handlers, ∀ k < m.code.size,
    (h.Covers k ↔ ∀ q ∈ places cm.sites k, (relocateHandler cm.sites h).Covers q)
  /-- Of anything else no place is covered. -/
  uncovered : ∀ h ∈ m.handlers, ∀ k < m.code.size, ¬ h.Covers k →
    ∀ q ∈ places cm.sites k, ¬ (relocateHandler cm.sites h).Covers q

end Layout

/-- A method compiled with success is laid out by its replaced calls. -/
theorem Compile.arranged_of_method {settings : Settings} {c : SourceClass} {m : SourceMethod}
    {cm : CompiledMethod} {space space' : Workspace} {mode : Arithmetic}
    (h : method settings c m space mode = (.ok cm, space')) : Layout.Arranged m cm := by
  obtain ⟨d, hinstrs, hlink, hsites⟩ := of_method h
  have hcounted : Layout.Counted m.code d m.code.size :=
    instrs_invariant (P := fun k d _ => Layout.Counted m.code d k)
      (fun _ _ _ _ _ _ hi hd hc => hd.compiled hi hc) .empty hinstrs
  obtain ⟨hhandlers, hbounds⟩ := hcounted.linked_handlers hlink
  exact {
    hcounted.toLaidOut.linked hlink hsites with
    place := fun k _ => Layout.position_eq cm.sites k
    applied := by rw [CompiledMethod.applied, hsites, hcounted.count]
    handlers := hsites ▸ hhandlers
    handler_le := hbounds
    covered := fun _ _ _ _ => Layout.covers_iff_forall_places
    uncovered := fun _ _ _ _ hno _ hq =>
      (not_congr (Layout.covers_relocateHandler_iff hq)).mpr hno }

/-- Every method of a compiled class is laid out by its replaced calls: an instruction stands
three places later for each of them before it, a jump or handler goes to the place of what it
named, and a handler covers exactly the places of what it covered. A replaced call constructs
the accessor that the registry has for its field. -/
theorem SourceClass.compile_arranges {settings : Settings} {c : SourceClass}
    {compiled : CompiledClass} {space space' : Workspace} {mode : Arithmetic}
    (h : c.compile settings space mode = (.ok compiled, space')) :
    List.Forall₂ (fun m cm => Layout.Arranged m cm ∧
      ∀ k a, Layout.replacement? cm.sites k = some a → ∃ f x,
        Compile.Stands settings c m space' ⟨k, a⟩ f x) c.methods compiled.methods := by
  obtain ⟨-, -, hmethods⟩ := of_compile h
  refine hmethods.imp ?_
  rintro m cm ⟨before, after, -, hmethod, hafter⟩
  refine ⟨Compile.arranged_of_method hmethod, fun k a hreplaced => ?_⟩
  obtain ⟨-, -, hstands⟩ := Compile.linked_of_method hmethod
  obtain ⟨f, x, hstand⟩ := hstands _ (Compile.mem_of_replacement? hreplaced)
  exact ⟨f, x, hstand.grows hafter⟩

namespace Sample

/-- A method with a handler that covers its factory call only. -/
def guarded : SourceMethod where
  name := "guarded"
  descriptor := "()Ljava/lang/Object;"
  code := #[⟨.ldc, .pool 0⟩, ⟨.ldc, .pool 1⟩, ⟨.ldc, .pool 2⟩, ⟨.invokestatic, .pool 4⟩,
    ⟨.areturn, .none⟩, ⟨.athrow, .none⟩]
  handlers := [⟨3, 4, 5⟩]

end Sample

/-- The handler covers the four places of what the factory call becomes. -/
theorem SourceClass.compile_arranges_guarded : ∃ compiled space',
    (⟨⟨11⟩, Sample.pool, [Sample.guarded]⟩ : SourceClass).compile {} Sample.space =
      (.ok compiled, space') ∧
    compiled.methods.map (fun cm => (cm.body.code.size, cm.applied, cm.body.handlers)) =
      [(9, 1, [⟨3, 7, 8⟩])] ∧
    List.Forall₂ Layout.Arranged [Sample.guarded] compiled.methods := by
  have hlayout : (((⟨⟨11⟩, Sample.pool, [Sample.guarded]⟩ : SourceClass).compile {}
      Sample.space).1.toOption.map fun compiled => compiled.methods.map
        fun cm => (cm.body.code.size, cm.applied, cm.body.handlers)) =
      some [(9, 1, [⟨3, 7, 8⟩])] := by
    decide +kernel
  obtain ⟨compiled, space', hcompile, hlayout⟩ := exists_eq_ok_of_toOption _ hlayout
  exact ⟨compiled, space', hcompile, hlayout,
    (compile_arranges hcompile).imp fun _ _ harranged => harranged.1⟩

end FieldUpdater
