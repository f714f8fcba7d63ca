import FieldUpdater.Proofs.Assembler.Alike
import FieldUpdater.Proofs.Compile.Step
import Mathlib.Order.Monotone.Basic

/-!
# The layout of compiled code

A kept instruction fills one place of the compiled code and a replaced call four.
The position of a source instruction is the sum of the widths before it. Labels,
recorded one by one while the code is assembled, are exactly these positions, so
that a resolved jump goes to the position of its source target.
-/

namespace FieldUpdater

namespace Layout

/-- The class constructed in place of a call, if the call is one of the sites. -/
def replacement? (sites : Array Site) (index : Nat) : Option ClassId :=
  (sites.find? fun site => site.index = index).map (·.accessor)

/-- The code that constructs an object in place of a factory call. -/
def constructionOf (c : ClassId) : List Instr :=
  [⟨.pop, .none⟩, ⟨.pop, .none⟩, ⟨.pop, .none⟩, ⟨.newobj, .classRef c⟩]

/-- To the assembler it makes no difference which class is constructed. -/
theorem constructionOf_alike (c c' : ClassId) :
    List.Forall₂ Instr.Alike (constructionOf c) (constructionOf c') :=
  .cons (.refl _) (.cons (.refl _) (.cons (.refl _) (.cons ⟨rfl, rfl⟩ .nil)))

/-- What a source instruction becomes, its jump still unresolved. -/
def expansion (sites : Array Site) (index : Nat) (i : Instr) : List Instr :=
  match replacement? sites index with
  | none => [i]
  | some c => constructionOf c

/-- The number of places that a source instruction takes. -/
def width (sites : Array Site) (index : Nat) : Nat :=
  if (replacement? sites index).isSome then 4 else 1

/-- Where a source instruction begins in the compiled code. -/
def position (sites : Array Site) : Nat → Nat
  | 0 => 0
  | index + 1 => position sites index + width sites index

variable {sites : Array Site} {index other : Nat} {c : ClassId}

@[simp] theorem position_zero : position sites 0 = 0 := rfl

theorem position_succ : position sites (index + 1) = position sites index + width sites index :=
  rfl

theorem length_expansion (i : Instr) : (expansion sites index i).length = width sites index := by
  unfold expansion width
  cases replacement? sites index <;> rfl

theorem width_of_kept (h : replacement? sites index = none) : width sites index = 1 := by
  simp [width, h]

theorem width_of_replaced (h : replacement? sites index = some c) : width sites index = 4 := by
  simp [width, h]

/-- After a kept instruction comes the next place. -/
theorem position_succ_of_kept (h : replacement? sites index = none) :
    position sites (index + 1) = position sites index + 1 := by
  rw [position_succ, width_of_kept h]

/-- After a replaced call come four places of its construction. -/
theorem position_succ_of_replaced (h : replacement? sites index = some c) :
    position sites (index + 1) = position sites index + 4 := by
  rw [position_succ, width_of_replaced h]

theorem position_mono : Monotone (position sites) :=
  monotone_nat_of_le_succ fun _ => Nat.le_add_right ..

/-- Positions depend only on the replaced calls before them. -/
theorem position_congr {sites' : Array Site}
    (h : ∀ k < index, replacement? sites k = replacement? sites' k) :
    ∀ k ≤ index, position sites k = position sites' k := by
  intro k hk
  induction k with
  | zero => rfl
  | succ k ih =>
    rw [position_succ, position_succ, ih (by omega), width, width, h k (by omega)]

theorem width_pos : 0 < width sites index := by
  unfold width
  split <;> omega

/-- Later instructions begin at later places. -/
theorem position_strictMono (sites : Array Site) : StrictMono (position sites) :=
  strictMono_nat_of_lt_succ fun k => Nat.lt_add_of_pos_right (@width_pos sites k)

/-- A place of the compiled code belongs to one source instruction. -/
theorem position_add_inj {k k' j j' : Nat} (hj : j < width sites k) (hj' : j' < width sites k')
    (h : position sites k + j = position sites k' + j') : k = k' ∧ j = j' := by
  rcases Nat.lt_trichotomy k k' with hlt | rfl | hgt
  · have hmono : position sites (k + 1) ≤ position sites k' := position_mono hlt
    rw [position_succ] at hmono
    omega
  · exact ⟨rfl, by omega⟩
  · have hmono : position sites (k' + 1) ≤ position sites k := position_mono hgt
    rw [position_succ] at hmono
    omega

/-- Every place before that of an instruction belongs to an instruction before it. -/
theorem exists_place {n q : Nat} (h : q < position sites n) :
    ∃ k < n, ∃ j < width sites k, q = position sites k + j := by
  induction n with
  | zero => simp at h
  | succ n ih =>
    by_cases hlt : q < position sites n
    · obtain ⟨k, hk, hplace⟩ := ih hlt
      exact ⟨k, by omega, hplace⟩
    · rw [position_succ] at h
      exact ⟨n, by omega, q - position sites n, by omega, by omega⟩

/-- A call that no site names is kept. -/
theorem replacement?_eq_none (h : ∀ site ∈ sites, site.index ≠ index) :
    replacement? sites index = none := by
  simpa [replacement?] using h

/-- A further site changes nothing about the calls before it. -/
theorem replacement?_push_of_ne (h : other ≠ index) :
    replacement? (sites.push ⟨index, c⟩) other = replacement? sites other := by
  simp [replacement?, Array.find?_push, h.symm]

/-- A further site replaces the call that it names. -/
theorem replacement?_push_self (h : ∀ site ∈ sites, site.index ≠ index) :
    replacement? (sites.push ⟨index, c⟩) index = some c := by
  have hnone : sites.find? (fun site => site.index = index) = none := by
    simpa using h
  simp [replacement?, Array.find?_push, hnone]

/-- What a draft holds when the instructions before an index are laid out. -/
structure LaidOut (code : Array Instr) (d : Draft) (index : Nat) : Prop where
  /-- The code is as long as the position of the next instruction says. -/
  size : d.assembler.code.size = position d.sites index
  /-- The end of the source is the next instruction. -/
  sourceEnd : d.assembler.sourceEnd = index
  /-- Labels are the positions of the instructions begun. -/
  label : ∀ k, d.assembler.labels[k]? = if k < index then some (position d.sites k) else none
  /-- Only instructions begun are replaced. -/
  site_lt : ∀ site ∈ d.sites, site.index < index
  /-- Every instruction begun is followed by what it becomes. -/
  emitted : ∀ k i, k < index → code[k]? = some i → ∀ j < width d.sites k,
    d.assembler.code[position d.sites k + j]? = (expansion d.sites k i)[j]?

variable {code : Array Instr} {d d' : Draft} {i : Instr}

/-- Nothing is laid out in an empty draft. -/
theorem LaidOut.empty {mode : Arithmetic} :
    LaidOut code { assembler := { arithmetic := mode } } 0 where
  size := rfl
  sourceEnd := rfl
  label k := by simp
  site_lt := by simp
  emitted := by simp

/-- The expansion of one more instruction extends the layout. -/
theorem LaidOut.extend (h : LaidOut code d index) (hi : code[index]? = some i)
    (hbefore : ∀ k < index, replacement? d.sites k = replacement? d'.sites k)
    (hsites : ∀ site ∈ d'.sites, site.index < index + 1)
    (hcode : d'.assembler.code = d.assembler.code ++ (expansion d'.sites index i).toArray)
    (hlabels : d'.assembler.labels = d.assembler.labels.insert index d.assembler.code.size)
    (hend : d'.assembler.sourceEnd = index + 1) : LaidOut code d' (index + 1) where
  size := by
    rw [hcode, Array.size_append, h.size, position_congr hbefore index le_rfl, position_succ]
    simp [length_expansion]
  sourceEnd := hend
  label k := by
    rw [hlabels, Std.TreeMap.getElem?_insert, h.label, h.size]
    by_cases hk : index = k
    · subst hk
      simp [position_congr hbefore index le_rfl]
    · have hcompare : compare index k ≠ .eq := by simpa using hk
      rw [if_neg hcompare]
      by_cases hlt : k < index
      · rw [if_pos hlt, if_pos (by omega), position_congr hbefore k (by omega)]
      · rw [if_neg hlt, if_neg (by omega)]
  site_lt := hsites
  emitted k i' hk hi' j hj := by
    have hpos := position_congr hbefore
    rw [hcode]
    by_cases hlast : k = index
    · subst hlast
      obtain rfl : i = i' := Option.some.inj (hi.symm.trans hi')
      have hsize : d.assembler.code.size = position d'.sites k := h.size.trans (hpos k le_rfl)
      rw [Array.getElem?_append_right (by omega)]
      simp [hsize]
    · have hk' : k < index := by omega
      have hwidth : width d'.sites k = width d.sites k := by rw [width, width, hbefore k hk']
      have hinside : position d'.sites k + j < d.assembler.code.size := by
        have hend : position d.sites (k + 1) ≤ position d.sites index := position_mono (by omega)
        rw [h.size, ← hpos k (by omega)]
        rw [position_succ, ← hwidth] at hend
        omega
      rw [Array.getElem?_append_left hinside, ← hpos k (by omega),
        h.emitted k i' hk' hi' j (hwidth ▸ hj), expansion, expansion, hbefore k hk']

/-- Beginning an instruction adds its label. -/
theorem enter_facts (handlers : List Handler) (index : Nat) (a : Assembler) :
    (Compile.enter handlers index a).code = a.code ∧
      (Compile.enter handlers index a).labels = a.labels.insert index a.code.size ∧
      (Compile.enter handlers index a).sourceEnd = max a.sourceEnd (index + 1) := by
  unfold Compile.enter Assembler.beginSource Assembler.resetDepth
  split <;> split <;> exact ⟨rfl, rfl, rfl⟩

/-- Where control comes only from the instruction before, beginning an instruction adds its label
and nothing else. -/
theorem enter_of_falls {handlers : List Handler} {index : Nat} {a : Assembler}
    (hfalls : a.afterTerminator = false) (hinside : ∀ handler ∈ handlers, handler.entry ≠ index) :
    Compile.enter handlers index a =
      { a with
        labels := a.labels.insert index a.code.size
        sourceEnd := max a.sourceEnd (index + 1) } := by
  have hentry : (handlers.any fun handler => handler.entry = index) = false := by
    simpa using hinside
  unfold Compile.enter Assembler.beginSource
  dsimp only
  rw [hentry, if_neg Bool.false_ne_true, hfalls, if_neg Bool.false_ne_true]

/-- Compiling the next instruction lays it out. -/
theorem LaidOut.compiled {settings : Settings} {c : SourceClass} {m : SourceMethod}
    {space space' : Workspace} (h : LaidOut m.code d index) (hi : m.code[index]? = some i)
    (hc : Compile.Compiled settings c m index i d space d' space') :
    LaidOut m.code d' (index + 1) := by
  obtain ⟨hcode, hlabels, hend⟩ := enter_facts m.handlers index d.assembler
  have hmax : max d.assembler.sourceEnd (index + 1) = index + 1 := by
    rw [h.sourceEnd]
    omega
  have hnew : ∀ site ∈ d.sites, site.index ≠ index := fun site hsite =>
    (h.site_lt site hsite).ne
  cases hc with
  | kept hno heffect happended =>
    obtain ⟨-, rfl⟩ := Assembler.appendWith_eq_ok_iff.mp happended
    refine h.extend hi (fun _ _ => rfl) ?_ ?_ hlabels (hend.trans hmax)
    · intro site hsite
      exact (h.site_lt site hsite).trans (Nat.lt_succ_self index)
    · rw [Assembler.extended_code, hcode]
      simp [expansion, replacement?_eq_none hnew]
  | replaced hfactory hmatched hsynthesized happended =>
    obtain ⟨hcode', hlabels', hend'⟩ := Assembler.of_appendAll happended
    refine h.extend hi ?_ ?_ ?_ (hlabels'.trans hlabels) (hend'.trans (hend.trans hmax))
    · intro k hk
      exact (replacement?_push_of_ne hk.ne).symm
    · intro site hsite
      rcases Array.mem_push.mp hsite with hold | rfl
      · exact (h.site_lt site hold).trans (Nat.lt_succ_self index)
      · exact Nat.lt_succ_self index
    · rw [hcode', hcode]
      simp only [expansion, replacement?_push_self hnew]
      rfl

end Layout

end FieldUpdater
