import FieldUpdater.Code.Assembler
import Mathlib.Data.List.Forall2

/-!
# What the assembler's operations leave behind

An instruction is accepted when the modelled stack holds what it takes and what it
leaves does not overflow. It then extends the code by itself and leaves every label
alone. Linking succeeds exactly when every jump and every handler names a begun source
instruction or the end, and then changes nothing but the operands of jumps.
-/

namespace FieldUpdater

/-- A traversal that can fail succeeds exactly when every element does. -/
theorem mapM_eq_ok_iff {α β ε : Type} {f : α → Except ε β} {xs : List α} {ys : List β} :
    xs.mapM f = .ok ys ↔ List.Forall₂ (fun x y => f x = .ok y) xs ys := by
  induction xs generalizing ys with
  | nil => simp [pure, Except.pure, eq_comm]
  | cons x xs ih =>
    rw [List.mapM_cons]
    rcases ys with _ | ⟨y, ys⟩
    · cases f x <;> cases xs.mapM f <;> simp [bind, Except.bind, pure, Except.pure]
    · rw [List.forall₂_cons, ← ih]
      cases f x <;> cases xs.mapM f <;> simp [bind, Except.bind, pure, Except.pure]

/-- If every element succeeds, so does the traversal. -/
theorem exists_mapM_eq_ok {α β ε : Type} {f : α → Except ε β} {xs : List α}
    (h : ∀ x ∈ xs, ∃ y, f x = .ok y) : ∃ ys, xs.mapM f = .ok ys := by
  induction xs with
  | nil => exact ⟨[], rfl⟩
  | cons x xs ih =>
    obtain ⟨y, hy⟩ := h x List.mem_cons_self
    obtain ⟨ys, hys⟩ := ih fun z hz => h z (List.mem_cons_of_mem x hz)
    exact ⟨y :: ys, mapM_eq_ok_iff.mpr (.cons hy (mapM_eq_ok_iff.mp hys))⟩

namespace Arithmetic

variable {mode : Arithmetic} {x y depth pops pushes : UInt16}

/-- Whether the depth after an instruction is a word, where that is checked. -/
def Fits (mode : Arithmetic) (depth pops pushes : UInt16) : Prop :=
  mode = .checked → depth.toNat - pops.toNat + pushes.toNat < 65536

/-- Two words whose sum is one are added as numbers. -/
theorem toNat_add_of_lt (h : x.toNat + y.toNat < 65536) : (x + y).toNat = x.toNat + y.toNat := by
  rw [UInt16.toNat_add]
  exact Nat.mod_eq_of_lt h

/-- A smaller word is subtracted as a number. -/
theorem toNat_sub (h : y.toNat ≤ x.toNat) : (x - y).toNat = x.toNat - y.toNat :=
  UInt16.toNat_sub_of_le x y (UInt16.le_iff_toNat_le.mpr h)

/-- Depths are those of the numbers where the last of them is a word. -/
theorem toNat_depth (hpops : pops.toNat ≤ depth.toNat)
    (h : depth.toNat - pops.toNat + pushes.toNat < 65536) :
    (depth - pops + pushes).toNat = depth.toNat - pops.toNat + pushes.toNat := by
  rw [← toNat_sub hpops] at h ⊢
  exact toNat_add_of_lt h

/-- Words are compared as numbers. -/
theorem max_eq_left (h : y.toNat ≤ x.toNat) : max x y = x := by
  rw [← UInt16.toNat_inj, UInt16.toNat_max]
  exact Nat.max_eq_left h

/-- A sum that is a word, or need not be one, is formed. -/
theorem add_eq_ok (h : mode = .checked → x.toNat + y.toNat < 65536) : mode.add x y = .ok (x + y) :=
  if_neg fun hlarge => by
    have hless := h hlarge.1
    omega

/-- A sum that is no word overflows where that is checked. -/
theorem add_eq_error (h : ¬ (mode = .checked → x.toNat + y.toNat < 65536)) :
    mode.add x y = .error .add := by
  obtain ⟨hchecked, hlarge⟩ := Classical.not_imp.mp h
  exact if_pos ⟨hchecked, by omega⟩

/-- A smaller word can be subtracted. -/
theorem sub_eq_ok (h : y.toNat ≤ x.toNat) : mode.sub x y = .ok (x - y) :=
  if_neg fun hless => by omega

/-- Where there is room for what is pushed, the depths are words. -/
theorem depths_eq_ok (hpops : pops.toNat ≤ depth.toNat) (hfits : mode.Fits depth pops pushes) :
    mode.depths depth pops pushes = .ok (depth - pops, depth - pops + pushes) := by
  unfold Fits at hfits
  rw [← toNat_sub hpops] at hfits
  unfold depths
  rw [sub_eq_ok hpops]
  dsimp only [bind, Except.bind]
  rw [add_eq_ok hfits]

/-- Where there is none, the addition overflows. -/
theorem depths_eq_error (hpops : pops.toNat ≤ depth.toNat)
    (hfits : ¬ mode.Fits depth pops pushes) : mode.depths depth pops pushes = .error .add := by
  unfold Fits at hfits
  rw [← toNat_sub hpops] at hfits
  unfold depths
  rw [sub_eq_ok hpops]
  dsimp only [bind, Except.bind]
  rw [add_eq_error hfits]

end Arithmetic

namespace Assembler

variable {a b : Assembler} {i : Instr} {is : List Instr} {pops pushes : UInt16}

/-- The assembler after an accepted instruction. -/
def extended (a : Assembler) (i : Instr) (pops pushes : UInt16) : Assembler :=
  { a with
    code := a.code.push i
    depth := a.depth - pops + pushes
    maxDepth := max a.maxDepth (a.depth - pops + pushes)
    branchDepths :=
      match i.branchTarget? with
      | some target => a.branchDepths.insertIfNew target (a.depth - pops)
      | none => a.branchDepths
    afterTerminator := i.opcode.isTerminator }

@[simp] theorem extended_code : (a.extended i pops pushes).code = a.code.push i := rfl

@[simp] theorem extended_depth : (a.extended i pops pushes).depth = a.depth - pops + pushes := rfl

@[simp] theorem extended_maxDepth :
    (a.extended i pops pushes).maxDepth = max a.maxDepth (a.depth - pops + pushes) := rfl

@[simp] theorem extended_labels : (a.extended i pops pushes).labels = a.labels := rfl

@[simp] theorem extended_sourceEnd : (a.extended i pops pushes).sourceEnd = a.sourceEnd := rfl

@[simp] theorem extended_afterTerminator :
    (a.extended i pops pushes).afterTerminator = i.opcode.isTerminator := rfl

@[simp] theorem extended_arithmetic : (a.extended i pops pushes).arithmetic = a.arithmetic := rfl

/-- Whether the assembler admits an instruction: the modelled stack holds what it takes and, where
that is checked, has room for what it leaves. -/
structure Admits (a : Assembler) (pops pushes : UInt16) : Prop where
  enough : pops.toNat ≤ a.depth.toNat
  fits : a.arithmetic.Fits a.depth pops pushes

/-- An instruction whose operands are there is admitted when the depth that it leaves is a word. -/
theorem Admits.of_lt (henough : pops.toNat ≤ a.depth.toNat)
    (hroom : a.depth.toNat - pops.toNat + pushes.toNat < 65536) : a.Admits pops pushes :=
  ⟨henough, fun _ => hroom⟩

/-- In checked arithmetic the depth after an instruction that is admitted is that of the numbers. -/
theorem Admits.toNat_depth (h : a.Admits pops pushes) (hchecked : a.arithmetic = .checked) :
    (a.extended i pops pushes).depth.toNat = a.depth.toNat - pops.toNat + pushes.toNat :=
  Arithmetic.toNat_depth h.enough (h.fits hchecked)

/-- The largest depth after an instruction is that before, or the depth that it leaves. -/
theorem toNat_maxDepth_extended : (a.extended i pops pushes).maxDepth.toNat =
    max a.maxDepth.toNat (a.extended i pops pushes).depth.toNat :=
  UInt16.toNat_max ..

/-- The targets of jumps recorded are those recorded before and that of the instruction. -/
theorem mem_branchDepths_extended {target : Nat} :
    target ∈ (a.extended i pops pushes).branchDepths ↔
      i.branchTarget? = some target ∨ target ∈ a.branchDepths := by
  unfold extended
  cases i.branchTarget? with
  | none => simp
  | some target' => simp [Std.TreeMap.mem_insertIfNew]

/-- A depth recorded was recorded before or is what the instruction left for its target. -/
theorem branchDepths_extended {target : Nat} {depth : UInt16}
    (h : (a.extended i pops pushes).branchDepths[target]? = some depth) :
    a.branchDepths[target]? = some depth ∨
      i.branchTarget? = some target ∧ depth = a.depth - pops := by
  unfold extended at h
  cases htarget : i.branchTarget? with
  | none =>
    simp only [htarget] at h
    exact .inl h
  | some target' =>
    simp only [htarget, Std.TreeMap.getElem?_insertIfNew] at h
    split at h
    · rename_i hnew
      obtain rfl := Nat.compare_eq_eq.mp hnew.1
      exact .inr ⟨rfl, (Option.some.inj h).symm⟩
    · exact .inl h

/-- What appending an instruction can come to. -/
inductive Appending (a : Assembler) (i : Instr) (pops pushes : UInt16) :
    Except AssemblyError Unit × Assembler → Prop
  /-- The instruction is accepted. -/
  | accepted (admitted : a.Admits pops pushes) :
      Appending a i pops pushes (.ok (), a.extended i pops pushes)
  /-- The modelled stack holds less than the instruction takes. -/
  | missing (less : a.depth.toNat < pops.toNat) :
      Appending a i pops pushes (.error (.stackUnderflow i.opcode a.depth pops), a)
  /-- The depth that the instruction leaves is no word. -/
  | overflows (enough : pops.toNat ≤ a.depth.toNat)
      (large : ¬ a.arithmetic.Fits a.depth pops pushes) :
      Appending a i pops pushes (.error (.overflow .add), a)

theorem appending (a : Assembler) (i : Instr) (pops pushes : UInt16) :
    Appending a i pops pushes (a.appendWith i pops pushes) := by
  unfold appendWith
  split
  · rename_i hless
    exact .missing (UInt16.lt_iff_toNat_lt.mp hless)
  · rename_i hless
    have hpops : pops.toNat ≤ a.depth.toNat :=
      Nat.le_of_not_lt (mt UInt16.lt_iff_toNat_lt.mpr hless)
    by_cases hfits : a.arithmetic.Fits a.depth pops pushes
    · rw [Arithmetic.depths_eq_ok hpops hfits]
      exact .accepted ⟨hpops, hfits⟩
    · rw [Arithmetic.depths_eq_error hpops hfits]
      exact .overflows hpops hfits

/-- An instruction is accepted exactly when it is admitted. -/
theorem appendWith_eq_ok_iff :
    a.appendWith i pops pushes = (.ok (), b) ↔
      a.Admits pops pushes ∧ b = a.extended i pops pushes := by
  have hcases := a.appending i pops pushes
  generalize a.appendWith i pops pushes = result at hcases ⊢
  cases hcases with
  | accepted hadmitted => simp [hadmitted, eq_comm]
  | missing hless =>
    simp only [Prod.mk.injEq, reduceCtorEq, false_and, false_iff, not_and]
    intro hadmitted
    have henough := hadmitted.enough
    omega
  | overflows _ hlarge =>
    simp only [Prod.mk.injEq, reduceCtorEq, false_and, false_iff, not_and]
    exact fun hadmitted => absurd hadmitted.fits hlarge

/-- Whether an instruction is accepted depends on its opcode, the depth and the arithmetic. -/
theorem appendWith_congr {i' : Instr} (hopcode : i'.opcode = i.opcode) (hdepth : b.depth = a.depth)
    (harithmetic : b.arithmetic = a.arithmetic) (pops pushes : UInt16) :
    a.appendWith i pops pushes = (.ok (), a.extended i pops pushes) ∧
        b.appendWith i' pops pushes = (.ok (), b.extended i' pops pushes) ∨
      ∃ err, a.appendWith i pops pushes = (.error err, a) ∧
        b.appendWith i' pops pushes = (.error err, b) := by
  have hfirst := a.appending i pops pushes
  have hsecond := b.appending i' pops pushes
  generalize a.appendWith i pops pushes = result at hfirst ⊢
  generalize b.appendWith i' pops pushes = result' at hsecond ⊢
  -- Two instructions that meet different fates would differ in the depth or in the arithmetic.
  cases hfirst with
  | accepted hadmitted =>
    obtain ⟨henough, hfits⟩ := hadmitted
    rw [← hdepth, ← harithmetic] at hfits
    cases hsecond with
    | accepted _ => exact .inl ⟨rfl, rfl⟩
    | missing hless => rw [hdepth] at hless; omega
    | overflows _ hlarge => exact absurd hfits hlarge
  | missing hless =>
    rw [← hdepth] at hless
    cases hsecond with
    | accepted hadmitted => exact absurd hadmitted.enough (Nat.not_le_of_lt hless)
    | missing _ => exact .inr ⟨_, rfl, by rw [hopcode, hdepth]⟩
    | overflows henough _ => omega
  | overflows henough hlarge =>
    rw [← hdepth, ← harithmetic] at hlarge
    rw [← hdepth] at henough
    cases hsecond with
    | accepted hadmitted => exact absurd hadmitted.fits hlarge
    | missing hless => omega
    | overflows _ _ => exact .inr ⟨_, rfl, rfl⟩

/-- The first of appended instructions is appended, and the others after it unless it fails. -/
theorem appendAll_cons_eq (a : Assembler) (i : Instr) (is : List Instr) :
    a.appendAll (i :: is) =
      match (a.append i).1 with
      | .error err => (.error err, (a.append i).2)
      | .ok () => (a.append i).2.appendAll is := by
  rw [appendAll]
  generalize a.append i = result
  obtain ⟨answer, b⟩ := result
  cases answer <;> rfl

/-- Whatever holds between the assemblers before and after each single instruction holds between
those before and after all of them, also where one fails. -/
theorem appendAll_rel {R : Assembler → Assembler → Prop} (hrefl : ∀ a, R a a)
    (htrans : ∀ {a b c}, R a b → R b c → R a c) (hstep : ∀ a i, R a (a.append i).2)
    (is : List Instr) (a : Assembler) : R a (a.appendAll is).2 := by
  induction is generalizing a with
  | nil => exact hrefl a
  | cons i is ih =>
    rw [appendAll_cons_eq]
    cases (a.append i).1 with
    | error err => exact hstep a i
    | ok _ => exact htrans (hstep a i) (ih _)

/-- No operation changes the arithmetic. -/
theorem arithmetic_beginSource (a : Assembler) (index : Nat) :
    (a.beginSource index).arithmetic = a.arithmetic := by
  unfold beginSource
  dsimp only
  split <;> rfl

theorem arithmetic_appendWith (a : Assembler) (i : Instr) (pops pushes : UInt16) :
    (a.appendWith i pops pushes).2.arithmetic = a.arithmetic := by
  have hcases := a.appending i pops pushes
  generalize a.appendWith i pops pushes = result at hcases ⊢
  cases hcases <;> rfl

theorem arithmetic_append (a : Assembler) (i : Instr) :
    (a.append i).2.arithmetic = a.arithmetic := by
  unfold append
  split
  · rfl
  · exact a.arithmetic_appendWith i _ _

theorem arithmetic_appendAll (a : Assembler) (is : List Instr) :
    (a.appendAll is).2.arithmetic = a.arithmetic :=
  appendAll_rel (R := fun a b => b.arithmetic = a.arithmetic) (fun _ => rfl)
    (fun hfirst hrest => hrest.trans hfirst) arithmetic_append is a

/-- The first of appended instructions is accepted when it is admitted. -/
theorem appendAll_cons {p q : Nat} (heffect : i.opcode.stackEffect = some (p, q))
    (hadmitted : a.Admits p.toUInt16 q.toUInt16) :
    a.appendAll (i :: is) = (a.extended i p.toUInt16 q.toUInt16).appendAll is := by
  rw [appendAll, append, heffect]
  dsimp only
  rw [appendWith_eq_ok_iff.mpr ⟨hadmitted, rfl⟩]

/-- The first of appended instructions is appended to the assembler, the others after it. -/
theorem of_appendAll_cons (h : a.appendAll (i :: is) = (.ok (), b)) : ∃ p q,
    i.opcode.stackEffect = some (p, q) ∧ a.Admits p.toUInt16 q.toUInt16 ∧
      (a.extended i p.toUInt16 q.toUInt16).appendAll is = (.ok (), b) := by
  unfold appendAll append at h
  cases heffect : i.opcode.stackEffect with
  | none => simp [heffect] at h
  | some effect =>
    obtain ⟨p, q⟩ := effect
    simp only [heffect] at h
    split at h
    · cases h
    · rename_i happend
      obtain ⟨hadmitted, rfl⟩ := appendWith_eq_ok_iff.mp happend
      exact ⟨p, q, rfl, hadmitted, h⟩

/-- Accepted code is appended, and labels stay. -/
theorem of_appendAll (h : a.appendAll is = (.ok (), b)) :
    b.code = a.code ++ is.toArray ∧ b.labels = a.labels ∧ b.sourceEnd = a.sourceEnd := by
  induction is generalizing a with
  | nil =>
    cases h
    simp
  | cons i is ih =>
    obtain ⟨p, q, -, -, hrest⟩ := of_appendAll_cons h
    obtain ⟨hcode, hlabels, hend⟩ := ih hrest
    refine ⟨?_, by simpa using hlabels, by simpa using hend⟩
    rw [hcode, extended_code]
    apply Array.ext'
    simp

variable {name descriptor : String} {handlers : List Handler} {body : AssembledMethod}

/-- A method made of the code and handlers of an assembler, resolved in the same places. -/
structure LinksTo (a : Assembler) (name descriptor : String) (handlers : List Handler)
    (body : AssembledMethod) : Prop where
  name : body.name = name
  descriptor : body.descriptor = descriptor
  maxStack : body.maxStack = a.maxDepth
  code : List.Forall₂ (fun i i' => resolve a.closedLabels i = .ok i')
    a.code.toList body.code.toList
  handlers : List.Forall₂ (fun k k' => resolveHandler a.closedLabels k = .ok k')
    handlers body.handlers

/-- Linking makes a method of the code and handlers. -/
theorem of_link (h : a.link name descriptor handlers = .ok body) :
    a.LinksTo name descriptor handlers body := by
  unfold link at h
  dsimp only at h
  rw [Array.mapM_eq_mapM_toList] at h
  cases hcode : a.code.toList.mapM (resolve a.closedLabels) with
  | error err => simp [hcode, bind, Except.bind, Functor.map, Except.map] at h
  | ok code =>
    cases hhandlers : handlers.mapM (resolveHandler a.closedLabels) with
    | error err => simp [hcode, hhandlers, bind, Except.bind, Functor.map, Except.map] at h
    | ok resolved =>
      simp only [hcode, hhandlers, bind, Except.bind, Functor.map, Except.map,
        Except.ok.injEq] at h
      subst h
      exact ⟨rfl, rfl, rfl, mapM_eq_ok_iff.mp hcode, mapM_eq_ok_iff.mp hhandlers⟩

/-- Place by place, linked code is the assembled code with its jumps resolved. -/
theorem code_of_link (h : a.link name descriptor handlers = .ok body) :
    body.code.size = a.code.size ∧ ∀ (j : Nat) i, a.code[j]? = some i →
      ∃ i', body.code[j]? = some i' ∧ resolve a.closedLabels i = .ok i' := by
  obtain ⟨hlength, hplace⟩ := List.forall₂_iff_get.mp (of_link h).code
  have hsize : body.code.size = a.code.size := by simpa using hlength.symm
  refine ⟨hsize, ?_⟩
  intro j i hi
  obtain ⟨hj, rfl⟩ := Array.getElem?_eq_some_iff.mp hi
  have hj' : j < body.code.size := by omega
  exact ⟨body.code[j], Array.getElem?_eq_getElem hj', by simpa using hplace j (by simpa) (by simpa)⟩

/-- Linking succeeds when every jump and every handler names a label. -/
theorem exists_link
    (hjumps : ∀ i ∈ a.code, ∃ i', resolve a.closedLabels i = .ok i')
    (hhandlers : ∀ k ∈ handlers, ∃ k', resolveHandler a.closedLabels k = .ok k') :
    ∃ body, a.link name descriptor handlers = .ok body := by
  obtain ⟨code, hcode⟩ : ∃ code, a.code.toList.mapM (resolve a.closedLabels) = .ok code :=
    exists_mapM_eq_ok fun i hi => hjumps i (Array.mem_toList_iff.mp hi)
  obtain ⟨resolved, hresolved⟩ := exists_mapM_eq_ok hhandlers
  unfold link
  dsimp only
  rw [Array.mapM_eq_mapM_toList, hcode, hresolved]
  exact ⟨_, rfl⟩

end Assembler

end FieldUpdater
