import FieldUpdater.Proofs.Assembler.Linking
import Mathlib.Data.List.Induction

/-!
# Where source instructions stand

An assembler is driven by directives: source instructions begin, in any order and perhaps more
than once, the depth is set, and instructions are appended. A source instruction stands where it
last began, and the one past the largest that began stands at the end. Finishing puts these
positions, all at once, in the place of the source instructions that jumps and handlers name,
and fails with the first one named that stands nowhere. Source instructions are numbered by words,
so that past the largest word comes the first, if its number does not overflow.
-/

namespace FieldUpdater

/-- The instruction with another target, if it is a jump. -/
def Instr.retarget (pos : Nat → Nat) (i : Instr) : Instr :=
  match i.branchTarget? with
  | none => i
  | some target => { i with operand := .target (pos target) }

/-- The handler in other places. -/
def Handler.moved (pos : Nat → Nat) (h : Handler) : Handler :=
  ⟨pos h.start, pos h.stop, pos h.entry⟩

namespace Assembler

/-- What an assembler can be told. -/
inductive Directive where
  /-- A source instruction begins here. -/
  | source (index : UInt32)
  /-- The stack has this depth. -/
  | depth (depth : UInt16)
  /-- Append an instruction. -/
  | append (i : Instr)
  /-- Append an instruction with this effect. -/
  | appendWith (i : Instr) (pops pushes : UInt16)
  /-- Append instructions up to the first that fails. -/
  | appendAll (is : List Instr)

/-- The answer to a directive and the assembler after it. -/
def perform (a : Assembler) : Directive → Except AssemblyError Unit × Assembler
  | .source index => (.ok (), a.beginSource index.toNat)
  | .depth depth => (.ok (), a.resetDepth depth)
  | .append i => a.append i
  | .appendWith i pops pushes => a.appendWith i pops pushes
  | .appendAll is => a.appendAll is

/-- The assembler that directives lead to, whether or not each of them succeeds. -/
def assembled (mode : Arithmetic) (ds : List Directive) : Assembler :=
  ds.foldl (fun a d => (a.perform d).2) { arithmetic := mode }

/-- Where a source instruction last began. -/
def LastBegan (mode : Arithmetic) (ds : List Directive) (k : UInt32) (p : Nat) : Prop :=
  ∃ before after, ds = before ++ .source k :: after ∧ .source k ∉ after ∧
    (assembled mode before).code.size = p

variable {mode : Arithmetic} {a : Assembler} {ds : List Directive} {d : Directive} {j k : UInt32}
  {n p : Nat}

theorem assembled_concat (mode : Arithmetic) (ds : List Directive) (d : Directive) :
    assembled mode (ds ++ [d]) = ((assembled mode ds).perform d).2 := by
  simp [assembled]

/-- Instructions that are appended, or refused, begin no source instruction. -/
theorem labels_appendWith (a : Assembler) (i : Instr) (pops pushes : UInt16) :
    (a.appendWith i pops pushes).2.labels = a.labels ∧
      (a.appendWith i pops pushes).2.sourceEnd = a.sourceEnd := by
  have hcases := a.appending i pops pushes
  generalize a.appendWith i pops pushes = result at hcases ⊢
  cases hcases <;> exact ⟨rfl, rfl⟩

theorem labels_append (a : Assembler) (i : Instr) :
    (a.append i).2.labels = a.labels ∧ (a.append i).2.sourceEnd = a.sourceEnd := by
  unfold append
  split
  · exact ⟨rfl, rfl⟩
  · exact a.labels_appendWith i _ _

theorem labels_appendAll (a : Assembler) (is : List Instr) :
    (a.appendAll is).2.labels = a.labels ∧ (a.appendAll is).2.sourceEnd = a.sourceEnd :=
  appendAll_rel (R := fun a b => b.labels = a.labels ∧ b.sourceEnd = a.sourceEnd)
    (fun _ => ⟨rfl, rfl⟩)
    (fun hfirst hrest => ⟨hrest.1.trans hfirst.1, hrest.2.trans hfirst.2⟩) labels_append is a

/-- A directive by which no source instruction begins leaves the labels as they are. -/
theorem labels_perform (a : Assembler) (hd : ∀ k, d ≠ .source k) :
    (a.perform d).2.labels = a.labels ∧ (a.perform d).2.sourceEnd = a.sourceEnd := by
  cases d with
  | source k => exact absurd rfl (hd k)
  | depth depth => exact ⟨rfl, rfl⟩
  | append i => exact a.labels_append i
  | appendWith i pops pushes => exact a.labels_appendWith i pops pushes
  | appendAll is => exact a.labels_appendAll is

/-- A source instruction that begins gets a label. -/
theorem labels_source (a : Assembler) (k : UInt32) :
    (a.perform (.source k)).2.labels = a.labels.insert k.toNat a.code.size ∧
      (a.perform (.source k)).2.sourceEnd = max a.sourceEnd (k.toNat + 1) := by
  unfold perform beginSource
  dsimp only
  split <;> exact ⟨rfl, rfl⟩

/-- The source instruction with which the directives end began there last. -/
theorem lastBegan_concat_self : LastBegan mode (ds ++ [.source k]) k p ↔
    (assembled mode ds).code.size = p := by
  constructor
  · rintro ⟨before, after, heq, hlast, hsize⟩
    rcases after.eq_nil_or_concat with rfl | ⟨after', e, rfl⟩
    · obtain ⟨rfl, -⟩ := List.append_inj' heq rfl
      exact hsize
    · have hsplit : ds ++ [.source k] = (before ++ .source k :: after') ++ [e] := by simpa using heq
      obtain ⟨-, hlastEq⟩ := List.append_inj' hsplit rfl
      obtain rfl : .source k = e := (List.cons.inj hlastEq).1
      simp at hlast
  · rintro rfl
    exact ⟨ds, [], rfl, List.not_mem_nil, rfl⟩

/-- A further directive does not change where another source instruction last began. -/
theorem lastBegan_concat_of_ne (hd : d ≠ .source k) :
    LastBegan mode (ds ++ [d]) k p ↔ LastBegan mode ds k p := by
  constructor
  · rintro ⟨before, after, heq, hlast, hsize⟩
    rcases after.eq_nil_or_concat with rfl | ⟨after', e, rfl⟩
    · obtain ⟨-, hlastEq⟩ := List.append_inj' heq rfl
      exact absurd (List.cons.inj hlastEq).1 hd
    · have hsplit : ds ++ [d] = (before ++ .source k :: after') ++ [e] := by simpa using heq
      obtain ⟨rfl, -⟩ := List.append_inj' hsplit rfl
      exact ⟨before, after', rfl, fun hmem => hlast (by simp [hmem]), hsize⟩
  · rintro ⟨before, after, rfl, hlast, hsize⟩
    refine ⟨before, after ++ [d], by simp, ?_, hsize⟩
    simp [hlast, hd.symm]

/-- The labels of an assembler are those of the directives that led to it. -/
structure Labelled (mode : Arithmetic) (ds : List Directive) : Prop where
  label : ∀ n p : Nat, (assembled mode ds).labels[n]? = some p ↔
    ∃ k : UInt32, k.toNat = n ∧ LastBegan mode ds k p
  lt_sourceEnd : ∀ k, .source k ∈ ds → k.toNat < (assembled mode ds).sourceEnd
  sourceEnd : (assembled mode ds).sourceEnd = 0 ∨
    ∃ k, .source k ∈ ds ∧ (assembled mode ds).sourceEnd = k.toNat + 1

/-- When a source instruction begins, it is the one that gets a label. -/
theorem Labelled.source (h : Labelled mode ds) (k : UInt32) :
    Labelled mode (ds ++ [.source k]) := by
  obtain ⟨hlabels, hend⟩ := (assembled mode ds).labels_source k
  rw [← assembled_concat] at hlabels hend
  refine ⟨?_, ?_, ?_⟩
  · intro n p
    rw [hlabels, Std.TreeMap.getElem?_insert]
    by_cases hn : k.toNat = n
    · subst hn
      simp [UInt32.toNat_inj, lastBegan_concat_self]
    · rw [if_neg (by simpa using hn), h.label]
      refine exists_congr fun j => and_congr_right fun hj => (lastBegan_concat_of_ne ?_).symm
      rintro ⟨rfl⟩
      exact hn hj
  · intro j hj
    rw [hend]
    rcases List.mem_append.mp hj with hold | hnew
    · have hlt := h.lt_sourceEnd j hold
      omega
    · obtain rfl : j = k := by simpa using hnew
      omega
  · rw [hend]
    by_cases hle : (assembled mode ds).sourceEnd ≤ k.toNat
    · exact .inr ⟨k, by simp, by omega⟩
    · rcases h.sourceEnd with hzero | ⟨m, hm, heq⟩
      · omega
      · exact .inr ⟨m, by simp [hm], by omega⟩

/-- Any other directive leaves all source instructions where they are. -/
theorem Labelled.other (h : Labelled mode ds) (hd : ∀ k, d ≠ .source k) :
    Labelled mode (ds ++ [d]) := by
  obtain ⟨hlabels, hend⟩ := (assembled mode ds).labels_perform hd
  rw [← assembled_concat] at hlabels hend
  have hmem (k : UInt32) : .source k ∈ ds ++ [d] ↔ .source k ∈ ds := by simp [(hd k).symm]
  refine ⟨?_, ?_, ?_⟩
  · intro n p
    simp only [hlabels, h.label, lastBegan_concat_of_ne (hd _)]
  · intro k hk
    rw [hend]
    exact h.lt_sourceEnd k ((hmem k).mp hk)
  · rw [hend]
    exact h.sourceEnd.imp id fun ⟨k, hk, heq⟩ => ⟨k, (hmem k).mpr hk, heq⟩

/-- The assembler whose end of the source is a word. -/
def ended (a : Assembler) : Assembler := { a with sourceEnd := a.sourceEnd % 4294967296 }

variable {labels : Std.TreeMap Nat Nat} {pos : Nat → Nat} {name descriptor : String}
  {handlers : List Handler} {body : AssembledMethod}

theorem eq_of_position {q : Nat} (hpos : ∀ n p : Nat, labels[n]? = some p → pos n = p)
    (h : position labels n = .ok q) : pos n = q := by
  unfold position at h
  split at h
  · rename_i p hp
    exact (hpos n p hp).trans (Except.ok.inj h)
  · cases h

/-- A resolved instruction is the instruction with its target replaced. -/
theorem eq_retarget_of_resolve {i i' : Instr} (hpos : ∀ n p : Nat, labels[n]? = some p → pos n = p)
    (h : resolve labels i = .ok i') : i.retarget pos = i' := by
  unfold resolve at h
  unfold Instr.retarget
  cases htarget : i.branchTarget? with
  | none =>
    rw [htarget] at h
    exact Except.ok.inj h
  | some target =>
    rw [htarget] at h
    dsimp only at h ⊢
    cases hposition : position labels target with
    | error err => simp [hposition, Except.map] at h
    | ok q =>
      rw [hposition] at h
      rw [eq_of_position hpos hposition]
      exact Except.ok.inj h

/-- A resolved handler is the handler with its places replaced. -/
theorem eq_moved_of_resolveHandler {k k' : Handler}
    (hpos : ∀ n p : Nat, labels[n]? = some p → pos n = p) (h : resolveHandler labels k = .ok k') :
    k.moved pos = k' := by
  unfold resolveHandler at h
  cases hstart : position labels k.start with
  | error err => simp [hstart, bind, Except.bind] at h
  | ok start =>
    cases hstop : position labels k.stop with
    | error err => simp [hstart, hstop, bind, Except.bind] at h
    | ok stop =>
      cases hentry : position labels k.entry with
      | error err => simp [hstart, hstop, hentry, bind, Except.bind] at h
      | ok entry =>
        simp only [hstart, hstop, hentry, bind, Except.bind, Except.ok.injEq] at h
        rw [← h, Handler.moved, eq_of_position hpos hstart, eq_of_position hpos hstop,
          eq_of_position hpos hentry]

/-- A linked method is the code and the handlers with every place replaced at once. -/
theorem LinksTo.eq (h : a.LinksTo name descriptor handlers body)
    (hpos : ∀ n p : Nat, a.closedLabels[n]? = some p → pos n = p) :
    body = ⟨name, descriptor, a.code.map (·.retarget pos), handlers.map (·.moved pos),
      a.maxDepth⟩ := by
  have hcode : a.code.toList.map (·.retarget pos) = body.code.toList := by
    rw [← List.forall₂_eq_eq_eq, List.forall₂_map_left_iff]
    exact h.code.imp fun _ _ => eq_retarget_of_resolve hpos
  have hhandlers : handlers.map (·.moved pos) = body.handlers := by
    rw [← List.forall₂_eq_eq_eq, List.forall₂_map_left_iff]
    exact h.handlers.imp fun _ _ => eq_moved_of_resolveHandler hpos
  have hname := h.name
  have hdescriptor := h.descriptor
  have hmax := h.maxStack
  obtain ⟨bodyName, bodyDescriptor, code, bodyHandlers, maxStack⟩ := body
  dsimp only at hname hdescriptor hmax hcode hhandlers
  have hsame : a.code.map (·.retarget pos) = code := Array.ext' (by simpa using hcode)
  rw [hname, hdescriptor, hmax, hsame, hhandlers]

/-- The first source instruction begins twice, and the third before it: a jump to the first goes
where it began again, and the fourth is the end. -/
example : (assembled .checked [.source 2, .append ⟨.aconstNull, .none⟩, .source 0,
      .append ⟨.ifnull, .target 3⟩, .source 0,
      .appendAll [⟨.nop, .none⟩, ⟨.goto, .target 0⟩]]).finish "m" "()V" [⟨0, 3, 2⟩] =
    .ok ⟨"m", "()V", #[⟨.aconstNull, .none⟩, ⟨.ifnull, .target 4⟩, ⟨.nop, .none⟩,
      ⟨.goto, .target 2⟩], [⟨2, 4, 0⟩], 1⟩ := by
  decide +kernel

/-- Where arithmetic wraps, past the largest number comes the first. -/
example : (assembled .wrapping [.source 4294967295, .append ⟨.goto, .target 0⟩]).finish
      "m" "()V" [] = .ok ⟨"m", "()V", #[⟨.goto, .target 1⟩], [], 0⟩ := by
  decide +kernel

end Assembler

end FieldUpdater
