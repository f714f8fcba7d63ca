import FieldUpdater.Proofs.Classes.Extension
import FieldUpdater.Substitution.Window
import Mathlib.Data.Option.Basic

/-!
# Matched windows

A window that names a field consists of three loads of constants and the call, and
nothing jumps into it. What it names is found again in every extension of the class
table.
-/

namespace FieldUpdater

namespace Flow

/-- Marking sets the marks of the indices given and no others. -/
theorem getElem?_mark (marks : Array Bool) (indices : List Nat) (i : Nat) :
    (mark marks indices)[i]? =
      if i ∈ indices ∧ i < marks.size then some true else marks[i]? := by
  unfold mark
  induction indices generalizing marks with
  | nil => simp
  | cons k indices ih =>
    rw [List.foldl_cons, ih, Array.getElem?_setIfInBounds, Array.size_setIfInBounds]
    by_cases hk : k = i
    · subst hk
      by_cases hlt : k < marks.size
      · simp [hlt]
      · simp [hlt]
    · simp [hk, Ne.symm hk]

/-- Jumps and handlers name the branch targets. -/
theorem mem_targets_iff {code : Array Instr} {handlers : List Handler} {k : Nat} :
    k ∈ targets code handlers ↔
      (∃ i ∈ code, i.branchTarget? = some k) ∨ ∃ h ∈ handlers, h.entry = k := by
  simp [targets, Array.mem_toList_iff]

/-- Exploring keeps one mark for each instruction. -/
theorem size_explore (code : Array Instr) (work : List Nat) (seen : Array Bool) :
    (explore code work seen).size = seen.size := by
  fun_induction explore code work seen with
  | case1 => rfl
  | case2 seen index rest hclear ih => simpa using ih
  | case3 seen index rest hclear ih => exact ih

/-- The flags of an instruction: it is a branch target exactly when a jump or a handler names it,
and reachable when exploring from the first instruction and the handlers marks it. -/
theorem getElem?_flags {code : Array Instr} {k : Nat} (hk : k < code.size)
    (handlers : List Handler) : ∃ reachable,
    (explore code (0 :: handlers.map Handler.entry) (Array.replicate code.size false))[k]?
      = some reachable ∧
    (flags code handlers)[k]? = some ⟨decide (k ∈ targets code handlers), reachable⟩ := by
  have hsize :=
    size_explore code (0 :: handlers.map Handler.entry) (Array.replicate code.size false)
  unfold flags
  dsimp only
  generalize explore code (0 :: handlers.map Handler.entry) (Array.replicate code.size false)
    = reached at hsize
  rw [Array.size_replicate] at hsize
  have hreached : reached[k]? = some reached[k] := Array.getElem?_eq_getElem (by omega)
  refine ⟨reached[k], hreached, ?_⟩
  rw [Array.getElem?_zipWith, getElem?_mark, hreached]
  by_cases hmem : k ∈ targets code handlers <;> simp [hmem, hk]

/-- There is one pair of flags for each instruction. -/
theorem size_flags (code : Array Instr) (handlers : List Handler) :
    (flags code handlers).size = code.size := by
  have hmark (marks : Array Bool) (indices : List Nat) :
      (mark marks indices).size = marks.size := by
    induction indices generalizing marks with
    | nil => rfl
    | cons k indices ih => exact (ih _).trans Array.size_setIfInBounds
  simp [flags, hmark, size_explore]

end Flow

/-- The call of a window comes after three loads of constants, and no jump or handler
enters between the first load and the call. -/
structure Window.Straight (code : Array Instr) (handlers : List Handler) (position : Nat) :
    Prop where
  /-- The window begins within the code. -/
  three_le : 3 ≤ position
  /-- The call is an instruction of the code. -/
  lt_size : position < code.size
  /-- The three instructions before the call load constants. -/
  loads : ∀ k, position ≤ k + 3 → k < position → ∃ constant, code[k]? = some ⟨.ldc, .pool constant⟩
  /-- Control comes to the instructions of the window only from the one before. -/
  not_entered : ∀ k ∈ Flow.targets code handlers, position ≤ k + 3 → position < k

namespace Window

/-- How a window names a field: the constants that it loads, and what these stand for. -/
structure Naming (w : Window) (t : ClassTable) (f : Field) where
  owner : Nat
  value : Nat
  text : Nat
  ownerType : ResolvedType
  valueType : ResolvedType
  valueClass : ClassId
  name : String
  three_le : 3 ≤ w.position
  lt_size : w.position < w.code.size
  lt_flags : w.position < w.flags.size
  not_entered : w.isEntered = false
  owner_load : w.code[w.position - 3]? = some ⟨.ldc, .pool owner⟩
  value_load : w.code[w.position - 2]? = some ⟨.ldc, .pool value⟩
  text_load : w.code[w.position - 1]? = some ⟨.ldc, .pool text⟩
  owner_type : t.classConstant? w.pool owner = some ownerType
  value_type : t.classConstant? w.pool value = some valueType
  text_name : w.pool.text? text = some name
  owner_id : ownerType.id = some w.thisClass
  value_kind : valueType.kind = .reference
  value_id : valueType.id = some valueClass
  found : t.findField? w.thisClass name valueType.signature = some f
  not_static : f.isStatic = false
  isVolatile : f.isVolatile = true
  declaring : f.declaring = w.thisClass
  type_eq : f.type = valueClass

variable {w : Window} {t t' : ClassTable} {f : Field}

/-- A loaded constant stands in an instruction that loads it. -/
theorem argument?_eq_some_iff {before constant : Nat} :
    w.argument? before = some constant ↔
      w.code[w.position - before]? = some ⟨.ldc, .pool constant⟩ := by
  unfold argument? loadedConstant? Instr.poolIndex?
  cases w.code[w.position - before]? with
  | none => simp
  | some i =>
    obtain ⟨opcode, operand⟩ := i
    cases operand <;> simp

theorem isEligible_iff {valueClass : ClassId} : w.isEligible valueClass f = true ↔
    f.isStatic = false ∧ f.isVolatile = true ∧ f.declaring = w.thisClass ∧
      f.type = valueClass := by
  simp [isEligible]

private theorem guard_eq_some_iff {p : Prop} [Decidable p] {u : Unit} : guard p = some u ↔ p := by
  by_cases hp : p <;> simp [guard, hp]

/-- The field that a window names is the one that its constants stand for. -/
theorem target?_eq_some_iff : w.target? t = some f ↔ Nonempty (w.Naming t f) := by
  unfold target? targetBy? ClassTable.resolver
  simp only [Option.bind_eq_bind, Option.bind_eq_some_iff, guard_eq_some_iff, Bool.not_eq_true',
    argument?_eq_some_iff, isEligible_iff]
  constructor
  · rintro ⟨-, ⟨hthree, hsize, hflags⟩, -, hclear, owner, howner, ownerType, hownerType, value,
      hvalue, valueType, hvalueType, text, htext, name, hname, -, hthis, -, hkind, valueClass,
      hvalueClass, field, hfield, -, ⟨hstatic, hvolatile, hdeclaring, htype⟩, hresult⟩
    obtain rfl : field = f := Option.some.inj hresult
    exact ⟨⟨owner, value, text, ownerType, valueType, valueClass, name, hthree, hsize, hflags,
      hclear, howner, hvalue, htext, hownerType, hvalueType, hname, hthis, hkind, hvalueClass,
      hfield, hstatic, hvolatile, hdeclaring, htype⟩⟩
  · rintro ⟨n⟩
    exact ⟨(), ⟨n.three_le, n.lt_size, n.lt_flags⟩, (), n.not_entered, n.owner, n.owner_load,
      n.ownerType, n.owner_type, n.value, n.value_load, n.valueType, n.value_type, n.text,
      n.text_load, n.name, n.text_name, (), n.owner_id, (), n.value_kind, n.valueClass,
      n.value_id, f, n.found, (), ⟨n.not_static, n.isVolatile, n.declaring, n.type_eq⟩, rfl⟩

/-- A class constant that stands for a class stands for it in every extension. -/
theorem classConstant?_of_extends (h : t.Extends t') {pool : ConstantPool} {index : Nat}
    {type : ResolvedType} {id : ClassId} (htype : t.classConstant? pool index = some type)
    (hid : type.id = some id) : t'.classConstant? pool index = some type := by
  unfold ClassTable.classConstant? at htype ⊢
  obtain ⟨name, hname, rfl⟩ := Option.map_eq_some_iff.mp htype
  rw [hname, Option.map_some]
  cases hlookup : t.lookup name with
  | none => simp [ClassTable.resolve, hlookup, ResolvedType.unloadable] at hid
  | some c => rw [h.resolve hlookup]

/-- A field is found only for a class of the table. -/
theorem lt_size_of_findField? {c : ClassId} {name signature : String}
    (h : t.findField? c name signature = some f) : c.index < t.size := by
  by_contra hlt
  have hnone : t.find? c = none := by
    rw [← Option.not_isSome_iff_eq_none, ClassTable.find?_isSome_iff]
    exact hlt
  have hsuper : t.superclass? c = none := by rw [ClassTable.superclass?, hnone]; rfl
  rw [ClassTable.findField?, ClassTable.lineage, hsuper] at h
  simp [ClassTable.declaredField?, hnone] at h

/-- The class of a window that names a field is in the table. -/
theorem Naming.thisClass_lt (n : w.Naming t f) : w.thisClass.index < t.size :=
  lt_size_of_findField? n.found

/-- A window names the same field in every extension of the table. -/
theorem target?_of_extends (h : t.Extends t') (hf : w.target? t = some f) :
    w.target? t' = some f := by
  obtain ⟨n⟩ := target?_eq_some_iff.mp hf
  exact target?_eq_some_iff.mpr ⟨{ n with
    owner_type := classConstant?_of_extends h n.owner_type n.owner_id
    value_type := classConstant?_of_extends h n.value_type n.value_id
    found := (h.findField? n.thisClass_lt _ _).trans n.found }⟩

/-- Control comes to the instructions of a window only one after the other exactly when no
jump and no handler goes to one of them. -/
theorem isEntered_iff {code : Array Instr} {handlers : List Handler} {position : Nat}
    {thisClass : ClassId} {pool : ConstantPool} (hlt : position < code.size) :
    (⟨thisClass, pool, code, Flow.flags code handlers, position⟩ : Window).isEntered = false ↔
      ∀ k ∈ Flow.targets code handlers, ¬ (position - 3 ≤ k ∧ k ≤ position) := by
  unfold isEntered
  dsimp only
  rw [Array.any_eq_false']
  constructor
  · rintro h k hk ⟨hfirst, hlast⟩
    obtain ⟨reachable, -, hflags⟩ := Flow.getElem?_flags (by omega : k < code.size) handlers
    refine h ⟨decide (k ∈ Flow.targets code handlers), reachable⟩ ?_ (decide_eq_true hk)
    have hsize := (Array.getElem?_eq_some_iff.mp hflags).1
    rw [Array.mem_iff_getElem?]
    refine ⟨k - (position - 3), ?_⟩
    rw [Array.getElem?_extract, if_pos (by omega),
      (by omega : position - 3 + (k - (position - 3)) = k)]
    exact hflags
  · intro h flags hmem
    obtain ⟨j, hj⟩ := Array.mem_iff_getElem?.mp hmem
    rw [Array.getElem?_extract] at hj
    split at hj
    · obtain ⟨reachable, -, hflags⟩ :=
        Flow.getElem?_flags (by omega : position - 3 + j < code.size) handlers
      obtain rfl := Option.some.inj (hj.symm.trans hflags)
      have hclear := mt (h (position - 3 + j)) (not_not_intro (by omega))
      simpa using hclear
    · cases hj

/-- A window that names a field under some resolver lies in the code, is not entered and loads
three constants. -/
theorem of_targetBy? {r : Resolver} (h : w.targetBy? r t = some f) :
    3 ≤ w.position ∧ w.position < w.code.size ∧ w.isEntered = false ∧ ∃ owner value text,
      w.code[w.position - 3]? = some ⟨.ldc, .pool owner⟩ ∧
      w.code[w.position - 2]? = some ⟨.ldc, .pool value⟩ ∧
      w.code[w.position - 1]? = some ⟨.ldc, .pool text⟩ := by
  unfold targetBy? at h
  simp only [Option.bind_eq_bind, Option.bind_eq_some_iff, guard_eq_some_iff, Bool.not_eq_true',
    argument?_eq_some_iff] at h
  obtain ⟨-, ⟨hthree, hsize, -⟩, -, hclear, owner, howner, -, -, value, hvalue, -, -, text, htext,
    -⟩ := h
  exact ⟨hthree, hsize, hclear, owner, value, text, howner, hvalue, htext⟩

/-- A window with the flags of its code that names a field under some resolver is straight. -/
theorem straight_of_targetBy? {r : Resolver} {handlers : List Handler}
    (hflags : w.flags = Flow.flags w.code handlers) (h : w.targetBy? r t = some f) :
    Straight w.code handlers w.position := by
  obtain ⟨hthree, hlt, hclear, owner, value, text, howner, hvalue, htext⟩ := of_targetBy? h
  obtain ⟨thisClass, pool, code, flags, position⟩ := w
  obtain rfl : flags = Flow.flags code handlers := hflags
  refine ⟨hthree, hlt, ?_, ?_⟩
  · intro k hfirst hlast
    dsimp only at hfirst hlast
    rcases (by omega : k = position - 3 ∨ k = position - 2 ∨ k = position - 1) with rfl | rfl | rfl
    · exact ⟨owner, howner⟩
    · exact ⟨value, hvalue⟩
    · exact ⟨text, htext⟩
  · intro k hk hfirst
    have houtside := (isEntered_iff hlt).mp hclear k hk
    dsimp only at hfirst houtside ⊢
    omega

/-- A window with the flags of its code that names a field is straight. -/
theorem straight_of_target? {code : Array Instr} {handlers : List Handler} {position : Nat}
    {thisClass : ClassId} {pool : ConstantPool}
    (hf : (⟨thisClass, pool, code, Flow.flags code handlers, position⟩ : Window).target? t
      = some f) : Straight code handlers position :=
  straight_of_targetBy? rfl hf

end Window

end FieldUpdater
