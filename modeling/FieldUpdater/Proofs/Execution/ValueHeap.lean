import FieldUpdater.Proofs.Accessors.Synthesis
import FieldUpdater.Proofs.Execution.Registers
import FieldUpdater.Proofs.Execution.Words
import Mathlib.Logic.ExistsUnique

/-!
# A heap of values

Slots could hold values instead of words. A heap is at all times the encoding of such a heap:
every operation answers alike on both, whichever class table stands behind it, and leaves a heap
and its encoding. An exchange compares words, which is comparing values, since no two values have
the same word and no word is stored that is not that of a value.
-/

namespace FieldUpdater

/-- An object whose slots hold values. -/
structure ValueObject where
  classId : ClassId
  slots : Array Value

/-- Objects whose slots hold values, by reference. -/
structure ValueHeap where
  objects : Array ValueObject := #[]

/-- An operation on objects and slots. -/
inductive HeapOp where
  | alloc (c : ClassId)
  | load (o : ObjRef) (slot : Nat)
  | store (o : ObjRef) (slot : Nat) (v : Value)
  | compareExchange (o : ObjRef) (slot : Nat) (expected update : Value)

/-- The position of the object and the slot that an operation may set. -/
def HeapOp.place? : HeapOp → Option (Nat × Nat)
  | .alloc _ => none
  | .load _ _ => none
  | .store o slot _ => some (o.index.toNat, slot)
  | .compareExchange o slot _ _ => some (o.index.toNat, slot)

/-- What an operation answers and what it leaves. One that fails changes nothing. -/
def settled {S : Type} (s : S) : Except ExecError (Answer × S) → Except ExecError Answer × S
  | .error err => (.error err, s)
  | .ok (answer, s) => (.ok answer, s)

namespace ValueHeap

/-- Make an object whose slots are all null. -/
def alloc (H : ValueHeap) (t : ClassTable) (c : ClassId) : Except ExecError (ObjRef × ValueHeap) :=
  match t.find? c with
  | none => .error (.unknownClass c.text)
  | some info =>
    if info.stage = .defining then .error (.typeNotFinalized info.name)
    else .ok (⟨H.objects.size.toUInt32⟩,
      ⟨H.objects.push ⟨c, Array.replicate info.instanceSlots .null⟩⟩)

/-- The value of a slot. -/
def load (H : ValueHeap) (o : ObjRef) (slot : Nat) : Except ExecError Value :=
  match H.objects[o.index.toNat]? with
  | none => .error (.invalidReference o)
  | some obj =>
    match obj.slots[slot]? with
    | none => .error (.slotOutOfRange o slot)
    | some v => .ok v

/-- Overwrite the value of a slot. -/
def put (H : ValueHeap) (o : ObjRef) (slot : Nat) (v : Value) : ValueHeap :=
  ⟨H.objects.modify o.index.toNat fun obj => { obj with slots := obj.slots.setIfInBounds slot v }⟩

/-- Store into a slot. -/
def store (H : ValueHeap) (o : ObjRef) (slot : Nat) (v : Value) : Except ExecError ValueHeap :=
  (H.load o slot).map fun _ => H.put o slot v

/-- Store into a slot if its value is the expected one, and give the value it had. -/
def compareExchange (H : ValueHeap) (o : ObjRef) (slot : Nat) (expected update : Value) :
    Except ExecError (Value × ValueHeap) :=
  (H.load o slot).map fun previous =>
    (previous, if previous = expected then H.put o slot update else H)

/-- Perform an operation. -/
def perform (H : ValueHeap) (t : ClassTable) : HeapOp → Except ExecError Answer × ValueHeap
  | .alloc c => settled H ((H.alloc t c).map (Prod.map .object id))
  | .load o slot => settled H ((H.load o slot).map (.value ·, H))
  | .store o slot v => settled H ((H.store o slot v).map (.done, ·))
  | .compareExchange o slot expected update =>
    settled H ((H.compareExchange o slot expected update).map (Prod.map .value id))

/-- Perform operations one after the other, each over a class table. -/
def performAll : List (ClassTable × HeapOp) → ValueHeap →
    List (Except ExecError Answer) × ValueHeap
  | [], H => ([], H)
  | (t, op) :: ops, H =>
    let (answer, H) := H.perform t op
    let (answers, H) := performAll ops H
    (answer :: answers, H)

end ValueHeap

namespace Heap

/-- Perform an operation. -/
def perform (h : Heap) (t : ClassTable) : HeapOp → Except ExecError Answer × Heap
  | .alloc c => settled h ((h.alloc t c).map (Prod.map .object id))
  | .load o slot => settled h ((h.load o slot).map (.value ·, h))
  | .store o slot v => settled h ((h.store o slot v).map (.done, ·))
  | .compareExchange o slot expected update =>
    settled h ((h.compareExchange o slot expected update).map (Prod.map .value id))

/-- Perform operations one after the other, each over a class table. -/
def performAll : List (ClassTable × HeapOp) → Heap → List (Except ExecError Answer) × Heap
  | [], h => ([], h)
  | (t, op) :: ops, h =>
    let (answer, h) := h.perform t op
    let (answers, h) := performAll ops h
    (answer :: answers, h)

/-- The heap that operations lead to from the empty one. -/
def after (tag : Nat) (ops : List (ClassTable × HeapOp)) : Heap :=
  ((⟨tag, #[]⟩ : Heap).performAll ops).2

/-- The class and the number of slots of every object. -/
def shapes (h : Heap) : List (ClassId × Nat) :=
  (h.objects.map fun obj => (obj.classId, obj.words.size)).toList

/-- The word of a slot of the object at a position. -/
def wordAt? (h : Heap) (i slot : Nat) : Option UInt64 := h.objects[i]?.bind (·.words[slot]?)

/-- Between two heaps an allocation may have appended an object, and an operation may have changed
the slot that it addresses. -/
structure Touches (op : HeapOp) (h h' : Heap) : Prop where
  shapes : h'.shapes = h.shapes ∨ ∃ c slots, op = .alloc c ∧ h'.shapes = h.shapes ++ [(c, slots)]
  word : ∀ i slot, i < h.size → op.place? ≠ some (i, slot) → h'.wordAt? i slot = h.wordAt? i slot

end Heap

/-- The object whose slots hold the words of the values. -/
def ValueObject.encode (obj : ValueObject) : HeapObject :=
  ⟨obj.classId, obj.slots.map Value.toWord⟩

namespace ValueHeap

/-- The heap whose slots hold the words of the values. -/
def encode (tag : Nat) (H : ValueHeap) : Heap := ⟨tag, H.objects.map ValueObject.encode⟩

variable {tag slot : Nat} {t : ClassTable} {c : ClassId} {o : ObjRef} {v expected update : Value}
  {H : ValueHeap} {op : HeapOp}

/-- A slot of the encoding holds the word of the value. -/
theorem word_encode : (H.encode tag).word o slot = (H.load o slot).map Value.toWord := by
  unfold Heap.word Heap.get Heap.find? load encode
  rw [Array.getElem?_map]
  cases H.objects[o.index.toNat]? with
  | none => rfl
  | some obj =>
    simp only [Option.map_some, ValueObject.encode, Array.getElem?_map]
    cases obj.slots[slot]? <;> rfl

/-- Setting a slot to the word of a value is overwriting its value. -/
theorem setWord_encode :
    (H.encode tag).setWord o slot v.toWord = (H.put o slot v).encode tag := by
  unfold Heap.setWord put encode
  rw [map_modify (k := fun obj => { obj with words := obj.words.setIfInBounds slot v.toWord })]
  intro obj
  simp [ValueObject.encode, Array.map_setIfInBounds]

theorem alloc_encode :
    (H.encode tag).alloc t c = (H.alloc t c).map (Prod.map id (encode tag)) := by
  unfold Heap.alloc alloc
  cases t.find? c with
  | none => rfl
  | some info =>
    by_cases hstage : info.stage = .defining
    · simp only [if_pos hstage]
      rfl
    · simp [if_neg hstage, Except.map, encode, ValueObject.encode, Heap.size]

theorem load_encode : (H.encode tag).load o slot = H.load o slot := by
  rw [Heap.load, word_encode]
  cases H.load o slot with
  | error err => rfl
  | ok v => exact congrArg Except.ok v.ofWord_toWord

theorem store_encode :
    (H.encode tag).store o slot v = (H.store o slot v).map (encode tag) := by
  rw [Heap.store, word_encode, store]
  cases H.load o slot with
  | error err => rfl
  | ok _ => exact congrArg Except.ok setWord_encode

/-- Comparing words is comparing values. -/
theorem compareExchange_encode :
    (H.encode tag).compareExchange o slot expected update =
      (H.compareExchange o slot expected update).map (Prod.map id (encode tag)) := by
  rw [Heap.compareExchange, word_encode, compareExchange]
  cases H.load o slot with
  | error err => rfl
  | ok previous =>
    simp only [Except.map, Value.ofWord_toWord, Value.toWord_inj, setWord_encode]
    by_cases heq : previous = expected
    · simp only [if_pos heq, Prod.map_apply, id_eq]
    · simp only [if_neg heq, Prod.map_apply, id_eq]

/-- An operation on the encoding answers as on the values and leaves the encoding of what it
leaves of the values. -/
theorem perform_encode :
    (H.encode tag).perform t op = Prod.map id (encode tag) (H.perform t op) := by
  cases op with
  | alloc c =>
    rw [Heap.perform, perform, alloc_encode]
    cases H.alloc t c <;> rfl
  | load o slot =>
    rw [Heap.perform, perform, load_encode]
    cases H.load o slot <;> rfl
  | store o slot v =>
    rw [Heap.perform, perform, store_encode]
    cases H.store o slot v <;> rfl
  | compareExchange o slot expected update =>
    rw [Heap.perform, perform, compareExchange_encode]
    cases H.compareExchange o slot expected update <;> rfl

/-- So do operations one after the other. -/
theorem performAll_encode (tag : Nat) (ops : List (ClassTable × HeapOp)) (H : ValueHeap) :
    (H.encode tag).performAll ops = Prod.map id (encode tag) (H.performAll ops) := by
  induction ops generalizing H with
  | nil => rfl
  | cons entry ops ih =>
    obtain ⟨t, op⟩ := entry
    unfold Heap.performAll performAll
    simp only [perform_encode, Prod.map_fst, Prod.map_snd, ih, id_eq]
    rfl

/-- A word of the encoding is that of exactly one value. -/
theorem existsUnique_toWord {obj : HeapObject} {w : UInt64} (hobj : obj ∈ (H.encode tag).objects)
    (hw : w ∈ obj.words) : ∃! v : Value, v.toWord = w := by
  obtain ⟨source, -, rfl⟩ := Array.mem_map.mp hobj
  obtain ⟨v, -, rfl⟩ := Array.mem_map.mp hw
  exact ⟨v, rfl, fun other hother => Value.toWord_inj.mp hother⟩

end ValueHeap

namespace Heap

variable {tag : Nat} {t : ClassTable} {c : ClassId} {o : ObjRef} {slot : Nat} {h h' : Heap}
  {op : HeapOp}

theorem Touches.refl (op : HeapOp) (h : Heap) : Touches op h h :=
  ⟨.inl rfl, fun _ _ _ _ => rfl⟩

/-- Objects stay, with their classes and their numbers of slots. -/
theorem Touches.appends (htouches : Touches op h h') : h.shapes <+: h'.shapes := by
  rcases htouches.shapes with heq | ⟨c, slots, -, heq⟩
  · exact heq ▸ List.prefix_rfl
  · exact heq ▸ List.prefix_append _ _

theorem shapes_push (obj : HeapObject) :
    ({ h with objects := h.objects.push obj } : Heap).shapes =
      h.shapes ++ [(obj.classId, obj.words.size)] := by
  simp [shapes]

theorem shapes_setWord {w : UInt64} : (h.setWord o slot w).shapes = h.shapes := by
  rw [shapes, setWord, map_modify_of_eq, shapes]
  intro obj
  rw [Array.size_setIfInBounds]

theorem touches_alloc (halloc : h.alloc t c = .ok (o, h')) : Touches (.alloc c) h h' := by
  obtain ⟨info, -, -, -, rfl⟩ := alloc_eq_ok_iff.mp halloc
  refine ⟨.inr ⟨c, _, rfl, shapes_push _⟩, fun i slot hi _ => ?_⟩
  have hne : i ≠ h.objects.size := Nat.ne_of_lt hi
  rw [wordAt?, Array.getElem?_push, if_neg hne]
  rfl

theorem touches_setWord {w : UInt64} (hplace : op.place? = some (o.index.toNat, slot)) :
    Touches op h (h.setWord o slot w) := by
  refine ⟨.inl shapes_setWord, fun i slot' _ hne => ?_⟩
  rw [hplace, ne_eq, Option.some.injEq, Prod.mk.injEq, not_and_or] at hne
  unfold wordAt? setWord
  rw [Array.getElem?_modify]
  rcases hne with hobj | hslot
  · rw [if_neg hobj]
  · split
    · cases h.objects[i]? with
      | none => rfl
      | some obj => simp [Array.getElem?_setIfInBounds_ne hslot]
    · rfl

/-- An operation touches the slot that it addresses at most, and appends an object at most. -/
theorem touches_perform (h : Heap) (t : ClassTable) (op : HeapOp) :
    Touches op h (h.perform t op).2 := by
  cases op with
  | alloc c =>
    rw [perform]
    cases halloc : h.alloc t c with
    | error err => exact .refl _ h
    | ok out => exact touches_alloc halloc
  | load o slot =>
    rw [perform]
    cases h.load o slot <;> exact .refl _ h
  | store o slot v =>
    rw [perform]
    cases hstore : h.store o slot v with
    | error err => exact .refl _ h
    | ok h' =>
      obtain rfl := of_store hstore
      exact touches_setWord rfl
  | compareExchange o slot expected update =>
    rw [perform]
    cases hexchange : h.compareExchange o slot expected update with
    | error err => exact .refl _ h
    | ok out =>
      obtain ⟨previous, h'⟩ := out
      rcases of_compareExchange hexchange with rfl | rfl
      · exact touches_setWord rfl
      · exact .refl _ h'

/-- Operations one after the other leave all objects. -/
theorem shapes_performAll (ops : List (ClassTable × HeapOp)) (h : Heap) :
    h.shapes <+: (h.performAll ops).2.shapes := by
  induction ops generalizing h with
  | nil => exact List.prefix_rfl
  | cons entry ops ih => exact (touches_perform h entry.1 entry.2).appends.trans (ih _)

theorem performAll_append (ops more : List (ClassTable × HeapOp)) (h : Heap) :
    (h.performAll (ops ++ more)).2 = ((h.performAll ops).2.performAll more).2 := by
  induction ops generalizing h with
  | nil => rfl
  | cons entry ops ih => exact ih _

/-- Operations of any kind, each over any class table, are answered as by a heap whose slots hold
values, and the heap is at all times the encoding of the one of values. A word is that of exactly
one value. A further operation changes no word but the one it addresses, and appends at most an
object. Whatever follows, no object changes its class or its number of slots. -/
theorem refines_values (tag : Nat) (ops : List (ClassTable × HeapOp)) :
    ((⟨tag, #[]⟩ : Heap).performAll ops).1 = (ValueHeap.performAll ops {}).1 ∧
    after tag ops = (ValueHeap.performAll ops {}).2.encode tag ∧
    (∀ obj ∈ (after tag ops).objects, ∀ w ∈ obj.words, ∃! v : Value, v.toWord = w) ∧
    (∀ t op, Touches op (after tag ops) ((after tag ops).perform t op).2) ∧
    ∀ more, (after tag ops).shapes <+: (after tag (ops ++ more)).shapes := by
  have hempty : (⟨tag, #[]⟩ : Heap) = ValueHeap.encode tag {} := by
    rw [ValueHeap.encode, Array.map_empty]
  have hrun := ValueHeap.performAll_encode tag ops {}
  rw [← hempty] at hrun
  have hafter : after tag ops = (ValueHeap.performAll ops {}).2.encode tag :=
    congrArg Prod.snd hrun
  refine ⟨congrArg Prod.fst hrun, hafter, ?_, fun t op => touches_perform _ t op, fun more => ?_⟩
  · intro obj hobj w hw
    rw [hafter] at hobj
    exact ValueHeap.existsUnique_toWord hobj hw
  · rw [after, after, performAll_append]
    exact shapes_performAll more _

/-- Minus one and null are told apart, as are the slot of an object and one that it lacks. -/
example :
    let ops : List HeapOp := [.alloc ⟨11⟩, .compareExchange ⟨0⟩ 0 .null (.int (-1)),
      .compareExchange ⟨0⟩ 0 .null (.bool true), .store ⟨0⟩ 1 .null, .load ⟨0⟩ 0]
    (performAll (ops.map (Sample.table, ·)) ⟨Sample.table.tag, #[]⟩).1 =
      [.ok (.object ⟨0⟩), .ok (.value .null), .ok (.value (.int (-1))),
        .error (.slotOutOfRange ⟨0⟩ 1), .ok (.value (.int (-1)))] := by
  decide +kernel

end Heap

end FieldUpdater
