import FieldUpdater.Execution.Heap

/-!
# Words of slots

A slot reads as the value whose word it holds, so that comparing words is comparing
values. Setting one slot of one object leaves every other slot and every class alone.
-/

namespace FieldUpdater

/-- Modifying an element and mapping can be done in either order. -/
theorem map_modify {α β : Type} {g : α → β} {f : α → α} {k : β → β} (hf : ∀ a, g (f a) = k (g a))
    (xs : Array α) (i : Nat) : (xs.modify i f).map g = (xs.map g).modify i k := by
  refine Array.ext_getElem? fun j => ?_
  simp only [Array.getElem?_map, Array.getElem?_modify]
  split
  · cases xs[j]? with
    | none => rfl
    | some a => exact congrArg some (hf a)
  · rfl

/-- Mapping can be blind to a modification. -/
theorem map_modify_of_eq {α β : Type} {g : α → β} {f : α → α} (hf : ∀ a, g (f a) = g a)
    (xs : Array α) (i : Nat) : (xs.modify i f).map g = xs.map g := by
  rw [map_modify (k := id) hf]
  refine Array.ext_getElem? fun j => ?_
  rw [Array.getElem?_modify, Option.map_id, id_eq, ite_self]

namespace Value

/-- The tag and the payload of a word that is made from them. -/
theorem tag_payload {payload tag : UInt64} (hp : payload.toNat < 0x4000000000000000)
    (ht : tag.toNat < 4) :
    ((4 * payload + tag) % 4).toNat = tag.toNat ∧ (4 * payload + tag) / 4 = payload := by
  have hfour : (4 : UInt64).toNat = 4 := rfl
  have hword : (4 * payload + tag).toNat = 4 * payload.toNat + tag.toNat := by
    rw [UInt64.toNat_add, UInt64.toNat_mul, hfour]
    omega
  constructor
  · rw [UInt64.toNat_mod, hword, hfour]
    omega
  · apply UInt64.toNat_inj.mp
    rw [UInt64.toNat_div, hword, hfour]
    omega

/-- A value is read back from its word. -/
theorem ofWord_toWord (v : Value) : ofWord v.toWord = v := by
  cases v with
  | null => rfl
  | ref obj =>
    obtain ⟨i⟩ := obj
    have hi : i.toUInt64.toNat < 0x4000000000000000 := by
      have hlt := i.toNat_lt
      rw [UInt32.toNat_toUInt64]
      omega
    obtain ⟨htag, hpayload⟩ := tag_payload hi (by decide : (1 : UInt64).toNat < 4)
    simp [toWord, ofWord, htag, hpayload]
  | int value =>
    have hi : value.toUInt32.toUInt64.toNat < 0x4000000000000000 := by
      have hlt := value.toUInt32.toNat_lt
      rw [UInt32.toNat_toUInt64]
      omega
    obtain ⟨htag, hpayload⟩ := tag_payload hi (by decide : (2 : UInt64).toNat < 4)
    simp [toWord, ofWord, htag, hpayload]
  | bool value => cases value <;> rfl

/-- Values with the same word are the same. -/
theorem toWord_inj {v w : Value} : v.toWord = w.toWord ↔ v = w := by
  constructor
  · intro heq
    rw [← ofWord_toWord v, heq, ofWord_toWord]
  · rintro rfl
    rfl

end Value

namespace Heap

variable {h h' : Heap} {o o' : ObjRef} {slot : Nat} {obj : HeapObject} {w : UInt64}

/-- Objects of two references are the same place of the heap only for the same reference. -/
theorem index_toNat_inj : o.index.toNat = o'.index.toNat ↔ o = o' := by
  obtain ⟨i⟩ := o
  obtain ⟨j⟩ := o'
  rw [ObjRef.mk.injEq]
  exact UInt32.toNat_inj

/-- Setting a slot changes the words of one object. -/
theorem find?_setWord :
    (h.setWord o slot w).find? o' =
      if o = o' then (h.find? o).map fun obj => { obj with words := obj.words.setIfInBounds slot w }
      else h.find? o' := by
  unfold setWord find?
  rw [Array.getElem?_modify]
  by_cases heq : o = o'
  · subst heq
    simp
  · rw [if_neg heq, if_neg (fun hindex => heq (index_toNat_inj.mp hindex))]

/-- After a slot is set there are the other objects, and the one with the slot. -/
theorem mem_setWord (hmem : obj ∈ (h.setWord o slot w).objects) : obj ∈ h.objects ∨
    ∃ old, h.find? o = some old ∧ obj = { old with words := old.words.setIfInBounds slot w } := by
  obtain ⟨i, hi⟩ := Array.mem_iff_getElem?.mp hmem
  rw [setWord, Array.getElem?_modify] at hi
  split at hi
  · rename_i hindex
    obtain ⟨old, hold, rfl⟩ := Option.map_eq_some_iff.mp hi
    exact .inr ⟨old, by rw [find?, hindex, hold], rfl⟩
  · exact .inl (Array.mem_of_getElem? hi)

/-- Setting a slot changes no class. -/
theorem map_classId_setWord :
    (h.setWord o slot w).objects.map (·.classId) = h.objects.map (·.classId) := by
  rw [setWord, map_modify_of_eq]
  exact fun _ => rfl

/-- The class of an object is listed at its place. -/
theorem map_classId_find? : (h.find? o).map (·.classId) =
    (h.objects.map (·.classId))[o.index.toNat]? := by
  simp [find?]

/-- An allocation appends an object whose slots are null. -/
theorem alloc_eq_ok_iff {t : ClassTable} {c : ClassId} :
    h.alloc t c = .ok (o, h') ↔ ∃ info, t.find? c = some info ∧ info.stage ≠ .defining ∧
      o = ⟨h.size.toUInt32⟩ ∧ h' = { h with
        objects := h.objects.push ⟨c, Array.replicate info.instanceSlots Value.null.toWord⟩ } := by
  unfold alloc
  cases t.find? c with
  | none => simp
  | some info =>
    by_cases hstage : info.stage = .defining
    · simp [hstage]
    · simp only [hstage, ↓reduceIte, Except.ok.injEq, Prod.mk.injEq, Option.some.injEq,
        exists_eq_left', ne_eq, not_false_eq_true, true_and]
      constructor <;> rintro ⟨rfl, rfl⟩ <;> exact ⟨rfl, rfl⟩

/-- A store that succeeds sets the slot of an object that has it. -/
theorem of_store {v : Value} (hstore : h.store o slot v = .ok h') :
    h' = h.setWord o slot v.toWord := by
  rw [store] at hstore
  cases hword : h.word o slot with
  | error err => simp [hword, Except.map] at hstore
  | ok word => simpa [hword, Except.map] using hstore.symm

/-- An exchange that succeeds sets the slot of an object or leaves the heap as it was. -/
theorem of_compareExchange {expected update previous : Value}
    (hexchange : h.compareExchange o slot expected update = .ok (previous, h')) :
    h' = h.setWord o slot update.toWord ∨ h' = h := by
  rw [compareExchange] at hexchange
  cases hword : h.word o slot with
  | error err => simp [hword, Except.map] at hexchange
  | ok word =>
    simp only [hword, Except.map, Except.ok.injEq, Prod.mk.injEq] at hexchange
    rw [← hexchange.2]
    split
    · exact .inl rfl
    · exact .inr rfl

end Heap

end FieldUpdater
