import FieldUpdater.Proofs.Classes.Occupancy
import FieldUpdater.Proofs.Execution.Words

/-!
# Objects have the slots of their classes

An object is made with the slots that its class has, and neither the class nor the object ever
gets more or fewer. The fields of the class and of its superclasses fill these slots without
overlap. Every field that is found on a class therefore has a slot in every object that can stand
where the class is expected.
-/

namespace FieldUpdater

namespace Heap

variable {t t' : ClassTable} {h h' : Heap} {c : ClassId} {o : ObjRef} {slot : Nat}

/-- A heap that allocations, stores and exchanges of any kind lead to, over a class table that
operations lead to meanwhile. -/
inductive History : ClassTable → Heap → Prop
  | start {t : ClassTable} (reachable : t.Reachable) : History t ⟨t.tag, #[]⟩
  | table {t t' : ClassTable} {h : Heap} (before : History t h) (taken : t.Step t') : History t' h
  | alloc {t : ClassTable} {h h' : Heap} {c : ClassId} {o : ObjRef} (before : History t h)
      (taken : h.alloc t c = .ok (o, h')) : History t h'
  | store {t : ClassTable} {h h' : Heap} {o : ObjRef} {slot : Nat} {v : Value}
      (before : History t h) (taken : h.store o slot v = .ok h') : History t h'
  | exchange {t : ClassTable} {h h' : Heap} {o : ObjRef} {slot : Nat}
      {expected update previous : Value} (before : History t h)
      (taken : h.compareExchange o slot expected update = .ok (previous, h')) : History t h'

/-- Every object has the slots of its class. -/
def Fits (t : ClassTable) (h : Heap) : Prop :=
  ∀ obj ∈ h.objects, ∃ info, t.find? obj.classId = some info ∧
    obj.words.size = info.instanceSlots

/-- A class never gets other slots. -/
theorem Fits.extends (hfits : h.Fits t) (hextends : t.Extends t') : h.Fits t' := by
  intro obj hobj
  obtain ⟨info, hinfo, hsize⟩ := hfits obj hobj
  obtain ⟨info', hinfo', hadvance⟩ := hextends.find? _ info hinfo
  exact ⟨info', hinfo', by rw [hadvance.eq]; exact hsize⟩

/-- An object is made with the slots of its class. -/
theorem Fits.alloc (hfits : h.Fits t) (halloc : h.alloc t c = .ok (o, h')) : h'.Fits t := by
  obtain ⟨info, hinfo, -, -, rfl⟩ := alloc_eq_ok_iff.mp halloc
  intro obj hobj
  rcases Array.mem_push.mp hobj with hold | rfl
  · exact hfits obj hold
  · exact ⟨info, hinfo, Array.size_replicate⟩

/-- Setting a slot leaves the object with as many. -/
theorem Fits.setWord (hfits : h.Fits t) (w : UInt64) : (h.setWord o slot w).Fits t := by
  intro obj hobj
  rcases mem_setWord hobj with hold | ⟨old, hold, rfl⟩
  · exact hfits obj hold
  · obtain ⟨info, hinfo, hsize⟩ := hfits old (Array.mem_of_getElem? hold)
    exact ⟨info, hinfo, by rw [Array.size_setIfInBounds, hsize]⟩

/-- Whatever becomes of a heap and its class table, objects have the slots of their classes. -/
theorem History.fits (hhistory : History t h) : h.Fits t := by
  induction hhistory with
  | start _ => exact fun obj hobj => absurd hobj (Array.not_mem_empty obj)
  | table _ hstep ih => exact ih.extends hstep.extends
  | alloc _ halloc ih => exact ih.alloc halloc
  | store _ hstore ih =>
    rw [of_store hstore]
    exact ih.setWord _
  | exchange _ hexchange ih =>
    rcases of_compareExchange hexchange with rfl | rfl
    · exact ih.setWord _
    · exact ih

end Heap

namespace ClassTable

variable {t : ClassTable}

/-- In a table that operations lead to, the instance fields of a class and its superclasses fill
the instance slots of the class, each slot once, and those of a superclass come first, with the
slots that they have there; its static fields fill its static slots. A definition with nothing
else against it is refused exactly when it needs more slots of either sort than there are. An
instance field that is found on a class has a slot in every object of a class that can stand for
it. -/
theorem Reachable.fields_fill_slots (ht : t.Reachable) :
    (∀ c info, t.find? c = some info →
      (t.instanceFields c).map (·.slot) = List.range info.instanceSlots ∧
      (∀ k ∈ t.lineage c, t.instanceFields k <+: t.instanceFields c) ∧
      (t.ownFields true c).map (·.slot) = List.range info.staticSlots) ∧
    (∀ d superclass, t.Definable d superclass → ∀ err,
      t.define d = .error err ↔ err = .tooManySlots d.name ∧ t.Exceeds superclass d) ∧
    ∀ h, Heap.History t h → ∀ obj ∈ h.objects, ∀ c, t.isAssignable obj.classId c = true →
      ∀ name signature f, t.findField? c name signature = some f → f.isStatic = false →
        f.slot < obj.words.size := by
  have hsound := ht.sound
  refine ⟨?_, fun d superclass hdefinable => ht.define_eq_error_iff hdefinable, ?_⟩
  · intro c info hinfo
    exact ⟨hsound.slots_instanceFields hinfo, fun k => instanceFields_prefix,
      hsound.slots_static hinfo⟩
  · intro h hhistory obj hobj c hassignable name signature f hfound hinstance
    obtain ⟨info, hinfo, hsize⟩ := hhistory.fits obj hobj
    rw [hsize]
    exact hsound.slot_lt (hsound.hasField_of_findField? hfound hinstance hassignable) hinfo

end ClassTable

namespace Sample

/-- A class of many fields that extends the last class of the sample. -/
def wide (fields : Nat) : ClassDecl :=
  { name := "Wide", superclass := some ⟨3⟩,
    fields := List.replicate fields ⟨"x", ⟨0⟩, false, false⟩ }

/-- The last class has four slots and can be extended. -/
theorem find?_pixel : ∃ info, canvas.find? ⟨3⟩ = some info ∧ info.instanceSlots = 4 ∧
    info.stage = .loaded ∧ info.isSealed = false ∧ info.kind = .reference := by
  have hpixel : (canvas.find? ⟨3⟩).map (fun info => (info.instanceSlots, info.stage, info.isSealed,
      info.kind)) = some (4, .loaded, false, .reference) := by
    decide +kernel
  obtain ⟨info, hinfo, hrecord⟩ := Option.map_eq_some_iff.mp hpixel
  simp only [Prod.mk.injEq] at hrecord
  exact ⟨info, hinfo, hrecord⟩

/-- There is nothing against the class but perhaps its fields. -/
theorem definable_wide (fields : Nat) : canvas.Definable (wide fields) (some ⟨3⟩) where
  free := by
    have hfree : canvas.lookup "Wide" = none := by decide +kernel
    exact hfree
  extended := ClassTable.superclassFor_eq rfl
  base := by
    rintro _ ⟨⟩
    obtain ⟨info, hinfo, -, -, hsealed, hkind⟩ := find?_pixel
    exact ⟨info, hinfo, hsealed, hkind⟩
  types f hf := by
    rw [(List.mem_replicate.mp hf).2]
    decide +kernel

/-- The inherited slots and the fields are more than there are slots from one number on. -/
theorem exceeds_wide_iff (fields : Nat) :
    canvas.Exceeds (some ⟨3⟩) (wide fields) ↔ 65531 < fields := by
  obtain ⟨info, hinfo, hslots, -⟩ := find?_pixel
  simp only [ClassTable.Exceeds, ClassTable.slotsOf, Option.bind_some, hinfo, Option.map_some,
    Option.getD_some, hslots, wide, ClassTable.maxSlots, List.countP_replicate]
  simp only [Bool.not_false, ↓reduceIte, Bool.false_eq_true, Nat.not_lt_zero, or_false]
  omega

end Sample

/-- In the sample the four instance fields of the last class, two of them of its superclass, have
the four slots. A field of the superclass is within an object of the class. One subclass has as
many fields as there are slots for, and one with another field is refused. -/
theorem ClassTable.fields_fill_slots_canvas :
    (Sample.canvas.instanceFields ⟨3⟩).map (·.slot) = [0, 1, 2, 3] ∧
    Sample.canvas.instanceFields ⟨2⟩ <+: Sample.canvas.instanceFields ⟨3⟩ ∧
    (∀ err, Sample.canvas.define (Sample.wide 65531) ≠ .error err) ∧
    Sample.canvas.define (Sample.wide 65532) = .error (.tooManySlots "Wide") ∧
    ∃ o h obj, Heap.alloc ⟨Sample.canvas.tag, #[]⟩ Sample.canvas ⟨3⟩ = .ok (o, h) ∧
      obj ∈ h.objects ∧ ∃ f, Sample.canvas.findField? ⟨2⟩ "y" "I" = some f ∧
        f.slot < obj.words.size := by
  obtain ⟨hslots, hrefused, hobjects⟩ := Reachable.fields_fill_slots Sample.reachable_canvas
  obtain ⟨info, hinfo, hfour, hstage, -⟩ := Sample.find?_pixel
  have hlineage : ⟨2⟩ ∈ Sample.canvas.lineage ⟨3⟩ := by decide +kernel
  have hfound : (Sample.canvas.findField? ⟨2⟩ "y" "I").map (·.isStatic) = some false := by
    decide +kernel
  obtain ⟨f, hf, hinstance⟩ := Option.map_eq_some_iff.mp hfound
  have halloc := (Heap.alloc_eq_ok_iff (h := ⟨Sample.canvas.tag, #[]⟩)).mpr
    ⟨info, hinfo, by rw [hstage]; decide, rfl, rfl⟩
  have hmem : ⟨⟨3⟩, Array.replicate info.instanceSlots Value.null.toWord⟩ ∈
      (#[] : Array HeapObject).push ⟨⟨3⟩, Array.replicate info.instanceSlots Value.null.toWord⟩ :=
    Array.mem_push_self
  obtain ⟨hinstances, hprefix, -⟩ := hslots ⟨3⟩ info hinfo
  refine ⟨by rw [hinstances, hfour]; rfl, hprefix ⟨2⟩ hlineage, ?_, ?_, _, _, _, halloc, hmem, f,
    hf, ?_⟩
  · intro err herror
    have hexceeds := ((hrefused _ _ (Sample.definable_wide 65531) err).mp herror).2
    exact Nat.lt_irrefl _ ((Sample.exceeds_wide_iff 65531).mp hexceeds)
  · exact (hrefused _ _ (Sample.definable_wide 65532) _).mpr
      ⟨rfl, (Sample.exceeds_wide_iff 65532).mpr (by decide)⟩
  · exact hobjects _ (.alloc (.start Sample.reachable_canvas) halloc) _ hmem ⟨2⟩
      (by simpa [ClassTable.isAssignable] using hlineage) "y" "I" f hf hinstance

end FieldUpdater
