import FieldUpdater.Proofs.Classes.Slots

/-!
# Names and types in class tables

In every table that the operations on tables lead to, a class has its own number, a name
of its own and the signature of that name, and fields are of classes defined before the
one that declares them. A signature that is not that of a primitive type therefore
belongs to one class, and what a name stands for is settled once a class bears it.
-/

namespace FieldUpdater

namespace ClassTable

variable {t t' : ClassTable} {c c' k id : ClassId} {info info' : ClassRecord} {f : Field}
  {name : String}

/-- A class has its number, a name that no class before it bears, and the signature of its
name. Its fields are of classes before it, by their signatures. -/
structure TypedClass (t : ClassTable) (c : ClassId) (info : ClassRecord) : Prop where
  id : info.id = c
  signature : info.signature = signatureOf info.kind info.name
  fresh : ∀ k other, k.index < c.index → t.find? k = some other → other.name ≠ info.name
  field : ∀ f ∈ info.fields, f.type.index < c.index ∧
    ∃ type, t.find? f.type = some type ∧ f.signature = type.signature

/-- Every class of the table is typed. -/
def Typed (t : ClassTable) : Prop := ∀ c info, t.find? c = some info → t.TypedClass c info

/-- Laid out fields are of classes of the table. -/
theorem typed_of_layOut {ds : List FieldDecl} {l l' : Layout}
    (hl : ∀ f ∈ l.fields, ∃ type, t.find? f.type = some type ∧ f.signature = type.signature)
    (h : t.layOut id name ds l = .ok l') :
    ∀ f ∈ l'.fields, ∃ type, t.find? f.type = some type ∧ f.signature = type.signature := by
  induction ds generalizing l with
  | nil =>
    cases h
    exact hl
  | cons d ds ih =>
    obtain ⟨type, htype, -, hrest⟩ := of_layOut_cons h
    refine ih (fun f hf => ?_) hrest
    rcases Array.mem_push.mp hf with hold | rfl
    · exact hl f hold
    · exact ⟨type, htype, rfl⟩

/-- A typed class stays typed. -/
theorem TypedClass.extends (h : t.TypedClass c info) (hc : c.index < t.size)
    (hextends : t.Extends t') (hadvance : info.Advances info') : t'.TypedClass c info' := by
  have hfind {k : ClassId} {other : ClassRecord} (hk : k.index < c.index)
      (hother : t'.find? k = some other) :
      ∃ old, t.find? k = some old ∧ other.name = old.name ∧ other.signature = old.signature := by
    obtain ⟨old, hold, hadvance'⟩ := hextends.exists_of_lt (hk.trans hc) hother
    exact ⟨old, hold, by rw [hadvance'.eq], by rw [hadvance'.eq]⟩
  rw [hadvance.eq]
  refine ⟨h.id, h.signature, ?_, ?_⟩
  · intro k other hk hother
    obtain ⟨old, hold, hname, -⟩ := hfind hk hother
    rw [hname]
    exact h.fresh k old hk hold
  · intro f hf
    obtain ⟨hlt, type, htype, hsignature⟩ := h.field f hf
    obtain ⟨type', htype', hadvance'⟩ := hextends.find? f.type type htype
    exact ⟨hlt, type', htype', by rw [hsignature, hadvance'.eq]⟩

/-- Classes are typed when they are added, and stay so. -/
theorem typedClass_invariant : ClassInvariant TypedClass where
  grows hc hextends hadvance h := h.extends hc hextends hadvance
  added := by
    intro t t' d outer stage id info _ _ hadd hinfo
    have hextends := extends_of_add hadd
    obtain ⟨hfree, rfl, superclass, slots, layout, -, -, hlayout, rfl⟩ := of_add hadd
    obtain rfl : recordOf d ⟨t.size⟩ outer stage superclass layout = info :=
      Option.some.inj ((find?_push t _).symm.trans hinfo)
    refine ⟨rfl, rfl, ?_, ?_⟩
    · intro k other hk hother
      obtain ⟨old, hold, hadvance⟩ := hextends.exists_of_lt hk hother
      rw [hadvance.eq]
      exact lookup_eq_none_iff.mp hfree k old hold
    · intro f hf
      obtain ⟨type, htype, hsignature⟩ :=
        typed_of_layOut (l := { instanceSlots := slots }) (by simp) hlayout f hf
      obtain ⟨type', htype', hadvance⟩ := hextends.find? f.type type htype
      exact ⟨lt_size_of_find? htype, type', htype', by rw [hsignature, hadvance.eq]⟩

/-- Every class of a reachable table is typed. -/
theorem Reachable.typed (h : t.Reachable) : t.Typed := typedClass_invariant.reachable h

/-- Classes of one name are the same. -/
theorem Typed.eq_of_name (h : t.Typed) (hinfo : t.find? c = some info)
    (hinfo' : t.find? c' = some info') (hname : info.name = info'.name) : c = c' := by
  obtain ⟨k⟩ := c
  obtain ⟨k'⟩ := c'
  rcases Nat.lt_trichotomy k k' with hlt | rfl | hgt
  · exact absurd hname ((h _ info' hinfo').fresh _ info hlt hinfo)
  · rfl
  · exact absurd hname.symm ((h _ info hinfo).fresh _ info' hgt hinfo')

/-- The signature of a primitive type is one character long. -/
theorem length_signatureOf_primitive (name : String) :
    (signatureOf .primitive name).length = 1 := by
  unfold signatureOf
  dsimp only
  split <;> rfl

/-- A signature that is not that of a primitive type holds the name of its class. -/
theorem signatureOf_eq_iff {kind kind' : ClassKind} {name name' : String}
    (hkind : kind ≠ .primitive) :
    signatureOf kind name = signatureOf kind' name' ↔ kind' ≠ .primitive ∧ name = name' := by
  have hform : ∀ kind : ClassKind, kind ≠ .primitive → ∀ name,
      signatureOf kind name = "L" ++ name ++ ";" := by
    intro kind h name
    cases kind with
    | primitive => exact absurd rfl h
    | reference => rfl
    | valueType => rfl
    | unloadable => rfl
  rw [hform kind hkind]
  by_cases hprimitive : kind' = .primitive
  · simp only [hprimitive, ne_eq, not_true_eq_false, false_and, iff_false]
    intro heq
    have hlength := congrArg String.length heq
    rw [length_signatureOf_primitive, String.length_append, String.length_append] at hlength
    have hone : "L".length = 1 ∧ ";".length = 1 := ⟨rfl, rfl⟩
    omega
  · rw [hform kind' hprimitive]
    simp [hprimitive]

/-- A signature that is not that of a primitive type belongs to one class. -/
theorem Typed.eq_of_signature (h : t.Typed) (hinfo : t.find? c = some info)
    (hinfo' : t.find? c' = some info') (hkind : info.kind ≠ .primitive)
    (hsignature : info.signature = info'.signature) : c = c' := by
  rw [(h c info hinfo).signature, (h c' info' hinfo').signature] at hsignature
  exact h.eq_of_name hinfo hinfo' ((signatureOf_eq_iff hkind).mp hsignature).2

/-- A class is found under its own name. -/
theorem Typed.lookup_eq (h : t.Typed) (hinfo : t.find? c = some info) :
    t.lookup info.name = some c :=
  lookup_eq_some_iff.mpr ⟨⟨info, hinfo, rfl⟩,
    fun k hk other hother => (h c info hinfo).fresh ⟨k⟩ other hk hother⟩

/-- A name stands for the class that bears it. -/
theorem Typed.resolve_id_iff (h : t.Typed) :
    (t.resolve name).id = some c ↔ t.lookup name = some c := by
  unfold ClassTable.resolve
  cases hlookup : t.lookup name with
  | none => simp [ResolvedType.unloadable]
  | some c' =>
    obtain ⟨⟨info, hinfo, -⟩, -⟩ := lookup_eq_some_iff.mp hlookup
    simp [hinfo, (h c' info hinfo).id]

/-- What a name of a class stands for is that class with its kind and signature. -/
theorem resolve_of_lookup (hlookup : t.lookup name = some c) (hinfo : t.find? c = some info) :
    t.resolve name = ⟨some info.id, info.name, info.kind, info.signature⟩ := by
  simp [ClassTable.resolve, hlookup, hinfo]

/-- A name that is that of an old class in an extension was so before. -/
theorem Extends.lookup_of_lt (h : t.Extends t') (hid : t'.lookup name = some id)
    (hlt : id.index < t.size) : t.lookup name = some id := by
  obtain ⟨⟨info', hinfo', hname⟩, hfirst⟩ := lookup_eq_some_iff.mp hid
  obtain ⟨info, hinfo⟩ := exists_find? hlt
  obtain ⟨new, hnew, hadvance⟩ := h.find? id info hinfo
  obtain rfl : info' = new := Option.some.inj (hinfo'.symm.trans hnew)
  refine lookup_eq_some_iff.mpr ⟨⟨info, hinfo, by rw [hadvance.eq] at hname; exact hname⟩, ?_⟩
  intro k hk other hother
  obtain ⟨other', hother', hadvance'⟩ := h.find? ⟨k⟩ other hother
  have hne := hfirst k hk other' hother'
  rw [hadvance'.eq] at hne
  exact hne

/-- A name stands for an old class in an extension exactly as it did before. -/
theorem Extends.resolve_of_lt (h : t.Extends t') (ht' : t'.Typed)
    (hid : (t'.resolve name).id = some id) (hlt : id.index < t.size) :
    t.resolve name = t'.resolve name :=
  (h.resolve (h.lookup_of_lt (ht'.resolve_id_iff.mp hid) hlt)).symm

end ClassTable

end FieldUpdater
