import FieldUpdater.Proofs.Accessors.Synthesis
import FieldUpdater.Proofs.Classes.Slots

/-!
# Histories of a registry

A registry begins empty and grows by requests for the accessors of declared fields,
while the class table goes its own way. Each entry is then a well made accessor of the
field whose key it has, and no two entries share a key or a class.
-/

namespace FieldUpdater

/-- What an association list gives for a key is listed under the key. -/
theorem mem_of_lookup {α β : Type} [DecidableEq α] {l : List (α × β)} {k : α} {v : β}
    (h : l.lookup k = some v) : (k, v) ∈ l := by
  obtain ⟨before, after, heq, -⟩ := List.lookup_eq_some_iff.mp h
  rw [heq]
  simp

/-- An association list without repeated keys gives what is listed under a key. -/
theorem lookup_eq_some_of_mem {α β : Type} [DecidableEq α] {l : List (α × β)} {k : α} {v : β}
    (hkeys : (l.map (·.1)).Nodup) (h : (k, v) ∈ l) : l.lookup k = some v := by
  obtain ⟨before, after, heq⟩ := List.append_of_mem h
  refine List.lookup_eq_some_iff.mpr ⟨before, after, heq, fun e he => ?_⟩
  rw [heq, List.map_append, List.map_cons, List.nodup_append] at hkeys
  simpa using (hkeys.2.2 e.1 (List.mem_map_of_mem he) k List.mem_cons_self).symm

namespace Registry

/-- A class table and a registry that requests and table operations lead to. -/
inductive History : ClassTable → Registry → Prop
  | start {t : ClassTable} (reachable : t.Reachable) : History t { tag := t.tag }
  | table {t t' : ClassTable} {r : Registry} (before : History t r) (taken : t.Step t') :
      History t' r
  | request {w w' : Workspace} {result : Except SynthesisError Accessor} {baseType : String}
      {f : Field} (before : History w.table w.registry) (declared : w.table.Declares f)
      (taken : w.synthesize baseType f = (result, w')) : History w'.table w'.registry

/-- An entry is the accessor of a declared field, of a class of its own. -/
structure Entry (t : ClassTable) (key : FieldKey) (a : Accessor) : Prop where
  key : a.field.key = key
  declared : t.Declares a.field
  bodies : a.WellMade
  classId : a.classId.index < t.size

/-- Entries are well made, and both indices of the registry list the same accessors. -/
structure Sound (t : ClassTable) (r : Registry) : Prop where
  reachable : t.Reachable
  tag : r.tag = t.tag
  entry : ∀ key a, (key, a) ∈ r.byField → Entry t key a
  byClass : r.byClass = r.byField.map fun e => (e.2.classId, e.2)
  keys : (r.byField.map (·.1)).Nodup
  classes : (r.byClass.map (·.1)).Nodup

variable {t t' : ClassTable} {r : Registry} {key : FieldKey} {a b : Accessor} {c : ClassId}

/-- Both indices of a registry list the same accessors, under different keys and classes. -/
structure Indexed (r : Registry) : Prop where
  byClass : r.byClass = r.byField.map fun e => (e.2.classId, e.2)
  keys : (r.byField.map (·.1)).Nodup
  classes : (r.byClass.map (·.1)).Nodup

/-- An accessor found for a field is listed under its key. -/
theorem mem_of_find? (h : r.find? key = some a) : (key, a) ∈ r.byField := mem_of_lookup h

/-- An accessor listed under a key is found by it. -/
theorem Indexed.find?_of_mem (h : r.Indexed) (hmem : (key, a) ∈ r.byField) :
    r.find? key = some a := lookup_eq_some_of_mem h.keys hmem

/-- An accessor found by its class is listed under some key. -/
theorem Indexed.mem_of_ofClass? (h : r.Indexed) (hfound : r.ofClass? c = some a) :
    ∃ key, (key, a) ∈ r.byField ∧ a.classId = c := by
  have hmem : (c, a) ∈ r.byClass := mem_of_lookup hfound
  rw [h.byClass, List.mem_map] at hmem
  obtain ⟨⟨key, b⟩, hb, hpair⟩ := hmem
  obtain ⟨rfl, rfl⟩ := Prod.mk.inj hpair
  exact ⟨key, hb, rfl⟩

/-- A listed accessor is found by its class. -/
theorem Indexed.ofClass?_of_mem (h : r.Indexed) (hmem : (key, a) ∈ r.byField) :
    r.ofClass? a.classId = some a := by
  refine lookup_eq_some_of_mem h.classes ?_
  rw [h.byClass]
  exact List.mem_map_of_mem (f := fun e => (e.2.classId, e.2)) hmem

/-- Listed accessors of one class have the same key. -/
theorem Indexed.eq_of_classId (h : r.Indexed) {key' : FieldKey} (ha : (key, a) ∈ r.byField)
    (hb : (key', b) ∈ r.byField) (heq : a.classId = b.classId) : key = key' := by
  have hclasses := h.classes
  rw [h.byClass, List.map_map] at hclasses
  exact congrArg Prod.fst (List.inj_on_of_nodup_map hclasses ha hb heq)

/-- Keys stay different when one without an entry gets one. -/
theorem keys_insert (habsent : r.find? key = none) (h : (r.byField.map (·.1)).Nodup) :
    ((r.insert key a).byField.map (·.1)).Nodup := by
  rw [Registry.insert, List.map_cons, List.nodup_cons]
  refine ⟨fun hmem => ?_, h⟩
  obtain ⟨e, he, heq⟩ := List.mem_map.mp hmem
  have hne := List.lookup_eq_none_iff.mp habsent e he
  simp [heq] at hne

/-- The accessor of a further field is listed by both indices when its class is new. -/
theorem Indexed.insert (h : r.Indexed) (habsent : r.find? key = none)
    (hnew : ∀ e ∈ r.byField, e.2.classId ≠ a.classId) : (r.insert key a).Indexed := by
  refine ⟨by simp [Registry.insert, h.byClass], keys_insert habsent h.keys, ?_⟩
  rw [Registry.insert, List.map_cons, List.nodup_cons, h.byClass, List.map_map]
  refine ⟨?_, by simpa [h.byClass] using h.classes⟩
  rw [List.mem_map]
  rintro ⟨e, he, heq⟩
  exact hnew e he heq

/-- Both indices of a sound registry list the same accessors. -/
theorem Sound.indexed (h : r.Sound t) : r.Indexed := ⟨h.byClass, h.keys, h.classes⟩

/-- An entry stays one while the table grows. -/
theorem Entry.extends (h : Entry t key a) (hextends : t.Extends t') : Entry t' key a where
  key := h.key
  declared := h.declared.extends hextends
  bodies := h.bodies
  classId := h.classId.trans_le hextends.size_le

/-- Table operations keep a registry sound. -/
theorem Sound.step (h : r.Sound t) (hstep : t.Step t') : r.Sound t' where
  reachable := h.reachable.step hstep
  tag := h.tag.trans hstep.extends.tag.symm
  entry key a hmem := (h.entry key a hmem).extends hstep.extends
  byClass := h.byClass
  keys := h.keys
  classes := h.classes

/-- Any number of table operations keep a registry sound. -/
theorem Sound.evolves (h : r.Sound t) (hevolves : t.Evolves t') : r.Sound t' := by
  induction hevolves with
  | refl => exact h
  | tail _ hstep ih => exact ih.step hstep

/-- An accessor found by its class is listed under some key. -/
theorem Sound.mem_of_ofClass? (h : r.Sound t) (hfound : r.ofClass? c = some a) :
    ∃ key, (key, a) ∈ r.byField ∧ a.classId = c :=
  h.indexed.mem_of_ofClass? hfound

/-- Accessors of one key are the same. -/
theorem Sound.eq_of_key (h : r.Sound t) {key' : FieldKey} (ha : (key, a) ∈ r.byField)
    (hb : (key', b) ∈ r.byField) (heq : a.field.key = b.field.key) : a = b := by
  have hkey := (h.entry key a ha).key
  have hkey' := (h.entry key' b hb).key
  obtain rfl : key = key' := hkey.symm.trans (heq.trans hkey')
  exact congrArg Prod.snd (List.inj_on_of_nodup_map h.keys ha hb rfl)

/-- A request for the accessor of a declared field keeps the registry sound. -/
theorem Sound.request {w w' : Workspace} {result : Except SynthesisError Accessor}
    {baseType : String} {f : Field} (h : w.registry.Sound w.table) (hf : w.table.Declares f)
    (htaken : w.synthesize baseType f = (result, w')) : w'.registry.Sound w'.table := by
  have hsynthesized := w.synthesized baseType f
  rw [htaken] at hsynthesized
  cases hsynthesized with
  | found _ => exact h
  | baseMissing _ _ => exact h
  | undefinable _ _ _ => exact h
  | @made a t habsent _ hdefined _ _ hfield hbodies =>
    obtain ⟨outer, -, hnested⟩ := Accessor.of_defineClass hdefined
    have hsound := h.step (.defineNested hnested)
    have hnew := Accessor.id_of_defineClass hdefined
    have hextends := Accessor.extends_of_defineClass hdefined
    -- The class of the accessor comes after all classes of entries.
    have hclass : ∀ e ∈ w.registry.byField, e.2.classId ≠ a.classId := by
      intro e he heq
      have hlt := (h.entry e.1 e.2 he).classId
      rw [heq, hnew] at hlt
      exact Nat.lt_irrefl _ hlt
    have hindexed := h.indexed.insert habsent hclass
    have hsize := Accessor.lt_size_of_defineClass hdefined
    refine ⟨hsound.reachable, hsound.tag, ?_, hindexed.byClass, hindexed.keys, hindexed.classes⟩
    intro key b hb
    rcases List.mem_cons.mp hb with heq | hold
    · obtain ⟨rfl, rfl⟩ := Prod.mk.inj heq
      exact ⟨by rw [hfield], by rw [hfield]; exact hf.extends hextends, hbodies, hsize⟩
    · exact hsound.entry key b hold

/-- Every history leads to a sound registry. -/
theorem History.sound (h : History t r) : r.Sound t := by
  induction h with
  | start hreachable =>
    exact ⟨hreachable, rfl, by simp, rfl, List.nodup_nil, List.nodup_nil⟩
  | table _ hstep ih => exact ih.step hstep
  | request _ hdeclared htaken ih => exact ih.request hdeclared htaken

/-- Any number of table operations continue a history. -/
theorem History.evolves (h : History t r) (hevolves : t.Evolves t') : History t' r := by
  induction hevolves with
  | refl => exact h
  | tail _ hstep ih => exact .table ih hstep

end Registry

namespace Sample

theorem reachable_declare {t : ClassTable} (h : t.Reachable) (d : ClassDecl) :
    (declare t d).Reachable := by
  unfold declare
  cases hdefine : t.define d with
  | error err => exact h
  | ok result => exact h.step (.define hdefine)

theorem reachable_declarations {t : ClassTable} (h : t.Reachable) (ds : List ClassDecl) :
    (ds.foldl declare t).Reachable := by
  induction ds generalizing t with
  | nil => exact h
  | cons d ds ih => exact ih (reachable_declare h d)

/-- The table of the sample is reached by its declarations. -/
theorem reachable_table : table.Reachable :=
  reachable_declarations (.withBuiltins 0) declarations

/-- The field of the sample is declared. -/
theorem declares_next : table.Declares next := by
  have hdeclared : (table.find? next.declaring).any (·.fields.contains next) = true := by
    decide +kernel
  cases hinfo : table.find? next.declaring with
  | none =>
    rw [hinfo] at hdeclared
    cases hdeclared
  | some info =>
    rw [hinfo] at hdeclared
    exact ⟨info, hinfo, by simpa using hdeclared⟩

end Sample

end FieldUpdater
