import FieldUpdater.Proofs.Accessors.History
import Mathlib.Data.Set.Function

/-!
# What is added to a workspace

Requests add entries to the registry, classes to the table and completions to the queue, as
many of each: every entry added is of a field that had none, and of a class that the table did
not have. Which fields have entries in the end does not depend on the order of the requests,
and two ways of adding entries for the same fields differ in the numbers of the classes only.
-/

namespace FieldUpdater

namespace Workspace

/-- What requests have added to a workspace, the newest entry first. -/
structure Adds (w w' : Workspace) (added : List (FieldKey × Accessor)) : Prop where
  size_le : w.table.size ≤ w'.table.size
  byField : w'.registry.byField = added ++ w.registry.byField
  keys : (added.map (·.1)).Nodup
  absent : ∀ e ∈ added, w.registry.find? e.1 = none
  classes : (added.map (·.2.classId)).Nodup
  /-- The classes are new to the table. -/
  fresh : ∀ e ∈ added, w.table.size ≤ e.2.classId.index ∧ e.2.classId.index < w'.table.size
  pending : w'.pending.size = w.pending.size + added.length

/-- The fields that have got entries besides those that had them. -/
def Asked (w w' : Workspace) (keys : Set FieldKey) : Prop :=
  ∀ key, (w'.registry.find? key).isSome ↔ (w.registry.find? key).isSome ∨ key ∈ keys

/-- The classes of the accessors made since. -/
def createdSince (w w' : Workspace) : Set ClassId :=
  { c | ∃ key a, w.registry.find? key = none ∧ w'.registry.find? key = some a ∧ a.classId = c }

/-- What became of a workspace in two ways differs in a renaming of the classes made on the
way. -/
structure Renaming (σ : ClassId → ClassId) (w v v' : Workspace) : Prop where
  created : Set.BijOn σ (w.createdSince v) (w.createdSince v')
  /-- Classes that were there before keep their numbers. -/
  fixed : ∀ c : ClassId, c.index < w.table.size → σ c = c
  /-- The same fields have accessors. -/
  fields : ∀ key, (v.registry.find? key).isSome ↔ (v'.registry.find? key).isSome
  /-- The accessors of a field are the same but for the renaming. -/
  entry : ∀ key a a', v.registry.find? key = some a → v'.registry.find? key = some a' →
    a'.classId = σ a.classId
  pending : v.pending.size = v'.pending.size

variable {w w' w'' v v' : Workspace} {added added' : List (FieldKey × Accessor)} {key : FieldKey}
  {a : Accessor} {keys keys' : Set FieldKey}

/-- Where nothing differs, nothing is renamed. -/
theorem Renaming.refl (w v : Workspace) : Renaming id w v v :=
  ⟨Set.bijOn_id _, fun _ _ => rfl, fun _ => .rfl,
    fun _ _ _ ha ha' => congrArg Accessor.classId (Option.some.inj (ha'.symm.trans ha)), rfl⟩

theorem Asked.refl (w : Workspace) : w.Asked w ∅ := fun key => by simp

theorem Asked.trans (h : w.Asked w' keys) (h' : w'.Asked w'' keys') :
    w.Asked w'' (keys ∪ keys') := by
  intro key
  rw [h' key, h key, or_assoc]
  rfl

/-- A request with success asks for its field. -/
theorem asked_synthesize {baseType : String} {f : Field}
    (h : w.synthesize baseType f = (.ok a, w')) : w.Asked w' {f.key} := by
  intro key
  have hsynthesized := w.synthesized baseType f
  rw [h] at hsynthesized
  cases hsynthesized with
  | found hentry =>
    simp only [Set.mem_singleton_iff]
    refine ⟨.inl, fun hkey => hkey.elim id fun heq => ?_⟩
    rw [heq, hentry]
    rfl
  | made habsent _ _ _ _ _ _ =>
    rw [Registry.find?_insert]
    by_cases hkey : key = f.key <;> simp [hkey]

theorem Adds.refl (w : Workspace) : w.Adds w [] :=
  ⟨le_rfl, rfl, List.nodup_nil, by simp, List.nodup_nil, by simp, rfl⟩

/-- An entry is one of those added, or was there before. -/
theorem Adds.find?_eq_some_iff (h : w.Adds w' added) :
    w'.registry.find? key = some a ↔ (key, a) ∈ added ∨ w.registry.find? key = some a := by
  have hindexed : List.lookup key added = some a ↔ (key, a) ∈ added :=
    ⟨mem_of_lookup, lookup_eq_some_of_mem h.keys⟩
  rw [Registry.find?, h.byField, List.lookup_append, Option.or_eq_some_iff, hindexed]
  refine ⟨fun hcases => hcases.imp id And.right, fun hcases => hcases.imp id fun hold => ?_⟩
  refine ⟨List.lookup_eq_none_iff.mpr fun e he => ?_, hold⟩
  simp only [Bool.not_eq_true', bne, beq_eq_false_iff_ne, ne_eq]
  rintro rfl
  rw [h.absent e he] at hold
  cases hold

/-- An accessor that is made for a field without one is added. -/
theorem Adds.made (h : w.Adds w' added) {t : ClassTable} {owner base : ClassId} {simple : String}
    (habsent : w'.registry.find? key = none)
    (hdefined : Accessor.defineClass w'.table owner simple base = .ok (a.classId, t))
    (name : String) :
    w.Adds ⟨t, w'.registry.insert key a, w'.pending.register name a⟩ ((key, a) :: added) := by
  have hnew := Accessor.id_of_defineClass hdefined
  have hsize := (Accessor.extends_of_defineClass hdefined).size_le
  have hnone (b : Accessor) : ¬ ((key, b) ∈ added ∨ w.registry.find? key = some b) := by
    rw [← h.find?_eq_some_iff, habsent]
    exact nofun
  have hkey : key ∉ added.map (·.1) := by
    intro hmem
    obtain ⟨⟨_, b⟩, he, rfl⟩ := List.mem_map.mp hmem
    exact hnone b (.inl he)
  have hclass : a.classId ∉ added.map (·.2.classId) := by
    intro hmem
    obtain ⟨e, he, heq⟩ := List.mem_map.mp hmem
    have hbefore := (h.fresh e he).2
    rw [heq, hnew] at hbefore
    exact Nat.lt_irrefl _ hbefore
  refine ⟨h.size_le.trans hsize, by rw [Registry.insert, h.byField]; rfl,
    List.nodup_cons.mpr ⟨hkey, h.keys⟩, ?_, List.nodup_cons.mpr ⟨hclass, h.classes⟩, ?_, ?_⟩
  · intro e he
    rcases List.mem_cons.mp he with rfl | hold
    · exact Option.eq_none_iff_forall_ne_some.mpr fun b hb => hnone b (.inr hb)
    · exact h.absent e hold
  · intro e he
    rcases List.mem_cons.mp he with rfl | hold
    · exact ⟨by rw [hnew]; exact h.size_le, Accessor.lt_size_of_defineClass hdefined⟩
    · exact ⟨(h.fresh e hold).1, (h.fresh e hold).2.trans_le hsize⟩
  · have hpending := h.pending
    simp only [CompletionQueue.size, CompletionQueue.register, Array.size_push, List.length_cons]
      at hpending ⊢
    omega

/-- A request adds an entry at most. -/
theorem Adds.synthesize (h : w.Adds w' added) (baseType : String) (f : Field) :
    ∃ added, w.Adds (w'.synthesize baseType f).2 added :=
  synthesize_keeps (P := fun w' => ∃ added, w.Adds w' added) ⟨added, h⟩ baseType f
    fun _ _ habsent _ hdefined _ _ => ⟨_, h.made habsent hdefined _⟩

/-- Entries were added for the fields that have one and had none. -/
theorem Adds.mem_keys_iff (h : w.Adds w' added) : key ∈ added.map (·.1) ↔
    w.registry.find? key = none ∧ (w'.registry.find? key).isSome := by
  constructor
  · intro hmem
    obtain ⟨⟨_, a⟩, he, rfl⟩ := List.mem_map.mp hmem
    exact ⟨h.absent _ he, by rw [h.find?_eq_some_iff.mpr (.inl he)]; rfl⟩
  · rintro ⟨hnone, hsome⟩
    obtain ⟨a, ha⟩ := Option.isSome_iff_exists.mp hsome
    rcases h.find?_eq_some_iff.mp ha with he | hold
    · exact List.mem_map_of_mem (f := (·.1)) he
    · rw [hnone] at hold
      cases hold

/-- The classes made are those of the entries added. -/
theorem Adds.mem_createdSince_iff (h : w.Adds w' added) {c : ClassId} :
    c ∈ w.createdSince w' ↔ ∃ e ∈ added, e.2.classId = c := by
  constructor
  · rintro ⟨key, a, hnone, ha, rfl⟩
    rcases h.find?_eq_some_iff.mp ha with he | hold
    · exact ⟨_, he, rfl⟩
    · rw [hnone] at hold
      cases hold
  · rintro ⟨⟨key, a⟩, he, rfl⟩
    exact ⟨key, a, h.absent _ he, h.find?_eq_some_iff.mpr (.inl he), rfl⟩

/-- As many entries are added for the same fields. -/
theorem Adds.perm_keys (h : w.Adds v added) (h' : w.Adds v' added')
    (hsame : ∀ key, (v.registry.find? key).isSome ↔ (v'.registry.find? key).isSome) :
    (added.map (·.1)).Perm (added'.map (·.1)) := by
  refine (List.perm_ext_iff_of_nodup h.keys h'.keys).mpr fun key => ?_
  rw [h.mem_keys_iff, h'.mem_keys_iff, hsame key]

/-- As many completions are queued for the same fields. -/
theorem Adds.pending_eq (h : w.Adds v added) (h' : w.Adds v' added')
    (hsame : ∀ key, (v.registry.find? key).isSome ↔ (v'.registry.find? key).isSome) :
    v.pending.size = v'.pending.size := by
  have hlength := (h.perm_keys h' hsame).length_eq
  rw [List.length_map, List.length_map] at hlength
  rw [h.pending, h'.pending, hlength]

/-- The class that the second additions have for the field of a class of the first. -/
def renamingOf (added added' : List (FieldKey × Accessor)) (c : ClassId) : ClassId :=
  match (added.map fun e => (e.2.classId, e.1)).lookup c with
  | none => c
  | some key => ((added'.lookup key).map (·.classId)).getD c

/-- The class of an entry becomes that of the other entry for the field. -/
theorem Adds.renamingOf_classId (h : w.Adds v added) (h' : w.Adds v' added') {a' : Accessor}
    (ha : (key, a) ∈ added) (ha' : (key, a') ∈ added') :
    renamingOf added added' a.classId = a'.classId := by
  have hkey : (added.map fun e => (e.2.classId, e.1)).lookup a.classId = some key := by
    refine lookup_eq_some_of_mem ?_ (List.mem_map_of_mem (f := fun e => (e.2.classId, e.1)) ha)
    rw [List.map_map]
    exact h.classes
  rw [renamingOf, hkey]
  simp [lookup_eq_some_of_mem h'.keys ha']

/-- A class that was there before stays what it is. -/
theorem Adds.renamingOf_of_lt (h : w.Adds v added) {c : ClassId} (hc : c.index < w.table.size) :
    renamingOf added added' c = c := by
  have hnone : (added.map fun e => (e.2.classId, e.1)).lookup c = none := by
    refine Option.eq_none_iff_forall_ne_some.mpr fun key hkey => ?_
    obtain ⟨e, he, heq⟩ := List.mem_map.mp (mem_of_lookup hkey)
    obtain rfl : e.2.classId = c := (Prod.mk.inj heq).1
    exact absurd hc (h.fresh e he).1.not_gt
  rw [renamingOf, hnone]

/-- A field has an entry among the second additions if it has one among the first. -/
theorem Adds.exists_partner (h : w.Adds v added) (h' : w.Adds v' added')
    (hsame : ∀ key, (v.registry.find? key).isSome ↔ (v'.registry.find? key).isSome)
    (ha : (key, a) ∈ added) : ∃ a', (key, a') ∈ added' := by
  obtain ⟨⟨_, a'⟩, ha', rfl⟩ := List.mem_map.mp
    (((h.perm_keys h' hsame).mem_iff (a := key)).mp (List.mem_map_of_mem (f := (·.1)) ha))
  exact ⟨a', ha'⟩

/-- The classes of the entries for the same fields correspond, and those that were there at first
to themselves. -/
theorem Adds.renaming (h : w.Adds v added) (h' : w.Adds v' added')
    (hsame : ∀ key, (v.registry.find? key).isSome ↔ (v'.registry.find? key).isSome)
    (hold : ∀ key a, w.registry.find? key = some a → a.classId.index < w.table.size) :
    Renaming (renamingOf added added') w v v' where
  created := by
    refine ⟨?_, ?_, ?_⟩
    · intro c hc
      obtain ⟨⟨key, a⟩, ha, rfl⟩ := h.mem_createdSince_iff.mp hc
      obtain ⟨a', ha'⟩ := h.exists_partner h' hsame ha
      exact h'.mem_createdSince_iff.mpr ⟨_, ha', (h.renamingOf_classId h' ha ha').symm⟩
    · intro c hc c₁ hc₁ heq
      obtain ⟨⟨key, a⟩, ha, rfl⟩ := h.mem_createdSince_iff.mp hc
      obtain ⟨⟨key₁, b⟩, hb, rfl⟩ := h.mem_createdSince_iff.mp hc₁
      obtain ⟨a', ha'⟩ := h.exists_partner h' hsame ha
      obtain ⟨b', hb'⟩ := h.exists_partner h' hsame hb
      rw [h.renamingOf_classId h' ha ha', h.renamingOf_classId h' hb hb'] at heq
      obtain ⟨rfl, -⟩ := Prod.mk.inj (List.inj_on_of_nodup_map h'.classes ha' hb' heq)
      rw [(Prod.mk.inj (List.inj_on_of_nodup_map h.keys ha hb rfl)).2]
    · intro c' hc'
      obtain ⟨⟨key, a'⟩, ha', rfl⟩ := h'.mem_createdSince_iff.mp hc'
      obtain ⟨a, ha⟩ := h'.exists_partner h (fun key => (hsame key).symm) ha'
      exact ⟨a.classId, h.mem_createdSince_iff.mpr ⟨_, ha, rfl⟩, h.renamingOf_classId h' ha ha'⟩
  fixed _ hc := h.renamingOf_of_lt hc
  fields := hsame
  entry key a a' ha ha' := by
    rcases h.find?_eq_some_iff.mp ha with hadded | hbefore
    · rcases h'.find?_eq_some_iff.mp ha' with hadded' | hbefore'
      · exact (h.renamingOf_classId h' hadded hadded').symm
      · rw [h.absent _ hadded] at hbefore'
        cases hbefore'
    · rcases h'.find?_eq_some_iff.mp ha' with hadded' | hbefore'
      · rw [h'.absent _ hadded'] at hbefore
        cases hbefore
      · obtain rfl := Option.some.inj (hbefore.symm.trans hbefore')
        exact (h.renamingOf_of_lt (hold key a hbefore)).symm
  pending := h.pending_eq h' hsame

end Workspace

end FieldUpdater
