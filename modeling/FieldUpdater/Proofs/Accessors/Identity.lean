import FieldUpdater.Proofs.Accessors.Atomicity
import FieldUpdater.Proofs.Accessors.Names

/-!
# What a key identifies

A field is found by the class that declares it, its name and its signature. A class may declare
two fields of one name and signature, and the primitive types without a letter of their own have
one signature. A key therefore identifies a field exactly in tables where no class does so, and in
all others a field may be served by the accessor of another.
-/

namespace FieldUpdater

namespace ClassTable

variable {t : ClassTable} {c e : ClassId} {j k : Nat} {f g : Field}

/-- A class declares the field at a position. -/
def DeclaresAt (t : ClassTable) (c : ClassId) (j : Nat) (f : Field) : Prop :=
  ∃ info, t.find? c = some info ∧ info.fields[j]? = some f

instance (t : ClassTable) (c : ClassId) (j : Nat) (f : Field) : Decidable (t.DeclaresAt c j f) :=
  inferInstanceAs (Decidable (∃ info, t.find? c = some info ∧ info.fields[j]? = some f))

/-- No class declares two fields of one name and signature. -/
def Distinct (t : ClassTable) : Prop :=
  ∀ info ∈ t.classes, (info.fields.toList.map fun f => (f.name, f.signature)).Nodup

instance (t : ClassTable) : Decidable t.Distinct :=
  inferInstanceAs (Decidable (∀ info ∈ t.classes, _))

/-- A field declared at some position is of that class. -/
theorem DeclaresAt.declaring_eq (ht : t.Reachable) (h : t.DeclaresAt c j f) :
    f.declaring = c := by
  obtain ⟨info, hinfo, hf⟩ := h
  exact (ht.sound c info hinfo).laidOut.declaring f (Array.mem_of_getElem? hf)

/-- A field declared at some position is declared. -/
theorem DeclaresAt.declares (ht : t.Reachable) (h : t.DeclaresAt c j f) : t.Declares f := by
  have hdeclaring := h.declaring_eq ht
  obtain ⟨info, hinfo, hf⟩ := h
  exact ⟨info, hdeclaring ▸ hinfo, Array.mem_of_getElem? hf⟩

/-- Fields at two positions of a class are those of its record. -/
theorem DeclaresAt.of_one_class (hf : t.DeclaresAt c j f) (hg : t.DeclaresAt c k g) :
    ∃ info, t.find? c = some info ∧ info.fields[j]? = some f ∧ info.fields[k]? = some g := by
  obtain ⟨info, hinfo, hf⟩ := hf
  obtain ⟨info', hinfo', hg⟩ := hg
  obtain rfl := Option.some.inj (hinfo.symm.trans hinfo')
  exact ⟨info, hinfo, hf, hg⟩

/-- One field stands at a position of a class. -/
theorem DeclaresAt.unique (hf : t.DeclaresAt c j f) (hg : t.DeclaresAt c j g) : f = g := by
  obtain ⟨_, -, hf, hg⟩ := hf.of_one_class hg
  exact Option.some.inj (hf.symm.trans hg)

/-- Declared fields have one key when they are of one class, name and signature. -/
theorem DeclaresAt.same_iff (ht : t.Reachable) (hf : t.DeclaresAt c j f)
    (hg : t.DeclaresAt e k g) :
    f.same g = true ↔ c = e ∧ f.name = g.name ∧ f.signature = g.signature := by
  rw [← hf.declaring_eq ht, ← hg.declaring_eq ht, Field.same, decide_eq_true_iff]
  cases hkey : f.key
  cases hkey' : g.key
  simp [Field.declaring, Field.name, Field.signature, hkey, hkey']

/-- Fields are distinct when a name and a signature stand at one position of a class. -/
theorem distinct_iff : t.Distinct ↔ ∀ c j k f g, t.DeclaresAt c j f → t.DeclaresAt c k g →
    f.name = g.name → f.signature = g.signature → j = k := by
  constructor
  · intro h c j k f g hf hg hname hsignature
    obtain ⟨info, hinfo, hf, hg⟩ := hf.of_one_class hg
    have hnodup := h info (Array.mem_of_getElem? hinfo)
    refine (List.getElem?_inj ?_ hnodup).mp ?_
    · simpa using (Array.getElem?_eq_some_iff.mp hf).1
    · simp [hf, hg, hname, hsignature]
  · intro h info hmem
    obtain ⟨c, hinfo⟩ := Array.mem_iff_getElem?.mp hmem
    rw [List.nodup_iff_getElem?_ne_getElem?]
    intro j k hjk hk heq
    rw [List.length_map, Array.length_toList] at hk
    have hf := Array.getElem?_eq_getElem (hjk.trans hk)
    have hg := Array.getElem?_eq_getElem hk
    rw [List.getElem?_map, List.getElem?_map, Array.getElem?_toList, Array.getElem?_toList, hf, hg,
      Option.map_some, Option.map_some, Option.some.injEq, Prod.mk.injEq] at heq
    have hsame := h ⟨c⟩ j k _ _ ⟨info, hinfo, hf⟩ ⟨info, hinfo, hg⟩ heq.1 heq.2
    omega

/-- Fields of one sort at different positions of a class have different slots. -/
theorem Sound.slot_ne (h : t.Sound) (hf : t.DeclaresAt c j f) (hg : t.DeclaresAt c k g)
    (hjk : j < k) (hstatic : f.isStatic = g.isStatic) : f.slot ≠ g.slot := by
  obtain ⟨info, hinfo, hf, hg⟩ := hf.of_one_class hg
  obtain ⟨hj, rfl⟩ := Array.getElem?_eq_some_iff.mp hf
  obtain ⟨hk, rfl⟩ := Array.getElem?_eq_some_iff.mp hg
  have hlaid := (h c info hinfo).laidOut
  obtain ⟨count, -, hinstance⟩ := hlaid.instanceSlots
  -- The slots of either sort are a range.
  have hapart (p : Field → Bool) (hp : ((info.fields.toList.filter p).map (·.slot)).Nodup)
      (hpf : p info.fields[j] = true) (hpg : p info.fields[k] = true) :
      info.fields[j].slot ≠ info.fields[k].slot := by
    rw [List.Nodup, List.pairwise_map, List.pairwise_filter, List.pairwise_iff_getElem] at hp
    exact hp j k (by simpa using hj) (by simpa using hk) hjk hpf hpg
  cases hsort : info.fields[j].isStatic with
  | true =>
    refine hapart (·.isStatic) ?_ hsort (hstatic.symm.trans hsort)
    rw [hlaid.staticSlots]
    exact List.nodup_range
  | false =>
    refine hapart (!·.isStatic) ?_ (by simp [hsort]) (by simp [← hstatic, hsort])
    rw [hinstance]
    exact List.nodup_range'

/-- Where fields are distinct, a key is that of one declared field. -/
theorem Distinct.eq_of_key (h : t.Distinct) (hf : t.Declares f) (hg : t.Declares g)
    (hkey : f.key = g.key) : f = g := by
  have hpositioned {f : Field} (hf : t.Declares f) : ∃ j, t.DeclaresAt f.declaring j f := by
    obtain ⟨info, hinfo, hmem⟩ := hf
    obtain ⟨j, hj⟩ := Array.mem_iff_getElem?.mp hmem
    exact ⟨j, info, hinfo, hj⟩
  have hclass : f.declaring = g.declaring := congrArg FieldKey.declaring hkey
  obtain ⟨j, hj⟩ := hpositioned hf
  obtain ⟨k, hk⟩ := hpositioned hg
  rw [← hclass] at hk
  obtain rfl := distinct_iff.mp h _ _ _ _ _ hj hk (congrArg FieldKey.name hkey)
    (congrArg FieldKey.signature hkey)
  exact hj.unique hk

/-- Fields are distinct exactly when declarations at different places have different keys. -/
theorem same_iff_place (ht : t.Reachable) :
    (∀ c j f e k g, t.DeclaresAt c j f → t.DeclaresAt e k g →
      (f.same g = true ↔ c = e ∧ j = k)) ↔ t.Distinct := by
  rw [distinct_iff]
  constructor
  · intro h c j k f g hf hg hname hsignature
    exact ((h c j f c k g hf hg).mp ((hf.same_iff ht hg).mpr ⟨rfl, hname, hsignature⟩)).2
  · intro h c j f e k g hf hg
    rw [hf.same_iff ht hg]
    constructor
    · rintro ⟨rfl, hname, hsignature⟩
      exact ⟨rfl, h c j k f g hf hg hname hsignature⟩
    · rintro ⟨rfl, rfl⟩
      obtain rfl := hf.unique hg
      exact ⟨rfl, rfl, rfl⟩

end ClassTable

namespace Workspace

variable {t : ClassTable} {w : Workspace}

/-- Requests for the accessors of fields, each with the name of the class to extend. -/
def requestAll (w : Workspace) (requests : List (String × Field)) : Workspace :=
  requests.foldl (fun w request => (w.synthesize request.1 request.2).2) w

/-- A workspace for a table in which no accessor has been made. -/
def start (t : ClassTable) (pending : CompletionQueue Accessor) : Workspace :=
  ⟨t, { tag := t.tag }, pending⟩

/-- Every entry is the accessor of a field that the table declares, under the field's key. -/
def EntriesOf (t : ClassTable) (w : Workspace) : Prop :=
  ∀ key a, w.registry.find? key = some a → t.Declares a.field ∧ a.field.key = key

/-- A request for a declared field keeps entries those of declared fields. -/
theorem EntriesOf.synthesize (h : w.EntriesOf t) (baseType : String) {f : Field}
    (hf : t.Declares f) : (w.synthesize baseType f).2.EntriesOf t := by
  refine synthesize_keeps h baseType f fun a t' _ _ _ _ hfield key b hb => ?_
  rcases Registry.of_find?_insert hb with ⟨rfl, rfl⟩ | hold
  · rw [hfield]
    exact ⟨hf, rfl⟩
  · exact h key b hold

/-- Requests for declared fields only make accessors of declared fields. -/
theorem EntriesOf.requestAll (h : w.EntriesOf t) {requests : List (String × Field)}
    (hrequests : ∀ r ∈ requests, t.Declares r.2) : (w.requestAll requests).EntriesOf t := by
  induction requests generalizing w with
  | nil => exact h
  | cons r requests ih =>
    exact ih (h.synthesize r.1 (hrequests r List.mem_cons_self))
      fun r' hr' => hrequests r' (List.mem_cons_of_mem r hr')

/-- Requests make no accessor when no class can be extended. -/
theorem requestAll_of_not_extensible (h : ∀ name, ¬ w.table.Extensible name)
    (requests : List (String × Field)) : w.requestAll requests = w := by
  induction requests with
  | nil => rfl
  | cons r requests ih =>
    rw [requestAll, List.foldl_cons, synthesize_of_not_extensible (h r.1)]
    exact ih

end Workspace

namespace ClassTable

open Workspace (start requestAll)

variable {t : ClassTable}

/-- Whatever accessors of declared fields have been asked for, one that a field is served with has
the field's slot, type and flags. -/
def Serves (t : ClassTable) : Prop :=
  ∀ pending requests baseType f a w', (∀ r ∈ requests, t.Declares r.2) → t.Declares f →
    ((start t pending).requestAll requests).synthesize baseType f = (.ok a, w') →
    a.field.slot = f.slot ∧ a.field.type = f.type ∧ a.field.isStatic = f.isStatic ∧
      a.field.isVolatile = f.isVolatile

/-- Distinct fields are served with their own accessors. -/
theorem Distinct.serves (h : t.Distinct) : t.Serves := by
  intro pending requests baseType f a w' hrequests hf htaken
  have hstart : (start t pending).EntriesOf t := fun _ _ hnone => by cases hnone
  have hentries := (hstart.requestAll hrequests).synthesize baseType hf
  rw [htaken] at hentries
  obtain ⟨hdeclared, hkey⟩ := hentries f.key a (Workspace.find?_of_synthesize htaken)
  obtain rfl := h.eq_of_key hdeclared hf hkey
  exact ⟨rfl, rfl, rfl, rfl⟩

/-- Where no class can be extended no field is served. -/
theorem serves_of_not_extensible (h : ∀ name, ¬ t.Extensible name) : t.Serves := by
  intro pending requests baseType f a w' _ _ htaken
  rw [Workspace.requestAll_of_not_extensible h] at htaken
  have hsame := Workspace.synthesize_of_not_extensible (w := start t pending) (h baseType) f
  have hentry := Workspace.find?_of_synthesize htaken
  rw [htaken] at hsame
  rw [show w' = start t pending from hsame] at hentry
  cases hentry

/-- Where some class can be extended and every field is served with its own accessor, fields are
distinct: the accessor made for a field serves every other of its name and signature too. -/
theorem Serves.distinct (h : t.Serves) (ht : t.Reachable) {baseType : String}
    (hbase : t.Extensible baseType) : t.Distinct := by
  have hserved {f g : Field} (hf : t.Declares f) (hg : t.Declares g) (hkey : f.key = g.key) :
      f.slot = g.slot ∧ f.isStatic = g.isStatic := by
    have hdeclaring : f.declaring.index < t.size := by
      obtain ⟨info, hinfo, -⟩ := hf
      exact lt_size_of_find? hinfo
    obtain ⟨a, w', hmade⟩ :=
      Workspace.exists_synthesize (w := start t {}) (f := f) hbase hdeclaring
    have hafter : (start t {}).requestAll [(baseType, f)] = w' := congrArg Prod.snd hmade
    have hentry : w'.registry.find? g.key = some a := hkey ▸ Workspace.find?_of_synthesize hmade
    obtain ⟨hslot, -, hstatic, -⟩ := h {} [] baseType f a w' (by simp) hf hmade
    obtain ⟨hslot', -, hstatic', -⟩ := h {} [(baseType, f)] baseType g a w' (by simpa using hf) hg
      (hafter ▸ Workspace.synthesize_of_entry hentry baseType)
    exact ⟨hslot.symm.trans hslot', hstatic.symm.trans hstatic'⟩
  rw [distinct_iff]
  intro c j k f g hf hg hname hsignature
  have hkey : f.key = g.key := by
    simpa [Field.same] using (hf.same_iff ht hg).mpr ⟨rfl, hname, hsignature⟩
  obtain ⟨hslot, hstatic⟩ := hserved (hf.declares ht) (hg.declares ht) hkey
  rcases Nat.lt_trichotomy j k with hlt | heq | hlt
  · exact absurd hslot (ht.sound.slot_ne hf hg hlt hstatic)
  · exact heq
  · exact absurd hslot.symm (ht.sound.slot_ne hg hf hlt hstatic.symm)

/-- Keys identify declarations exactly where no class declares two fields of one name and
signature, and so do accessors belong to the fields that they serve, unless none can be made. -/
theorem keys_identify_iff (ht : t.Reachable) :
    ((∀ c j f e k g, t.DeclaresAt c j f → t.DeclaresAt e k g →
      (f.same g = true ↔ c = e ∧ j = k)) ↔ t.Distinct) ∧
    (t.Serves ↔ t.Distinct ∨ ∀ name, ¬ t.Extensible name) := by
  refine ⟨same_iff_place ht, fun h => ?_, fun h =>
    h.elim Distinct.serves serves_of_not_extensible⟩
  by_cases hextensible : ∃ name, t.Extensible name
  · obtain ⟨name, hname⟩ := hextensible
    exact .inl (h.distinct ht hname)
  · exact .inr (not_exists.mp hextensible)

/-- The fields of the sample have keys of their own and are served with their own accessors. -/
theorem keys_identify_iff_node :
    let t := Sample.table
    t.Reachable ∧ t.Distinct ∧ (∀ c j f e k g, t.DeclaresAt c j f → t.DeclaresAt e k g →
      (f.same g = true ↔ c = e ∧ j = k)) ∧ t.Serves := by
  intro t
  have hdistinct : t.Distinct := by decide +kernel
  obtain ⟨hidentify, hserves⟩ := keys_identify_iff Sample.reachable_table
  exact ⟨Sample.reachable_table, hdistinct, hidentify.mpr hdistinct, hserves.mpr (.inl hdistinct)⟩

end ClassTable

namespace Sample

/-- A class that declares a field twice, a class with two fields of unknown primitive types, and
the class that accessors extend. -/
def twins : ClassTable :=
  [{ name := "p", kind := .primitive }, { name := "q", kind := .primitive },
    { name := "Twice", fields := [⟨"next", ⟨0⟩, false, true⟩, ⟨"next", ⟨0⟩, false, true⟩] },
    { name := "Mixed", fields := [⟨"x", ⟨11⟩, false, false⟩, ⟨"x", ⟨12⟩, false, false⟩] },
    { name := baseType }].foldl declare (.withBuiltins 0)

/-- One of the two declarations of the field. -/
def twin (slot : Nat) : Field :=
  ⟨⟨⟨13⟩, "next", "Ljava/lang/Object;"⟩, ⟨0⟩, false, true, slot⟩

/-- A field of an unknown primitive type. -/
def mixed (type : ClassId) (slot : Nat) : Field :=
  ⟨⟨⟨14⟩, "x", "?"⟩, type, false, false, slot⟩

/-- A field declared twice has one key at both places, as have fields of one name and different
unknown primitive types; and the accessor of the first declaration serves the second. -/
theorem twins_have_one_key :
    twins.Reachable ∧
    (twins.DeclaresAt ⟨13⟩ 0 (twin 0) ∧ twins.DeclaresAt ⟨13⟩ 1 (twin 1) ∧
      (twin 0).same (twin 1) = true) ∧
    (twins.DeclaresAt ⟨14⟩ 0 (mixed ⟨11⟩ 0) ∧ twins.DeclaresAt ⟨14⟩ 1 (mixed ⟨12⟩ 1) ∧
      (mixed ⟨11⟩ 0).same (mixed ⟨12⟩ 1) = true) ∧
    ¬ (∀ c j f e k g, twins.DeclaresAt c j f → twins.DeclaresAt e k g →
      (f.same g = true ↔ c = e ∧ j = k)) ∧
    ¬ twins.Serves := by
  have hreachable : twins.Reachable := reachable_declarations (.withBuiltins 0) _
  have hplaces : twins.DeclaresAt ⟨13⟩ 0 (twin 0) ∧ twins.DeclaresAt ⟨13⟩ 1 (twin 1) ∧
      (twin 0).same (twin 1) = true := by
    decide +kernel
  have hmixed : twins.DeclaresAt ⟨14⟩ 0 (mixed ⟨11⟩ 0) ∧ twins.DeclaresAt ⟨14⟩ 1 (mixed ⟨12⟩ 1) ∧
      (mixed ⟨11⟩ 0).same (mixed ⟨12⟩ 1) = true := by
    decide +kernel
  have hserved : (((Workspace.start twins {}).requestAll [(baseType, twin 0)]).synthesize baseType
      (twin 1)).1.toOption.map (·.field) = some (twin 0) := by
    decide +kernel
  refine ⟨hreachable, hplaces, hmixed, fun hclaim => ?_, fun hclaim => ?_⟩
  · obtain ⟨hfirst, hsecond, hsame⟩ := hplaces
    exact absurd ((hclaim _ _ _ _ _ _ hfirst hsecond).mp hsame).2 (by decide)
  · obtain ⟨hfirst, hsecond, -⟩ := hplaces
    generalize hresult : Workspace.synthesize _ _ (twin 1) = result at hserved
    obtain ⟨outcome, w'⟩ := result
    cases outcome with
    | error err => cases hserved
    | ok a =>
      have hfield : a.field = twin 0 := Option.some.inj hserved
      obtain ⟨hslot, -⟩ := hclaim _ _ _ _ a w' (by simpa using hfirst.declares hreachable)
        (hsecond.declares hreachable) hresult
      rw [hfield] at hslot
      exact absurd hslot (by decide)

end Sample

end FieldUpdater
