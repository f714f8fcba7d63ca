import FieldUpdater.Accessor.Attempts
import FieldUpdater.Proofs.Accessors.Names

/-!
# Attempts end

There are more candidates than classes, and a taken name is answered before anything about the
base class is looked at. Attempts to define the class of an accessor therefore pass over the
names that are taken, whatever the base class, and end with the first free one.
-/

namespace FieldUpdater

/-- A nested class whose name is taken is not defined, whatever its superclass. -/
theorem ClassTable.defineNested_of_taken {t : ClassTable} {owner base : ClassId}
    {outer : ClassRecord} {name : String} (howner : t.find? owner = some outer)
    (htaken : t.lookup (nestedName outer.name name) ≠ none) :
    t.defineNested owner name base .nestedPrivate true =
      .error (.duplicateClass (nestedName outer.name name)) := by
  have hsome : (t.lookup (nestedName outer.name name)).isSome = true :=
    Option.isSome_iff_ne_none.mpr htaken
  unfold defineNested ClassTable.get
  rw [howner]
  exact if_pos hsome

namespace Accessor

open ClassTable (nestedName)

variable {t : ClassTable} {owner base : ClassId} {outer info : ClassRecord} {simple : String}
  {k limit : Nat}

/-- The candidate after a number of taken ones is the one with the next number. -/
theorem candidate_succ (simple : String) {n : Nat} (hn : n + 1 < 2 ^ 32) :
    simple ++ "$" ++ toString (UInt32.ofNat n + 1) = candidate simple (n + 1) := by
  have hnext : (UInt32.ofNat n + 1).toNat = n + 1 := by
    rw [← UInt32.ofNat_one, ← UInt32.ofNat_add, UInt32.toNat_ofNat_of_lt' (by simpa using hn)]
  have htext : toString (UInt32.ofNat n + 1) = toString (UInt32.ofNat n + 1).toNat := rfl
  rw [htext, hnext]
  rfl

/-- An attempt under a taken name is followed by one under the next candidate. -/
theorem attempts_taken (howner : t.find? owner = some outer)
    (htaken : t.lookup (nestedName outer.name (candidate simple k)) ≠ none) (hk : k + 1 < 2 ^ 32) :
    attempts owner base simple (limit + 1) (candidate simple k) (UInt32.ofNat k) t =
      attempts owner base simple limit (candidate simple (k + 1)) (UInt32.ofNat (k + 1)) t := by
  rw [attempts, attempt, ClassTable.defineNested_of_taken howner htaken]
  dsimp only
  rw [candidate_succ simple hk, UInt32.ofNat_add, UInt32.ofNat_one]

/-- Attempts pass over taken names. -/
theorem defineWithin_taken (howner : t.find? owner = some outer) (hk : k < 2 ^ 32)
    (htaken : ∀ j < k, t.lookup (nestedName outer.name (candidate simple j)) ≠ none) :
    defineWithin (limit + k) owner simple base t =
      attempts owner base simple limit (candidate simple k) (UInt32.ofNat k) t := by
  induction k generalizing limit with
  | zero => rfl
  | succ k ih =>
    rw [← attempts_taken howner (htaken k (Nat.lt_succ_self k)) hk, ← ih (by omega)
      fun j hj => htaken j (by omega), Nat.add_right_comm, Nat.add_assoc]

/-- How the definition of an accessor's class under a free name ends. -/
theorem attempts_free (howner : t.find? owner = some outer) (hbase : t.find? base = some info)
    {name : String} (hfree : t.lookup (nestedName outer.name name) = none) (taken : UInt32) :
    attempts owner base simple (limit + 1) name taken t =
      match info.baseFault? with
      | some fault => some (.error (.defineType (.invalidBase (nestedName outer.name name) info.name
          fault)), t)
      | none => some (.ok ⟨t.size⟩,
          t.withNested owner base (nestedName outer.name name) info.instanceSlots) := by
  rw [attempts, attempt, ClassTable.defineNested_of_free howner hfree,
    ClassTable.inheritedSlots_eq hbase]
  cases info.baseFault? <;> rfl

/-- Attempts to define the class of an accessor end when those under all taken candidates before
the first free one have been made, and the one under it. If the base class can be extended, it adds
a class of that name and leaves every other as it is; if not, it is refused for the fault of the
base class and nothing changes. -/
theorem attempts_end (hsize : t.size < 2 ^ 32) (howner : t.find? owner = some outer)
    (hbase : t.find? base = some info) (simple : String) :
    ∃ k ≤ t.size, FirstFree t outer.name simple k ∧
      let name := nestedName outer.name (candidate simple k)
      let t' := t.withNested owner base name info.instanceSlots
      (∀ limit ≤ k, defineWithin limit owner simple base t = none) ∧
      (info.isSealed = false → info.kind = .reference →
        (∀ limit > k, defineWithin limit owner simple base t = some (.ok ⟨t.size⟩, t')) ∧
        defineClass t owner simple base = .ok (⟨t.size⟩, t') ∧
        t'.lookup name = some ⟨t.size⟩ ∧
        ∀ c old, t.find? c = some old → t'.find? c = some old) ∧
      (info.isSealed = true ∨ info.kind ≠ .reference → ∃ fault, info.baseFault? = some fault ∧
        (∀ limit > k, defineWithin limit owner simple base t =
          some (.error (.defineType (.invalidBase name info.name fault)), t)) ∧
        defineClass t owner simple base = .error (.invalidBase name info.name fault)) := by
  obtain ⟨k, hk, hfirst⟩ := exists_firstFree t outer.name simple
  have hend (limit : Nat) (hlimit : limit > k) : defineWithin limit owner simple base t =
      attempts owner base simple (limit - k - 1 + 1) (candidate simple k) (UInt32.ofNat k) t := by
    rw [← defineWithin_taken howner (by omega) hfirst.taken]
    congr 1
    omega
  have hfree (limit : Nat) (taken : UInt32) := @attempts_free t owner base outer info simple limit
    howner hbase _ hfirst.free taken
  have hatonce := defineClass_eq howner hbase hfirst hk
  refine ⟨k, hk, hfirst, ?_, ?_, ?_⟩
  · intro limit hlimit
    have hnone : defineWithin (0 + limit) owner simple base t = _ :=
      defineWithin_taken howner (by omega) fun j hj => hfirst.taken j (hj.trans_le hlimit)
    rwa [Nat.zero_add] at hnone
  · intro hsealed hkind
    have hfault := ClassRecord.baseFault?_eq_none_iff.mpr ⟨hsealed, hkind⟩
    simp only [hfault] at hfree hatonce
    exact ⟨fun limit hlimit => (hend limit hlimit).trans (hfree _ _), hatonce,
      ClassTable.lookup_withNested owner base _ hfirst.free,
      fun c old hold => ClassTable.find?_push_of_find? hold _⟩
  · intro hcases
    obtain ⟨fault, hfault⟩ := ClassRecord.exists_baseFault?.mpr hcases
    simp only [hfault] at hfree hatonce
    exact ⟨fault, hfault, fun limit hlimit => (hend limit hlimit).trans (hfree _ _), hatonce⟩

/-- When the simple name and the first number are taken, the third attempt ends the search: it
defines the class under the second number, or finds that a primitive type is no base. -/
theorem attempts_end_taken :
    let t := [{ name := "Node$x" }, { name := "Node$x$1" }].foldl Sample.declare Sample.table
    t.size < 2 ^ 32 ∧ defineWithin 2 ⟨11⟩ "x" ⟨12⟩ t = none ∧
      (∃ t', defineWithin 3 ⟨11⟩ "x" ⟨12⟩ t = some (.ok ⟨15⟩, t') ∧
        t'.lookup "Node$x$2" = some ⟨15⟩) ∧
      defineWithin 3 ⟨11⟩ "x" ⟨3⟩ t =
        some (.error (.defineType (.invalidBase "Node$x$2" "boolean" .notReference)), t) := by
  intro t
  have hsize : t.size = 15 := by decide +kernel
  have hbound : t.size < 2 ^ 32 := by omega
  have howner : ∃ outer, t.find? ⟨11⟩ = some outer ∧ outer.name = "Node" := by decide +kernel
  have hbase : ∃ info, t.find? ⟨12⟩ = some info ∧ info.isSealed = false ∧
      info.kind = .reference := by
    decide +kernel
  have hprimitive : ∃ info, t.find? ⟨3⟩ = some info ∧ info.name = "boolean" ∧
      info.baseFault? = some .notReference := by
    decide +kernel
  obtain ⟨outer, howner, houter⟩ := howner
  obtain ⟨info, hbase, hsealed, hkind⟩ := hbase
  obtain ⟨other, hprimitive, hname, hother⟩ := hprimitive
  have hfirst : FirstFree t outer.name "x" 2 := by
    rw [houter]
    exact ⟨by decide +kernel, by decide +kernel⟩
  obtain ⟨k, -, hk, hnone, hdefined, -⟩ := attempts_end hbound howner hbase "x"
  obtain rfl : k = 2 := hk.unique hfirst
  obtain ⟨hdefined, -, hfound, -⟩ := hdefined hsealed hkind
  obtain ⟨n, -, hn, -, -, hrefused⟩ := attempts_end hbound howner hprimitive "x"
  obtain rfl : n = 2 := hn.unique hfirst
  obtain ⟨fault, hfault, hrefused, -⟩ :=
    hrefused (ClassRecord.exists_baseFault?.mp ⟨_, hother⟩)
  obtain rfl : fault = .notReference := Option.some.inj (hfault.symm.trans hother)
  rw [hsize] at hdefined hfound
  rw [houter, hname] at hrefused
  rw [houter] at hdefined hfound
  exact ⟨hbound, hnone 2 le_rfl, ⟨_, hdefined 3 (by decide), hfound⟩, hrefused 3 (by decide)⟩

end Accessor

end FieldUpdater
