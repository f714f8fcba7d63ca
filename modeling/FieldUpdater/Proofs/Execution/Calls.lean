import FieldUpdater.Proofs.Accessors.Completion
import FieldUpdater.Proofs.Execution.Refinement

/-!
# Calls on accessors

Every sequence of calls has the answers of atomic registers. A call on an accessor
object fails exactly when its target is null or cannot be cast, or when one of its
values cannot be cast.
-/

namespace FieldUpdater

namespace Machine

/-- A value that cannot be cast to a class, and the error that says so. It is no reference,
it dangles, or it refers to an object of another class. -/
inductive Rejects (m : Machine) (h : Heap) (c : ClassId) : Value → ExecError → Prop
  | dangling {o : ObjRef} (absent : h.find? o = none) :
      Rejects m h c (.ref o) (.invalidReference o)
  | other {o : ObjRef} {obj : HeapObject} (found : h.find? o = some obj)
      (foreign : m.table.isAssignable obj.classId c = false) :
      Rejects m h c (.ref o) (.classCast (m.className c) (m.className obj.classId))
  | int (n : Int32) : Rejects m h c (.int n) (.classCast (m.className c) "int")
  | bool (b : Bool) : Rejects m h c (.bool b) (.classCast (m.className c) "boolean")

/-- A call on the object of an accessor fails exactly when its target is null, or its target
or one of its values is rejected, and fails with an error for one of these reasons. -/
structure FailsExactly {α : Type} (m : Machine) (h : Heap) (a : Accessor) (target : Value)
    (values : List Value) (result : Except Halt α) : Prop where
  iff : (∃ halt, result = .error halt) ↔ target = .null ∨
    (∃ err, m.Rejects h a.field.declaring target err) ∨
      ∃ v ∈ values, ∃ err, m.Rejects h a.field.type v err
  reason : ∀ halt, result = .error halt → ∃ err, halt = .error err ∧
    ((target = .null ∧ ∃ op, err = .nullReference op) ∨ m.Rejects h a.field.declaring target err ∨
      ∃ v ∈ values, m.Rejects h a.field.type v err)

variable {m : Machine} {R : Registers} {h : Heap} {c : ClassId} {v target expected update : Value}
  {a : Accessor}

/-- A cast either lets a value pass, which is then not rejected, or rejects it. -/
theorem accept_cases (hR : Represents m R h) (v : Value) (c : ClassId) :
    (R.accept m v c = .ok () ∧ ∀ err, ¬ m.Rejects h c v err) ∨
      ∃ err, R.accept m v c = .error err ∧ m.Rejects h c v err := by
  cases v with
  | null => exact .inl ⟨rfl, fun err hreject => by cases hreject⟩
  | int n => exact .inr ⟨_, rfl, .int n⟩
  | bool b => exact .inr ⟨_, rfl, .bool b⟩
  | ref o =>
    have hclass := hR.find?_classId (o := o)
    unfold Registers.accept
    cases hfind : h.find? o with
    | none =>
      simp only [hfind, Option.map_none] at hclass
      simp only [← hclass]
      exact .inr ⟨_, rfl, .dangling hfind⟩
    | some obj =>
      simp only [hfind, Option.map_some] at hclass
      simp only [← hclass]
      by_cases hassignable : m.table.isAssignable obj.classId c = true
      · refine .inl ⟨if_pos hassignable, ?_⟩
        intro err hreject
        cases hreject with
        | dangling habsent =>
          rw [hfind] at habsent
          cases habsent
        | other hfound hforeign =>
          obtain rfl := Option.some.inj (hfind.symm.trans hfound)
          rw [hassignable] at hforeign
          cases hforeign
      · exact .inr ⟨_, if_neg hassignable, .other hfind (by simpa using hassignable)⟩

/-- A value that no cast rejects is null or a reference. -/
private theorem eq_null_or_ref (hno : ∀ err, ¬ m.Rejects h c v err) :
    v = .null ∨ ∃ o, v = .ref o := by
  cases v with
  | null => exact .inl rfl
  | ref o => exact .inr ⟨o, rfl⟩
  | int n => exact absurd (.int n) (hno _)
  | bool b => exact absurd (.bool b) (hno _)

section

variable {α : Type} {values : List Value} {result : Except Halt α}

/-- A call that fails for a reason fails exactly as it should. -/
private theorem failsExactly_of_reason {err : ExecError} (hresult : result = .error (.error err))
    (hreason : (target = .null ∧ ∃ op, err = .nullReference op) ∨
      m.Rejects h a.field.declaring target err ∨ ∃ v ∈ values, m.Rejects h a.field.type v err) :
    m.FailsExactly h a target values result where
  iff := by
    refine ⟨fun _ => ?_, fun _ => ⟨_, hresult⟩⟩
    rcases hreason with ⟨hnull, -⟩ | hreject | ⟨v, hv, hreject⟩
    · exact .inl hnull
    · exact .inr (.inl ⟨err, hreject⟩)
    · exact .inr (.inr ⟨v, hv, err, hreject⟩)
  reason halt heq := by
    rw [hresult] at heq
    exact ⟨err, (Except.error.inj heq).symm, hreason⟩

/-- A call that succeeds without a reason to fail succeeds exactly as it should. -/
private theorem failsExactly_of_ok {answer : α} (hresult : result = .ok answer)
    (htarget : target ≠ .null) (hno : ∀ err, ¬ m.Rejects h a.field.declaring target err)
    (hvalues : ∀ v ∈ values, ∀ err, ¬ m.Rejects h a.field.type v err) :
    m.FailsExactly h a target values result where
  iff := by
    constructor
    · rintro ⟨halt, herror⟩
      rw [hresult] at herror
      cases herror
    · rintro (hnull | ⟨err, hreject⟩ | ⟨v, hv, err, hreject⟩)
      · exact absurd hnull htarget
      · exact absurd hreject (hno err)
      · exact absurd hreject (hvalues v hv err)
  reason halt heq := by
    rw [hresult] at heq
    cases heq

end

variable {fuel : Nat} {x : ObjRef}

/-- The accessor of an object is that of its class. -/
private theorem accessor_eq (hR : Represents m R h) (hclass : h.classOf x = .ok c)
    (ha : m.registry.ofClass? c = some a) : R.accessor m x = .ok a := by
  rw [hR.classOf_eq] at hclass
  unfold Registers.accessor
  cases hx : R.classOf? x with
  | none => simp [hx] at hclass
  | some k =>
    simp only [hx, Except.ok.injEq] at hclass
    subst hclass
    simp only [ha]

/-- A load fails exactly for its target. -/
theorem failsExactly_get (hR : Represents m R h) (hm : m.Sound) (hfuel : 11 ≤ fuel)
    (hclass : h.classOf x = .ok c) (ha : m.registry.ofClass? c = some a) (target : Value) :
    m.FailsExactly h a target [] (m.get fuel x target h).1 := by
  have hresult := (hR.get_agrees hm hfuel x target).1
  rw [accessor_eq hR hclass ha] at hresult
  change _ = (R.settle (R.get m a.field target)).1.mapError Halt.error at hresult
  unfold Registers.get at hresult
  rcases accept_cases hR target a.field.declaring with ⟨haccept, hno⟩ | ⟨err, haccept, hreject⟩
  · rw [haccept] at hresult
    rcases eq_null_or_ref hno with rfl | ⟨o, rfl⟩
    · exact failsExactly_of_reason hresult (.inl ⟨rfl, _, rfl⟩)
    · exact failsExactly_of_ok hresult (by simp) hno (by simp)
  · rw [haccept] at hresult
    exact failsExactly_of_reason hresult (.inr (.inl hreject))

/-- A store fails exactly for its target or its value. -/
theorem failsExactly_set (hR : Represents m R h) (hm : m.Sound) (hfuel : 11 ≤ fuel)
    (hclass : h.classOf x = .ok c) (ha : m.registry.ofClass? c = some a) (target v : Value) :
    m.FailsExactly h a target [v] (m.set fuel x target v h).1 := by
  have hresult := (hR.set_agrees hm hfuel x target v).1
  rw [accessor_eq hR hclass ha] at hresult
  change _ = (R.settle (R.set m a.field target v)).1.mapError Halt.error at hresult
  unfold Registers.set at hresult
  rcases accept_cases hR target a.field.declaring with ⟨haccept, hno⟩ | ⟨err, haccept, hreject⟩
  · rw [haccept] at hresult
    rcases accept_cases hR v a.field.type with ⟨haccept', hno'⟩ | ⟨err, haccept', hreject⟩
    · rw [haccept'] at hresult
      rcases eq_null_or_ref hno with rfl | ⟨o, rfl⟩
      · exact failsExactly_of_reason hresult (.inl ⟨rfl, _, rfl⟩)
      · exact failsExactly_of_ok hresult (by simp) hno (by simpa using hno')
    · rw [haccept'] at hresult
      exact failsExactly_of_reason hresult (.inr (.inr ⟨v, by simp, hreject⟩))
  · rw [haccept] at hresult
    exact failsExactly_of_reason hresult (.inr (.inl hreject))

/-- A compare-and-set fails exactly for its target or one of its two values. -/
theorem failsExactly_compareAndSet (hR : Represents m R h) (hm : m.Sound) (hfuel : 11 ≤ fuel)
    (hclass : h.classOf x = .ok c) (ha : m.registry.ofClass? c = some a)
    (target expected update : Value) :
    m.FailsExactly h a target [expected, update]
      (m.compareAndSet fuel x target expected update h).1 := by
  have hresult := (hR.compareAndSet_agrees hm hfuel x target expected update).1
  rw [accessor_eq hR hclass ha] at hresult
  change _ = (R.settle (R.compareAndSet m a.field target expected update)).1.mapError Halt.error
    at hresult
  unfold Registers.compareAndSet at hresult
  rcases accept_cases hR target a.field.declaring with ⟨haccept, hno⟩ | ⟨err, haccept, hreject⟩
  · rw [haccept] at hresult
    rcases eq_null_or_ref hno with rfl | ⟨o, rfl⟩
    · exact failsExactly_of_reason hresult (.inl ⟨rfl, _, rfl⟩)
    · rcases accept_cases hR update a.field.type with ⟨haccept', hno'⟩ | ⟨err, haccept', hreject⟩
      · rw [haccept'] at hresult
        rcases accept_cases hR expected a.field.type with
          ⟨haccept'', hno''⟩ | ⟨err, haccept'', hreject⟩
        · rw [haccept''] at hresult
          exact failsExactly_of_ok hresult (by simp) hno (by simp [hno', hno''])
        · rw [haccept''] at hresult
          exact failsExactly_of_reason hresult (.inr (.inr ⟨expected, by simp, hreject⟩))
      · rw [haccept'] at hresult
        exact failsExactly_of_reason hresult (.inr (.inr ⟨update, by simp, hreject⟩))
  · rw [haccept] at hresult
    exact failsExactly_of_reason hresult (.inr (.inl hreject))

/-- Whatever has been called, the answers are those of registers that are null at first, and
the next call on an accessor object fails exactly as it should. -/
theorem accessors_are_registers {t : ClassTable} {r : Registry} (hhistory : r.History t)
    (hinstance : ∀ key a, (key, a) ∈ r.byField → a.field.isStatic = false) {fuel : Nat}
    (hfuel : 11 ≤ fuel) (calls : List Call) :
    let m : Machine := ⟨t, r⟩
    let out := m.performAll fuel calls ⟨t.tag, #[]⟩
    out.1 = (Registers.performAll m calls {}).1.map (·.mapError .error) ∧
      ∀ x c a, out.2.classOf x = .ok c → r.ofClass? c = some a →
        (∀ target, m.FailsExactly out.2 a target [] (m.get fuel x target out.2).1) ∧
        (∀ target v, m.FailsExactly out.2 a target [v] (m.set fuel x target v out.2).1) ∧
        ∀ target expected update, m.FailsExactly out.2 a target [expected, update]
          (m.compareAndSet fuel x target expected update out.2).1 := by
  intro m out
  have hm : m.Sound := ⟨hhistory.sound, hinstance⟩
  obtain ⟨hanswers, hR⟩ := (Represents.empty (m := m) t.tag).performAll_agrees hm hfuel calls
  refine ⟨hanswers, ?_⟩
  intro x c a hclass ha
  refine ⟨fun target => failsExactly_get hR hm hfuel hclass ha target, ?_, ?_⟩
  · intro target v
    exact failsExactly_set hR hm hfuel hclass ha target v
  · intro target expected update
    exact failsExactly_compareAndSet hR hm hfuel hclass ha target expected update

end Machine

namespace Sample

/-- The accessor of the field has been made. -/
def served : Workspace := (space.synthesize baseType next).2

/-- The accessor has been completed. -/
def machine : Machine where
  table :=
    match served.registry.find? next.key with
    | some a => (a.complete served.table).2
    | none => served.table
  registry := served.registry

/-- The completion of the accessor consists of table operations. -/
theorem evolves_machine : served.table.Evolves machine.table := by
  rw [machine]
  cases served.registry.find? next.key with
  | none => exact .refl
  | some a => exact a.evolves_complete served.table

/-- The accessor of the sample has a history. -/
theorem history_machine : machine.registry.History machine.table := by
  have htaken : space.synthesize baseType next = ((space.synthesize baseType next).1, served) := rfl
  have hserved : served.registry.History served.table :=
    .request (.start reachable_table) declares_next htaken
  exact hserved.evolves evolves_machine

/-- Make an object of the accessor and one of the class of the field, and use the field. -/
def calls : List Call :=
  [.make ⟨13⟩, .make ⟨11⟩, .compareAndSet ⟨0⟩ (.ref ⟨1⟩) .null (.ref ⟨1⟩),
    .compareAndSet ⟨0⟩ (.ref ⟨1⟩) .null .null, .get ⟨0⟩ (.ref ⟨1⟩)]

/-- The heap with the two objects. -/
def heap : Heap := (machine.performAll 11 calls ⟨machine.table.tag, #[]⟩).2

end Sample

/-- The answers of the sample: the first exchange succeeds and the second does not. -/
theorem Machine.accessors_are_registers_node :
    (Sample.machine.performAll 11 Sample.calls ⟨Sample.machine.table.tag, #[]⟩).1 =
      [.ok (.object ⟨0⟩), .ok (.object ⟨1⟩), .ok (.changed true), .ok (.changed false),
        .ok (.value (.ref ⟨1⟩))] := by
  have hinstance : Sample.machine.registry.byField.all (!·.2.field.isStatic) = true := by
    decide +kernel
  have hanswers := (Machine.accessors_are_registers Sample.history_machine
    (fun key a hmem => by simpa using List.all_eq_true.mp hinstance (key, a) hmem)
    (le_refl 11) Sample.calls).1
  rw [hanswers]
  decide +kernel

/-- A load from null fails although null is not rejected as a target. -/
theorem Machine.get_null_fails_unrejected :
    ¬ ∀ target, (∃ halt, (Sample.machine.get 11 ⟨0⟩ target Sample.heap).1 = .error halt) ↔
      ∃ err, Sample.machine.Rejects Sample.heap Sample.next.declaring target err := by
  intro hclaim
  have hfails : (Sample.machine.get 11 ⟨0⟩ .null Sample.heap).1 =
      .error (.error (.nullReference .volatileLdfld)) := by
    decide +kernel
  obtain ⟨err, hreject⟩ := (hclaim .null).mp ⟨_, hfails⟩
  cases hreject

end FieldUpdater
