import FieldUpdater.Proofs.Classes.Extension
import Mathlib.Logic.Relation

/-!
# Reachable class tables

Operations on class tables lead from a table without classes, or with the builtin ones, to
the tables that occur. Every operation extends the table. What holds of a class when it is
added, and stays while the table grows, therefore holds of every class of a reachable table.
-/

namespace FieldUpdater

namespace ClassTable

/-- An operation on a class table that succeeds. -/
inductive Step : ClassTable → ClassTable → Prop
  | define {t t' : ClassTable} {d : ClassDecl} {id : ClassId} (h : t.define d = .ok (id, t')) :
      Step t t'
  | defineNested {t t' : ClassTable} {outer base id : ClassId} {simple : String}
      {visibility : Visibility} {isSealed : Bool}
      (h : t.defineNested outer simple base visibility isSealed = .ok (id, t')) : Step t t'
  | finish {t t' : ClassTable} {c : ClassId} (h : t.finish c = .ok t') : Step t t'
  | bake {t : ClassTable} (c : ClassId) : Step t (t.bake c)

/-- A table that operations lead to from one without classes or with the builtin ones. -/
inductive Reachable : ClassTable → Prop
  | empty (tag : Nat) : Reachable (.empty tag)
  | withBuiltins (tag : Nat) : Reachable (.withBuiltins tag)
  | step {t t' : ClassTable} (before : Reachable t) (taken : Step t t') : Reachable t'

/-- Any number of operations lead from one table to the other. -/
def Evolves (t t' : ClassTable) : Prop := Relation.ReflTransGen Step t t'

variable {t t' : ClassTable}

/-- An operation extends the table. -/
theorem Step.extends (h : t.Step t') : t.Extends t' := by
  cases h with
  | define hdefine => exact extends_of_add hdefine
  | defineNested hnested =>
    obtain ⟨_, -, hadd⟩ := of_defineNested hnested
    exact extends_of_add hadd
  | finish hfinish => exact extends_of_finish hfinish
  | bake c => exact extends_bake t c

/-- Any number of operations extend the table. -/
theorem Evolves.extends (h : t.Evolves t') : t.Extends t' := by
  induction h with
  | refl => exact .refl t
  | tail _ hstep ih => exact ih.trans hstep.extends

/-- Operations on a reachable table lead to reachable tables. -/
theorem Reachable.evolves (h : t.Reachable) (hevolves : t.Evolves t') : t'.Reachable := by
  induction hevolves with
  | refl => exact h
  | tail _ hstep ih => exact ih.step hstep

/-- What holds of every class when it is added, and stays while the table grows. -/
structure ClassInvariant (P : ClassTable → ClassId → ClassRecord → Prop) : Prop where
  grows : ∀ {t t' : ClassTable} {c : ClassId} {info info' : ClassRecord}, c.index < t.size →
    t.Extends t' → info.Advances info' → P t c info → P t' c info'
  added : ∀ {t t' : ClassTable} {d : ClassDecl} {outer : Option ClassId} {stage : Stage}
    {id : ClassId} {info : ClassRecord}, (∀ c info, t.find? c = some info → P t c info) →
    (∀ k, outer = some k → k.index < t.size) → t.add d outer stage = .ok (id, t') →
    t'.find? id = some info → P t' id info

namespace ClassInvariant

variable {P : ClassTable → ClassId → ClassRecord → Prop}

/-- Classes that were there before keep the property. -/
theorem of_lt (h : ClassInvariant P) (hall : ∀ c info, t.find? c = some info → P t c info)
    (hextends : t.Extends t') {c : ClassId} {info : ClassRecord} (hc : c.index < t.size)
    (hinfo : t'.find? c = some info) : P t' c info := by
  obtain ⟨old, hold, hadvance⟩ := hextends.exists_of_lt hc hinfo
  exact h.grows hc hextends hadvance (hall c old hold)

/-- With the class that is added every class has the property. -/
theorem of_add (h : ClassInvariant P) (hall : ∀ c info, t.find? c = some info → P t c info)
    {d : ClassDecl} {outer : Option ClassId} {stage : Stage} {id : ClassId}
    (houter : ∀ k, outer = some k → k.index < t.size) (hadd : t.add d outer stage = .ok (id, t')) :
    ∀ c info, t'.find? c = some info → P t' c info := by
  intro c info hinfo
  by_cases hc : c.index < t.size
  · exact h.of_lt hall (extends_of_add hadd) hc hinfo
  · obtain rfl := eq_of_add hadd hinfo hc
    exact h.added hall houter hadd hinfo

/-- Every operation keeps the property. -/
theorem step (h : ClassInvariant P) (hall : ∀ c info, t.find? c = some info → P t c info)
    (hstep : t.Step t') : ∀ c info, t'.find? c = some info → P t' c info := by
  have hsame (hextends : t.Extends t') (hsize : t'.size = t.size) :
      ∀ c info, t'.find? c = some info → P t' c info :=
    fun c info hinfo => h.of_lt hall hextends (hsize ▸ lt_size_of_find? hinfo) hinfo
  cases hstep with
  | define hdefine => exact h.of_add hall (by simp) hdefine
  | defineNested hnested =>
    obtain ⟨_, henclosing, hadd⟩ := of_defineNested hnested
    refine h.of_add hall ?_ hadd
    rintro _ ⟨⟩
    exact lt_size_of_find? henclosing
  | finish hfinish =>
    refine hsame (extends_of_finish hfinish) ?_
    obtain ⟨-, rfl⟩ := finish_eq_ok_iff.mp hfinish
    simp [size]
  | bake c => exact hsame (extends_bake t c) (by simp [ClassTable.bake, size])

/-- Every class of a reachable table has the property. -/
theorem reachable (h : ClassInvariant P) (ht : t.Reachable) :
    ∀ c info, t.find? c = some info → P t c info := by
  have hempty (tag : Nat) : ∀ c info, (empty tag).find? c = some info → P (empty tag) c info := by
    intro c info hinfo
    simp [ClassTable.find?, empty] at hinfo
  induction ht with
  | empty tag => exact hempty tag
  | withBuiltins tag =>
    have hall (ds : List ClassDecl) : ∀ t : ClassTable,
        (∀ c info, t.find? c = some info → P t c info) →
        ∀ c info, (ds.foldl addBuiltin t).find? c = some info →
          P (ds.foldl addBuiltin t) c info := by
      induction ds with
      | nil => exact fun _ hbefore => hbefore
      | cons d ds ih =>
        intro t hbefore
        refine ih (t.addBuiltin d) ?_
        unfold ClassTable.addBuiltin
        cases hadd : t.add d none .finished with
        | error err => exact hbefore
        | ok result => exact h.of_add hbefore (by simp) hadd
    exact hall _ _ (hempty tag)
  | step _ hstep ih => exact h.step ih hstep

end ClassInvariant

end ClassTable

end FieldUpdater
