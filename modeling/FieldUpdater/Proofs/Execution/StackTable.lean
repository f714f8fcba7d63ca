import FieldUpdater.Proofs.Execution.Calls
import FieldUpdater.Proofs.Execution.StackDepth

/-!
# The machine and the table of stack effects

The table of stack effects is written for the assembler, and the machine knows nothing of it. A
step nonetheless takes from the operand stack, puts on it and misses on it what the table says.
Only a construction runs other code on the way: with accessors that come from synthesis, whose
constructors find their own object on their stack, it misses nothing either.
-/

namespace FieldUpdater

/-- Synthesis has made the accessor: a request for a field without one was answered with it. -/
def Accessor.IsSynthesized (a : Accessor) : Prop :=
  ∃ (w w' : Workspace) (baseType : String) (f : Field),
    w.registry.find? f.key = none ∧ w.synthesize baseType f = (.ok a, w')

/-- The accessors that the machine constructs come from synthesis. -/
def Machine.Synthesizes (m : Machine) : Prop :=
  ∀ c a, m.registry.ofClass? c = some a → a.IsSynthesized

namespace Accessor

variable {a : Accessor}

/-- The bodies of a synthesized accessor are the code of its field's operations. -/
theorem IsSynthesized.wellMade (h : a.IsSynthesized) : a.WellMade := by
  obtain ⟨w, w', baseType, f, habsent, hrequest⟩ := h
  have hsynthesized := w.synthesized baseType f
  rw [hrequest] at hsynthesized
  cases hsynthesized with
  | found hentry =>
    rw [habsent] at hentry
    cases hentry
  | made _ _ _ _ _ _ hbodies => exact hbodies

end Accessor

/-- Requests alone lead to registries whose accessors come from synthesis. -/
theorem Registry.History.isSynthesized {t : ClassTable} {r : Registry} (h : History t r) :
    ∀ c a, r.ofClass? c = some a → a.IsSynthesized := by
  induction h with
  | start _ => exact fun c a hfound => by cases hfound
  | table _ _ ih => exact ih
  | @request w w' result baseType f _ _ htaken ih =>
    have hsynthesized := w.synthesized baseType f
    rw [htaken] at hsynthesized
    cases hsynthesized with
    | found _ => exact ih
    | baseMissing _ _ => exact ih
    | undefinable _ _ _ => exact ih
    | @made a _ habsent _ _ _ _ _ _ =>
      intro c b hfound
      rw [ofClass?_insert] at hfound
      split at hfound
      · obtain rfl := Option.some.inj hfound
        exact ⟨w, _, baseType, f, habsent, htaken⟩
      · exact ih c b hfound

namespace StackChange

variable {pops pushes : Nat} {s s' : List Entry}

/-- What is taken off was there. -/
theorem le_length (h : StackChange pops pushes s s') : pops ≤ s.length := by
  obtain ⟨taken, pushed, rest, rfl, rfl, -, -⟩ := h
  simp

/-- What lies below stays. -/
theorem drop_eq (h : StackChange pops pushes s s') : s'.drop pushes = s.drop pops := by
  obtain ⟨taken, pushed, rest, rfl, rfl, rfl, rfl⟩ := h
  simp

end StackChange

namespace Machine

variable {m : Machine} {i : Instr} {pops pushes : Nat} {f : Frame} {h h' : Heap} {op : Opcode}

/-- A step is short of entries only when there are fewer than the table says. -/
theorem Synthesizes.lt_of_step_underflow (hm : m.Synthesizes)
    (heffect : i.opcode.stackEffect = some (pops, pushes)) {fuel : Nat}
    (hstep : m.step (m.makeObject fuel) i f h = (.error (.error (.stackUnderflow op)), h')) :
    f.stack.length < pops := by
  rcases of_step_underflow heffect hstep with hshort | ⟨c, hconstruct⟩
  · exact hshort
  -- The failure would be that of a constructor, and these find their object on their stack.
  · exact absurd hconstruct
      (makeObject_ne_underflow (fun k a hfound => (hm k a hfound).wellMade) fuel c h h' op)

/-- The machine keeps to the table of stack effects. Whatever the operand, the stack, the local
variables and the heap are, a step that goes on, to the next instruction or elsewhere, has found
as many entries as the effect takes, leaves as many more or fewer as it puts on and takes, and has
not touched those below. A step that leaves the method has found as many as it takes, and one that
is short of entries has found fewer. -/
theorem step_keeps_stackEffect (hm : m.Synthesizes)
    (heffect : i.opcode.stackEffect = some (pops, pushes)) (fuel : Nat) (f : Frame) (h : Heap) :
    (∀ f' h', (m.step (m.makeObject fuel) i f h = (.ok (.next f'), h') ∨
        ∃ target, m.step (m.makeObject fuel) i f h = (.ok (.jump target f'), h')) →
      pops ≤ f.stack.length ∧ f'.stack.length = f.stack.length - pops + pushes ∧
        f'.stack.drop pushes = f.stack.drop pops) ∧
    (∀ result h', m.step (m.makeObject fuel) i f h = (.ok (.leave result), h') →
      pops ≤ f.stack.length) ∧
    ∀ op h', m.step (m.makeObject fuel) i f h = (.error (.error (.stackUnderflow op)), h') →
      f.stack.length < pops := by
  refine ⟨?_, ?_, fun op h' hstep => hm.lt_of_step_underflow heffect hstep⟩
  · intro f' h' hgoes
    have hchange : StackChange pops pushes f.stack f'.stack := by
      rcases hgoes with hnext | ⟨target, hjump⟩
      · exact changes_of_step heffect hnext
      · exact changes_of_step heffect hjump
    exact ⟨hchange.le_length, hchange.length_eq, hchange.drop_eq⟩
  · intro result h' hleave
    exact changes_of_step heffect hleave

/-- In the sample the construction of an accessor puts its object on two entries, which stay, and
an exchange finds that a third is missing. -/
theorem step_keeps_stackEffect_next :
    let f : Frame := { stack := [.value .null, .value (.bool true)], locals := #[] }
    let step (i : Instr) := Sample.machine.step (Sample.machine.makeObject 3) i f Sample.heap
    (∃ f' h', step ⟨.newobj, .classRef ⟨13⟩⟩ = (.ok (.next f'), h') ∧
      f'.stack.length = 3 ∧ f'.stack.drop 1 = f.stack) ∧
    step ⟨.cmpxchg, .none⟩ = (.error (.error (.stackUnderflow .cmpxchg)), Sample.heap) ∧
    f.stack.length < 3 := by
  intro f step
  have hm : Sample.machine.Synthesizes := Sample.history_machine.isSynthesized
  obtain ⟨f', h', hnext⟩ : ∃ f' h', step ⟨.newobj, .classRef ⟨13⟩⟩ = (.ok (.next f'), h') := by
    have hgoes : (match (step ⟨.newobj, .classRef ⟨13⟩⟩).1 with
        | .ok (.next _) => true
        | _ => false) = true := by
      decide +kernel
    split at hgoes
    · rename_i f' hresult
      exact ⟨f', _, Prod.ext hresult rfl⟩
    · cases hgoes
  have hshort : step ⟨.cmpxchg, .none⟩ =
      (.error (.error (.stackUnderflow .cmpxchg)), Sample.heap) := rfl
  obtain ⟨hgoes, -, -⟩ :=
    step_keeps_stackEffect hm (i := ⟨.newobj, .classRef ⟨13⟩⟩) rfl 3 f Sample.heap
  obtain ⟨-, -, hmissing⟩ := step_keeps_stackEffect hm (i := ⟨.cmpxchg, .none⟩) rfl 3 f Sample.heap
  obtain ⟨-, hlength, hbelow⟩ := hgoes f' h' (.inl hnext)
  exact ⟨⟨f', h', hnext, hlength, hbelow⟩, hshort, hmissing _ _ hshort⟩

end Machine

end FieldUpdater
