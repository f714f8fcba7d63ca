import FieldUpdater.Proofs.Execution.SourceMachine

/-!
# Simulation of the source by compiled code

A kept instruction takes one step in the source machine and in the compiled code. A
replaced call takes one step of the source machine and four of the compiled code. Fuel
is counted differently, but outcomes are the same.
-/

namespace FieldUpdater

/-- The step with its jump, if it is one, moved along with the code. -/
def Step.relocate (move : Nat → Nat) : Step → Step
  | .jump target f => .jump (move target) f
  | s => s

/-- Enough entries are discarded, too few are an underflow. -/
theorem Frame.discard_eq (op : Opcode) (n : Nat) (f : Frame) :
    Frame.discard op n f =
      if n ≤ f.stack.length then .ok { f with stack := f.stack.drop n }
      else .error (.stackUnderflow op) := by
  induction n generalizing f with
  | zero => simp [discard]
  | succ n ih =>
    unfold discard pop
    cases hstack : f.stack with
    | nil => simp
    | cons e rest => simp [ih]

namespace Machine

open Layout (position replacement? Linked)

variable {m : Machine} {source : SourceMethod} {cm : CompiledMethod} {fuel k : Nat} {i : Instr}
  {f : Frame} {h : Heap} {c : ClassId}

/-- Beyond the end of the source there is no compiled code either. -/
theorem stepAt_beyond (hlinked : Linked source cm) (hk : source.code[k]? = none) (m : Machine)
    (fuel : Nat) (f : Frame) (h : Heap) :
    m.stepAt cm.body fuel (position cm.sites k) f h =
      m.sourceStepAt cm.sites source fuel k f h := by
  have hle : source.code.size ≤ k := Array.getElem?_eq_none_iff.mp hk
  have hnone : cm.body.code[position cm.sites k]? = none := by
    rw [Array.getElem?_eq_none_iff, hlinked.size]
    exact Layout.position_mono hle
  rw [sourceStepAt_beyond hk]
  simp only [stepAt, hnone, hlinked.name]

/-- An outcome whose step stays as it is stays as it is. -/
private theorem map_step_id (out : Except Halt Step × Heap) :
    Prod.map (Except.map id) id out = out := by
  obtain ⟨result, h'⟩ := out
  cases result <;> rfl

/-- Two changes of an outcome agree when they agree on its step. -/
private theorem map_step_congr {g g' : Step → Step} {out : Except Halt Step × Heap}
    (hagree : ∀ s h', out = (.ok s, h') → g s = g' s) :
    Prod.map (Except.map g) id out = Prod.map (Except.map g') id out := by
  obtain ⟨result, h'⟩ := out
  cases result with
  | error halt => rfl
  | ok s =>
    have hsame := hagree s h' rfl
    simp only [Prod.map, Except.map, hsame]

/-- A kept instruction takes the same step in the compiled code, its jump moved along. -/
theorem stepAt_kept (hlinked : Linked source cm) (hi : source.code[k]? = some i)
    (hkept : replacement? cm.sites k = none) (m : Machine) (fuel : Nat) (f : Frame) (h : Heap) :
    m.stepAt cm.body fuel (position cm.sites k) f h =
      Prod.map (Except.map (Step.relocate (position cm.sites))) id
        (m.sourceStepAt cm.sites source fuel k f h) := by
  obtain ⟨i', hi', hrelocated⟩ := hlinked.kept k i hi hkept
  rw [sourceStepAt_kept hi hkept]
  simp only [stepAt, hi']
  have hjump : ∀ target f' h', m.step (m.makeObject fuel) i f h = (.ok (.jump target f'), h') →
      i.branchTarget? = some target := fun _ _ _ => branchTarget?_of_step_jump
  unfold Layout.Relocated at hrelocated
  cases htarget : i.branchTarget? with
  | none =>
    simp only [htarget] at hrelocated hjump
    rw [hrelocated]
    refine (map_step_id _).symm.trans (map_step_congr ?_)
    intro s h' hout
    cases s with
    | jump target f' => cases hjump target f' h' hout
    | next f' => rfl
    | leave result => rfl
  | some target =>
    simp only [htarget] at hrelocated hjump
    rw [hrelocated.2, step_retarget htarget]
    refine map_step_congr ?_
    intro s h' hout
    cases s with
    | jump target' f' =>
      obtain rfl := Option.some.inj (hjump target' f' h' hout)
      rfl
    | next f' => rfl
    | leave result => rfl

/-- A pop of the compiled code. -/
theorem stepAt_pop {body : AssembledMethod} {q : Nat} (hq : body.code[q]? = some ⟨.pop, .none⟩)
    (m : Machine) (fuel : Nat) (f : Frame) (h : Heap) :
    m.stepAt body fuel q f h =
      match f.pop .pop with
      | .error err => (.error (.error err), h)
      | .ok (_, f) => (.ok (.next f), h) := by
  simp only [stepAt, hq, step, stepPlain, bind, Except.bind]
  cases f.pop .pop <;> rfl

/-- Pops in a row discard entries. -/
theorem follow_pops {body : AssembledMethod} {n q : Nat}
    (hpops : ∀ j < n, body.code[q + j]? = some ⟨.pop, .none⟩) :
    follow (m.stepAt body) (fuel + n) q f h =
      if n ≤ f.stack.length then
        follow (m.stepAt body) fuel (q + n) { f with stack := f.stack.drop n } h
      else (.error (.error (.stackUnderflow .pop)), h) := by
  induction n generalizing q f with
  | zero => simp
  | succ n ih =>
    have hstep := stepAt_pop (hpops 0 (Nat.succ_pos n)) m (fuel + n) f h
    rw [Nat.add_zero] at hstep
    unfold Frame.pop at hstep
    cases hstack : f.stack with
    | nil =>
      simp only [hstack] at hstep
      rw [← Nat.add_assoc, follow_of_error hstep]
      simp
    | cons e rest =>
      simp only [hstack] at hstep
      rw [← Nat.add_assoc, follow_of_after hstep rfl, ih]
      · simp only [List.length_cons, Nat.add_le_add_iff_right, List.drop_succ_cons]
        rw [Nat.add_right_comm, Nat.add_assoc q n 1, Nat.add_comm n 1]
      · intro j hj
        rw [Nat.add_right_comm q 1 j, Nat.add_assoc q j 1]
        exact hpops (j + 1) (by omega)

/-- A replaced call takes one step of the source machine. -/
theorem sourceStepAt_replaced (hi : source.code[k]? = some i)
    (hreplaced : replacement? cm.sites k = some c) (m : Machine) (fuel : Nat) (f : Frame)
    (h : Heap) :
    m.sourceStepAt cm.sites source fuel k f h =
      if 3 ≤ f.stack.length then
        match m.makeObject fuel c h with
        | (.error halt, h) => (.error halt, h)
        | (.ok obj, h) =>
          (.ok (.next (Frame.pushValue { f with stack := f.stack.drop 3 } (.ref obj))), h)
      else (.error (.error (.stackUnderflow .pop)), h) := by
  simp only [sourceStepAt, hi, sourceStep, hreplaced, Frame.discard_eq]
  by_cases hlength : 3 ≤ f.stack.length
  · rw [if_pos hlength]
    exact (if_pos hlength).symm
  · rw [if_neg hlength]
    exact (if_neg hlength).symm

/-- The instructions of a construction in the compiled code. -/
theorem construction_code (hlinked : Linked source cm) (hi : source.code[k]? = some i)
    (hreplaced : replacement? cm.sites k = some c) :
    (∀ j < 3, cm.body.code[position cm.sites k + j]? = some ⟨.pop, .none⟩) ∧
      cm.body.code[position cm.sites k + 3]? = some ⟨.newobj, .classRef c⟩ := by
  have hcode := hlinked.replaced k i c hi hreplaced
  refine ⟨fun j hj => ?_, hcode 3 (by omega)⟩
  rw [hcode j (by omega)]
  rcases (by omega : j = 0 ∨ j = 1 ∨ j = 2) with rfl | rfl | rfl <;> rfl

/-- The allocation at the end of a construction. -/
theorem stepAt_newobj {body : AssembledMethod} {q : Nat}
    (hq : body.code[q]? = some ⟨.newobj, .classRef c⟩) (m : Machine) (fuel : Nat) (f : Frame)
    (h : Heap) :
    m.stepAt body fuel q f h =
      match m.makeObject fuel c h with
      | (.error halt, h) => (.error halt, h)
      | (.ok obj, h) => (.ok (.next (f.pushValue (.ref obj))), h) := by
  simp only [stepAt, hq, step, Instr.classOperand]
  rfl

/-- A run of the compiled code through a kept instruction. -/
theorem follow_kept (hlinked : Linked source cm) (hi : source.code[k]? = some i)
    (hkept : replacement? cm.sites k = none) (m : Machine) (fuel : Nat) (f : Frame) (h : Heap) :
    follow (m.stepAt cm.body) (fuel + 1) (position cm.sites k) f h =
      match m.sourceStepAt cm.sites source fuel k f h with
      | (.error halt, h) => (.error halt, h)
      | (.ok (.next f), h) => follow (m.stepAt cm.body) fuel (position cm.sites (k + 1)) f h
      | (.ok (.jump target f), h) => follow (m.stepAt cm.body) fuel (position cm.sites target) f h
      | (.ok (.leave result), h) => (.ok result, h) := by
  rw [follow, stepAt_kept hlinked hi hkept, Layout.position_succ_of_kept hkept]
  generalize m.sourceStepAt cm.sites source fuel k f h = out
  obtain ⟨result, h'⟩ := out
  cases result with
  | error halt => rfl
  | ok s => cases s <;> rfl

/-- A run of the compiled code through a construction. -/
theorem follow_construction (hlinked : Linked source cm) (hi : source.code[k]? = some i)
    (hreplaced : replacement? cm.sites k = some c) (m : Machine) (fuel : Nat) (f : Frame)
    (h : Heap) :
    follow (m.stepAt cm.body) (fuel + 4) (position cm.sites k) f h =
      if 3 ≤ f.stack.length then
        match m.makeObject fuel c h with
        | (.error halt, h) => (.error halt, h)
        | (.ok obj, h) =>
          follow (m.stepAt cm.body) fuel (position cm.sites (k + 1))
            (Frame.pushValue { f with stack := f.stack.drop 3 } (.ref obj)) h
      else (.error (.error (.stackUnderflow .pop)), h) := by
  obtain ⟨hpops, hnewobj⟩ := construction_code hlinked hi hreplaced
  rw [show fuel + 4 = fuel + 1 + 3 from rfl, follow_pops hpops]
  by_cases hlength : 3 ≤ f.stack.length
  · have hstep := stepAt_newobj hnewobj m fuel { f with stack := f.stack.drop 3 } h
    rw [if_pos hlength, if_pos hlength, follow, hstep,
      Layout.position_succ_of_replaced hreplaced]
    generalize m.makeObject fuel c h = out
    obtain ⟨result, h'⟩ := out
    cases result <;> rfl
  · rw [if_neg hlength, if_neg hlength]

/-- A run of the source machine through a replaced call. -/
theorem follow_replaced (hi : source.code[k]? = some i)
    (hreplaced : replacement? cm.sites k = some c) (m : Machine) (fuel : Nat) (f : Frame)
    (h : Heap) :
    follow (m.sourceStepAt cm.sites source) (fuel + 1) k f h =
      if 3 ≤ f.stack.length then
        match m.makeObject fuel c h with
        | (.error halt, h) => (.error halt, h)
        | (.ok obj, h) =>
          follow (m.sourceStepAt cm.sites source) fuel (k + 1)
            (Frame.pushValue { f with stack := f.stack.drop 3 } (.ref obj)) h
      else (.error (.error (.stackUnderflow .pop)), h) := by
  rw [follow, sourceStepAt_replaced hi hreplaced]
  by_cases hlength : 3 ≤ f.stack.length
  · rw [if_pos hlength, if_pos hlength]
    generalize m.makeObject fuel c h = out
    obtain ⟨result, h'⟩ := out
    cases result <;> rfl
  · rw [if_neg hlength, if_neg hlength]

/-- More fuel does not change a settled step of the source machine. -/
theorem sourceStepAt_stable {sites : Array Site} {fuel' : Nat} (hle : fuel ≤ fuel')
    (hsettled : Settled (m.sourceStepAt sites source fuel k f h)) :
    m.sourceStepAt sites source fuel' k f h = m.sourceStepAt sites source fuel k f h := by
  unfold sourceStepAt sourceStep at hsettled ⊢
  split
  · rfl
  · rename_i i hi
    simp only [hi] at hsettled
    split
    · rename_i hkept
      simp only [hkept] at hsettled
      exact step_refines (makeObject_refines hle) hsettled
    · rename_i c hreplaced
      simp only [hreplaced] at hsettled
      split
      · rfl
      · rename_i f' hdiscard
        simp only [hdiscard] at hsettled
        have hsame := makeObject_refines (m := m) hle c h
        generalize m.makeObject fuel c h = out at hsame hsettled ⊢
        obtain ⟨result, h'⟩ := out
        cases result with
        | error halt => rw [hsame (settled_error_iff.mpr (settled_error_iff.mp hsettled))]
        | ok obj => rw [hsame (settled_ok _ _)]

/-- Where the source machine comes to a result, the compiled code comes to it. -/
theorem follow_of_source (hlinked : Linked source cm)
    (hsettled : Settled (follow (m.sourceStepAt cm.sites source) fuel k f h)) {fuel' : Nat}
    (hle : 4 * fuel ≤ fuel') :
    follow (m.stepAt cm.body) fuel' (position cm.sites k) f h =
      follow (m.sourceStepAt cm.sites source) fuel k f h := by
  induction fuel generalizing k f h fuel' with
  | zero => exact absurd rfl hsettled
  | succ fuel ih =>
    obtain ⟨fuel', rfl⟩ : ∃ n, fuel' = n + 1 := ⟨fuel' - 1, by omega⟩
    have hfirst := settled_of_follow hsettled
    cases hi : source.code[k]? with
    | none =>
      have hbeyond := stepAt_beyond hlinked hi m fuel' f h
      rw [follow, follow, hbeyond, sourceStepAt_stable (by omega) hfirst,
        sourceStepAt_beyond hi]
    | some i =>
      cases hreplaced : replacement? cm.sites k with
      | none =>
        rw [follow_kept hlinked hi hreplaced, sourceStepAt_stable (by omega) hfirst]
        rw [follow] at hsettled ⊢
        generalize m.sourceStepAt cm.sites source fuel k f h = out at hsettled ⊢
        obtain ⟨result, h'⟩ := out
        cases result with
        | error halt => rfl
        | ok s =>
          cases s with
          | next f' => exact ih hsettled (by omega)
          | jump target f' => exact ih hsettled (by omega)
          | leave result => rfl
      | some c =>
        obtain ⟨fuel', rfl⟩ : ∃ n, fuel' = n + 3 := ⟨fuel' - 3, by omega⟩
        rw [follow_construction hlinked hi hreplaced, follow_replaced hi hreplaced]
        rw [follow_replaced hi hreplaced] at hsettled
        by_cases hlength : 3 ≤ f.stack.length
        · rw [if_pos hlength] at hsettled
          rw [if_pos hlength, if_pos hlength]
          have hobject := makeObject_refines (m := m) (by omega : fuel ≤ fuel') c h
          generalize m.makeObject fuel c h = out at hobject hsettled ⊢
          obtain ⟨result, h'⟩ := out
          cases result with
          | error halt => rw [hobject (settled_error_iff.mpr (settled_error_iff.mp hsettled))]
          | ok obj =>
            rw [hobject (settled_ok _ _)]
            exact ih hsettled (by omega)
        · rw [if_neg hlength, if_neg hlength]

/-- More fuel does not change a settled run of the source machine. -/
theorem follow_source_stable {fuel' : Nat} (hle : fuel ≤ fuel')
    (hsettled : Settled (follow (m.sourceStepAt cm.sites source) fuel k f h)) :
    follow (m.sourceStepAt cm.sites source) fuel' k f h =
      follow (m.sourceStepAt cm.sites source) fuel k f h :=
  follow_stable (fun _ _ _ hk _ _ _ => sourceStepAt_stable hk) hle hsettled

/-- Where the compiled code comes to a result, the source machine comes to one. -/
theorem settled_source_of_follow (hlinked : Linked source cm)
    (hsettled : Settled (follow (m.stepAt cm.body) fuel (position cm.sites k) f h)) :
    Settled (follow (m.sourceStepAt cm.sites source) fuel k f h) := by
  induction fuel using Nat.strongRecOn generalizing k f h with
  | _ fuel ih =>
    cases fuel with
    | zero => exact absurd rfl hsettled
    | succ fuel =>
      cases hi : source.code[k]? with
      | none =>
        have hbeyond : m.sourceStepAt cm.sites source fuel k f h =
            (.error (.error (.fellOffEnd source.name)), h) :=
          sourceStepAt_beyond hi m fuel f h
        rw [follow_of_error hbeyond]
        exact settled_error_iff.mpr (by simp)
      | some i =>
        cases hreplaced : replacement? cm.sites k with
        | none =>
          rw [follow_kept hlinked hi hreplaced] at hsettled
          rw [follow]
          generalize m.sourceStepAt cm.sites source fuel k f h = out at hsettled ⊢
          obtain ⟨result, h'⟩ := out
          cases result with
          | error halt => exact hsettled
          | ok s =>
            cases s with
            | next f' => exact ih fuel (by omega) hsettled
            | jump target f' => exact ih fuel (by omega) hsettled
            | leave result => exact hsettled
        | some c =>
          rw [follow_replaced hi hreplaced]
          by_cases hlength : 3 ≤ f.stack.length
          · rw [if_pos hlength]
            by_cases hfuel : fuel < 3
            · -- The fuel does not even last for the pops.
              have hpops := (construction_code hlinked hi hreplaced).1
              have hout : follow (m.stepAt cm.body) (0 + (fuel + 1)) (position cm.sites k) f h =
                  (.error .outOfFuel, h) := by
                rw [follow_pops fun j hj => hpops j (by omega), if_pos (by omega)]
                rfl
              rw [Nat.zero_add] at hout
              exact absurd (by rw [hout]) hsettled
            · obtain ⟨fuel, rfl⟩ : ∃ n, fuel = n + 3 := ⟨fuel - 3, by omega⟩
              rw [follow_construction hlinked hi hreplaced, if_pos hlength] at hsettled
              have hobject := makeObject_refines (m := m) (by omega : fuel ≤ fuel + 3) c h
              generalize m.makeObject fuel c h = out at hobject hsettled
              obtain ⟨result, h'⟩ := out
              cases result with
              | error halt =>
                rw [hobject (settled_error_iff.mpr (settled_error_iff.mp hsettled))]
                exact hsettled
              | ok obj =>
                rw [hobject (settled_ok _ _)]
                have hrest := ih fuel (by omega) hsettled
                dsimp only
                rw [follow_source_stable (by omega) hrest]
                exact hrest
          · rw [if_neg hlength]
            exact settled_error_iff.mpr (by simp)

/-- The compiled code of a method and the source machine have the same outcome. -/
theorem sameOutcome_of_linked (hlinked : Linked source cm) (m : Machine) (args : List Value)
    (h : Heap) :
    SameOutcome (fun fuel => m.execute fuel cm.body args h)
      (fun fuel => m.executeSource cm.sites source fuel args h) := by
  have hsource {fuel : Nat} (hsettled : Settled (m.executeSource cm.sites source fuel args h)) :
      m.execute (4 * fuel) cm.body args h = m.executeSource cm.sites source fuel args h := by
    rw [execute, run_eq_follow]
    exact follow_of_source (k := 0) hlinked hsettled le_rfl
  refine .of_comesTo ?_ ?_
  · rintro out ⟨hsettled, fuel, rfl⟩
    have hsettled' : Settled (m.executeSource cm.sites source fuel args h) := by
      have hrun : Settled (m.run fuel cm.body 0 (.ofArgs args) h) := hsettled
      rw [run_eq_follow] at hrun
      exact settled_source_of_follow (k := 0) hlinked hrun
    refine ⟨hsettled, fuel, ?_⟩
    exact execute_comesTo_unique (m := m) (h := h)
      ⟨hsettled', 4 * fuel, hsource hsettled'⟩ ⟨hsettled, fuel, rfl⟩
  · rintro out ⟨hsettled, fuel, rfl⟩
    exact ⟨hsettled, 4 * fuel, hsource hsettled⟩

end Machine

end FieldUpdater
