import FieldUpdater.Proofs.Execution.Simulation

/-!
# Compilation preserves meaning

Compiled methods have the outcomes of their sources under every machine. The pops that
a replaced call puts into the code always find the three constants of its window, since
every state of the compiled code is one of the source machine or within a construction.
-/

namespace FieldUpdater

namespace Machine

open Layout (position replacement? width Linked)

variable {m : Machine} {source : SourceMethod} {cm : CompiledMethod} {fuel k : Nat}
  {f : Frame} {h₀ h : Heap} {args : List Value}

/-- A state of the compiled code, seen from the source machine: some pops of the
construction that stands at the place of a source instruction have been executed. -/
inductive Placed (m : Machine) (source : SourceMethod) (cm : CompiledMethod) (args : List Value)
    (h₀ : Heap) : Nat → Frame → Heap → Prop
  /-- Execution is at the beginning of a source instruction. -/
  | begun {k : Nat} {f : Frame} {h : Heap}
      (reached : Reaches (m.sourceStepAt cm.sites source) 0 (.ofArgs args) h₀ k f h) :
      Placed m source cm args h₀ (position cm.sites k) f h
  /-- Execution is within a construction. -/
  | within {k j : Nat} {i : Instr} {c : ClassId} {f : Frame} {h : Heap}
      (reached : Reaches (m.sourceStepAt cm.sites source) 0 (.ofArgs args) h₀ k f h)
      (instr : source.code[k]? = some i) (replaced : replacement? cm.sites k = some c)
      (le : j ≤ 3) (popped : j ≤ f.stack.length) :
      Placed m source cm args h₀ (position cm.sites k + j) { f with stack := f.stack.drop j } h

/-- A construction goes on within itself and then to the next source instruction. -/
private theorem placed_of_construction {q' j : Nat} {i : Instr} {c : ClassId} {f' : Frame}
    {h' : Heap} {s : Step} (hlinked : Linked source cm)
    (hreached : Reaches (m.sourceStepAt cm.sites source) 0 (.ofArgs args) h₀ k f h)
    (hi : source.code[k]? = some i) (hreplaced : replacement? cm.sites k = some c)
    (hle : j ≤ 3) (hpopped : j ≤ f.stack.length)
    (htaken : m.stepAt cm.body fuel (position cm.sites k + j) { f with stack := f.stack.drop j } h
      = (.ok s, h'))
    (hafter : s.after? (position cm.sites k + j) = some (q', f')) :
    Placed m source cm args h₀ q' f' h' := by
  obtain ⟨hpops, hnewobj⟩ := construction_code hlinked hi hreplaced
  rcases Nat.lt_or_eq_of_le hle with hlt | rfl
  · rw [stepAt_pop (hpops j hlt)] at htaken
    unfold Frame.pop at htaken
    cases hstack : f.stack.drop j with
    | nil => simp [hstack] at htaken
    | cons e rest =>
      simp only [hstack] at htaken
      cases htaken
      cases hafter
      have hrest : f.stack.drop (j + 1) = rest := by rw [← List.tail_drop, hstack, List.tail_cons]
      have hlength : (f.stack.drop j).length = rest.length + 1 := by rw [hstack, List.length_cons]
      rw [List.length_drop] at hlength
      rw [← hrest]
      exact .within hreached hi hreplaced hlt (by omega)
  · have hsource := sourceStepAt_replaced hi hreplaced m fuel f h
    rw [if_pos hpopped] at hsource
    rw [stepAt_newobj hnewobj] at htaken
    have hnext : position cm.sites (k + 1) = position cm.sites k + 3 + 1 :=
      Layout.position_succ_of_replaced hreplaced
    split at htaken
    · cases htaken
    · rename_i obj h'' hobject
      cases htaken
      cases hafter
      rw [hobject] at hsource
      rw [← hnext]
      exact .begun (.step hreached hsource rfl)

/-- Every state of the compiled code has its place in the source. -/
theorem placed_of_reaches (hlinked : Linked source cm) {q : Nat}
    (hreaches : Reaches (m.stepAt cm.body) 0 (.ofArgs args) h₀ q f h) :
    Placed m source cm args h₀ q f h := by
  induction hreaches with
  | start => exact .begun .start
  | @step fuel q q' f f' h h' s _ htaken hafter ih =>
    cases ih with
    | @begun k _ _ reached =>
      cases hi : source.code[k]? with
      | none =>
        rw [stepAt_beyond hlinked hi, sourceStepAt_beyond hi] at htaken
        cases htaken
      | some i =>
        cases hreplaced : replacement? cm.sites k with
        | none =>
          rw [stepAt_kept hlinked hi hreplaced] at htaken
          have hnext : position cm.sites (k + 1) = position cm.sites k + 1 :=
            Layout.position_succ_of_kept hreplaced
          cases hstep : m.sourceStepAt cm.sites source fuel k f h with
          | mk result h'' =>
            rw [hstep] at htaken
            cases result with
            | error halt => simp [Except.map] at htaken
            | ok s' =>
              simp only [Prod.map, Except.map, id, Prod.mk.injEq, Except.ok.injEq] at htaken
              obtain ⟨rfl, rfl⟩ := htaken
              cases s' with
              | next f'' =>
                cases hafter
                rw [← hnext]
                exact .begun (.step reached hstep rfl)
              | jump target f'' =>
                cases hafter
                exact .begun (.step reached hstep rfl)
              | leave result => cases hafter
        | some c =>
          exact placed_of_construction hlinked reached hi hreplaced (Nat.zero_le 3)
            (Nat.zero_le _) htaken hafter
    | within reached hi hreplaced hle hpopped =>
      exact placed_of_construction hlinked reached hi hreplaced hle hpopped htaken hafter

/-- At a pop of a construction the stack begins with the constants still to be discarded. -/
theorem constants_of_reaches (hlinked : Linked source cm) (hsites : Windowed cm.sites source)
    {q j : Nat} {c : ClassId}
    (hreaches : Reaches (m.stepAt cm.body) 0 (.ofArgs args) h₀ q f h)
    (hreplaced : replacement? cm.sites k = some c) (hj : j < 3)
    (hq : q = position cm.sites k + j) :
    ∃ rest, f.stack = List.replicate (3 - j) .constant ++ rest := by
  have hwidth := Layout.width_of_replaced hreplaced
  have hloaded {f : Frame} {h : Heap}
      (hreached : Reaches (m.sourceStepAt cm.sites source) 0 (.ofArgs args) h₀ k f h) :
      ∃ rest, f.stack = List.replicate 3 .constant ++ rest := by
    have hstack := loaded_of_reaches hsites hreached k c hreplaced le_rfl
    rwa [Nat.add_sub_cancel_left] at hstack
  cases placed_of_reaches hlinked hreaches with
  | @begun k' _ _ hreached =>
    have hplace : position cm.sites k' + 0 = position cm.sites k + j := hq
    obtain ⟨rfl, rfl⟩ := Layout.position_add_inj Layout.width_pos (by omega) hplace
    exact hloaded hreached
  | within hreached hi hreplaced' hle hpopped =>
    have hwidth' := Layout.width_of_replaced hreplaced'
    obtain ⟨rfl, rfl⟩ := Layout.position_add_inj (by omega) (by omega) hq
    obtain ⟨rest, hrest⟩ := hloaded hreached
    refine ⟨rest, ?_⟩
    dsimp only
    rw [hrest, List.drop_append_of_le_length (by simpa using hle), List.drop_replicate]

end Machine

namespace Compile

variable {settings : Settings} {c : SourceClass} {source : SourceMethod} {cm : CompiledMethod}
  {space : Workspace}

/-- What compiling a method preserves, with the workspace that compiling its class has left. -/
structure PreservesMeaning (settings : Settings) (c : SourceClass) (space : Workspace)
    (source : SourceMethod) (cm : CompiledMethod) : Prop where
  /-- Every site stands for the accessor of the field that the window of its call names. -/
  stands : ∀ site ∈ cm.sites, ∃ f a, Stands settings c source space site f a
  /-- The source machine constructs what the sites say. -/
  replaced : ∀ k a, Layout.replacement? cm.sites k = some a ↔ ⟨k, a⟩ ∈ cm.sites
  /-- Over all classes, accessors, arguments and heaps, the outcome is that of the source. -/
  outcome : ∀ (m : Machine) (args : List Value) (h : Heap),
    SameOutcome (fun fuel => m.execute fuel cm.body args h)
      (fun fuel => m.executeSource cm.sites source fuel args h)
  /-- At a replaced call of the source the stack begins with three constants. -/
  sourceStack : ∀ (m : Machine) (args : List Value) (h₀ : Heap) (k : Nat) (a : ClassId)
    (f : Frame) (h : Heap), Layout.replacement? cm.sites k = some a →
    Machine.Reaches (m.sourceStepAt cm.sites source) 0 (.ofArgs args) h₀ k f h →
    ∃ rest, f.stack = List.replicate 3 .constant ++ rest
  /-- At an inserted pop the stack begins with the constants not yet discarded. -/
  stack : ∀ (m : Machine) (args : List Value) (h₀ : Heap) (k : Nat) (a : ClassId) (f : Frame)
    (h : Heap), Layout.replacement? cm.sites k = some a → ∀ j < 3,
    Machine.Reaches (m.stepAt cm.body) 0 (.ofArgs args) h₀ (Layout.position cm.sites k + j) f h →
    ∃ rest, f.stack = List.replicate (3 - j) .constant ++ rest
  /-- A jump of the source lands within it or at its end, and so does the compiled jump. -/
  jump : ∀ k i target, source.code[k]? = some i → i.branchTarget? = some target →
    target ≤ source.code.size ∧ cm.body.code[Layout.position cm.sites k]? =
      some { i with operand := .target (Layout.position cm.sites target) }
  /-- The end of the source is at the end of the compiled code. -/
  size : cm.body.code.size = Layout.position cm.sites source.code.size

/-- Sites that stand for fields are where static calls end straight windows. -/
private theorem windowed_of_stands
    (hstands : ∀ site ∈ cm.sites, ∃ f a, Stands settings c source space site f a) :
    Machine.Windowed cm.sites source := by
  intro p a hp
  obtain ⟨f, _, hstands⟩ := hstands _ (mem_of_replacement? hp)
  obtain ⟨i, hi, hfactory⟩ := hstands.factory
  exact ⟨Window.straight_of_target? hstands.matched, i, hi,
    Settings.opcode_of_isFactoryCall hfactory⟩

/-- A method that follows its source, with sites that stand for fields, preserves meaning. -/
theorem preservesMeaning_of_linked (hlinked : Layout.Linked source cm)
    (hstands : ∀ site ∈ cm.sites, ∃ f a, Stands settings c source space site f a) :
    PreservesMeaning settings c space source cm where
  stands := hstands
  replaced k a := ⟨mem_of_replacement?, fun hmem => replacement?_of_mem hstands hmem⟩
  outcome m args h := Machine.sameOutcome_of_linked hlinked m args h
  sourceStack m args h₀ k a f h hreplaced hreaches := by
    have hstack := Machine.loaded_of_reaches (windowed_of_stands hstands) hreaches k a hreplaced
      le_rfl
    rwa [Nat.add_sub_cancel_left] at hstack
  stack m args h₀ k a f h hreplaced j hj hreaches :=
    Machine.constants_of_reaches hlinked (windowed_of_stands hstands) hreaches hreplaced hj rfl
  jump k i target hi htarget := by
    have hkept : Layout.replacement? cm.sites k = none := by
      cases hreplaced : Layout.replacement? cm.sites k with
      | none => rfl
      | some a =>
        obtain ⟨-, i', hi', hop⟩ := windowed_of_stands hstands k a hreplaced
        obtain rfl := Option.some.inj (hi.symm.trans hi')
        simp [Instr.branchTarget?, hop, Opcode.isBranch] at htarget
    obtain ⟨i', hi', hrelocated⟩ := hlinked.kept k i hi hkept
    simp only [Layout.Relocated, htarget] at hrelocated
    exact ⟨hrelocated.1, hrelocated.2 ▸ hi'⟩
  size := hlinked.size

end Compile

/-- Compiling a class preserves the meaning of each of its methods. -/
theorem SourceClass.compile_preserves_meaning {c : SourceClass} {settings : Settings}
    {space space' : Workspace} {mode : Arithmetic} {compiled : CompiledClass}
    (h : c.compile settings space mode = (.ok compiled, space')) :
    List.Forall₂ (Compile.PreservesMeaning settings c space') c.methods compiled.methods := by
  obtain ⟨-, -, hmethods⟩ := of_compile h
  refine hmethods.imp ?_
  rintro source cm ⟨before, after, -, hmethod, hafter⟩
  obtain ⟨hlinked, -, hstands⟩ := Compile.linked_of_method hmethod
  refine Compile.preservesMeaning_of_linked hlinked fun site hsite => ?_
  obtain ⟨f, a, hstand⟩ := hstands site hsite
  exact ⟨f, a, hstand.grows hafter⟩

/-- The factory call of the sample is replaced, and its method keeps its meaning. -/
theorem SourceClass.compile_preserves_meaning_node :
    ∃ compiled, (Sample.node.compile {} Sample.space).1 = .ok compiled ∧ compiled.applied = 1 ∧
      List.Forall₂ (Compile.PreservesMeaning {} Sample.node (Sample.node.compile {} Sample.space).2)
        Sample.node.methods compiled.methods := by
  have happlied := Sample.applied_node
  cases hcompile : Sample.node.compile {} Sample.space with
  | mk result space' =>
    rw [hcompile] at happlied
    cases result with
    | error err => cases happlied
    | ok compiled =>
      exact ⟨compiled, rfl, Option.some.inj happlied, compile_preserves_meaning hcompile⟩

end FieldUpdater
