import FieldUpdater.Proofs.Compile.Step
import Mathlib.Data.List.Forall2

/-!
# Compiling whole methods and classes

What every compiled instruction preserves holds at the end of a method, and what
every synthesis preserves holds of the workspace that compiling a class leaves,
whether it succeeds or fails.
-/

namespace FieldUpdater

namespace Compile

variable {settings : Settings} {c : SourceClass} {m : SourceMethod} {flags : Array FlowFlags}
  {mode : Arithmetic}

/-- The rest of the code begins with the instruction at the index reached. -/
theorem getElem?_of_drop {code : Array Instr} {index : Nat} {i : Instr} {is : List Instr}
    (h : code.toList.drop index = i :: is) :
    code[index]? = some i ∧ code.toList.drop (index + 1) = is := by
  constructor
  · have hhead := congrArg (fun l => l[0]?) h
    simpa using hhead
  · rw [← List.tail_drop, h]
    rfl

/-- Instructions that come next preserve what each instruction of the method preserves. -/
private theorem instrs_invariant_from {P : Nat → Draft → Workspace → Prop}
    (hstep : ∀ index i d space d' space', m.code[index]? = some i → P index d space →
      Compiled settings c m index i d space d' space' → P (index + 1) d' space')
    {index : Nat} {is : List Instr} (hnext : is <+: m.code.toList.drop index)
    {d d' : Draft} {space space' : Workspace} (h₀ : P index d space)
    (h : instrs settings c m (Flow.flags m.code m.handlers) index is d space
      = (.ok d', space')) :
    P (index + is.length) d' space' := by
  induction is generalizing index d space with
  | nil =>
    cases h
    exact h₀
  | cons i is ih =>
    unfold instrs at h
    split at h
    · cases h
    · rename_i d₁ space₁ hinstr
      obtain ⟨rest, hrest⟩ := hnext
      obtain ⟨hi, htail⟩ := getElem?_of_drop hrest.symm
      have hafter := hstep index i d space d₁ space₁ hi h₀ (compiled_of_instr hinstr)
      simpa only [List.length_cons, Nat.add_assoc, Nat.add_comm 1] using
        ih ⟨rest, htail.symm⟩ hafter h

/-- The first instructions of a method preserve what each of its instructions preserves. -/
theorem instrs_take_invariant {P : Nat → Draft → Workspace → Prop}
    (hstep : ∀ index i d space d' space', m.code[index]? = some i → P index d space →
      Compiled settings c m index i d space d' space' → P (index + 1) d' space')
    {count : Nat} {d : Draft} {space space' : Workspace}
    (h₀ : P 0 { assembler := { arithmetic := mode } } space)
    (h : instrs settings c m (Flow.flags m.code m.handlers) 0 (m.code.toList.take count)
      { assembler := { arithmetic := mode } } space = (.ok d, space')) :
    P (min count m.code.size) d space' := by
  simpa using instrs_invariant_from hstep (List.take_prefix count _) h₀ h

/-- A method preserves, from its first instruction to its end, what each of its
instructions preserves. -/
theorem instrs_invariant {P : Nat → Draft → Workspace → Prop}
    (hstep : ∀ index i d space d' space', m.code[index]? = some i → P index d space →
      Compiled settings c m index i d space d' space' → P (index + 1) d' space')
    {d : Draft} {space space' : Workspace}
    (h₀ : P 0 { assembler := { arithmetic := mode } } space)
    (h : instrs settings c m (Flow.flags m.code m.handlers) 0 m.code.toList
      { assembler := { arithmetic := mode } } space = (.ok d, space')) :
    P m.code.size d space' := by
  simpa using instrs_invariant_from hstep List.prefix_rfl h₀ h

/-- A compiled method is a linked draft of all its instructions. -/
theorem of_method {cm : CompiledMethod} {space space' : Workspace}
    (h : method settings c m space mode = (.ok cm, space')) :
    ∃ d, instrs settings c m (Flow.flags m.code m.handlers) 0 m.code.toList
        { assembler := { arithmetic := mode } } space = (.ok d, space') ∧
      d.assembler.link m.name m.descriptor m.handlers = .ok cm.body ∧ cm.sites = d.sites := by
  unfold method at h
  split at h
  · cases h
  · rename_i d _ hinstrs
    split at h
    · cases h
    · rename_i body hlink
      cases h
      exact ⟨d, hinstrs, hlink, rfl⟩

/-- Methods that each compile without a trace in the workspace compile together. -/
theorem methods_eq_of_forall₂ {space : Workspace} {ms : List SourceMethod}
    {cms : List CompiledMethod}
    (h : List.Forall₂ (fun m cm => method settings c m space mode = (.ok cm, space)) ms cms)
    (done : Array CompiledMethod) :
    methods settings c ms done space mode = (.ok (done.toList ++ cms), space) := by
  induction h generalizing done with
  | nil => simp [methods]
  | cons hmethod _ ih =>
    unfold methods
    rw [hmethod]
    simpa using ih (done.push _)

/-- Instructions are compiled in order: those of a second part where the first part has led. -/
theorem instrs_append (is js : List Instr) (index : Nat) (d : Draft) (space : Workspace) :
    instrs settings c m flags index (is ++ js) d space =
      match instrs settings c m flags index is d space with
      | (.error err, space) => (.error err, space)
      | (.ok d, space) => instrs settings c m flags (index + is.length) js d space := by
  induction is generalizing index d space with
  | nil => rfl
  | cons i is ih =>
    rw [List.cons_append, instrs, instrs]
    cases instr settings c m flags index i d space with
    | mk result space' =>
      cases result with
      | error err => rfl
      | ok d' => simp only [ih, List.length_cons, Nat.add_assoc, Nat.add_comm 1]

/-- Methods are compiled in order: those of a second part after those of the first. -/
theorem methods_append (ms ns : List SourceMethod) (done : Array CompiledMethod)
    (space : Workspace) : methods settings c (ms ++ ns) done space mode =
      match methods settings c ms done space mode with
      | (.error err, space) => (.error err, space)
      | (.ok cms, space) => methods settings c ns cms.toArray space mode := by
  induction ms generalizing done space with
  | nil => rfl
  | cons m ms ih =>
    rw [List.cons_append, methods, methods]
    cases method settings c m space mode with
    | mk result space' =>
      cases result with
      | error err => rfl
      | ok cm => exact ih _ _

/-- An instruction leaves the workspace alone or asks for the accessor of the field that
its window names. -/
theorem instr_workspace (settings : Settings) (c : SourceClass) (m : SourceMethod) (index : Nat)
    (i : Instr) (d : Draft) (space : Workspace) :
    (instr settings c m (Flow.flags m.code m.handlers) index i d space).2 = space ∨
      ∃ field, (c.window m index).target? space.table = some field ∧
        (instr settings c m (Flow.flags m.code m.handlers) index i d space).2 =
          (space.synthesize settings.baseType field).2 := by
  rw [instr_eq]
  cases hreplaced : replaced? settings c m index i space.table with
  | none => exact .inl rfl
  | some f => exact .inr ⟨f, (replaced?_eq_some_iff.mp hreplaced).2, construct_workspace d.sites⟩

variable {P : Workspace → Prop}

/-- What every instruction of the class keeps, also when it fails. -/
def KeptByInstr (settings : Settings) (c : SourceClass) (P : Workspace → Prop) : Prop :=
  ∀ m index i d space, P space →
    P (instr settings c m (Flow.flags m.code m.handlers) index i d space).2

theorem KeptByInstr.instrs (hP : KeptByInstr settings c P) (is : List Instr) :
    ∀ (index : Nat) (d : Draft) (space : Workspace), P space →
      P (instrs settings c m (Flow.flags m.code m.handlers) index is d space).2 := by
  induction is with
  | nil => exact fun _ _ _ h => h
  | cons i is ih =>
    intro index d space h
    have hinstr := hP m index i d space h
    unfold Compile.instrs
    split
    · rename_i heq
      simpa only [heq] using hinstr
    · rename_i heq
      exact ih _ _ _ (by simpa only [heq] using hinstr)

/-- A method keeps what every instruction keeps. -/
theorem KeptByInstr.method (hP : KeptByInstr settings c P) (m : SourceMethod) {space : Workspace}
    (h : P space) : P (method settings c m space mode).2 := by
  have hall := hP.instrs (m := m) m.code.toList 0 { assembler := { arithmetic := mode } } space h
  unfold Compile.method
  split
  · rename_i heq
    simpa only [heq] using hall
  · rename_i heq
    rw [heq] at hall
    split <;> exact hall

/-- Methods keep what every instruction keeps, also when one of them fails. -/
theorem KeptByInstr.methods (hP : KeptByInstr settings c P) (ms : List SourceMethod)
    (done : Array CompiledMethod) {space : Workspace} (h : P space) :
    P (methods settings c ms done space mode).2 := by
  induction ms generalizing done space with
  | nil => exact h
  | cons m ms ih =>
    have hmethod : P (Compile.method settings c m space mode).2 := hP.method m h
    unfold Compile.methods
    split
    · rename_i heq
      simpa only [heq] using hmethod
    · rename_i heq
      exact ih _ (by simpa only [heq] using hmethod)

/-- Compiling a class keeps what every instruction keeps. -/
theorem KeptByInstr.compile (hP : KeptByInstr settings c P) {space : Workspace} (h : P space) :
    P (c.compile settings space mode).2 := by
  have hall : P (Compile.methods settings c c.methods #[] space mode).2 :=
    hP.methods c.methods #[] h
  unfold SourceClass.compile
  split <;> rename_i heq <;> simpa only [heq] using hall

/-- What every synthesis for a field of the class keeps. -/
def KeptBySynthesis (settings : Settings) (c : SourceClass) (P : Workspace → Prop) : Prop :=
  ∀ m index field space, (c.window m index).target? space.table = some field → P space →
    P (space.synthesize settings.baseType field).2

/-- An instruction keeps what every synthesis keeps. -/
theorem instr_keeps (hP : KeptBySynthesis settings c P) : KeptByInstr settings c P := by
  intro m index i d space h
  rcases instr_workspace settings c m index i d space with heq | ⟨field, hmatched, heq⟩
  · rw [heq]
    exact h
  · rw [heq]
    exact hP m index field space hmatched h

/-- A method keeps what every synthesis keeps, also when it fails. -/
theorem method_keeps (hP : KeptBySynthesis settings c P) (mode : Arithmetic) (m : SourceMethod)
    {space : Workspace} (h : P space) : P (method settings c m space mode).2 :=
  (instr_keeps hP).method m h

/-- Methods keep what every synthesis keeps, also when one of them fails. -/
theorem methods_keep (hP : KeptBySynthesis settings c P) (mode : Arithmetic)
    (ms : List SourceMethod) (done : Array CompiledMethod) {space : Workspace} (h : P space) :
    P (methods settings c ms done space mode).2 :=
  (instr_keeps hP).methods ms done h

end Compile

/-- Compiling a class keeps what every synthesis keeps, also when it fails. -/
theorem SourceClass.compile_keeps {settings : Settings} {c : SourceClass} {mode : Arithmetic}
    {P : Workspace → Prop} (hP : Compile.KeptBySynthesis settings c P) {space : Workspace}
    (h : P space) : P (c.compile settings space mode).2 :=
  (Compile.instr_keeps hP).compile h

end FieldUpdater
