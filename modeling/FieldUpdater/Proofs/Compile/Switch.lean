import FieldUpdater.Proofs.Assembler.Linking
import FieldUpdater.Proofs.Compile.Arguments
import FieldUpdater.Proofs.Compile.Coverage
import FieldUpdater.Proofs.Compile.Lockstep
import FieldUpdater.Proofs.Compile.Operands
import FieldUpdater.Proofs.Compile.Recompile

/-!
# Compiling with and without substitution

A class compiled with substitution goes through the same depths of the stack model as without:
a construction does to the stack model what the call does that it replaces, as long as the
factory takes three arguments and leaves a result. Both compilations therefore fail alike, unless
the class of an accessor is refused, and when both succeed they differ at the replaced calls only.
In wrapping arithmetic the depth can have wrapped before a call, which then fails in both.
-/

namespace FieldUpdater

namespace Assembler

variable {a b : Assembler} {handlers : List Handler} {index : Nat}

/-- Assemblers whose stack models are in the same state and whose jumps name the same source
instructions. -/
structure Abreast (a b : Assembler) : Prop where
  depth : b.depth = a.depth
  maxDepth : b.maxDepth = a.maxDepth
  afterTerminator : b.afterTerminator = a.afterTerminator
  branchDepths : b.branchDepths = a.branchDepths
  jumps : b.jumps = a.jumps
  arithmetic : b.arithmetic = a.arithmetic

theorem Abreast.refl (a : Assembler) : a.Abreast a := ⟨rfl, rfl, rfl, rfl, rfl, rfl⟩

theorem Abreast.beginSource (h : a.Abreast b) (index : Nat) :
    (a.beginSource index).Abreast (b.beginSource index) := by
  unfold Assembler.beginSource
  dsimp only
  rw [h.afterTerminator, h.branchDepths]
  split
  · exact ⟨rfl, h.maxDepth, rfl, rfl, h.jumps, h.arithmetic⟩
  · exact ⟨h.depth, h.maxDepth, rfl, rfl, h.jumps, h.arithmetic⟩

theorem Abreast.enter (h : a.Abreast b) (handlers : List Handler) (index : Nat) :
    (Compile.enter handlers index a).Abreast (Compile.enter handlers index b) := by
  unfold Compile.enter
  dsimp only
  split
  · have hbegun := h.beginSource index
    exact ⟨rfl, congrArg (max · 1) hbegun.maxDepth, rfl, hbegun.branchDepths, hbegun.jumps,
      hbegun.arithmetic⟩
  · exact h.beginSource index

theorem Abreast.extended (h : a.Abreast b) (i : Instr) (pops pushes : UInt16) :
    (a.extended i pops pushes).Abreast (b.extended i pops pushes) where
  depth := by rw [extended_depth, extended_depth, h.depth]
  maxDepth := by rw [extended_maxDepth, extended_maxDepth, h.depth, h.maxDepth]
  afterTerminator := rfl
  branchDepths := by
    unfold Assembler.extended
    dsimp only
    rw [h.depth, h.branchDepths]
  jumps := by rw [jumps_extended, jumps_extended, h.jumps]
  arithmetic := h.arithmetic

/-- An instruction is accepted or rejected alike. -/
theorem Abreast.appendWith (h : a.Abreast b) (i : Instr) (pops pushes : UInt16) :
    Agree Abreast (Compile.kept (a.appendWith i pops pushes))
      (Compile.kept (b.appendWith i pops pushes)) := by
  rcases appendWith_congr (rfl : i.opcode = i.opcode) h.depth h.arithmetic pops pushes with
    ⟨hfirst, hsecond⟩ | ⟨err, hfirst, hsecond⟩
  · rw [hfirst, hsecond]
    exact .ok (h.extended i pops pushes)
  · rw [hfirst, hsecond]
    exact .error

/-- The construction of an object keeps abreast of a call that takes three arguments and leaves
a result. -/
theorem Abreast.construction {a' : Assembler} {i : Instr} {k : ClassId} (h : a.Abreast b)
    (hopcode : i.opcode = .invokestatic) (hdepth : 3 ≤ a.depth.toNat)
    (hmax : a.depth.toNat ≤ a.maxDepth.toNat)
    (happended : a.appendAll (Layout.constructionOf k) = (.ok (), a')) :
    a'.Abreast (b.extended i 3 1) := by
  obtain ⟨a'', happended', hdepth', hmax', hbranches, hfalls, hcode⟩ :=
    Layout.appendAll_constructionOf k hdepth hmax
  obtain rfl : a' = a'' := by
    rw [happended] at happended'
    exact (Prod.mk.inj happended').2
  have hnone : i.branchTarget? = none := by simp [Instr.branchTarget?, hopcode, Opcode.isBranch]
  have hless : (a.depth - 3 + 1).toNat ≤ a.maxDepth.toNat := by
    have hword := a.depth.toNat_lt
    have hleft : (a.depth - 3 + 1).toNat = a.depth.toNat - 3 + 1 :=
      Arithmetic.toNat_depth hdepth (by change a.depth.toNat - 3 + 1 < 65536; omega)
    omega
  constructor
  · rw [extended_depth, h.depth, hdepth']
  · rw [extended_maxDepth, h.depth, h.maxDepth, hmax', Arithmetic.max_eq_left hless]
  · rw [extended_afterTerminator, hopcode, hfalls]
    rfl
  · unfold Assembler.extended
    dsimp only
    rw [hnone, h.branchDepths, hbranches]
  · have hjumps : a'.jumps = a.jumps := by
      unfold Assembler.jumps
      rw [hcode]
      simp [Layout.constructionOf, Instr.branchTarget?, Opcode.isBranch]
    rw [jumps_extended, hnone, h.jumps, hjumps, Option.toList_none, List.append_nil]
  · have hsame := a.arithmetic_appendAll (Layout.constructionOf k)
    rw [happended] at hsame
    exact h.arithmetic.trans hsame.symm

end Assembler

/-- The labels missing in a laid out draft are those after its end. -/
theorem Layout.LaidOut.missing_closedLabels {code : Array Instr} {d : Draft} {size : Nat}
    (h : LaidOut code d size) (k : Nat) : Assembler.missing d.assembler.closedLabels k =
      if k ≤ size then none else some (.undefinedLabel k) := by
  rw [← Assembler.failure?_position, h.position_closedLabels]
  split <;> rfl

/-- Drafts of one method that are abreast link in agreement, with the same stack size. -/
theorem Layout.LaidOut.agree_link {code : Array Instr} {d d' : Draft} {size : Nat}
    (h : LaidOut code d size) (h' : LaidOut code d' size)
    (habreast : d.assembler.Abreast d'.assembler) (name descriptor : String)
    (handlers : List Handler) :
    Agree (fun body body' => body'.maxStack = body.maxStack)
      (d.assembler.link name descriptor handlers)
      (d'.assembler.link name descriptor handlers) := by
  have hmissing : Assembler.missing d'.assembler.closedLabels =
      Assembler.missing d.assembler.closedLabels := by
    funext k
    rw [h.missing_closedLabels, h'.missing_closedLabels]
  apply agree_of_failure?
  · rw [Assembler.failure?_link, Assembler.failure?_link, habreast.jumps, hmissing]
  · intro body body' hlink hlink'
    rw [(Assembler.of_link hlink).maxStack, (Assembler.of_link hlink').maxStack,
      habreast.maxDepth]

/-- The class of an accessor cannot be defined, for want of the class to extend or otherwise. -/
def SynthesisError.IsRefusal (err : SynthesisError) : Prop :=
  (∃ name source, err = .baseTypeMissing name source) ∨ ∃ source, err = .defineType source

/-- A request for an accessor fails only if its class is refused. -/
theorem Workspace.isRefusal_of_synthesize {w : Workspace} {baseType : String} {f : Field}
    {err : SynthesisError} (h : (w.synthesize baseType f).1 = .error err) : err.IsRefusal := by
  have hsynthesized := w.synthesized baseType f
  rw [h] at hsynthesized
  generalize (w.synthesize baseType f).2 = w' at hsynthesized
  cases hsynthesized with
  | baseMissing _ _ => exact .inl ⟨_, _, rfl⟩
  | undefinable _ _ _ => exact .inr ⟨_, rfl⟩

namespace Compile

/-- How a compilation with substitution ends compared to one without: with related results, with
the same error, or because the class of an accessor is refused. -/
inductive Follows {α β : Type} (R : α → β → Prop) :
    Except CompileError α → Except CompileError β → Prop
  | ok {x : α} {y : β} (related : R x y) : Follows R (.ok x) (.ok y)
  | error {err : CompileError} : Follows R (.error err) (.error err)
  | refused {err : SynthesisError} {y : Except CompileError β} (refusal : err.IsRefusal) :
      Follows R (.error (.synthesis err)) y
  /-- Fewer arguments are counted than the call takes. -/
  | starved {source : AssemblyError} {err : CompileError} :
      Follows R (.error (.synthesis (.assembly source))) (.error err)

theorem Follows.imp {α β : Type} {R S : α → β → Prop} {x : Except CompileError α}
    {y : Except CompileError β} (h : Follows R x y)
    (hRS : ∀ a b, x = .ok a → y = .ok b → R a b → S a b) : Follows S x y := by
  cases h with
  | ok hrelated => exact .ok (hRS _ _ rfl rfl hrelated)
  | error => exact .error
  | refused hrefusal => exact .refused hrefusal
  | starved => exact .starved

variable {on off : Settings} {c : SourceClass} {m : SourceMethod} {cm : CompiledMethod}
  {s u u' : Workspace} {index : Nat} {i : Instr} {d d' : Draft}

/-- Without substitution every instruction is kept. -/
theorem instr_of_disabled (hoff : off.enabled = false) (d : Draft) (u : Workspace) :
    instr off c m (Flow.flags m.code m.handlers) index i d u =
      ((keep c index i (enter m.handlers index d.assembler)).map (⟨·, d.sites⟩), u) := by
  have hkept : replaced? off c m index i u.table = none :=
    replaced?_eq_none_iff.mpr fun hfactory =>
      absurd hfactory (by simp [Settings.isFactoryCall_of_disabled hoff])
  rw [instr_eq, hkept]

/-- Without substitution nothing happens to the workspace. -/
theorem kept_of_disabled (hoff : off.enabled = false) (c : SourceClass) (u : Workspace) :
    KeptByInstr off c (· = u) := by
  intro m index i d space h
  rw [instr_of_disabled hoff, h]

/-- Unless its class is refused, an accessor is constructed exactly where three arguments are
counted. -/
theorem construct_result {a : Assembler} (hmax : a.depth.toNat ≤ a.maxDepth.toNat)
    (settings : Settings) (index : Nat) (f : Field) (sites : Array Site) (w : Workspace) :
    (∃ err : SynthesisError, err.IsRefusal ∧
      (construct settings index f a sites w).1 = .error (.synthesis err)) ∨
    (∃ k b, 3 ≤ a.depth.toNat ∧ a.appendAll (Layout.constructionOf k) = (.ok (), b) ∧
      (construct settings index f a sites w).1 = .ok ⟨b, sites.push ⟨index, k⟩⟩) ∨
    ∃ source, a.depth.toNat < 3 ∧
      (construct settings index f a sites w).1 = .error (.synthesis (.assembly source)) := by
  unfold construct
  cases hrequested : w.synthesize settings.baseType f with
  | mk result w' =>
    cases result with
    | error err =>
      have herror : (w.synthesize settings.baseType f).1 = .error err := by rw [hrequested]
      exact .inl ⟨err, Workspace.isRefusal_of_synthesize herror, rfl⟩
    | ok accessor =>
      have hconstruction : a.appendAll accessor.constructionCode =
        a.appendAll (Layout.constructionOf accessor.classId) := rfl
      dsimp only
      rw [hconstruction]
      by_cases hdepth : 3 ≤ a.depth.toNat
      · obtain ⟨b, happended, -⟩ := Layout.appendAll_constructionOf accessor.classId hdepth hmax
        exact .inr (.inl ⟨accessor.classId, b, hdepth, happended, by rw [happended]⟩)
      · cases happended : a.appendAll (Layout.constructionOf accessor.classId) with
        | mk answer b =>
          cases answer with
          | error source => exact .inr (.inr ⟨source, Nat.lt_of_not_le hdepth, rfl⟩)
          | ok _ => exact absurd (Layout.three_le_depth_of_appendAll happended) hdepth

/-- Without substitution a factory call is kept exactly where three arguments are counted. -/
theorem keep_factoryCall (index : Nat) (a : Assembler)
    (hdescriptor : on.factoryDescriptor = ({} : Settings).factoryDescriptor)
    (hfactory : on.isFactoryCall c.pool i = true) :
    (3 ≤ a.depth.toNat ∧ keep c index i a = .ok (a.extended i 3 1)) ∨
      ∃ err, a.depth.toNat < 3 ∧ keep c index i a = .error err := by
  have heffect := Settings.modelEffect?_of_isFactoryCall a.arithmetic hdescriptor hfactory
  by_cases hdepth : 3 ≤ a.depth.toNat
  · have hroom : a.depth.toNat - (3 : UInt16).toNat + (1 : UInt16).toNat < 65536 := by
      have hword := a.depth.toNat_lt
      change a.depth.toNat - 3 + 1 < 65536
      omega
    exact .inl ⟨hdepth, keep_eq_ok_iff.mpr
      ⟨3, 1, heffect, Assembler.appendWith_eq_ok_iff.mpr ⟨.of_lt hdepth hroom, rfl⟩⟩⟩
  · cases hkeep : keep c index i a with
    | error err => exact .inr ⟨err, Nat.lt_of_not_le hdepth, rfl⟩
    | ok b =>
      obtain ⟨pops, pushes, heffect', happended⟩ := keep_eq_ok_iff.mp hkeep
      obtain ⟨rfl, rfl⟩ := Prod.mk.inj (Option.some.inj (heffect'.symm.trans heffect))
      exact absurd (Assembler.appendWith_eq_ok_iff.mp happended).1.enough hdepth

/-- An instruction is compiled in agreement, whether it is kept or replaced. -/
theorem instr_follows (index : Nat) (i : Instr)
    (hdescriptor : on.factoryDescriptor = ({} : Settings).factoryDescriptor)
    (hoff : off.enabled = false) (hbounded : d.assembler.Bounded)
    (h : d.assembler.Abreast d'.assembler) (s u : Workspace) :
    Follows (fun d d' => d.assembler.Abreast d'.assembler)
      (instr on c m (Flow.flags m.code m.handlers) index i d s).1
      (instr off c m (Flow.flags m.code m.handlers) index i d' u).1 := by
  have hentered := h.enter m.handlers index
  rw [instr_of_disabled hoff, instr_eq]
  cases hreplaced : replaced? on c m index i s.table with
  | none =>
    have hkeep : Agree Assembler.Abreast (keep c index i (enter m.handlers index d.assembler))
        (keep c index i (enter m.handlers index d'.assembler)) :=
      keep_agree_of hentered.arithmetic.symm fun pops pushes => hentered.appendWith i pops pushes
    generalize keep c index i (enter m.handlers index d.assembler) = x at hkeep ⊢
    generalize keep c index i (enter m.handlers index d'.assembler) = y at hkeep ⊢
    cases hkeep with
    | ok habreast => exact .ok habreast
    | error => exact .error
  | some f =>
    obtain ⟨hfactory, -⟩ := replaced?_eq_some_iff.mp hreplaced
    have hmax := (bounded_enter hbounded m.handlers index).depth
    -- Both find the same number of arguments, and both take three.
    have hkeep := keep_factoryCall index (enter m.handlers index d'.assembler) hdescriptor hfactory
    rw [hentered.depth] at hkeep
    dsimp only
    rcases construct_result hmax on index f d.sites s with
      ⟨err, hrefusal, hresult⟩ | ⟨k, a, hdepth, happended, hresult⟩ | ⟨source, hdepth, hresult⟩
    · rw [hresult]
      exact .refused hrefusal
    · obtain ⟨-, hkept⟩ := hkeep.resolve_right fun ⟨_, hless, _⟩ => by omega
      rw [hresult, hkept]
      exact .ok (hentered.construction (Settings.opcode_of_isFactoryCall hfactory) hdepth hmax
        happended)
    · obtain ⟨err, -, herror⟩ := hkeep.resolve_left fun ⟨hle, _⟩ => by omega
      rw [hresult, herror]
      exact .starved

/-- The rest of a method is compiled in agreement. -/
theorem instrs_follow (hdescriptor : on.factoryDescriptor = ({} : Settings).factoryDescriptor)
    (hoff : off.enabled = false) {is : List Instr} : ∀ (index : Nat) (d d' : Draft)
    (s u : Workspace), m.code.toList.drop index = is →
    d.assembler.Bounded → d.assembler.Abreast d'.assembler →
    Follows (fun d d' => d.assembler.Abreast d'.assembler)
      (instrs on c m (Flow.flags m.code m.handlers) index is d s).1
      (instrs off c m (Flow.flags m.code m.handlers) index is d' u).1 := by
  induction is with
  | nil => exact fun _ _ _ _ _ _ _ h => .ok h
  | cons i is ih =>
    intro index d d' s u hsuffix hbounded h
    obtain ⟨hi, hrest⟩ := getElem?_of_drop hsuffix
    have hinstr := instr_follows (c := c) (m := m) index i hdescriptor hoff hbounded h s u
    have hmeasured {d₁ : Draft} {s₁ : Workspace}
        (hok : instr on c m (Flow.flags m.code m.handlers) index i d s = (.ok d₁, s₁)) :
        d₁.assembler.Bounded := (compiled_of_instr hok).bounded hbounded
    unfold instrs
    generalize instr on c m (Flow.flags m.code m.handlers) index i d s = x at *
    generalize instr off c m (Flow.flags m.code m.handlers) index i d' u = y at *
    obtain ⟨x, s₁⟩ := x
    obtain ⟨y, u₁⟩ := y
    cases hinstr with
    | ok habreast => exact ih _ _ _ _ _ hrest (hmeasured rfl) habreast
    | error => exact .error
    | refused hrefusal => exact .refused hrefusal
    | starved => exact .starved

end Compile

/-- A method that is left as it is. -/
def SourceMethod.verbatim (m : SourceMethod) (maxStack : UInt16) : CompiledMethod :=
  ⟨⟨m.name, m.descriptor, m.code, m.handlers, maxStack⟩, #[]⟩

/-- A class whose methods are left as they are, with the stack sizes of a compiled class. -/
def SourceClass.verbatim (c : SourceClass) (compiled : CompiledClass) : CompiledClass :=
  ⟨c.thisClass, List.zipWith (fun m cm => m.verbatim cm.body.maxStack) c.methods compiled.methods⟩

namespace Layout

variable {m : SourceMethod} {cm : CompiledMethod} {i i' : Instr} {size : Nat}

/-- Where nothing is replaced, jumps go where they went. -/
theorem Relocated.eq_of_empty (h : Relocated #[] size i i') : i' = i := by
  unfold Relocated at h
  split at h
  · exact h
  · rename_i target htarget
    rw [h.2, Compile.position_empty, Instr.withTarget htarget]

/-- Where nothing is replaced, code and handlers stay. -/
theorem Arranged.eq_of_empty (h : Arranged m cm) (hsites : cm.sites = #[]) :
    cm.body.code = m.code ∧ cm.body.handlers = m.handlers := by
  constructor
  · refine Array.ext (by rw [h.size, hsites, Compile.position_empty]) fun k hk' hk => ?_
    have hkept : replacement? cm.sites k = none := by rw [hsites]; rfl
    obtain ⟨i, hi, hrelocated⟩ := h.kept k m.code[k] (Array.getElem?_eq_getElem hk) hkept
    rw [hsites] at hi hrelocated
    rw [Compile.position_empty, Array.getElem?_eq_getElem hk'] at hi
    rw [Option.some.inj hi, hrelocated.eq_of_empty]
  · have hstays : relocateHandler #[] = id := by
      funext handler
      simp only [relocateHandler, Compile.position_empty, id_eq]
    rw [h.handlers, hsites, hstays, List.map_id]

end Layout

namespace Compile

variable {on off : Settings} {c : SourceClass} {m : SourceMethod} {cm : CompiledMethod}
  {u u' : Workspace} {mode : Arithmetic}

/-- Without substitution a method is left as it is. -/
theorem eq_verbatim_of_method (hoff : off.enabled = false)
    (h : method off c m u mode = (.ok cm, u')) : cm = m.verbatim cm.body.maxStack := by
  obtain ⟨d, hinstrs, hlink, hsites⟩ := of_method h
  have hnone : d.sites = #[] := by
    refine instrs_invariant (P := fun _ d _ => d.sites = #[]) ?_ rfl hinstrs
    intro index i d space d' space' _ hd hc
    cases hc with
    | kept _ _ _ => exact hd
    | replaced hfactory _ _ _ =>
      exact absurd hfactory (by simp [Settings.isFactoryCall_of_disabled hoff])
  obtain ⟨hcode, hhandlers⟩ := (arranged_of_method h).eq_of_empty (hsites.trans hnone)
  obtain ⟨⟨name, descriptor, code, handlers, maxStack⟩, sites⟩ := cm
  obtain rfl : name = m.name := (Assembler.of_link hlink).name
  obtain rfl : descriptor = m.descriptor := (Assembler.of_link hlink).descriptor
  obtain rfl : code = m.code := hcode
  obtain rfl : handlers = m.handlers := hhandlers
  obtain rfl : sites = #[] := hsites.trans hnone
  rfl

/-- The stack size of a method is the same. -/
theorem maxStack_follows (hdescriptor : on.factoryDescriptor = ({} : Settings).factoryDescriptor)
    (hoff : off.enabled = false) (mode : Arithmetic) (m : SourceMethod) (s u : Workspace) :
    Follows (fun cm cm' => cm'.body.maxStack = cm.body.maxStack)
      (method on c m s mode).1 (method off c m u mode).1 := by
  let start : Draft := { assembler := { arithmetic := mode } }
  have hinstrs := instrs_follow (c := c) (m := m) hdescriptor hoff 0 start start s u List.drop_zero
    (Assembler.bounded_empty mode) (.refl _)
  unfold method
  cases hon : instrs on c m (Flow.flags m.code m.handlers) 0 m.code.toList start s with
  | mk x s' =>
    cases hoff' : instrs off c m (Flow.flags m.code m.handlers) 0 m.code.toList start u with
    | mk y u' =>
      rw [hon, hoff'] at hinstrs
      cases hinstrs with
      | error => exact .error
      | refused hrefusal => exact .refused hrefusal
      | starved => exact .starved
      | @ok d d' habreast =>
        have hlink := (laidOut_of_instrs hon).agree_link (laidOut_of_instrs hoff') habreast
          m.name m.descriptor m.handlers
        dsimp only
        generalize d.assembler.link m.name m.descriptor m.handlers = body at hlink ⊢
        generalize d'.assembler.link m.name m.descriptor m.handlers = body' at hlink ⊢
        cases hlink with
        | error => exact .error
        | ok hmax => exact .ok hmax

/-- A method is compiled in agreement. -/
theorem method_follows (hdescriptor : on.factoryDescriptor = ({} : Settings).factoryDescriptor)
    (hoff : off.enabled = false) (mode : Arithmetic) (m : SourceMethod) (s u : Workspace) :
    Follows (fun cm cm' => Layout.Arranged m cm ∧ cm' = m.verbatim cm.body.maxStack)
      (method on c m s mode).1 (method off c m u mode).1 := by
  apply (maxStack_follows hdescriptor hoff mode m s u).imp
  intro cm cm' hon hoff' hmax
  have hverbatim := eq_verbatim_of_method hoff (Prod.ext hoff' rfl)
  rw [hmax] at hverbatim
  exact ⟨arranged_of_method (Prod.ext hon rfl), hverbatim⟩

/-- Methods are compiled in agreement. -/
theorem methods_follow (hdescriptor : on.factoryDescriptor = ({} : Settings).factoryDescriptor)
    (hoff : off.enabled = false) (mode : Arithmetic) (ms : List SourceMethod) :
    ∀ (done done' : Array CompiledMethod) (s u : Workspace),
    Follows (fun xs ys => ∃ cms, xs = done.toList ++ cms ∧ List.Forall₂ Layout.Arranged ms cms ∧
        ys = done'.toList ++ List.zipWith (fun m cm => m.verbatim cm.body.maxStack) ms cms)
      (methods on c ms done s mode).1 (methods off c ms done' u mode).1 := by
  induction ms with
  | nil => exact fun done done' _ _ => .ok ⟨[], by simp, .nil, by simp⟩
  | cons m ms ih =>
    intro done done' s u
    have hmethod := method_follows (c := c) hdescriptor hoff mode m s u
    unfold methods
    generalize method on c m s mode = x at *
    generalize method off c m u mode = y at *
    obtain ⟨x, s'⟩ := x
    obtain ⟨y, u'⟩ := y
    cases hmethod with
    | error => exact .error
    | refused hrefusal => exact .refused hrefusal
    | starved => exact .starved
    | @ok cm cm' hrelated =>
      obtain ⟨harranged, rfl⟩ := hrelated
      apply (ih (done.push cm) (done'.push _) s' u').imp
      rintro xs ys - - ⟨cms, rfl, hall, rfl⟩
      exact ⟨cm :: cms, by simp, .cons harranged hall, by simp⟩

/-- A class is compiled in agreement. -/
theorem compile_follows (hdescriptor : on.factoryDescriptor = ({} : Settings).factoryDescriptor)
    (hoff : off.enabled = false) (c : SourceClass) (mode : Arithmetic) (s u : Workspace) :
    Follows (fun x y => List.Forall₂ Layout.Arranged c.methods x.methods ∧ y = c.verbatim x)
      (c.compile on s mode).1 (c.compile off u mode).1 := by
  have hmethods := methods_follow (c := c) hdescriptor hoff mode c.methods #[] #[] s u
  unfold SourceClass.compile
  generalize methods on c c.methods #[] s mode = x at *
  generalize methods off c c.methods #[] u mode = y at *
  obtain ⟨x, s'⟩ := x
  obtain ⟨y, u'⟩ := y
  cases hmethods with
  | error => exact .error
  | refused hrefusal => exact .refused hrefusal
  | starved => exact .starved
  | ok hrelated =>
    obtain ⟨cms, rfl, hall, rfl⟩ := hrelated
    exact .ok ⟨by simpa using hall, by simp [SourceClass.verbatim]⟩

end Compile

/-- Substitution changes nothing but the calls that it replaces, as long as the factory has the
default descriptor. If compiling with it succeeds, compiling without it leaves every method as it
is, with the same stack size, and the code is shorter by three instructions for each replaced
call. If compiling without it succeeds, compiling with it fails only if the class of an accessor
is refused. Any other error is the same in both. Without substitution nothing happens to the
workspace. -/
theorem SourceClass.compile_switch (c : SourceClass) (settings : Settings)
    (hdescriptor : settings.factoryDescriptor = ({} : Settings).factoryDescriptor)
    (mode : Arithmetic) (space : Workspace) :
    let on := c.compile { settings with enabled := true } space mode
    let off := c.compile { settings with enabled := false } space mode
    (∀ compiled, on.1 = .ok compiled → off.1 = .ok (c.verbatim compiled) ∧
      List.Forall₂ (fun m cm => Layout.Arranged m cm ∧
        cm.body.code.size = m.code.size + 3 * cm.applied) c.methods compiled.methods) ∧
    (∀ plain, off.1 = .ok plain → (∃ compiled, on.1 = .ok compiled) ∨
      ∃ err : SynthesisError, err.IsRefusal ∧ on.1 = .error (.synthesis err)) ∧
    (∀ err, on.1 = .error err → (∀ source, err ≠ .synthesis source) → off.1 = .error err) ∧
    off.2 = space := by
  intro on off
  have hon : { settings with enabled := true }.factoryDescriptor =
      ({} : Settings).factoryDescriptor := hdescriptor
  have hoff : ({ settings with enabled := false } : Settings).enabled = false := rfl
  have hfollows : Compile.Follows (fun x y =>
      List.Forall₂ Layout.Arranged c.methods x.methods ∧ y = c.verbatim x) on.1 off.1 :=
    Compile.compile_follows hon hoff c mode space space
  refine ⟨?_, ?_, ?_, (Compile.kept_of_disabled hoff c space).compile rfl⟩
  · intro compiled hcompiled
    rw [hcompiled] at hfollows
    generalize off.1 = y at hfollows ⊢
    cases hfollows with
    | ok hrelated =>
      obtain ⟨harranged, rfl⟩ := hrelated
      refine ⟨rfl, harranged.imp fun m cm h => ⟨h, ?_⟩⟩
      rw [h.size, h.place _ le_rfl, h.applied]
  · intro plain hplain
    rw [hplain] at hfollows
    generalize on.1 = x at hfollows ⊢
    cases hfollows with
    | ok _ => exact .inl ⟨_, rfl⟩
    | refused hrefusal => exact .inr ⟨_, hrefusal, rfl⟩
  · intro err herr hother
    rw [herr] at hfollows
    generalize off.1 = y at hfollows ⊢
    cases hfollows with
    | error => rfl
    | refused _ => exact absurd rfl (hother _)
    | starved => exact absurd rfl (hother _)

/-- The sample compiled without substitution is the sample with the stack size that compiling it
with substitution measures. -/
theorem SourceClass.compile_switch_node : ∃ compiled space',
    Sample.node.compile {} Sample.space = (.ok compiled, space') ∧ compiled.applied = 1 ∧
    Sample.node.compile { enabled := false } Sample.space =
      (.ok (Sample.node.verbatim compiled), Sample.space) := by
  obtain ⟨compiled, space', hcompile, happlied⟩ :=
    exists_eq_ok_of_toOption _ Sample.applied_node
  obtain ⟨hsame, -, -, hspace⟩ := compile_switch Sample.node {} rfl .checked Sample.space
  have hon : (Sample.node.compile {} Sample.space).1 = .ok compiled := by rw [hcompile]
  exact ⟨compiled, space', hcompile, happlied, Prod.ext (hsame compiled hon).1 hspace⟩

end FieldUpdater
