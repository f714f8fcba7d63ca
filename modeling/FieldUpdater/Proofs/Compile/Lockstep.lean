import FieldUpdater.Proofs.Accessors.Additions
import FieldUpdater.Proofs.Accessors.Names
import FieldUpdater.Proofs.Compile.Layout
import FieldUpdater.Proofs.Compile.Steady

/-!
# Two compilations of one class

A class can be compiled in different workspaces that were taken up with the same class table.
Each instruction then has the same fate in both, since its window names the same field: it is
kept, or it becomes the construction of an accessor, found or made. The two compilations go on
in step, fail with the same error or succeed together, and ask for the same fields.
-/

namespace FieldUpdater

/-- Methods that are compiled alike: their code is alike, and the same calls are replaced. -/
structure CompiledMethod.Alike (cm cm' : CompiledMethod) : Prop where
  body : cm.body.Alike cm'.body
  sites : cm'.sites.map (·.index) = cm.sites.map (·.index)

/-- Classes whose methods are compiled alike. -/
structure CompiledClass.Alike (c c' : CompiledClass) : Prop where
  thisClass : c'.thisClass = c.thisClass
  methods : List.Forall₂ CompiledMethod.Alike c.methods c'.methods

/-- Drafts with assemblers that are alike and the same calls replaced. -/
structure Draft.Alike (d d' : Draft) : Prop where
  assembler : d.assembler.Alike d'.assembler
  sites : d'.sites.map (·.index) = d.sites.map (·.index)

namespace Compile

variable {settings : Settings} {c : SourceClass} {m : SourceMethod} {t : ClassTable}
  {s u : Workspace} {index : Nat} {i : Instr} {a b : Assembler} {d d' : Draft} {f : Field}

/-- Two workspaces in which a class is compiled that was taken up with a class table, when the
accessors of its fields can be made. -/
structure InStep (settings : Settings) (c : SourceClass) (t : ClassTable) (s u : Workspace) :
    Prop where
  reachable : t.Reachable
  left : Underway c t s
  right : Underway c t u
  thisClass : c.thisClass.index < t.size
  extensible : t.Extensible settings.baseType

theorem InStep.symm (h : InStep settings c t s u) : InStep settings c t u s :=
  ⟨h.reachable, h.right, h.left, h.thisClass, h.extensible⟩

/-- Two ways of ending from two workspaces: the results agree, and the same fields have been
asked for. -/
structure EndAlike {ε α : Type} (R : α → α → Prop) (s u : Workspace)
    (x y : Except ε α × Workspace) : Prop where
  result : Agree R x.1 y.1
  asked : ∃ keys, s.Asked x.2 keys ∧ u.Asked y.2 keys

/-- The fields asked for are those asked for before and after. -/
theorem EndAlike.after {ε α : Type} {R : α → α → Prop} {s' u' : Workspace}
    {x y : Except ε α × Workspace} (hbefore : ∃ keys, s.Asked s' keys ∧ u.Asked u' keys)
    (h : EndAlike R s' u' x y) : EndAlike R s u x y := by
  obtain ⟨keys, hs, hu⟩ := hbefore
  obtain ⟨keys', hs', hu'⟩ := h.asked
  exact ⟨h.result, keys ∪ keys', hs.trans hs', hu.trans hu'⟩

theorem asked_nothing (s u : Workspace) : ∃ keys, s.Asked s keys ∧ u.Asked u keys :=
  ⟨∅, .refl s, .refl u⟩

/-- Keeping what was appended alike is alike. -/
theorem kept_agree {x y : Except AssemblyError Unit × Assembler}
    (h : Assembler.SameOutcome x y) : Agree Assembler.Alike (kept x) (kept y) := by
  cases h with
  | ok halike => exact .ok halike
  | error => exact .error

/-- An instruction is kept in agreement when what it can be appended as is, by assemblers of one
arithmetic. -/
theorem keep_agree_of {R : Assembler → Assembler → Prop} (hmode : a.arithmetic = b.arithmetic)
    (h : ∀ pops pushes,
      Agree R (kept (a.appendWith i pops pushes)) (kept (b.appendWith i pops pushes))) :
    Agree R (keep c index i a) (keep c index i b) := by
  unfold keep
  split
  · split
    · exact .error
    · split
      · exact .error
      · unfold keepCall
        split
        · exact .error
        · rw [hmode]
          split
          · exact .error
          · exact h _ _
  · unfold keepPlain Assembler.append
    split
    · exact .error
    · exact h _ _

/-- An instruction is kept alike by assemblers that are alike. -/
theorem keep_agree (h : a.Alike b) : Agree Assembler.Alike (keep c index i a) (keep c index i b) :=
  keep_agree_of h.arithmetic fun pops pushes => kept_agree (h.appendWith (.refl i) pops pushes)

/-- An accessor is constructed alike, whether it is found or made. -/
theorem construct_endAlike (hstep : InStep settings c t s u)
    (hdeclaring : f.declaring.index < t.size) (h : a.Alike b) {sites sites' : Array Site}
    (hsites : sites'.map (·.index) = sites.map (·.index)) :
    EndAlike Draft.Alike s u (construct settings index f a sites s)
      (construct settings index f b sites' u) := by
  have hleft := hstep.left.grown
  have hright := hstep.right.grown
  obtain ⟨x, s', hs⟩ := Workspace.exists_synthesize (hstep.extensible.extends hleft)
    (hdeclaring.trans_le hleft.size_le)
  obtain ⟨y, u', hu⟩ := Workspace.exists_synthesize (hstep.extensible.extends hright)
    (hdeclaring.trans_le hright.size_le)
  have hasked : ∃ keys, s.Asked s' keys ∧ u.Asked u' keys :=
    ⟨{f.key}, Workspace.asked_synthesize hs, Workspace.asked_synthesize hu⟩
  have houtcome : Assembler.SameOutcome (a.appendAll x.constructionCode)
      (b.appendAll y.constructionCode) :=
    h.appendAll (Layout.constructionOf_alike x.classId y.classId)
  unfold construct
  rw [hs, hu]
  dsimp only
  generalize a.appendAll x.constructionCode = result at houtcome ⊢
  generalize b.appendAll y.constructionCode = result' at houtcome ⊢
  cases houtcome with
  | ok halike => exact ⟨.ok ⟨halike, by simp [hsites]⟩, hasked⟩
  | error => exact ⟨.error, hasked⟩

/-- An instruction has the same fate in both workspaces. -/
theorem instr_endAlike (hstep : InStep settings c t s u) (h : d.Alike d') :
    EndAlike Draft.Alike s u
      (instr settings c m (Flow.flags m.code m.handlers) index i d s)
      (instr settings c m (Flow.flags m.code m.handlers) index i d' u) := by
  have hentered := h.assembler.enter m.handlers index
  rw [instr_eq, instr_eq, hstep.left.replaced?_eq, hstep.right.replaced?_eq]
  cases hreplaced : replaced? settings c m index i t with
  | none =>
    exact ⟨(keep_agree hentered).map fun _ _ halike => ⟨halike, h.sites⟩, asked_nothing s u⟩
  | some f =>
    obtain ⟨n⟩ := Window.target?_eq_some_iff.mp (replaced?_eq_some_iff.mp hreplaced).2
    exact construct_endAlike hstep (n.declaring ▸ hstep.thisClass) hentered h.sites

/-- Whatever keeps the windows of the class steady keeps two compilations in step. -/
theorem InStep.after (h : InStep settings c t s u) {s' u' : Workspace} (hs : Underway c t s')
    (hu : Underway c t u') : InStep settings c t s' u' :=
  ⟨h.reachable, hs, hu, h.thisClass, h.extensible⟩

/-- The rest of a method is compiled alike in both workspaces. -/
theorem instrs_endAlike (is : List Instr) : ∀ {index : Nat} {d d' : Draft} {s u : Workspace},
    InStep settings c t s u → d.Alike d' → EndAlike Draft.Alike s u
      (instrs settings c m (Flow.flags m.code m.handlers) index is d s)
      (instrs settings c m (Flow.flags m.code m.handlers) index is d' u) := by
  induction is with
  | nil => exact fun _ h => ⟨.ok h, asked_nothing _ _⟩
  | cons i is ih =>
    intro index d d' s u hstep h
    obtain ⟨hresult, hasked⟩ := instr_endAlike (m := m) (i := i) hstep h
    have hkept := instr_keeps (Underway.kept settings c hstep.reachable)
    have hleft := hkept m index i d s hstep.left
    have hright := hkept m index i d' u hstep.right
    unfold instrs
    generalize instr settings c m (Flow.flags m.code m.handlers) index i d s = x at *
    generalize instr settings c m (Flow.flags m.code m.handlers) index i d' u = y at *
    obtain ⟨x, s'⟩ := x
    obtain ⟨y, u'⟩ := y
    cases hresult with
    | error => exact ⟨.error, hasked⟩
    | ok halike => exact (ih (hstep.after hleft hright) halike).after hasked

/-- A method is compiled alike in both workspaces. -/
theorem method_endAlike (hstep : InStep settings c t s u) (mode : Arithmetic) (m : SourceMethod) :
    EndAlike CompiledMethod.Alike s u (method settings c m s mode)
      (method settings c m u mode) := by
  let start : Draft := { assembler := { arithmetic := mode } }
  have hstart : start.Alike start := ⟨.refl _, rfl⟩
  obtain ⟨hresult, hasked⟩ := instrs_endAlike (m := m) m.code.toList hstep hstart
  unfold method
  generalize instrs settings c m (Flow.flags m.code m.handlers) 0 m.code.toList start s = x at *
  generalize instrs settings c m (Flow.flags m.code m.handlers) 0 m.code.toList start u = y at *
  obtain ⟨x, s'⟩ := x
  obtain ⟨y, u'⟩ := y
  cases hresult with
  | error => exact ⟨.error, hasked⟩
  | @ok d d' halike =>
    have hlink := halike.assembler.link m.name m.descriptor m.handlers
    dsimp only
    generalize d.assembler.link m.name m.descriptor m.handlers = body at hlink ⊢
    generalize d'.assembler.link m.name m.descriptor m.handlers = body' at hlink ⊢
    cases hlink with
    | error => exact ⟨.error, hasked⟩
    | ok hbody => exact ⟨.ok ⟨hbody, halike.sites⟩, hasked⟩

/-- Methods are compiled alike in both workspaces. -/
theorem methods_endAlike (mode : Arithmetic) (ms : List SourceMethod) :
    ∀ {done done' : Array CompiledMethod} {s u : Workspace}, InStep settings c t s u →
    List.Forall₂ CompiledMethod.Alike done.toList done'.toList →
    EndAlike (List.Forall₂ CompiledMethod.Alike) s u (methods settings c ms done s mode)
      (methods settings c ms done' u mode) := by
  induction ms with
  | nil => exact fun _ hdone => ⟨.ok hdone, asked_nothing _ _⟩
  | cons m ms ih =>
    intro done done' s u hstep hdone
    obtain ⟨hresult, hasked⟩ := method_endAlike hstep mode m
    have hleft := method_keeps (Underway.kept settings c hstep.reachable) mode m hstep.left
    have hright := method_keeps (Underway.kept settings c hstep.reachable) mode m hstep.right
    unfold methods
    generalize method settings c m s mode = x at *
    generalize method settings c m u mode = y at *
    obtain ⟨x, s'⟩ := x
    obtain ⟨y, u'⟩ := y
    cases hresult with
    | error => exact ⟨.error, hasked⟩
    | ok halike =>
      refine (ih (hstep.after hleft hright) ?_).after hasked
      simpa using List.rel_append hdone (.cons halike .nil)

/-- A class is compiled alike in both workspaces: with the same error, or to methods that are
alike. Either way the same fields are asked for. -/
theorem compile_endAlike (hstep : InStep settings c t s u) (mode : Arithmetic) :
    EndAlike CompiledClass.Alike s u (c.compile settings s mode) (c.compile settings u mode) := by
  obtain ⟨hresult, hasked⟩ :=
    @methods_endAlike settings c t mode c.methods #[] #[] s u hstep .nil
  unfold SourceClass.compile
  generalize methods settings c c.methods #[] s mode = x at *
  generalize methods settings c c.methods #[] u mode = y at *
  obtain ⟨x, s'⟩ := x
  obtain ⟨y, u'⟩ := y
  cases hresult with
  | error => exact ⟨.error, hasked⟩
  | ok halike => exact ⟨.ok ⟨rfl, halike⟩, hasked⟩

end Compile

end FieldUpdater
