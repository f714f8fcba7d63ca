import FieldUpdater.Accessor.Synthesis
import FieldUpdater.Proofs.Assembler.Operations
import FieldUpdater.Proofs.Classes.Extension

/-!
# What synthesis does to a workspace

The bodies of an accessor always assemble. A request for an accessor therefore ends in
one of three ways: the accessor is there already, its class cannot be defined and
nothing changes, or a class is added to the table, an entry to the registry and a
completion to the queue.
-/

namespace FieldUpdater

namespace Assembler

variable {a : Assembler} {name descriptor : String} {code : List Instr} {mode : Arithmetic}

/-- Code without jumps that the stack model accepts is assembled as it stands. -/
theorem exists_straightLine (happend : appendAll code { arithmetic := mode } = (.ok (), a))
    (hjumps : ∀ i ∈ code, i.branchTarget? = none) :
    ∃ body, straightLine name descriptor code mode = .ok body ∧ body.code = code.toArray := by
  have hcode : a.code = code.toArray := by
    have happended := (of_appendAll happend).1
    simpa using happended
  have hresolve : ∀ i ∈ a.code, resolve a.closedLabels i = .ok i := by
    intro i hi
    have hnone := hjumps i (by simpa [hcode] using hi)
    simp [resolve, hnone]
  obtain ⟨body, hlink⟩ : ∃ body, a.link name descriptor [] = .ok body :=
    exists_link (fun i hi => ⟨i, hresolve i hi⟩) (by simp)
  refine ⟨body, by rw [straightLine, happend]; exact hlink, ?_⟩
  obtain ⟨hsize, hplace⟩ := code_of_link hlink
  rw [← hcode]
  refine Array.ext hsize fun j hj hj' => ?_
  obtain ⟨i, hi, hok⟩ := hplace j a.code[j] (Array.getElem?_eq_getElem hj')
  rw [hresolve _ (Array.getElem_mem hj'), Except.ok.injEq] at hok
  rw [hok]
  exact Option.some.inj ((Array.getElem?_eq_getElem hj).symm.trans hi)

end Assembler

namespace Accessor

/-- The bodies of an accessor are the code of its field's operations. -/
structure WellMade (a : Accessor) : Prop where
  /-- Every operation has the code for the accessor's field. -/
  method : ∀ op, (a.method op).code = (codeOf a.field op).toArray
  /-- The constructor runs that of the base class. -/
  init : a.init.code = (initCode a.base).toArray

/-- The stack model accepts the code of every operation, in either arithmetic. -/
theorem exists_appendAll_codeOf (f : Field) (op : FieldOp) (mode : Arithmetic) :
    ∃ a, Assembler.appendAll (codeOf f op) { arithmetic := mode } = (.ok (), a) := by
  cases op <;>
    simp [codeOf, compareAndSetCode, getCode, setCode, Assembler.appendAll, Assembler.append,
      Opcode.stackEffect, Assembler.appendWith, Arithmetic.depths, Arithmetic.add, Arithmetic.sub,
      bind, Except.bind]

/-- So it does the code of the constructor. -/
theorem exists_appendAll_initCode (base : ClassId) (mode : Arithmetic) :
    ∃ a, Assembler.appendAll (initCode base) { arithmetic := mode } = (.ok (), a) := by
  simp [initCode, Assembler.appendAll, Assembler.append, Opcode.stackEffect, Assembler.appendWith,
    Arithmetic.depths, Arithmetic.add, Arithmetic.sub, bind, Except.bind]

/-- Every operation assembles. -/
theorem exists_assembleOp (f : Field) (op : FieldOp) :
    ∃ body, assembleOp f op = .ok body ∧ body.code = (codeOf f op).toArray := by
  obtain ⟨a, happended⟩ := exists_appendAll_codeOf f op .checked
  refine Assembler.exists_straightLine happended ?_
  cases op <;> simp [codeOf, compareAndSetCode, getCode, setCode, Instr.branchTarget?,
    Opcode.isBranch]

/-- The constructor assembles. -/
theorem exists_assembleInit (base : ClassId) : ∃ body,
    Assembler.straightLine "<init>" "()V" (initCode base) = .ok body ∧
      body.code = (initCode base).toArray := by
  obtain ⟨_, happended⟩ := exists_appendAll_initCode base .checked
  exact Assembler.exists_straightLine happended
    (by simp [initCode, Instr.branchTarget?, Opcode.isBranch])

/-- Assembling the bodies of an accessor succeeds. -/
theorem exists_assemble (home : Nat) (classId : ClassId) (name : String) (base : ClassId)
    (f : Field) :
    ∃ a, assemble home classId name base f = .ok a ∧ a.home = home ∧ a.classId = classId ∧
      a.name = name ∧ a.base = base ∧ a.field = f ∧ a.WellMade := by
  obtain ⟨compareAndSet, hcas, hcasCode⟩ := exists_assembleOp f .compareAndSet
  obtain ⟨get, hget, hgetCode⟩ := exists_assembleOp f .get
  obtain ⟨set, hset, hsetCode⟩ := exists_assembleOp f .set
  obtain ⟨init, hinit, hinitCode⟩ := exists_assembleInit base
  unfold assemble
  rw [hcas, hget, hset, hinit]
  refine ⟨_, rfl, rfl, rfl, rfl, rfl, rfl, ?_, hinitCode⟩
  intro op
  cases op
  · exact hcasCode
  · exact hgetCode
  · exact hsetCode

end Accessor

namespace Workspace

/-- How a request for the accessor of a field can end. -/
inductive Synthesized (w : Workspace) (baseType : String) (f : Field) :
    Except SynthesisError Accessor → Workspace → Prop
  /-- The accessor is there. -/
  | found {a : Accessor} (entry : w.registry.find? f.key = some a) :
      Synthesized w baseType f (.ok a) w
  /-- The base class is missing. -/
  | baseMissing {err : TableError} (absent : w.registry.find? f.key = none)
      (missing : w.table.require baseType = .error err) :
      Synthesized w baseType f (.error (.baseTypeMissing baseType err)) w
  /-- The class cannot be defined. -/
  | undefinable {base : ClassId} {err : TableError} (absent : w.registry.find? f.key = none)
      (required : w.table.require baseType = .ok base)
      (refused : Accessor.defineClass w.table f.declaring (Accessor.simpleName f) base
        = .error err) :
      Synthesized w baseType f (.error (.defineType err)) w
  /-- The accessor is made: its class is defined, and its completion is queued. -/
  | made {a : Accessor} {t : ClassTable} (absent : w.registry.find? f.key = none)
      (required : w.table.require baseType = .ok a.base)
      (defined : Accessor.defineClass w.table f.declaring (Accessor.simpleName f) a.base
        = .ok (a.classId, t))
      (home : a.home = t.tag)
      (name : a.name = ((t.find? a.classId).map (·.name)).getD (Accessor.simpleName f))
      (field : a.field = f) (bodies : a.WellMade) :
      Synthesized w baseType f (.ok a)
        ⟨t, w.registry.insert f.key a, w.pending.register ("finish " ++ a.name) a⟩

/-- Every request ends in one of these ways. -/
theorem synthesized (w : Workspace) (baseType : String) (f : Field) :
    w.Synthesized baseType f (w.synthesize baseType f).1 (w.synthesize baseType f).2 := by
  unfold synthesize Registry.findOrCreate
  cases hentry : w.registry.find? f.key with
  | some a => exact .found hentry
  | none =>
    unfold Accessor.generate
    cases hrequire : w.table.require baseType with
    | error err => simpa [hrequire] using .baseMissing hentry hrequire
    | ok base =>
      cases hdefine : Accessor.defineClass w.table f.declaring (Accessor.simpleName f) base with
      | error err => simpa [hrequire, hdefine] using .undefinable hentry hrequire hdefine
      | ok result =>
        obtain ⟨classId, t⟩ := result
        obtain ⟨a, hassemble, hhome, rfl, hname, rfl, hfield, hmade⟩ := Accessor.exists_assemble
          t.tag classId (((t.find? classId).map (·.name)).getD (Accessor.simpleName f)) base f
        simp only [hrequire, hdefine, hassemble]
        rw [← hname]
        exact .made hentry hrequire hdefine hhome hname hfield hmade

end Workspace

namespace Accessor

variable {t t' : ClassTable} {owner base id : ClassId} {simple : String}

/-- The class of an accessor is nested in that of its field and sealed. -/
theorem of_defineClass (h : defineClass t owner simple base = .ok (id, t')) :
    ∃ outer, t.find? owner = some outer ∧
      t.defineNested owner (freeName t outer.name simple) base .nestedPrivate true
        = .ok (id, t') := by
  unfold defineClass ClassTable.get at h
  cases hfind : t.find? owner with
  | none => simp [hfind, bind, Except.bind] at h
  | some outer =>
    simp only [hfind, bind, Except.bind] at h
    exact ⟨outer, rfl, h⟩

/-- The class of an accessor is added under a free name within that of its field. -/
theorem add_of_defineClass (h : defineClass t owner simple base = .ok (id, t')) :
    ∃ outer, t.add ⟨ClassTable.nestedName outer (freeName t outer simple), .reference, some base,
      .nestedPrivate, true, []⟩ (some owner) .defining = .ok (id, t') := by
  obtain ⟨outer, houter, hnested⟩ := of_defineClass h
  obtain ⟨enclosing, henclosing, hadd⟩ := ClassTable.of_defineNested hnested
  obtain rfl : outer = enclosing := Option.some.inj (houter.symm.trans henclosing)
  exact ⟨outer.name, hadd⟩

/-- The class of an accessor extends the table. -/
theorem extends_of_defineClass (h : defineClass t owner simple base = .ok (id, t')) :
    t.Extends t' := by
  obtain ⟨_, hadd⟩ := add_of_defineClass h
  exact ClassTable.extends_of_add hadd

/-- The class of an accessor comes after all others. -/
theorem id_of_defineClass (h : defineClass t owner simple base = .ok (id, t')) :
    id = ⟨t.size⟩ := by
  obtain ⟨_, hadd⟩ := add_of_defineClass h
  exact (ClassTable.of_add hadd).2.1

theorem lt_size_of_defineClass (h : defineClass t owner simple base = .ok (id, t')) :
    id.index < t'.size := by
  obtain ⟨_, hadd⟩ := add_of_defineClass h
  exact ClassTable.lt_size_of_add hadd

end Accessor

namespace Registry

variable {r : Registry} {key other : FieldKey} {a b : Accessor}

/-- An entry is found under its key, and the others as before. -/
theorem find?_insert (r : Registry) (key other : FieldKey) (a : Accessor) :
    (r.insert key a).find? other = if other = key then some a else r.find? other := by
  by_cases hkey : other = key
  · simp [find?, insert, hkey]
  · simp [find?, insert, List.lookup_cons, beq_eq_false_iff_ne.mpr hkey, hkey]

/-- An entry is found by its class, and the others as before. -/
theorem ofClass?_insert (r : Registry) (key : FieldKey) (a : Accessor) (c : ClassId) :
    (r.insert key a).ofClass? c = if c = a.classId then some a else r.ofClass? c := by
  by_cases hc : c = a.classId
  · simp [ofClass?, insert, hc]
  · simp [ofClass?, insert, List.lookup_cons, beq_eq_false_iff_ne.mpr hc, hc]

/-- An entry of the registry stays when a field without one gets its accessor. -/
theorem find?_insert_of_absent (habsent : r.find? key = none) (h : r.find? other = some b) :
    (r.insert key a).find? other = some b := by
  have hne : other ≠ key := by
    rintro rfl
    rw [habsent] at h
    cases h
  rw [find?_insert, if_neg hne, h]

/-- What is found after an entry has been made is the entry or was found before. -/
theorem of_find?_insert (h : (r.insert key a).find? other = some b) :
    (other = key ∧ a = b) ∨ r.find? other = some b := by
  rw [find?_insert] at h
  split at h
  · exact .inl ⟨‹_›, Option.some.inj h⟩
  · exact .inr h

end Registry

namespace Workspace

/-- Nothing of the first workspace is lost in the second. -/
structure Grows (w w' : Workspace) : Prop where
  /-- Classes stay. -/
  table : w.table.Extends w'.table
  /-- Accessors stay. -/
  entry : ∀ key a, w.registry.find? key = some a → w'.registry.find? key = some a
  /-- Queued completions stay, in their order. -/
  pending : w.pending.tasks.toList <+: w'.pending.tasks.toList

variable {w w' w'' : Workspace} {baseType : String} {f : Field}

theorem Grows.refl (w : Workspace) : w.Grows w :=
  ⟨.refl _, fun _ _ h => h, List.prefix_rfl⟩

theorem Grows.trans (h : w.Grows w') (h' : w'.Grows w'') : w.Grows w'' where
  table := h.table.trans h'.table
  entry key a ha := h'.entry key a (h.entry key a ha)
  pending := h.pending.trans h'.pending

/-- A request keeps what making an accessor keeps. -/
theorem synthesize_keeps {P : Workspace → Prop} (h : P w) (baseType : String) (f : Field)
    (hmade : ∀ a t, w.registry.find? f.key = none → w.table.require baseType = .ok a.base →
      Accessor.defineClass w.table f.declaring (Accessor.simpleName f) a.base
        = .ok (a.classId, t) →
      a.name = ((t.find? a.classId).map (·.name)).getD (Accessor.simpleName f) → a.field = f →
      P ⟨t, w.registry.insert f.key a, w.pending.register ("finish " ++ a.name) a⟩) :
    P (w.synthesize baseType f).2 := by
  have hsynthesized := w.synthesized baseType f
  generalize (w.synthesize baseType f).1 = result at hsynthesized
  generalize (w.synthesize baseType f).2 = w' at hsynthesized ⊢
  cases hsynthesized with
  | found _ => exact h
  | baseMissing _ _ => exact h
  | undefinable _ _ _ => exact h
  | made habsent hrequired hdefined _ hname hfield _ =>
    exact hmade _ _ habsent hrequired hdefined hname hfield

/-- Requests with one base type lead from one workspace to another. -/
inductive Requested (baseType : String) (w : Workspace) : Workspace → Prop
  | start : Requested baseType w w
  | request {w' : Workspace} (before : Requested baseType w w') (f : Field) :
      Requested baseType w (w'.synthesize baseType f).2

/-- Requests keep what each of them keeps. -/
theorem Requested.keeps {P : Workspace → Prop} (h : w.Requested baseType w')
    (hP : ∀ space f, P space → P (space.synthesize baseType f).2) (hw : P w) : P w' := by
  induction h with
  | start => exact hw
  | request _ f ih => exact hP _ f ih

/-- A request for an accessor loses nothing. -/
theorem grows_synthesize (w : Workspace) (baseType : String) (f : Field) :
    w.Grows (w.synthesize baseType f).2 := by
  refine synthesize_keeps (.refl w) baseType f fun a t habsent _ hdefined _ _ => ?_
  exact ⟨Accessor.extends_of_defineClass hdefined,
    fun _ _ h => Registry.find?_insert_of_absent habsent h, by simp [CompletionQueue.register]⟩

/-- An accessor asked for with success is the entry of its field. -/
theorem find?_of_synthesize {a : Accessor} (h : w.synthesize baseType f = (.ok a, w')) :
    w'.registry.find? f.key = some a := by
  have hsynthesized := w.synthesized baseType f
  rw [h] at hsynthesized
  cases hsynthesized with
  | found hentry => exact hentry
  | made _ _ _ _ _ _ _ => exact (Registry.find?_insert _ _ _ _).trans (if_pos rfl)

end Workspace

namespace Sample

/-- The class that accessors extend. -/
def baseType : String := "fieldcas/runtime/IntrinsicAtomicReferenceFieldUpdater"

/-- A class with a volatile field, and the class that accessors extend. -/
def declarations : List ClassDecl :=
  [{ name := "Node", fields := [⟨"next", ⟨0⟩, false, true⟩] },
    { name := baseType }]

/-- The table with a class declared. -/
def declare (t : ClassTable) (d : ClassDecl) : ClassTable :=
  match t.define d with
  | .ok (_, t') => t'
  | .error _ => t

/-- The table with the declared classes. -/
def table : ClassTable := declarations.foldl declare (.withBuiltins 0)

/-- No accessor has been made for the table. -/
def space : Workspace := ⟨table, { tag := table.tag }, {}⟩

/-- The volatile field. -/
def next : Field := ⟨⟨⟨11⟩, "next", "Ljava/lang/Object;"⟩, ⟨0⟩, false, true, 0⟩

end Sample

end FieldUpdater
