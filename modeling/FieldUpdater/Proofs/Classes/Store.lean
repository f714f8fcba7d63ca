import FieldUpdater.Classes.Store
import FieldUpdater.Proofs.Classes.Types

/-!
# Class tables in place

The index of a store answers as a search of its classes does, and a call of a store does what the
operation of the same name does to a table. A call that fails has changed nothing, however far it
has come. A call that succeeds appends one class or finishes one, and whatever is asked about a
class that was there is answered as before.
-/

namespace FieldUpdater

/-- What comes of a mapped computation comes of the computation. -/
theorem exists_of_map_ok {ε α β : Type} {x : Except ε α} {f : α → β} {b : β}
    (h : x.map f = .ok b) : ∃ a, x = .ok a ∧ f a = b := by
  cases x with
  | error err => cases h
  | ok a => exact ⟨a, rfl, Except.ok.inj h⟩

/-- A call of a class table. -/
inductive TableCall where
  | define (d : ClassDecl)
  | defineNested (outer : ClassId) (simple : String) (base : ClassId) (visibility : Visibility)
      (isSealed : Bool)
  | finish (c : ClassId)

namespace ClassTable

/-- The answer to a call, the number of the class for a definition, and the table after it. -/
def call (t : ClassTable) : TableCall → Except TableError (Option ClassId × ClassTable)
  | .define d => (t.define d).map fun (id, t') => (some id, t')
  | .defineNested outer simple base visibility isSealed =>
    (t.defineNested outer simple base visibility isSealed).map fun (id, t') => (some id, t')
  | .finish c => (t.finish c).map fun t' => (none, t')

/-- A class that is not there cannot be finished. -/
theorem finish_of_not_lt {t : ClassTable} {c : ClassId} (hc : ¬ c.index < t.size) :
    t.finish c = .error (.unknownClassId c) := by
  have hnone : t.find? c = none :=
    Option.not_isSome_iff_eq_none.mp fun h => hc (find?_isSome_iff.mp h)
  rw [finish, hnone]

/-- What a call that succeeds does to a table. -/
inductive Called (t : ClassTable) : Option ClassId → ClassTable → Prop
  /-- A class is appended under a free name. -/
  | appended (info : ClassRecord) (id : info.id = ⟨t.size⟩) (free : t.lookup info.name = none) :
      Called t (some info.id) { t with classes := t.classes.push info }
  /-- A class is finished. -/
  | finished (c : ClassId) (hc : c.index < t.size) :
      Called t none
        { t with classes := t.classes.modify c.index ({ · with stage := .finished }) }

variable {t t' : ClassTable} {c id : ClassId} {info : ClassRecord} {name : String}
  {answer : Option ClassId} {d : ClassDecl} {outer : Option ClassId} {stage : Stage}
  {request : TableCall}

/-- A definition appends a class. -/
theorem called_of_add (h : t.add d outer stage = .ok (id, t')) : t.Called (some id) t' := by
  obtain ⟨hfree, rfl, superclass, inherited, layout, -, -, -, rfl⟩ := of_add h
  exact .appended (recordOf d _ outer stage superclass layout) rfl hfree

/-- A call that succeeds is an operation that appends a class or finishes one. -/
theorem of_call (h : t.call request = .ok (answer, t')) : t.Step t' ∧ t.Called answer t' := by
  cases request with
  | define d =>
    obtain ⟨⟨id, _⟩, hdefine, heq⟩ := exists_of_map_ok h
    cases heq
    exact ⟨.define hdefine, called_of_add hdefine⟩
  | defineNested outer simple base visibility isSealed =>
    obtain ⟨⟨id, _⟩, hnested, heq⟩ := exists_of_map_ok h
    cases heq
    obtain ⟨_, -, hadd⟩ := of_defineNested hnested
    exact ⟨.defineNested hnested, called_of_add hadd⟩
  | finish c =>
    obtain ⟨_, hfinish, heq⟩ := exists_of_map_ok h
    cases heq
    obtain ⟨hc, rfl⟩ := finish_eq_ok_iff.mp hfinish
    exact ⟨.finish hfinish, .finished c hc⟩

/-- Every operation but a generator's declaration is a call. -/
theorem Step.exists_call (h : t.Step t') :
    (∃ request answer, t.call request = .ok (answer, t')) ∨ ∃ c, t' = t.bake c := by
  cases h with
  | define hdefine =>
    rename_i d id
    exact .inl ⟨.define d, some id, by rw [call, hdefine]; rfl⟩
  | defineNested hnested =>
    rename_i outer base id simple visibility isSealed
    exact .inl ⟨.defineNested outer simple base visibility isSealed, some id,
      by rw [call, hnested]; rfl⟩
  | finish hfinish =>
    rename_i c
    exact .inl ⟨.finish c, none, by rw [call, hfinish]; rfl⟩
  | bake c => exact .inr ⟨c, rfl⟩

/-- Both extend the table. -/
theorem Called.extends (h : t.Called answer t') : t.Extends t' := by
  cases h with
  | appended info _ _ => exact extends_push t info
  | finished c _ => exact extends_modify t c fun _ => ⟨rfl, .inr rfl, fun h => h⟩

/-- A class stays as it is unless it is finished. -/
theorem Called.find? (h : t.Called answer t') (hinfo : t.find? c = some info) :
    ∃ stage, t'.find? c = some { info with stage } ∧
      (stage = info.stage ∨ stage = .finished) := by
  cases h with
  | appended new _ _ => exact ⟨info.stage, find?_push_of_find? hinfo new, .inl rfl⟩
  | finished k _ =>
    have hget : t.classes[c.index]? = some info := hinfo
    by_cases hk : k.index = c.index
    · refine ⟨.finished, ?_, .inr rfl⟩
      rw [ClassTable.find?, Array.getElem?_modify, if_pos hk, hget]
      rfl
    · refine ⟨info.stage, ?_, .inl rfl⟩
      rw [ClassTable.find?, Array.getElem?_modify, if_neg hk, hget]

/-- In an extension of the same size a name is that of the same class, or of none. -/
theorem Extends.lookup_eq (h : t.Extends t') (hsize : t'.size = t.size) (name : String) :
    t'.lookup name = t.lookup name := by
  cases hlookup : t.lookup name with
  | some id => exact h.lookup hlookup
  | none =>
    cases hlookup' : t'.lookup name with
    | none => rfl
    | some id =>
      obtain ⟨⟨info, hinfo, -⟩, -⟩ := lookup_eq_some_iff.mp hlookup'
      have hold := h.lookup_of_lt hlookup' (hsize ▸ lt_size_of_find? hinfo)
      rw [hlookup] at hold
      cases hold

/-- A definition gives the next number, and with it a name, to one new class. -/
theorem Called.of_some (h : t.Called (some id) t') :
    id = ⟨t.size⟩ ∧ ∃ info, info.id = id ∧ t'.classes = t.classes.push info ∧
      t.lookup info.name = none ∧
      ∀ name, t'.lookup name = if name = info.name then some id else t.lookup name := by
  cases h with
  | appended info hid hfree =>
    exact ⟨hid, info, rfl, rfl, hfree, fun name => by rw [lookup_push hfree, hid]⟩

/-- Finishing gives no class a number or a name. -/
theorem Called.of_none (h : t.Called none t') :
    t'.size = t.size ∧ ∀ name, t'.lookup name = t.lookup name := by
  have hsize : t'.size = t.size := by
    cases h with
    | finished c hc => simp [size]
  exact ⟨hsize, h.extends.lookup_eq hsize⟩

end ClassTable

namespace ClassStore

variable {s s' : ClassStore} {d : ClassDecl} {outer : Option ClassId} {stage : Stage}
  {name : String} {c : ClassId} {info : ClassRecord}

namespace Change

variable {α β : Type}

@[simp] theorem run_get (s : ClassStore) : run get s = (.ok s, s) := rfl

@[simp] theorem run_ofExcept (x : Except TableError α) (s : ClassStore) :
    run (ofExcept x) s = (x, s) := by
  cases x <;> rfl

/-- A change goes on with what another has answered, where it has led, unless that has failed. -/
@[simp] theorem run_bind (x : Change α) (f : α → Change β) (s : ClassStore) : run (x >>= f) s =
    match run x s with
    | (.ok a, s') => run (f a) s'
    | (.error err, s') => (.error err, s') := by
  change (match ExceptT.run x s with | (a, s') => ExceptT.bindCont f a s') = _
  unfold run
  cases ExceptT.run x s with
  | mk result s' => cases result <;> rfl

end Change

/-- The index has the classes of the table under their names, and nothing else. -/
def Indexed (s : ClassStore) : Prop := ∀ name, s.lookup name = s.toClassTable.lookup name

/-- The superclass asked for is that of the table. -/
theorem Indexed.superclassFor (hs : s.Indexed) (d : ClassDecl) :
    s.superclassFor d = s.toClassTable.superclassFor d := by
  unfold ClassStore.superclassFor ClassTable.superclassFor ClassTable.require
  rw [hs rootName]
  split
  · cases d.superclass with
    | some base => rfl
    | none => cases s.toClassTable.lookup rootName <;> rfl
  · rfl

/-- Appending to a store is appending to its table and indexing the name. What fails changes
nothing. -/
theorem Indexed.run_insert (hs : s.Indexed) (d : ClassDecl) (outer : Option ClassId)
    (stage : Stage) : Change.run (insert d outer stage) s =
      match s.toClassTable.add d outer stage with
      | .error err => (.error err, s)
      | .ok (id, t) => (.ok id, ⟨t, s.byName.insert d.name id⟩) := by
  have hindex : s.byName.contains d.name = (s.toClassTable.lookup d.name).isSome := by
    rw [Std.HashMap.contains_eq_isSome_getElem?]
    exact congrArg Option.isSome (hs d.name)
  unfold insert ClassTable.add
  simp only [Change.run_bind, Change.run_get, hindex]
  by_cases htaken : (s.toClassTable.lookup d.name).isSome = true
  · simp only [if_pos htaken]
    rfl
  · simp only [if_neg htaken, Change.run_bind, Change.run_get, Change.run_ofExcept,
      hs.superclassFor]
    cases s.toClassTable.superclassFor d with
    | error err => rfl
    | ok superclass =>
      dsimp only [bind, Except.bind]
      cases s.inheritedSlots d.name superclass with
      | error err => rfl
      | ok inherited =>
        dsimp only
        cases s.layOut ⟨s.size⟩ d.name d.fields { instanceSlots := inherited } <;> rfl

/-- A call of a store. -/
def call : TableCall → Change (Option ClassId)
  | .define d => return some (← define d)
  | .defineNested outer simple base visibility isSealed =>
    return some (← defineNested outer simple base visibility isSealed)
  | .finish c => do
    finish c
    return none

/-- A call of a store and the call of its table agree: they fail alike and leave the store as it
was, or they answer alike and leave an index for the classes that are there then. -/
def Agrees (s : ClassStore) (ofTable : Except TableError (Option ClassId × ClassTable))
    (ofStore : Except TableError (Option ClassId) × ClassStore) : Prop :=
  (∃ err, ofTable = .error err ∧ ofStore = (.error err, s)) ∨
    ∃ answer s', ofTable = .ok (answer, s'.toClassTable) ∧ ofStore = (.ok answer, s') ∧ s'.Indexed

/-- With the name of an added class the index is that of the classes. -/
theorem Indexed.insert {t : ClassTable} {id : ClassId} (hs : s.Indexed)
    (h : s.toClassTable.add d outer stage = .ok (id, t)) :
    (⟨t, s.byName.insert d.name id⟩ : ClassStore).Indexed := by
  obtain ⟨hfree, rfl, superclass, inherited, layout, -, -, -, rfl⟩ := ClassTable.of_add h
  intro name
  have hname : (ClassTable.recordOf d ⟨s.size⟩ outer stage superclass layout).name = d.name := rfl
  rw [ClassTable.lookup_push hfree, hname, ← hs name, lookup, Std.HashMap.getElem?_insert]
  by_cases heq : name = d.name
  · simp [heq]
  · simp [heq, Ne.symm heq, lookup]

/-- A definition of a store agrees with that of its table. -/
theorem Indexed.agrees_insert (hs : s.Indexed) (d : ClassDecl) (outer : Option ClassId)
    (stage : Stage) :
    s.Agrees ((s.toClassTable.add d outer stage).map fun (id, t) => (some id, t))
      (Change.run (do return some (← ClassStore.insert d outer stage)) s) := by
  rw [Change.run_bind, hs.run_insert]
  cases hadd : s.toClassTable.add d outer stage with
  | error err => exact .inl ⟨err, rfl, rfl⟩
  | ok result => exact .inr ⟨some result.1, _, rfl, rfl, hs.insert hadd⟩

/-- With one class changed, but not its name, the index is still that of the classes. -/
theorem Indexed.modify (hs : s.Indexed) (c : ClassId) {f : ClassRecord → ClassRecord}
    (hf : ∀ info : ClassRecord, info.Advances (f info)) :
    ({ s with classes := s.classes.modify c.index f } : ClassStore).Indexed := by
  intro name
  have hextends := s.toClassTable.extends_modify c hf
  exact (hs name).trans (hextends.lookup_eq (by simp [ClassTable.size]) name).symm

/-- Every call of a store agrees with that of its table. -/
theorem Indexed.agrees (hs : s.Indexed) (request : TableCall) :
    s.Agrees (s.toClassTable.call request) (Change.run (call request) s) := by
  cases request with
  | define d => exact hs.agrees_insert d none .loaded
  | defineNested outer simple base visibility isSealed =>
    unfold call defineNested ClassTable.call ClassTable.defineNested
    simp only [bind_assoc, Change.run_bind, Change.run_get, Change.run_ofExcept]
    cases s.toClassTable.get outer with
    | error err => exact .inl ⟨err, rfl, rfl⟩
    | ok enclosing =>
      have hadded := hs.agrees_insert
        { name := ClassTable.nestedName enclosing.name simple, superclass := some base, visibility,
          isSealed } (some outer) .defining
      rw [Change.run_bind] at hadded
      exact hadded
  | finish c =>
    unfold call finish ClassTable.call
    simp only [Change.run_bind, Change.run_get]
    by_cases hc : c.index < s.size
    · rw [ClassTable.finish_eq_ok_iff.mpr ⟨hc, rfl⟩]
      simp only [if_pos hc]
      exact .inr ⟨none, _, rfl, rfl, hs.modify c (f := ({ · with stage := .finished }))
        fun _ => ⟨rfl, .inr rfl, fun h => h⟩⟩
    · rw [ClassTable.finish_of_not_lt hc]
      simp only [if_neg hc]
      exact .inl ⟨_, rfl, rfl⟩

/-- A store that calls lead to from one without classes or with the builtin ones. -/
inductive Reachable : ClassStore → Prop
  | empty (tag : Nat) : Reachable (.empty tag)
  | withBuiltins (tag : Nat) : Reachable (.withBuiltins tag)
  | call {s : ClassStore} (before : Reachable s) (request : TableCall) :
      Reachable (Change.run (call request) s).2
  /-- The generator of a class has declared it complete. -/
  | bake {s : ClassStore} (before : Reachable s) (c : ClassId) :
      Reachable { s with toClassTable := s.toClassTable.bake c }

/-- Appending the builtin classes one by one does to a store what it does to its table. -/
theorem Indexed.addBuiltins (hs : s.Indexed) (ds : List ClassDecl) :
    let s' := ds.foldl (fun s d => (Change.run (ClassStore.insert d none .finished) s).2) s
    s'.toClassTable = ds.foldl ClassTable.addBuiltin s.toClassTable ∧ s'.Indexed := by
  induction ds generalizing s with
  | nil => exact ⟨rfl, hs⟩
  | cons d ds ih =>
    rw [List.foldl_cons, List.foldl_cons, ClassTable.addBuiltin, hs.run_insert]
    cases hadd : s.toClassTable.add d none .finished with
    | error err => exact ih hs
    | ok result => exact ih (hs.insert hadd)

/-- Nothing is indexed at first. -/
theorem indexed_empty (tag : Nat) : (empty tag).Indexed := by
  intro name
  simp [lookup, empty, ClassTable.lookup]

/-- The store with the builtin classes has their table, and an index of it. -/
theorem withBuiltins_spec (tag : Nat) :
    (withBuiltins tag).toClassTable = .withBuiltins tag ∧ (withBuiltins tag).Indexed :=
  (indexed_empty tag).addBuiltins ClassTable.builtins

/-- The tables of the stores that occur occur, and the stores have an index of them. -/
theorem Reachable.spec (hs : s.Reachable) : s.toClassTable.Reachable ∧ s.Indexed := by
  induction hs with
  | empty tag => exact ⟨.empty tag, indexed_empty tag⟩
  | withBuiltins tag =>
    obtain ⟨htable, hindexed⟩ := withBuiltins_spec tag
    exact ⟨htable ▸ .withBuiltins tag, hindexed⟩
  | call _ request ih =>
    obtain ⟨htable, hindexed⟩ := ih
    rcases hindexed.agrees request with ⟨err, -, heq⟩ | ⟨answer, s', hcall, heq, hindexed'⟩
    · rw [heq]
      exact ⟨htable, hindexed⟩
    · rw [heq]
      exact ⟨htable.step (ClassTable.of_call hcall).1, hindexed'⟩
  | bake _ c ih =>
    exact ⟨ih.1.step (.bake c), ih.2.modify c fun _ => ⟨rfl, .inl rfl, fun _ => rfl⟩⟩

/-- Every table that occurs is that of a store that occurs. -/
theorem exists_reachable {t : ClassTable} (ht : t.Reachable) :
    ∃ s : ClassStore, s.Reachable ∧ s.toClassTable = t := by
  induction ht with
  | empty tag => exact ⟨.empty tag, .empty tag, rfl⟩
  | withBuiltins tag => exact ⟨.withBuiltins tag, .withBuiltins tag, (withBuiltins_spec tag).1⟩
  | step _ hstep ih =>
    obtain ⟨s, hs, rfl⟩ := ih
    rcases hstep.exists_call with ⟨request, answer, hcall⟩ | ⟨c, rfl⟩
    · refine ⟨_, hs.call request, ?_⟩
      rcases hs.spec.2.agrees request with ⟨err, herror, -⟩ | ⟨answer', s', hcall', heq, -⟩
      · rw [hcall] at herror
        cases herror
      · rw [hcall] at hcall'
        cases hcall'
        rw [heq]
    · exact ⟨_, hs.bake c, rfl⟩

/-- What a name stands for is found in the index. -/
theorem Reachable.resolve_eq (hs : s.Reachable) (name : String) :
    s.resolve name = s.toClassTable.resolve name := by
  obtain ⟨htable, hindexed⟩ := hs.spec
  unfold ClassStore.resolve ClassTable.resolve
  rw [hindexed name]
  cases hlookup : s.toClassTable.lookup name with
  | none => rfl
  | some id =>
    obtain ⟨⟨info, hinfo, -⟩, -⟩ := ClassTable.lookup_eq_some_iff.mp hlookup
    have hid := (htable.typed id info hinfo).id
    simp [hinfo, hid]

/-- A class of one store is in another what it was, unless it has been finished, and everything
that is asked about it is answered as before. -/
structure Keeps (s s' : ClassStore) (c : ClassId) (info : ClassRecord) : Prop where
  record : ∃ stage, s'.find? c = some { info with stage } ∧
    (stage = info.stage ∨ stage = .finished)
  lookup : s.lookup info.name = some c ∧ s'.lookup info.name = some c
  resolve : s'.resolve info.name = s.resolve info.name
  field : ∀ name signature, s'.findField? c name signature = s.findField? c name signature
  assignable : ∀ target, s'.isAssignable c target = s.isAssignable c target

/-- Where a table has been extended, its classes are kept if all that has changed is how far they
have come. -/
theorem Reachable.keeps (hs : s.Reachable) (hs' : s'.Reachable)
    (hextends : s.toClassTable.Extends s'.toClassTable) (hinfo : s.find? c = some info)
    (hrecord : ∃ stage, s'.find? c = some { info with stage } ∧
      (stage = info.stage ∨ stage = .finished)) : s.Keeps s' c info := by
  obtain ⟨htable, hindexed⟩ := hs.spec
  have hc := ClassTable.lt_size_of_find? hinfo
  have hlookup := htable.typed.lookup_eq hinfo
  exact {
    record := hrecord
    lookup := ⟨(hindexed _).trans hlookup, (hs'.spec.2 _).trans (hextends.lookup hlookup)⟩
    resolve := by rw [hs.resolve_eq, hs'.resolve_eq, hextends.resolve hlookup]
    field := hextends.findField? hc
    assignable := hextends.isAssignable hc }

/-- Every table that occurs is that of a store, and a store only grows. A call answers what the
operation on the table answers, and one that fails leaves the store as it was. A definition that
succeeds appends one class, which has the next number and is found under a name that was free; a
class is finished without any new one. What was known of a class that was there stays. -/
theorem call_grows :
    (∀ t : ClassTable, t.Reachable → ∃ s : ClassStore, s.Reachable ∧ s.toClassTable = t) ∧
    ∀ (s : ClassStore) (request : TableCall), s.Reachable →
      let result := Change.run (call request) s
      s.toClassTable.call request = result.1.map (·, result.2.toClassTable) ∧
      (∀ err, result.1 = .error err → result.2 = s) ∧
      (∀ id, result.1 = .ok (some id) → id = ⟨s.size⟩ ∧ ∃ info, info.id = id ∧
        result.2.classes = s.classes.push info ∧ s.lookup info.name = none ∧
        ∀ name, result.2.lookup name = if name = info.name then some id else s.lookup name) ∧
      (result.1 = .ok none → result.2.size = s.size ∧
        ∀ name, result.2.lookup name = s.lookup name) ∧
      ∀ c info, s.find? c = some info → s.Keeps result.2 c info := by
  refine ⟨fun t => exists_reachable, fun s request hs => ?_⟩
  intro result
  have hs' : result.2.Reachable := hs.call request
  obtain ⟨htable, hindexed⟩ := hs.spec
  rcases hindexed.agrees request with ⟨err, hcall, heq⟩ | ⟨answer, s', hcall, heq, hindexed'⟩
  · have hresult : result = (.error err, s) := heq
    rw [hresult] at hs' ⊢
    refine ⟨hcall, fun _ _ => rfl, nofun, nofun, fun c info hinfo => ?_⟩
    exact hs.keeps hs (.refl _) hinfo ⟨info.stage, hinfo, .inl rfl⟩
  · have hresult : result = (.ok answer, s') := heq
    have hcalled := (ClassTable.of_call hcall).2
    rw [hresult] at hs' ⊢
    refine ⟨hcall, nofun, ?_, ?_, fun c info hinfo => ?_⟩
    · rintro id ⟨⟩
      obtain ⟨hid, info, hinfo, hclasses, hfree, hnames⟩ := hcalled.of_some
      refine ⟨hid, info, hinfo, hclasses, (hindexed _).trans hfree, fun name => ?_⟩
      rw [hindexed', hindexed, hnames]
    · rintro ⟨⟩
      obtain ⟨hsize, hnames⟩ := hcalled.of_none
      exact ⟨hsize, fun name => by rw [hindexed', hindexed, hnames]⟩
    · exact hs.keeps hs' hcalled.extends hinfo (hcalled.find? hinfo)

/-- A class is added after the builtin ones, of which the others are not disturbed, and a builtin
name cannot be given again. -/
theorem call_grows_builtins :
    let s := withBuiltins 0
    let made := Change.run (call (.define { name := "Node" })) s
    let refused := Change.run (call (.define { name := "int" })) s
    made.1 = .ok (some ⟨11⟩) ∧ made.2.size = 12 ∧
      (∀ info, s.find? ⟨7⟩ = some info → s.Keeps made.2 ⟨7⟩ info) ∧
      refused = (.error (.duplicateClass "int"), s) := by
  intro s made refused
  have hs : s.Reachable := .withBuiltins 0
  obtain ⟨htable, -⟩ := withBuiltins_spec 0
  -- The index cannot be evaluated, but the table of the builtin classes can.
  have hanswers (request : TableCall) : (Change.run (call request) s).1 =
      ((ClassTable.withBuiltins 0).call request).map Prod.fst := by
    rw [← htable, (call_grows.2 s request hs).1]
    cases (Change.run (call request) s).1 <;> rfl
  obtain ⟨-, -, happended, -, hkeeps⟩ := call_grows.2 s (.define { name := "Node" }) hs
  obtain ⟨-, hsame, -⟩ := call_grows.2 s (.define { name := "int" }) hs
  have hmade : made.1 = .ok (some ⟨11⟩) := (hanswers _).trans (by decide +kernel)
  have hrefused : refused.1 = .error (.duplicateClass "int") :=
    (hanswers _).trans (by decide +kernel)
  obtain ⟨hid, info, -, hclasses, -⟩ := happended ⟨11⟩ hmade
  refine ⟨hmade, ?_, hkeeps ⟨7⟩, Prod.ext hrefused (hsame _ hrefused)⟩
  have hsize : s.size = 11 := (ClassId.mk.inj hid).symm
  change made.2.classes.size = 12
  rw [hclasses, Array.size_push]
  exact congrArg (· + 1) hsize

end ClassStore

end FieldUpdater
