import FieldUpdater.Proofs.Accessors.History
import FieldUpdater.Proofs.Compile.Method
import FieldUpdater.Proofs.Compile.Steady

/-!
# Eligible calls

A factory call is eligible when the instructions before it load the class being compiled, a
reference class and the name of a volatile instance field that the class itself declares
with that type, and control comes to these instructions only one after the other. The
signature of a reference class is that of no other class, so that nothing needs to be said
about the class of the field. Exactly the eligible calls of a class are replaced.
-/

namespace FieldUpdater

namespace ClassTable

variable {t : ClassTable} {c k : ClassId} {name signature : String} {f : Field}

/-- A field that is found belongs to the class itself exactly when the class declares it. -/
theorem Sound.findField?_declaring_iff (ht : t.Sound) :
    t.findField? c name signature = some f ∧ f.declaring = c ↔
      t.declaredField? c name signature = some f := by
  obtain ⟨bases, hlineage, hbases⟩ := t.lineage_eq_cons c
  rw [findField?, hlineage, List.findSome?_cons]
  cases hown : t.declaredField? c name signature with
  | some g =>
    simp only [Option.some.injEq, and_iff_left_iff_imp]
    rintro rfl
    exact ht.declaring_of_declaredField? hown
  | none =>
    simp only [reduceCtorEq, iff_false, not_and]
    intro hfound hdeclaring
    obtain ⟨k, hk, hdeclared⟩ := List.exists_of_findSome?_eq_some hfound
    have hlt := hbases k hk
    rw [← ht.declaring_of_declaredField? hdeclared, hdeclaring] at hlt
    exact Nat.lt_irrefl _ hlt

/-- A field with the signature of a reference class is of that class. -/
theorem Typed.type_eq_of_signature (ht : t.Typed) {valueName : String}
    (hclass : (t.resolve valueName).id = some k) (hkind : (t.resolve valueName).kind = .reference)
    (h : t.declaredField? c name (t.resolve valueName).signature = some f) : f.type = k := by
  have hlookup := ht.resolve_id_iff.mp hclass
  obtain ⟨⟨value, hvalue, -⟩, -⟩ := lookup_eq_some_iff.mp hlookup
  rw [resolve_of_lookup hlookup hvalue] at hkind h
  obtain ⟨info, hinfo, hmem, -, hsignature⟩ := mem_of_declaredField? h
  obtain ⟨-, type, htype, hsame⟩ := (ht c info hinfo).field f hmem
  have hreference : value.kind ≠ .primitive := by
    dsimp only at hkind
    rw [hkind]
    exact nofun
  exact (ht.eq_of_signature hvalue htype hreference (hsignature.symm.trans hsame)).symm

end ClassTable

/-- What a factory call is. -/
theorem Settings.isFactoryCall_iff {s : Settings} {pool : ConstantPool} {i : Instr} :
    s.isFactoryCall pool i = true ↔ s.enabled = true ∧ ∃ constant callee,
      i = ⟨.invokestatic, .pool constant⟩ ∧ pool.callee constant = .ok callee ∧
      callee.owner = s.factoryClass ∧ callee.name = s.factoryMethod ∧
      callee.descriptor = s.factoryDescriptor := by
  obtain ⟨opcode, operand⟩ := i
  unfold isFactoryCall Instr.poolIndex?
  cases operand with
  | pool constant =>
    cases hcallee : pool.callee constant with
    | error err => simp [hcallee]
    | ok callee =>
      simp only [hcallee, isCandidate, namesFactory, decide_eq_true_eq, Instr.mk.injEq,
        Operand.pool.injEq]
      constructor
      · rintro ⟨henabled, rfl, hfactory⟩
        exact ⟨henabled, constant, callee, ⟨rfl, rfl⟩, hcallee, hfactory⟩
      · rintro ⟨henabled, _, callee', ⟨rfl, rfl⟩, hcallee', hfactory⟩
        obtain rfl : callee = callee' := Except.ok.inj (hcallee.symm.trans hcallee')
        exact ⟨henabled, rfl, hfactory⟩
  | none => simp
  | localVar index => simp
  | int value => simp
  | target index => simp
  | classRef id => simp
  | fieldRef f => simp

/-- A call that can be replaced, with the field that its arguments name. -/
structure SourceClass.Eligible (settings : Settings) (c : SourceClass) (m : SourceMethod)
    (t : ClassTable) (index : Nat) (f : Field) : Prop where
  enabled : settings.enabled = true
  /-- The instruction is a static call of the factory. -/
  factory : ∃ constant callee, m.code[index]? = some ⟨.invokestatic, .pool constant⟩ ∧
    c.pool.callee constant = .ok callee ∧ callee.owner = settings.factoryClass ∧
    callee.name = settings.factoryMethod ∧ callee.descriptor = settings.factoryDescriptor
  three_le : 3 ≤ index
  /-- The three instructions before it load a name of the class being compiled, a name of a
  reference class and the name of a field; the field is the first of that name that the
  class itself declares with the signature of the reference class. -/
  arguments : ∃ owner value text ownerName valueName valueClass name,
    m.code[index - 3]? = some ⟨.ldc, .pool owner⟩ ∧
    m.code[index - 2]? = some ⟨.ldc, .pool value⟩ ∧
    m.code[index - 1]? = some ⟨.ldc, .pool text⟩ ∧
    c.pool.className? owner = some ownerName ∧ (t.resolve ownerName).id = some c.thisClass ∧
    c.pool.className? value = some valueName ∧ (t.resolve valueName).id = some valueClass ∧
    (t.resolve valueName).kind = .reference ∧ c.pool.text? text = some name ∧
    t.declaredField? c.thisClass name (t.resolve valueName).signature = some f
  /-- No jump of the method goes to one of the four instructions. -/
  no_jump : ∀ i ∈ m.code, ∀ target, i.branchTarget? = some target →
    ¬ (index - 3 ≤ target ∧ target ≤ index)
  /-- No handler of the method begins at one of the four instructions. -/
  no_handler : ∀ h ∈ m.handlers, ¬ (index - 3 ≤ h.entry ∧ h.entry ≤ index)
  not_static : f.isStatic = false
  isVolatile : f.isVolatile = true

namespace SourceClass

variable {settings : Settings} {c : SourceClass} {m : SourceMethod} {t : ClassTable} {index : Nat}
  {f : Field}

theorem Eligible.isFactoryCall (h : c.Eligible settings m t index f) :
    ∃ i, m.code[index]? = some i ∧ settings.isFactoryCall c.pool i = true := by
  obtain ⟨constant, callee, hcall, hcallee, hfactory⟩ := h.factory
  exact ⟨_, hcall, Settings.isFactoryCall_iff.mpr
    ⟨h.enabled, constant, callee, rfl, hcallee, hfactory⟩⟩

/-- Nothing goes to the instructions of an eligible call. -/
theorem Eligible.not_entered (h : c.Eligible settings m t index f) (hlt : index < m.code.size) :
    (c.window m index).isEntered = false := by
  refine (Window.isEntered_iff hlt).mpr fun k hk => ?_
  rcases Flow.mem_targets_iff.mp hk with ⟨i, hi, htarget⟩ | ⟨handler, hmem, rfl⟩
  · exact h.no_jump i hi k htarget
  · exact h.no_handler handler hmem

/-- The window of an eligible call names its field. -/
theorem Eligible.target? (h : c.Eligible settings m t index f) (ht : t.Reachable) :
    (c.window m index).target? t = some f := by
  obtain ⟨i, hi, -⟩ := h.isFactoryCall
  have hlt : index < m.code.size := (Array.getElem?_eq_some_iff.mp hi).1
  obtain ⟨owner, value, text, ownerName, valueName, valueClass, name, howner, hvalue, htext,
    hownerName, hthis, hvalueName, hclass, hkind, hname, hfield⟩ := h.arguments
  obtain ⟨hfound, hdeclaring⟩ := ht.sound.findField?_declaring_iff.mpr hfield
  exact Window.target?_eq_some_iff.mpr ⟨{
    owner, value, text, name, valueClass
    ownerType := t.resolve ownerName
    valueType := t.resolve valueName
    three_le := h.three_le
    lt_size := hlt
    lt_flags := hlt.trans_eq (Flow.size_flags m.code m.handlers).symm
    not_entered := h.not_entered hlt
    owner_load := howner
    value_load := hvalue
    text_load := htext
    owner_type := by simp [ClassTable.classConstant?, window, hownerName]
    value_type := by simp [ClassTable.classConstant?, window, hvalueName]
    text_name := hname
    owner_id := hthis
    value_kind := hkind
    value_id := hclass
    found := hfound
    not_static := h.not_static
    isVolatile := h.isVolatile
    declaring := hdeclaring
    type_eq := ht.typed.type_eq_of_signature hclass hkind hfield }⟩

/-- A factory call whose window names a field is eligible. -/
theorem eligible_of_target? (ht : t.Reachable) {i : Instr} (hi : m.code[index]? = some i)
    (hfactory : settings.isFactoryCall c.pool i = true)
    (hmatched : (c.window m index).target? t = some f) : c.Eligible settings m t index f := by
  obtain ⟨henabled, constant, callee, rfl, hcallee, hnames⟩ :=
    Settings.isFactoryCall_iff.mp hfactory
  obtain ⟨n⟩ := Window.target?_eq_some_iff.mp hmatched
  obtain ⟨ownerName, hownerName, hownerType⟩ := Option.map_eq_some_iff.mp n.owner_type
  obtain ⟨valueName, hvalueName, hvalueType⟩ := Option.map_eq_some_iff.mp n.value_type
  have hfield := ht.sound.findField?_declaring_iff.mp ⟨n.found, n.declaring⟩
  have hentered := (Window.isEntered_iff n.lt_size).mp n.not_entered
  exact {
    enabled := henabled
    factory := ⟨constant, callee, hi, hcallee, hnames⟩
    three_le := n.three_le
    arguments := ⟨n.owner, n.value, n.text, ownerName, valueName, n.valueClass, n.name,
      n.owner_load, n.value_load, n.text_load, hownerName, hownerType ▸ n.owner_id, hvalueName,
      hvalueType ▸ n.value_id, hvalueType ▸ n.value_kind, n.text_name, hvalueType ▸ hfield⟩
    no_jump := fun i hi target htarget =>
      hentered target (Flow.mem_targets_iff.mpr (.inl ⟨i, hi, htarget⟩))
    no_handler := fun handler hmem =>
      hentered _ (Flow.mem_targets_iff.mpr (.inr ⟨handler, hmem, rfl⟩))
    not_static := n.not_static
    isVolatile := n.isVolatile }

/-- A call is eligible exactly when it is a factory call whose window names the field. -/
theorem eligible_iff (c : SourceClass) (ht : t.Reachable) : c.Eligible settings m t index f ↔
    (∃ i, m.code[index]? = some i ∧ settings.isFactoryCall c.pool i = true) ∧
      (c.window m index).target? t = some f :=
  ⟨fun h => ⟨h.isFactoryCall, h.target? ht⟩,
    fun ⟨⟨_, hi, hfactory⟩, hmatched⟩ => eligible_of_target? ht hi hfactory hmatched⟩

end SourceClass

namespace Compile

variable {settings : Settings} {c : SourceClass} {m : SourceMethod} {cm : CompiledMethod}
  {t : ClassTable} {space space' : Workspace} {mode : Arithmetic}

/-- Every instruction that is to be replaced becomes a site. -/
theorem exists_site (ht : t.Reachable) (hunder : Underway c t space)
    (h : method settings c m space mode = (.ok cm, space')) {k : Nat} {i : Instr} {f : Field}
    (hi : m.code[k]? = some i) (hreplaced : replaced? settings c m k i t = some f) :
    ∃ site ∈ cm.sites, site.index = k := by
  obtain ⟨d, hinstrs, -, hsites⟩ := of_method h
  -- Of the instructions compiled so far, none of these has been kept.
  have hall : Underway c t space' ∧ ∀ k < m.code.size, ∀ i f, m.code[k]? = some i →
      replaced? settings c m k i t = some f → ∃ site ∈ d.sites, site.index = k := by
    refine instrs_invariant (P := fun index d space => Underway c t space ∧ ∀ k < index, ∀ i f,
      m.code[k]? = some i → replaced? settings c m k i t = some f →
      ∃ site ∈ d.sites, site.index = k) ?_ ⟨hunder, nofun⟩ hinstrs
    rintro index i d space d' space' hi ⟨hunder, hbefore⟩ hc
    refine ⟨hc.keeps (Underway.kept settings c ht) hunder, fun k hk i' f hi' hreplaced' => ?_⟩
    rcases Nat.lt_succ_iff_lt_or_eq.mp hk with hlt | rfl
    · obtain ⟨site, hsite, hindex⟩ := hbefore k hlt i' f hi' hreplaced'
      cases hc with
      | kept _ _ _ => exact ⟨site, hsite, hindex⟩
      | replaced _ _ _ _ => exact ⟨site, Array.mem_push_of_mem _ hsite, hindex⟩
    · obtain rfl : i = i' := Option.some.inj (hi.symm.trans hi')
      cases hc with
      | kept hno _ _ =>
        rw [← hunder.replaced?_eq, replaced?_eq_none_iff.mpr hno] at hreplaced'
        cases hreplaced'
      | replaced _ _ _ _ => exact ⟨_, Array.mem_push_self, rfl⟩
  rw [hsites]
  exact hall.2 k (Array.getElem?_eq_some_iff.mp hi).1 i f hi hreplaced

/-- Exactly the eligible calls of a method are replaced, each by the construction of its
field's accessor. -/
theorem replacement?_iff (ht : t.Reachable) (hunder : Underway c t space)
    (h : method settings c m space mode = (.ok cm, space')) (index : Nat) :
    ((Layout.replacement? cm.sites index).isSome ↔ ∃ f, c.Eligible settings m t index f) ∧
      ∀ k, Layout.replacement? cm.sites index = some k → ∃ f a, c.Eligible settings m t index f ∧
        space'.registry.find? f.key = some a ∧ a.classId = k := by
  obtain ⟨hlinked, -, hstands⟩ := linked_of_method h
  have hafter := method_keeps (Underway.kept settings c ht) mode m hunder
  rw [h] at hafter
  have heligible {k : ClassId} (hreplaced : Layout.replacement? cm.sites index = some k) :
      ∃ f a, c.Eligible settings m t index f ∧ space'.registry.find? f.key = some a ∧
        a.classId = k := by
    obtain ⟨f, a, hstand⟩ := hstands _ (mem_of_replacement? hreplaced)
    refine ⟨f, a, (c.eligible_iff ht).mpr ⟨hstand.factory, ?_⟩, hstand.entry, hstand.constructed⟩
    exact (hafter.steady m index).symm.trans hstand.matched
  refine ⟨⟨fun hsome => ?_, ?_⟩, fun k => heligible⟩
  · obtain ⟨k, hk⟩ := Option.isSome_iff_exists.mp hsome
    obtain ⟨f, -, hf, -⟩ := heligible hk
    exact ⟨f, hf⟩
  · rintro ⟨f, hf⟩
    obtain ⟨⟨i, hi, hfactory⟩, hmatched⟩ := (c.eligible_iff ht).mp hf
    obtain ⟨site, hsite, rfl⟩ :=
      exists_site ht hunder h hi (replaced?_eq_some_iff.mpr ⟨hfactory, hmatched⟩)
    rw [replacement?_of_mem hstands hsite]
    rfl

end Compile

/-- In a class that is compiled with success exactly the eligible calls are replaced, and each
is replaced by the construction of the accessor that the registry has for the field that the
call names. -/
theorem SourceClass.replaced_iff_eligible {settings : Settings} {c : SourceClass}
    {compiled : CompiledClass} {space space' : Workspace} {mode : Arithmetic}
    (ht : space.table.Reachable) (h : c.compile settings space mode = (.ok compiled, space')) :
    List.Forall₂ (fun m cm => Layout.Linked m cm ∧ ∀ index,
      ((Layout.replacement? cm.sites index).isSome ↔
        ∃ f, c.Eligible settings m space.table index f) ∧
      ∀ k, Layout.replacement? cm.sites index = some k →
        ∃ f a, c.Eligible settings m space.table index f ∧
          space'.registry.find? f.key = some a ∧ a.classId = k) c.methods compiled.methods := by
  obtain ⟨-, hmethods⟩ := of_compile_keeping (Compile.Underway.kept settings c ht)
    (Compile.Underway.start ht) h
  refine hmethods.imp ?_
  rintro m cm ⟨before, after, hunder, hmethod, -, hgrows⟩
  refine ⟨(Compile.linked_of_method hmethod).1, fun index => ?_⟩
  obtain ⟨hiff, hclass⟩ := Compile.replacement?_iff ht hunder hmethod index
  refine ⟨hiff, fun k hk => ?_⟩
  obtain ⟨f, a, heligible, hentry, hconstructed⟩ := hclass k hk
  exact ⟨f, a, heligible, hgrows.entry _ _ hentry, hconstructed⟩

/-- The sixth instruction of the sample is its only eligible call, and names the volatile
field. -/
theorem SourceClass.replaced_iff_eligible_node : Sample.space.table.Reachable ∧
    (∃ f, Sample.node.Eligible {} Sample.updater Sample.space.table 5 f) ∧
    ∀ index f, Sample.node.Eligible {} Sample.updater Sample.space.table index f → index = 5 := by
  obtain ⟨compiled, space', hcompile, hsites⟩ := Sample.compile_node
  have hmethods := replaced_iff_eligible Sample.reachable_table hcompile
  obtain ⟨cm, rest, ⟨-, heligible⟩, hrest, heq⟩ := List.forall₂_cons_left_iff.mp hmethods
  rw [heq, List.map_cons] at hsites
  have hsite : cm.sites = #[⟨5, ⟨13⟩⟩] := (List.cons.inj hsites).1
  refine ⟨Sample.reachable_table, (heligible 5).1.mp (by rw [hsite]; rfl), fun index f hf => ?_⟩
  have hsome := (heligible index).1.mpr ⟨f, hf⟩
  rw [hsite] at hsome
  by_contra hne
  simp [Layout.replacement?, Ne.symm hne] at hsome

end FieldUpdater
