import FieldUpdater.Proofs.Signatures.Grammar

/-!
# Where a text stops being the beginning of a descriptor

Reading stops with the end of the characters, and then more characters would complete the
descriptor, or at a character. What stands before that character is still the beginning of a
descriptor and it is the character itself that cannot follow there. The one exception is a `V` in
the place of the result with something after it, which reading stops at although a descriptor may
well end with it.
-/

namespace FieldUpdater

namespace Signature

/-- The characters of a descriptor after the opening parenthesis. -/
def Accepted (cs : List Char) : Prop := ∃ s : Signature, s.WellFormed ∧ cs = s.chars

/-- The characters that can follow some brackets: those that a field type begins with, and if there
are no brackets the one that can stand in place of a field type. -/
def nextChars (brackets : Nat) (instead : Char) : List Char :=
  if brackets = 0 then instead :: typeStarts else typeStarts

/-- Where reading stops. -/
inductive StopsAt (cs : List Char) : Stop → Prop
  /-- More characters would complete a descriptor. -/
  | unfinished (more : List Char) (accepted : Accepted (cs ++ more)) : StopsAt cs .atEnd
  /-- There is something after a `V` in the place of the result. -/
  | void {params : List String} {more : List Char} (types : ∀ p ∈ params, FieldType p.toList)
      (trailing : more ≠ []) (split : cs = params.flatMap String.toList ++ ')' :: 'V' :: more) :
      StopsAt cs (.noType ('V' :: more))
  /-- After the beginning of a descriptor comes none of the few characters that can follow it. -/
  | stuck (before next : List Char) {c : Char} {more : List Char} (split : cs = before ++ c :: more)
      (viable : ∃ after, Accepted (before ++ after)) (ascii : ∀ a ∈ next, a.toNat < 128)
      (refused : c ∉ next) (dead : ∀ c' ∉ next, ∀ after, ¬ Accepted (before ++ c' :: after)) :
      StopsAt cs (.noType (c :: more))

variable {cs token rest more : List Char} {c instead : Char} {params : List String}
  {brackets : Nat} {stop : Stop}

/-- The characters of a descriptor are those that are read without an error. -/
theorem not_accepted_iff : ¬ Accepted cs ↔ ∃ stop, scan cs = .error stop := by
  simp only [Accepted, ← scan_eq_ok_iff]
  cases scan cs <;> simp

/-- What is read with an error is not what a descriptor has after the parenthesis. -/
theorem not_accepted_of_scan (h : scan cs = .error stop) : ¬ Accepted cs :=
  not_accepted_iff.mpr ⟨stop, h⟩

/-- Field types, the closing parenthesis and a result are the characters of a descriptor. -/
theorem accepted_of_types (result : Option String) (types : ∀ p ∈ params, FieldType p.toList)
    (type : ∀ r ∈ result, FieldType r.toList) :
    Accepted (params.flatMap String.toList ++ ')' :: (result.getD "V").toList) :=
  ⟨⟨params, result⟩, ⟨types, type⟩, rfl⟩

/-- A field type can be the result. -/
theorem accepted_of_result (types : ∀ p ∈ params, FieldType p.toList) (type : FieldType token) :
    Accepted (params.flatMap String.toList ++ ')' :: token) := by
  have := accepted_of_types (some (String.ofList token)) types
    (by rintro _ ⟨⟩; rwa [String.toList_ofList])
  simpa using this

/-- A field type can be the last parameter. -/
theorem accepted_of_param (types : ∀ p ∈ params, FieldType p.toList) (type : FieldType token) :
    Accepted (params.flatMap String.toList ++ (token ++ [')', 'V'])) := by
  have htypes : ∀ p ∈ params ++ [String.ofList token], FieldType p.toList := by
    intro p hp
    obtain hp | hp := List.mem_append.mp hp
    · exact types p hp
    · rwa [List.mem_singleton.mp hp, String.toList_ofList]
  have := accepted_of_types none htypes (by simp)
  simpa using this

/-- Brackets before a field type make array types. -/
theorem FieldType.replicate_append (type : FieldType token) (brackets : Nat) :
    FieldType (List.replicate brackets '[' ++ token) := by
  induction brackets with
  | zero => exact type
  | succ n ih => exact .array ih

/-- A character can follow brackets if a field type begins with it, or without brackets if it can
stand in place of one. -/
theorem mem_nextChars_iff :
    c ∈ nextChars brackets instead ↔ c ∈ typeStarts ∨ brackets = 0 ∧ c = instead := by
  unfold nextChars
  split <;> simp_all [or_comm]

/-- What can follow brackets takes one byte each. -/
theorem toNat_lt_of_mem_nextChars (hinstead : instead.toNat < 128) :
    ∀ a ∈ nextChars brackets instead, a.toNat < 128 := by
  intro a ha
  obtain ha | ⟨-, rfl⟩ := mem_nextChars_iff.mp ha
  · exact toNat_lt_of_mem_typeStarts a ha
  · exact hinstead

/-- What does not stand in place of a field type is not what could. -/
theorem head?_ne_of_not_mem_nextChars (hbracket : instead ≠ '[')
    (hrefused : c ∉ nextChars brackets instead) (more : List Char) :
    (List.replicate brackets '[' ++ c :: more).head? ≠ some instead := by
  cases brackets with
  | zero =>
    rintro ⟨⟩
    exact hrefused (mem_nextChars_iff.mpr (.inr ⟨rfl, rfl⟩))
  | succ n =>
    rintro ⟨⟩
    exact hbracket rfl

/-- Where no more parameters can be read there is no descriptor. -/
theorem scan_eq_error_of_params (h : scanParams cs #[] = .error stop) :
    scan cs = .error stop := by
  rw [scan_eq_bind, h]
  rfl

/-- A parameter does not begin with any other character. -/
theorem not_accepted_of_param (types : ∀ p ∈ params, FieldType p.toList)
    (hrefused : c ∉ nextChars brackets ')') (more : List Char) :
    ¬ Accepted (params.flatMap String.toList ++ (List.replicate brackets '[' ++ c :: more)) := by
  have hstarts : c ∉ typeStarts := fun hmem => hrefused (mem_nextChars_iff.mpr (.inl hmem))
  have opened := head?_ne_of_not_mem_nextChars (by decide) hrefused more
  apply not_accepted_of_scan
  apply scan_eq_error_of_params
  rw [scanParams_append types, scanParams_eq_bind opened, scanType_refused brackets hstarts]
  rfl

/-- A result does not begin with any other character. -/
theorem not_accepted_of_result (types : ∀ p ∈ params, FieldType p.toList)
    (hrefused : c ∉ nextChars brackets 'V') (more : List Char) :
    ¬ Accepted (params.flatMap String.toList ++
      ')' :: (List.replicate brackets '[' ++ c :: more)) := by
  have hstarts : c ∉ typeStarts := fun hmem => hrefused (mem_nextChars_iff.mpr (.inl hmem))
  have hhead := head?_ne_of_not_mem_nextChars (by decide) hrefused more
  have hvoid : List.replicate brackets '[' ++ c :: more ≠ ['V'] := fun hvoid =>
    hhead (congrArg List.head? hvoid)
  apply not_accepted_of_scan
  rw [scan_append types, scanResult_eq_bind hvoid, scanType_refused brackets hstarts]
  rfl

/-- Nothing comes after a field type for the result. -/
theorem not_accepted_of_trailing (types : ∀ p ∈ params, FieldType p.toList)
    (type : FieldType token) (c : Char) (more : List Char) :
    ¬ Accepted (params.flatMap String.toList ++ ')' :: (token ++ c :: more)) := by
  have hvoid : token ++ c :: more ≠ ['V'] := by
    obtain ⟨d, rest, rfl, hd⟩ := type.exists_cons
    intro hvoid
    cases (List.cons.inj hvoid).1
    exact absurd hd (by decide)
  apply not_accepted_of_scan
  rw [scan_append types, scanResult_eq_bind hvoid, type.scanType_append]
  rfl

/-- With something after it a `V` in the place of the result is not read. -/
theorem scan_void (types : ∀ p ∈ params, FieldType p.toList) (trailing : more ≠ []) :
    scan (params.flatMap String.toList ++ ')' :: 'V' :: more) =
      .error (.noType ('V' :: more)) := by
  have hvoid : 'V' :: more ≠ ['V'] := fun hvoid => trailing (List.cons.inj hvoid).2
  have hrefused := scanType_refused 0 (show 'V' ∉ typeStarts by decide) more
  rw [List.replicate_zero, List.nil_append] at hrefused
  rw [scan_append types, scanResult_eq_bind hvoid, hrefused]
  rfl

/-- Where no field type is read and the parameters do not end reading stops. -/
theorem stopsAt_of_params (types : ∀ p ∈ params, FieldType p.toList)
    (opened : rest.head? ≠ some ')') (stopped : scanType rest = .error stop) :
    StopsAt (params.flatMap String.toList ++ rest) stop := by
  have hscans := scansType rest
  rw [stopped] at hscans
  cases hscans with
  | unfinished more type =>
    apply StopsAt.unfinished (more ++ [')', 'V'])
    simpa using accepted_of_param types type
  | @refused brackets c more split refused =>
    subst split
    refine .stuck (params.flatMap String.toList ++ List.replicate brackets '[')
      (nextChars brackets ')') (by simp) ⟨['I', ')', 'V'], ?_⟩
      (toNat_lt_of_mem_nextChars (by decide)) ?_ fun c' hc' after => ?_
    · have type : FieldType (List.replicate brackets '[' ++ ['I']) :=
        (FieldType.primitive (by decide)).replicate_append brackets
      simpa using accepted_of_param types type
    · rintro hmem
      obtain hmem | ⟨rfl, rfl⟩ := mem_nextChars_iff.mp hmem
      · exact refused hmem
      · exact opened rfl
    · simpa using not_accepted_of_param types hc' after

/-- Where no field type is read for the result reading stops, but for a single `V`. -/
theorem stopsAt_of_result (types : ∀ p ∈ params, FieldType p.toList) (notVoid : rest ≠ ['V'])
    (stopped : scanType rest = .error stop) :
    StopsAt (params.flatMap String.toList ++ ')' :: rest) stop := by
  have hscans := scansType rest
  rw [stopped] at hscans
  cases hscans with
  | unfinished more type =>
    apply StopsAt.unfinished more
    simpa using accepted_of_result types type
  | @refused brackets c more split refused =>
    subst split
    by_cases hvoid : brackets = 0 ∧ c = 'V'
    · obtain ⟨rfl, rfl⟩ := hvoid
      exact .void types (by rintro rfl; exact notVoid rfl) rfl
    · refine .stuck (params.flatMap String.toList ++ ')' :: List.replicate brackets '[')
        (nextChars brackets 'V') (by simp) ⟨['I'], ?_⟩
        (toNat_lt_of_mem_nextChars (by decide)) ?_ fun c' hc' after => ?_
      · have type : FieldType (List.replicate brackets '[' ++ ['I']) :=
          (FieldType.primitive (by decide)).replicate_append brackets
        simpa using accepted_of_result types type
      · exact fun hmem => (mem_nextChars_iff.mp hmem).elim refused hvoid
      · simpa using not_accepted_of_result types hc' after

/-- Reading stops at the end or where a descriptor cannot go on. -/
theorem stopsAt_of_scan (h : scan cs = .error stop) : StopsAt cs stop := by
  have hparams := scansParams cs #[]
  cases hscan : scanParams cs #[] with
  | error stop' =>
    rw [scan_eq_error_of_params hscan] at h
    cases h
    rw [hscan] at hparams
    cases hparams with
    | stopped _ types split opened stopped =>
      rw [split]
      exact stopsAt_of_params types opened stopped
  | ok r =>
    rw [hscan] at hparams
    cases hparams with
    | @closed params rest types split =>
      have hresult := scansResult rest
      rw [split, scan_append types] at h
      cases hscan : scanResult rest <;> rw [hscan] at h hresult <;> cases h
      rw [split]
      cases hresult with
      | stopped notVoid stopped => exact stopsAt_of_result types notVoid stopped
      | @trailing token more c type hrest =>
        rw [hrest]
        refine .stuck (params.flatMap String.toList ++ ')' :: token) [] (by simp) ⟨[], ?_⟩
          (by simp) (by simp) fun c' _ after => ?_
        · simpa using accepted_of_result types type
        · simpa using not_accepted_of_trailing types type c' after

/-- What stands before the character that reading stops at is the beginning of a descriptor. -/
theorem StopsAt.viable (h : StopsAt cs (.noType rest)) :
    ∃ before c more, rest = c :: more ∧ cs = before ++ c :: more ∧
      ∃ after, Accepted (before ++ after) := by
  cases h with
  | @void params more types _ split =>
    refine ⟨params.flatMap String.toList ++ [')'], 'V', more, rfl, by simp [split], ['V'], ?_⟩
    simpa using accepted_of_types none types (by simp)
  | stuck before _ split viable => exact ⟨before, _, _, rfl, split, viable⟩

/-- Once reading has stopped before the end no more characters would complete a descriptor. -/
theorem StopsAt.not_accepted (h : StopsAt cs (.noType rest)) (after : List Char) :
    ¬ Accepted (cs ++ after) := by
  cases h with
  | @void params more types trailing split =>
    have htrailing : more ++ after ≠ [] := by simp [trailing]
    apply not_accepted_of_scan
    rw [split]
    simpa using scan_void types htrailing
  | @stuck before next c more split _ _ refused dead =>
    rw [split]
    simpa using dead c refused (more ++ after)

end Signature

end FieldUpdater
