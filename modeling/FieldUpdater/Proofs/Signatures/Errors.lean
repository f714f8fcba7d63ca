import FieldUpdater.Proofs.Signatures.Bytes
import FieldUpdater.Proofs.Signatures.Viability

/-!
# What the errors of the descriptor reader say

A text that is no descriptor either does not begin with a parenthesis, or is the beginning of a
descriptor, or has an offset from which on it cannot be one. The error tells which of the three it
is. The offset is that of the first byte that no descriptor has there, but that of the `V` if
something comes after a `V` in the place of the result.
-/

namespace FieldUpdater

namespace Signature

/-- The descriptors of methods. -/
def IsDescriptor (text : String) : Prop := ∃ s : Signature, s.WellFormed ∧ text = s.render

/-- At this offset stands a `V` in the place of the result, with something after it. -/
def VoidAt (text : String) (position : Nat) : Prop :=
  ∃ params more, (∀ p ∈ params, FieldType p.toList) ∧ more ≠ "" ∧
    text = "(" ++ String.join params ++ ")" ++ "V" ++ more ∧
    position = ("(" ++ String.join params ++ ")").utf8ByteSize

/-- At this offset a text stops being the beginning of a descriptor. -/
structure InvalidAt (text : String) (position : Nat) : Prop where
  /-- There is something at the offset. -/
  lt_size : position < text.utf8ByteSize
  /-- The offset is not inside a character. -/
  boundary : String.Pos.Raw.IsValid text ⟨position⟩
  /-- The bytes before the offset are the beginning of a descriptor. -/
  viable : ∃ descriptor, IsDescriptor descriptor ∧ (bytes text).take position <+: bytes descriptor
  /-- If something comes after a `V` in the place of the result, the offset is that of the `V`. -/
  void : ∀ position', VoidAt text position' → position = position'
  /-- Otherwise the bytes up to and with the one at the offset begin no descriptor. -/
  dead : (∀ position', ¬ VoidAt text position') → ∀ descriptor, IsDescriptor descriptor →
    ¬ (bytes text).take (position + 1) <+: bytes descriptor

variable {text : String} {cs before rest more : List Char} {c : Char} {position : Nat}

/-- A descriptor is a parenthesis and what a descriptor has after it. -/
theorem isDescriptor_iff (h : text.toList = '(' :: cs) : IsDescriptor text ↔ Accepted cs := by
  apply exists_congr
  intro s
  apply and_congr_right
  intro _
  rw [← String.toList_inj, h, toList_render, List.cons_inj_right]

/-- The bytes before the position of some characters are those of the characters before them. -/
theorem take_offset (h : text.toList = before ++ rest) :
    (bytes text).take (offset text rest) = before.flatMap String.utf8EncodeChar := by
  rw [bytes_eq_flatMap, h, offset_eq_byteCount h, List.flatMap_append, byteCount_eq_length,
    List.take_left]

/-- Where a `V` with something after it stands reading stops. -/
theorem VoidAt.eq_offset (h : VoidAt text position) (htext : text.toList = '(' :: cs)
    (hscan : scan cs = .error (.noType rest)) : offset text rest = position := by
  obtain ⟨params, more, types, trailing, rfl, rfl⟩ := h
  obtain rfl : params.flatMap String.toList ++ ')' :: 'V' :: more.toList = cs := by
    simpa [String.toList_join] using htext
  rw [scan_void types (by simpa using trailing)] at hscan
  cases hscan
  have hsplit : ("(" ++ String.join params ++ ")" ++ "V" ++ more).toList =
      ("(" ++ String.join params ++ ")").toList ++ 'V' :: more.toList := by simp
  rw [offset_eq_byteCount hsplit, byteCount, String.ofList_toList]

/-- Where no character can follow but some ASCII ones, the first byte of any other character cannot
follow either. -/
theorem not_take_prefix {next : List Char} (htext : text.toList = '(' :: (before ++ c :: more))
    (ascii : ∀ a ∈ next, a.toNat < 128) (refused : c ∉ next)
    (dead : ∀ c' ∉ next, ∀ after, ¬ Accepted (before ++ c' :: after)) {descriptor : String}
    (h : IsDescriptor descriptor) :
    ¬ (bytes text).take (offset text (c :: more) + 1) <+: bytes descriptor := by
  intro hprefix
  have hsplit : text.toList = ('(' :: before) ++ c :: more := htext
  obtain ⟨b, hbyte, hb⟩ := exists_byteAt?_offset hsplit
  rw [List.take_add_one, take_offset hsplit, ← byteAt?, hbyte, Option.toList_some,
    bytes_eq_flatMap] at hprefix
  obtain ⟨c', after, hdescriptor, hfirst⟩ := exists_of_flatMap_prefix hprefix
  refine dead c' (fun hmem => refused ?_) after ((isDescriptor_iff hdescriptor).mp h)
  have hbyte' := (head?_utf8EncodeChar_eq_iff (ascii c' hmem)).mpr rfl
  rw [hfirst, Option.some.injEq] at hbyte'
  rwa [(hb c' (ascii c' hmem)).mp hbyte']

/-- Where reading stops before the end a text stops being the beginning of a descriptor. -/
theorem invalidAt_of_scan (htext : text.toList = '(' :: cs)
    (hscan : scan cs = .error (.noType rest)) : InvalidAt text (offset text rest) := by
  have hstop := stopsAt_of_scan hscan
  obtain ⟨before, c, more, rfl, hcs, after, accepted⟩ := hstop.viable
  have hsplit : text.toList = ('(' :: before) ++ c :: more := by rw [htext, hcs]; rfl
  refine ⟨?_, isValid_offset hsplit, ?_, fun _ hvoid => hvoid.eq_offset htext hscan, ?_⟩
  · obtain ⟨b, hbyte, -⟩ := exists_byteAt?_offset hsplit
    exact lt_of_byteAt? hbyte
  · refine ⟨String.ofList ('(' :: (before ++ after)), ?_, ?_⟩
    · exact (isDescriptor_iff (String.toList_ofList ..)).mpr accepted
    · rw [take_offset hsplit, bytes_eq_flatMap, String.toList_ofList, ← List.cons_append,
        List.flatMap_append]
      exact List.prefix_append _ _
  · intro hnovoid descriptor hdescriptor
    cases hstop with
    | @void params more types trailing split =>
      have hmore : String.ofList more ≠ "" := by simpa [← String.toList_inj] using trailing
      have htrailing : text = "(" ++ String.join params ++ ")" ++ "V" ++ String.ofList more := by
        rw [← String.toList_inj, htext, split]
        simp [String.toList_join]
      exact absurd ⟨params, String.ofList more, types, hmore, htrailing, rfl⟩ (hnovoid _)
    | stuck _ _ split _ ascii refused dead =>
      exact not_take_prefix (by rw [htext, split]) ascii refused dead hdescriptor

/-- A text begins with a parenthesis if its first character is one. -/
theorem exists_eq_append_iff :
    (∃ rest, text = "(" ++ rest) ↔ text.toList.head? = some '(' := by
  rw [List.head?_eq_some_iff]
  constructor
  · rintro ⟨rest, rfl⟩
    exact ⟨rest.toList, by simp⟩
  · rintro ⟨cs, hcs⟩
    exact ⟨String.ofList cs, by rw [← String.toList_inj, hcs]; simp⟩

/-- A text in which reading stops is the beginning of a descriptor if it stops at the end. -/
theorem exists_isDescriptor_append_iff {stop : Stop} (htext : text.toList = '(' :: cs)
    (hscan : scan cs = .error stop) :
    (∃ more, more ≠ "" ∧ IsDescriptor (text ++ more)) ↔ stop = .atEnd := by
  have happend (more : String) : (text ++ more).toList = '(' :: (cs ++ more.toList) := by
    rw [String.toList_append, htext, List.cons_append]
  have hstop := stopsAt_of_scan hscan
  constructor
  · rintro ⟨more, -, hdescriptor⟩
    rw [isDescriptor_iff (happend more)] at hdescriptor
    cases stop with
    | atEnd => rfl
    | noType rest => exact absurd hdescriptor (hstop.not_accepted more.toList)
  · rintro rfl
    cases hstop with
    | unfinished more accepted =>
      refine ⟨String.ofList more, ?_, ?_⟩
      · rintro hempty
        obtain rfl : more = [] := by simpa [← String.toList_inj] using hempty
        rw [List.append_nil] at accepted
        exact not_accepted_of_scan hscan accepted
      · rwa [isDescriptor_iff (happend _), String.toList_ofList]

/-- Every text is read without cutting a character in two, and a text that is no descriptor is
refused for what it is: for not beginning with a parenthesis, for being over too early, or for what
stands at the offset where it stops being the beginning of a descriptor. -/
theorem errors_exact (text : String) :
    readBytes text = (parse text).mapError .refused ∧
      readBytes text ≠ .error .splitsCharacter ∧
      (¬ IsDescriptor text →
        (parse text = .error (.missingParameters text) ↔ ¬ ∃ rest, text = "(" ++ rest) ∧
        (parse text = .error (.unexpectedEnd text) ↔
          (∃ rest, text = "(" ++ rest) ∧ ∃ more, more ≠ "" ∧ IsDescriptor (text ++ more)) ∧
        ((∃ rest, text = "(" ++ rest) → (¬ ∃ more, more ≠ "" ∧ IsDescriptor (text ++ more)) →
          ∃ position, parse text = .error (.invalidType text position) ∧
            InvalidAt text position)) := by
  refine ⟨readBytes_eq text, ?_, fun hinvalid => ?_⟩
  · rw [readBytes_eq]
    cases parse text <;> rintro ⟨⟩
  rw [exists_eq_append_iff]
  by_cases hparen : text.toList.head? = some '('
  · obtain ⟨cs, htext⟩ := List.head?_eq_some_iff.mp hparen
    rw [isDescriptor_iff htext] at hinvalid
    obtain ⟨stop, hscan⟩ := not_accepted_iff.mp hinvalid
    rw [parse_of_toList htext, hscan, exists_isDescriptor_append_iff htext hscan]
    cases stop with
    | atEnd => simp [hparen, Except.mapError, Stop.toError]
    | noType rest =>
      refine ⟨by simp [hparen, Except.mapError, Stop.toError],
        by simp [Except.mapError, Stop.toError], fun _ _ => ?_⟩
      exact ⟨offset text rest, rfl, invalidAt_of_scan htext hscan⟩
  · rw [parse_of_head?_ne hparen]
    simp [hparen]

/-- A parameter does not begin with a character of two bytes. -/
theorem errors_exact_accented :
    ¬ IsDescriptor "(é)V" ∧ parse "(é)V" = .error (.invalidType "(é)V" 1) ∧
      InvalidAt "(é)V" 1 := by
  have htext : "(é)V".toList = '(' :: ['é', ')', 'V'] := rfl
  have hscan : scan ['é', ')', 'V'] = .error (.noType ['é', ')', 'V']) := by
    rw [scan_eq_bind, scanParams_eq_bind (by decide)]
    rfl
  have hinvalid : ¬ IsDescriptor "(é)V" := by
    rw [isDescriptor_iff htext]
    exact not_accepted_of_scan hscan
  have hdead : ¬ ∃ more, more ≠ "" ∧ IsDescriptor ("(é)V" ++ more) := by
    rw [exists_isDescriptor_append_iff htext hscan]
    rintro ⟨⟩
  have hparse : parse "(é)V" = .error (.invalidType "(é)V" 1) := by
    rw [parse_of_toList htext, hscan]
    rfl
  obtain ⟨position, hposition, hat⟩ := ((errors_exact "(é)V").2.2 hinvalid).2.2 ⟨"é)V", rfl⟩ hdead
  rw [hparse] at hposition
  cases hposition
  exact ⟨hinvalid, hparse, hat⟩

end Signature

end FieldUpdater
