import FieldUpdater.Code.SignatureBytes
import FieldUpdater.Proofs.Signatures.Grammar
import Mathlib.Data.String.Basic

/-!
# Reading by bytes

The bytes of a text can be told apart into characters in one way only, and an ASCII character is
known by its first byte. So a position that reading by bytes gets to is the one before some of the
characters at the end of the text, and what is read from there on is what is read of those
characters. No piece of the text is therefore cut out inside a character.
-/

namespace FieldUpdater

namespace Signature

/-- The position of the characters at the end of a text. -/
def offset (text : String) (rest : List Char) : Nat := text.utf8ByteSize - byteCount rest

/-- The fault of a text in which reading by characters stopped. -/
def Stop.toFault (text : String) (stop : Stop) : ByteFault := .refused (stop.toError text)

variable {text : String} {cs before token rest : List Char} {c a : Char} {pos : Nat}

@[simp] theorem byteCount_nil : byteCount [] = 0 := rfl

@[simp] theorem byteCount_cons (c : Char) (cs : List Char) :
    byteCount (c :: cs) = c.utf8Size + byteCount cs := by
  simp [byteCount, String.utf8ByteSize_ofList]

@[simp] theorem byteCount_append (cs ds : List Char) :
    byteCount (cs ++ ds) = byteCount cs + byteCount ds := by
  simp [byteCount, String.utf8ByteSize_ofList]

/-- The bytes of a text are those of its characters, one after the other. -/
theorem bytes_eq_flatMap (text : String) :
    bytes text = text.toList.flatMap String.utf8EncodeChar := by
  rw [bytes, ← String.utf8Encode_toList, List.utf8Encode, List.data_toByteArray]

/-- The number of bytes of characters. -/
theorem byteCount_eq_length (cs : List Char) :
    byteCount cs = (cs.flatMap String.utf8EncodeChar).length := by
  induction cs with
  | nil => rfl
  | cons c cs ih => simp [ih]

/-- No character begins with the bytes of another one. -/
theorem eq_of_utf8EncodeChar_append {c d : Char} {after after' : List UInt8}
    (h : String.utf8EncodeChar c ++ after = String.utf8EncodeChar d ++ after') : c = d := by
  have hc := ByteArray.utf8DecodeChar?_utf8EncodeChar_append (b := after.toByteArray) (c := c)
  rw [← List.toByteArray_append, h, List.toByteArray_append,
    ByteArray.utf8DecodeChar?_utf8EncodeChar_append] at hc
  exact (Option.some.inj hc).symm

/-- A character has a first byte. -/
theorem exists_utf8EncodeChar (c : Char) : ∃ b after, String.utf8EncodeChar c = b :: after := by
  cases hc : String.utf8EncodeChar c with
  | nil =>
    have := c.utf8Size_pos
    rw [← String.length_utf8EncodeChar, hc] at this
    cases this
  | cons b after => exact ⟨b, after, rfl⟩

/-- Bytes that begin with those of some characters are bytes of those characters and of others
after them, of which the first one begins with the next byte. -/
theorem exists_of_flatMap_prefix {b : UInt8}
    (h : before.flatMap String.utf8EncodeChar ++ [b] <+: cs.flatMap String.utf8EncodeChar) :
    ∃ c after, cs = before ++ c :: after ∧ (String.utf8EncodeChar c).head? = some b := by
  obtain ⟨extra, h⟩ := h
  induction before generalizing cs with
  | nil =>
    cases cs with
    | nil => cases h
    | cons c after =>
      refine ⟨c, after, rfl, ?_⟩
      obtain ⟨d, more, hc⟩ := exists_utf8EncodeChar c
      rw [List.flatMap_cons, hc] at h
      rw [hc, List.head?_cons, (List.cons.inj h).1]
  | cons c before ih =>
    cases cs with
    | nil =>
      have := congrArg List.length h
      simp at this
    | cons d cs =>
      simp only [List.flatMap_cons, List.append_assoc] at h
      obtain rfl := eq_of_utf8EncodeChar_append h
      obtain ⟨e, after, rfl, he⟩ := ih (by simpa using h)
      exact ⟨e, after, rfl, he⟩

/-- An ASCII character has one byte. -/
theorem utf8Size_eq_one (ha : a.toNat < 128) : a.utf8Size = 1 :=
  Char.utf8Size_eq_one_iff.mpr (UInt32.le_iff_toNat_le.mpr (Nat.le_of_lt_succ ha))

/-- An ASCII character is known by its first byte. -/
theorem head?_utf8EncodeChar_eq_iff (ha : a.toNat < 128) :
    (String.utf8EncodeChar c).head? = some a.toUInt8 ↔ c = a := by
  have hbyte : String.utf8EncodeChar a = [a.toUInt8] :=
    String.utf8EncodeChar_eq_singleton (utf8Size_eq_one ha)
  constructor
  · intro hhead
    obtain ⟨b, after, hc⟩ := exists_utf8EncodeChar c
    rw [hc, List.head?_cons, Option.some.injEq] at hhead
    have happend : String.utf8EncodeChar c ++ [] = String.utf8EncodeChar a ++ after := by
      rw [hc, hbyte, hhead, List.append_nil, List.singleton_append]
    exact eq_of_utf8EncodeChar_append happend
  · rintro rfl
    rw [hbyte]
    rfl

/-- The position of the last characters is the number of bytes before them. -/
theorem offset_eq_byteCount (h : text.toList = before ++ rest) :
    offset text rest = byteCount before := by
  have hsize : text.utf8ByteSize = byteCount text.toList := by
    rw [byteCount, String.ofList_toList]
  rw [offset, hsize, h, byteCount_append, Nat.add_sub_cancel]

@[simp] theorem offset_nil (text : String) : offset text [] = text.utf8ByteSize := rfl

/-- The position after some characters is further by their bytes. -/
theorem offset_append (h : text.toList = before ++ (token ++ rest)) :
    offset text rest = offset text (token ++ rest) + byteCount token := by
  rw [offset_eq_byteCount h, offset_eq_byteCount ((List.append_assoc ..).symm ▸ h),
    byteCount_append]

/-- The position after an ASCII character is the next one. -/
theorem offset_tail (h : text.toList = before ++ c :: cs) (hc : c.toNat < 128) :
    offset text cs = offset text (c :: cs) + 1 := by
  have hchar : text.toList = before ++ ([c] ++ cs) := h
  have := offset_append hchar
  rwa [byteCount_cons, utf8Size_eq_one hc] at this

/-- At a position there is the first byte of the characters from it on. -/
theorem byteAt?_offset (h : text.toList = before ++ rest) :
    byteAt? text (offset text rest) = (rest.flatMap String.utf8EncodeChar)[0]? := by
  rw [byteAt?, bytes_eq_flatMap, h, offset_eq_byteCount h, List.flatMap_append,
    byteCount_eq_length, List.getElem?_append_right (Nat.le_refl _), Nat.sub_self]

/-- At the end of a text there is no byte. -/
theorem byteAt?_offset_nil (text : String) : byteAt? text (offset text []) = none := by
  rw [byteAt?_offset (List.append_nil text.toList).symm]
  rfl

/-- Before a character there is its first byte. -/
theorem exists_byteAt?_offset (h : text.toList = before ++ c :: cs) :
    ∃ b, byteAt? text (offset text (c :: cs)) = some b ∧
      ∀ a, a.toNat < 128 → (b = a.toUInt8 ↔ c = a) := by
  obtain ⟨b, after, hc⟩ := exists_utf8EncodeChar c
  refine ⟨b, ?_, fun a ha => ?_⟩
  · rw [byteAt?_offset h, List.flatMap_cons, hc]
    rfl
  · rw [← head?_utf8EncodeChar_eq_iff ha, hc, List.head?_cons, Option.some.injEq]

/-- A position before characters is not inside a character. -/
theorem isValid_offset (h : text.toList = before ++ rest) :
    String.Pos.Raw.IsValid text ⟨offset text rest⟩ := by
  rw [String.Pos.Raw.isValid_iff_exists_append]
  refine ⟨String.ofList before, String.ofList rest, ?_, ?_⟩
  · rw [← String.ofList_append, ← h, String.ofList_toList]
  · rw [offset_eq_byteCount h]
    rfl

/-- Between two positions before characters there are the characters in between. -/
theorem slice_offset (h : text.toList = before ++ (token ++ rest)) :
    slice text (offset text (token ++ rest)) (offset text rest) = .ok (String.ofList token) := by
  have hassoc : text.toList = (before ++ token) ++ rest := by rw [h, List.append_assoc]
  have hstop := offset_append h
  rw [slice, if_pos ⟨by omega, String.Pos.Raw.isValid_eq_true_iff.mpr (isValid_offset h),
    String.Pos.Raw.isValid_eq_true_iff.mpr (isValid_offset hassoc)⟩]
  have hpiece := String.extract_of_valid before token rest
  rw [← hassoc, String.ofList_toList, ← String.utf8ByteSize_ofList,
    ← String.utf8ByteSize_ofList] at hpiece
  rw [hstop, offset_eq_byteCount h]
  exact congrArg Except.ok hpiece

/-- Brackets are passed over. -/
theorem typeEnd_bracket (h : byteAt? text pos = some '['.toUInt8) :
    typeEnd text pos = typeEnd text (pos + 1) := by
  unfold typeEnd
  rw [skipBrackets, dif_pos h]

/-- Nothing but brackets is passed over. -/
theorem skipBrackets_of_ne (h : byteAt? text pos ≠ some '['.toUInt8) :
    skipBrackets text pos = pos := by
  rw [skipBrackets, dif_neg h]

/-- Before anything but a bracket one byte tells what type begins there. -/
theorem typeEnd_of_byteAt? {b : UInt8} (hbyte : byteAt? text pos = some b)
    (hbracket : b ≠ '['.toUInt8) :
    typeEnd text pos =
      if b ∈ primitiveLetters.map Char.toUInt8 then .ok (pos + 1)
      else if b = 'L'.toUInt8 then
        (slice text pos text.utf8ByteSize).bind fun rest =>
          match semicolon? rest with
          | some semicolon => .ok (pos + semicolon + 1)
          | none => .error (.refused (.unexpectedEnd text))
      else .error (.refused (.invalidType text pos)) := by
  have hskip : skipBrackets text pos = pos :=
    skipBrackets_of_ne (by rw [hbyte]; exact fun h => hbracket (Option.some.inj h))
  unfold typeEnd
  rw [hskip]
  dsimp only
  rw [hbyte]
  dsimp only
  cases slice text pos text.utf8ByteSize <;> rfl

/-- The primitive letters are ASCII. -/
theorem toNat_lt_of_mem_primitiveLetters (h : c ∈ primitiveLetters) : c.toNat < 128 :=
  toNat_lt_of_mem_typeStarts c (mem_typeStarts_iff.mpr (.inr (.inr h)))

/-- A primitive letter is known by its first byte. -/
theorem mem_map_toUInt8_iff {b : UInt8} (hb : ∀ a, a.toNat < 128 → (b = a.toUInt8 ↔ c = a)) :
    b ∈ primitiveLetters.map Char.toUInt8 ↔ isPrimitiveLetter c = true := by
  rw [isPrimitiveLetter_iff, List.mem_map]
  constructor
  · rintro ⟨a, ha, hbyte⟩
    rwa [(hb a (toNat_lt_of_mem_primitiveLetters ha)).mp hbyte.symm]
  · exact fun hc => ⟨c, hc, ((hb c (toNat_lt_of_mem_primitiveLetters hc)).mpr rfl).symm⟩

/-- The name of an object type ends with the first semicolon. -/
theorem semicolon?_eq_some (closed : ';' ∉ cs) (rest : List Char) :
    semicolon? (String.ofList (cs ++ ';' :: rest)) = some (byteCount cs) := by
  rw [semicolon?, String.toList_ofList, if_pos (by simp), (takeWhile_dropWhile_of_closed closed).1]

/-- Without a semicolon an object type does not end. -/
theorem semicolon?_eq_none (hopen : ';' ∉ cs) : semicolon? (String.ofList cs) = none := by
  rw [semicolon?, String.toList_ofList, if_neg hopen]

/-- From `L` on an object type is read as from its characters on. -/
theorem typeEnd_object (h : text.toList = before ++ 'L' :: cs) :
    typeEnd text (offset text ('L' :: cs)) =
      ((scanType ('L' :: cs)).map fun r => offset text r.2).mapError (Stop.toFault text) := by
  obtain ⟨b, hbyte, hb⟩ := exists_byteAt?_offset h
  obtain rfl : b = 'L'.toUInt8 := (hb 'L' (by decide)).mpr rfl
  have hall : text.toList = before ++ ('L' :: cs ++ []) := by rwa [List.append_nil]
  have hslice := slice_offset hall
  rw [List.append_nil, offset_nil] at hslice
  rw [typeEnd_of_byteAt? hbyte (by decide), if_neg (by decide), if_pos rfl, hslice]
  dsimp only [Except.bind]
  by_cases hclosed : ';' ∈ cs
  · obtain ⟨name, rest, rfl, closed⟩ := List.eq_append_cons_of_mem hclosed
    have hread := (FieldType.object closed).scanType_append rest
    have htype : text.toList = before ++ ('L' :: (name ++ [';']) ++ rest) := by simpa using h
    have hend := offset_append htype
    have hname : ';' ∉ 'L' :: name := by simpa using closed
    have hsemicolon := semicolon?_eq_some hname rest
    simp only [List.cons_append, List.append_assoc, List.nil_append] at hread hend hsemicolon
    rw [hread, hsemicolon]
    refine congrArg Except.ok (Eq.trans ?_ hend.symm)
    simp [show ';'.utf8Size = 1 from rfl, Nat.add_assoc]
  · have hopen : ';' ∉ 'L' :: cs := by simpa using hclosed
    rw [semicolon?_eq_none hopen, scanType_of_open hclosed]
    rfl

/-- From any other character than a bracket and `L` on one primitive letter is read. -/
theorem typeEnd_letter (hbracket : c ≠ '[') (hobject : c ≠ 'L')
    (h : text.toList = before ++ c :: cs) :
    typeEnd text (offset text (c :: cs)) =
      ((scanType (c :: cs)).map fun r => offset text r.2).mapError (Stop.toFault text) := by
  obtain ⟨b, hbyte, hb⟩ := exists_byteAt?_offset h
  have hL : b ≠ 'L'.toUInt8 := fun heq => hobject ((hb 'L' (by decide)).mp heq)
  rw [typeEnd_of_byteAt? hbyte fun heq => hbracket ((hb '[' (by decide)).mp heq), if_neg hL,
    scanType_letter hbracket hobject]
  by_cases hletter : isPrimitiveLetter c = true
  · have hascii := toNat_lt_of_mem_primitiveLetters (isPrimitiveLetter_iff.mp hletter)
    rw [if_pos ((mem_map_toUInt8_iff hb).mpr hletter), if_pos hletter, ← offset_tail h hascii]
    rfl
  · rw [if_neg (hletter ∘ (mem_map_toUInt8_iff hb).mp), if_neg hletter]
    rfl

/-- From a position on a field type is read as from its characters on. -/
theorem typeEnd_offset (h : text.toList = before ++ cs) :
    typeEnd text (offset text cs) =
      ((scanType cs).map fun r => offset text r.2).mapError (Stop.toFault text) := by
  induction cs generalizing before with
  | nil =>
    have hbyte := byteAt?_offset_nil text
    unfold typeEnd
    rw [skipBrackets_of_ne (by rw [hbyte]; rintro ⟨⟩)]
    dsimp only
    rw [hbyte]
    rfl
  | cons c cs ih =>
    by_cases hbracket : c = '['
    · subst hbracket
      obtain ⟨b, hbyte, hb⟩ := exists_byteAt?_offset h
      rw [(hb '[' (by decide)).mpr rfl] at hbyte
      rw [typeEnd_bracket hbyte, ← offset_tail h (by decide), ih (List.append_cons .. ▸ h),
        scanType_bracket]
      cases scanType cs <;> rfl
    · by_cases hobject : c = 'L'
      · subst hobject
        exact typeEnd_object h
      · exact typeEnd_letter hbracket hobject h

/-- Parameters are cut out one after the other until the closing parenthesis. -/
theorem readParams_eq (text : String) (pos : Nat) (done : Array String) :
    readParams text pos done =
      match byteAt? text pos with
      | none => .error (.refused (.unexpectedEnd text))
      | some b =>
        if b = ')'.toUInt8 then .ok (done, pos + 1)
        else (typeEnd text pos).bind fun stop =>
          (slice text pos stop).bind fun param => readParams text stop (done.push param) := by
  rw [readParams]
  split <;> rename_i hbyte <;> rw [hbyte]
  dsimp only
  refine if_congr Iff.rfl rfl ?_
  split <;> rename_i hend <;> rw [hend]
  · rfl
  · dsimp only [Except.bind]
    split <;> rename_i hslice <;> rw [hslice]

/-- From a position on parameters are read as from its characters on. -/
theorem readParams_offset (h : text.toList = before ++ cs) (done : Array String) :
    readParams text (offset text cs) done =
      ((scanParams cs done).map fun r => (r.1, offset text r.2)).mapError
        (Stop.toFault text) := by
  induction cs, done using scanParams.induct generalizing before with
  | case1 done =>
    rw [readParams_eq, byteAt?_offset_nil, scanParams]
    rfl
  | case2 done rest =>
    obtain ⟨b, hbyte, hb⟩ := exists_byteAt?_offset h
    rw [readParams_eq, hbyte, scanParams]
    dsimp only
    rw [if_pos ((hb ')' (by decide)).mpr rfl), ← offset_tail h (by decide)]
    rfl
  | case3 done c more hclose stop hstop =>
    obtain ⟨b, hbyte, hb⟩ := exists_byteAt?_offset h
    have opened : (c :: more).head? ≠ some ')' := by simpa using hclose
    rw [readParams_eq, hbyte, scanParams_eq_bind opened, hstop]
    dsimp only
    rw [if_neg (hclose ∘ (hb ')' (by decide)).mp), typeEnd_offset h, hstop]
    rfl
  | case4 done c more hclose token rest hread ih =>
    obtain ⟨b, hbyte, hb⟩ := exists_byteAt?_offset h
    have opened : (c :: more).head? ≠ some ')' := by simpa using hclose
    have hscans := scansType (c :: more)
    rw [hread] at hscans
    cases hscans with
    | read _ split =>
      have hslice := slice_offset (split ▸ h)
      rw [readParams_eq, hbyte, scanParams_eq_bind opened, hread]
      dsimp only
      rw [if_neg (hclose ∘ (hb ')' (by decide)).mp), typeEnd_offset h, hread]
      dsimp only [Except.map, Except.mapError, Except.bind]
      rw [split, hslice]
      exact ih (by rw [h, split, List.append_assoc])

/-- Only the end of a text has no characters after it. -/
theorem offset_eq_size_iff (h : text.toList = before ++ rest) :
    offset text rest = text.utf8ByteSize ↔ rest = [] := by
  have hall : text.toList = before ++ (rest ++ []) := by rwa [List.append_nil]
  have hend := offset_append hall
  rw [List.append_nil, offset_nil] at hend
  cases rest with
  | nil => simp
  | cons c cs =>
    have := c.utf8Size_pos
    rw [byteCount_cons] at hend
    simp only [reduceCtorEq, iff_false]
    omega

/-- From a position on a result is read as from its characters on. -/
theorem readResult_offset (h : text.toList = before ++ cs) :
    readResult text (offset text cs) = (scanResult cs).mapError (Stop.toFault text) := by
  by_cases hvoid : cs = ['V']
  · subst hvoid
    obtain ⟨b, hbyte, hb⟩ := exists_byteAt?_offset h
    have hend := offset_tail h (by decide)
    unfold readResult
    rw [hbyte]
    dsimp only
    rw [if_pos ⟨(hb 'V' (by decide)).mpr rfl, hend.symm⟩]
    rfl
  · rw [scanResult_eq_bind hvoid]
    unfold readResult
    cases cs with
    | nil =>
      rw [byteAt?_offset_nil]
      rfl
    | cons c more =>
      obtain ⟨b, hbyte, hb⟩ := exists_byteAt?_offset h
      have hmore : ¬ (b = 'V'.toUInt8 ∧ offset text (c :: more) + 1 = text.utf8ByteSize) := by
        rintro ⟨heq, hsize⟩
        obtain rfl := (hb 'V' (by decide)).mp heq
        rw [← offset_tail h (by decide), offset_eq_size_iff (List.append_cons .. ▸ h)] at hsize
        exact hvoid (congrArg _ hsize)
      rw [hbyte]
      dsimp only
      rw [if_neg hmore, typeEnd_offset h]
      have hscans := scansType (c :: more)
      cases hscan : scanType (c :: more) with
      | error stop => rfl
      | ok r =>
        obtain ⟨token, rest⟩ := r
        rw [hscan] at hscans
        cases hscans with
        | read _ split =>
          have hslice := slice_offset (split ▸ h)
          have hrest : text.toList = before ++ token ++ rest := by
            rw [h, split, List.append_assoc]
          have hsize := offset_eq_size_iff hrest
          dsimp only [Except.map, Except.mapError, Except.bind]
          by_cases hrest : rest = []
          · rw [if_pos (hsize.mpr hrest), if_pos hrest, split, hslice]
          · rw [if_neg (hrest ∘ hsize.mp), if_neg hrest]
            rfl

/-- Reading by bytes is reading by characters: no piece of the text that it cuts out begins or ends
inside a character. -/
theorem readBytes_eq (text : String) : readBytes text = (parse text).mapError .refused := by
  have hstart : offset text text.toList = 0 := offset_eq_byteCount (List.nil_append _).symm
  unfold readBytes
  cases htext : text.toList with
  | nil =>
    have hbyte := byteAt?_offset_nil text
    rw [← htext, hstart] at hbyte
    rw [hbyte, parse_of_head?_ne (by rw [htext]; rintro ⟨⟩)]
    rfl
  | cons c cs =>
    have h : text.toList = [] ++ c :: cs := htext
    obtain ⟨b, hbyte, hb⟩ := exists_byteAt?_offset h
    rw [← htext, hstart] at hbyte
    rw [hbyte]
    by_cases hparen : c = '('
    · subst hparen
      have hnext := offset_tail h (by decide)
      rw [← htext, hstart] at hnext
      have hparams := readParams_offset (List.append_cons .. ▸ h) #[]
      rw [hnext] at hparams
      rw [if_pos (congrArg some ((hb '(' (by decide)).mpr rfl)), hparams, parse_of_toList htext,
        scan_eq_bind]
      have hscans := scansParams cs #[]
      cases hscan : scanParams cs #[] with
      | error stop => rfl
      | ok r =>
        obtain ⟨read, rest⟩ := r
        rw [hscan] at hscans
        cases hscans with
        | @closed params _ _ split =>
          have hrest : text.toList = '(' :: (params.flatMap String.toList ++ [')']) ++ rest := by
            simp [htext, split]
          have hresult := readResult_offset hrest
          dsimp only [Except.map, Except.mapError, Except.bind]
          rw [hresult]
          cases scanResult rest <;> rfl
    · rw [if_neg fun heq => hparen ((hb '(' (by decide)).mp (Option.some.inj heq)),
        parse_of_head?_ne (by rw [htext]; exact fun heq => hparen (Option.some.inj heq))]
      rfl

end Signature

end FieldUpdater
