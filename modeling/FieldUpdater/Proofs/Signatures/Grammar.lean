import FieldUpdater.Code.Signature
import Mathlib.Data.List.TakeWhile

/-!
# The grammar of method descriptors

A field type is one of the primitive letters, an object type from `L` to the next `;`, or `[`
before a field type. A descriptor puts the field types of the parameters one after the other
between parentheses, before the field type of the result or `V`. No field type is the beginning of
another one, so that reading a field type finds its end whatever follows, and reading a descriptor
finds the one signature that it is the descriptor of.
-/

namespace FieldUpdater

namespace Signature

/-- The letters of the primitive types. -/
def primitiveLetters : List Char := ['B', 'C', 'D', 'F', 'I', 'J', 'S', 'Z']

/-- The characters that a field type can begin with. -/
def typeStarts : List Char := '[' :: 'L' :: primitiveLetters

/-- The characters of a field type. -/
inductive FieldType : List Char → Prop
  /-- A primitive type is a letter. -/
  | primitive {letter : Char} (isLetter : letter ∈ primitiveLetters) : FieldType [letter]
  /-- An object type has any characters but semicolons for a name. -/
  | object {name : List Char} (closed : ';' ∉ name) : FieldType ('L' :: (name ++ [';']))
  /-- An array type has any field type for its elements. -/
  | array {element : List Char} (type : FieldType element) : FieldType ('[' :: element)

/-- The types of a signature are field types. -/
structure WellFormed (s : Signature) : Prop where
  params : ∀ p ∈ s.params, FieldType p.toList
  result : ∀ r ∈ s.result, FieldType r.toList

/-- The characters of a descriptor after the opening parenthesis. -/
def chars (s : Signature) : List Char :=
  s.params.flatMap String.toList ++ ')' :: (s.result.getD "V").toList

/-- What comes of reading one field type. -/
inductive ScansType (cs : List Char) : Except Stop (List Char × List Char) → Prop
  /-- The characters begin with a field type. -/
  | read {token rest : List Char} (type : FieldType token) (split : cs = token ++ rest) :
      ScansType cs (.ok (token, rest))
  /-- The characters are the beginning of a field type. -/
  | unfinished (more : List Char) (type : FieldType (cs ++ more)) : ScansType cs (.error .atEnd)
  /-- After any number of brackets comes a character that no field type begins with. -/
  | refused (brackets : Nat) {c : Char} {more : List Char}
      (split : cs = List.replicate brackets '[' ++ c :: more) (refused : c ∉ typeStarts) :
      ScansType cs (.error (.noType (c :: more)))

/-- What comes of reading parameters. -/
inductive ScansParams (cs : List Char) (done : Array String) :
    Except Stop (Array String × List Char) → Prop
  /-- After field types comes the closing parenthesis. -/
  | closed (params : List String) {rest : List Char} (types : ∀ p ∈ params, FieldType p.toList)
      (split : cs = params.flatMap String.toList ++ ')' :: rest) :
      ScansParams cs done (.ok (done ++ params.toArray, rest))
  /-- After field types comes neither the closing parenthesis nor another field type. -/
  | stopped (params : List String) {rest : List Char} {stop : Stop}
      (types : ∀ p ∈ params, FieldType p.toList)
      (split : cs = params.flatMap String.toList ++ rest) (opened : rest.head? ≠ some ')')
      (stopped : scanType rest = .error stop) : ScansParams cs done (.error stop)

/-- What comes of reading a result. -/
inductive ScansResult (cs : List Char) : Except Stop (Option String) → Prop
  /-- There is a `V` and nothing after it, or a field type and nothing after it. -/
  | read (result : Option String) (type : ∀ r ∈ result, FieldType r.toList)
      (split : cs = (result.getD "V").toList) : ScansResult cs (.ok result)
  /-- There is no field type and no such `V`. -/
  | stopped {stop : Stop} (notVoid : cs ≠ ['V']) (stopped : scanType cs = .error stop) :
      ScansResult cs (.error stop)
  /-- There is something after a field type. -/
  | trailing {token more : List Char} {c : Char} (type : FieldType token)
      (split : cs = token ++ c :: more) : ScansResult cs (.error (.noType (c :: more)))

variable {cs token rest : List Char} {c : Char} {done : Array String} {params : List String}
  {s : Signature}

/-- The descriptor of a signature. -/
theorem toList_render (s : Signature) : s.render.toList = '(' :: s.chars := by
  simp [render, chars, String.toList_join, List.append_assoc]

/-- The primitive letters are those of the reader. -/
theorem isPrimitiveLetter_iff : isPrimitiveLetter c = true ↔ c ∈ primitiveLetters :=
  decide_eq_true_iff

/-- A field type begins with a bracket, with `L` or with a primitive letter. -/
theorem mem_typeStarts_iff : c ∈ typeStarts ↔ c = '[' ∨ c = 'L' ∨ c ∈ primitiveLetters := by
  simp only [typeStarts, List.mem_cons]

/-- What a field type can begin with is ASCII. -/
theorem toNat_lt_of_mem_typeStarts : ∀ a ∈ typeStarts, a.toNat < 128 := by
  simp [typeStarts, primitiveLetters]

/-- What begins a field type is one of the characters for it. -/
theorem FieldType.exists_cons (h : FieldType token) :
    ∃ c more, token = c :: more ∧ c ∈ typeStarts := by
  cases h with
  | @primitive letter hletter =>
    exact ⟨letter, [], rfl, mem_typeStarts_iff.mpr (.inr (.inr hletter))⟩
  | @object name _ => exact ⟨'L', name ++ [';'], rfl, mem_typeStarts_iff.mpr (.inr (.inl rfl))⟩
  | @array element _ => exact ⟨'[', element, rfl, mem_typeStarts_iff.mpr (.inl rfl)⟩

/-- A bracket is read as the beginning of an array type. -/
theorem scanType_bracket (cs : List Char) :
    scanType ('[' :: cs) = (scanType cs).map (Prod.map ('[' :: ·) id) := by
  unfold scanType
  simp only [List.takeWhile_cons, List.dropWhile_cons, decide_true, ↓reduceIte]
  split
  · rfl
  · split <;> rfl
  · split <;> rfl

/-- After `L` reading goes on to the semicolon. -/
theorem scanType_object (name : List Char) : scanType ('L' :: name) =
    match name.dropWhile (· ≠ ';') with
    | [] => .error .atEnd
    | close :: rest => .ok ('L' :: (name.takeWhile (· ≠ ';') ++ [close]), rest) := rfl

/-- Without a semicolon an object type does not end. -/
theorem scanType_of_open (hopen : ';' ∉ cs) : scanType ('L' :: cs) = .error .atEnd := by
  have hafter : cs.dropWhile (· ≠ ';') = [] :=
    List.dropWhile_eq_nil_iff.mpr fun c hc =>
      decide_eq_true fun hsemicolon => hopen (hsemicolon ▸ hc)
  rw [scanType_object, hafter]

/-- Any other character is a primitive letter or none that a field type begins with. -/
theorem scanType_letter (hbracket : c ≠ '[') (hobject : c ≠ 'L') (cs : List Char) :
    scanType (c :: cs) =
      if isPrimitiveLetter c then .ok ([c], cs) else .error (.noType (c :: cs)) := by
  simp [scanType, hbracket]

/-- A name and the semicolon after it are what stands up to the first semicolon. -/
theorem takeWhile_dropWhile_of_closed {name : List Char} (closed : ';' ∉ name) :
    (name ++ ';' :: rest).takeWhile (· ≠ ';') = name ∧
      (name ++ ';' :: rest).dropWhile (· ≠ ';') = ';' :: rest := by
  have hname : ∀ c ∈ name, decide (c ≠ ';') = true := fun c hc =>
    decide_eq_true fun hsemicolon => closed (hsemicolon ▸ hc)
  constructor
  · rw [List.takeWhile_append_of_pos hname, List.takeWhile_cons_of_neg (by simp), List.append_nil]
  · rw [List.dropWhile_append_of_pos hname, List.dropWhile_cons_of_neg (by simp)]

/-- A field type is read whole, whatever follows it. -/
theorem FieldType.scanType_append (h : FieldType token) (rest : List Char) :
    scanType (token ++ rest) = .ok (token, rest) := by
  induction h with
  | @primitive letter hletter =>
    have hbracket : letter ≠ '[' := by rintro rfl; exact absurd hletter (by decide)
    have hobject : letter ≠ 'L' := by rintro rfl; exact absurd hletter (by decide)
    rw [List.cons_append, scanType_letter hbracket hobject,
      if_pos (isPrimitiveLetter_iff.mpr hletter), List.nil_append]
  | @object name closed =>
    obtain ⟨htake, hdrop⟩ := takeWhile_dropWhile_of_closed closed
    rw [List.cons_append, List.append_assoc, List.singleton_append, scanType_object, hdrop, htake]
  | @array element _ ih =>
    rw [List.cons_append, scanType_bracket, ih]
    rfl

/-- Reading a field type comes to one of the three outcomes. -/
theorem scansType (cs : List Char) : ScansType cs (scanType cs) := by
  induction cs with
  | nil => exact .unfinished ['I'] (.primitive (by decide))
  | cons c cs ih =>
    by_cases hbracket : c = '['
    · subst hbracket
      rw [scanType_bracket]
      cases hscan : scanType cs with
      | ok r =>
        rw [hscan] at ih
        cases ih with
        | read type split => exact .read (.array type) (by rw [split]; rfl)
      | error stop =>
        rw [hscan] at ih
        cases ih with
        | unfinished more type => exact .unfinished more (.array type)
        | refused brackets split refused =>
          exact .refused (brackets + 1) (by rw [split]; rfl) refused
    · by_cases hobject : c = 'L'
      · subst hobject
        by_cases hclosed : ';' ∈ cs
        · obtain ⟨name, rest, rfl, closed⟩ := List.eq_append_cons_of_mem hclosed
          have hread := (FieldType.object closed).scanType_append rest
          rw [List.cons_append, List.append_assoc, List.singleton_append] at hread
          rw [hread]
          exact .read (.object closed) (by simp)
        · rw [scanType_of_open hclosed]
          exact .unfinished [';'] (.object hclosed)
      · rw [scanType_letter hbracket hobject]
        split
        all_goals rename_i hletter
        · exact .read (.primitive (isPrimitiveLetter_iff.mp hletter)) rfl
        · exact .refused 0 rfl fun hmem =>
            (mem_typeStarts_iff.mp hmem).elim hbracket fun hmem => hmem.elim hobject
              (hletter ∘ isPrimitiveLetter_iff.mpr)

/-- A character that no field type begins with stops the reading, whatever follows it. -/
theorem scanType_refused (brackets : Nat) (hrefused : c ∉ typeStarts) (more : List Char) :
    scanType (List.replicate brackets '[' ++ c :: more) = .error (.noType (c :: more)) := by
  induction brackets with
  | zero =>
    simp only [mem_typeStarts_iff, not_or] at hrefused
    obtain ⟨hbracket, hobject, hletter⟩ := hrefused
    rw [List.replicate_zero, List.nil_append, scanType_letter hbracket hobject,
      if_neg (hletter ∘ isPrimitiveLetter_iff.mp)]
  | succ n ih =>
    rw [List.replicate_succ, List.cons_append, scanType_bracket, ih]
    rfl

/-- Before anything but the closing parenthesis reading parameters goes on with a field type. -/
theorem scanParams_eq_bind (opened : cs.head? ≠ some ')') (done : Array String) :
    scanParams cs done =
      (scanType cs).bind fun r => scanParams r.2 (done.push (String.ofList r.1)) := by
  cases cs with
  | nil =>
    rw [scanParams]
    rfl
  | cons c cs =>
    rw [scanParams.eq_3 _ _ _ fun hclose => opened (congrArg some hclose)]
    split <;> rename_i hscan <;> rw [hscan] <;> rfl

/-- A field type is read as a parameter. -/
theorem FieldType.scanParams_append (h : FieldType token) (rest : List Char)
    (done : Array String) :
    scanParams (token ++ rest) done = scanParams rest (done.push (String.ofList token)) := by
  have opened : (token ++ rest).head? ≠ some ')' := by
    obtain ⟨c, more, rfl, hc⟩ := h.exists_cons
    rintro ⟨⟩
    exact absurd hc (by decide)
  rw [scanParams_eq_bind opened, h.scanType_append]
  rfl

/-- Field types are read as parameters, in order. -/
theorem scanParams_append (types : ∀ p ∈ params, FieldType p.toList) (cs : List Char)
    (done : Array String) :
    scanParams (params.flatMap String.toList ++ cs) done =
      scanParams cs (done ++ params.toArray) := by
  induction params generalizing done with
  | nil => simp
  | cons p params ih =>
    rw [List.flatMap_cons, List.append_assoc,
      (types p List.mem_cons_self).scanParams_append, String.ofList_toList,
      ih fun q hq => types q (List.mem_cons_of_mem p hq)]
    simp

/-- What comes of reading parameters after a field type comes of reading them from it on. -/
theorem ScansParams.type (h : FieldType token) {r : Except Stop (Array String × List Char)}
    (hrest : ScansParams rest (done.push (String.ofList token)) r) :
    ScansParams (token ++ rest) done r := by
  have htypes : ∀ {params : List String}, (∀ p ∈ params, FieldType p.toList) →
      ∀ p ∈ String.ofList token :: params, FieldType p.toList := by
    intro params types p hp
    obtain rfl | hp := List.mem_cons.mp hp
    · rwa [String.toList_ofList]
    · exact types p hp
  cases hrest with
  | @closed params after types split =>
    have hclosed : ScansParams (token ++ rest) done
        (.ok (done ++ (String.ofList token :: params).toArray, after)) :=
      .closed _ (htypes types) (by simp [split])
    simpa using hclosed
  | stopped params types split opened stopped =>
    exact .stopped _ (htypes types) (by simp [split]) opened stopped

/-- Reading parameters comes to one of the two outcomes. -/
theorem scansParams (cs : List Char) (done : Array String) :
    ScansParams cs done (scanParams cs done) := by
  induction cs, done using scanParams.induct with
  | case1 done =>
    rw [scanParams]
    exact .stopped [] (by simp) rfl (by simp) rfl
  | case2 done rest =>
    rw [scanParams]
    have hclosed : ScansParams (')' :: rest) done (.ok (done ++ [].toArray, rest)) :=
      .closed [] (by simp) rfl
    simpa using hclosed
  | case3 done c more hclose stop hstop =>
    have opened : (c :: more).head? ≠ some ')' := by simpa using hclose
    rw [scanParams_eq_bind opened, hstop]
    exact .stopped [] (by simp) rfl opened hstop
  | case4 done c more hclose token rest hread ih =>
    have hscans := scansType (c :: more)
    rw [hread] at hscans
    cases hscans with
    | read type split =>
      rw [split, type.scanParams_append]
      exact ih.type type

/-- Any other characters than a single `V` are read as a field type that ends them. -/
theorem scanResult_eq_bind (hvoid : cs ≠ ['V']) :
    scanResult cs = (scanType cs).bind fun r =>
      if r.2 = [] then .ok (some (String.ofList r.1)) else .error (.noType r.2) := by
  unfold scanResult
  split
  · rfl
  · exact absurd rfl hvoid
  · split <;> rename_i hscan <;> rw [hscan]
    · rfl
    · rfl
    · rename_i hrest
      exact (if_neg hrest).symm

/-- Reading a result comes to one of the three outcomes. -/
theorem scansResult (cs : List Char) : ScansResult cs (scanResult cs) := by
  by_cases hvoid : cs = ['V']
  · subst hvoid
    exact .read none (by simp) rfl
  · rw [scanResult_eq_bind hvoid]
    have hscans := scansType cs
    cases hscan : scanType cs with
    | error stop => exact .stopped hvoid hscan
    | ok r =>
      obtain ⟨token, rest⟩ := r
      rw [hscan] at hscans
      cases hscans with
      | read type split =>
        cases rest with
        | nil =>
          refine .read (some (String.ofList token)) ?_ (by simpa using split)
          rintro _ ⟨⟩
          rwa [String.toList_ofList]
        | cons c more => exact .trailing type split

/-- A field type, or the `V` that stands for none, is read as a result. -/
theorem scanResult_toList {result : Option String} (type : ∀ r ∈ result, FieldType r.toList) :
    scanResult (result.getD "V").toList = .ok result := by
  cases result with
  | none => rfl
  | some r =>
    have hread := (type r rfl).scanType_append []
    rw [List.append_nil] at hread
    have hvoid : r.toList ≠ ['V'] := fun hvoid => by
      rw [hvoid] at hread
      cases hread
    rw [Option.getD_some, scanResult_eq_bind hvoid, hread]
    simp [Except.bind]

/-- A descriptor is read as its parameters and then its result. -/
theorem scan_eq_bind (cs : List Char) :
    scan cs = (scanParams cs #[]).bind fun r =>
      (scanResult r.2).map fun result => ⟨r.1.toList, result⟩ := by
  unfold scan
  cases scanParams cs #[] with
  | error stop => rfl
  | ok r =>
    dsimp only [Except.bind]
    cases scanResult r.2 <;> rfl

/-- After the parameters and the closing parenthesis a descriptor is what its result is. -/
theorem scan_append (types : ∀ p ∈ params, FieldType p.toList) (rest : List Char) :
    scan (params.flatMap String.toList ++ ')' :: rest) =
      (scanResult rest).map fun result => ⟨params, result⟩ := by
  rw [scan_eq_bind, scanParams_append types, scanParams]
  dsimp only [Except.bind]
  rw [Array.empty_append]

/-- The characters of a signature of field types are read as that signature, and no other
characters are. -/
theorem scan_eq_ok_iff : scan cs = .ok s ↔ s.WellFormed ∧ cs = s.chars := by
  constructor
  · intro hread
    have hparams := scansParams cs #[]
    cases hscan : scanParams cs #[] with
    | error stop =>
      rw [scan_eq_bind, hscan] at hread
      cases hread
    | ok r =>
      rw [hscan] at hparams
      cases hparams with
      | @closed params rest types split =>
        have hresult := scansResult rest
        rw [split, scan_append types] at hread
        cases hscan : scanResult rest <;> rw [hscan] at hread hresult <;> cases hread
        cases hresult with
        | read _ type hrest => exact ⟨⟨types, type⟩, by rw [split, hrest]; rfl⟩
  · rintro ⟨wellFormed, rfl⟩
    rw [chars, scan_append wellFormed.params, scanResult_toList wellFormed.result]
    rfl

/-- After the opening parenthesis a descriptor is read as its characters. -/
theorem parse_of_toList {text : String} (h : text.toList = '(' :: cs) :
    parse text = (scan cs).mapError (Stop.toError text) := by
  simp only [parse, h]

/-- A descriptor begins with a parenthesis. -/
theorem parse_of_head?_ne {text : String} (h : text.toList.head? ≠ some '(') :
    parse text = .error (.missingParameters text) := by
  unfold parse
  split
  · rename_i htext
    exact absurd (congrArg List.head? htext) h
  · rfl

/-- A text is read as a signature if the types of it are field types and the text is its
descriptor. -/
theorem parse_eq_ok_iff {text : String} :
    parse text = .ok s ↔ s.WellFormed ∧ text = s.render := by
  rw [← String.toList_inj, toList_render]
  by_cases hparen : text.toList.head? = some '('
  · obtain ⟨cs, htext⟩ := List.head?_eq_some_iff.mp hparen
    rw [parse_of_toList htext, htext, List.cons_inj_right, ← scan_eq_ok_iff]
    cases scan cs <;> simp [Except.mapError]
  · rw [parse_of_head?_ne hparen]
    constructor
    · rintro ⟨⟩
    · rintro ⟨-, htext⟩
      exact absurd (congrArg List.head? htext) hparen

/-- Reading is the inverse of writing a descriptor, from the texts in the grammar to the
signatures of field types: it loses nothing of either, and the field types of the parameters can be
told apart in no other way. -/
theorem parse_exact :
    (∀ text s, parse text = .ok s ↔
      (∀ p ∈ s.params, FieldType p.toList) ∧ (∀ r ∈ s.result, FieldType r.toList) ∧
        text = "(" ++ String.join s.params ++ ")" ++ s.result.getD "V") ∧
      (∀ text s, parse text = .ok s → s.render = text) ∧
      (∀ s, s.WellFormed → parse s.render = .ok s) ∧
      ∀ ps qs, (∀ p ∈ ps, FieldType p.toList) → (∀ q ∈ qs, FieldType q.toList) →
        String.join ps = String.join qs → ps = qs := by
  refine ⟨fun text s => ?_, fun text s h => (parse_eq_ok_iff.mp h).2.symm,
    fun s h => parse_eq_ok_iff.mpr ⟨h, rfl⟩, fun ps qs hps hqs hjoin => ?_⟩
  · rw [parse_eq_ok_iff, ← and_assoc]
    exact and_congr_left fun _ => ⟨fun h => ⟨h.params, h.result⟩, fun h => ⟨h.1, h.2⟩⟩
  · have hp := (parse_eq_ok_iff (s := ⟨ps, none⟩)).mpr ⟨⟨hps, by simp⟩, rfl⟩
    have hq := (parse_eq_ok_iff (s := ⟨qs, none⟩)).mpr ⟨⟨hqs, by simp⟩, rfl⟩
    have hrender : (⟨ps, none⟩ : Signature).render = (⟨qs, none⟩ : Signature).render := by
      simp only [render, hjoin]
    rw [hrender, hq] at hp
    cases hp
    rfl

/-- The name of a class may look like the rest of a descriptor. -/
theorem parse_exact_nested :
    (∀ p ∈ ["[[L()[Vé;", "J"], FieldType p.toList) ∧
      parse "([[L()[Vé;J)V" = .ok ⟨["[[L()[Vé;", "J"], none⟩ := by
  have htypes : ∀ p ∈ ["[[L()[Vé;", "J"], FieldType p.toList := by
    intro p hp
    simp only [List.mem_cons, List.not_mem_nil, or_false] at hp
    obtain rfl | rfl := hp
    · exact .array (.array (.object (by decide : ';' ∉ ['(', ')', '[', 'V', 'é'])))
    · exact .primitive (by decide)
  exact ⟨htypes, parse_exact.2.2.1 ⟨_, none⟩ ⟨htypes, by simp⟩⟩

end Signature

end FieldUpdater
