/-!
# Method signatures

The grammar of method descriptors and its reader. A field type is zero or more
`[`, then one of the letters `B C D F I J S Z` or `L`, any characters other than
`;`, and `;`. A descriptor is `(`, the parameters' field types, `)` and a field
type or `V`. Reading is by characters, while errors name byte offsets.
-/

namespace FieldUpdater

/-- What a method takes and returns. -/
structure Signature where
  /-- The field types of the parameters, in order. -/
  params : List String
  /-- The field type of the result, `none` if there is no result. -/
  result : Option String
  deriving DecidableEq

/-- Why a text is not a method descriptor. -/
inductive SignatureError where
  /-- The text does not begin with the list of parameters. -/
  | missingParameters (text : String)
  /-- At this byte begins something that is no type. -/
  | invalidType (text : String) (offset : Nat)
  /-- The text is over before the descriptor is. -/
  | unexpectedEnd (text : String)
  deriving DecidableEq

/-- The wording of a descriptor error. -/
def SignatureError.message : SignatureError → String
  | .missingParameters text => s!"Descriptor `{text}` does not start with '('"
  | .invalidType text offset => s!"Descriptor `{text}` has an invalid type at byte {offset}"
  | .unexpectedEnd text => s!"Descriptor `{text}` ends unexpectedly"

namespace Signature

/-- The number of arguments, kept in sixteen bits. -/
def argCount (s : Signature) : Nat := s.params.length % 65536

/-- Whether a call leaves a result on the stack. -/
def hasResult (s : Signature) : Bool := s.result.isSome

/-- The descriptor of a signature. -/
def render (s : Signature) : String :=
  "(" ++ String.join s.params ++ ")" ++ s.result.getD "V"

/-- The letters of the primitive types. -/
def isPrimitiveLetter (c : Char) : Bool := c ∈ ['B', 'C', 'D', 'F', 'I', 'J', 'S', 'Z']

/-- Why reading stopped: the characters are over, or `rest` begins with no type. -/
inductive Stop where
  | atEnd
  | noType (rest : List Char)
  deriving DecidableEq

/-- Read one field type: its characters and what follows them. -/
def scanType (cs : List Char) : Except Stop (List Char × List Char) :=
  let brackets := cs.takeWhile (· = '[')
  match cs.dropWhile (· = '[') with
  | [] => .error .atEnd
  | 'L' :: name =>
    match name.dropWhile (· ≠ ';') with
    | [] => .error .atEnd
    | close :: rest => .ok (brackets ++ 'L' :: (name.takeWhile (· ≠ ';') ++ [close]), rest)
  | letter :: rest =>
    if isPrimitiveLetter letter then .ok (brackets ++ [letter], rest)
    else .error (.noType (letter :: rest))

/-- A field type takes at least one character, so that what follows is shorter. -/
theorem length_lt_of_scanType {cs token rest : List Char}
    (h : scanType cs = .ok (token, rest)) : rest.length < cs.length := by
  have hdrop := (List.dropWhile_sublist (l := cs) (· = '[')).length_le
  unfold scanType at h
  dsimp only at h
  split at h
  · cases h
  · rename_i name helement
    have hname := (List.dropWhile_sublist (l := name) (· ≠ ';')).length_le
    split at h
    · cases h
    · rename_i hafter
      cases h
      simp only [helement, hafter, List.length_cons] at hdrop hname
      omega
  · rename_i helement
    split at h
    · cases h
      simp only [helement, List.length_cons] at hdrop
      omega
    · cases h

/-- Read parameters up to the closing parenthesis, after those already read. -/
def scanParams (cs : List Char) (done : Array String) : Except Stop (Array String × List Char) :=
  match cs with
  | [] => .error .atEnd
  | ')' :: rest => .ok (done, rest)
  | c :: more =>
    match _h : scanType (c :: more) with
    | .error stop => .error stop
    | .ok (token, rest) => scanParams rest (done.push (String.ofList token))
termination_by cs.length
decreasing_by exact length_lt_of_scanType _h

/-- Read the result type, which ends the descriptor. -/
def scanResult (cs : List Char) : Except Stop (Option String) :=
  match cs with
  | [] => .error .atEnd
  | ['V'] => .ok none
  | c :: more =>
    match scanType (c :: more) with
    | .error stop => .error stop
    | .ok (token, []) => .ok (some (String.ofList token))
    | .ok (_, rest) => .error (.noType rest)

/-- Read what follows the opening parenthesis. -/
def scan (cs : List Char) : Except Stop Signature :=
  match scanParams cs #[] with
  | .error stop => .error stop
  | .ok (params, rest) =>
    match scanResult rest with
    | .error stop => .error stop
    | .ok result => .ok ⟨params.toList, result⟩

/-- The number of bytes of a list of characters in UTF-8. -/
def byteCount (cs : List Char) : Nat := (String.ofList cs).utf8ByteSize

/-- The error of a text in which reading stopped: an offset counts the bytes before
the characters that were left. -/
def Stop.toError (text : String) : Stop → SignatureError
  | .atEnd => .unexpectedEnd text
  | .noType rest => .invalidType text (text.utf8ByteSize - byteCount rest)

/-- Read a method descriptor. -/
def parse (text : String) : Except SignatureError Signature :=
  match text.toList with
  | '(' :: cs => (scan cs).mapError (Stop.toError text)
  | _ => .error (.missingParameters text)

end Signature

end FieldUpdater
