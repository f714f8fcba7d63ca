import FieldUpdater.Code.Signature

/-!
# Reading method descriptors by byte positions

The reader of method descriptors as it goes over the bytes of a text. A position counts bytes, and
what stands there is one byte. A piece of the text is cut out between two positions, which fails
if one of them is inside a character or after the end, or if they are in the wrong order.
-/

namespace FieldUpdater

/-- How reading by bytes fails. -/
inductive ByteFault where
  /-- The text is no descriptor. -/
  | refused (error : SignatureError)
  /-- A piece of the text cannot be cut out between two positions. -/
  | splitsCharacter
  deriving DecidableEq

namespace Signature

/-- The bytes of a text. -/
def bytes (text : String) : List UInt8 := text.toByteArray.data.toList

/-- The byte at a position. -/
def byteAt? (text : String) (pos : Nat) : Option UInt8 := (bytes text)[pos]?

/-- There are bytes only before the end of the text. -/
theorem lt_of_byteAt? {text : String} {pos : Nat} {b : UInt8} (h : byteAt? text pos = some b) :
    pos < text.utf8ByteSize :=
  (List.getElem?_eq_some_iff.mp h).1

/-- Cut out the piece between two positions. -/
def slice (text : String) (start stop : Nat) : Except ByteFault String :=
  if start ≤ stop ∧ String.Pos.Raw.isValid text ⟨start⟩ ∧ String.Pos.Raw.isValid text ⟨stop⟩ then
    .ok (String.Pos.Raw.extract text ⟨start⟩ ⟨stop⟩)
  else
    .error .splitsCharacter

/-- The number of bytes before the first semicolon. -/
def semicolon? (text : String) : Option Nat :=
  if ';' ∈ text.toList then some (byteCount (text.toList.takeWhile (· ≠ ';'))) else none

/-- The position after the brackets that stand at a position. -/
def skipBrackets (text : String) (pos : Nat) : Nat :=
  if h : byteAt? text pos = some '['.toUInt8 then skipBrackets text (pos + 1) else pos
termination_by text.utf8ByteSize - pos
decreasing_by
  have := lt_of_byteAt? h
  omega

/-- The position after the field type that begins at a position. -/
def typeEnd (text : String) (start : Nat) : Except ByteFault Nat :=
  let pos := skipBrackets text start
  match byteAt? text pos with
  | none => .error (.refused (.unexpectedEnd text))
  | some b =>
    if b ∈ ['B', 'C', 'D', 'F', 'I', 'J', 'S', 'Z'].map Char.toUInt8 then .ok (pos + 1)
    else if b = 'L'.toUInt8 then
      match slice text pos text.utf8ByteSize with
      | .error fault => .error fault
      | .ok rest =>
        match semicolon? rest with
        | some semicolon => .ok (pos + semicolon + 1)
        | none => .error (.refused (.unexpectedEnd text))
    else .error (.refused (.invalidType text pos))

/-- No brackets are before the position where they are looked for. -/
theorem le_skipBrackets (text : String) (pos : Nat) : pos ≤ skipBrackets text pos := by
  fun_induction skipBrackets text pos with
  | case1 pos _ ih => omega
  | case2 pos _ => exact Nat.le_refl pos

/-- A field type takes at least one byte. -/
theorem lt_of_typeEnd {text : String} {start stop : Nat} (h : typeEnd text start = .ok stop) :
    start < stop := by
  have hskip := le_skipBrackets text start
  unfold typeEnd at h
  dsimp only at h
  split at h
  · cases h
  · split at h
    · cases h
      omega
    · split at h
      · split at h
        · cases h
        · split at h
          · cases h
            omega
          · cases h
      · cases h

/-- Read parameters from a position on, after those already read. -/
def readParams (text : String) (pos : Nat) (done : Array String) :
    Except ByteFault (Array String × Nat) :=
  match _hbyte : byteAt? text pos with
  | none => .error (.refused (.unexpectedEnd text))
  | some b =>
    if b = ')'.toUInt8 then .ok (done, pos + 1)
    else
      match _hend : typeEnd text pos with
      | .error fault => .error fault
      | .ok stop =>
        match slice text pos stop with
        | .error fault => .error fault
        | .ok param => readParams text stop (done.push param)
termination_by text.utf8ByteSize - pos
decreasing_by
  have := lt_of_byteAt? _hbyte
  have := lt_of_typeEnd _hend
  omega

/-- Read the result type from a position on. -/
def readResult (text : String) (pos : Nat) : Except ByteFault (Option String) :=
  match byteAt? text pos with
  | none => .error (.refused (.unexpectedEnd text))
  | some b =>
    if b = 'V'.toUInt8 ∧ pos + 1 = text.utf8ByteSize then .ok none
    else
      match typeEnd text pos with
      | .error fault => .error fault
      | .ok stop =>
        if stop = text.utf8ByteSize then (slice text pos stop).map some
        else .error (.refused (.invalidType text stop))

/-- Read a method descriptor. -/
def readBytes (text : String) : Except ByteFault Signature :=
  if byteAt? text 0 = some '('.toUInt8 then
    match readParams text 1 #[] with
    | .error fault => .error fault
    | .ok (params, pos) => (readResult text pos).map fun result => ⟨params.toList, result⟩
  else .error (.refused (.missingParameters text))

end Signature

end FieldUpdater
