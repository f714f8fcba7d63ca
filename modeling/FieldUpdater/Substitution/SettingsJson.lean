import FieldUpdater.Substitution.Settings

/-!
# Settings as JSON text

Settings are read from a JSON object with any of five members, or from a JSON
array of at most five elements in a fixed order; what is missing keeps its
default. The text is read once from left to right, and the first problem decides.
A problem is one of three: the text ends too early, it is not JSON, or it is JSON
so far but not settings, because of a value of the wrong type, an unknown member
or a member given twice.
-/

namespace FieldUpdater

/-- What is wrong with a text that should hold settings. -/
inductive SettingsFault where
  /-- The text ends too early. -/
  | truncated
  /-- The text is not JSON. -/
  | malformed
  /-- The text is JSON so far, but not settings. -/
  | unsuitable
  deriving DecidableEq

namespace Json

/-- The blanks that may stand between the parts of a text. -/
def isBlank (c : Char) : Bool := c = ' ' ∨ c = '\n' ∨ c = '\t' ∨ c = '\r'

/-- What follows the blanks. -/
def skipBlanks (cs : List Char) : List Char := cs.dropWhile isBlank

/-- The first character is missing, or it is not the one that must stand here. -/
def faultAt : List Char → SettingsFault
  | [] => .truncated
  | _ => .malformed

/-- Read the rest of a word. -/
def word : List Char → List Char → Except SettingsFault (List Char)
  | [], cs => .ok cs
  | _, [] => .error .truncated
  | w :: ws, c :: cs => if w = c then word ws cs else .error .malformed

/-- The value of a hexadecimal digit. -/
def hexDigit? (c : Char) : Option Nat :=
  if '0' ≤ c ∧ c ≤ '9' then some (c.toNat - '0'.toNat)
  else if 'a' ≤ c ∧ c ≤ 'f' then some (c.toNat - 'a'.toNat + 10)
  else if 'A' ≤ c ∧ c ≤ 'F' then some (c.toNat - 'A'.toNat + 10)
  else none

/-- Read four hexadecimal digits. The text is too short when it has fewer than four
bytes left. -/
def hexUnit (cs : List Char) : Except SettingsFault (Nat × List Char) :=
  let digits := (cs.take 4).filterMap hexDigit?
  if digits.length = 4 then .ok (digits.foldl (fun n d => 16 * n + d) 0, cs.drop 4)
  else if (String.ofList (cs.take 4)).utf8ByteSize < 4 then .error .truncated
  else .error .malformed

/-- Read a character written by its number in UTF-16, as one unit or as a pair. -/
def unicodeEscape (cs : List Char) : Except SettingsFault (Char × List Char) := do
  let (unit, cs) ← hexUnit cs
  if 0xDC00 ≤ unit ∧ unit ≤ 0xDFFF then throw .malformed
  if unit < 0xD800 ∨ 0xDBFF < unit then return (Char.ofNat unit, cs)
  match cs with
  | '\x5c' :: 'u' :: cs =>
    let (second, cs) ← hexUnit cs
    if second < 0xDC00 ∨ 0xDFFF < second then throw .malformed
    return (Char.ofNat (0x10000 + (unit - 0xD800) * 0x400 + (second - 0xDC00)), cs)
  | '\x5c' :: cs => throw (faultAt cs)
  | _ => throw (faultAt cs)

/-- Read a character after a backslash. -/
def escape : List Char → Except SettingsFault (Char × List Char)
  | [] => .error .truncated
  | 'u' :: cs => unicodeEscape cs
  | c :: cs =>
    match c with
    | '\x22' | '\x5c' | '/' => .ok (c, cs)
    | 'b' => .ok ('\x08', cs)
    | 'f' => .ok ('\x0c', cs)
    | 'n' => .ok ('\n', cs)
    | 'r' => .ok ('\r', cs)
    | 't' => .ok ('\t', cs)
    | _ => .error .malformed

/-- Read a text up to its closing quote. The fuel bounds the number of characters. -/
def textBody : Nat → List Char → String → Except SettingsFault (String × List Char)
  | 0, _, _ => .error .truncated
  | fuel + 1, cs, done =>
    match cs with
    | [] => .error .truncated
    | '\x22' :: cs => .ok (done, cs)
    | '\x5c' :: cs =>
      match escape cs with
      | .error fault => .error fault
      | .ok (c, cs) => textBody fuel cs (done.push c)
    | c :: cs => if c < ' ' then .error .malformed else textBody fuel cs (done.push c)

/-- Read a text after its opening quote. -/
def text (cs : List Char) : Except SettingsFault (String × List Char) :=
  textBody (cs.length + 1) cs ""

/-- The value of a decimal digit. -/
def digitValue (c : Char) : Nat := c.toNat - '0'.toNat

/-- The largest significand that is read exactly. -/
def maxSignificand : Nat := UInt64.size - 1

/-- Append digits to a significand while it can be kept exactly. The result ends with
the digits left over. -/
def extend : Nat → List Char → Nat × List Char
  | n, [] => (n, [])
  | n, c :: cs =>
    if 10 * n + digitValue c ≤ maxSignificand then extend (10 * n + digitValue c) cs
    else (n, c :: cs)

/-- Whether a significand times a power of ten is a finite number of double precision. -/
def isFinite (significand : Nat) (exponent : Int) : Bool :=
  if exponent ≤ 308 then
    !(significand.toUInt64.toFloat * Float.ofScientific 1 false exponent.toNat).isInf
  else significand = 0

/-- The problem with a number that ends here: it is too large, or it is not wanted. -/
def numberFault (significand : Nat) (exponent : Int) : SettingsFault :=
  if isFinite significand exponent then .unsuitable else .malformed

/-- The largest exponent that is read exactly. -/
def maxExponent : Nat := 0x7FFFFFFF

/-- The problem with a number from its exponent on. -/
def exponentFault (significand : Nat) (exponent : Int) (cs : List Char) : SettingsFault :=
  let (negative, cs) :=
    match cs with
    | '+' :: cs => (false, cs)
    | '-' :: cs => (true, cs)
    | _ => (false, cs)
  match cs.takeWhile Char.isDigit with
  | [] => faultAt cs
  | digits =>
    let n := digits.foldl (fun n c => 10 * n + digitValue c) 0
    if n ≤ maxExponent then
      numberFault significand (if negative then exponent - n else exponent + n)
    else if negative ∨ significand = 0 then .unsuitable
    else .malformed

/-- The problem with a number after its integer digits. -/
def fractionFault (significand : Nat) (exponent : Int) : List Char → SettingsFault
  | '.' :: cs =>
    match cs.takeWhile Char.isDigit with
    | [] => faultAt cs
    | digits =>
      let (significand, left) := extend significand digits
      let exponent := exponent - (digits.length - left.length : Nat)
      match cs.dropWhile Char.isDigit with
      | 'e' :: cs | 'E' :: cs => exponentFault significand exponent cs
      | _ => numberFault significand exponent
  | 'e' :: cs | 'E' :: cs => exponentFault significand exponent cs
  | _ => numberFault significand exponent

/-- The problem with a number, which is no part of settings. -/
def unwantedNumber (cs : List Char) : SettingsFault :=
  match cs.takeWhile Char.isDigit with
  | [] => faultAt cs
  | '0' :: _ :: _ => .malformed
  | digits =>
    let (significand, left) := extend 0 digits
    fractionFault significand left.length (cs.dropWhile Char.isDigit)

/-- The problem of one reading after it went through: the value was not wanted. -/
def afterwards {α : Type} : Except SettingsFault α → SettingsFault
  | .error fault => fault
  | .ok _ => .unsuitable

/-- The problem with a value of another type than the one wanted. Only texts, numbers
and words are read before they are refused. -/
def unwanted : List Char → SettingsFault
  | 'n' :: cs => afterwards (word ['u', 'l', 'l'] cs)
  | 't' :: cs => afterwards (word ['r', 'u', 'e'] cs)
  | 'f' :: cs => afterwards (word ['a', 'l', 's', 'e'] cs)
  | '-' :: cs => unwantedNumber cs
  | '\x22' :: cs => afterwards (text cs)
  | '[' :: _ | '\x7b' :: _ => .unsuitable
  | c :: cs => if c.isDigit then unwantedNumber (c :: cs) else .malformed
  | [] => .truncated

/-- Read a truth value. -/
def bool (cs : List Char) : Except SettingsFault (Bool × List Char) :=
  match skipBlanks cs with
  | 't' :: cs => (word ['r', 'u', 'e'] cs).map (true, ·)
  | 'f' :: cs => (word ['a', 'l', 's', 'e'] cs).map (false, ·)
  | cs => .error (unwanted cs)

/-- Read a text with its quotes. -/
def quoted (cs : List Char) : Except SettingsFault (String × List Char) :=
  match skipBlanks cs with
  | '\x22' :: cs => text cs
  | cs => .error (unwanted cs)

end Json

namespace Settings

open Json

/-- The members of settings. -/
inductive Member where
  | enabled
  | factoryClass
  | factoryMethod
  | factoryDescriptor
  | baseType
  deriving DecidableEq

namespace Member

/-- The members in the order of an array. -/
def all : List Member := [enabled, factoryClass, factoryMethod, factoryDescriptor, baseType]

/-- The name of a member in an object. -/
def name : Member → String
  | enabled => "enabled"
  | factoryClass => "factory_class"
  | factoryMethod => "factory_method"
  | factoryDescriptor => "factory_descriptor"
  | baseType => "base_type"

/-- The member of a name. -/
def ofName? (text : String) : Option Member := all.find? fun m => m.name = text

/-- Read the value of a member into settings. -/
def read (m : Member) (s : Settings) (cs : List Char) :
    Except SettingsFault (Settings × List Char) := do
  match m with
  | enabled => let (v, cs) ← bool cs; return ({ s with enabled := v }, cs)
  | factoryClass => let (v, cs) ← quoted cs; return ({ s with factoryClass := v }, cs)
  | factoryMethod => let (v, cs) ← quoted cs; return ({ s with factoryMethod := v }, cs)
  | factoryDescriptor => let (v, cs) ← quoted cs; return ({ s with factoryDescriptor := v }, cs)
  | baseType => let (v, cs) ← quoted cs; return ({ s with baseType := v }, cs)

end Member

/-- Read the end of an array after its last possible element. -/
def arrayEnd (s : Settings) (cs : List Char) : Except SettingsFault (Settings × List Char) :=
  match skipBlanks cs with
  | ']' :: cs => .ok (s, cs)
  | cs => .error (faultAt cs)

/-- Read the elements of an array after the first. -/
def elements : List Member → Settings → List Char → Except SettingsFault (Settings × List Char)
  | [], s, cs => arrayEnd s cs
  | m :: ms, s, cs =>
    match skipBlanks cs with
    | ']' :: cs => .ok (s, cs)
    | ',' :: cs =>
      match skipBlanks cs with
      | [] => .error .truncated
      | ']' :: _ => .error .malformed
      | cs =>
        match m.read s cs with
        | .error fault => .error fault
        | .ok (s, cs) => elements ms s cs
    | cs => .error (faultAt cs)

/-- Read an array after its opening bracket. -/
def array (cs : List Char) : Except SettingsFault (Settings × List Char) :=
  match skipBlanks cs with
  | [] => .error .truncated
  | ']' :: cs => .ok ({}, cs)
  | cs =>
    match Member.enabled.read {} cs with
    | .error fault => .error fault
    | .ok (s, cs) => elements (Member.all.erase .enabled) s cs

/-- Read a colon. -/
def colon (cs : List Char) : Except SettingsFault (List Char) :=
  match skipBlanks cs with
  | ':' :: cs => .ok cs
  | cs => .error (faultAt cs)

/-- Read the members of an object from the first quote on. Each of the members still
`missing` may come once; a name is judged as soon as it has been read. -/
def members (missing : List Member) (s : Settings) (cs : List Char) :
    Except SettingsFault (Settings × List Char) :=
  match cs with
  | '\x22' :: cs =>
    match text cs with
    | .error fault => .error fault
    | .ok (name, cs) =>
      match Member.ofName? name with
      | none => .error .unsuitable
      | some m =>
        if _h : m ∈ missing then
          match colon cs >>= m.read s with
          | .error fault => .error fault
          | .ok (s, cs) =>
            match skipBlanks cs with
            | '\x7d' :: cs => .ok (s, cs)
            | ',' :: cs => members (missing.erase m) s (skipBlanks cs)
            | cs => .error (faultAt cs)
        else .error .unsuitable
  | cs => .error (faultAt cs)
termination_by missing.length
decreasing_by
  rw [List.length_erase_of_mem _h]
  have := List.length_pos_of_mem _h
  omega

/-- Read an object after its opening brace. -/
def object (cs : List Char) : Except SettingsFault (Settings × List Char) :=
  match skipBlanks cs with
  | '\x7d' :: cs => .ok ({}, cs)
  | cs => members Member.all {} cs

/-- Read settings from a JSON text. -/
def ofJson (json : String) : Except SettingsFault Settings := do
  let (s, cs) ←
    match skipBlanks json.toList with
    | '[' :: cs => array cs
    | '\x7b' :: cs => object cs
    | cs => .error (unwanted cs)
  match skipBlanks cs with
  | [] => return s
  | _ => throw .malformed

end Settings

end FieldUpdater
