import FieldUpdater.Proofs.Execution.Words

/-!
# Words that encode values

A word consists of a tag, its two low bits, and of a payload above them. Every word reads as a
value, but only some are the word of the value that they read as: zero alone for null, a payload
of 32 bits for references and integers, a payload of one bit for truth values. Reading a word and
writing the value back gives such a word, and leaves it alone from then on.
-/

namespace FieldUpdater

namespace Value

/-- The tag of a word: its two low bits. -/
def wordTag (w : UInt64) : UInt64 := w &&& 3

/-- The payload of a word: the bits above its tag. -/
def wordPayload (w : UInt64) : UInt64 := w >>> 2

/-- The tag for the kind of a value. -/
def tag : Value → UInt64
  | null => 0
  | ref _ => 1
  | int _ => 2
  | bool _ => 3

/-- What the word of a value has above the tag. -/
def payload : Value → UInt64
  | null => 0
  | ref obj => obj.index.toUInt64
  | int value => value.toUInt32.toUInt64
  | bool value => value.toUInt64

/-- The word of the value that a word reads as. -/
def normalize (w : UInt64) : UInt64 := (ofWord w).toWord

variable {w p : UInt64} {v : Value}

theorem wordTag_eq_mod (w : UInt64) : wordTag w = w % 4 := by
  apply UInt64.toNat_inj.mp
  rw [wordTag, UInt64.toNat_and, UInt64.toNat_mod]
  exact Nat.and_two_pow_sub_one_eq_mod w.toNat 2

theorem wordPayload_eq_div (w : UInt64) : wordPayload w = w / 4 := by
  apply UInt64.toNat_inj.mp
  rw [wordPayload, UInt64.toNat_shiftRight, UInt64.toNat_div]
  exact Nat.shiftRight_eq_div_pow w.toNat 2

/-- A word is made of its payload and its tag. -/
theorem payload_add_tag (w : UInt64) : 4 * wordPayload w + wordTag w = w := by
  rw [wordPayload_eq_div, wordTag_eq_mod]
  apply UInt64.toNat_inj.mp
  have hlt := w.toNat_lt
  simp only [UInt64.toNat_add, UInt64.toNat_mul, UInt64.toNat_div, UInt64.toNat_mod]
  change (4 * (w.toNat / 4) % 2 ^ 64 + w.toNat % 4) % 2 ^ 64 = w.toNat
  omega

theorem wordTag_cases (w : UInt64) :
    wordTag w = 0 ∨ wordTag w = 1 ∨ wordTag w = 2 ∨ wordTag w = 3 := by
  rw [wordTag_eq_mod]
  simp only [← UInt64.toNat_inj, UInt64.toNat_mod]
  change w.toNat % 4 = 0 ∨ w.toNat % 4 = 1 ∨ w.toNat % 4 = 2 ∨ w.toNat % 4 = 3
  omega

theorem tag_lt (v : Value) : v.tag.toNat < 4 := by cases v <;> simp [tag]

/-- Payloads have at most 32 bits. -/
theorem payload_lt (v : Value) : v.payload.toNat < 0x100000000 := by
  cases v with
  | null => decide
  | ref obj => exact UInt32.toNat_toUInt64 _ ▸ obj.index.toNat_lt
  | int value => exact UInt32.toNat_toUInt64 _ ▸ value.toUInt32.toNat_lt
  | bool value => cases value <;> decide

theorem toWord_eq_add (v : Value) : v.toWord = 4 * v.payload + v.tag := by cases v <;> rfl

/-- The payload stands above the two bits of the tag. -/
theorem toWord_eq_or (v : Value) : v.toWord = v.payload <<< 2 ||| v.tag := by
  have hpayload := v.payload_lt
  have htag := v.tag_lt
  apply UInt64.toNat_inj.mp
  rw [toWord_eq_add, UInt64.toNat_or, UInt64.toNat_shiftLeft, UInt64.toNat_add, UInt64.toNat_mul]
  change (4 * v.payload.toNat % 2 ^ 64 + v.tag.toNat) % 2 ^ 64 =
    v.payload.toNat <<< 2 % 2 ^ 64 ||| v.tag.toNat
  have hshift : v.payload.toNat <<< 2 = 4 * v.payload.toNat := by
    rw [Nat.shiftLeft_eq]
    omega
  rw [Nat.mod_eq_of_lt (a := v.payload.toNat <<< 2) (by omega),
    ← Nat.shiftLeft_add_eq_or_of_lt htag, hshift]
  omega

/-- Tag and payload of a value are read back from its word. -/
theorem tag_payload_toWord (v : Value) :
    wordTag v.toWord = v.tag ∧ wordPayload v.toWord = v.payload := by
  have hpayload : v.payload.toNat < 0x4000000000000000 := Nat.lt_trans v.payload_lt (by decide)
  obtain ⟨htag, hrest⟩ := tag_payload hpayload v.tag_lt
  rw [wordTag_eq_mod, wordPayload_eq_div, toWord_eq_add]
  exact ⟨UInt64.toNat_inj.mp htag, hrest⟩

/-- The tag of a word decides what it reads as. -/
theorem ofWord_eq (w : UInt64) : ofWord w =
    match (wordTag w).toNat with
    | 1 => ref ⟨(wordPayload w).toUInt32⟩
    | 2 => int (wordPayload w).toUInt32.toInt32
    | 3 => bool (wordPayload w != 0)
    | _ => null := by
  rw [wordTag_eq_mod, wordPayload_eq_div]
  rfl

/-- A word reads as a value of the kind of its tag. -/
theorem tag_ofWord (w : UInt64) : (ofWord w).tag = wordTag w := by
  rw [ofWord_eq]
  rcases wordTag_cases w with h | h | h | h <;> rw [h] <;> rfl

/-- A word is written back as it was exactly when its payload is kept. -/
theorem toWord_ofWord_iff_payload : (ofWord w).toWord = w ↔ (ofWord w).payload = wordPayload w := by
  constructor
  · intro h
    rw [← (tag_payload_toWord _).2, h]
  · intro h
    rw [toWord_eq_add, tag_ofWord, h, payload_add_tag]

/-- A payload is kept in 32 bits when it has no more. -/
theorem toUInt32_toUInt64_eq_iff : p.toUInt32.toUInt64 = p ↔ p < 0x100000000 := by
  rw [← UInt64.toNat_inj, UInt32.toNat_toUInt64, UInt64.toNat_toUInt32, UInt64.lt_iff_toNat_lt]
  exact Nat.mod_eq_iff_lt (by decide)

/-- A payload is kept in one bit when it has no more. -/
theorem toUInt64_ne_zero_eq_iff : (p != 0).toUInt64 = p ↔ p ≤ 1 := by
  rw [UInt64.le_iff_toNat_le]
  change _ ↔ p.toNat ≤ 1
  by_cases hp : p = 0
  · subst hp
    decide
  · have hne : p.toNat ≠ 0 := fun h => hp (UInt64.toNat_inj.mp h)
    have htrue : (p != 0).toUInt64 = 1 := by
      rw [bne_iff_ne.mpr hp]
      rfl
    rw [htrue, ← UInt64.toNat_inj]
    change 1 = p.toNat ↔ _
    omega

/-- The words that are written back as they were, by tag. -/
theorem toWord_ofWord_iff (w : UInt64) : (ofWord w).toWord = w ↔
    w = 0 ∨ (wordTag w = 1 ∨ wordTag w = 2) ∧ wordPayload w < 0x100000000 ∨
      wordTag w = 3 ∧ wordPayload w ≤ 1 := by
  rw [toWord_ofWord_iff_payload, ofWord_eq]
  have hzero (htag : wordTag w ≠ 0) : w ≠ 0 := fun h => htag (by rw [h]; rfl)
  rcases wordTag_cases w with h | h | h | h
  · have hword : w = 0 ↔ 0 = wordPayload w := by
      refine ⟨fun hw => by rw [hw]; rfl, fun hp => ?_⟩
      rw [← payload_add_tag w, h, ← hp]
      rfl
    simpa [h, payload] using hword.symm
  · have hw := hzero (by rw [h]; decide)
    simpa [h, hw, payload] using toUInt32_toUInt64_eq_iff
  · have hw := hzero (by rw [h]; decide)
    simpa [h, hw, payload] using toUInt32_toUInt64_eq_iff
  · have hw := hzero (by rw [h]; decide)
    simpa [h, hw, payload] using toUInt64_ne_zero_eq_iff

/-- The word of a value has its payload above its tag, and the value is read back from it, so that
no two values have the same word. A word is written back as it was exactly when it is zero, has the
tag of a reference or an integer and a payload of 32 bits, or the tag of a truth value and a payload
of one bit; these are the words of values. What has been written back once is written back alike
from then on. -/
theorem words_exact :
    (∀ v : Value, v.toWord = v.payload <<< 2 ||| v.tag ∧ ofWord v.toWord = v) ∧
    (∀ v v' : Value, v.toWord = v'.toWord ↔ v = v') ∧
    (∀ w : UInt64, ((ofWord w).toWord = w ↔
      w = 0 ∨ (wordTag w = 1 ∨ wordTag w = 2) ∧ wordPayload w < 0x100000000 ∨
        wordTag w = 3 ∧ wordPayload w ≤ 1) ∧
      ((ofWord w).toWord = w ↔ ∃ v : Value, v.toWord = w)) ∧
    ∀ w : UInt64, normalize (normalize w) = normalize w := by
  refine ⟨fun v => ⟨v.toWord_eq_or, v.ofWord_toWord⟩, fun _ _ => toWord_inj,
    fun w => ⟨toWord_ofWord_iff w, fun h => ⟨_, h⟩, ?_⟩, fun w => ?_⟩
  · rintro ⟨v, rfl⟩
    rw [ofWord_toWord]
  · rw [normalize, normalize, ofWord_toWord]

end Value

end FieldUpdater
