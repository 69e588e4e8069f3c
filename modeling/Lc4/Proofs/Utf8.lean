import Lc4.Text.Utf8

/-!
# Decoding what was encoded

The bytes of a character, read from a state in which no character has begun, give the character
back and leave no character begun. So decoding undoes encoding, although decoding is lossy.
-/
namespace Lc4.Text.Utf8

section Lead
variable {v : Nat}

theorem lead_one (h : v ≤ 0x7F) : lead v = .single (Char.ofNat v) := by
  rw [lead, if_pos (by omega)]

/-- The lead byte of a character with two bytes, and the bits that it carries. -/
theorem lead_two (above : 0x7F < v) (h : v ≤ 0x7FF) :
    lead (v / 64 % 0x20 + 0xC0) = .begins ⟨1, 0x80, 0xBF, v / 64⟩ := by
  have bits : v / 64 % 0x20 = v / 64 := by omega
  rw [lead, if_neg (by omega), if_neg (by omega), if_pos (by omega), bits]
  simp

/-- The bounds of the second byte depend on the first, and let through what is no surrogate. -/
theorem lead_three (above : 0x7FF < v) (h : v ≤ 0xFFFF) (scalar : v < 0xD800 ∨ 0xDFFF < v) :
    ∃ low high, lead (v / 4096 % 0x10 + 0xE0) = .begins ⟨2, low, high, v / 4096⟩ ∧
      low ≤ v / 64 % 64 + 0x80 ∧ v / 64 % 64 + 0x80 ≤ high := by
  have bits : v / 4096 % 0x10 = v / 4096 := by omega
  unfold lead
  rw [if_neg (by omega), if_neg (by omega), if_neg (by omega)]
  split
  case isTrue e0 => exact ⟨0xA0, 0xBF, by simp; omega, by omega, by omega⟩
  case isFalse =>
    split
    case isTrue ed => exact ⟨0x80, 0x9F, by simp; omega, by omega, by omega⟩
    case isFalse =>
      rw [if_pos (by omega)]
      exact ⟨0x80, 0xBF, by simp [bits], by omega, by omega⟩

/-- The lead byte of a character with four bytes; its bounds on the second one leave out what is
above the last character. -/
theorem lead_four (above : 0xFFFF < v) (h : v < 0x110000) :
    ∃ low high, lead (v / 262144 % 0x08 + 0xF0) = .begins ⟨3, low, high, v / 262144⟩ ∧
      low ≤ v / 4096 % 64 + 0x80 ∧ v / 4096 % 64 + 0x80 ≤ high := by
  have bits : v / 262144 % 0x08 = v / 262144 := by omega
  unfold lead
  rw [if_neg (by omega), if_neg (by omega), if_neg (by omega), if_neg (by omega),
    if_neg (by omega), if_neg (by omega)]
  split
  case isTrue f0 => exact ⟨0x90, 0xBF, by simp; omega, by omega, by omega⟩
  case isFalse =>
    split
    case isTrue => exact ⟨0x80, 0xBF, by simp [bits], by omega, by omega⟩
    case isFalse =>
      rw [if_pos (by omega)]
      exact ⟨0x80, 0x8F, by simp; omega, by omega, by omega⟩

end Lead

namespace Progress
variable {chars : List Char} {b : Nat}

theorem toNat_ofNat (h : b < 256) : (UInt8.ofNat b).toNat = b := by
  simp [Nat.mod_eq_of_lt h]

theorem next_begins {p : Pending} (h : b < 256) (first : lead b = .begins p) :
    next ⟨chars, none⟩ (.ofNat b) = ⟨chars, some p⟩ := by
  simp [next, start, toNat_ofNat h, first]

/-- A byte that carries six more bits of a character that is not complete with them. -/
theorem next_more {missing low high value bits : Nat} (more : 1 < missing) (h : bits < 64)
    (ge : low ≤ bits + 0x80) (le : bits + 0x80 ≤ high) :
    next ⟨chars, some ⟨missing, low, high, value⟩⟩ (.ofNat (bits + 0x80)) =
      ⟨chars, some ⟨missing - 1, 0x80, 0xBF, value * 64 + bits⟩⟩ := by
  have more : ¬ missing ≤ 1 := by omega
  simp only [next, toNat_ofNat (b := bits + 0x80) (by omega), ge, le, and_self, if_true, more,
    if_false, Nat.add_sub_cancel]

theorem next_last {low high value bits : Nat} (h : bits < 64)
    (ge : low ≤ bits + 0x80) (le : bits + 0x80 ≤ high) :
    next ⟨chars, some ⟨1, low, high, value⟩⟩ (.ofNat (bits + 0x80)) =
      ⟨Char.ofNat (value * 64 + bits) :: chars, none⟩ := by
  simp only [next, toNat_ofNat (b := bits + 0x80) (by omega), ge, le, and_self, if_true,
    Nat.le_refl, Nat.add_sub_cancel]

/-- The bytes of one character add it to the text. There is a case for each number of bytes. -/
theorem foldl_utf8EncodeChar (chars : List Char) (c : Char) :
    (String.utf8EncodeChar c).foldl next ⟨chars, none⟩ = ⟨c :: chars, none⟩ := by
  have scalar : c.toNat < 0xD800 ∨ 0xDFFF < c.toNat ∧ c.toNat < 0x110000 := c.valid
  have whole : Char.ofNat c.toNat = c := Char.ofNat_toNat c
  unfold String.utf8EncodeChar
  rw [show c.val.toNat = c.toNat from rfl]
  generalize c.toNat = v at scalar whole
  dsimp only
  split
  case isTrue one =>
    simp only [List.foldl_cons, List.foldl_nil, next, start, toNat_ofNat (b := v) (by omega),
      lead_one one, whole]
  case isFalse one =>
    split
    case isTrue two =>
      have first := lead_two (by omega) two
      have bits : v / 64 * 64 + v % 64 = v := by omega
      rw [List.foldl_cons, next_begins (by omega) first, List.foldl_cons,
        next_last (by omega) (by omega) (by omega), bits, whole, List.foldl_nil]
    case isFalse two =>
      split
      case isTrue three =>
        obtain ⟨low, high, first, ge, le⟩ := lead_three (by omega) three (by omega)
        have bits : (v / 4096 * 64 + v / 64 % 64) * 64 + v % 64 = v := by omega
        rw [List.foldl_cons, next_begins (by omega) first, List.foldl_cons,
          next_more (by omega) (by omega) ge le, List.foldl_cons,
          next_last (by omega) (by omega) (by omega), bits, whole, List.foldl_nil]
      case isFalse three =>
        obtain ⟨low, high, first, ge, le⟩ := lead_four (v := v) (by omega) (by omega)
        have bits :
            ((v / 262144 * 64 + v / 4096 % 64) * 64 + v / 64 % 64) * 64 + v % 64 = v := by
          omega
        rw [List.foldl_cons, next_begins (by omega) first, List.foldl_cons,
          next_more (by omega) (by omega) ge le, List.foldl_cons,
          next_more (by omega) (by omega) (by omega) (by omega), List.foldl_cons,
          next_last (by omega) (by omega) (by omega), bits, whole, List.foldl_nil]

/-- The bytes of a text add its characters in order. -/
theorem foldl_utf8Encode (cs chars : List Char) :
    (cs.flatMap String.utf8EncodeChar).foldl next ⟨chars, none⟩ = ⟨cs.reverse ++ chars, none⟩ := by
  induction cs generalizing chars with
  | nil => rfl
  | cons c cs ih =>
    rw [List.flatMap_cons, List.foldl_append, foldl_utf8EncodeChar, ih, List.reverse_cons,
      List.append_assoc, List.singleton_append]

end Progress

/-- Encoded text is decoded without loss. -/
@[simp] theorem decode_encode (s : String) : decode (encode s) = s := by
  rw [decode, encode, Progress.foldl_utf8Encode]
  simp [Progress.finish]

/-- The bytes of some text. -/
def Valid (bytes : List UInt8) : Prop :=
  ∃ s, encode s = bytes

/-- Decoding loses nothing exactly if the bytes are those of some text. -/
theorem encode_decode_iff {bytes : List UInt8} : encode (decode bytes) = bytes ↔ Valid bytes := by
  constructor
  · exact fun h => ⟨_, h⟩
  · rintro ⟨s, rfl⟩
    rw [decode_encode]

end Lc4.Text.Utf8
