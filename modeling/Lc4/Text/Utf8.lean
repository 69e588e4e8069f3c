/-!
# UTF-8

Decoding is lossy and total: every maximal part of the input that cannot begin or continue a
character becomes one replacement character. A part that is cut off by the end of the input
counts as such a part. Bytes are valid UTF-8 exactly if encoding what they decode to gives them
back.
-/
namespace Lc4.Text.Utf8

def encode (s : String) : List UInt8 :=
  s.toList.flatMap String.utf8EncodeChar

/-- A character of which at least one byte is read: how many bytes are missing, the bounds of the
next one, and the number that the bits so far make. -/
structure Pending where
  missing : Nat
  low : Nat
  high : Nat
  value : Nat

/-- What a first byte says. -/
inductive Lead
  | single (c : Char)
  | begins (p : Pending)
  | invalid

/-- The bounds of the second byte keep out overlong forms, surrogates and numbers above the last
code point. -/
def lead (b : Nat) : Lead :=
  if b < 0x80 then .single (Char.ofNat b)
  else if b < 0xC2 then .invalid
  else if b < 0xE0 then .begins ⟨1, 0x80, 0xBF, b - 0xC0⟩
  else if b = 0xE0 then .begins ⟨2, 0xA0, 0xBF, 0⟩
  else if b = 0xED then .begins ⟨2, 0x80, 0x9F, 0xD⟩
  else if b < 0xF0 then .begins ⟨2, 0x80, 0xBF, b - 0xE0⟩
  else if b = 0xF0 then .begins ⟨3, 0x90, 0xBF, 0⟩
  else if b < 0xF4 then .begins ⟨3, 0x80, 0xBF, b - 0xF0⟩
  else if b = 0xF4 then .begins ⟨3, 0x80, 0x8F, 4⟩
  else .invalid

/-- The characters so far, the last one first, and the one that is being read. -/
structure Progress where
  chars : List Char
  pending : Option Pending

def replacement : Char := '\uFFFD'

def start (chars : List Char) (b : Nat) : Progress :=
  match lead b with
  | .single c => ⟨c :: chars, none⟩
  | .begins p => ⟨chars, some p⟩
  | .invalid => ⟨replacement :: chars, none⟩

def Progress.next (s : Progress) (byte : UInt8) : Progress :=
  let b := byte.toNat
  match s.pending with
  | none => start s.chars b
  | some p =>
    if p.low ≤ b ∧ b ≤ p.high then
      let value := p.value * 64 + (b - 0x80)
      if p.missing ≤ 1 then ⟨Char.ofNat value :: s.chars, none⟩
      else ⟨s.chars, some ⟨p.missing - 1, 0x80, 0xBF, value⟩⟩
    else start (replacement :: s.chars) b

def Progress.finish (s : Progress) : List Char :=
  match s.pending with
  | none => s.chars.reverse
  | some _ => (replacement :: s.chars).reverse

def decode (bytes : List UInt8) : String :=
  String.ofList (bytes.foldl Progress.next ⟨[], none⟩).finish

def decode? (bytes : List UInt8) : Option String :=
  let s := decode bytes
  if encode s = bytes then some s else none

end Lc4.Text.Utf8
