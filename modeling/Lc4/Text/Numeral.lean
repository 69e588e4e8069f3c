/-!
# Number text

Hexadecimal numbers are written with upper-case digits. Decimal numbers are written with as few
digits as possible, after an optional sign, and filled with spaces on the left up to a width.
-/
namespace Lc4.Text.Numeral

def hexDigits (n : Nat) : List Char :=
  (Nat.toDigits 16 n).map Char.toUpper

/-- At least `width` digits, with leading zeros. -/
def hex (width n : Nat) : String :=
  String.ofList ((hexDigits n).leftpad width '0')

/-- The 32-bit two's complement of `i` with the mark `0x`. -/
def hex32 (i : Int) : String :=
  "0x" ++ hex 0 (BitVec.ofInt 32 i).toNat

/-- At least `width` binary digits, with leading zeros. -/
def binary (width n : Nat) : String :=
  String.ofList ((Nat.toDigits 2 n).leftpad width '0')

/-- How a decimal number is set. -/
structure DecimalStyle where
  width : Nat
  plus : Bool

def DecimalStyle.plain : DecimalStyle := ⟨0, false⟩

def signMark (style : DecimalStyle) (i : Int) : List Char :=
  if i < 0 then ['-'] else if style.plus then ['+'] else []

def decimalDigits (n : Nat) : List Char :=
  Nat.toDigits 10 n

def decimal (style : DecimalStyle) (i : Int) : String :=
  String.ofList ((signMark style i ++ decimalDigits i.natAbs).leftpad style.width ' ')

end Lc4.Text.Numeral
