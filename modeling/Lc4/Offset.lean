import Lc4.Word
import Lc4.Text.Numeral

/-!
# Offsets and immediate values

An operand of `bits` bits, signed or unsigned, is kept as a whole word. `truncate` maps a word to
the operand that has the same low bits; `check` accepts exactly the words that `truncate` leaves
alone. Both come in a form that gives the bare field, for instructions.
-/
namespace Lc4

/-- A number is outside the range of a field with the given number of bits. -/
inductive RangeError
  | cannotFitSigned (bits : Nat)
  | cannotFitUnsigned (bits : Nat)
deriving DecidableEq

namespace RangeError

def message : RangeError → String
  | cannotFitSigned bits =>
    "value is too big for signed " ++ toString bits ++ "-bit integer"
  | cannotFitUnsigned bits =>
    "value is too big for unsigned " ++ toString bits ++ "-bit integer"

/-- The least and the greatest number of the field. -/
def range : RangeError → Int × Int
  | cannotFitSigned bits => (-Int.ofNat (1 <<< (bits - 1)), Int.ofNat (1 <<< (bits - 1)) - 1)
  | cannotFitUnsigned bits => (0, Int.ofNat (1 <<< bits) - 1)

private def boundText (i : Int) : String :=
  Text.Numeral.decimal .plain i

def help (e : RangeError) : String :=
  let kind := match e with
    | cannotFitSigned bits => "a signed " ++ toString bits
    | cannotFitUnsigned bits => "an unsigned " ++ toString bits
  "the range for " ++ kind ++ "-bit integer is ["
    ++ boundText e.range.1 ++ ", " ++ boundText e.range.2 ++ "]"

end RangeError

namespace Offset

def rangeError : Signedness → Nat → RangeError
  | .signed, bits => .cannotFitSigned bits
  | .unsigned, bits => .cannotFitUnsigned bits

/-- Keeps the low `bits` bits and extends them to a word again. -/
def truncate : Signedness → Nat → Word → Word
  | .signed, bits, w => w.extendSigned bits
  | .unsigned, bits, w => w.extendUnsigned bits

def check (s : Signedness) (bits : Nat) (w : Word) : Except RangeError Word :=
  if truncate s bits w = w then .ok w else .error (rangeError s bits)

/-- The bits that stand for an operand inside an instruction. An unsigned operand has no others. -/
def field : Signedness → Nat → Word → Word
  | .signed, bits, w => w.extendUnsigned bits
  | .unsigned, _, w => w

/-- The field of a word that fits, as an instruction holds it. -/
def immediate (s : Signedness) (bits : Nat) (w : Word) : Except RangeError (BitVec bits) :=
  (check s bits w).map (BitVec.setWidth bits)

/-- A decimal operand. The style applies to the number after the mark `#`. -/
def decimal (style : Text.Numeral.DecimalStyle) (s : Signedness) {n : Nat} (x : BitVec n) :
    String :=
  "#" ++ Text.Numeral.decimal style (s.value x)

def text (s : Signedness) {n : Nat} (x : BitVec n) : String :=
  decimal .plain s x

/-- A hexadecimal operand; the width counts the digits after the mark `x`. -/
def hex (width : Nat) {n : Nat} (x : BitVec n) : String :=
  "x" ++ Text.Numeral.hex width x.toNat

theorem check_eq_ok_iff {s : Signedness} {bits : Nat} {w v : Word} :
    check s bits w = .ok v ↔ truncate s bits w = w ∧ w = v := by
  unfold check
  split <;> simp_all

end Offset

end Lc4
