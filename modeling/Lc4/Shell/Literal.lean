import Lc4.Word

/-!
# Numbers in command lines

A number is a run of digits in a radix. A literal says its radix by how it begins: `0x`, `0o` and
`0b`, or a leading `0` for octal; without any it is decimal. After a radix mark, underscores
between digits do not count.
-/
namespace Lc4.Shell.Literal

inductive NumberError
  | empty
  | invalidDigit
  | tooLarge
deriving DecidableEq

def digitValue? (radix : Nat) (c : Char) : Option Nat :=
  let n := c.toNat
  let value? : Option Nat :=
    if 48 ≤ n ∧ n ≤ 57 then some (n - 48)
    else if 65 ≤ n ∧ n ≤ 90 then some (n - 55)
    else if 97 ≤ n ∧ n ≤ 122 then some (n - 87)
    else none
  value?.filter (· < radix)

/-- Goes on with the number `acc`, of which no digits may take it above `limit`. -/
def readOnto (radix limit acc : Nat) : List Char → Except NumberError Nat
  | [] => .ok acc
  | c :: cs =>
    match digitValue? radix c with
    | none => .error .invalidDigit
    | some d =>
      if limit < acc * radix + d then .error .tooLarge
      else readOnto radix limit (acc * radix + d) cs

/-- The number that the digits make, if it is at most `limit`. Of two faults the one that comes
first is reported. -/
def read (radix limit : Nat) (digits : List Char) : Except NumberError Nat :=
  if digits.isEmpty then .error .empty else readOnto radix limit 0 digits

/-- The radix of a literal and what follows its mark. -/
def splitRadix : List Char → Nat × List Char
  | '0' :: 'x' :: ds | '0' :: 'X' :: ds => (16, ds)
  | '0' :: 'o' :: ds | '0' :: 'O' :: ds => (8, ds)
  | '0' :: 'b' :: ds | '0' :: 'B' :: ds => (2, ds)
  | '0' :: c :: ds => (8, c :: ds)
  | ds => (10, ds)

/-- The value of a literal, as far as it has 32 bits. -/
def readMarked (cs : List Char) : Except NumberError Nat :=
  let (radix, digits) := splitRadix cs
  read radix 0xFFFFFFFF (if radix = 10 then digits else digits.filter (· != '_'))

end Lc4.Shell.Literal
