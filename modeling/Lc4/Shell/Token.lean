import Lc4.Reg
import Lc4.Shell.Literal
import Lc4.Text.WordChar

/-!
# Tokens of command lines

Each rule takes as much of the front of a text as it can; the rule that takes the most gives the
token, and of rules that take equally much the first one listed. A number or register is taken
whole, up to the next character that belongs to no word, and is judged afterwards. A character
that no rule takes is an error of its own, and lexing goes on behind it.
-/
namespace Lc4.Shell

inductive Token
  | unsigned (value : Word)
  | signed (value : Word)
  | reg (r : Reg)
  | ident (name : String)
  | comma
  | comment
deriving DecidableEq

inductive LexError
  | doesNotFitUnsigned
  | doesNotFitSigned
  | invalidHex
  | invalidNumeric
  | emptyHex
  | emptyNumeric
  | invalidRegister
  | invalidSymbol
deriving DecidableEq

namespace LexError

def message : LexError → String
  | doesNotFitUnsigned => "numeric token does not fit 16-bit unsigned integer"
  | doesNotFitSigned => "numeric token does not fit 16-bit signed integer"
  | invalidHex => "invalid hex literal"
  | invalidNumeric => "invalid numeric literal"
  | emptyHex => "invalid hex literal"
  | emptyNumeric => "invalid numeric literal"
  | invalidRegister => "invalid register"
  | invalidSymbol => "unrecognized symbol"

def help : LexError → String
  | doesNotFitUnsigned => "the range for a 16-bit unsigned integer is [0, 65535]"
  | doesNotFitSigned => "the range for a 16-bit signed integer is [-32768, 32767]"
  | invalidHex => "a hex literal starts with 'x' or '0x' and consists of 0-9, A-F"
  | invalidNumeric => "use 0x for hex, 0o or a leading 0 for octal, 0b for binary"
  | emptyHex => "there should be hex digits (0-9, A-F) here"
  | emptyNumeric => "there should be digits here"
  | invalidRegister => "this must be R0-R7"
  | invalidSymbol => "this char does not occur in any debugger command"

end LexError

namespace Token

def isSkipped (c : Char) : Bool :=
  c == ' ' || c == '\t' || c == '\r' || c == '\n'

/-- The rules, the ones that win ties first. -/
inductive Rule
  | unsignedLiteral
  | unsignedDecimal
  | unsignedHex
  | signedLiteral
  | signedDecimal
  | signedHex
  | register
  | ident
  | comma
  | comment
deriving DecidableEq

def isHexLetter (c : Char) : Bool :=
  ('a' ≤ c && c ≤ 'f') || ('A' ≤ c && c ≤ 'F')

def isIdentChar (c : Char) : Bool :=
  Text.isWordChar c || c == '.'

/-- How many characters at the front are in a class. -/
def runLength (p : Char → Bool) (cs : List Char) : Nat :=
  (cs.takeWhile p).length

namespace Rule

def all : List Rule :=
  [unsignedLiteral, unsignedDecimal, unsignedHex, signedLiteral, signedDecimal, signedHex,
    register, ident, comma, comment]

/-- How many characters the rule takes, if it takes any. -/
def length? : Rule → List Char → Option Nat
  | unsignedLiteral, c :: cs =>
    if Text.isDecimalDigit c then some (1 + runLength Text.isWordChar cs) else none
  | unsignedDecimal, '#' :: cs => some (1 + runLength Text.isWordChar cs)
  | unsignedHex, x :: c :: cs =>
    if (x == 'x' || x == 'X') && (Text.isDecimalDigit c || isHexLetter c) then
      some (2 + runLength Text.isWordChar cs)
    else none
  | signedLiteral, '-' :: cs => some (1 + runLength Text.isWordChar cs)
  | signedDecimal, '#' :: '-' :: cs => some (2 + runLength Text.isWordChar cs)
  | signedHex, x :: '-' :: cs =>
    if x == 'x' || x == 'X' then some (2 + runLength Text.isWordChar cs) else none
  | register, r :: cs =>
    let digits := runLength Text.isDecimalDigit cs
    if (r == 'r' || r == 'R') && digits != 0 then some (1 + digits) else none
  | ident, c :: cs =>
    if c.isAlpha || c == '_' then some (1 + runLength isIdentChar cs) else none
  | comma, ',' :: _ => some 1
  | comment, ';' :: cs => some (1 + runLength (· != '\n') cs)
  | _, _ => none

/-- The rule that takes the most, with the number of characters. -/
def longest (cs : List Char) : Option (Rule × Nat) :=
  all.foldl (fun best rule =>
    match rule.length? cs, best with
    | some n, some (_, m) => if m < n then some (rule, n) else best
    | some n, none => some (rule, n)
    | none, _ => best) none

open Literal

def unsignedError : NumberError → LexError
  | .empty => .emptyNumeric
  | .invalidDigit => .invalidNumeric
  | .tooLarge => .doesNotFitUnsigned

def signedError : NumberError → LexError
  | .empty => .emptyNumeric
  | .invalidDigit => .invalidNumeric
  | .tooLarge => .doesNotFitSigned

def hexError (tooLarge : LexError) : NumberError → LexError
  | .empty => .emptyHex
  | .invalidDigit => .invalidHex
  | .tooLarge => tooLarge

def unsignedOfNat (n : Nat) : Except LexError Token :=
  if n ≤ 0xFFFF then .ok (.unsigned (BitVec.ofNat 16 n)) else .error .doesNotFitUnsigned

/-- The token of `-n`. -/
def negativeOfNat (n : Nat) : Except LexError Token :=
  if n ≤ 0x8000 then .ok (.signed (-BitVec.ofNat 16 n)) else .error .doesNotFitSigned

/-- Judges the characters that a rule has taken. -/
def token (rule : Rule) (cs : List Char) : Except LexError Token :=
  match rule with
  | unsignedLiteral => (readMarked cs).mapError unsignedError >>= unsignedOfNat
  | unsignedDecimal => (read 10 0xFFFF (cs.drop 1)).mapError unsignedError >>= unsignedOfNat
  | unsignedHex =>
    (read 16 0xFFFF (cs.drop 1)).mapError (hexError .doesNotFitUnsigned) >>= unsignedOfNat
  | signedLiteral => (readMarked (cs.drop 1)).mapError signedError >>= negativeOfNat
  | signedDecimal => (read 10 0x8000 (cs.drop 2)).mapError signedError >>= negativeOfNat
  | signedHex =>
    (read 16 0x8000 (cs.drop 2)).mapError (hexError .doesNotFitSigned) >>= negativeOfNat
  | register =>
    match read 10 7 (cs.drop 1) with
    | .ok n => .ok (.reg (BitVec.ofNat 3 n))
    | .error _ => .error .invalidRegister
  | ident => .ok (.ident (String.ofList cs))
  | comma => .ok .comma
  | comment => .ok .comment

end Rule

end Token

/-- A token or error with its characters and where they stand, in bytes of UTF-8. -/
structure Lexeme where
  result : Except LexError Token
  chars : List Char
  start : Nat
  stop : Nat

namespace Lexeme

def byteLength (cs : List Char) : Nat :=
  cs.foldr (fun c n => c.utf8Size + n) 0

def text (x : Lexeme) : String :=
  String.ofList x.chars

/-- The characters at the front that make one token or error, with the outcome. -/
def front (c : Char) (cs : List Char) : Except LexError Token × List Char :=
  match Token.Rule.longest (c :: cs) with
  | some (rule, n) => (rule.token ((c :: cs).take n), (c :: cs).take n)
  | none => (.error .invalidSymbol, [c])

/-- The lexemes of a text that begins `pos` bytes into the line. Every lexeme takes a character,
so the length of the text is fuel enough. -/
def lexFrom : (fuel : Nat) → (pos : Nat) → List Char → List Lexeme
  | 0, _, _ => []
  | _ + 1, _, [] => []
  | fuel + 1, pos, c :: cs =>
    if Token.isSkipped c then lexFrom fuel (pos + c.utf8Size) cs
    else
      let (result, taken) := front c cs
      let stop := pos + byteLength taken
      ⟨result, taken, pos, stop⟩ :: lexFrom fuel stop ((c :: cs).drop taken.length)

def ofChars (cs : List Char) : List Lexeme :=
  lexFrom cs.length 0 cs

def ofString (s : String) : List Lexeme :=
  ofChars s.toList

end Lexeme

end Lc4.Shell
