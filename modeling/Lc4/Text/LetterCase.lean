/-!
# Letter case for keywords

Command words and mnemonics are ASCII, so a text is compared with them after mapping every
character whose other case is written in ASCII letters. These are the ASCII letters and a few
others: the dotless i, the long s, the sharp s and the Latin ligatures have upper case forms in
ASCII, the Kelvin sign has a lower case one. All other characters stay as they are.
-/
namespace Lc4.Text

def upperChar (c : Char) : List Char :=
  match c.toNat with
  | 0xDF => ['S', 'S']
  | 0x131 => ['I']
  | 0x17F => ['S']
  | 0xFB00 => ['F', 'F']
  | 0xFB01 => ['F', 'I']
  | 0xFB02 => ['F', 'L']
  | 0xFB03 => ['F', 'F', 'I']
  | 0xFB04 => ['F', 'F', 'L']
  | 0xFB05 => ['S', 'T']
  | 0xFB06 => ['S', 'T']
  | _ => [c.toUpper]

def lowerChar (c : Char) : Char :=
  if c.toNat = 0x212A then 'k' else c.toLower

def upper (cs : List Char) : List Char :=
  cs.flatMap upperChar

def lower (cs : List Char) : List Char :=
  cs.map lowerChar

end Lc4.Text
