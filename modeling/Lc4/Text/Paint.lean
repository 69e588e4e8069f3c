/-!
# Coloured text

Text is coloured for a terminal by an escape sequence in front and a reset behind it. A reset
inside the text is followed by the colour again.
-/
namespace Lc4.Text

inductive Colour
  | red
  | yellow
  | cyan
deriving DecidableEq

namespace Colour

def code : Colour → String
  | red => "31"
  | yellow => "33"
  | cyan => "36"

def reset : String := "\x1b[0m"

def start (c : Colour) : String :=
  "\x1b[" ++ c.code ++ "m"

/-- Colours a text if `on`. -/
def paint (c : Colour) (on : Bool) (text : String) : String :=
  if on then c.start ++ text.replace reset (reset ++ c.start) ++ reset else text

end Colour

end Lc4.Text
