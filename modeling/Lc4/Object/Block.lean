import Lc4.Word
import Lc4.Text.Utf8

/-!
# Blocks of an object file

A block starts with a tag word that gives its kind. All words are written with the high byte
first. Lists of words and names are preceded by their length, in words and bytes, and are cut so
that the length fits into a word.
-/
namespace Lc4

namespace Word

def ofBytes (high low : UInt8) : Word :=
  high.toBitVec ++ low.toBitVec

def toBytes (w : Word) : List UInt8 :=
  [⟨w.extractLsb' 8 8⟩, ⟨w.extractLsb' 0 8⟩]

theorem ofBytes_toBytes (w : Word) :
    ofBytes ⟨w.extractLsb' 8 8⟩ ⟨w.extractLsb' 0 8⟩ = w :=
  BitVec.extractLsb'_append_extractLsb'_eq_extractLsb' rfl |>.trans BitVec.extractLsb'_eq_self

end Word

namespace Object

/-- The two kinds of block that fill memory. -/
inductive Section
  | code
  | data
deriving DecidableEq

inductive BlockKind
  | memory (part : Section)
  | symbol
  | fileName
  | line
deriving DecidableEq

namespace BlockKind

def all : List BlockKind :=
  [memory .code, memory .data, symbol, fileName, line]

def tag : BlockKind → Word
  | memory .code => 0xCADE
  | memory .data => 0xDADA
  | symbol => 0xC3B7
  | fileName => 0xF17E
  | line => 0x715E

def ofTag? (w : Word) : Option BlockKind :=
  all.find? fun k => k.tag == w

def name : BlockKind → String
  | memory .code => "code"
  | memory .data => "data"
  | symbol => "symbol"
  | fileName => "file name"
  | line => "line number"

@[simp] theorem ofTag?_tag (k : BlockKind) : ofTag? k.tag = some k := by
  rcases k with ⟨⟨⟩⟩ | _ | _ | _ <;> decide

end BlockKind

inductive Block
  | memory (part : Section) (addr : Word) (words : List Word)
  | symbol (addr : Word) (name : String)
  | fileName (name : String)
  | line (addr number fileIndex : Word)
deriving DecidableEq

/-- The greatest length that a block can hold. -/
def maxLength : Nat := 65535

namespace Block

def kind : Block → BlockKind
  | memory part _ _ => .memory part
  | symbol _ _ => .symbol
  | fileName _ => .fileName
  | line _ _ _ => .line

def wordsBytes (words : List Word) : List UInt8 :=
  let kept := words.take maxLength
  Word.toBytes (BitVec.ofNat 16 kept.length) ++ kept.flatMap Word.toBytes

def nameBytes (name : String) : List UInt8 :=
  let kept := (Text.Utf8.encode name).take maxLength
  Word.toBytes (BitVec.ofNat 16 kept.length) ++ kept

def payload : Block → List UInt8
  | memory _ addr words => addr.toBytes ++ wordsBytes words
  | symbol addr name => addr.toBytes ++ nameBytes name
  | fileName name => nameBytes name
  | line addr number fileIndex => addr.toBytes ++ number.toBytes ++ fileIndex.toBytes

def toBytes (b : Block) : List UInt8 :=
  b.kind.tag.toBytes ++ b.payload

end Block

end Object

end Lc4
