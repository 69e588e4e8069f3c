import Lc4.AddressMap

/-!
# Memory

Memory holds a word at every address. Blocks of words are copied in address order and wrap from
the last address to the first, so of two words for one address the later one stays.
-/
namespace Lc4

abbrev Memory := AddressMap Word

namespace Memory

def zero : Memory :=
  AddressMap.fill 0

/-- How many words there are. -/
def size : Nat := 65536

/-- Replaces the words from index `i` on by those of a slice. -/
def overwrite (m : Memory) : (i : Nat) → List Word → Memory
  | _, [] => m
  | i, w :: ws => overwrite (m.set (BitVec.ofNat 16 i) w) (i + 1) ws

/-- Cuts words into slices that fill memory, of which the last one may be shorter. Every slice takes
a word, so the number of words is fuel enough. -/
def chunks : (fuel : Nat) → List Word → List (List Word)
  | 0, _ | _, [] => []
  | fuel + 1, w :: ws => (w :: ws).take size :: chunks fuel ((w :: ws).drop size)

/-- The slices in which a block of words is copied, with the index where each of them goes: the
words that fit between `start` and the end of memory, then the others from the first address on. -/
def slices (start : Word) (words : List Word) : List (Nat × List Word) :=
  let room := min words.length (size - start.toNat)
  let right := words.drop room
  (start.toNat, words.take room) :: (chunks right.length right).map fun chunk => (0, chunk)

/-- Writes words to consecutive addresses from `start` on. -/
def copyBlock (m : Memory) (start : Word) (words : List Word) : Memory :=
  (slices start words).foldl (fun m slice => m.overwrite slice.1 slice.2) m

/-- The words at the `len` addresses from `start` on, with their addresses. -/
def window (m : Memory) (start : Word) (len : Nat) : List (Word × Word) :=
  (List.range len).map fun i =>
    let a := start + BitVec.ofNat 16 i
    (a, m.get a)

def nonzero (m : Memory) : List (Word × Word) :=
  m.filterMap fun w => if w = 0 then none else some w

/-- The words that are not zero, in address order. -/
def text (m : Memory) : String :=
  let entry (p : Word × Word) : String := toString p.1.toNat ++ ": " ++ toString p.2.toNat
  "\x7b" ++ ", ".intercalate (m.nonzero.map entry) ++ "\x7d"

end Memory

end Lc4
