import Lc4.Object.Reader

/-!
# Object files

An object file is a list of blocks. Its bytes are those of its blocks; a byte string is an object
file if it is read to the end without a fault.
-/
namespace Lc4

structure ObjectFile where
  blocks : List Object.Block
deriving DecidableEq

namespace ObjectFile

open Object

def toBytes (f : ObjectFile) : List UInt8 :=
  f.blocks.flatMap Block.toBytes

def ofBytes (bytes : List UInt8) : Except ReadError ObjectFile :=
  let c := Contents.ofBytes bytes
  match c.error with
  | none => .ok ⟨c.blocks⟩
  | some e => .error e

def symbols (f : ObjectFile) : List (String × Word) :=
  f.blocks.filterMap fun
    | .symbol addr name => some (name, addr)
    | _ => none

def fileNames (f : ObjectFile) : List String :=
  f.blocks.filterMap fun
    | .fileName name => some name
    | _ => none

/-- The line entries: address, line number and index of the file name. -/
def lines (f : ObjectFile) : List (Word × Word × Word) :=
  f.blocks.filterMap fun
    | .line addr number fileIndex => some (addr, number, fileIndex)
    | _ => none

end ObjectFile

end Lc4
