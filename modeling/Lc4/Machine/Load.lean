import Lc4.Machine.Basic
import Lc4.Object.File

/-!
# Loading object files

Blocks take effect one after the other: code and data fill memory, a symbol becomes a label and a
note on its address, file names and line numbers are passed over. If a file is faulty, all before
the fault is loaded, and of a code or data block that is cut short the words that are there.
-/
namespace Lc4.Machine

open Object

def loadBlock (m : Machine) : Block → Machine
  | .memory _ addr words => { m with mem := m.mem.copyBlock addr words }
  | .symbol addr name =>
    { m with labels := m.labels.insert name addr, notes := m.notes.setLabel addr name }
  | .fileName _ | .line _ _ _ => m

def loadFile (m : Machine) (f : ObjectFile) : Machine :=
  { f.blocks.foldl loadBlock m with status := .idle }

def loadBytes (m : Machine) (bytes : List UInt8) : Machine × Option ReadError :=
  let (m, error) := foldBlocks loadBlock { m with status := .idle } bytes
  match error.bind ReadError.part? with
  | some part => (m.loadBlock part, error)
  | none => (m, error)

end Lc4.Machine
