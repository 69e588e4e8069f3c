import Lc4.Files
import Lc4.Object.File

/-!
# Object files by path

An object file is loaded if its path leads to bytes and these can be read to the end.
-/
namespace Lc4

/-- Why an object file cannot be loaded. -/
inductive LoadError
  | unreadable (path : String) (e : FileError)
  | malformed (e : Object.ReadError)
deriving DecidableEq

namespace LoadError

def message : LoadError → String
  | unreadable path e => "could not read " ++ path ++ ": " ++ e.message
  | malformed e => e.message

def help? : LoadError → Option String
  | unreadable _ _ => none
  | malformed e => some e.help

end LoadError

/-- Reads the object file that a path leads to. -/
def ObjectFile.read (readFile : ReadFile) (path : String) : Except LoadError ObjectFile :=
  match readFile path with
  | .error e => .error (.unreadable path e)
  | .ok bytes => (ObjectFile.ofBytes bytes).mapError .malformed

end Lc4
