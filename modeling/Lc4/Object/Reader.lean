import Lc4.Object.Block
import Lc4.Text.Numeral
import Lc4.Instr.Printer

/-!
# Reading blocks

A reader takes one block after the other from the front of a byte string and stops at the first
fault, which is placed where the faulty block begins. A code or data block that the input cuts
short still gives the words that are complete, if its header is.
-/
namespace Lc4.Object

/-- What is wrong with a block. -/
inductive BlockFault
  | unknownTag (tag : Word)
  | truncated (kind : BlockKind) (part : Option Block)
  | trailingByte
deriving DecidableEq

/-- A fault and the offset of the block that has it. -/
structure ReadError where
  fault : BlockFault
  offset : Nat
deriving DecidableEq

namespace ReadError

/-- The part of a block that was cut short. -/
def part? (e : ReadError) : Option Block :=
  match e.fault with
  | .truncated _ part => part
  | .unknownTag _ | .trailingByte => none

def message (e : ReadError) : String :=
  match e.fault with
  | .unknownTag tag =>
    "invalid file format: unknown block tag " ++ tag.hex ++ " at byte " ++ toString e.offset
  | .truncated kind _ => kind.name ++ " block at byte " ++ toString e.offset ++ " is truncated"
  | .trailingByte => "file ends with a partial word at byte " ++ toString e.offset

def help (e : ReadError) : String :=
  match e.fault with
  | .unknownTag _ =>
    "valid tags are xCADE, xDADA, xC3B7, xF17E, and x715E; is this an LC-4 object file?"
  | .truncated _ _ | .trailingByte =>
    "everything read before this point was loaded; the file may be incomplete"

end ReadError

def takeWord : List UInt8 → Option (Word × List UInt8)
  | high :: low :: rest => some (Word.ofBytes high low, rest)
  | _ => none

def hasLength : Nat → List UInt8 → Bool
  | 0, _ => true
  | _ + 1, [] => false
  | n + 1, _ :: rest => hasLength n rest

def takeBytes (n : Nat) (bytes : List UInt8) : Option (List UInt8 × List UInt8) :=
  if hasLength n bytes then some (bytes.take n, bytes.drop n) else none

def takeName (bytes : List UInt8) : Option (String × List UInt8) := do
  let (len, bytes) ← takeWord bytes
  let (name, bytes) ← takeBytes len.toNat bytes
  return (Text.Utf8.decode name, bytes)

def wordsOnto (acc : List Word) : List UInt8 → List Word
  | high :: low :: rest => wordsOnto (Word.ofBytes high low :: acc) rest
  | _ => acc.reverse

/-- The words of a byte string; a last odd byte is ignored. -/
def wordsOf (bytes : List UInt8) : List Word :=
  wordsOnto [] bytes

/-- Reads what follows the tag. The error is the part of the block that could be read. -/
def readPayload (kind : BlockKind) (bytes : List UInt8) :
    Except (Option Block) (Block × List UInt8) :=
  let whole (r : Option (Block × List UInt8)) : Except (Option Block) (Block × List UInt8) :=
    match r with
    | some r => .ok r
    | none => .error none
  match kind with
  | .memory part =>
    match takeWord bytes with
    | none => .error none
    | some (addr, bytes) =>
      match takeWord bytes with
      | none => .error none
      | some (count, bytes) =>
        match takeBytes (2 * count.toNat) bytes with
        | some (body, bytes) => .ok (.memory part addr (wordsOf body), bytes)
        | none => .error (some (.memory part addr (wordsOf bytes)))
  | .symbol => whole do
    let (addr, bytes) ← takeWord bytes
    let (name, bytes) ← takeName bytes
    return (.symbol addr name, bytes)
  | .fileName => whole do
    let (name, bytes) ← takeName bytes
    return (.fileName name, bytes)
  | .line => whole do
    let (addr, bytes) ← takeWord bytes
    let (line, bytes) ← takeWord bytes
    let (fileIndex, bytes) ← takeWord bytes
    return (.line addr line fileIndex, bytes)

def readBlock (bytes : List UInt8) : Except BlockFault (Block × List UInt8) :=
  match takeWord bytes with
  | none => .error .trailingByte
  | some (tag, payload) =>
    match BlockKind.ofTag? tag with
    | none => .error (.unknownTag tag)
    | some kind =>
      match readPayload kind payload with
      | .ok r => .ok r
      | .error part => .error (.truncated kind part)

/-- What is left of a byte string of `total` bytes, and whether a fault was met. -/
structure Reader where
  bytes : List UInt8
  total : Nat
  failed : Bool

namespace Reader

def ofBytes (bytes : List UInt8) : Reader :=
  ⟨bytes, bytes.length, false⟩

def offset (r : Reader) : Nat :=
  r.total - r.bytes.length

/-- The next block or the fault in its place; nothing at the end and after a fault. -/
def next? (r : Reader) : Option (Except ReadError Block × Reader) :=
  if r.failed || r.bytes.isEmpty then none
  else match readBlock r.bytes with
    | .ok (block, rest) => some (.ok block, { r with bytes := rest })
    | .error fault => some (.error ⟨fault, r.offset⟩, { r with failed := true })

/-- Hands every block to `f` in file order, for at most `fuel` blocks. -/
def foldBlocks {σ : Type} (f : σ → Block → σ) : Nat → Reader → σ → σ × Option ReadError
  | 0, _, s => (s, none)
  | fuel + 1, r, s =>
    match r.next? with
    | none => (s, none)
    | some (.ok block, r) => foldBlocks f fuel r (f s block)
    | some (.error e, _) => (s, some e)

end Reader

/-- Hands every block of a byte string to `f`. A block takes up bytes, so there are no more
blocks than bytes. -/
def foldBlocks {σ : Type} (f : σ → Block → σ) (s : σ) (bytes : List UInt8) :
    σ × Option ReadError :=
  Reader.foldBlocks f bytes.length (.ofBytes bytes) s

/-- What is read from a byte string: blocks, and the fault that ended them, if one did. -/
structure Contents where
  blocks : List Block
  error : Option ReadError
deriving DecidableEq

namespace Contents

def ofBytes (bytes : List UInt8) : Contents :=
  let (reversed, error) := foldBlocks (fun acc block => block :: acc) [] bytes
  ⟨reversed.reverse, error⟩

end Contents

end Lc4.Object
