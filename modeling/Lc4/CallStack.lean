import Lc4.Word

/-!
# The stack of calls

The depth counts the calls that have not returned. The frames themselves are kept only on request,
the innermost first. A return at depth 0 does nothing.
-/
namespace Lc4

inductive CallKind
  | subroutine
  | trap
deriving DecidableEq

structure Frame where
  caller : Word
  callee : Word
  kind : CallKind
deriving DecidableEq

structure CallStack where
  depth : Nat
  frames : Option (List Frame)
deriving DecidableEq

namespace CallStack

def empty (keepFrames : Bool) : CallStack :=
  ⟨0, if keepFrames then some [] else none⟩

def push (s : CallStack) (f : Frame) : CallStack :=
  ⟨s.depth + 1, s.frames.map (f :: ·)⟩

def pop (s : CallStack) : CallStack :=
  ⟨s.depth - 1, s.frames.map List.tail⟩

def isEmpty (s : CallStack) : Bool :=
  s.depth == 0

end CallStack

end Lc4
