import Lc4.Word

/-!
# The processor status register

The register holds the privilege bit and one condition code. As a word, bit 15 is the privilege
and bits 2 to 0 are the flags `n`, `z` and `p`, of which exactly one is set.
-/
namespace Lc4

inductive Cond
  | negative
  | zero
  | positive
deriving DecidableEq

namespace Cond

def mask : Cond → BitVec 3
  | negative => 0b100
  | zero => 0b010
  | positive => 0b001

/-- The condition of a mask with one flag; any other mask counts as `zero`. -/
def ofMask (m : BitVec 3) : Cond :=
  if m = 0b100 then negative
  else if m = 0b001 then positive
  else zero

def ofOrdering : Ordering → Cond
  | .lt => negative
  | .eq => zero
  | .gt => positive

/-- How two words compare as numbers. -/
def compare (s : Signedness) (a b : Word) : Cond :=
  ofOrdering (Ord.compare (s.value a) (s.value b))

/-- The sign of a word. -/
def ofWord (w : Word) : Cond :=
  compare .signed w 0

def letter : Cond → String
  | negative => "N"
  | zero => "Z"
  | positive => "P"

@[simp] theorem ofMask_mask (c : Cond) : ofMask c.mask = c := by
  cases c <;> rfl

end Cond

structure Psr where
  privileged : Bool
  cond : Cond
deriving DecidableEq

namespace Psr

/-- The reset value: supervisor mode and condition `z`. -/
def initial : Psr := ⟨true, .zero⟩

def toWord (p : Psr) : Word :=
  Word.place (BitVec.ofBool p.privileged) 15 ||| Word.place p.cond.mask 0

def ofWord (w : Word) : Psr :=
  ⟨w.getLsbD 15, Cond.ofMask (w.setWidth 3)⟩

/-- Sets the condition from the low three bits of a byte. -/
def setCond (p : Psr) (byte : BitVec 8) : Psr :=
  { p with cond := Cond.ofMask (byte.setWidth 3) }

def setPrivileged (p : Psr) (b : Bool) : Psr :=
  { p with privileged := b }

/-- Whether a branch with these flags is taken. -/
def takes (p : Psr) (flags : BitVec 3) : Bool :=
  flags &&& p.cond.mask != 0

def text (p : Psr) : String :=
  "PSR \x7b privileged: " ++ toString p.privileged ++ ", cc: " ++ p.cond.letter ++ " \x7d"

theorem toWord_initial : initial.toWord = 0x8002 := by decide

end Psr

end Lc4
