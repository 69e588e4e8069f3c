import Lc4.Word

/-!
# Regions of the address space

The address space has four fixed regions. Code regions are never written; the two regions of the
operating system are guarded by the privilege: its code against execution, its data against
writes. Data regions may be executed as far as the privilege is concerned.
-/
namespace Lc4

inductive Region
  | userCode
  | userData
  | osCode
  | osData
deriving DecidableEq

namespace Region

def of (a : Word) : Region :=
  if a < 0x2000 then userCode
  else if a < 0x8000 then userData
  else if a < 0xA000 then osCode
  else osData

def first : Region → Word
  | userCode => 0x0000
  | userData => 0x2000
  | osCode => 0x8000
  | osData => 0xA000

def last : Region → Word
  | userCode => 0x1FFF
  | userData => 0x7FFF
  | osCode => 0x9FFF
  | osData => 0xFFFF

def isCode : Region → Bool
  | userCode | osCode => true
  | userData | osData => false

def isOs : Region → Bool
  | userCode | userData => false
  | osCode | osData => true

def name : Region → String
  | userCode => "user code"
  | userData => "user data"
  | osCode => "OS code"
  | osData => "OS data"

/-- A region holds exactly the addresses between its ends. -/
theorem of_eq_iff (a : Word) (r : Region) : of a = r ↔ r.first ≤ a ∧ a ≤ r.last := by
  simp only [of, BitVec.lt_def, BitVec.le_def]
  have := a.isLt
  cases r <;> simp only [first, last] <;> repeat' split
  all_goals simp_all
  all_goals omega

end Region

/-- Whether an instruction at `pc` may execute. -/
def executable (privileged : Bool) (pc : Word) : Bool :=
  privileged || Region.of pc != .osCode

/-- Whether a store to `a` is allowed. -/
def writable (privileged : Bool) (a : Word) : Bool :=
  !(Region.of a).isCode && (privileged || !(Region.of a).isOs)

end Lc4
