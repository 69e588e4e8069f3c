import Lc4.Word

/-!
# Registers

There are eight registers, named by the three bits that select one in an instruction. `R7` is the
link register: calls leave their return address there.
-/
namespace Lc4

abbrev Reg := BitVec 3

namespace Reg

def link : Reg := 7

def all : List Reg := [0, 1, 2, 3, 4, 5, 6, 7]

def ofNat? (n : Nat) : Option Reg :=
  if n < 8 then some (BitVec.ofNat 3 n) else none

def name (r : Reg) : String :=
  "R" ++ toString r.toNat

theorem toNat_lt (r : Reg) : r.toNat < 8 :=
  r.isLt

theorem mem_all (r : Reg) : r ∈ all := by
  revert r
  decide

end Reg

/-- The contents of the eight registers. -/
abbrev RegFile := Vector Word 8

namespace RegFile

def zero : RegFile := Vector.replicate 8 0

def read (regs : RegFile) (r : Reg) : Word :=
  have := r.toNat_lt
  regs[r.toNat]

def write (regs : RegFile) (r : Reg) (v : Word) : RegFile :=
  regs.set r.toNat v r.toNat_lt

theorem read_write_self (regs : RegFile) (r : Reg) (v : Word) :
    (regs.write r v).read r = v := by
  simp [read, write]

theorem read_write_of_ne (regs : RegFile) {r q : Reg} (v : Word) (h : q ≠ r) :
    (regs.write r v).read q = regs.read q := by
  have : r.toNat ≠ q.toNat := fun e => h (BitVec.eq_of_toNat_eq e.symm)
  simp [read, write, this]

end RegFile

end Lc4
