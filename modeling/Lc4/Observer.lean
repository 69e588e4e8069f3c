import Lc4.AddressMap
import Lc4.Reg

/-!
# Accesses of one operation

The observer notes which registers and memory words were read, written, or changed by a write. It
starts empty with every step, run or evaluation. Reads are noted for memory only.
-/
namespace Lc4

structure Access where
  read : Bool
  written : Bool
  modified : Bool
deriving DecidableEq

namespace Access

def none : Access := ⟨false, false, false⟩

def ofRead : Access := ⟨true, false, false⟩

/-- A write of `new` over `old`. -/
def ofWrite (old new : Word) : Access := ⟨false, true, old != new⟩

def union (a b : Access) : Access :=
  ⟨a.read || b.read, a.written || b.written, a.modified || b.modified⟩

def any (a : Access) : Bool :=
  a.read || a.written || a.modified

/-- Reads count 1, writes 2 and changes 4. -/
def mask (a : Access) : BitVec 3 :=
  BitVec.ofBool a.modified ++ BitVec.ofBool a.written ++ BitVec.ofBool a.read

def text (a : Access) : String :=
  "AccessFlags \x7b accessed: " ++ toString a.any ++ ", read: " ++ toString a.read
    ++ ", written: " ++ toString a.written ++ ", modified: " ++ toString a.modified ++ " \x7d"

@[simp] theorem none_union (a : Access) : none.union a = a := by
  simp [none, union]

@[simp] theorem union_none (a : Access) : a.union none = a := by
  simp [none, union]

theorem union_assoc (a b c : Access) : (a.union b).union c = a.union (b.union c) := by
  simp [union, Bool.or_assoc]

end Access

/-- The accesses since the observer was emptied. A memory word that was never noted has no entry. -/
structure Observer where
  regs : Vector Access 8
  mem : AddressMap (Option Access)

namespace Observer

def empty : Observer :=
  ⟨Vector.replicate 8 .none, AddressMap.fill Option.none⟩

def reg (o : Observer) (r : Reg) : Access :=
  have := r.toNat_lt
  o.regs[r.toNat]

def word (o : Observer) (a : Word) : Access :=
  (o.mem.get a).getD .none

def noteReg (o : Observer) (r : Reg) (x : Access) : Observer :=
  { o with regs := o.regs.set r.toNat ((o.reg r).union x) r.toNat_lt }

def noteWord (o : Observer) (a : Word) (x : Access) : Observer :=
  { o with mem := o.mem.set a (some ((o.word a).union x)) }

/-- The memory words that were noted, in address order. -/
def words (o : Observer) : List (Word × Access) :=
  o.mem.filterMap id

theorem reg_noteReg_self (o : Observer) (r : Reg) (x : Access) :
    (o.noteReg r x).reg r = (o.reg r).union x := by
  simp [noteReg, reg]

theorem word_noteWord (o : Observer) (a b : Word) (x : Access) :
    (o.noteWord a x).word b = if b = a then (o.word a).union x else o.word b := by
  simp only [noteWord, word, AddressMap.get_set]
  split <;> rfl

end Observer

end Lc4
