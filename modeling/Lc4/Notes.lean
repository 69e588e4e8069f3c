import Lc4.AddressMap

/-!
# Notes on addresses

Breakpoints and label names are noted by address. The machine that runs does not see them; they
decide where runs stop and what a listing shows. Both kinds of note share the entry of their
address, which is made for the first of them and dropped with the last breakpoint if there is no
label.
-/
namespace Lc4

structure Note where
  label : Option String
  breakpoint : Bool
deriving DecidableEq

namespace Note

def blank : Note := ⟨none, false⟩

def isBlank (n : Note) : Bool :=
  n.label.isNone && !n.breakpoint

end Note

/-- At each address the entry that was made for it, if there is one. -/
abbrev Notes := AddressMap (Option Note)

namespace Notes

def empty : Notes :=
  AddressMap.fill none

/-- The entry of an address, if there is one. -/
def get? (n : Notes) (a : Word) : Option Note :=
  n.get a

def isBreakpoint (n : Notes) (a : Word) : Bool :=
  (n.get a).any Note.breakpoint

def label? (n : Notes) (a : Word) : Option String :=
  (n.get a).bind Note.label

/-- Changes the entry of an address; where there is none, one is made. -/
def edit (n : Notes) (a : Word) (f : Note → Note) : Notes :=
  n.modify a fun entry => some (f (entry.getD .blank))

def setBreakpoint (n : Notes) (a : Word) : Notes :=
  n.edit a fun note => { note with breakpoint := true }

/-- Whether there is a breakpoint at an address, and the notes without it. An entry with nothing
left on it is dropped. -/
def takeBreakpoint (n : Notes) (a : Word) : Bool × Notes :=
  match n.get a with
  | none => (false, n)
  | some note =>
    let rest := { note with breakpoint := false }
    (note.breakpoint, n.set a (if rest.isBlank then none else some rest))

def removeBreakpoint (n : Notes) (a : Word) : Notes :=
  (n.takeBreakpoint a).2

def setLabel (n : Notes) (a : Word) (name : String) : Notes :=
  n.edit a fun note => { note with label := some name }

/-- All entries, in ascending order of addresses. -/
def entries (n : Notes) : List (Word × Note) :=
  n.filterMap id

/-- The addresses with breakpoints, in ascending order. -/
def breakpoints (n : Notes) : List Word :=
  (n.entries.filter fun e => e.2.breakpoint).map Prod.fst

theorem isBreakpoint_empty (a : Word) : empty.isBreakpoint a = false := by
  simp [isBreakpoint, empty]

theorem label?_empty (a : Word) : empty.label? a = none := by
  simp [label?, empty]

theorem get_edit (n : Notes) (a b : Word) (f : Note → Note) :
    (n.edit a f).get b = if b = a then some (f ((n.get a).getD .blank)) else n.get b := by
  rw [edit, AddressMap.modify, AddressMap.get_set]

theorem get_removeBreakpoint (n : Notes) (a b : Word) :
    (n.removeBreakpoint a).get b = if b = a then
      (n.get a).bind fun note =>
        let rest := { note with breakpoint := false }
        if rest.isBlank then none else some rest
    else n.get b := by
  unfold removeBreakpoint takeBreakpoint
  cases entry : n.get a with
  | none =>
    by_cases h : b = a
    · rw [if_pos h, h, entry]
      rfl
    · rw [if_neg h]
  | some note => rw [AddressMap.get_set, Option.bind_some]

theorem isBreakpoint_setBreakpoint (n : Notes) (a b : Word) :
    (n.setBreakpoint a).isBreakpoint b = (b == a || n.isBreakpoint b) := by
  by_cases h : b = a <;> simp [setBreakpoint, isBreakpoint, get_edit, h]

theorem fst_takeBreakpoint (n : Notes) (a : Word) :
    (n.takeBreakpoint a).1 = n.isBreakpoint a := by
  unfold takeBreakpoint isBreakpoint
  cases n.get a <;> rfl

theorem isBreakpoint_removeBreakpoint (n : Notes) (a b : Word) :
    (n.removeBreakpoint a).isBreakpoint b = (b != a && n.isBreakpoint b) := by
  rw [isBreakpoint, get_removeBreakpoint]
  by_cases h : b = a
  · subst h
    cases n.get b with
    | none => simp
    | some note =>
      by_cases blank : ({ note with breakpoint := false } : Note).isBlank <;> simp [blank]
  · simp [isBreakpoint, h]

/-- A label that is set never shows among the breakpoints. -/
theorem isBreakpoint_setLabel (n : Notes) (a b : Word) (name : String) :
    (n.setLabel a name).isBreakpoint b = n.isBreakpoint b := by
  by_cases h : b = a
  · subst h
    cases entry : n.get b <;> simp [setLabel, isBreakpoint, get_edit, entry, Note.blank]
  · simp [setLabel, isBreakpoint, get_edit, h]

theorem label?_setLabel (n : Notes) (a b : Word) (name : String) :
    (n.setLabel a name).label? b = if b = a then some name else n.label? b := by
  by_cases h : b = a <;> simp [setLabel, label?, get_edit, h]

theorem label?_setBreakpoint (n : Notes) (a b : Word) :
    (n.setBreakpoint a).label? b = n.label? b := by
  by_cases h : b = a
  · subst h
    cases entry : n.get b <;> simp [setBreakpoint, label?, get_edit, entry, Note.blank]
  · simp [setBreakpoint, label?, get_edit, h]

/-- An entry that is dropped has no label. -/
theorem label?_removeBreakpoint (n : Notes) (a b : Word) :
    (n.removeBreakpoint a).label? b = n.label? b := by
  rw [label?, get_removeBreakpoint, label?]
  by_cases h : b = a
  · subst h
    cases n.get b with
    | none => simp
    | some note => cases label : note.label <;> simp [Note.isBlank, label]
  · simp [h]

theorem mem_breakpoints {n : Notes} {a : Word} : a ∈ n.breakpoints ↔ n.isBreakpoint a = true := by
  simp [breakpoints, entries, AddressMap.mem_filterMap, isBreakpoint, Option.any_eq_true]

theorem pairwise_breakpoints (n : Notes) : n.breakpoints.Pairwise (· < ·) :=
  List.pairwise_map.mpr ((n.pairwise_filterMap id).filter _)

end Notes

end Lc4
