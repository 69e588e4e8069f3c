import Lc4.Notes
import Mathlib.Data.Finset.Erase
import Mathlib.Data.Finset.Insert
import Mathlib.Logic.Function.Basic

/-!
# Notes as a set and a map

The breakpoints are a set of addresses and the labels a map from addresses to names. Both share
their entries, but what is done to one of them never shows in the other, and an entry is there
exactly as long as there is something on it.
-/
namespace Lc4.Notes

/-- What is done to notes. -/
inductive Edit
  | setBreakpoint (a : Word)
  | removeBreakpoint (a : Word)
  | setLabel (a : Word) (name : String)
  | clear

namespace Edit

def apply (n : Notes) : Edit → Notes
  | setBreakpoint a => n.setBreakpoint a
  | removeBreakpoint a => n.removeBreakpoint a
  | setLabel a name => n.setLabel a name
  | clear => empty

/-- The edit on a plain set of addresses. -/
def marks (s : Finset Word) : Edit → Finset Word
  | setBreakpoint a => insert a s
  | removeBreakpoint a => s.erase a
  | setLabel _ _ => s
  | clear => ∅

/-- The edit on a plain map from addresses to names. -/
def names (f : Word → Option String) : Edit → Word → Option String
  | setBreakpoint _ | removeBreakpoint _ => f
  | setLabel a name => Function.update f a (some name)
  | clear => fun _ => none

def concernsBreakpoints : Edit → Bool
  | setBreakpoint _ | removeBreakpoint _ | clear => true
  | setLabel _ _ => false

def concernsLabels : Edit → Bool
  | setLabel _ _ | clear => true
  | setBreakpoint _ | removeBreakpoint _ => false

end Edit

/-- No entry is kept with nothing on it. -/
def Solid (n : Notes) : Prop :=
  ∀ a note, n.get a = some note → note.isBlank = false

section Solid
variable {n : Notes} {f : Note → Note}

theorem solid_empty : Solid empty := by
  intro a note entry
  rw [empty, AddressMap.get_fill] at entry
  cases entry

theorem Solid.edit (solid : Solid n) (a : Word) (some : ∀ note, (f note).isBlank = false) :
    Solid (n.edit a f) := by
  intro b note entry
  rw [get_edit] at entry
  by_cases same : b = a
  · rw [if_pos same] at entry
    obtain rfl := Option.some.inj entry
    exact some _
  · rw [if_neg same] at entry
    exact solid b note entry

/-- Removing a breakpoint takes the entry away with it if nothing else is there. -/
theorem Solid.removeBreakpoint (solid : Solid n) (a : Word) : Solid (n.removeBreakpoint a) := by
  intro b note entry
  rw [get_removeBreakpoint] at entry
  by_cases same : b = a
  · rw [if_pos same, Option.bind_eq_some_iff] at entry
    obtain ⟨before, -, kept⟩ := entry
    by_cases blank : ({ before with breakpoint := false } : Note).isBlank = true
    · rw [if_pos blank] at kept
      cases kept
    · rw [if_neg blank] at kept
      obtain rfl := Option.some.inj kept
      exact Bool.eq_false_iff.mpr blank
  · rw [if_neg same] at entry
    exact solid b note entry

/-- There is no entry exactly where there is neither a breakpoint nor a label. -/
theorem Solid.get?_eq_none_iff (solid : Solid n) (a : Word) :
    n.get? a = none ↔ n.isBreakpoint a = false ∧ n.label? a = none := by
  rw [get?, isBreakpoint, label?]
  cases entry : n.get a with
  | none => simp
  | some note =>
    have some : ¬ (note.label = none ∧ note.breakpoint = false) := by
      rintro ⟨label, breakpoint⟩
      have blank : note.isBlank = true := by simp [Note.isBlank, label, breakpoint]
      rw [solid a note entry] at blank
      cases blank
    simpa [and_comm] using some

end Solid

/-- The notes hold these breakpoints and these labels, and nothing else. -/
structure Holds (n : Notes) (marks : Finset Word) (names : Word → Option String) : Prop where
  breakpoints : ∀ a, n.isBreakpoint a = true ↔ a ∈ marks
  labels : ∀ a, n.label? a = names a
  solid : Solid n

theorem holds_empty : Holds empty ∅ fun _ => none where
  breakpoints a := by simp [isBreakpoint_empty]
  labels := label?_empty
  solid := solid_empty

/-- An edit does to the notes what it does to the set and the map. -/
theorem Holds.apply {n : Notes} {marks : Finset Word} {names : Word → Option String}
    (h : Holds n marks names) (e : Edit) : Holds (e.apply n) (e.marks marks) (e.names names) := by
  obtain ⟨breakpoints, labels, solid⟩ := h
  cases e with
  | setBreakpoint a =>
    constructor
    · intro b
      simp [Edit.apply, Edit.marks, isBreakpoint_setBreakpoint, breakpoints]
    · intro b
      exact (label?_setBreakpoint n a b).trans (labels b)
    · change Solid (n.edit a fun note => { note with breakpoint := true })
      exact solid.edit a fun note => by simp [Note.isBlank]
  | removeBreakpoint a =>
    constructor
    · intro b
      simp [Edit.apply, Edit.marks, isBreakpoint_removeBreakpoint, breakpoints]
    · intro b
      exact (label?_removeBreakpoint n a b).trans (labels b)
    · exact solid.removeBreakpoint a
  | setLabel a name =>
    constructor
    · intro b
      simp [Edit.apply, Edit.marks, isBreakpoint_setLabel, breakpoints]
    · intro b
      rw [Edit.apply, label?_setLabel, labels, Edit.names, Function.update_apply]
    · change Solid (n.edit a fun note => { note with label := some name })
      exact solid.edit a fun note => by simp [Note.isBlank]
  | clear => exact holds_empty

/-- Edits one after the other do so too, by induction on them. -/
theorem holds_foldl {n : Notes} {marks : Finset Word} {names : Word → Option String}
    (h : Holds n marks names) (edits : List Edit) : Holds (edits.foldl Edit.apply n)
      (edits.foldl Edit.marks marks) (edits.foldl Edit.names names) := by
  induction edits generalizing n marks names with
  | nil => exact h
  | cons e edits ih => exact ih (h.apply e)

/-- Edits of labels never show in the breakpoints. -/
theorem foldl_marks_filter (edits : List Edit) (s : Finset Word) :
    (edits.filter Edit.concernsBreakpoints).foldl Edit.marks s = edits.foldl Edit.marks s := by
  rw [List.foldl_filter]
  congr 1
  funext s e
  cases e <;> rfl

/-- Edits of breakpoints never show in the labels. -/
theorem foldl_names_filter (edits : List Edit) (f : Word → Option String) :
    (edits.filter Edit.concernsLabels).foldl Edit.names f = edits.foldl Edit.names f := by
  rw [List.foldl_filter]
  congr 1
  funext f e
  cases e <;> rfl

/-- After any edits the breakpoints are the set and the labels are the map that the same edits make
of an empty set and an empty map; a removal says whether its address was in the set, and the list
shows the set in ascending order. Leaving out the edits that concern the one does not change the
other. There is an entry just for the addresses that have a breakpoint or a label. -/
theorem foldl_edits_exact (edits : List Edit) :
    let notes (es : List Edit) := es.foldl Edit.apply empty
    let n := notes edits
    let marks := edits.foldl Edit.marks ∅
    let names := edits.foldl Edit.names fun _ => none
    (∀ a, n.isBreakpoint a = true ↔ a ∈ marks) ∧
    (∀ a, (n.takeBreakpoint a).1 = true ↔ a ∈ marks) ∧
    (∀ a, n.label? a = names a) ∧
    (∀ a, (notes (edits.filter Edit.concernsBreakpoints)).isBreakpoint a = n.isBreakpoint a) ∧
    (∀ a, (notes (edits.filter Edit.concernsLabels)).label? a = n.label? a) ∧
    (∀ a, a ∈ n.breakpoints ↔ a ∈ marks) ∧ n.breakpoints.Pairwise (· < ·) ∧
    ∀ a, n.get? a = none ↔ a ∉ marks ∧ names a = none := by
  intro notes n marks names
  have holds (es : List Edit) : Holds (notes es) (es.foldl Edit.marks ∅)
      (es.foldl Edit.names fun _ => none) := holds_foldl holds_empty es
  obtain ⟨breakpoints, labels, solid⟩ := holds edits
  refine ⟨breakpoints, ?_, labels, ?_, ?_, ?_, n.pairwise_breakpoints, ?_⟩
  · intro a
    rw [fst_takeBreakpoint]
    exact breakpoints a
  · intro a
    rw [Bool.eq_iff_iff, (holds _).breakpoints, foldl_marks_filter]
    exact (breakpoints a).symm
  · intro a
    rw [(holds _).labels, foldl_names_filter]
    exact (labels a).symm
  · intro a
    exact mem_breakpoints.trans (breakpoints a)
  · intro a
    rw [solid.get?_eq_none_iff, labels, ← breakpoints, Bool.not_eq_true]

end Lc4.Notes
