import Lc4.Proofs.Lines
import Lc4.Shell.Session

/-!
# What commands touch

Lines that hold no command, lines that cannot be read and commands whose label is unknown leave the
machine as it is, and so do the commands that only look at it. Setting and deleting a breakpoint
touches this breakpoint and neither the others nor any label, as the list of breakpoints then shows.
-/
namespace Lc4

namespace Text

/-- Nothing but blanks, or a comment after some. -/
def HoldsNoCommand (cs : List Char) : Prop :=
  ∃ blanks rest, cs = blanks ++ rest ∧ (∀ c ∈ blanks, isBlank c = true) ∧
    ∀ c ∈ rest.head?, c = ';'

end Text

namespace Machine

/-- All that `s` may differ in from `m` is whether `a` is a breakpoint, which it says. -/
structure OnlyMarks (m : Machine) (a : Word) (set : Bool) (s : Machine) : Prop where
  rest : s = { m with notes := s.notes }
  labels : ∀ x, s.notes.label? x = m.notes.label? x
  breakpoints : ∀ x, s.notes.isBreakpoint x = if x = a then set else m.notes.isBreakpoint x

theorem onlyMarks_setBreakpoint (m : Machine) (a : Word) :
    m.OnlyMarks a true (m.setBreakpoint a) where
  rest := rfl
  labels := m.notes.label?_setBreakpoint a
  breakpoints := by
    intro x
    rw [setBreakpoint, Notes.isBreakpoint_setBreakpoint]
    by_cases h : x = a <;> simp [h]

theorem onlyMarks_removeBreakpoint (m : Machine) (a : Word) :
    m.OnlyMarks a false (m.removeBreakpoint a) where
  rest := rfl
  labels := m.notes.label?_removeBreakpoint a
  breakpoints := by
    intro x
    rw [removeBreakpoint, Notes.isBreakpoint_removeBreakpoint]
    by_cases h : x = a <;> simp [h]

end Machine

namespace Shell

namespace Listing

/-- How an address is listed, with the label on it. -/
def entry (a : Word) (label? : Option String) : String :=
  line ("Breakpoint at " ++ address a ++ (label?.map fun l => " (" ++ l ++ ")").getD "")

/-- The text lists these addresses and no others, in ascending order and each once. -/
def Lists (text : String) (listed : Word → Prop) (label? : Word → Option String) : Prop :=
  ∃ addrs : List Word, addrs.Pairwise (· < ·) ∧ (∀ x, x ∈ addrs ↔ listed x) ∧
    text = if addrs = [] then line "No breakpoints set"
      else String.join (addrs.map fun a => entry a (label? a))

/-- The list of breakpoints shows each of them once, in ascending order and with its label. -/
theorem lists_breakpoints (n : Notes) :
    Lists (breakpoints n) (fun x => n.isBreakpoint x = true) n.label? := by
  refine ⟨n.breakpoints, n.pairwise_breakpoints, fun x => Notes.mem_breakpoints, ?_⟩
  rw [breakpoints]
  cases n.breakpoints with
  | nil => rfl
  | cons a rest =>
    rw [if_neg (List.cons_ne_nil a rest)]
    refine congrArg String.join (List.map_congr_left fun x _ => ?_)
    cases label : n.label? x with
    | none => simp [entry]
    | some l => simp [entry, String.append_assoc]

end Listing

namespace Command

/-- The label that must be known for the command to be carried out. -/
def label? : Command → Option String
  | breakpoint (.label name) | delete (.label name) | print (.mem (.label name) _)
  | eval (.lea _ name) | eval (.lc _ name) => some name
  | _ => none

/-- Whether all that the command does is to show something or to leave. -/
def looks : Command → Bool
  | print _ | breakpoints | help | quit => true
  | _ => false

/-- The location where the command sets a breakpoint, or deletes it. -/
def mark? : Command → Option (Bool × Location)
  | breakpoint location => some (true, location)
  | delete location => some (false, location)
  | _ => none

theorem parse_of_holdsNoCommand {text : String} (h : Text.HoldsNoCommand text.toList) :
    parse text = .ok none := by
  obtain ⟨blanks, rest, whole, blank, first⟩ := h
  have trimmed : Text.trim text.toList = Text.trim rest := by
    rw [whole, Text.trim_append_of_blank blank]
  cases rest with
  | nil =>
    rw [parse, trimmed]
    rfl
  | cons c cs =>
    obtain rfl : c = ';' := first c rfl
    rw [Text.trim_cons_of_solid rfl] at trimmed
    exact parse_of_comment trimmed

end Command

section Execute
variable (sh : Shell) (m : Machine) {c : Command}

theorem execute_of_unknown_label {name : String} (named : c.label? = some name)
    (unknown : m.labels.find? name = none) : sh.execute m c =
      some ⟨m, Listing.commandError sh.coloured (.unknownLabel name), .continue⟩ := by
  have location : (Location.label name).resolve m.labels = .error (.unknownLabel name) := by
    rw [Location.resolve, unknown]
  revert named
  fun_cases Command.label? c
  case case1 | case2 | case3 =>
    rintro ⟨rfl⟩
    simp only [execute, Listing.target, location]
  case case4 | case5 =>
    rintro ⟨rfl⟩
    simp only [execute, Assembly.resolve, unknown]
  · intro named
    cases named

/-- Commands that only look leave the machine as it is, whatever they write. -/
theorem execute_of_looks (looks : c.looks = true) : ∃ out, sh.execute m c =
    some ⟨m, out, if c = .quit then .quit else .continue⟩ := by
  cases c
  case print | breakpoints | help | quit => exact ⟨_, rfl⟩
  all_goals cases looks

/-- What a command about a breakpoint answers. -/
def markReply (set was : Bool) (a : Word) : String :=
  Listing.line <| match set, was with
    | true, _ => "Breakpoint set at " ++ Listing.address a
    | false, true => "Breakpoint deleted at " ++ Listing.address a
    | false, false => "No breakpoint at " ++ Listing.address a

/-- Setting and deleting answer by what was there before, and touch nothing else. -/
theorem execute_of_mark {set : Bool} {location : Location} {a : Word}
    (mark : c.mark? = some (set, location)) (resolved : location.resolve m.labels = .ok a) :
    ∃ s, sh.execute m c = some ⟨s, markReply set (m.notes.isBreakpoint a) a, .continue⟩ ∧
      m.OnlyMarks a set s := by
  cases c
  case breakpoint =>
    obtain ⟨rfl, rfl⟩ := Prod.mk.inj (Option.some.inj mark)
    refine ⟨m.setBreakpoint a, ?_, m.onlyMarks_setBreakpoint a⟩
    simp only [execute, resolved, markReply]
  case delete =>
    obtain ⟨rfl, rfl⟩ := Prod.mk.inj (Option.some.inj mark)
    refine ⟨m.removeBreakpoint a, ?_, m.onlyMarks_removeBreakpoint a⟩
    simp only [execute, resolved, markReply, Notes.fst_takeBreakpoint]
    cases m.notes.isBreakpoint a <;> rfl
  all_goals cases mark

theorem executeLine_of_parse {text : String} (read : Command.parse text = .ok (some c)) :
    sh.executeLine m text = sh.execute m c := by
  rw [executeLine, read]

theorem executeLine_breakpoints {list : String}
    (read : Command.parse list = .ok (some .breakpoints)) {listed : Word → Prop}
    {label? : Word → Option String} (breakpoints : ∀ x, m.notes.isBreakpoint x = true ↔ listed x)
    (labels : ∀ x, m.notes.label? x = label? x) :
    ∃ out, sh.executeLine m list = some ⟨m, out, .continue⟩ ∧
      Listing.Lists out listed label? := by
  obtain rfl : m.notes.label? = label? := funext labels
  obtain rfl : (fun x => m.notes.isBreakpoint x = true) = listed :=
    funext fun x => propext (breakpoints x)
  refine ⟨Listing.breakpoints m.notes, ?_, Listing.lists_breakpoints m.notes⟩
  rw [executeLine_of_parse sh m read]
  rfl

end Execute

/-- Lines without a command, lines that cannot be read, commands whose label is unknown and commands
that only look leave the whole machine as it is, and only `quit` ends the session. A command that
sets or deletes a breakpoint changes this breakpoint alone, deletes it if there was one, and the
list of breakpoints then shows the ones from before with it or without it. -/
theorem executeLine_scope (sh : Shell) (m : Machine) (text : String) :
    (∀ e, Command.parse text = .error e →
      sh.executeLine m text = some ⟨m, Listing.commandError sh.coloured e, .continue⟩) ∧
    (Text.HoldsNoCommand text.toList → sh.executeLine m text = some ⟨m, "", .continue⟩) ∧
    ∀ c, Command.parse text = .ok (some c) →
      (∀ name, c.label? = some name → m.labels.find? name = none → sh.executeLine m text =
        some ⟨m, Listing.commandError sh.coloured (.unknownLabel name), .continue⟩) ∧
      (c.looks = true → ∃ out, sh.executeLine m text =
        some ⟨m, out, if c = .quit then .quit else .continue⟩) ∧
      ∀ set location a, c.mark? = some (set, location) → location.resolve m.labels = .ok a →
        ∃ s, sh.executeLine m text =
            some ⟨s, markReply set (m.notes.isBreakpoint a) a, .continue⟩ ∧
          m.OnlyMarks a set s ∧
          ∀ list, Command.parse list = .ok (some .breakpoints) →
            ∃ out, sh.executeLine s list = some ⟨s, out, .continue⟩ ∧ Listing.Lists out
              (fun x => if x = a then set = true else m.notes.isBreakpoint x = true)
              m.notes.label? := by
  refine ⟨?_, ?_, ?_⟩
  · intro e refused
    rw [executeLine, refused]
  · intro holdsNoCommand
    rw [executeLine, Command.parse_of_holdsNoCommand holdsNoCommand]
  · intro c read
    rw [executeLine_of_parse sh m read]
    refine ⟨?_, ?_, ?_⟩
    · intro name named unknown
      exact execute_of_unknown_label sh m named unknown
    · intro looks
      exact execute_of_looks sh m looks
    · intro set location a mark resolved
      obtain ⟨s, executed, only⟩ := execute_of_mark sh m mark resolved
      refine ⟨s, executed, only, ?_⟩
      intro list asked
      refine executeLine_breakpoints sh s asked ?_ only.labels
      intro x
      rw [only.breakpoints]
      split <;> rfl

/-- One of two breakpoints is deleted, which has a label. -/
theorem executeLine_scope_delete :
    let sh : Shell := ⟨fun _ => .ok [], 0, false⟩
    let m := { Machine.new .none with
      labels := Labels.empty.insert "LOOP" 3
      notes := ((Notes.empty.setLabel 3 "LOOP").setBreakpoint 3).setBreakpoint 0x10 }
    Text.HoldsNoCommand "\t; d LOOP".toList ∧
      sh.executeLine m "\t; d LOOP" = some ⟨m, "", .continue⟩ ∧
      ∃ s out, sh.executeLine m " D LOOP ; this one" =
          some ⟨s, "Breakpoint deleted at 0x0003\n", .continue⟩ ∧
        s.notes.label? 3 = some "LOOP" ∧ s.notes.isBreakpoint 3 = false ∧
        sh.executeLine s "bl" = some ⟨s, out, .continue⟩ ∧
        Listing.Lists out (fun x => x = 0x10) m.notes.label? := by
  intro sh m
  have comment : Text.HoldsNoCommand "\t; d LOOP".toList := by
    refine ⟨['\t'], "; d LOOP".toList, rfl, ?_, ?_⟩
    · intro c hc
      obtain rfl := List.mem_singleton.mp hc
      rfl
    · rintro c ⟨rfl⟩
      rfl
  have delete : Command.parse " D LOOP ; this one" = .ok (some (.delete (.label "LOOP"))) := rfl
  have list : Command.parse "bl" = .ok (some .breakpoints) := rfl
  obtain ⟨_, idle, _⟩ := executeLine_scope sh m "\t; d LOOP"
  obtain ⟨_, _, carriedOut⟩ := executeLine_scope sh m " D LOOP ; this one"
  obtain ⟨_, _, marks⟩ := carriedOut _ delete
  obtain ⟨s, deleted, only, lists⟩ := marks false (.label "LOOP") 3 rfl rfl
  obtain ⟨out, answered, listed⟩ := lists "bl" list
  refine ⟨comment, idle comment, s, out, deleted, only.labels 3, only.breakpoints 3, answered, ?_⟩
  have same : (fun x => if x = 3 then false = true else m.notes.isBreakpoint x = true) =
      fun x : Word => x = 0x10 := by
    funext x
    have before : m.notes.isBreakpoint x = (x == 0x10 || x == 3) := by
      have unmarked : Notes.empty.isBreakpoint x = false := Notes.isBreakpoint_empty x
      simp only [m, Notes.isBreakpoint_setBreakpoint, Notes.isBreakpoint_setLabel, unmarked,
        Bool.or_false]
    rw [before]
    grind
  rwa [same] at listed

end Shell

end Lc4
