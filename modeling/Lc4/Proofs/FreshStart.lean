import Lc4.Proofs.Loading
import Lc4.Proofs.Segments
import Lc4.Shell.Session

/-!
# Fresh starts

The count of instructions is all that a machine keeps when it is cleared, apart from its flags, and
nothing that the shell does or writes depends on it. So two machines that are cleared, or loaded
anew, answer all further lines alike, however they came about.
-/
namespace Lc4

namespace Machine

/-- The machine with a count that is ahead by `d`. -/
def ahead (m : Machine) (d : BitVec 64) : Machine :=
  { m with count := m.count + d }

end Machine

def Outcome.ahead (d : BitVec 64) (o : Outcome) : Outcome :=
  { o with machine := o.machine.ahead d }

namespace Machine

section Ahead
variable (m : Machine) (d : BitVec 64)

theorem apply_ahead (e : Effect) : (m.ahead d).apply e = (m.apply e).ahead d := by
  rcases e with ⟨pc, _ | ⟨r, v⟩, cond, memory, privilege, calls, warning⟩ <;>
    cases memory <;> cases calls <;> rfl

/-- A count that is ahead stays ahead by as much, through every run. -/
theorem commutes_ahead : Commutes (·.ahead d) where
  core _ := rfl
  notes _ := rfl
  apply m e := apply_ahead m d e
  counted m s := by
    have counted : m.count + d + 1 = m.count + 1 + d := by
      rw [BitVec.add_assoc, BitVec.add_comm d, ← BitVec.add_assoc]
    simp only [ahead, counted]
  paused _ _ _ := rfl
  faulted _ _ _ := rfl

theorem execute_ahead (i : Instr) :
    (m.ahead d).execute i = (m.execute i).map (·.ahead d) :=
  (commutes_ahead d).execute m i

/-- A run whose condition does not ask for the count keeps it ahead. -/
theorem runFrom_ahead {go : Condition} (blind : ∀ k s, go k (s.ahead d) = go k s)
    (fuel k : Nat) : runFrom go fuel k (m.ahead d) = (runFrom go fuel k m).map (·.ahead d) :=
  (commutes_ahead d).runFrom blind fuel k m

theorem loadBytes_ahead (bytes : List UInt8) :
    (m.ahead d).loadBytes bytes = ((m.loadBytes bytes).1.ahead d, (m.loadBytes bytes).2) := by
  rw [loadBytes_eq_loadFile, loadBytes_eq_loadFile, loadFile_eq_adding, loadFile_eq_adding]
  rfl

end Ahead

end Machine

namespace Shell

def Reply.ahead (d : BitVec 64) (r : Reply) : Reply :=
  { r with machine := r.machine.ahead d }

section Ahead
variable (sh : Shell) (m : Machine) (d : BitVec 64)

/-- Motions of the shell limit a run by the instructions since its start and not by the count. -/
theorem perform_ahead (fuel : Nat) (motion : Motion) :
    motion.perform fuel (m.ahead d) = (motion.perform fuel m).map (·.ahead d) := by
  have blind {go : Machine.Condition} (h : ∀ k s, go k (s.ahead d) = go k s) :
      (m.ahead d).runWhile go fuel = (m.runWhile go fuel).map (·.ahead d) :=
    Machine.runFrom_ahead m.begin d h fuel 0
  cases motion with
  | step n => exact Machine.runFrom_ahead m.begin d (fun _ _ => rfl) _ 0
  | finish =>
    simp only [Motion.perform, Machine.stepOut]
    have same : (m.ahead d).calls = m.calls := rfl
    rw [same]
    cases m.calls.isEmpty with
    | true => rfl
    | false => exact blind fun _ _ => rfl
  | _ => exact blind fun _ _ => rfl

theorem move_ahead (motion : Motion) :
    sh.move (m.ahead d) motion = (sh.move m motion).map (·.ahead d) := by
  have start : motion.start (m.ahead d) = (motion.start m).ahead d := by
    cases motion <;> rfl
  rw [move, move, start, perform_ahead]
  cases motion.perform sh.fuel (motion.start m) <;> rfl

theorem load_ahead (path : String) :
    sh.load (m.ahead d) path = (sh.load m path).ahead d := by
  have cleared : (m.ahead d).clear = m.clear.ahead d := rfl
  simp only [load, cleared]
  cases sh.readFile path with
  | error e => rfl
  | ok bytes =>
    simp only [Machine.loadBytes_ahead]
    rcases m.clear.loadBytes bytes with ⟨s, _ | e⟩ <;> rfl

theorem execute_ahead (c : Command) :
    sh.execute (m.ahead d) c = (sh.execute m c).map (·.ahead d) := by
  have labels : (m.ahead d).labels = m.labels := rfl
  have mem : (m.ahead d).mem = m.mem := rfl
  cases c with
  | load path => exact congrArg some (load_ahead sh m d path)
  | move motion => exact move_ahead sh m d motion
  | breakpoint location | delete location =>
    simp only [execute, labels]
    cases location.resolve m.labels <;> rfl
  | print target => cases target <;> rfl
  | eval a =>
    simp only [execute, labels, mem]
    cases a.resolve m.labels m.mem with
    | error e => rfl
    | ok i =>
      have begun : (m.ahead d).begin = m.begin.ahead d := rfl
      simp only [Machine.eval_eq, begun, Machine.execute_ahead]
      cases m.begin.execute i <;> rfl
  | breakpoints | reset | clear | help | quit => rfl

theorem executeLine_ahead (text : String) :
    sh.executeLine (m.ahead d) text = (sh.executeLine m text).map (·.ahead d) := by
  simp only [executeLine]
  rcases Command.parse text with e | _ | c
  · rfl
  · rfl
  · exact execute_ahead sh m d c

end Ahead

/-- The replies to lines one after the other, up to a line that does not end. -/
def replies (sh : Shell) : List String → Machine → List Reply
  | [], _ => []
  | text :: rest, m =>
    match sh.executeLine m text with
    | none => []
    | some r => r :: replies sh rest r.machine

/-- Lines one after the other are answered alike. -/
theorem replies_ahead (sh : Shell) (lines : List String) (m : Machine) (d : BitVec 64) :
    sh.replies lines (m.ahead d) = (sh.replies lines m).map (·.ahead d) := by
  induction lines generalizing m with
  | nil => rfl
  | cons text rest ih =>
    rw [replies, replies, executeLine_ahead]
    cases sh.executeLine m text with
    | none => rfl
    | some r => exact congrArg (r.ahead d :: ·) (ih r.machine)

/-- The command leaves of two machines with equal flags nothing in which they differ, except for
their counts. -/
def Command.Erases (c : Command) (m n : Machine) : Prop :=
  match c with
  | .load _ | .clear => True
  | .reset | .move .run => n.mem = m.mem ∧ n.labels = m.labels ∧ n.notes = m.notes
  | _ => False

theorem count_add_distance (m n : Machine) : m.count + (n.count - m.count) = n.count := by
  rw [BitVec.add_comm, BitVec.sub_add_cancel]

/-- Cleared machines with one set of flags differ in their counts alone. -/
theorem clear_eq_ahead {m n : Machine} (flags : n.flags = m.flags) :
    n.clear = m.clear.ahead (n.count - m.count) := by
  simp only [Machine.clear, Machine.reset, Machine.ahead, flags, count_add_distance]

/-- Machines that are reset differ in their counts alone if memory, labels, notes and flags were the
same. -/
theorem reset_eq_ahead {m n : Machine} (flags : n.flags = m.flags) (mem : n.mem = m.mem)
    (labels : n.labels = m.labels) (notes : n.notes = m.notes) :
    n.reset = m.reset.ahead (n.count - m.count) := by
  simp only [Machine.reset, Machine.ahead, flags, mem, labels, notes, count_add_distance]

/-- An erasing command starts from the cleared or the reset machine. -/
theorem execute_of_erases (sh : Shell) {m n : Machine} {c : Command} (flags : n.flags = m.flags)
    (erases : c.Erases m n) :
    sh.execute n c = (sh.execute m c).map (·.ahead (n.count - m.count)) := by
  cases c with
  | load path =>
    have loaded (s : Machine) : sh.load s path = sh.load s.clear path := rfl
    rw [execute, execute, loaded n, loaded m, clear_eq_ahead flags, load_ahead]
    rfl
  | clear =>
    rw [execute, execute, clear_eq_ahead flags]
    rfl
  | reset =>
    obtain ⟨mem, labels, notes⟩ := erases
    rw [execute, execute, reset_eq_ahead flags mem labels notes]
    rfl
  | move motion =>
    cases motion with
    | run =>
      obtain ⟨mem, labels, notes⟩ := erases
      have started (s : Machine) : sh.move s .run = sh.move s.reset .resume := rfl
      rw [execute, execute, started n, started m, reset_eq_ahead flags mem labels notes,
        move_ahead]
    | _ => exact erases.elim
  | _ => exact erases.elim

/-- After a line that loads a file or clears the machine, two machines with equal flags give the
same replies to all further lines, up to one that does not end on either, and come to the same
machines but for a count that stays as far ahead as it was; so they do after a reset or a run from
one if they have the same memory, labels and notes. The count is asked for by the limit of a run
alone, which takes its distance from the start of the run. -/
theorem replies_of_erases (sh : Shell) (m n : Machine) (text : String) (c : Command)
    (read : Command.parse text = .ok (some c)) (flags : n.flags = m.flags)
    (erases : c.Erases m n) :
    (∀ lines, sh.replies (text :: lines) n =
      (sh.replies (text :: lines) m).map (·.ahead (n.count - m.count))) ∧
    (∀ (s : Machine) (limit : BitVec 64) (fuel : Nat), limit.toNat < fuel →
      s.runWhile (fun _ t => (t.count - s.count).ult limit) fuel = s.runLimit limit.toNat) := by
  constructor
  · intro lines
    have first : sh.executeLine n text =
        (sh.executeLine m text).map (·.ahead (n.count - m.count)) := by
      rw [executeLine, executeLine, read]
      exact execute_of_erases sh flags erases
    rw [replies, replies, first]
    cases sh.executeLine m text with
    | none => rfl
    | some r => exact congrArg (Reply.ahead _ r :: ·) (replies_ahead sh lines r.machine _)
  · intro s limit fuel enough
    exact s.runWhile_count_eq_runLimit enough

/-- A machine whose count is about to go round takes a file that is cut short, and the steps after
it, like a new one. -/
theorem replies_of_erases_last_count :
    let bytes := [0xCA, 0xDE, 0x82, 0x00, 0x00, 0x02, 0x92, 0x05, 0xA2]
    let sh : Shell := ⟨fun _ => .ok bytes, 4, false⟩
    let m := Machine.new .none
    let n := { m with count := BitVec.allOnes 64, pc := 7, psr := ⟨false, .negative⟩ }
    let lines := ["load a", "s 2", "p n"]
    n.flags = m.flags ∧ Command.parse "load a" = .ok (some (.load "a")) ∧
      sh.replies lines n = (sh.replies lines m).map (·.ahead (BitVec.allOnes 64)) ∧
      (sh.replies lines n).map (·.machine.count) = [BitVec.allOnes 64, 1, 1] ∧
      (sh.replies lines n).getLast?.map Reply.output = some "psr:\t0/0/1 (privilege true)\n" := by
  intro bytes sh m n lines
  have read : Command.parse "load a" = .ok (some (.load "a")) := rfl
  have distance : n.count - m.count = BitVec.allOnes 64 := by decide
  refine ⟨rfl, read, ?_, by decide +kernel, by decide +kernel⟩
  rw [← distance]
  exact (replies_of_erases sh m n "load a" (.load "a") read rfl trivial).1 ["s 2", "p n"]

end Shell

end Lc4
