import Lc4.Object.Load
import Lc4.Proofs.Loading
import Lc4.Proofs.Sessions

/-!
# The status of runs

The documented rules give a verdict on each thing that is done with a machine, or none, and the last
verdict is the status. The machine keeps to these rules with one exception: an evaluation that meets
a fault should halt it and leaves the status as it was.
-/
namespace Lc4

/-- Loads the object file that a path leads to, if there is one. -/
def Machine.loadPath (m : Machine) (readFile : ReadFile) (path : String) :
    Machine × Option LoadError :=
  match readFile path with
  | .error e => (m, some (.unreadable path e))
  | .ok bytes => ((m.loadBytes bytes).1, (m.loadBytes bytes).2.map .malformed)

/-- What is done with machines, one thing after the other. -/
inductive Use
  | new (flags : Flags)
  | loadPath (readFile : ReadFile) (path : String)
  | act (a : Action)

/-- One use of a machine, with what it ran and what it left. -/
structure Entry where
  use : Use
  start : Machine
  executed : List Executed
  outcome : Outcome

namespace Use

def outcome (fuel : Nat) (m : Machine) : Use → Option Outcome
  | new flags => some ⟨.new flags, 0, none⟩
  | loadPath readFile path => some ⟨(m.loadPath readFile path).1, 0, none⟩
  | act a => a.outcome fuel m

def executed (fuel : Nat) (m : Machine) : Use → List Executed
  | new _ | loadPath _ _ => []
  | act a => a.executed fuel m

end Use

/-- The uses of a machine in a row, up to a run that its fuel does not finish. -/
def Machine.log (fuel : Nat) : List Use → Machine → List Entry
  | [], _ => []
  | u :: rest, m =>
    match u.outcome fuel m with
    | none => []
    | some o => ⟨u, m, u.executed fuel m, o⟩ :: log fuel rest o.machine

namespace Entry

/-- The status that the documented rules give. An operation that neither runs an instruction nor
meets the halt address or a fault has no say. -/
def verdict? (e : Entry) : Option RunStatus :=
  match e.use with
  | .new _ | .act .reset | .act .clear | .act (.loadBytes _) | .act (.loadFile _) => some .idle
  | .loadPath readFile path =>
    match readFile path with
    | .ok _ => some .idle
    | .error _ => none
  | .act (.setFlags _) | .act (.writeStatus _) => none
  | .act (.operate _) =>
    if e.outcome.fault.isSome || e.outcome.machine.hitHalt then some .halted
    else if e.executed.isEmpty then none else some .running

/-- Whether an evaluation met a fault. -/
def refused (e : Entry) : Bool :=
  match e.use with
  | .act (.operate op) => op.isEval && e.outcome.fault.isSome
  | _ => false

/-- The last verdict on a list of uses; a machine on which there is none is idle. -/
def lastVerdict (es : List Entry) : RunStatus :=
  (es.filterMap verdict?).getLast?.getD .idle

theorem lastVerdict_concat (es : List Entry) (e : Entry) :
    lastVerdict (es ++ [e]) = e.verdict?.getD (lastVerdict es) := by
  rw [lastVerdict, List.filterMap_append]
  cases verdict : e.verdict? with
  | none => simp [verdict, lastVerdict]
  | some s => simp [verdict]

/-- All but the evaluations that met a fault. -/
def heard (es : List Entry) : List Entry :=
  es.filter fun e => !e.refused

theorem lastVerdict_heard_concat (es : List Entry) (e : Entry) : lastVerdict (heard (es ++ [e])) =
    if e.refused then lastVerdict (heard es) else e.verdict?.getD (lastVerdict (heard es)) := by
  rw [heard, List.filter_append]
  cases refused : e.refused with
  | true => simp [refused, heard]
  | false =>
    rw [List.filter_cons_of_pos (by simp [refused]), List.filter_nil, lastVerdict_concat]
    rfl

end Entry

namespace Machine

section Status
variable {op : Operation} {go : Condition} {fuel k : Nat} {m : Machine} {o : Outcome}

theorem status_of_step {s : Machine} (h : m.step = .next s) : s.status = .running :=
  congrArg Ledger.status (ledger_step h)

/-- A run leaves the status that its end calls for, by induction on how it ends. -/
theorem Ends.status (h : Ends go k m o) : o.machine.status =
    if o.fault.isSome || o.machine.hitHalt then .halted
    else if o.steps = k then m.status else .running := by
  induction h with
  | condition | halt | fault => simp [paused, faulted, hitHalt]
  | breakpoint _ h => simp [paused, hitHalt, status_of_step h]
  | @next k m s o _ h _ rest ih =>
    -- After a step the machine is running, so the rest leaves it so even if it does nothing more.
    have longer : o.steps ≠ k := Nat.ne_of_gt rest.le_steps
    rw [ih, status_of_step h, if_neg longer, ite_self]

theorem status_of_stepIn (m : Machine) : m.stepIn.machine.status =
    if m.stepIn.fault.isSome || m.stepIn.machine.hitHalt then .halted
    else if m.stepIn.steps = 0 then m.status else .running := by
  cases h : m.begin.step with
  | next s => simp [stepIn, h, paused, hitHalt, status_of_step h]
  | halt => simp [stepIn, h, paused, hitHalt]
  | fault f left => simp [stepIn, h, faulted]

/-- But for evaluations, all operations follow one rule. -/
theorem status_of_perform (steps : op.isEval = false) (h : op.perform fuel m = some o) :
    o.machine.status = if o.fault.isSome || o.machine.hitHalt then .halted
      else if o.steps = 0 then m.status else .running := by
  cases loop : op.condition m with
  | some go => exact (ends_of_perform loop h).status
  | none =>
    cases op <;> simp [Operation.condition, Operation.isEval] at loop steps
    case stepIn =>
      obtain rfl := Option.some.inj h
      exact status_of_stepIn m

/-- An evaluation never halts a machine, not even by a fault. -/
theorem status_of_eval (m : Machine) (i : Instr) : (m.eval i).machine.hitHalt = false ∧
    (m.eval i).machine.status =
      if (m.eval i).fault.isSome then m.status else .running := by
  cases h : m.begin.execute i with
  | error f =>
    simp only [eval_eq, h]
    exact ⟨rfl, rfl⟩
  | ok s =>
    obtain ⟨_, e, _, rfl⟩ := execute_eq_ok_iff.mp h
    have pause : (m.begin.apply e).pause = .none := congrArg Ledger.pause (ledger_apply m.begin e)
    simp only [eval_eq, h]
    exact ⟨by simp [hitHalt, pause], rfl⟩

/-- The status after an operation that ends, by what it ran and how it ended. -/
theorem status_of_operation (h : op.perform fuel m = some o) : o.machine.status =
    if op.isEval && o.fault.isSome then m.status
    else if o.fault.isSome || o.machine.hitHalt then .halted
    else if (op.executed fuel m).isEmpty then m.status else .running := by
  have ran : (op.executed fuel m).isEmpty = true ↔ o.steps = 0 := by
    rw [← length_executed h, List.isEmpty_iff, List.length_eq_zero_iff]
  simp only [ran]
  cases steps : op.isEval with
  | false => exact status_of_perform steps h
  | true =>
    obtain ⟨i, rfl⟩ := Operation.eq_eval_of_isEval steps
    obtain rfl := Option.some.inj h
    obtain ⟨awake, status⟩ := m.status_of_eval i
    rw [status, awake]
    cases hx : m.begin.execute i <;> simp [eval_eq, hx]

theorem status_loadFile (m : Machine) (f : ObjectFile) : (m.loadFile f).status = .idle := by
  rw [loadFile_eq_adding]

theorem status_loadBytes (m : Machine) (bytes : List UInt8) :
    (m.loadBytes bytes).1.status = .idle := by
  rw [loadBytes_eq_loadFile]
  exact status_loadFile m _

end Status

end Machine

/-- A use leaves the status that its verdict gives, if it has one, and a refused evaluation leaves
the one that was there. -/
theorem Use.status {fuel : Nat} {m : Machine} {u : Use} {o : Outcome}
    (h : u.outcome fuel m = some o) :
    let e : Entry := ⟨u, m, u.executed fuel m, o⟩
    o.machine.status = if e.refused then m.status else e.verdict?.getD m.status := by
  intro e
  cases u with
  | new flags =>
    obtain rfl := Option.some.inj h
    rfl
  | loadPath readFile path =>
    obtain rfl := Option.some.inj h
    cases found : readFile path with
    | error => simp [e, Entry.refused, Entry.verdict?, Machine.loadPath, found]
    | ok bytes =>
      simp [e, Entry.refused, Entry.verdict?, Machine.loadPath, found, m.status_loadBytes bytes]
  | act a =>
    cases a with
    | operate op =>
      have refused : e.refused = (op.isEval && o.fault.isSome) := rfl
      have verdict : e.verdict? =
          if o.fault.isSome || o.machine.hitHalt then some .halted
          else if (op.executed fuel m).isEmpty then none else some .running := rfl
      rw [Machine.status_of_operation h, refused, verdict]
      generalize (op.isEval && o.fault.isSome) = refused
      generalize (o.fault.isSome || o.machine.hitHalt) = halts
      generalize (op.executed fuel m).isEmpty = quiet
      cases refused <;> cases halts <;> cases quiet <;> rfl
    | loadBytes bytes =>
      obtain rfl := Option.some.inj h
      exact m.status_loadBytes bytes
    | loadFile f =>
      obtain rfl := Option.some.inj h
      exact m.status_loadFile f
    | reset | clear | setFlags | writeStatus =>
      obtain rfl := Option.some.inj h
      rfl

namespace Machine

/-- Uses that go on after others leave the status of the last verdict on all of them. -/
theorem status_of_log {fuel : Nat} {uses : List Use} {m : Machine} (earlier : List Entry)
    {pre post : List Entry} {e : Entry} (start : m.status = Entry.lastVerdict (Entry.heard earlier))
    (h : m.log fuel uses = pre ++ e :: post) : e.outcome.machine.status =
      Entry.lastVerdict (Entry.heard (earlier ++ (pre ++ [e]))) := by
  induction uses generalizing m earlier pre with
  | nil => simp [log] at h
  | cons u rest ih =>
    cases ended : u.outcome fuel m with
    | none => simp [log, ended] at h
    | some o =>
      simp only [log, ended] at h
      have status := u.status ended
      generalize first : (⟨u, m, u.executed fuel m, o⟩ : Entry) = x at h status
      have left : x.outcome = o := first ▸ rfl
      have onward : o.machine.status = Entry.lastVerdict (Entry.heard (earlier ++ [x])) := by
        rw [Entry.lastVerdict_heard_concat, ← start]
        exact status
      cases pre with
      | nil =>
        obtain ⟨rfl, -⟩ := List.cons.inj h
        rw [left]
        exact onward
      | cons y pre =>
        obtain ⟨rfl, tail⟩ := List.cons.inj h
        have later := ih (earlier ++ [x]) onward tail
        rwa [List.append_assoc] at later

/-- After everything that is done with a new machine, the status is the last verdict of the rules,
except that an evaluation which meets a fault has no say. So as long as no evaluation met a fault,
the status is the documented one. -/
theorem log_status (flags : Flags) (fuel : Nat) (uses : List Use) :
    ∀ pre e post, (new flags).log fuel uses = pre ++ e :: post →
      e.outcome.machine.status =
        Entry.lastVerdict (Entry.heard (pre ++ [e])) ∧
      ((∀ x ∈ pre ++ [e], x.refused = false) →
        e.outcome.machine.status = Entry.lastVerdict (pre ++ [e])) := by
  intro pre e post h
  have status := status_of_log (m := new flags) [] rfl h
  refine ⟨status, ?_⟩
  intro accepted
  have all : Entry.heard (pre ++ [e]) = pre ++ [e] := by
    refine List.filter_eq_self.mpr fun x hx => ?_
    rw [accepted x hx]
    rfl
  rwa [List.nil_append, all] at status

/-- Between an instruction and a request to leave a call, of which there is none, an evaluation is
refused. -/
theorem log_status_running :
    let operate (op : Operation) := Use.act (.operate op)
    let uses := [operate (.eval (.const 0 1)), operate (.eval (.alu .div 0 0 1)), operate .stepOut]
    ∃ x y z, (new ⟨true, false, false⟩).log 0 uses = [x, y, z] ∧ y.refused = true ∧
      z.verdict? = none ∧ z.outcome.machine.status = Entry.lastVerdict [x, z] ∧
      z.outcome.machine.status = .running := by
  intro operate uses
  have seen : ((new ⟨true, false, false⟩).log 0 uses).map (fun x => (x.refused, x.verdict?)) =
      [(false, some .running), (true, some .halted), (false, none)] := by decide +kernel
  obtain ⟨x, xs, listed, hx, seen⟩ := List.map_eq_cons_iff.mp seen
  obtain ⟨y, xs, rfl, hy, seen⟩ := List.map_eq_cons_iff.mp seen
  obtain ⟨z, xs, rfl, hz, seen⟩ := List.map_eq_cons_iff.mp seen
  obtain rfl := List.map_eq_nil_iff.mp seen
  simp only [Prod.mk.injEq] at hx hy hz
  obtain ⟨status, _⟩ := log_status ⟨true, false, false⟩ 0 uses [x, y] z [] listed
  have heard : Entry.heard ([x, y] ++ [z]) = [x, z] := by
    simp [Entry.heard, hx, hy, hz]
  rw [heard] at status
  refine ⟨x, y, z, listed, hy.1, hz.2, status, ?_⟩
  rw [status]
  simp [Entry.lastVerdict, hx, hz]

/-- An evaluation that meets a fault leaves a new machine idle, which by the rules is halted. -/
theorem log_status_refused :
    ∃ e, (new ⟨true, false, false⟩).log 0 [.act (.operate (.eval (.alu .div 0 0 0)))] = [e] ∧
      e.outcome.fault = some (.divideByZero 0x8200) ∧
      Entry.lastVerdict [e] = .halted ∧ e.outcome.machine.status = .idle :=
  ⟨_, rfl, by decide +kernel, by decide +kernel, by decide +kernel⟩

end Machine

end Lc4
