import Lc4.Proofs.Run

/-!
# Runs with breakpoints

A run that stops at breakpoints and is called again each time does what one run without
breakpoints does. It stops once for each visit to a breakpoint, in the order of the visits, and
the call after the last stop ends as the run without breakpoints ends.
-/
namespace Lc4.Machine

/-- What comes after a call of `run`: another call if it stopped at a breakpoint. -/
def follow (again : Machine → Option (List Machine × Outcome)) (o : Outcome) :
    Option (List Machine × Outcome) :=
  if o.fault.isNone && o.machine.hitBreakpoint then
    (again o.machine).map fun r => (o.machine :: r.1, r.2)
  else some ([], o)

/-- Calls `run` again and again as long as it stops at a breakpoint. The result is the machines at
these stops and the outcome of the last call; `calls` bounds how often `run` is called. -/
def resume (fuel : Nat) : (calls : Nat) → Machine → Option (List Machine × Outcome)
  | 0, _ => none
  | calls + 1, m => (m.run fuel).bind (follow (resume fuel calls))

/-- A machine with other labels and notes. The observer may differ as well. -/
structure Relabelled (labels : Labels) (notes : Notes) (s t : Machine) : Prop where
  core : t.core = s.core
  ledger : t.ledger = { s.ledger with labels := labels, notes := notes }

/-- No operation has paused the machine since it began to run, and none will at a breakpoint. -/
structure Uninterrupted (s : Machine) : Prop where
  pause : s.pause = .none
  notes : ∀ a, s.notes.isBreakpoint a = false

section Relabelling
variable {labels : Labels} {notes : Notes} {s s' t : Machine}

theorem Relabelled.eq (h : Relabelled labels notes s t) :
    t = { s with labels := labels, notes := notes, observer := t.observer } :=
  eq_of_parts h.core h.ledger rfl

/-- Labels and notes decide nothing that a step does. -/
theorem Relabelled.step (h : Relabelled labels notes s t) (hs : s.step = .next s') :
    ∃ t', t.step = .next t' ∧ Relabelled labels notes s' t' := by
  obtain ⟨t', ht, core⟩ := step_congr h.core hs
  have count : t.count = s.count := congrArg Ledger.count h.ledger
  refine ⟨t', ht, core, ?_⟩
  rw [ledger_step ht, ledger_step hs, h.ledger, count]

theorem Uninterrupted.step (h : Uninterrupted s) (hs : s.step = .next s') :
    Uninterrupted s' := by
  have ledger := ledger_step hs
  have pause : s'.pause = s.pause := congrArg Ledger.pause ledger
  have notes : s'.notes = s.notes := congrArg Ledger.notes ledger
  exact ⟨pause.trans h.pause, fun a => notes ▸ h.notes a⟩

theorem Relabelled.paused (h : Relabelled labels notes s t) (p : Pause) {k k' : Nat} :
    Relabelled labels notes (s.paused k p).machine (t.paused k' p).machine := by
  refine ⟨h.core, ?_⟩
  rw [h.eq]
  rfl

theorem Relabelled.faulted (h : Relabelled labels notes s t) (f : Fault) {k k' : Nat} :
    Relabelled labels notes (s.faulted k f).machine (t.faulted k' f).machine := by
  refine ⟨h.core, ?_⟩
  rw [h.eq]
  rfl

/-- Stopping at a breakpoint and beginning again leaves no trace but in the observer. -/
theorem Relabelled.again (h : Relabelled labels notes s t) (quiet : Uninterrupted s) (k : Nat) :
    Relabelled labels notes s (t.paused k .breakpoint).machine.begin := by
  refine ⟨h.core, ?_⟩
  have reset : (t.paused k .breakpoint).machine.begin.ledger = { t.ledger with pause := .none } :=
    rfl
  have none : s.ledger.pause = .none := quiet.pause
  rw [reset, h.ledger, ← none]

end Relabelling

/-- How a run that is interrupted and resumed compares with the run that visits these addresses
and has this outcome. -/
structure Retraces (labels : Labels) (notes : Notes) (visits : List Word) (o : Outcome)
    (stops : List Machine) (last : Outcome) : Prop where
  stops : stops.map Machine.pc = visits.filter notes.isBreakpoint
  fault : last.fault = o.fault
  machine : Relabelled labels notes o.machine last.machine

abbrev always : Condition := fun _ _ => true

/-- Calls of `run`, of which the first has come to `t` after `k` instructions, stop at these
machines and end with this outcome, if they have fuel for more than `n` instructions. -/
def Resumes (n k : Nat) (t : Machine) (stops : List Machine) (last : Outcome) : Prop :=
  ∀ fuel left calls, n < fuel → n < left → stops.length ≤ calls →
    (runFrom always left k t).bind (follow (resume fuel calls)) = some (stops, last)

namespace Resumes

variable {n k : Nat} {t t' : Machine} {f : Fault} {stops : List Machine} {last : Outcome}

/-- A machine that has halted is resumed by a call that does nothing. -/
theorem halt (h : t.step = .halt) : Resumes 0 k t [] (t.paused k .halt) := by
  intro fuel left calls _ enough _
  obtain ⟨left, rfl⟩ := Nat.exists_eq_add_one.mpr enough
  simp [runFrom, h, follow, paused, hitBreakpoint]

/-- A fault ends the call and the calls. -/
theorem fault (h : t.step = .fault f t) : Resumes 0 k t [] (t.faulted k f) := by
  intro fuel left calls _ enough _
  obtain ⟨left, rfl⟩ := Nat.exists_eq_add_one.mpr enough
  simp [runFrom, h, follow, faulted]

/-- A step to a breakpoint ends the call, and the next call begins there with its own count. -/
theorem stop (h : t.step = .next t') (hit : t'.notes.isBreakpoint t'.pc = true)
    (rest : Resumes n 0 (t'.paused (k + 1) .breakpoint).machine.begin stops last) :
    Resumes (n + 1) k t ((t'.paused (k + 1) .breakpoint).machine :: stops) last := by
  intro fuel left calls enough enough' called
  rw [List.length_cons] at called
  obtain ⟨left, rfl⟩ := Nat.exists_eq_add_one.mpr (Nat.zero_lt_of_lt enough')
  obtain ⟨calls, rfl⟩ := Nat.exists_eq_add_one.mpr (Nat.zero_lt_of_lt called)
  have stopped : runFrom always (left + 1) k t = some (t'.paused (k + 1) .breakpoint) := by
    simp [runFrom, h, hit]
  have next : resume fuel (calls + 1) (t'.paused (k + 1) .breakpoint).machine =
      some (stops, last) :=
    rest fuel fuel calls (by omega) (by omega) (by omega)
  rw [stopped, Option.bind_some, follow, next]
  rfl

/-- A step to any other address stays in the call. -/
theorem pass (h : t.step = .next t') (miss : t'.notes.isBreakpoint t'.pc = false)
    (rest : Resumes n (k + 1) t' stops last) : Resumes (n + 1) k t stops last := by
  intro fuel left calls enough enough' called
  obtain ⟨left, rfl⟩ := Nat.exists_eq_add_one.mpr (Nat.zero_lt_of_lt enough')
  have passed : runFrom always (left + 1) k t = runFrom always left (k + 1) t' := by
    simp [runFrom, h, miss]
  rw [passed]
  exact rest fuel left calls (by omega) (by omega) called

end Resumes

/-- From any moment of a run without breakpoints on: the relabelled run, interrupted at its
breakpoints and resumed, stops at each visit to one and then ends as the run does. -/
theorem Ends.resumed {labels : Labels} {notes : Notes} {k : Nat} {s : Machine} {o : Outcome}
    (ends : Ends always k s o) (quiet : Uninterrupted s) (k' : Nat) {t : Machine}
    (same : Relabelled labels notes s t) :
    ∃ stops last,
      Retraces labels notes ((s.trace (o.steps - k)).map (·.after.pc)) o stops last ∧
      Resumes (o.steps - k) k' t stops last := by
  induction ends generalizing k' t with
  | condition off => cases off
  | @halt k s _ hs =>
    have none : (s.paused k .halt).steps - k = 0 := Nat.sub_self k
    rw [none]
    exact ⟨[], t.paused k' .halt, ⟨rfl, rfl, same.paused .halt⟩,
      .halt (step_halt_congr same.core hs)⟩
  | @fault k s f _ hs =>
    have none : (s.faulted k f).steps - k = 0 := Nat.sub_self k
    rw [none]
    exact ⟨[], t.faulted k' f, ⟨rfl, rfl, same.faulted f⟩,
      .fault (step_fault_congr same.core hs)⟩
  | breakpoint _ hs hit =>
    -- The run that is followed has no breakpoints.
    rw [(quiet.step hs).notes] at hit
    cases hit
  | @next k s s' o _ hs _ rest ih =>
    obtain ⟨t', ht, same'⟩ := same.step hs
    have quiet' := quiet.step hs
    have longer : o.steps - k = o.steps - (k + 1) + 1 := by
      have := rest.le_steps
      omega
    have pc : t'.pc = s'.pc := pc_congr same'.core
    have listed : t'.notes.isBreakpoint t'.pc = notes.isBreakpoint s'.pc := by
      rw [pc, show t'.notes = notes from congrArg Ledger.notes same'.ledger]
    rw [longer]
    simp only [trace, hs, List.map_cons]
    -- At a breakpoint the next call counts from nothing; elsewhere the same call goes on.
    cases visit : notes.isBreakpoint s'.pc with
    | true =>
      obtain ⟨stops, last, retraces, resumes⟩ := ih quiet' 0 (same'.again quiet' (k' + 1))
      refine ⟨(t'.paused (k' + 1) .breakpoint).machine :: stops, last,
        ⟨?_, retraces.fault, retraces.machine⟩, .stop ht (listed.trans visit) resumes⟩
      rw [List.filter_cons_of_pos visit, ← retraces.stops, ← pc]
      rfl
    | false =>
      obtain ⟨stops, last, retraces, resumes⟩ := ih quiet' (k' + 1) same'
      refine ⟨stops, last, ⟨?_, retraces.fault, retraces.machine⟩,
        .pass ht (listed.trans visit) resumes⟩
      rw [List.filter_cons_of_neg (by simp [visit])]
      exact retraces.stops

/-- Let `m` have no breakpoints and let a run of it end after visiting some addresses. With any
notes and labels in place of its own, calling `run` as long as it stops at a breakpoint gives one
stop for each visit to a breakpoint, in order and at the address of the visit. The call after the
last stop has the same fault as the one run and leaves the same machine, but for the observer. -/
theorem run_breakpoints_transparent {fuel : Nat} {m : Machine} {o : Outcome}
    (plain : ∀ a, m.notes.isBreakpoint a = false) (ends : m.run fuel = some o)
    (labels : Labels) (notes : Notes) :
    let visits := (m.begin.trace o.steps).map (·.after.pc)
    ∃ stops last,
      visits.length = o.steps ∧
      stops.map Machine.pc = visits.filter notes.isBreakpoint ∧
      last.fault = o.fault ∧
      last.machine = { o.machine with
        labels := labels, notes := notes, observer := last.machine.observer } ∧
      ∀ fuel calls, o.steps < fuel → stops.length < calls →
        { m with labels := labels, notes := notes }.resume fuel calls = some (stops, last) := by
  have whole : Ends always 0 m.begin o := ends_of_runFrom ends
  have same : Relabelled labels notes m.begin
      { m with labels := labels, notes := notes }.begin := ⟨rfl, rfl⟩
  obtain ⟨stops, last, retraces, resumes⟩ := whole.resumed ⟨rfl, plain⟩ 0 same
  obtain ⟨s, arrives⟩ := whole.arrives
  refine ⟨stops, last, ?_, retraces.stops, retraces.fault, retraces.machine.eq, ?_⟩
  · rw [List.length_map]
    exact length_trace arrives.steps
  · intro fuel calls enough called
    obtain ⟨calls, rfl⟩ := Nat.exists_eq_add_one.mpr (Nat.zero_lt_of_lt called)
    exact resumes fuel fuel calls enough enough (Nat.le_of_lt_succ called)

/-- A loop of two rounds with breakpoints at its start, before it and at the halt address. -/
theorem run_breakpoints_transparent_loop :
    let m := { new .none with
      mem := Memory.zero.copyBlock 0x8200 [0x9002, 0x103F, 0x03FE, 0xF0FF] }
    let notes := ((Notes.empty.setBreakpoint 0x8200).setBreakpoint 0x8201).setBreakpoint haltAddr
    (∀ a, m.notes.isBreakpoint a = false) ∧
    ∃ o stops last, m.run 7 = some o ∧ o.steps = 6 ∧
      { m with notes := notes }.resume 7 4 = some (stops, last) ∧
      stops.map Machine.pc = [0x8201, 0x8201, haltAddr] ∧ last.fault = o.fault ∧
      last.machine = { o.machine with
        labels := m.labels, notes := notes, observer := last.machine.observer } := by
  intro m notes
  have plain : ∀ a, m.notes.isBreakpoint a = false := Notes.isBreakpoint_empty
  have counted : (m.run 7).map Outcome.steps = some 6 := by decide +kernel
  obtain ⟨o, ends, six⟩ := Option.map_eq_some_iff.mp counted
  obtain ⟨stops, last, _, stopped, fault, machine, resumed⟩ :=
    run_breakpoints_transparent plain ends m.labels notes
  rw [six] at stopped
  have visited : stops.map Machine.pc = [0x8201, 0x8201, haltAddr] := by
    rw [stopped]
    decide +kernel
  have three : stops.length = 3 := by simpa using congrArg List.length visited
  exact ⟨plain, o, stops, last, ends, six, resumed 7 4 (by omega) (by omega), visited, fault,
    machine⟩

end Lc4.Machine
