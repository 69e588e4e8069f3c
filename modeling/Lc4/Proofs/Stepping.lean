import Mathlib.Data.Nat.Find
import Lc4.Proofs.CallStacks
import Lc4.Proofs.Stopping
import Lc4.Proofs.Targets

/-!
# Steps over, out of and past calls

These runs take one instruction, and then others as long as they have not come where they want to
be. If such a run completes, its last instruction is the first that brings it there. An instruction
moves the depth of calls by at most one, and only a return lowers it, so a run that waits for a
depth ends with the very return that it waits for. A run that waits for the next address compares
addresses alone, so in a recursion it may stop before the call has returned, but never after.
-/
namespace Lc4

namespace Machine
variable {m : Machine} {i : Instr} {e : Effect}

/-- A return goes to the address in the link register and writes no register. -/
theorem effect_returns (returns : i.returns = true) (h : m.effect i = .ok e) :
    e.pc = m.reg .link ∧ e.reg = none := by
  cases i
  case ret | rti =>
    obtain rfl := pure_eq_ok_iff.mp h
    exact ⟨rfl, rfl⟩
  case jmp target =>
    cases target with
    | imm => cases returns
    | reg r =>
      obtain rfl := pure_eq_ok_iff.mp h
      have link : r = Reg.link := beq_iff_eq.mp returns
      rw [if_pos link]
      exact ⟨rfl, rfl⟩
  all_goals cases returns

end Machine

/-- So the link register still holds the address that a return has gone to. -/
theorem Executed.Valid.link_of_returns {x : Executed} (valid : x.Valid)
    (returns : x.instr.returns = true) : x.after.pc = x.after.reg .link :=
  valid.link_of_effect fun _ he => Machine.effect_returns returns he

/-- What does not transfer control goes on to the next address. -/
theorem Executed.Valid.proceeds {x : Executed} (valid : x.Valid)
    (stays : x.instr.transfers = false) : x.after.pc = x.before.pc + 1 := by
  obtain ⟨e, he, core⟩ := valid.core
  have pc : x.after.pc = e.pc := congrArg Core.pc core
  exact pc.trans (Machine.effect_proceeds stays he).2

/-- An instruction moves the depth of calls by at most one. -/
theorem Executed.MovesCalls.depth_after {x : Executed} (moves : x.MovesCalls) :
    x.after.calls.depth = x.before.calls.depth + 1 ∨
      x.after.calls.depth + 1 = x.before.calls.depth ∨
      x.after.calls.depth = x.before.calls.depth := by
  rcases moves.calls_after with ⟨f, pushed⟩ | popped | kept
  · exact .inl (congrArg CallStack.depth pushed)
  · have depth : x.after.calls.depth = x.before.calls.depth - 1 :=
      congrArg CallStack.depth popped
    omega
  · exact .inr (.inr (congrArg CallStack.depth kept))

/-- Only a call raises the depth. -/
theorem Executed.MovesCalls.above_iff {x : Executed} (moves : x.MovesCalls) :
    x.before.calls.depth < x.after.calls.depth ↔ x.instr.call?.isSome := by
  rw [← moves.deeper]
  have := moves.depth_after
  omega

/-- The last of the instructions is a return to depth `d`, and all before it stay deeper. -/
structure ReturnsTo (d : Nat) (xs : List Executed) (s : Machine) : Prop where
  away : ∀ x ∈ xs.dropLast, d < x.after.calls.depth
  last : ∃ x, xs.getLast? = some x ∧ x.instr.returns = true
  depth : s.calls.depth = d
  pc : s.pc = s.reg .link

namespace Machine

/-- Takes an instruction, and others as long as `on` holds. -/
abbrev atLeastOne (on : Machine → Bool) : Condition :=
  fun k s => k == 0 || on s

/-- The run from `m` completes with its instruction `last`, the first that leaves a machine at which
`on` does not hold. -/
structure Lands (on : Machine → Bool) (m : Machine) (o : Outcome) (earlier : List Executed)
    (last : Executed) : Prop where
  trace : m.trace o.steps = earlier ++ [last]
  valid : last.Valid
  away : ∀ x ∈ earlier, on x.after = true
  before : earlier = [] ∧ last.before = m ∨ on last.before = true
  back : on last.after = false
  left : o = last.after.paused o.steps .none

section Runs
variable {m s : Machine} {on : Machine → Bool} {go : Condition} {fuel k : Nat} {o : Outcome}
variable {c : StopCause} {earlier : List Executed} {last : Executed}

theorem first_of_trace {x : Executed} {xs : List Executed} (h : m.trace k = x :: xs) :
    x.Valid ∧ x.before = m ∧ x.instr = m.fetch := by
  cases k with
  | zero => cases h
  | succ k =>
    cases next : m.step with
    | halt | fault => simp [trace, next] at h
    | next m' =>
      simp only [trace, next] at h
      obtain ⟨rfl, _⟩ := List.cons.inj h
      obtain ⟨_, s, ran, rfl⟩ := step_eq_next_iff.mp next
      exact ⟨valid_of_execute ran rfl fun _ => rfl, rfl, rfl⟩

/-- A run that its condition ended lands: all machines before the last failed to be where it wants
to be. -/
theorem Stops.lands (stops : Stops (atLeastOne on) m s .condition o) :
    ∃ earlier last, Lands on m o earlier last := by
  have off := off_of_stopCause? stops.cause
  have moved : o.steps ≠ 0 := by
    intro none
    simp [none] at off
  obtain ⟨n, steps⟩ := Nat.exists_eq_succ_of_ne_zero moved
  have arrives := stops.arrives
  have passes := stops.passes
  rw [steps] at arrives passes
  obtain ⟨r, earlier, last⟩ := exists_last_of_after arrives
  have whole := trace_concat earlier last
  have goes (j : Nat) (positive : 0 < j) (le : j ≤ n) (t : Machine)
      (there : m.after j = some t) : on t = true := by
    obtain ⟨u, here, on, -⟩ := passes j (Nat.lt_succ_of_le le)
    obtain rfl := Option.some.inj (there.symm.trans here)
    have started : j ≠ 0 := by omega
    simpa [started] using on
  refine ⟨m.trace n, ⟨r, r.fetch, s, true⟩, ?_, ?_, ?_, ?_, ?_, stops.left⟩
  · rw [steps]
    exact whole
  · obtain ⟨_, t, ran, rfl⟩ := step_eq_next_iff.mp last
    exact valid_of_execute ran rfl fun _ => rfl
  · intro x hx
    obtain ⟨j, positive, le, there⟩ := (mem_trace_iff earlier x.after).mp ⟨x, hx, rfl⟩
    exact goes j positive le x.after there
  · cases n with
    | zero => exact .inl ⟨rfl, (Option.some.inj earlier).symm⟩
    | succ n => exact .inr (goes (n + 1) (Nat.succ_pos n) (Nat.le_refl _) r earlier)
  · simpa [moved] using off

/-- Where a run stops and `on` does not hold, or before, the run that goes on as long as `on` holds
completes. -/
theorem Stops.exists_first (on : Machine → Bool) (stops : Stops go m s c o)
    (other : c ≠ .breakpoint) (moved : o.steps ≠ 0) (off : on s = false) :
    ∃ t p, Stops (atLeastOne on) m t .condition p ∧ p.steps ≤ o.steps ∧
      ((∀ x ∈ (m.trace o.steps).dropLast, on x.after = true) → p.steps = o.steps ∧ t = s) := by
  classical
  have exists_off : ∃ j, 0 < j ∧ ∃ t, m.after j = some t ∧ on t = false :=
    ⟨o.steps, Nat.pos_of_ne_zero moved, s, stops.arrives, off⟩
  obtain ⟨positive, t, arrives, off'⟩ := Nat.find_spec exists_off
  have earliest (i : Nat) (h : i < Nat.find exists_off) := Nat.find_min exists_off h
  have le : Nat.find exists_off ≤ o.steps :=
    Nat.find_min' exists_off ⟨Nat.pos_of_ne_zero moved, s, stops.arrives, off⟩
  generalize Nat.find exists_off = n at positive arrives earliest le
  have passes : Passes (atLeastOne on) 0 n m := by
    intro i hi
    obtain ⟨u, there, -, awake, fresh⟩ := stops.passes i (Nat.lt_of_lt_of_le hi le)
    refine ⟨u, there, ?_, awake, fresh⟩
    by_cases start : i = 0
    · simp [start]
    · have on : on u = true := by
        by_contra off
        exact earliest i hi ⟨Nat.pos_of_ne_zero start, u, there, by simpa using off⟩
      simp [on]
  have fresh : n ≠ 0 → t.notes.isBreakpoint t.pc = false := by
    rcases Nat.lt_or_eq_of_le le with less | same
    · obtain ⟨u, there, -, -, fresh⟩ := stops.passes n less
      obtain rfl := Option.some.inj (arrives.symm.trans there)
      rwa [Nat.zero_add] at fresh
    · rw [same] at arrives ⊢
      obtain rfl := Option.some.inj (arrives.symm.trans stops.arrives)
      exact fresh_of_stopCause? stops.cause other
  have stopped : atLeastOne on n t = false := by
    have started : n ≠ 0 := Nat.ne_of_gt positive
    simp [off', started]
  refine ⟨t, StopCause.condition.outcome n t, ⟨arrives, passes, ?_, rfl⟩, le, ?_⟩
  · exact (stopCause?_of_fresh fresh).trans (if_pos stopped)
  · intro away
    have ons : ∀ j u, 0 < j → j < o.steps → m.after j = some u → on u = true :=
      (forall_mem_dropLast_trace_iff stops.arrives).mp away
    have last : n = o.steps := by
      refine Nat.le_antisymm le (Nat.not_lt.mp fun less => ?_)
      rw [ons n t positive less arrives] at off'
      cases off'
    rw [last] at arrives
    exact ⟨last, Option.some.inj (arrives.symm.trans stops.arrives)⟩

/-- The first instruction either is the last one or does not land. -/
theorem Lands.head (lands : Lands on m o earlier last) :
    ∃ x rest, m.trace o.steps = x :: rest ∧ x.Valid ∧ x.before = m ∧ x.instr = m.fetch ∧
      (rest = [] ∧ on x.after = false ∨ rest ≠ [] ∧ earlier ≠ [] ∧ on x.after = true) := by
  have traced := lands.trace
  cases earlier with
  | nil =>
    obtain ⟨valid, first, fetched⟩ := first_of_trace traced
    exact ⟨last, [], traced, valid, first, fetched, .inl ⟨rfl, lands.back⟩⟩
  | cons x rest =>
    obtain ⟨valid, first, fetched⟩ := first_of_trace traced
    have away : on x.after = true := lands.away x List.mem_cons_self
    exact ⟨x, rest ++ [last], traced, valid, first, fetched, .inr ⟨by simp, nofun, away⟩⟩

/-- A completed run lands, from the machine with its observer emptied. -/
theorem lands_of_completed (h : m.runWhile (atLeastOne on) fuel = some o) (done : o.Completed) :
    ∃ earlier last, Lands on m.begin o earlier last := by
  obtain ⟨s, c, stops⟩ := exists_runWhile_iff.mp ⟨fuel, h⟩
  obtain rfl := stops.completed_iff.mp done
  exact stops.lands

end Runs

section Calls
variable {m : Machine} {d : Nat} {o : Outcome} {earlier : List Executed} {last : Executed}

/-- From above a depth a run can come back to it by a return only. -/
theorem Lands.returnsTo (lands : Lands (fun s => d < s.calls.depth) m o earlier last)
    (inside : earlier = [] → d < m.calls.depth) : ReturnsTo d (m.trace o.steps) o.machine := by
  have above : d < last.before.calls.depth := by
    rcases lands.before with ⟨none, first⟩ | above
    · rw [first]
      exact inside none
    · exact of_decide_eq_true above
  have back : ¬ d < last.after.calls.depth := of_decide_eq_false lands.back
  have moves := lands.valid.movesCalls
  have lowered : last.after.calls.depth + 1 = last.before.calls.depth := by
    have := moves.depth_after
    omega
  have returns : last.instr.returns = true := (moves.shallower.mp lowered).1
  have depth : o.machine.calls = last.after.calls := by rw [lands.left]; rfl
  have pc : o.machine.pc = last.after.pc := by rw [lands.left]; rfl
  have link : o.machine.reg .link = last.after.reg .link := by rw [lands.left]; rfl
  rw [lands.trace]
  constructor
  · intro x hx
    rw [List.dropLast_concat] at hx
    exact of_decide_eq_true (lands.away x hx)
  · exact ⟨last, List.getLast?_concat, returns⟩
  · rw [depth]
    omega
  · rw [pc, link]
    exact lands.valid.link_of_returns returns

/-- A step over an instruction, if it completes, has run that instruction alone unless it is a call,
and else has run on above the depth of the caller up to the return to it. A step out of a call, if
it completes, has run no less deep than that call up to the return from it; outside of calls it runs
nothing and forgets the last observer and pause. -/
theorem stepOver_stepOut_return (m : Machine) :
    (∀ fuel o, m.stepOver fuel = some o → o.Completed →
      let xs := Operation.stepOver.executed fuel m
      Linked m xs o.machine ∧ ∃ x rest, xs = x :: rest ∧ x.instr = m.fetch ∧
        (x.instr.call? = none ∧ rest = [] ∨
          x.instr.call?.isSome ∧ rest ≠ [] ∧ ReturnsTo m.calls.depth xs o.machine)) ∧
    (∀ d fuel o, m.calls.depth = d + 1 → m.stepOut fuel = some o → o.Completed →
      let xs := Operation.stepOut.executed fuel m
      Linked m xs o.machine ∧ ReturnsTo d xs o.machine) ∧
    (m.calls.depth = 0 → ∀ fuel,
      m.stepOut fuel = some ⟨{ m with observer := .empty, pause := .none }, 0, none⟩) := by
  refine ⟨?_, ?_, ?_⟩
  · intro fuel o ends done xs
    have performed : Operation.stepOver.perform fuel m = some o := ends
    have linked : Linked m xs o.machine := linked_of_perform performed
    have traced : xs = m.begin.trace o.steps := executed_eq_trace rfl performed
    obtain ⟨earlier, last, lands⟩ := lands_of_completed ends done
    obtain ⟨x, rest, listed, valid, first, fetched, head⟩ := lands.head
    refine ⟨linked, x, rest, traced.trans listed, fetched, ?_⟩
    have start : x.before.calls.depth = m.calls.depth := by rw [first]; rfl
    have call := valid.movesCalls.above_iff
    rw [start] at call
    rcases head with ⟨alone, back⟩ | ⟨more, inside, away⟩
    · have plain : ¬ x.instr.call?.isSome := call.not.mp (of_decide_eq_false back)
      exact .inl ⟨by simpa using plain, alone⟩
    · have calls : x.instr.call?.isSome := call.mp (of_decide_eq_true away)
      rw [traced]
      exact .inr ⟨calls, more, lands.returnsTo fun none => absurd none inside⟩
  · intro d fuel o depth ends done xs
    have performed : Operation.stepOut.perform fuel m = some o := ends
    have linked : Linked m xs o.machine := linked_of_perform performed
    have traced : xs = m.begin.trace o.steps := executed_eq_trace rfl performed
    have inside : m.calls.isEmpty = false := by simp [CallStack.isEmpty, depth]
    have runs : m.runWhile (atLeastOne fun s => d < s.calls.depth) fuel = some o := by
      simpa [stepOut, inside, depth, Nat.succ_le_iff] using ends
    obtain ⟨earlier, last, lands⟩ := lands_of_completed runs done
    refine ⟨linked, ?_⟩
    rw [traced]
    refine lands.returnsTo fun _ => ?_
    have start : m.begin.calls.depth = m.calls.depth := rfl
    omega
  · intro outside fuel
    have empty : m.calls.isEmpty = true := by simp [CallStack.isEmpty, outside]
    rw [stepOut, if_pos empty]
    rfl

/-- A call of a routine that traps, with a jump back through the link register: over it from its
caller, out of it from inside, and out of the caller, which has no caller. -/
theorem stepOver_stepOut_return_nested :
    let m := { new .none with
      pc := 0
      mem := ((((((Memory.zero.set 0 0x4801).set 0x10 0x1DE0).set 0x11 0xF025).set 0x12 0x1FA0).set
        0x13 0xC1C0).set 0x8025 0x8000) }
    let inside := m.stepIn.machine
    (∃ o, m.stepOver 7 = some o ∧ o.steps = 6 ∧ o.machine.pc = 1 ∧ o.machine.count = 6 ∧
      ReturnsTo 0 (Operation.stepOver.executed 7 m) o.machine) ∧
    (∃ o, inside.stepOver 2 = some o ∧ ∃ x, Operation.stepOver.executed 2 inside = [x]) ∧
    (∃ o, inside.stepOut 6 = some o ∧ o.steps = 5 ∧
      ReturnsTo 0 (Operation.stepOut.executed 6 inside) o.machine) ∧
    m.stepOut 0 = some ⟨m.begin, 0, none⟩ := by
  intro m inside
  obtain ⟨whole, -, outside⟩ := stepOver_stepOut_return m
  obtain ⟨single, out, -⟩ := stepOver_stepOut_return inside
  refine ⟨?_, ?_, ?_, outside rfl 0⟩
  · have seen : (m.stepOver 7).map (fun o => (o.steps, o.machine.pc, o.machine.count, o.fault,
        o.machine.pause)) = some (6, 1, 6, none, .none) := by decide +kernel
    obtain ⟨o, ends, seen⟩ := Option.map_eq_some_iff.mp seen
    simp only [Prod.mk.injEq] at seen
    obtain ⟨steps, pc, count, fault, pause⟩ := seen
    have done : o.Completed := Outcome.completed_iff.mpr ⟨fault, pause⟩
    have call : m.fetch.call? = some .subroutine := by decide +kernel
    obtain ⟨_, x, _, _, fetched, ⟨none, _⟩ | ⟨_, _, returns⟩⟩ := whole 7 o ends done
    · rw [fetched, call] at none
      cases none
    · exact ⟨o, ends, steps, pc, count, returns⟩
  · have seen : (inside.stepOver 2).map (fun o => (o.fault, o.machine.pause)) =
        some (none, .none) := by decide +kernel
    obtain ⟨o, ends, seen⟩ := Option.map_eq_some_iff.mp seen
    obtain ⟨fault, pause⟩ := Prod.mk.inj seen
    have done : o.Completed := Outcome.completed_iff.mpr ⟨fault, pause⟩
    have call : inside.fetch.call? = none := by decide +kernel
    obtain ⟨_, x, _, listed, fetched, ⟨_, rfl⟩ | ⟨some, _⟩⟩ := single 2 o ends done
    · exact ⟨o, ends, x, listed⟩
    · rw [fetched, call] at some
      cases some
  · have seen : (inside.stepOut 6).map (fun o => (o.steps, o.fault, o.machine.pause)) =
        some (5, none, .none) := by decide +kernel
    obtain ⟨o, ends, seen⟩ := Option.map_eq_some_iff.mp seen
    simp only [Prod.mk.injEq] at seen
    obtain ⟨steps, fault, pause⟩ := seen
    have done : o.Completed := Outcome.completed_iff.mpr ⟨fault, pause⟩
    have deep : inside.calls.depth = 0 + 1 := by decide +kernel
    exact ⟨o, ends, steps, (out 0 6 o deep ends done).2⟩

end Calls

/-- A run to the next address, if it completes, ends at the first visit to that address after the
instruction at the program counter, which is thus the only one if it goes on to the next address.
Where a step over that instruction stops at the next address, and neither for a breakpoint nor
halted, the run to it completes as well, after no more instructions; it leaves the same machine if
that is the first visit. -/
theorem stepNext_first_visit (m : Machine) :
    (∀ fuel o, m.stepNext fuel = some o → o.Completed →
      let xs := Operation.stepNext.executed fuel m
      Linked m xs o.machine ∧ o.machine.pc = m.pc + 1 ∧
      (∀ x ∈ xs.dropLast, x.after.pc ≠ m.pc + 1) ∧
      ∃ x rest, xs = x :: rest ∧ x.instr = m.fetch ∧
        (x.instr.transfers = false ∨ x.after.pc = m.pc + 1 → rest = [])) ∧
    (∀ fuel o, m.stepOver fuel = some o → o.steps ≠ 0 → o.machine.hitBreakpoint = false →
      o.machine.hitHalt = false → o.machine.pc = m.pc + 1 →
      ∃ fuel' p, m.stepNext fuel' = some p ∧ p.Completed ∧ p.steps ≤ o.steps ∧
        ((∀ x ∈ (Operation.stepOver.executed fuel m).dropLast, x.after.pc ≠ m.pc + 1) →
          p.steps = o.steps ∧ p.machine = { o.machine with status := p.machine.status } ∧
            (o.fault = none → p = o))) := by
  constructor
  · intro fuel o ends done xs
    have performed : Operation.stepNext.perform fuel m = some o := ends
    have linked : Linked m xs o.machine := linked_of_perform performed
    have traced : xs = m.begin.trace o.steps := executed_eq_trace rfl performed
    obtain ⟨earlier, last, lands⟩ := lands_of_completed ends done
    have listed : xs = earlier ++ [last] := traced.trans lands.trace
    have back : last.after.pc = m.pc + 1 := by simpa using lands.back
    refine ⟨linked, ?_, ?_, ?_⟩
    · rw [lands.left]
      exact back
    · intro x hx
      rw [listed, List.dropLast_concat] at hx
      simpa using lands.away x hx
    · obtain ⟨x, rest, listed, valid, first, fetched, head⟩ := lands.head
      refine ⟨x, rest, traced.trans listed, fetched, fun falls => ?_⟩
      have next : x.after.pc = m.pc + 1 := by
        rcases falls with stays | next
        · rw [valid.proceeds stays, first]
          rfl
        · exact next
      rcases head with ⟨alone, -⟩ | ⟨-, -, away⟩
      · exact alone
      · exact absurd next (bne_iff_ne.mp away)
  · intro fuel o ends moved noBreakpoint noHalt next
    have performed : Operation.stepOver.perform fuel m = some o := ends
    obtain ⟨s, c, stops⟩ := exists_runWhile_iff.mp ⟨fuel, ends⟩
    have left := stops.left
    have unpaused : c.pause = .none := by
      have unpaused := pause_eq_none_iff.mpr ⟨noBreakpoint, noHalt⟩
      rwa [left] at unpaused
    have other : c ≠ .breakpoint := by
      rintro rfl
      cases unpaused
    have off : (s.pc != m.pc + 1) = false := by
      have next : s.pc = m.pc + 1 := by
        rw [left] at next
        exact next
      simp [next]
    obtain ⟨t, p, stopped, le, same⟩ :=
      stops.exists_first (fun s => s.pc != m.pc + 1) other moved off
    obtain ⟨fuel', runs⟩ := exists_runWhile_iff.mpr ⟨t, .condition, stopped⟩
    refine ⟨fuel', p, runs, stopped.completed_iff.mpr rfl, le, fun away => ?_⟩
    rw [executed_eq_trace rfl performed] at away
    obtain ⟨steps, rfl⟩ := same fun x hx => bne_iff_ne.mpr (away x hx)
    have left' := stopped.left
    rw [steps] at left'
    refine ⟨steps, ?_, ?_⟩
    · rw [left', left, StopCause.outcome, StopCause.outcome, unpaused]
      rfl
    · intro ok
      obtain rfl := stops.completed_iff.mp ⟨ok, noBreakpoint, noHalt⟩
      exact left'.trans left.symm

/-- A call that jumps to the address after it before it returns there, which is a visit too many
for a step over it, and one that just returns. -/
theorem stepNext_first_visit_early :
    let m := { new .none with
      mem := ((Memory.zero.set 0x8200 0x4821).set 0x8210 0xCFF0).set 0x8201 0xC1C0 }
    let plain := { m with mem := m.mem.set 0x8210 0xC1C0 }
    (∃ o fuel p, m.stepOver 4 = some o ∧ o.steps = 3 ∧ m.stepNext fuel = some p ∧ p.steps ≤ 3 ∧
      ∃ x ∈ (Operation.stepOver.executed 4 m).dropLast, x.after.pc = 0x8201) ∧
    (∃ p, m.stepNext 3 = some p ∧ p.steps = 2 ∧ p.machine.pc = 0x8201 ∧
      ∀ x ∈ (Operation.stepNext.executed 3 m).dropLast, x.after.pc ≠ 0x8201) ∧
    ∃ o fuel, plain.stepOver 3 = some o ∧ o.steps = 2 ∧ plain.stepNext fuel = some o := by
  intro m plain
  obtain ⟨visits, bounded⟩ := stepNext_first_visit m
  obtain ⟨-, boundedPlain⟩ := stepNext_first_visit plain
  refine ⟨?_, ?_, ?_⟩
  · have seen : (m.stepOver 4).map (fun o => (o.steps, o.machine.pc, o.machine.pause)) =
        some (3, 0x8201, .none) := by decide +kernel
    obtain ⟨o, ends, seen⟩ := Option.map_eq_some_iff.mp seen
    simp only [Prod.mk.injEq] at seen
    obtain ⟨steps, pc, pause⟩ := seen
    have early : ∃ x ∈ (Operation.stepOver.executed 4 m).dropLast, x.after.pc = 0x8201 := by
      decide +kernel
    obtain ⟨fuel, p, runs, _, le, _⟩ := bounded 4 o ends (by rw [steps]; decide)
      (by rw [hitBreakpoint, pause]; rfl) (by rw [hitHalt, pause]; rfl) (by rw [pc]; rfl)
    exact ⟨o, fuel, p, ends, steps, runs, steps ▸ le, early⟩
  · have seen : (m.stepNext 3).map (fun o => (o.steps, o.fault, o.machine.pause)) =
        some (2, none, .none) := by decide +kernel
    obtain ⟨p, ends, seen⟩ := Option.map_eq_some_iff.mp seen
    simp only [Prod.mk.injEq] at seen
    obtain ⟨steps, fault, pause⟩ := seen
    have done : p.Completed := Outcome.completed_iff.mpr ⟨fault, pause⟩
    obtain ⟨_, pc, away, _⟩ := visits 3 p ends done
    exact ⟨p, ends, steps, pc, away⟩
  · have seen : (plain.stepOver 3).map (fun o => (o.steps, o.machine.pc, o.fault,
        o.machine.pause)) = some (2, 0x8201, none, .none) := by decide +kernel
    obtain ⟨o, ends, seen⟩ := Option.map_eq_some_iff.mp seen
    simp only [Prod.mk.injEq] at seen
    obtain ⟨steps, pc, fault, pause⟩ := seen
    have away : ∀ x ∈ (Operation.stepOver.executed 3 plain).dropLast,
        x.after.pc ≠ plain.pc + 1 := by decide +kernel
    obtain ⟨fuel, p, runs, _, _, first⟩ := boundedPlain 3 o ends (by rw [steps]; decide)
      (by rw [hitBreakpoint, pause]; rfl) (by rw [hitHalt, pause]; rfl) (by rw [pc]; rfl)
    obtain ⟨_, _, same⟩ := first away
    exact ⟨o, fuel, ends, steps, same fault ▸ runs⟩

end Machine

end Lc4
