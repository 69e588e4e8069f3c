import Lc4.Proofs.Accesses
import Lc4.Proofs.Segments

/-!
# Runs with a limit

A run with a limit always returns. If it stops at its limit, it may go on from there: then it ends
as the run with both limits together ends, except that the observer shows the second part alone. As
long as no breakpoint is in its way, it does what as many steps do.
-/
namespace Lc4

section Zip
variable {α β γ : Type}

namespace AddressTree

def zipWith (f : α → β → γ) : {depth : Nat} →
    AddressTree α depth → AddressTree β depth → AddressTree γ depth
  | _, leaf v, leaf w => leaf (f v w)
  | _, node low high, node low' high' => node (low.zipWith f low') (high.zipWith f high')

theorem get_zipWith (f : α → β → γ) {depth : Nat} (s : AddressTree α depth)
    (t : AddressTree β depth) (a : Nat) : (s.zipWith f t).get a = f (s.get a) (t.get a) := by
  induction s with
  | leaf v =>
    cases t with
    | leaf w => rfl
  | @node depth low high ihl ihh =>
    cases t with
    | node low' high' =>
      rw [zipWith, get, get, get]
      split
      · exact ihh high'
      · exact ihl low'

end AddressTree

namespace AddressMap

def zipWith (f : α → β → γ) (s : AddressMap α) (t : AddressMap β) : AddressMap γ :=
  AddressTree.zipWith f s t

theorem get_zipWith (f : α → β → γ) (s : AddressMap α) (t : AddressMap β) (a : Word) :
    get (zipWith f s t) a = f (get s a) (get t a) :=
  AddressTree.get_zipWith f s t a.toNat

end AddressMap

end Zip

namespace Observer

/-- What either observer has noted. -/
def union (o p : Observer) : Observer :=
  ⟨Vector.zipWith Access.union o.regs p.regs,
    AddressMap.zipWith (Option.merge Access.union) o.mem p.mem⟩

section Union
variable (o p : Observer) (x : Access)

theorem reg_union (r : Reg) : (o.union p).reg r = (o.reg r).union (p.reg r) := by
  simp [union, reg]

theorem word_union (a : Word) : (o.union p).word a = (o.word a).union (p.word a) := by
  simp only [union, word, AddressMap.get_zipWith]
  cases AddressMap.get o.mem a <;> cases AddressMap.get p.mem a <;> simp [Option.merge]

theorem union_empty : o.union empty = o := by
  have regs : Vector.zipWith Access.union o.regs (Vector.replicate 8 .none) = o.regs := by
    ext i hi
    simp
  have mem : AddressMap.zipWith (Option.merge Access.union) o.mem (AddressMap.fill none) =
      o.mem := by
    refine AddressMap.ext fun a => ?_
    rw [AddressMap.get_zipWith, AddressMap.get_fill]
    cases AddressMap.get o.mem a <;> rfl
  rw [union, empty, regs, mem]

theorem union_noteReg (r : Reg) : o.union (p.noteReg r x) = (o.union p).noteReg r x := by
  have regs : Vector.zipWith Access.union o.regs
      (p.regs.set r.toNat ((p.reg r).union x) r.toNat_lt) =
      (Vector.zipWith Access.union o.regs p.regs).set r.toNat (((o.union p).reg r).union x)
        r.toNat_lt := by
    ext i hi
    by_cases h : r.toNat = i
    · subst h
      rw [reg_union, Access.union_assoc]
      simp [reg]
    · simp [h]
  rw [noteReg, noteReg, union, regs]
  rfl

theorem union_noteWord (a : Word) : o.union (p.noteWord a x) = (o.union p).noteWord a x := by
  have mem : AddressMap.zipWith (Option.merge Access.union) o.mem
      (p.mem.set a (some ((p.word a).union x))) =
      AddressMap.set (AddressMap.zipWith (Option.merge Access.union) o.mem p.mem) a
        (some (((o.union p).word a).union x)) := by
    refine AddressMap.ext fun b => ?_
    rw [AddressMap.get_zipWith, AddressMap.get_set, AddressMap.get_set, AddressMap.get_zipWith]
    by_cases h : b = a
    · rw [if_pos h, if_pos h, h, word_union, Access.union_assoc]
      cases noted : AddressMap.get o.mem a <;> simp [word, noted, Option.merge]
    · rw [if_neg h, if_neg h]
  rw [noteWord, noteWord, union, mem]
  rfl

end Union

end Observer

namespace Machine

/-- The machine with an observer that also shows what was noted before. -/
def remembering (m : Machine) (past : Observer) : Machine :=
  { m with observer := past.union m.observer }

theorem apply_remembering (past : Observer) (m : Machine) (e : Effect) :
    (m.remembering past).apply e = (m.apply e).remembering past := by
  have used : ((m.remembering past).useMemory e.memory).changeCalls e.calls =
      ((m.useMemory e.memory).changeCalls e.calls).remembering past := by
    cases e.memory <;> cases e.calls <;>
      simp only [useMemory, changeCalls, remembering, Observer.union_noteWord]
  simp only [apply, used]
  cases e.reg with
  | none => rfl
  | some write =>
    obtain ⟨r, v⟩ := write
    simp only [writeReg, remembering, Observer.union_noteReg]
    rfl

/-- To show the past as well can be done before a run or after it. -/
theorem commutes_remembering (past : Observer) : Commutes (·.remembering past) where
  core _ := rfl
  notes _ := rfl
  apply := apply_remembering past
  counted _ _ := rfl
  paused _ _ _ := rfl
  faulted _ _ _ := rfl

theorem kept_after {m s : Machine} {n : Nat} (h : m.after n = some s) :
    s.pause = m.pause ∧ s.notes = m.notes := by
  refine after_invariant (I := fun t => t.pause = m.pause ∧ t.notes = m.notes) ?_ h ⟨rfl, rfl⟩
  rintro t t' next ⟨pause, notes⟩
  have ledger := ledger_step next
  have pause' : t'.pause = t.pause := congrArg Ledger.pause ledger
  have notes' : t'.notes = t.notes := congrArg Ledger.notes ledger
  exact ⟨pause'.trans pause, notes'.trans notes⟩

section Limit
variable {m s : Machine} {a n : Nat} {o p : Outcome} {c : StopCause}

abbrev below (n : Nat) : Condition :=
  fun k _ => k < n

/-- No run passes its limit. -/
theorem Stops.le_limit (stops : Stops (below n) m s c o) : o.steps ≤ n := by
  rcases Nat.eq_zero_or_pos o.steps with none | some
  · omega
  · obtain ⟨_, _, on, _⟩ := stops.passes (o.steps - 1) (by omega)
    have on : 0 + (o.steps - 1) < n := of_decide_eq_true on
    omega

/-- A run that its condition ended has used its limit up. -/
theorem Stops.eq_limit (stops : Stops (below n) m s .condition o) : o.steps = n := by
  have le := stops.le_limit
  have off : ¬ o.steps < n := of_decide_eq_false (off_of_stopCause? stops.cause)
  omega

/-- From its limit a run goes on to where one limit for both parts lets it come. -/
theorem runLimit_add (ends : m.runLimit a = some p) (done : p.Completed) (b : Nat) :
    m.runLimit (a + b) = (p.machine.runLimit b).map fun q =>
      (q.map (·.remembering p.machine.observer)).later a := by
  obtain ⟨s, c, stops⟩ := exists_runWhile_iff.mp ⟨_, ends⟩
  obtain rfl := stops.completed_iff.mp done
  have steps : p.steps = a := stops.eq_limit
  have arrives : m.begin.after a = some s := steps ▸ stops.arrives
  have fresh : a ≠ 0 → s.notes.isBreakpoint s.pc = false :=
    steps ▸ fresh_of_stopCause? stops.cause nofun
  have passes : Passes (below (a + b)) 0 a m.begin := by
    intro j hj
    obtain ⟨t, there, -, passes⟩ := stops.passes j (steps ▸ hj)
    have less : 0 + j < a + b := by omega
    exact ⟨t, there, decide_eq_true less, passes⟩
  have same : s = p.machine.begin.remembering p.machine.observer := by
    have quiet : s.pause = .none := (kept_after arrives).1
    rw [stops.left, remembering, begin, Observer.union_empty]
    simp only [StopCause.outcome, StopCause.status, ← quiet]
  have shorter : (fun j => below (a + b) (a + j)) = below b := by
    funext j t
    exact decide_eq_decide.mpr (Nat.add_lt_add_iff_left)
  calc m.runLimit (a + b)
    _ = runFrom (below (a + b)) (a + (b + 1)) 0 m.begin := rfl
    _ = runFrom (below (a + b)) (b + 1) (0 + a) s := runFrom_of_passes passes arrives fresh _
    _ = (runFrom (below b) (b + 1) 0 s).map (·.later a) := by
      rw [Nat.zero_add, ← shorter]
      exact runFrom_later _ _ a 0 s
    _ = ((p.machine.runLimit b).map (·.map (·.remembering p.machine.observer))).map
          (·.later a) := by
      rw [same]
      exact congrArg _ ((commutes_remembering _).runFrom (fun _ _ => rfl) (b + 1) 0 _)
    _ = _ := Option.map_map ..

end Limit

/-- Steps one after the other, as many as are asked for or up to a fault. -/
def stepsIn : Nat → Machine → Outcome
  | 0, m => ⟨m, 0, none⟩
  | n + 1, m =>
    if m.stepIn.fault.isSome then m.stepIn
    else (stepsIn n m.stepIn.machine).later m.stepIn.steps

section StepsIn
variable {m : Machine} {n : Nat} {o : Outcome}

/-- On a machine that a step leaves as it is, further steps leave it so. -/
theorem stepsIn_of_rest (rests : m.stepIn = ⟨m, 0, none⟩) (n : Nat) :
    m.stepsIn n = ⟨m, 0, none⟩ := by
  induction n with
  | zero => rfl
  | succ n ih =>
    rw [stepsIn, rests]
    simp only [Option.isSome_none, Bool.false_eq_true, if_false, ih]
    rfl

/-- On a machine that has halted, any steps do what one does. -/
theorem stepsIn_of_halt (halted : m.begin.step = .halt) (n : Nat) :
    m.stepsIn (n + 1) = m.begin.paused 0 .halt := by
  have first : m.stepIn = m.begin.paused 0 .halt := by rw [stepIn, halted]
  have again : m.stepIn.machine.stepIn = ⟨m.stepIn.machine, 0, none⟩ := by
    have halted' : m.stepIn.machine.begin.step = .halt := by
      have same : (m.begin.paused 0 .halt).machine.begin.core = m.begin.core := rfl
      rw [first]
      exact step_halt_congr same halted
    rw [stepIn, halted', first]
    rfl
  rw [stepsIn, stepsIn_of_rest again, first]
  rfl

/-- A run that does not stop at a breakpoint does what as many steps do. -/
theorem stepsIn_of_runLimit (ends : m.runLimit n = some o)
    (unbroken : o.machine.hitBreakpoint = false) :
    (m.stepsIn n).fault = o.fault ∧ (m.stepsIn n).steps = o.steps ∧
      (m.stepsIn n).machine = { o.machine with
        observer := (m.stepsIn n).machine.observer, pause := (m.stepsIn n).machine.pause } ∧
      (n ≠ 0 → (m.stepsIn n).machine.pause = o.machine.pause) := by
  induction n generalizing m o with
  | zero =>
    obtain rfl := Option.some.inj ends
    exact ⟨rfl, rfl, rfl, fun some => absurd rfl some⟩
  | succ n ih =>
    cases next : m.begin.step with
    | halt =>
      have left : m.runLimit (n + 1) = some (m.begin.paused 0 .halt) := by
        simp [runLimit, runWhile, runFrom, next]
      obtain rfl := Option.some.inj (left.symm.trans ends)
      rw [stepsIn_of_halt next]
      exact ⟨rfl, rfl, rfl, fun _ => rfl⟩
    | fault f there =>
      obtain rfl := eq_of_step_fault next
      have left : m.runLimit (n + 1) = some (m.begin.faulted 0 f) := by
        simp [runLimit, runWhile, runFrom, next]
      have first : m.stepIn = m.begin.faulted 0 f := by rw [stepIn, next]
      obtain rfl := Option.some.inj (left.symm.trans ends)
      rw [stepsIn, first]
      exact ⟨rfl, rfl, rfl, fun _ => rfl⟩
    | next s =>
      -- A breakpoint after the first step would have ended the run there.
      have miss : s.notes.isBreakpoint s.pc = false := by
        cases hit : s.notes.isBreakpoint s.pc with
        | false => rfl
        | true =>
          have left : m.runLimit (n + 1) = some (s.paused 1 .breakpoint) := by
            simp [runLimit, runWhile, runFrom, next, hit]
          obtain rfl := Option.some.inj (left.symm.trans ends)
          cases unbroken
      have first : m.stepIn = s.paused 1 .none := by rw [stepIn, next]
      have limited : m.runLimit 1 = some (s.paused 1 .none) := by
        simp [runLimit, runWhile, runFrom, next, miss]
      rw [Nat.add_comm, runLimit_add limited ⟨rfl, rfl, rfl⟩ n] at ends
      obtain ⟨q, rest, rfl⟩ := Option.map_eq_some_iff.mp ends
      obtain ⟨fault, steps, machine, pause⟩ := ih rest unbroken
      have both : m.stepsIn (n + 1) = ((s.paused 1 .none).machine.stepsIn n).later 1 := by
        rw [stepsIn, first]
        rfl
      rw [both]
      refine ⟨fault, congrArg (1 + ·) steps, ?_, ?_⟩
      · simp only [Outcome.later]
        rw [machine]
        rfl
      · intro _
        cases n with
        | zero =>
          obtain rfl := Option.some.inj rest
          rfl
        | succ n => exact pause (Nat.succ_ne_zero n)

end StepsIn

/-- A run with a limit returns, after no more instructions than the limit and with fewer only where
it has stopped for another cause. The limit may be taken as a distance of the count, which goes
round. A run that stopped at its limit can go on to where a single run with both limits ends, but
for the observers, which the single one unites. If the run comes to no breakpoint, as many steps
leave the same machine apart from the observer; with no step at all, the old pause stays. -/
theorem runLimit_exact (m : Machine) :
    (∀ (limit : BitVec 64) (fuel : Nat), limit.toNat < fuel →
      m.runWhile (fun _ s => (s.count - m.count).ult limit) fuel = m.runLimit limit.toNat) ∧
    (∀ n, ∃ o, m.runLimit n = some o ∧
      let xs := (Operation.runLimit n).executed 0 m
      Linked m xs o.machine ∧ xs.length = o.steps ∧ o.steps ≤ n ∧
      o.machine.count = m.count + BitVec.ofNat 64 o.steps ∧
      (o.steps < n → o.fault.isSome ∨ o.machine.hitHalt = true ∨
        o.machine.hitBreakpoint = true)) ∧
    (∀ a b p, m.runLimit a = some p → p.Completed →
      m.runLimit (a + b) = (p.machine.runLimit b).map fun q =>
        ⟨{ q.machine with observer := p.machine.observer.union q.machine.observer },
          a + q.steps, q.fault⟩) ∧
    (∀ n o, m.runLimit n = some o →
      (∀ x ∈ (Operation.runLimit n).executed 0 m, m.notes.isBreakpoint x.after.pc = false) →
      let p := m.stepsIn n
      p.fault = o.fault ∧ p.steps = o.steps ∧
        p.machine = { o.machine with
          observer := p.machine.observer, pause := p.machine.pause } ∧
        (n ≠ 0 → p.machine.pause = o.machine.pause)) := by
  refine ⟨?_, ?_, ?_, ?_⟩
  · intro limit fuel enough
    exact runWhile_count_eq_runLimit m enough
  · intro n
    obtain ⟨o, ends⟩ := Option.ne_none_iff_exists'.mp (runLimit_ne_none n m)
    obtain ⟨s, c, stops⟩ := exists_runWhile_iff.mp ⟨_, ends⟩
    have counted : o.machine.count = m.count + BitVec.ofNat 64 o.steps := by
      have counted := count_after stops.arrives
      rw [stops.left]
      exact counted
    have performed : (Operation.runLimit n).perform 0 m = some o := ends
    refine ⟨o, ends, linked_of_perform performed, length_executed performed, stops.le_limit,
      counted, fun less => ?_⟩
    cases c with
    | condition => exact absurd stops.eq_limit (Nat.ne_of_lt less)
    | fault f =>
      rw [stops.left]
      exact .inl rfl
    | halt =>
      rw [stops.left]
      exact .inr (.inl rfl)
    | breakpoint =>
      rw [stops.left]
      exact .inr (.inr rfl)
  · intro a b p ends done
    exact runLimit_add ends done b
  · intro n o ends unmarked
    refine stepsIn_of_runLimit ends ?_
    obtain ⟨s, c, stops⟩ := exists_runWhile_iff.mp ⟨_, ends⟩
    cases c with
    | breakpoint =>
      obtain ⟨moved, hit⟩ := marked_of_stopCause? stops.cause
      obtain ⟨x, hx, rfl⟩ := (mem_trace_iff stops.arrives s).mpr
        ⟨o.steps, Nat.pos_of_ne_zero moved, Nat.le_refl _, stops.arrives⟩
      have performed : (Operation.runLimit n).perform 0 m = some o := ends
      rw [← executed_eq_trace rfl performed] at hx
      have notes : x.after.notes = m.notes := (kept_after stops.arrives).2
      rw [notes, unmarked x hx] at hit
      cases hit
    | condition | halt | fault =>
      rw [stops.left]
      rfl

/-- A run whose count goes round with its first instruction, and which halts before its limit. -/
theorem runLimit_exact_last_count :
    let m := { new .none with
      count := BitVec.allOnes 64
      mem := Memory.zero.copyBlock 0x8200 [0x9203, 0x6440, 0xF0FF] }
    m.runWhile (fun _ s => (s.count - m.count).ult 5) 6 = m.runLimit 5 ∧
    (∃ p q, m.runLimit 1 = some p ∧ p.Completed ∧ p.machine.count = 0 ∧
      p.machine.runLimit 4 = some q ∧ q.steps = 2 ∧ m.runLimit 5 = some
        ⟨{ q.machine with observer := p.machine.observer.union q.machine.observer }, 3, none⟩) ∧
    (m.stepsIn 5).steps = 3 ∧ (m.stepsIn 5).machine.hitHalt = true ∧
      (m.stepsIn 5).machine.count = 2 := by
  intro m
  obtain ⟨counted, -, added, stepped⟩ := runLimit_exact m
  refine ⟨counted 5 6 (by decide), ?_, ?_⟩
  · have seen : (m.runLimit 1).map (fun p => (p.fault, p.machine.pause, p.machine.count)) =
        some (none, .none, 0) := by decide +kernel
    have seen' : (m.runLimit 5).map (fun o => (o.steps, o.fault)) = some (3, none) := by
      decide +kernel
    obtain ⟨p, first, seen⟩ := Option.map_eq_some_iff.mp seen
    simp only [Prod.mk.injEq] at seen
    obtain ⟨fault, pause, count⟩ := seen
    have done : p.Completed := Outcome.completed_iff.mpr ⟨fault, pause⟩
    have both := added 1 4 p first done
    rw [both, Option.map_map] at seen'
    obtain ⟨q, rest, seen'⟩ := Option.map_eq_some_iff.mp seen'
    obtain ⟨steps, fault'⟩ := Prod.mk.inj seen'
    have steps : 1 + q.steps = 3 := steps
    have fault' : q.fault = none := fault'
    rw [rest, Option.map_some, steps, fault'] at both
    exact ⟨p, q, first, done, count, rest, by omega, both⟩
  · have seen : (m.runLimit 5).map (fun o => (o.steps, o.machine.pause, o.machine.count)) =
        some (3, .halt, 2) := by decide +kernel
    obtain ⟨o, ends, seen⟩ := Option.map_eq_some_iff.mp seen
    simp only [Prod.mk.injEq] at seen
    obtain ⟨steps, pause, count⟩ := seen
    have unmarked : ∀ x ∈ (Operation.runLimit 5).executed 0 m,
        m.notes.isBreakpoint x.after.pc = false := by decide +kernel
    obtain ⟨_, steps', machine, pause'⟩ := stepped 5 o ends unmarked
    refine ⟨steps'.trans steps, ?_, ?_⟩
    · rw [hitHalt, pause' (by decide), pause]
      rfl
    · rw [machine]
      exact count

end Machine

end Lc4
