import Lc4.Machine.Run
import Lc4.Proofs.Trace

/-!
# How runs end

`Ends` says how a run ends without speaking of fuel: it has one rule for each reason to stop and
one for a step. What holds of all runs is proved by induction on it.
-/
namespace Lc4

namespace Machine

/-- How a run that is at `m` after `k` instructions ends. -/
inductive Ends (go : Condition) : Nat → Machine → Outcome → Prop
  | condition {k : Nat} {m : Machine} (off : go k m = false) : Ends go k m (m.paused k .none)
  | halt {k : Nat} {m : Machine} (on : go k m = true) (h : m.step = .halt) :
      Ends go k m (m.paused k .halt)
  | fault {k : Nat} {m : Machine} {f : Fault} (on : go k m = true) (h : m.step = .fault f m) :
      Ends go k m (m.faulted k f)
  | breakpoint {k : Nat} {m s : Machine} (on : go k m = true) (h : m.step = .next s)
      (hit : s.notes.isBreakpoint s.pc = true) : Ends go k m (s.paused (k + 1) .breakpoint)
  | next {k : Nat} {m s : Machine} {o : Outcome} (on : go k m = true) (h : m.step = .next s)
      (miss : s.notes.isBreakpoint s.pc = false) (rest : Ends go (k + 1) s o) : Ends go k m o

/-- The outcome leaves `m`, which was reached after `k` instructions, as `s` apart from pause and
status. A fault is the one that the next step of `s` meets. -/
structure Arrives (k : Nat) (m : Machine) (o : Outcome) (s : Machine) : Prop where
  steps : m.after (o.steps - k) = some s
  machine : o.machine = { s with pause := o.machine.pause, status := o.machine.status }
  fault : ∀ f, o.fault = some f → s.step = .fault f s ∧ o = s.faulted o.steps f

theorem Arrives.core {k : Nat} {m s : Machine} {o : Outcome} (h : Arrives k m o s) :
    o.machine.core = s.core := by
  rw [h.machine]
  rfl

section Loop
variable {go : Condition} {fuel k : Nat} {m : Machine} {o : Outcome}

/-- A run that its fuel finishes ends by one of the rules. The induction is on the fuel, with one
rule for each way the loop goes on. -/
theorem ends_of_runFrom (h : runFrom go fuel k m = some o) : Ends go k m o := by
  induction fuel generalizing k m with
  | zero => simp [runFrom] at h
  | succ fuel ih =>
    rw [runFrom] at h
    split at h
    · rename_i on
      cases hs : m.step with
      | halt =>
        simp only [hs, Option.some.injEq] at h
        exact h ▸ .halt on hs
      | fault f left =>
        obtain rfl := eq_of_step_fault hs
        simp only [hs, Option.some.injEq] at h
        exact h ▸ .fault on hs
      | next s =>
        simp only [hs] at h
        split at h
        · rename_i hit
          exact Option.some.inj h ▸ .breakpoint on hs hit
        · rename_i miss
          exact .next on hs (by simpa using miss) (ih h)
    · rename_i off
      exact Option.some.inj h ▸ .condition (by simpa using off)

/-- A run that its fuel does not finish has run one instruction for each unit of it. -/
theorem after_of_runFrom_eq_none (h : runFrom go fuel k m = none) :
    (∃ s, m.after fuel = some s) ∧ ∀ j < fuel, ∃ t, go (k + j) t = true := by
  induction fuel generalizing k m with
  | zero => exact ⟨⟨m, rfl⟩, by omega⟩
  | succ fuel ih =>
    rw [runFrom] at h
    split at h
    · rename_i on
      cases hs : m.step with
      | halt => simp [hs] at h
      | fault f left => simp [hs] at h
      | next s =>
        simp only [hs] at h
        split at h
        · simp at h
        · obtain ⟨arrives, ons⟩ := ih h
          refine ⟨by simpa only [after, hs] using arrives, ?_⟩
          rintro (_ | j) hj
          · exact ⟨m, on⟩
          · obtain ⟨t, ht⟩ := ons j (by omega)
            exact ⟨t, by rwa [Nat.add_assoc, Nat.add_comm 1 j] at ht⟩
    · simp at h

/-- The fuel of a limited run is its limit, which it cannot pass without the condition failing. -/
theorem runLimit_ne_none (n : Nat) (m : Machine) : m.runLimit n ≠ none := by
  intro h
  obtain ⟨_, ons⟩ := after_of_runFrom_eq_none h
  obtain ⟨t, ht⟩ := ons n (by omega)
  simp at ht

/-- The count of a run only grows. -/
theorem Ends.le_steps (h : Ends go k m o) : k ≤ o.steps := by
  induction h with
  | condition | halt | fault => exact Nat.le_refl _
  | breakpoint => exact Nat.le_succ _
  | next _ _ _ _ ih => omega

/-- However a run ends, there is a machine that its steps led to, and the end adds to it no more
than the marks of a pause or a fault. -/
theorem Ends.arrives (h : Ends go k m o) : ∃ s, Arrives k m o s := by
  induction h with
  | @condition k m | @halt k m =>
    exact ⟨m, by simp [paused, after], rfl, by simp [paused]⟩
  | @fault k m f _ h =>
    refine ⟨m, by simp [faulted, after], rfl, ?_⟩
    intro g hg
    obtain rfl := Option.some.inj hg
    exact ⟨h, rfl⟩
  | @breakpoint k m s _ h =>
    exact ⟨s, by simp [paused, after, h], rfl, by simp [paused]⟩
  | @next k m s o _ h _ rest ih =>
    obtain ⟨t, ih⟩ := ih
    have longer : o.steps - k = o.steps - (k + 1) + 1 := by
      have := rest.le_steps
      omega
    refine ⟨t, ?_, ih.machine, ih.fault⟩
    simpa only [longer, after, h] using ih.steps

theorem stepIn_arrives (m : Machine) : ∃ s, Arrives 0 m.begin m.stepIn s := by
  cases hs : m.begin.step with
  | halt =>
    refine ⟨m.begin, ?_, ?_, ?_⟩ <;> simp [stepIn, hs, paused, after]
  | next s =>
    refine ⟨s, ?_, ?_, ?_⟩ <;> simp [stepIn, hs, paused, after]
  | fault f left =>
    obtain rfl := eq_of_step_fault hs
    refine ⟨m.begin, ?_, ?_, ?_⟩ <;> simp [stepIn, hs, faulted, after]

end Loop

end Machine

end Lc4
