import Lc4.Proofs.Effect

/-!
# Instructions in a row

`after` takes steps in a row and `trace` lists the instructions that these steps run. In a `Linked`
list each instruction passes its checks and has its effect, and it starts from the core that the
one before it left; the list may mix instructions from memory with ones from the user.
-/
namespace Lc4

/-- One instruction that ran, between two machines. -/
structure Executed where
  before : Machine
  instr : Instr
  after : Machine
  /-- Whether the instruction was read from memory. -/
  fetched : Bool

structure Executed.Valid (x : Executed) : Prop where
  checked : x.before.checkPc = .ok ()
  carriedOut : ∃ e, x.before.effect x.instr = .ok e ∧ x.after.core = (x.before.apply e).core
  origin : x.fetched = true → x.instr = x.before.fetch

/-- What a valid instruction leaves of the core, part by part. -/
theorem Executed.Valid.core {x : Executed} (valid : x.Valid) : ∃ e,
    x.before.effect x.instr = .ok e ∧ x.after.core = ⟨e.memory.after x.before.mem,
      e.regsAfter x.before.regs, e.pc, e.psrAfter x.before.psr, e.calls.after x.before.calls,
      x.before.flags⟩ := by
  obtain ⟨e, he, core⟩ := valid.carriedOut
  exact ⟨e, he, core.trans (Machine.core_apply x.before e)⟩

theorem Executed.Valid.flags {x : Executed} (valid : x.Valid) :
    x.after.flags = x.before.flags := by
  obtain ⟨e, _, core⟩ := valid.core
  exact congrArg Core.flags core

/-- What goes to the address in the link register, and writes no register, finds it there still. -/
theorem Executed.Valid.link_of_effect {x : Executed} (valid : x.Valid)
    (goes : ∀ e, x.before.effect x.instr = .ok e → e.pc = x.before.reg .link ∧ e.reg = none) :
    x.after.pc = x.after.reg .link := by
  obtain ⟨e, he, core⟩ := valid.core
  obtain ⟨target, unwritten⟩ := goes e he
  have pc : x.after.pc = e.pc := congrArg Core.pc core
  have regs : x.after.regs = e.regsAfter x.before.regs := congrArg Core.regs core
  rw [pc, target, Machine.reg, Machine.reg, regs, Effect.regsAfter, unwritten]

inductive Linked : Machine → List Executed → Machine → Prop
  | nil {m s : Machine} (same : s.core = m.core) : Linked m [] s
  | cons {m s : Machine} {x : Executed} {xs : List Executed} (same : x.before.core = m.core)
      (valid : x.Valid) (rest : Linked x.after xs s) : Linked m (x :: xs) s

theorem Linked.weaken {m n s : Machine} {xs : List Executed} (h : Linked m xs s)
    (same : m.core = n.core) : Linked n xs s := by
  cases h with
  | nil same' => exact .nil (same'.trans same)
  | cons same' valid rest => exact .cons (same'.trans same) valid rest

/-- Instructions in a row may be followed by more that start from the core they leave. -/
theorem Linked.append {m s t : Machine} {xs ys : List Executed} (first : Linked m xs s)
    (last : Linked s ys t) : Linked m (xs ++ ys) t := by
  induction first with
  | nil same => exact last.weaken same
  | cons same valid _ ih => exact .cons same valid (ih last)

/-- What holds of a core and is kept by every instruction of a list holds between all of them. -/
theorem Linked.invariant {I : Core → Prop} {m s : Machine} {xs : List Executed}
    (h : Linked m xs s) (start : I m.core)
    (kept : ∀ x ∈ xs, x.Valid → I x.before.core → I x.after.core) :
    I s.core ∧ ∀ x ∈ xs, x.Valid ∧ I x.before.core ∧ I x.after.core := by
  induction h with
  | nil same =>
    rw [same]
    exact ⟨start, by simp⟩
  | @cons m s x xs same valid _ ih =>
    have before : I x.before.core := by rwa [same]
    have after := kept x List.mem_cons_self valid before
    obtain ⟨last, all⟩ := ih after fun y hy => kept y (List.mem_cons_of_mem x hy)
    refine ⟨last, ?_⟩
    intro y hy
    rcases List.mem_cons.mp hy with rfl | hy
    · exact ⟨valid, before, after⟩
    · exact all y hy

theorem Linked.valid {m s : Machine} {xs : List Executed} (h : Linked m xs s) :
    ∀ x ∈ xs, x.Valid := by
  intro x hx
  exact ((h.invariant (I := fun _ => True) trivial fun _ _ _ _ => trivial).2 x hx).1

/-- What a single instruction changes, its list changes. -/
theorem Linked.ne_of_length_le_one {α : Type} {m s : Machine} {xs : List Executed}
    (h : Linked m xs s) (single : xs.length ≤ 1) (part : Core → α) {x : Executed} (hx : x ∈ xs)
    (differs : part x.after.core ≠ part x.before.core) : part s.core ≠ part m.core := by
  cases h with
  | nil => cases hx
  | @cons _ _ y ys first _ rest =>
    obtain rfl : ys = [] := by
      rw [List.length_cons] at single
      exact List.length_eq_zero_iff.mp (by omega)
    obtain rfl := List.mem_singleton.mp hx
    cases rest with
    | nil last => rwa [last, ← first]

/-- What a list of instructions changes, one of them changes. -/
theorem Linked.exists_ne {α : Type} {m s : Machine} {xs : List Executed} (h : Linked m xs s)
    (part : Core → α) (differs : part s.core ≠ part m.core) :
    ∃ x ∈ xs, x.Valid ∧ part x.after.core ≠ part x.before.core := by
  refine Classical.byContradiction fun none => differs ?_
  refine (h.invariant (I := fun c => part c = part m.core) rfl ?_).1
  intro x hx valid before
  refine Classical.byContradiction fun after => none ⟨x, hx, valid, ?_⟩
  exact fun same => after (same.trans before)

namespace Machine

section Steps
variable {m n m' : Machine} {i : Instr} {f : Fault}

/-- On machines with one core an instruction runs alike, and leaves one core again. -/
theorem execute_congr (same : n.core = m.core) (h : m.execute i = .ok m') :
    ∃ n', n.execute i = .ok n' ∧ n'.core = m'.core := by
  obtain ⟨checked, e, he, rfl⟩ := execute_eq_ok_iff.mp h
  refine ⟨n.apply e, execute_eq_ok_iff.mpr ⟨?_, e, ?_, rfl⟩, core_apply_congr same e⟩
  · exact (checkPc_congr same).trans checked
  · exact (effect_congr same i).trans he

theorem execute_error_congr (same : n.core = m.core) (h : m.execute i = .error f) :
    n.execute i = .error f := by
  rw [execute_eq] at h ⊢
  rw [checkPc_congr same, effect_congr same i]
  cases found : m.checkPc >>= fun _ => m.effect i with
  | error g =>
    rw [found] at h
    cases h
    rfl
  | ok e =>
    rw [found] at h
    cases h

theorem step_eq_halt_iff : m.step = .halt ↔ m.pc = haltAddr := by
  rw [step_eq]
  split
  · simp_all
  · split <;> simp_all

/-- A step that meets a fault leaves the machine as it was. -/
theorem eq_of_step_fault {left : Machine} (h : m.step = .fault f left) : m = left := by
  rw [step_eq] at h
  split at h
  · cases h
  · split at h
    · cases h
    · exact (StepResult.fault.inj h).2

/-- A step meets the fault of its instruction, and this only if the machine has not halted. It
leaves the machine that it was taken on. -/
theorem step_eq_fault_iff :
    m.step = .fault f m ↔ m.pc ≠ haltAddr ∧ m.execute m.fetch = .error f := by
  rw [step_eq]
  split
  · simp_all
  · split <;> simp_all

/-- A step that runs an instruction adds to what the instruction does no more than the count and the
status. -/
theorem step_eq_next_iff : m.step = .next m' ↔ m.pc ≠ haltAddr ∧
    ∃ s, m.execute m.fetch = .ok s ∧ { s with count := m.count + 1, status := .running } = m' := by
  rw [step_eq]
  split
  · simp_all
  · split <;> simp_all

theorem ledger_step (h : m.step = .next m') :
    m'.ledger = { m.ledger with count := m.count + 1, status := .running } := by
  obtain ⟨_, s, hs, rfl⟩ := step_eq_next_iff.mp h
  obtain ⟨_, e, _, rfl⟩ := execute_eq_ok_iff.mp hs
  have kept := Ledger.mk.inj (ledger_apply m e)
  simp only [ledger, Ledger.mk.injEq, true_and]
  exact kept.2.2

theorem pc_congr (same : n.core = m.core) : n.pc = m.pc :=
  (Core.mk.inj same).2.2.1

theorem fetch_congr (same : n.core = m.core) : n.fetch = m.fetch := by
  have mem : n.mem = m.mem := (Core.mk.inj same).1
  rw [fetch, fetch, mem, pc_congr same]

/-- A step depends on the core only. -/
theorem step_congr (same : n.core = m.core) (h : m.step = .next m') :
    ∃ n', n.step = .next n' ∧ n'.core = m'.core := by
  obtain ⟨awake, s, hs, rfl⟩ := step_eq_next_iff.mp h
  obtain ⟨t, ht, core⟩ := execute_congr same hs
  have running : n.execute n.fetch = .ok t := fetch_congr same ▸ ht
  exact ⟨_, step_eq_next_iff.mpr ⟨pc_congr same ▸ awake, t, running, rfl⟩, core⟩

theorem step_halt_congr (same : n.core = m.core) (h : m.step = .halt) : n.step = .halt := by
  rw [step_eq_halt_iff] at h ⊢
  exact (pc_congr same).trans h

/-- What a step meets depends on the core alone, so a fault is met again wherever the core is the
same. -/
theorem step_fault_congr (same : n.core = m.core) (h : m.step = .fault f m) :
    n.step = .fault f n := by
  obtain ⟨awake, he⟩ := step_eq_fault_iff.mp h
  have refused : n.execute n.fetch = .error f := fetch_congr same ▸ execute_error_congr same he
  exact step_eq_fault_iff.mpr ⟨pc_congr same ▸ awake, refused⟩

/-- An instruction that runs is valid between any two machines with the cores it ran between. -/
theorem valid_of_execute {s : Machine} {fetched : Bool} (h : m.execute i = .ok s)
    (same : m'.core = s.core) (origin : fetched = true → i = m.fetch) :
    Executed.Valid ⟨m, i, m', fetched⟩ := by
  obtain ⟨checked, e, he, rfl⟩ := execute_eq_ok_iff.mp h
  exact ⟨checked, ⟨e, he, same⟩, origin⟩

end Steps

/-- The machine after a number of steps, if all of them run an instruction. -/
def after : (k : Nat) → Machine → Option Machine
  | 0, m => some m
  | k + 1, m =>
    match m.step with
    | .next m' => after k m'
    | .halt | .fault _ _ => none

theorem after_succ {k : Nat} {m m' : Machine} (h : m.step = .next m') :
    m.after (k + 1) = m'.after k := by
  rw [after, h]

theorem exists_next_of_after {k : Nat} {m s : Machine} (h : m.after (k + 1) = some s) :
    ∃ m', m.step = .next m' ∧ m'.after k = some s := by
  cases next : m.step with
  | halt | fault => simp [after, next] at h
  | next m' => exact ⟨m', rfl, (after_succ next).symm.trans h⟩

/-- What every step keeps, steps in a row keep. -/
theorem after_invariant {I : Machine → Prop} {k : Nat} {m s : Machine}
    (kept : ∀ t t', t.step = .next t' → I t → I t') (h : m.after k = some s) (start : I m) :
    I s := by
  induction k generalizing m with
  | zero =>
    obtain rfl := Option.some.inj h
    exact start
  | succ k ih =>
    obtain ⟨m', next, rest⟩ := exists_next_of_after h
    exact ih rest (kept m m' next start)

/-- The instructions that the next steps run. -/
def trace : (k : Nat) → Machine → List Executed
  | 0, _ => []
  | k + 1, m =>
    match m.step with
    | .next m' => ⟨m, m.fetch, m', true⟩ :: trace k m'
    | .halt | .fault _ _ => []

/-- The instructions that steps in a row run are linked, from the first machine to the last. -/
theorem linked_trace {k : Nat} {m s : Machine} (h : m.after k = some s) :
    Linked m (m.trace k) s := by
  induction k generalizing m with
  | zero =>
    obtain rfl := Option.some.inj h
    exact .nil rfl
  | succ k ih =>
    obtain ⟨m', hs, rest⟩ := exists_next_of_after h
    simp only [trace, hs]
    obtain ⟨_, t, ht, rfl⟩ := step_eq_next_iff.mp hs
    exact .cons rfl (valid_of_execute ht rfl fun _ => rfl) (ih rest)

theorem length_trace {k : Nat} {m s : Machine} (h : m.after k = some s) :
    (m.trace k).length = k := by
  induction k generalizing m with
  | zero => rfl
  | succ k ih =>
    obtain ⟨m', hs, rest⟩ := exists_next_of_after h
    simp only [trace, hs, List.length_cons, ih rest]

theorem exists_last_of_after {k : Nat} {m t : Machine} (h : m.after (k + 1) = some t) :
    ∃ s, m.after k = some s ∧ s.step = .next t := by
  induction k generalizing m with
  | zero =>
    obtain ⟨m', next, rest⟩ := exists_next_of_after h
    obtain rfl := Option.some.inj rest
    exact ⟨m, rfl, next⟩
  | succ k ih =>
    obtain ⟨m', next, rest⟩ := exists_next_of_after h
    obtain ⟨s, arrives, last⟩ := ih rest
    exact ⟨s, (after_succ next).trans arrives, last⟩

/-- A trace grows at its end by the instruction of the last step. -/
theorem trace_concat {k : Nat} {m s t : Machine} (arrives : m.after k = some s)
    (last : s.step = .next t) : m.trace (k + 1) = m.trace k ++ [⟨s, s.fetch, t, true⟩] := by
  induction k generalizing m with
  | zero =>
    obtain rfl := Option.some.inj arrives
    simp only [trace, last, List.nil_append]
  | succ k ih =>
    obtain ⟨m', next, rest⟩ := exists_next_of_after arrives
    rw [trace, trace, next]
    exact congrArg (⟨m, m.fetch, m', true⟩ :: ·) (ih rest)

/-- The machines that the instructions of a trace leave are those after one step, two and so on. -/
theorem mem_trace_iff {k : Nat} {m s : Machine} (arrives : m.after k = some s) (t : Machine) :
    (∃ x ∈ m.trace k, x.after = t) ↔ ∃ j, 0 < j ∧ j ≤ k ∧ m.after j = some t := by
  induction k generalizing s with
  | zero =>
    constructor
    · rintro ⟨x, hx, _⟩
      cases hx
    · rintro ⟨j, _, _, _⟩
      omega
  | succ k ih =>
    obtain ⟨r, earlier, last⟩ := exists_last_of_after arrives
    rw [trace_concat earlier last]
    constructor
    · rintro ⟨x, hx, rfl⟩
      rcases List.mem_append.mp hx with hx | hx
      · obtain ⟨j, moved, le, there⟩ := (ih earlier).mp ⟨x, hx, rfl⟩
        exact ⟨j, moved, Nat.le_succ_of_le le, there⟩
      · obtain rfl := List.mem_singleton.mp hx
        exact ⟨k + 1, Nat.succ_pos k, Nat.le_refl _, arrives⟩
    · rintro ⟨j, moved, le, there⟩
      rcases Nat.le_succ_iff.mp le with le | rfl
      · obtain ⟨x, hx, rfl⟩ := (ih earlier).mpr ⟨j, moved, le, there⟩
        exact ⟨x, List.mem_append_left _ hx, rfl⟩
      · obtain rfl := Option.some.inj (arrives.symm.trans there)
        exact ⟨_, List.mem_append_right _ List.mem_cons_self, rfl⟩

/-- All instructions of a trace but its last leave a machine that a later step starts from. -/
theorem forall_mem_dropLast_trace_iff {k : Nat} {m s : Machine} {P : Machine → Prop}
    (arrives : m.after k = some s) : (∀ x ∈ (m.trace k).dropLast, P x.after) ↔
      ∀ j t, 0 < j → j < k → m.after j = some t → P t := by
  cases k with
  | zero => exact ⟨fun _ j t _ h => absurd h (Nat.not_lt_zero j), fun _ x hx => nomatch hx⟩
  | succ k =>
    obtain ⟨r, earlier, last⟩ := exists_last_of_after arrives
    rw [trace_concat earlier last, List.dropLast_concat]
    constructor
    · intro all j t positive less there
      obtain ⟨x, hx, rfl⟩ :=
        (mem_trace_iff earlier t).mpr ⟨j, positive, Nat.le_of_lt_succ less, there⟩
      exact all x hx
    · intro all x hx
      obtain ⟨j, positive, le, there⟩ := (mem_trace_iff earlier x.after).mp ⟨x, hx, rfl⟩
      exact all j x.after positive (Nat.lt_succ_of_le le) there

end Machine

end Lc4
