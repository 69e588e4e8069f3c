import Lc4.Proofs.Loading
import Lc4.Proofs.Lockstep
import Lc4.Proofs.Sessions

/-!
# Stacks of calls

The depth of a machine counts calls and, if frames are kept, so does the list of them. Calls push,
returns pop, and nothing else moves either, so what lies below a call is what it finds again when it
has returned. The frames are for the user to look at: no instruction asks for them.
-/
namespace Lc4

/-- The kind of an instruction that calls. -/
def Instr.call? : Instr → Option CallKind
  | jsr _ => some .subroutine
  | trap _ => some .trap
  | _ => none

/-- A jump through the link register returns, too. -/
def Instr.returns : Instr → Bool
  | ret | rti => true
  | jmp (.reg r) => r == Reg.link
  | _ => false

namespace CallStack

variable {c s : CallStack}

/-- Frames that are kept are as many as there are calls. -/
def Aligned (s : CallStack) : Prop :=
  ∀ fs, s.frames = some fs → fs.length = s.depth

theorem aligned_empty (keep : Bool) : (empty keep).Aligned := by
  intro fs kept
  cases keep with
  | false => cases kept
  | true => exact congrArg List.length (Option.some.inj kept).symm

theorem Aligned.push (h : s.Aligned) (f : Frame) : (s.push f).Aligned := by
  intro fs kept
  obtain ⟨gs, hgs, rfl⟩ := Option.map_eq_some_iff.mp kept
  exact congrArg (· + 1) (h gs hgs)

theorem Aligned.pop (h : s.Aligned) : s.pop.Aligned := by
  intro fs kept
  obtain ⟨gs, hgs, rfl⟩ := Option.map_eq_some_iff.mp kept
  rw [List.length_tail, h gs hgs]
  rfl

/-- The outermost calls of `s` are those of `c`. -/
structure Above (c s : CallStack) : Prop where
  depth : c.depth ≤ s.depth
  frames : s.frames.map (·.drop (s.depth - c.depth)) = c.frames

theorem above_refl (c : CallStack) : c.Above c := by
  constructor
  · exact Nat.le_refl c.depth
  · simp only [Nat.sub_self, List.drop_zero, Option.map_id']

/-- Back at its depth, the stack of a call is the one it was made from. -/
theorem Above.eq (h : c.Above s) (depth : s.depth = c.depth) : s = c := by
  have frames := h.frames
  simp only [depth, Nat.sub_self, List.drop_zero, Option.map_id'] at frames
  cases s
  cases c
  subst depth frames
  rfl

theorem Above.push (h : c.Above s) (f : Frame) : c.Above (s.push f) := by
  have deeper : s.depth + 1 - c.depth = s.depth - c.depth + 1 := Nat.succ_sub h.depth
  constructor
  · exact Nat.le_succ_of_le h.depth
  · simp only [CallStack.push, deeper, Option.map_map, Function.comp_def, List.drop_succ_cons]
    exact h.frames

/-- Returns from further in leave what lies below as it is. -/
theorem Above.pop (h : c.Above s) (inside : s.depth ≠ c.depth) : c.Above s.pop := by
  have depth := h.depth
  have back : s.depth - 1 - c.depth + 1 = s.depth - c.depth := by omega
  constructor
  · exact Nat.le_sub_one_of_lt (Nat.lt_of_le_of_ne depth inside.symm)
  · simp only [CallStack.pop, Option.map_map, Function.comp_def, List.drop_tail, back]
    exact h.frames

end CallStack

namespace Machine

variable {m : Machine} {i : Instr} {e : Effect}

/-- Calls push a frame, returns pop one, and no other instruction touches the stack. -/
theorem effect_calls (h : m.effect i = .ok e) : e.calls =
    match i.call? with
    | some kind => .push ⟨m.pc, e.pc, kind⟩
    | none => if i.returns then .pop else .none := by
  rw [effect_eq_work h]
  cases i with
  | jmp target =>
    cases target with
    | imm => rfl
    | reg r => simp only [work, Instr.call?, Instr.returns, beq_iff_eq]
  | cmpImm reading => cases reading <;> rfl
  | _ => rfl

end Machine

namespace Executed

variable {x : Executed}

/-- A call pushes its own address, its target and its kind, a return pops, and what neither calls
nor returns leaves the stack alone. -/
structure MovesCalls (x : Executed) : Prop where
  call : ∀ kind, x.instr.call? = some kind →
    x.after.calls = x.before.calls.push ⟨x.before.pc, x.after.pc, kind⟩
  ret : x.instr.returns = true → x.after.calls = x.before.calls.pop
  other : x.instr.call? = none → x.instr.returns = false → x.after.calls = x.before.calls
  deeper : x.after.calls.depth = x.before.calls.depth + 1 ↔ x.instr.call?.isSome
  shallower : x.after.calls.depth + 1 = x.before.calls.depth ↔
    x.instr.returns = true ∧ x.before.calls.depth ≠ 0

theorem returns_of_call? {i : Instr} {kind : CallKind} (h : i.call? = some kind) :
    i.returns = false := by
  cases i
  case jsr | trap => rfl
  all_goals cases h

theorem Valid.movesCalls (valid : x.Valid) : x.MovesCalls := by
  obtain ⟨e, he, core⟩ := valid.core
  have pc : x.after.pc = e.pc := congrArg Core.pc core
  have calls : x.after.calls = e.calls.after x.before.calls := congrArg Core.calls core
  rw [Machine.effect_calls he, ← pc] at calls
  cases call : x.instr.call? with
  | some kind =>
    have returns := returns_of_call? call
    simp only [call, CallChange.after] at calls
    constructor <;> simp [call, returns, calls, CallStack.push]
    omega
  | none =>
    cases returns : x.instr.returns with
    | true =>
      simp only [call, returns, if_true, CallChange.after] at calls
      constructor <;> simp [call, returns, calls, CallStack.pop]
      all_goals omega
    | false =>
      simp only [call, returns, Bool.false_eq_true, if_false, CallChange.after] at calls
      constructor <;> simp [call, returns, calls]

/-- The three things that can happen to a stack. -/
theorem MovesCalls.calls_after (moves : x.MovesCalls) :
    (∃ f, x.after.calls = x.before.calls.push f) ∨ x.after.calls = x.before.calls.pop ∨
      x.after.calls = x.before.calls := by
  cases call : x.instr.call? with
  | some kind => exact .inl ⟨_, moves.call kind call⟩
  | none =>
    cases returns : x.instr.returns with
    | true => exact .inr (.inl (moves.ret returns))
    | false => exact .inr (.inr (moves.other call returns))

/-- An instruction keeps depth and frames aligned. -/
theorem MovesCalls.aligned (moves : x.MovesCalls) (h : x.before.calls.Aligned) :
    x.after.calls.Aligned := by
  rcases moves.calls_after with ⟨f, pushed⟩ | popped | kept
  · exact pushed ▸ h.push f
  · exact popped ▸ h.pop
  · exact kept ▸ h

/-- An instruction inside a call keeps what lies below the call. -/
theorem MovesCalls.above {c : CallStack} (moves : x.MovesCalls) (h : c.Above x.before.calls)
    (inside : x.before.calls.depth ≠ c.depth) : c.Above x.after.calls := by
  rcases moves.calls_after with ⟨f, pushed⟩ | popped | kept
  · exact pushed ▸ h.push f
  · -- Only a return at the depth of `c` would take something away from `c`.
    exact popped ▸ h.pop inside
  · exact kept ▸ h

end Executed

/-- Each instruction of a list finds the calls that the one before it left. -/
inductive Stacked : CallStack → List Executed → CallStack → Prop
  | nil {c : CallStack} : Stacked c [] c
  | cons {c d : CallStack} {x : Executed} {xs : List Executed} (found : x.before.calls = c)
      (moves : x.MovesCalls) (rest : Stacked x.after.calls xs d) : Stacked c (x :: xs) d

/-- Linked instructions are chained through their stacks. -/
theorem Linked.stacked {m s : Machine} {xs : List Executed} (h : Linked m xs s) :
    Stacked m.calls xs s.calls := by
  induction h with
  | @nil m s same =>
    have calls : s.calls = m.calls := congrArg Core.calls same
    exact calls ▸ .nil
  | cons same valid _ ih => exact .cons (congrArg Core.calls same) valid.movesCalls ih

namespace Stacked

variable {b c d : CallStack} {xs ys : List Executed}

theorem append (first : Stacked b xs c) (last : Stacked c ys d) : Stacked b (xs ++ ys) d := by
  induction first with
  | nil => exact last
  | cons found moves _ ih => exact .cons found moves (ih last)

theorem drop (h : Stacked b (xs ++ ys) d) : ∃ c, Stacked c ys d := by
  induction xs generalizing b with
  | nil => exact ⟨b, h⟩
  | cons x xs ih =>
    cases h with
    | cons _ _ rest => exact ih rest

theorem moves (h : Stacked c xs d) : ∀ x ∈ xs, x.MovesCalls := by
  induction h with
  | nil =>
    intro x none
    cases none
  | cons _ moves _ ih =>
    intro x hx
    rcases List.mem_cons.mp hx with rfl | hx
    · exact moves
    · exact ih x hx

/-- Depth and frames stay aligned between all instructions. -/
theorem aligned (h : Stacked c xs d) (start : c.Aligned) :
    d.Aligned ∧ ∀ x ∈ xs, x.before.calls.Aligned ∧ x.after.calls.Aligned := by
  induction h with
  | nil =>
    refine ⟨start, ?_⟩
    intro x none
    cases none
  | cons found moves _ ih =>
    rw [← found] at start
    have after := moves.aligned start
    obtain ⟨last, all⟩ := ih after
    refine ⟨last, ?_⟩
    intro x hx
    rcases List.mem_cons.mp hx with rfl | hx
    · exact ⟨start, after⟩
    · exact all x hx

/-- Up to the first return to the depth of `c`, the calls of `c` lie at the bottom. -/
theorem eq_of_back {s : CallStack} {y : Executed} {mid post : List Executed}
    (h : Stacked s (mid ++ y :: post) d) (above : c.Above s) (inside : s.depth ≠ c.depth)
    (away : ∀ z ∈ mid, z.after.calls.depth ≠ c.depth) (back : y.after.calls.depth = c.depth) :
    y.after.calls = c := by
  induction mid generalizing s with
  | nil =>
    -- The instruction starts above the depth and ends on it, with what lies below untouched.
    cases h with
    | cons found moves _ =>
      rw [← found] at above inside
      exact (moves.above above inside).eq back
  | cons z mid ih =>
    cases h with
    | cons found moves rest =>
      rw [← found] at above inside
      have first := away z List.mem_cons_self
      refine ih rest (moves.above above inside) first ?_
      intro w hw
      exact away w (List.mem_cons_of_mem z hw)

/-- The first return to the depth that a call was made from gives back the calls from before. -/
theorem restores {x y : Executed} {pre mid post : List Executed}
    (h : Stacked c (pre ++ x :: (mid ++ y :: post)) d) (calls : x.instr.call?.isSome)
    (away : ∀ z ∈ mid, z.after.calls.depth ≠ x.before.calls.depth)
    (back : y.after.calls.depth = x.before.calls.depth) : y.after.calls = x.before.calls := by
  obtain ⟨_, h⟩ := h.drop
  cases h with
  | cons _ moves rest =>
    have deeper := moves.deeper.mpr calls
    obtain ⟨kind, call⟩ := Option.isSome_iff_exists.mp calls
    have above : x.before.calls.Above x.after.calls := by
      rw [moves.call kind call]
      exact (CallStack.above_refl _).push _
    refine rest.eq_of_back above ?_ away back
    omega

end Stacked

namespace Action

/-- Whether an action starts the stack of calls anew. -/
def restarts : Action → Bool
  | reset | clear => true
  | _ => false

section Calls
variable (fuel : Nat) (m : Machine) {a : Action} {o : Outcome}

/-- What restarts the machine runs nothing and leaves an empty stack. -/
theorem calls_of_restarts (restarts : a.restarts = true) : a.executed fuel m = [] ∧
    ∀ o, a.outcome fuel m = some o → o.machine.calls = .empty m.flags.keepFrames := by
  cases a
  case reset | clear =>
    refine ⟨rfl, ?_⟩
    intro o ended
    obtain rfl := Option.some.inj ended
    rfl
  all_goals cases restarts

/-- An action that does not restart the machine chains its instructions through the stack. -/
theorem stacked (goes : a.restarts = false) : ∃ c, Stacked m.calls (a.executed fuel m) c ∧
    ∀ o, a.outcome fuel m = some o → o.machine.calls = c := by
  cases a with
  | operate op =>
    obtain ⟨s, linked, last⟩ := Machine.linked_executed op fuel m
    refine ⟨s.calls, linked.stacked, ?_⟩
    intro o ended
    rw [last o ended]
  | reset | clear => cases goes
  | loadBytes bytes =>
    refine ⟨m.calls, .nil, ?_⟩
    intro o ended
    obtain rfl := Option.some.inj ended
    rw [Machine.loadBytes_eq_loadFile, Machine.loadFile_eq_adding]
    rfl
  | loadFile f =>
    refine ⟨m.calls, .nil, ?_⟩
    intro o ended
    obtain rfl := Option.some.inj ended
    rw [Machine.loadFile_eq_adding]
    rfl
  | setFlags | writeStatus =>
    refine ⟨m.calls, .nil, ?_⟩
    intro o ended
    obtain rfl := Option.some.inj ended
    rfl

theorem aligned_outcome (start : m.calls.Aligned) (ended : a.outcome fuel m = some o) :
    o.machine.calls.Aligned := by
  cases restarts : a.restarts with
  | true =>
    rw [(calls_of_restarts fuel m restarts).2 o ended]
    exact CallStack.aligned_empty _
  | false =>
    obtain ⟨c, stacked, last⟩ := stacked fuel m restarts
    rw [last o ended]
    exact (stacked.aligned start).1

/-- Inside an action depth and frames are aligned at every moment. -/
theorem aligned_executed (start : m.calls.Aligned) (a : Action) :
    ∀ x ∈ a.executed fuel m, x.MovesCalls ∧ x.before.calls.Aligned ∧ x.after.calls.Aligned := by
  intro x hx
  cases restarts : a.restarts with
  | true =>
    rw [(calls_of_restarts fuel m restarts).1] at hx
    cases hx
  | false =>
    obtain ⟨c, stacked, -⟩ := stacked fuel m restarts
    exact ⟨stacked.moves x hx, (stacked.aligned start).2 x hx⟩

end Calls

end Action

namespace Machine

section Frames
variable (m : Machine) (frames : Option (List Frame)) (keep : Bool)

def withFrames : Machine :=
  { m with calls := ⟨m.calls.depth, frames⟩, flags := { m.flags with keepFrames := keep } }

/-- No instruction looks at the frames. -/
theorem effect_withFrames (i : Instr) : (m.withFrames frames keep).effect i = m.effect i := by
  cases i with
  | jsr target | jmp target => cases target <;> rfl
  | _ => rfl

theorem apply_withFrames (e : Effect) : (m.withFrames frames keep).apply e =
    (m.apply e).withFrames (e.calls.after ⟨m.calls.depth, frames⟩).frames keep := by
  rcases e with ⟨pc, _ | ⟨r, v⟩, cond, memory, privilege, calls, warning⟩ <;>
    cases memory <;> cases calls <;> rfl

end Frames

/-- The machines differ in nothing but, maybe, the frames and the wish to keep them. -/
def SameButFrames (m n : Machine) : Prop :=
  ∃ frames keep, n = m.withFrames frames keep

/-- Machines that differ in their frames run in lockstep. -/
theorem lockstep_sameButFrames : Lockstep SameButFrames where
  mem := by
    rintro m _ ⟨frames, keep, rfl⟩
    rfl
  pc := by
    rintro m _ ⟨frames, keep, rfl⟩
    rfl
  depth := by
    rintro m _ ⟨frames, keep, rfl⟩
    rfl
  ledger := by
    rintro m _ ⟨frames, keep, rfl⟩
    rfl
  checkPc := by
    rintro m _ ⟨frames, keep, rfl⟩
    rfl
  effect := by
    rintro m _ ⟨frames, keep, rfl⟩ i
    exact effect_withFrames m frames keep i
  apply := by
    rintro m _ ⟨frames, keep, rfl⟩ e
    exact ⟨_, keep, apply_withFrames m frames keep e⟩
  withLedger := by
    rintro m _ ⟨frames, keep, rfl⟩ l
    exact ⟨frames, keep, rfl⟩
  unobserved := by
    rintro m _ ⟨frames, keep, rfl⟩
    exact ⟨frames, keep, rfl⟩

end Machine

/-- The same action for two machines, which may be told differently whether to keep frames. -/
inductive Action.Alike : Action → Action → Prop
  | same {a : Action} (blind : ∀ op, a = operate op → op.Blind Machine.SameButFrames) : Alike a a
  | setFlags (f : Flags) (keep : Bool) :
    Alike (.setFlags f) (.setFlags { f with keepFrames := keep })

structure Stage.Related (R : Machine → Machine → Prop) (t u : Stage) : Prop where
  start : R t.start u.start
  executed : List.Forall₂ (Executed.Related R) t.executed u.executed
  outcome : Option.Rel (Outcome.Related R) t.outcome u.outcome
  readError : u.readError = t.readError

namespace Machine

variable {fuel : Nat} {m n : Machine} {actions others : List Action}

theorem sameButFrames_loadFile (alike : SameButFrames m n) (f : ObjectFile) :
    SameButFrames (m.loadFile f) (n.loadFile f) := by
  obtain ⟨frames, keep, rfl⟩ := alike
  rw [loadFile_eq_adding, loadFile_eq_adding]
  exact ⟨frames, keep, rfl⟩

/-- One action on both machines, and what it leaves of them. -/
theorem stage_sameButFrames (fuel : Nat) {a b : Action} (alike : SameButFrames m n)
    (same : a.Alike b) : Stage.Related SameButFrames (a.stage fuel m) (b.stage fuel n) := by
  cases same with
  | setFlags f keep =>
    refine ⟨alike, .nil, .some ⟨?_, rfl, rfl⟩, rfl⟩
    obtain ⟨frames, _, rfl⟩ := alike
    exact ⟨frames, keep, rfl⟩
  | same blind =>
    cases a with
    | operate op =>
      have blind := blind op rfl
      constructor
      · exact alike
      · exact lockstep_sameButFrames.executed blind alike fuel
      · exact lockstep_sameButFrames.perform blind alike fuel
      · rfl
    | reset | clear =>
      refine ⟨alike, .nil, .some ⟨?_, rfl, rfl⟩, rfl⟩
      obtain ⟨_, keep, rfl⟩ := alike
      exact ⟨(CallStack.empty keep).frames, keep, rfl⟩
    | loadBytes bytes =>
      have loaded (s : Machine) := loadBytes_eq_loadFile s bytes
      refine ⟨alike, .nil, .some ⟨?_, rfl, rfl⟩, ?_⟩
      · simp only [loaded]
        exact sameButFrames_loadFile alike _
      · simp only [Action.stage, Action.readError, loaded]
    | loadFile f => exact ⟨alike, .nil, .some ⟨sameButFrames_loadFile alike f, rfl, rfl⟩, rfl⟩
    | setFlags f =>
      refine ⟨alike, .nil, .some ⟨?_, rfl, rfl⟩, rfl⟩
      obtain ⟨frames, _, rfl⟩ := alike
      exact ⟨frames, f.keepFrames, rfl⟩
    | writeStatus write =>
      refine ⟨alike, .nil, .some ⟨?_, rfl, rfl⟩, rfl⟩
      obtain ⟨frames, keep, rfl⟩ := alike
      exact ⟨frames, keep, rfl⟩

/-- Sessions that differ in whether frames are kept run the same instructions and agree in
everything else. -/
theorem session_sameButFrames (alike : SameButFrames m n)
    (same : List.Forall₂ Action.Alike actions others) :
    List.Forall₂ (Stage.Related SameButFrames) (m.session fuel actions)
      (n.session fuel others) := by
  induction same generalizing m n with
  | nil => exact .nil
  | @cons a b as bs same _ ih =>
    have stage := stage_sameButFrames fuel alike same
    refine .cons stage ?_
    have ends : Option.Rel (Outcome.Related SameButFrames) (a.outcome fuel m)
      (b.outcome fuel n) := stage.outcome
    generalize a.outcome fuel m = o, b.outcome fuel n = p at ends
    cases ends with
    | none => exact .nil
    | some related => exact ih related.machine

/-- Without a restart the calls of a session are one stack. -/
theorem session_stacked {stretch later : List Stage}
    (h : m.session fuel actions = stretch ++ later)
    (goes : ∀ t ∈ stretch, t.action.restarts = false) :
    ∃ d, Stacked m.calls (stretch.flatMap (·.executed)) d := by
  induction stretch generalizing actions m with
  | nil => exact ⟨m.calls, .nil⟩
  | cons t stretch ih =>
    cases actions with
    | nil => cases h
    | cons a rest =>
      obtain ⟨rfl, tail⟩ := List.cons.inj h
      obtain ⟨c, first, last⟩ := Action.stacked fuel m (goes _ List.mem_cons_self)
      have goes (t : Stage) (ht : t ∈ stretch) := goes t (List.mem_cons_of_mem _ ht)
      cases ended : a.outcome fuel m with
      | none =>
        -- A run that does not end is the last stage.
        rw [ended] at tail
        obtain ⟨rfl, -⟩ := List.append_eq_nil_iff.mp tail.symm
        exact ⟨c, first.append .nil⟩
      | some o =>
        rw [ended] at tail
        obtain ⟨d, onward⟩ := ih tail goes
        rw [last o ended] at onward
        exact ⟨d, first.append onward⟩

/-- In every session of a new machine the frames, where they are kept, are as many as the depth
says, and each instruction moves the stack of calls as its form says. When, without a restart,
execution is first back at the depth from which a call was made, the stack is the one from before.
Machines that differ in the frames alone, and in whether to keep them, run the same instructions in
all sessions, with the same results. -/
theorem session_calls (flags : Flags) (fuel : Nat) (actions : List Action) :
    let stages := (new flags).session fuel actions
    (∀ t ∈ stages, (∀ s ∈ t.machines, s.calls.Aligned) ∧ ∀ x ∈ t.executed, x.MovesCalls) ∧
    (∀ earlier stretch later, stages = earlier ++ (stretch ++ later) →
      (∀ t ∈ stretch, t.action.restarts = false) →
      ∀ pre x mid y post, stretch.flatMap (·.executed) = pre ++ x :: (mid ++ y :: post) →
        x.instr.call?.isSome → (∀ z ∈ mid, z.after.calls.depth ≠ x.before.calls.depth) →
        y.after.calls.depth = x.before.calls.depth → y.after.calls = x.before.calls) ∧
    ∀ m n others, SameButFrames m n → List.Forall₂ Action.Alike actions others →
      List.Forall₂ (Stage.Related SameButFrames) (m.session fuel actions)
        (n.session fuel others) := by
  intro stages
  refine ⟨?_, ?_, ?_⟩
  · intro t ht
    have start : (new flags).calls.Aligned := CallStack.aligned_empty _
    have kept (a : Action) (s : Machine) (o : Outcome) (h : s.calls.Aligned)
        (ended : a.outcome fuel s = some o) : o.machine.calls.Aligned :=
      Action.aligned_outcome fuel s h ended
    obtain ⟨start, stage⟩ := session_invariant (I := (·.calls.Aligned)) start kept t ht
    have ran : t.executed = t.action.executed fuel t.start := congrArg Stage.executed stage
    have left : t.outcome = t.action.outcome fuel t.start := congrArg Stage.outcome stage
    have moves := Action.aligned_executed fuel t.start start t.action
    rw [← ran] at moves
    refine ⟨?_, fun x hx => (moves x hx).1⟩
    intro s hs
    simp only [Stage.machines, List.mem_cons, List.mem_append, List.mem_flatMap,
      Option.mem_toList, Option.map_eq_some_iff, List.not_mem_nil, or_false] at hs
    rcases hs with rfl | ⟨x, hx, rfl | rfl⟩ | ⟨o, ended, rfl⟩
    · exact start
    · exact (moves x hx).2.1
    · exact (moves x hx).2.2
    · exact kept t.action t.start o start (left.symm.trans ended)
  · intro earlier stretch later h goes pre x mid y post listed calls away back
    obtain ⟨actions', s, rest⟩ := session_of_append h
    obtain ⟨d, stacked⟩ := session_stacked rest.symm goes
    rw [listed] at stacked
    exact stacked.restores calls away back
  · intro m n others alike same
    exact session_sameButFrames alike same

/-- A call, a trap from it, a change of the flags, both returns and one return too many. -/
theorem session_calls_nested :
    let flags : Flags := ⟨false, true, true⟩
    let operate (i : Instr) := Action.operate (.eval i)
    let actions := [operate (.jsr (.imm 0)), operate (.trap 0x25), .setFlags ⟨true, false, true⟩,
      operate .rti, operate .ret, operate .ret]
    let stages := (new flags).session 0 actions
    ∃ x y z w v, stages.flatMap (·.executed) = [x, y, z, w, v] ∧
      y.after.calls = ⟨2, some [⟨0x8000, 0x8025, .trap⟩, ⟨0x8200, 0x8000, .subroutine⟩]⟩ ∧
      w.after.calls = x.before.calls ∧ v.after.calls = ⟨0, some []⟩ ∧
      List.Forall₂ (Stage.Related SameButFrames) stages
        ((new { flags with keepFrames := false }).session 0 actions) := by
  intro flags operate actions stages
  obtain ⟨_, restores, related⟩ := session_calls flags 0 actions
  have seen : (stages.flatMap (·.executed)).map
      (fun x => (x.instr.call?.isSome, x.before.calls.depth, x.after.calls)) =
      [(true, 0, ⟨1, some [⟨0x8200, 0x8000, .subroutine⟩]⟩),
        (true, 1, ⟨2, some [⟨0x8000, 0x8025, .trap⟩, ⟨0x8200, 0x8000, .subroutine⟩]⟩),
        (false, 2, ⟨1, some [⟨0x8200, 0x8000, .subroutine⟩]⟩),
        (false, 1, ⟨0, some []⟩), (false, 0, ⟨0, some []⟩)] := by decide +kernel
  obtain ⟨x, xs, listed, hx, seen⟩ := List.map_eq_cons_iff.mp seen
  obtain ⟨y, xs, rfl, hy, seen⟩ := List.map_eq_cons_iff.mp seen
  obtain ⟨z, xs, rfl, hz, seen⟩ := List.map_eq_cons_iff.mp seen
  obtain ⟨w, xs, rfl, hw, seen⟩ := List.map_eq_cons_iff.mp seen
  obtain ⟨v, xs, rfl, hv, seen⟩ := List.map_eq_cons_iff.mp seen
  obtain rfl := List.map_eq_nil_iff.mp seen
  simp only [Prod.mk.injEq] at hx hy hz hw hv
  refine ⟨x, y, z, w, v, listed, hy.2.2, ?_, hv.2.2, ?_⟩
  · have whole : stages = [] ++ (stages ++ []) := by simp
    have goes : ∀ t ∈ stages, t.action.restarts = false := by decide +kernel
    refine restores [] stages [] whole goes [] x [y, z] w [v] listed hx.1 ?_ ?_
    · simp [hx, hy, hz]
    · simp [hx, hw]
  · refine related _ _ actions ⟨none, false, rfl⟩ ?_
    have blind (i : Instr) : Action.Alike (operate i) (operate i) := by
      refine .same ?_
      rintro op ⟨rfl⟩
      trivial
    have quiet : Action.Alike (.setFlags ⟨true, false, true⟩) (.setFlags ⟨true, false, true⟩) :=
      .setFlags _ false
    exact .cons (blind _) (.cons (blind _) (.cons quiet
      (.cons (blind _) (.cons (blind _) (.cons (blind _) .nil)))))

end Machine

end Lc4
