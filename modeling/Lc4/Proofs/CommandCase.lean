import Lc4.Proofs.CaseFolding

/-!
# Commands in capital and in small letters

The readers of arguments look at names only after mapping them to one case, so they do the same
with arguments in small letters, and a command line may be written in any case.
-/
namespace Lc4.Shell

/-- The error with the text that it quotes in small letters. -/
def CommandError.uncased : CommandError → CommandError
  | unknownCommand name => unknownCommand (Text.uncased name)
  | unexpectedArgument found => unexpectedArgument (Text.uncased found)
  | invalidAddress found => invalidAddress (Text.uncased found)
  | unknownLabel name => unknownLabel (Text.uncased name)
  | invalidCount found => invalidCount (Text.uncased found)
  | unknownPrintTarget found => unknownPrintTarget (Text.uncased found)
  | unknownInstruction found => unknownInstruction (Text.uncased found)
  | invalidOperand expected found => invalidOperand expected (Text.uncased found)
  | e => e

def Location.uncased : Location → Location
  | label name => label (Text.uncased name)
  | l => l

def PrintTarget.uncased : PrintTarget → PrintTarget
  | mem start count => mem start.uncased count
  | target => target

def Assembly.uncased : Assembly → Assembly
  | lea rd label => lea rd (Text.uncased label)
  | lc rd label => lc rd (Text.uncased label)
  | a => a

/-- The command with its path or label in small letters. -/
def Command.uncased : Command → Command
  | load path => load (Text.uncased path)
  | breakpoint location => breakpoint location.uncased
  | delete location => delete location.uncased
  | print target => print target.uncased
  | eval a => eval a.uncased
  | c => c

namespace Reader

/-- What is read, or the error, in small letters. -/
def uncased {α β : Type} (f : α → β) (r : Except CommandError α) : Except CommandError β :=
  (r.map f).mapError CommandError.uncased

/-- From arguments in small letters the second reader gets what the first one gets from the
arguments themselves, but in small letters. -/
def Folds {α β : Type} (f : α → β) (x : Reader α) (y : Reader β) : Prop :=
  ∀ args, y.run (args.map Argument.uncased) =
    uncased (fun r => (f r.1, r.2.map Argument.uncased)) (x.run args)

namespace Folds
variable {α β γ δ : Type} {f : α → β} {g : γ → δ}

theorem pure (a : α) : Folds f (pure a) (pure (f a)) :=
  fun _ => rfl

theorem throw (e : CommandError) : Folds f (throw e) (throw e.uncased) :=
  fun _ => rfl

/-- Readers in a row fold the case if each does, so one lemma for each reader is enough. -/
theorem bind {x : Reader α} {y : Reader β} {h : α → Reader γ} {k : β → Reader δ}
    (first : Folds f x y) (last : ∀ a, Folds g (h a) (k (f a))) :
    Folds g (x >>= h) (y >>= k) := by
  intro args
  rw [StateT.run_bind, StateT.run_bind, first args]
  cases x.run args with
  | error e => rfl
  | ok r => exact last r.1 r.2

theorem run' {x : Reader α} {y : Reader β} (h : Folds f x y) (args : List Argument) :
    y.run' (args.map Argument.uncased) = uncased f (x.run' args) := by
  change Prod.fst <$> y.run (args.map Argument.uncased) = uncased f (Prod.fst <$> x.run args)
  rw [h args]
  cases x.run args <;> rfl

end Folds

theorem folds_next? : Folds (Option.map Argument.uncased) next? next? := by
  intro args
  cases args <;> rfl

theorem folds_finish : Folds id finish finish := by
  refine folds_next?.bind ?_
  rintro (_ | a)
  · exact .pure ()
  · exact .throw (.unexpectedArgument a.text)

theorem folds_finished {α β : Type} (f : α → β) (a : α) :
    Folds f (finish >>= fun _ => pure a) (finish >>= fun _ => pure (f a)) :=
  folds_finish.bind fun _ => .pure a

theorem folds_operand (expected : String) :
    Folds (fun p : Token × String => (p.1.uncased, Text.uncased p.2)) (operand expected)
      (operand expected) := by
  refine folds_next?.bind ?_
  rintro (_ | ⟨e | t, text⟩)
  · exact .throw (.missingArgument expected)
  · exact .throw (.lex e)
  · exact .pure (t, text)

theorem folds_reg : Folds id reg reg := by
  refine (folds_operand _).bind ?_
  rintro ⟨t, text⟩
  cases t with
  | reg r => exact .pure r
  | _ => exact .throw (.invalidOperand _ text)

section Numbers
variable (bits : Nat)

theorem folds_fit (s : Signedness) (w : Word) : Folds id (fit s bits w) (fit s bits w) := by
  unfold fit
  split
  · exact .pure _
  · exact .throw (.range _)

theorem folds_nonnegative (w : Word) (found : String) :
    Folds id (nonnegative w found) (nonnegative w (Text.uncased found)) := by
  unfold nonnegative
  split
  · exact .throw (.invalidOperand _ found)
  · exact .pure w

theorem folds_signed : Folds id (signed bits) (signed bits) := by
  refine (folds_operand _).bind ?_
  rintro ⟨t, text⟩
  cases t with
  | signed w => exact folds_fit bits .signed w
  | unsigned w => exact (folds_nonnegative w text).bind fun w => folds_fit bits .signed w
  | _ => exact .throw (.invalidOperand _ text)

theorem folds_unsigned : Folds id (unsigned bits) (unsigned bits) := by
  refine (folds_operand _).bind ?_
  rintro ⟨t, text⟩
  cases t with
  | unsigned w => exact folds_fit bits .unsigned w
  | _ => exact .throw (.invalidOperand _ text)

theorem folds_regOrSigned : Folds id (regOrSigned bits) (regOrSigned bits) := by
  refine (folds_operand _).bind ?_
  rintro ⟨t, text⟩
  cases t with
  | reg r => exact .pure _
  | signed w => exact (folds_fit bits .signed w).bind fun _ => .pure _
  | unsigned w =>
    refine (folds_nonnegative w text).bind fun w => ?_
    exact (folds_fit bits .signed w).bind fun _ => .pure _
  | _ => exact .throw (.invalidOperand _ text)

end Numbers

theorem folds_label : Folds Text.uncased label label := by
  refine (folds_operand _).bind ?_
  rintro ⟨t, text⟩
  cases t with
  | ident name => exact .pure name
  | _ => exact .throw (.invalidOperand _ text)

end Reader

open Reader

namespace Assembly

/-- Every mnemonic reads its operands alike in either case. -/
theorem folds_operands {mnemonic : List Char} {operands : Reader Assembly}
    (h : operands? mnemonic = some operands) : Folds uncased operands operands := by
  unfold operands? at h
  split at h
  · obtain ⟨cond, -, rfl⟩ := Option.map_eq_some_iff.mp h
    exact (folds_signed 9).bind fun _ => .pure _
  · split at h
    all_goals cases h
    all_goals repeat' first
      | exact .pure _
      | refine folds_reg.bind fun _ => ?_
      | refine (folds_signed _).bind fun _ => ?_
      | refine (folds_unsigned _).bind fun _ => ?_
      | refine (folds_regOrSigned _).bind fun _ => ?_
      | refine folds_label.bind fun _ => ?_

theorem folds_reader : Folds uncased reader reader := by
  refine folds_next?.bind ?_
  rintro (_ | ⟨e | t, text⟩)
  · exact .throw (.missingArgument _)
  · exact .throw (.unknownInstruction text)
  · cases t with
    | ident name =>
      have same : operands? (Text.upper (Text.uncased name).toList) =
          operands? (Text.upper name.toList) := by
        rw [Text.toList_uncased, Text.upper_map_toLower]
      dsimp only [Option.map_some, Argument.uncased, Except.map, Token.uncased]
      rw [same]
      cases known : operands? (Text.upper name.toList) with
      | none => exact .throw (.unknownInstruction name)
      | some operands =>
        exact (folds_operands known).bind (folds_finished uncased)
    | _ => exact .throw (.unknownInstruction text)

end Assembly

namespace Command

theorem folds_location : Folds Location.uncased location location := by
  refine folds_next?.bind ?_
  rintro (_ | ⟨e | t, text⟩)
  · exact .throw (.missingArgument _)
  · exact .throw (.invalidAddress text)
  · cases t with
    | unsigned a => exact .pure _
    | ident name => exact .pure _
    | _ => exact .throw (.invalidAddress text)

theorem folds_count : Folds id count count := by
  refine folds_next?.bind ?_
  rintro (_ | ⟨e | t, text⟩)
  · exact .pure 1
  · exact .throw (.invalidCount text)
  · cases t with
    | unsigned n =>
      dsimp only [Option.map_some, Argument.uncased, Except.map, Token.uncased]
      split
      · exact .throw (.invalidCount text)
      · exact .pure n
    | _ => exact .throw (.invalidCount text)

theorem folds_printTarget : Folds PrintTarget.uncased printTarget printTarget := by
  refine folds_next?.bind ?_
  rintro (_ | ⟨e | t, text⟩)
  · exact .pure _
  · exact .throw (.unknownPrintTarget text)
  · cases t with
    | ident name =>
      have same : Text.lower (Text.uncased name).toList = Text.lower name.toList := by
        rw [Text.toList_uncased, Text.lower_map_toLower]
      dsimp only [Option.map_some, Argument.uncased, Except.map, Token.uncased]
      rw [same]
      split
      any_goals exact .pure _
      · exact folds_location.bind fun _ => folds_count.bind fun _ => .pure _
      · exact folds_location.bind fun _ => folds_count.bind fun _ => .pure _
      · exact .throw (.unknownPrintTarget name)
    | _ => exact .throw (.unknownPrintTarget text)

/-- Every command reads its arguments alike in either case. -/
theorem folds_arguments {name : String} {arguments : Reader Command}
    (h : arguments? name = some arguments) : Folds uncased arguments arguments := by
  unfold arguments? at h
  split at h
  all_goals cases h
  any_goals exact .pure _
  any_goals exact folds_count.bind fun _ => .pure _
  any_goals exact folds_location.bind fun _ => .pure _
  any_goals exact folds_printTarget.bind fun _ => .pure _

/-- A command in small letters is the command, with what it names in small letters. -/
theorem ofParts_map_toLower (name rest : List Char) :
    ofParts (name.map Char.toLower) (rest.map Char.toLower) =
      Reader.uncased uncased (ofParts name rest) := by
  simp only [ofParts, Text.lower_map_toLower, List.isEmpty_map, ← Text.uncased_ofList,
    Assembly.parse, Argument.ofChars_map_toLower]
  split
  · split <;> rfl
  · split <;> rfl
  · split
    · rfl
    · rw [Assembly.folds_reader.run']
      cases Assembly.reader.run' (Argument.ofChars rest) <;> rfl
  · split
    · rfl
    · rw [Assembly.folds_reader.run']
      cases Assembly.reader.run' (Argument.ofChars rest) <;> rfl
  · cases known : arguments? (String.ofList (Text.lower name)) with
    | none => rfl
    | some arguments =>
      exact ((folds_arguments known).bind (folds_finished uncased)).run' _

/-- What a line says, with its paths, labels and quoted texts in small letters. -/
def outcome (line : String) : Except CommandError (Option Command) :=
  Reader.uncased (Option.map uncased) (parse line)

/-- A line in small letters is read like the line, but for what is copied from it. -/
theorem parse_uncased (line : String) : parse (Text.uncased line) = outcome line := by
  have whole := Text.trim_map_toLower line.toList
  rw [← Text.toList_uncased] at whole
  rw [outcome]
  rcases trimmed : Text.trim line.toList with _ | ⟨c, cs⟩
  · rw [trimmed] at whole
    rw [parse, parse, whole, trimmed]
    rfl
  · rw [trimmed, List.map_cons] at whole
    by_cases comment : c = ';'
    · subst comment
      rw [parse_of_comment trimmed, parse_of_comment whole]
      rfl
    · have plain : c.toLower ≠ ';' := mt (Text.toLower_eq_iff rfl).mp comment
      rw [parse_of_trim trimmed comment, parse_of_trim whole plain, ← List.map_cons,
        Text.splitWord_map_toLower]
      dsimp only
      rw [Text.trim_map_toLower, ofParts_map_toLower]
      cases ofParts (Text.splitWord (c :: cs)).1 (Text.trim (Text.splitWord (c :: cs)).2) <;> rfl

/-- Lines that differ in the case of letters alone say the same. -/
theorem parse_ignores_case (s t : String)
    (same : s.toList.map Char.toLower = t.toList.map Char.toLower) : outcome s = outcome t := by
  rw [← parse_uncased, ← parse_uncased, Text.uncased, Text.uncased, same]

/-- A line with a mnemonic, a number and a comment in mixed letters. -/
theorem parse_ignores_case_eval :
    parse "EVAL brZP X-fF ; Back" = .ok (some (.eval (.instr (.br 3 (-0xFF))))) ∧
      outcome "EVAL brZP X-fF ; Back" = outcome "eval BRzp x-Ff ; back" :=
  ⟨by decide +kernel, parse_ignores_case _ _ (by decide)⟩

end Command

end Lc4.Shell
