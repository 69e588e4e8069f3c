import Lc4.Proofs.Lines
import Mathlib.Data.List.Forall2

/-!
# Comments and commas

A token ends before a character that goes on no token, and what stands behind such a character does
not change what was read. So a comment at the end of a line adds no argument, and a comma reads
like a space.
-/
namespace Lc4

namespace Text

/-- The second text has spaces in the place of some commas of the first. -/
def Respaced : List Char → List Char → Prop :=
  List.Forall₂ fun c d => d = c ∨ c = ',' ∧ d = ' '

namespace Respaced
variable {cs ds : List Char}

theorem dropWhile {p : Char → Bool} (alike : p ',' = p ' ') (h : Respaced cs ds) :
    Respaced (cs.dropWhile p) (ds.dropWhile p) := by
  induction h with
  | nil => exact .nil
  | @cons c d cs ds same rest ih =>
    have outcome : p d = p c := by
      rcases same with rfl | ⟨rfl, rfl⟩
      · rfl
      · exact alike.symm
    cases stop : p c with
    | true => simpa only [List.dropWhile_cons, outcome, stop, if_true] using ih
    | false => simpa only [List.dropWhile_cons, outcome, stop] using .cons same rest

/-- Up to the first comma the two texts are one. -/
theorem exists_append (h : Respaced cs ds) : ∃ word rest rest', cs = word ++ rest ∧
    ds = word ++ rest' ∧ (∀ c ∈ rest.head?, c = ',') ∧ ∀ d ∈ rest'.head?, d = ',' ∨ d = ' ' := by
  induction h with
  | nil => exact ⟨[], [], [], rfl, rfl, nofun, nofun⟩
  | @cons c d cs ds same rest ih =>
    by_cases comma : c = ','
    · refine ⟨[], c :: cs, d :: ds, rfl, rfl, ?_, ?_⟩
      · rintro _ ⟨⟩
        exact comma
      · rintro _ ⟨⟩
        rcases same with rfl | ⟨_, blank⟩
        · exact .inl comma
        · exact .inr blank
    · obtain rfl : d = c := same.resolve_right fun h => comma h.1
      obtain ⟨word, front, back, rfl, rfl, stop, stop'⟩ := ih
      exact ⟨d :: word, front, back, rfl, rfl, stop, stop'⟩

theorem head_blank (h : Respaced cs ds) (blank : ∀ c ∈ cs.head?, isBlank c = true) :
    ∀ d ∈ ds.head?, isBlank d = true := by
  cases h with
  | nil => nofun
  | cons same rest =>
    rintro d ⟨⟩
    rcases same with rfl | ⟨_, rfl⟩
    · exact blank _ rfl
    · rfl

theorem forall_blank {p : Char → Bool} (h : Respaced cs ds) (space : p ' ' = true)
    (all : ∀ c ∈ cs, isBlank c = true → p c = true) : ∀ d ∈ ds, isBlank d = true → p d = true := by
  induction h with
  | nil => nofun
  | cons same rest ih =>
    rw [List.forall_mem_cons] at all ⊢
    constructor
    · rcases same with rfl | ⟨_, rfl⟩
      · exact all.1
      · exact fun _ => space
    · exact ih all.2

end Respaced

end Text

namespace Shell

namespace Token

namespace Rule
variable {rule : Rule} {c : Char} {rest : List Char}

/-- What stands behind a delimiter does not change how much a rule takes before it. Comments are
the exception: they go on behind delimiters. -/
theorem takes?_append (plain : rule ≠ comment) (delimited : Delimited rest) (word : List Char) :
    rule.takes? (word ++ rest) = rule.takes? word := by
  have breaks := delimited.classes
  have words := runLength_append_of_stop fun d hd => (breaks d hd).word
  have digits := runLength_append_of_stop fun d hd => (breaks d hd).digit
  have idents := runLength_append_of_stop fun d hd => (breaks d hd).ident
  cases rule with
  | comment => exact absurd rfl plain
  | comma => rfl
  | unsignedLiteral | unsignedDecimal | signedLiteral | register | ident =>
    simp only [takes?, words, digits, idents]
  -- The other rules look at a second character, which may be the delimiter itself.
  | unsignedHex | signedDecimal | signedHex =>
    cases word with
    | cons d word =>
      simp only [takes?, List.cons_append, List.head?_cons, List.tail_cons, words]
      rfl
    | nil =>
      cases rest with
      | nil => rfl
      | cons d rest => simp [takes?, (breaks d rfl).digit, (breaks d rfl).hex, (breaks d rfl).minus]

/-- What stands behind a delimiter does not change which rule wins. -/
theorem longest_append (plain : c ≠ ';') (delimited : Delimited rest) (word : List Char) :
    longest (c :: (word ++ rest)) = longest (c :: word) := by
  refine longest_congr fun rule => ?_
  rw [length?_cons, length?_cons]
  by_cases comment : rule = .comment
  · subst comment
    have none : starts c .comment = false := beq_false_of_ne plain
    simp only [none, Bool.false_eq_true, if_false]
  · rw [takes?_append comment delimited]

theorem length?_le {cs : List Char} {n : Nat} (h : rule.length? cs = some n) : n ≤ cs.length := by
  have run (p : Char → Bool) (cs : List Char) : runLength p cs ≤ cs.length :=
    (List.takeWhile_sublist p).length_le
  unfold length? at h
  dsimp only at h
  repeat' split at h
  all_goals simp only [Option.some.injEq, reduceCtorEq] at h
  all_goals
    subst h
    simp only [List.length_cons]
    grind

theorem longest_comment (cs : List Char) :
    longest (';' :: cs) = some (.comment, 1 + runLength (· != '\n') cs) := by
  have rules : all.filter (starts ';') = [comment] := by decide
  rw [longest_eq_foldl, rules]
  rfl

end Rule

end Token

namespace Lexeme
variable {c : Char} {rest : List Char}

theorem length_front_le (c : Char) (cs : List Char) : (front c cs).2.length ≤ cs.length + 1 := by
  unfold front
  cases Token.Rule.longest (c :: cs) with
  | none => exact Nat.succ_le_succ (Nat.zero_le _)
  | some best => exact List.length_take_le' _ _

theorem front_append (plain : c ≠ ';') (delimited : Token.Delimited rest) (word : List Char) :
    front c (word ++ rest) = front c word := by
  unfold front
  rw [Token.Rule.longest_append plain delimited]
  cases best : Token.Rule.longest (c :: word) with
  | none => rfl
  | some best =>
    have inside := Token.Rule.length?_le (Token.Rule.length?_of_longest ‹_›)
    simp only [← List.cons_append, List.take_append_of_le_length inside]

theorem front_comment (cs : List Char) :
    front ';' cs = (.ok .comment, ';' :: cs.takeWhile (· != '\n')) := by
  have line := List.prefix_iff_eq_take.mp (List.takeWhile_prefix (· != '\n') (l := cs))
  rw [front, Token.Rule.longest_comment]
  simp only [Token.Rule.token, Token.runLength, Nat.add_comm 1, List.take_succ_cons, ← line]

theorem drop_front_comment (cs : List Char) :
    (';' :: cs).drop (front ';' cs).2.length = cs.dropWhile (· != '\n') := by
  have behind : (cs.takeWhile (· != '\n') ++ cs.dropWhile (· != '\n')).drop
      (cs.takeWhile (· != '\n')).length = cs.dropWhile (· != '\n') := List.drop_left
  rw [List.takeWhile_append_dropWhile] at behind
  rw [front_comment, List.length_cons, List.drop_succ_cons, behind]

end Lexeme

namespace Argument
open Token

theorem ofChars_comment (cs : List Char) :
    ofChars (';' :: cs) = ofChars (cs.dropWhile (· != '\n')) := by
  rw [ofChars_cons (by decide), Lexeme.drop_front_comment, Lexeme.front_comment]
  rfl

theorem ofChars_of_no_newline {cs : List Char} (line : '\n' ∉ cs) : ofChars (';' :: cs) = [] := by
  have whole : cs.dropWhile (· != '\n') = [] := by
    rw [List.dropWhile_eq_nil_iff]
    intro c hc
    simp only [bne_iff_ne]
    rintro rfl
    exact line hc
  rw [ofChars_comment, whole]
  rfl

theorem ofChars_append_of_isSkipped {cs : List Char} (skipped : ∀ c ∈ cs, isSkipped c = true)
    (rest : List Char) : ofChars (cs ++ rest) = ofChars rest := by
  induction cs with
  | nil => rfl
  | cons c cs ih =>
    rw [List.forall_mem_cons] at skipped
    rw [List.cons_append, ofChars_of_isSkipped skipped.1, ih skipped.2]

theorem ofChars_of_forall_isSkipped {cs : List Char} (skipped : ∀ c ∈ cs, isSkipped c = true) :
    ofChars cs = [] := by
  have alone := ofChars_append_of_isSkipped skipped []
  rwa [List.append_nil] at alone

/-- A text that adds no argument where it stands behind another, be it in a comment or not. -/
structure Vanishes (cs : List Char) : Prop where
  delimited : Delimited cs
  none : ofChars cs = []
  line : ofChars (cs.dropWhile (· != '\n')) = []

/-- A tail that adds no argument of its own adds none behind any text. The induction is lexeme by
lexeme. -/
theorem Vanishes.ofChars_append {tail : List Char} (h : Vanishes tail) (cs : List Char) :
    ofChars (cs ++ tail) = ofChars cs := by
  induction cs using Lexeme.induction with
  | nil => exact h.none
  | skip c cs skipped ih =>
    rw [List.cons_append, ofChars_of_isSkipped skipped, ofChars_of_isSkipped skipped, ih]
  | lexeme c cs visible ih =>
    by_cases comment : c = ';'
    -- A comment that no line break ends takes the tail in.
    · subst comment
      rw [Lexeme.drop_front_comment] at ih
      rw [List.cons_append, ofChars_comment, ofChars_comment, List.dropWhile_append]
      split
      · rename_i whole
        rw [h.line, List.isEmpty_iff.mp whole]
        rfl
      · exact ih
    · have inside := Lexeme.length_front_le c cs
      rw [List.cons_append, ofChars_cons visible, ofChars_cons visible,
        Lexeme.front_append comment h.delimited, ← ih, ← List.cons_append,
        List.drop_append_of_le_length inside]

theorem vanishes_comment {cs : List Char} (line : '\n' ∉ cs) : Vanishes (' ' :: ';' :: cs) where
  delimited := by
    rintro c ⟨⟩
    exact .inr rfl
  none := by
    rw [ofChars_of_isSkipped rfl, ofChars_of_no_newline line]
  line := by
    have whole : (' ' :: ';' :: cs).dropWhile (· != '\n') = [] := by
      rw [List.dropWhile_eq_nil_iff]
      intro c hc
      simp only [bne_iff_ne]
      rintro rfl
      simp_all
    rw [whole]
    rfl

theorem vanishes_skipped {cs : List Char} (skipped : ∀ c ∈ cs, isSkipped c = true) :
    Vanishes cs where
  delimited := fun c hc => .inr (skipped c (List.mem_of_head? hc))
  none := ofChars_of_forall_isSkipped skipped
  line := by
    have behind : ∀ c ∈ cs.dropWhile (· != '\n'), isSkipped c = true :=
      fun c hc => skipped c ((List.dropWhile_sublist _).subset hc)
    exact ofChars_of_forall_isSkipped behind

/-- Trimming takes no argument away if the lexer skips all the blanks. -/
theorem ofChars_trim {cs : List Char}
    (plain : ∀ c ∈ cs, Text.isBlank c = true → isSkipped c = true) :
    ofChars (Text.trim cs) = ofChars cs := by
  have front : ∀ c ∈ cs.takeWhile Text.isBlank, isSkipped c = true :=
    fun c hc => plain c ((List.takeWhile_sublist _).subset hc) (List.mem_takeWhile_imp hc)
  have back : ∀ c ∈ (cs.dropWhile Text.isBlank).rtakeWhile Text.isBlank, isSkipped c = true :=
    fun c hc => plain c ((List.dropWhile_sublist _).subset (List.rtakeWhile_suffix _ _ |>.subset hc))
      (List.mem_rtakeWhile_imp hc)
  calc ofChars (Text.trim cs)
      = ofChars (Text.trim cs ++ (cs.dropWhile Text.isBlank).rtakeWhile Text.isBlank) :=
        ((vanishes_skipped back).ofChars_append _).symm
    _ = ofChars (cs.dropWhile Text.isBlank) := by
        rw [Text.trim_eq_rdropWhile, List.rdropWhile_append_rtakeWhile]
    _ = ofChars (cs.takeWhile Text.isBlank ++ cs.dropWhile Text.isBlank) :=
        (ofChars_append_of_isSkipped front _).symm
    _ = ofChars cs := by rw [List.takeWhile_append_dropWhile]

/-- Spaces instead of commas leave the arguments as they are. -/
theorem ofChars_of_respaced {cs ds : List Char} (h : Text.Respaced cs ds) :
    ofChars ds = ofChars cs := by
  induction cs using Lexeme.induction generalizing ds with
  | nil =>
    cases h
    rfl
  | skip c cs skipped ih =>
    cases h with
    | @cons _ d _ ds same rest =>
      obtain rfl : d = c := by
        refine same.resolve_right ?_
        rintro ⟨rfl, _⟩
        cases skipped
      rw [ofChars_of_isSkipped skipped, ofChars_of_isSkipped skipped, ih rest]
  | lexeme c cs visible ih =>
    cases h with
    | @cons _ d _ ds same rest =>
      by_cases comma : c = ','
      · subst comma
        rw [Lexeme.front_comma] at ih
        have read : ofChars (d :: ds) = ofChars ds := by
          rcases same with rfl | ⟨_, rfl⟩
          · exact ofChars_comma ds
          · exact ofChars_of_isSkipped rfl ds
        rw [read, ofChars_comma, ih rest]
        rfl
      · obtain rfl : d = c := same.resolve_right fun h => comma h.1
        by_cases comment : d = ';'
        · subst comment
          rw [Lexeme.drop_front_comment] at ih
          rw [ofChars_comment, ofChars_comment, ih (Text.Respaced.dropWhile rfl rest)]
        · obtain ⟨word, front, back, rfl, rfl, stop, stop'⟩ :=
            Text.Respaced.exists_append rest
          have delimited : Delimited front := fun c hc => .inl (stop c hc)
          have delimited' : Delimited back := by
            intro c hc
            rcases stop' c hc with rfl | rfl
            · exact .inl rfl
            · exact .inr rfl
          have taken : Lexeme.front d (word ++ back) = Lexeme.front d (word ++ front) := by
            rw [Lexeme.front_append comment delimited, Lexeme.front_append comment delimited']
          rw [ofChars_cons visible, ofChars_cons visible, taken,
            ih (List.forall₂_drop _ (.cons (.inl rfl) rest))]

/-- A comment behind a text that does not end with a blank adds no argument. -/
theorem ofChars_trim_comment {cs tail : List Char}
    (ends : ∀ c ∈ cs.getLast?, Text.isBlank c = false) (line : '\n' ∉ tail) :
    ofChars (Text.trim (cs ++ ' ' :: ';' :: tail)) = ofChars (Text.trim cs) := by
  have line' : '\n' ∉ tail.rdropWhile Text.isBlank :=
    fun h => line ((List.rdropWhile_prefix _ _).subset h)
  rcases List.eq_nil_or_concat cs with rfl | ⟨front, e, rfl⟩
  · rw [List.nil_append, Text.trim_cons_of_blank rfl, Text.trim_cons_of_solid rfl,
      ofChars_of_no_newline line']
    rfl
  · have solid : Text.isBlank e = false := ends e (by simp)
    rw [List.concat_eq_append, List.append_assoc, List.singleton_append,
      Text.trim_append_solid solid rfl, (vanishes_comment line').ofChars_append]

end Argument

namespace Command

section Line
variable {line : String} {name rest respaced : List Char}

theorem eq_nil_of_trimmed (trimmed : Text.trim line.toList = line.toList)
    (whole : line.toList = rest) (blank : ∀ b ∈ rest.head?, Text.isBlank b = true) : rest = [] := by
  have first := (Text.ends_of_trim_eq_self trimmed).1
  rw [whole] at first
  cases rest with
  | nil => rfl
  | cons b rest => exact absurd (blank b rfl) (by simp [first b rfl])

/-- A line with a comment at its end is read like the line. -/
theorem parse_append_comment {comment : String} (trimmed : Text.trim line.toList = line.toList)
    (plain : ¬ IsLoad name) (whole : line.toList = name ++ rest) (solid : Text.Solid name)
    (blank : ∀ b ∈ rest.head?, Text.isBlank b = true) (single : '\n' ∉ comment.toList) :
    parse (line ++ " ;" ++ comment) = parse line := by
  have last := (Text.ends_of_trim_eq_self trimmed).2
  have longer : (line ++ " ;" ++ comment).toList =
      name ++ (rest ++ ' ' :: ';' :: comment.toList) := by
    simp [whole]
  by_cases some : name = []
  · subst some
    obtain rfl : rest = [] := eq_nil_of_trimmed trimmed whole blank
    have none : parse line = .ok none := by
      rw [parse, whole]
      rfl
    rw [none]
    apply parse_of_comment
    rw [longer, List.nil_append, List.nil_append, Text.trim_cons_of_blank rfl]
    exact Text.trim_cons_of_solid rfl _
  · refine parse_congr some solid plain longer whole ?_ blank ?_
    · cases rest with
      | nil =>
        rintro b ⟨⟩
        rfl
      | cons b rest => exact blank
    · refine Argument.ofChars_trim_comment (fun c hc => last c ?_) single
      rw [whole, List.getLast?_append, Option.mem_def.mp hc]
      rfl

/-- A line with spaces for commas is read like the line. -/
theorem parse_respaced (trimmed : Text.trim line.toList = line.toList)
    (plain : ¬ IsLoad name) (whole : line.toList = name ++ rest) (solid : Text.Solid name)
    (blank : ∀ b ∈ rest.head?, Text.isBlank b = true)
    (skips : ∀ c ∈ line.toList, Text.isBlank c = true → Token.isSkipped c = true)
    (spaced : Text.Respaced rest respaced) :
    parse (String.ofList (name ++ respaced)) = parse line := by
  by_cases some : name = []
  · subst some
    obtain rfl : rest = [] := eq_nil_of_trimmed trimmed whole blank
    cases spaced
    rw [← whole, String.ofList_toList]
  · have skips : ∀ c ∈ rest, Text.isBlank c = true → Token.isSkipped c = true :=
      fun c hc => skips c (whole ▸ List.mem_append_right name hc)
    refine parse_congr some solid plain (String.toList_ofList) whole (spaced.head_blank blank)
      blank ?_
    rw [Argument.ofChars_trim skips, Argument.ofChars_trim (spaced.forall_blank rfl skips),
      Argument.ofChars_of_respaced spaced]

end Line

/-- A line is read as if there were no comment at its end and, where all blanks are such that the
lexer skips them, as if the commas among its arguments were spaces. -/
theorem parse_ignores_separators (line : String) (trimmed : Text.trim line.toList = line.toList)
    (plain : ¬ IsLoad (Text.splitWord line.toList).1) :
    (∀ comment : String, '\n' ∉ comment.toList →
      parse (line ++ " ;" ++ comment) = parse line) ∧
    ((∀ c ∈ line.toList, Text.isBlank c = true → Token.isSkipped c = true) →
      ∀ name rest respaced, line.toList = name ++ rest → Text.Solid name →
        (∀ b ∈ rest.head?, Text.isBlank b = true) → Text.Respaced rest respaced →
          parse (String.ofList (name ++ respaced)) = parse line) := by
  constructor
  · intro comment single
    obtain ⟨name, rest, whole, solid, blank⟩ := Text.exists_word line.toList
    rw [whole, Text.fst_splitWord_append solid blank] at plain
    exact parse_append_comment trimmed plain whole solid blank single
  · intro skips name rest respaced whole solid blank spaced
    rw [whole, Text.fst_splitWord_append solid blank] at plain
    exact parse_respaced trimmed plain whole solid blank skips spaced

/-- An instruction with commas, with a comment and with spaces. -/
theorem parse_ignores_separators_eval :
    parse "eval add r1,R1,#-1" = .ok (some (.eval (.instr (.add 1 1 (.imm (-1)))))) ∧
      parse "eval add r1,R1,#-1 ;one, less" = parse "eval add r1,R1,#-1" ∧
      parse "eval add r1 R1 #-1" = parse "eval add r1,R1,#-1" := by
  have both := parse_ignores_separators "eval add r1,R1,#-1" (by decide) (by decide)
  have solid : Text.Solid ['e', 'v', 'a', 'l'] :=
    .cons rfl (.cons rfl (.cons rfl (.cons rfl nofun)))
  have blank : ∀ b ∈ " add r1,R1,#-1".toList.head?, Text.isBlank b = true := by
    rintro b ⟨⟩
    rfl
  have spaced : Text.Respaced " add r1,R1,#-1".toList " add r1 R1 #-1".toList := by
    unfold Text.Respaced
    decide
  have all : "eval add r1,R1,#-1".toList.all (fun c => !Text.isBlank c || Token.isSkipped c) =
      true := by decide
  have skips : ∀ c ∈ "eval add r1,R1,#-1".toList, Text.isBlank c = true →
      Token.isSkipped c = true := by
    intro c hc blank
    simpa only [blank, Bool.not_true, Bool.false_or] using List.all_eq_true.mp all c hc
  exact ⟨by decide +kernel, both.1 "one, less" (by decide),
    both.2 skips _ _ _ (by decide) solid blank spaced⟩

end Command

end Shell

end Lc4
