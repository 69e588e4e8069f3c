import Lc4.Proofs.Operands
import Lc4.Shell.Command
import Mathlib.Data.List.DropRight

/-!
# How lines are taken apart

Blanks at the ends of a line and around its arguments do not count. A command whose arguments are
read one by one depends on its name and on the arguments that its text has, and not on the text.
-/
namespace Lc4

namespace Text

/-- Trimming drops blanks at the front and then at the end. -/
theorem trim_eq_rdropWhile (cs : List Char) :
    trim cs = (cs.dropWhile isBlank).rdropWhile isBlank :=
  rfl

theorem trim_concat_of_blank {c : Char} (blank : isBlank c = true) (cs : List Char) :
    trim (cs ++ [c]) = trim cs := by
  have last : [c].dropWhile isBlank = [] := List.dropWhile_cons_of_pos blank
  rw [trim_eq_rdropWhile, trim_eq_rdropWhile, List.dropWhile_append, last]
  split
  · rename_i none
    rw [List.isEmpty_iff.mp none]
  · rw [List.rdropWhile_concat_pos _ _ _ blank]

theorem trim_cons_of_blank {c : Char} (blank : isBlank c = true) (cs : List Char) :
    trim (c :: cs) = trim cs := by
  rw [trim_eq_rdropWhile, trim_eq_rdropWhile, List.dropWhile_cons_of_pos blank]

theorem trim_append_of_blank {blanks : List Char} (blank : ∀ b ∈ blanks, isBlank b = true)
    (cs : List Char) : trim (blanks ++ cs) = trim cs := by
  induction blanks with
  | nil => rfl
  | cons b blanks ih =>
    rw [List.forall_mem_cons] at blank
    rw [List.cons_append, trim_cons_of_blank blank.1, ih blank.2]

/-- What trimming leaves alone has no blank at its ends. -/
theorem ends_of_trim_eq_self {cs : List Char} (h : trim cs = cs) :
    (∀ c ∈ cs.head?, isBlank c = false) ∧ ∀ c ∈ cs.getLast?, isBlank c = false := by
  have inner := (List.rdropWhile_prefix isBlank (cs.dropWhile isBlank)).length_le
  have outer := (List.dropWhile_suffix isBlank (l := cs)).length_le
  rw [← trim_eq_rdropWhile, h] at inner
  have front : cs.dropWhile isBlank = cs :=
    (List.dropWhile_suffix isBlank).eq_of_length (by omega)
  have back : cs.rdropWhile isBlank = cs := by rwa [trim_eq_rdropWhile, front] at h
  constructor
  · cases cs with
    | nil => nofun
    | cons d cs =>
      rintro c ⟨⟩
      simpa using List.dropWhile_eq_self_iff.mp front
  · intro c hc
    obtain ⟨front, rfl⟩ := List.getLast?_eq_some_iff.mp hc
    simpa using List.rdropWhile_eq_self_iff.mp back (by simp)

section Solid
variable {c : Char}

theorem dropWhile_append_solid (solid : isBlank c = false) (front tail : List Char) :
    (front ++ c :: tail).dropWhile isBlank = front.dropWhile isBlank ++ c :: tail := by
  rw [List.dropWhile_append, List.dropWhile_cons_of_neg (by simp [solid])]
  split
  · rename_i none
    rw [List.isEmpty_iff.mp none]
    rfl
  · rfl

theorem rdropWhile_append_solid (solid : isBlank c = false) (front tail : List Char) :
    (front ++ c :: tail).rdropWhile isBlank = front ++ c :: tail.rdropWhile isBlank := by
  induction tail using List.reverseRecOn with
  | nil => simp [solid]
  | append_singleton tail d ih =>
    have split : front ++ c :: (tail ++ [d]) = (front ++ c :: tail) ++ [d] := by simp
    rw [split, List.rdropWhile_concat, List.rdropWhile_concat, ih]
    cases isBlank d <;> simp

/-- With something solid in front, only the end is trimmed. -/
theorem trim_cons_of_solid (solid : isBlank c = false) (cs : List Char) :
    trim (c :: cs) = c :: cs.rdropWhile isBlank := by
  rw [trim_eq_rdropWhile, List.dropWhile_cons_of_neg (by simp [solid])]
  exact rdropWhile_append_solid solid [] cs

/-- Trimming goes no further than to a character at each end that is not blank. -/
theorem trim_append_solid {b d : Char} (first : isBlank c = false) (last : isBlank d = false)
    (front tail : List Char) : trim (front ++ c :: b :: d :: tail) =
      trim (front ++ [c]) ++ b :: d :: tail.rdropWhile isBlank := by
  have inner := rdropWhile_append_solid first (front.dropWhile isBlank)
  have outer := rdropWhile_append_solid last [b] tail
  simp only [List.cons_append, List.nil_append] at outer
  simp only [trim_eq_rdropWhile, dropWhile_append_solid first, inner, outer, List.rdropWhile_nil,
    List.append_assoc, List.cons_append, List.nil_append]

end Solid

theorem fst_splitWord_append {word rest : List Char} (solid : Solid word)
    (blank : ∀ b ∈ rest.head?, isBlank b = true) : (splitWord (word ++ rest)).1 = word := by
  have inside : ∀ c ∈ word, (!isBlank c) = true := fun c hc => by simp [solid c hc]
  have none : rest.takeWhile (fun c => !isBlank c) = [] := by
    cases rest with
    | nil => rfl
    | cons b rest => simp [blank b rfl]
  rw [splitWord, List.takeWhile_append_of_pos inside, none, List.append_nil]

/-- Every line is a word, which may be empty, and what follows it. -/
theorem exists_word (cs : List Char) : ∃ word rest, cs = word ++ rest ∧ Solid word ∧
    ∀ b ∈ rest.head?, isBlank b = true := by
  refine ⟨cs.takeWhile fun c => !isBlank c, cs.dropWhile fun c => !isBlank c,
    List.takeWhile_append_dropWhile.symm, ?_, ?_⟩
  · intro c hc
    simpa using List.mem_takeWhile_imp hc
  · intro b hb
    have stop := List.head?_dropWhile_not (fun c => !isBlank c) cs
    rw [Option.mem_def.mp hb] at stop
    simpa using stop

/-- A word without a blank is all there is. -/
theorem splitWord_of_solid {word : List Char} (solid : Solid word) : splitWord word = (word, []) := by
  have inside : ∀ c ∈ word, (!isBlank c) = true := fun c hc => by simp [solid c hc]
  rw [splitWord, List.takeWhile_eq_self_iff.mpr inside, List.dropWhile_eq_nil_iff.mpr inside]
  rfl

/-- A line that begins with a word is taken apart into this word and the rest. -/
theorem splitWord_trim {word behind : List Char} (some : word ≠ []) (solid : Solid word)
    (blank : ∀ b ∈ behind.head?, isBlank b = true) :
    ∃ kept arguments, trim (word ++ behind) = word ++ kept ∧
      splitWord (word ++ kept) = (word, arguments) ∧ trim arguments = trim behind := by
  have first : ∀ kept, ∀ c ∈ (word ++ kept).head?, isBlank c = false := by
    intro kept c hc
    rw [List.head?_append_of_ne_nil _ some] at hc
    exact solid c (List.mem_of_head? hc)
  induction behind using List.reverseRecOn with
  | nil =>
    have ends : EndsSolid word :=
      ⟨_, List.getLast?_eq_some_getLast some, solid _ (List.getLast_mem some)⟩
    refine ⟨[], [], trim_eq_self (first []) (by simpa using ends), ?_, rfl⟩
    rw [List.append_nil, splitWord_of_solid solid]
  | append_singleton behind d ih =>
    cases last : isBlank d with
    | true =>
      rw [← List.append_assoc, trim_concat_of_blank last, trim_concat_of_blank last]
      exact ih fun b hb => blank b (by simp [Option.mem_def.mp hb])
    | false =>
      cases behind with
      | nil => exact absurd (blank d rfl) (by simp [last])
      | cons b rest =>
        have ends : EndsSolid (rest ++ [d]) := ⟨d, by simp, last⟩
        refine ⟨b :: (rest ++ [d]), rest ++ [d], ?_, ?_, ?_⟩
        · exact trim_eq_self (first _) (.append word (.append [b] ends))
        · rw [splitWord_append solid (blank b rfl)]
        · exact (trim_cons_of_blank (blank b rfl) _).symm

end Text

namespace Shell.Command

theorem parse_of_comment {s : String} {cs : List Char} (line : Text.trim s.toList = ';' :: cs) :
    parse s = .ok none := by
  rw [parse, line]
  rfl

theorem parse_of_trim {s : String} {c : Char} {cs : List Char}
    (line : Text.trim s.toList = c :: cs) (plain : c ≠ ';') : parse s =
      (ofParts (Text.splitWord (c :: cs)).1 (Text.trim (Text.splitWord (c :: cs)).2)).map some := by
  rw [parse, line]
  split
  · rename_i empty
    cases empty
  · rename_i comment
    exact absurd (List.cons.inj comment).1 plain
  · rfl

/-- A line of a word and what follows it. -/
theorem parse_of_word {s : String} {c : Char} {cs behind : List Char}
    (line : s.toList = c :: cs ++ behind) (solid : Text.Solid (c :: cs))
    (blank : ∀ b ∈ behind.head?, Text.isBlank b = true) (plain : c ≠ ';') :
    parse s = (ofParts (c :: cs) (Text.trim behind)).map some := by
  obtain ⟨kept, arguments, whole, parts, same⟩ :=
    Text.splitWord_trim (List.cons_ne_nil c cs) solid blank
  rw [← line, List.cons_append] at whole
  rw [List.cons_append] at parts
  rw [parse_of_trim whole plain, parts, same]

/-- A command that takes the rest of the line as it stands. -/
def IsLoad (name : List Char) : Prop :=
  String.ofList (Text.lower name) = "load" ∨ String.ofList (Text.lower name) = "l"

instance (name : List Char) : Decidable (IsLoad name) :=
  inferInstanceAs (Decidable (_ ∨ _))

theorem ofParts_eval (rest : List Char) :
    (if rest.isEmpty then .error (.missingArgument "an instruction")
      else (Assembly.parse rest).map Command.eval) =
        (Assembly.reader.run' (Argument.ofChars rest)).map .eval := by
  cases rest with
  | nil => rfl
  | cons c rest => rfl

/-- The other commands see only the arguments that the text is made of. -/
theorem ofParts_congr {name rest other : List Char} (plain : ¬ IsLoad name)
    (same : Argument.ofChars rest = Argument.ofChars other) :
    ofParts name rest = ofParts name other := by
  unfold ofParts
  simp only [ofParts_eval, same]
  split
  · rename_i load
    exact absurd (.inl load) plain
  · rename_i load
    exact absurd (.inr load) plain
  all_goals rfl

/-- Lines with one command name do the same if their arguments do. -/
theorem parse_congr {s t : String} {name rest other : List Char} (some : name ≠ [])
    (solid : Text.Solid name) (plain : ¬ IsLoad name)
    (left : s.toList = name ++ rest) (right : t.toList = name ++ other)
    (blank : ∀ b ∈ rest.head?, Text.isBlank b = true)
    (blank' : ∀ b ∈ other.head?, Text.isBlank b = true)
    (same : Argument.ofChars (Text.trim rest) = Argument.ofChars (Text.trim other)) :
    parse s = parse t := by
  obtain ⟨c, cs, rfl⟩ := List.exists_cons_of_ne_nil some
  by_cases comment : c = ';'
  · subst comment
    have none : ∀ {u : String} {behind : List Char}, u.toList = ';' :: cs ++ behind →
        parse u = .ok none := by
      intro u behind line
      apply parse_of_comment
      rw [line]
      exact Text.trim_cons_of_solid rfl (cs ++ behind)
    rw [none left, none right]
  · rw [parse_of_word left solid blank comment, parse_of_word right solid blank' comment,
      ofParts_congr plain same]

end Shell.Command

end Lc4
