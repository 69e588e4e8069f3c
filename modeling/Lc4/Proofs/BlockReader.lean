import Lc4.Object.Reader
import Lc4.Proofs.Records

/-!
# Reading one block

Each part of a block is read exactly if the bytes start with what stands for it. It follows that
a block is read exactly if the bytes start with a record of it, and which fault is met otherwise.
-/
namespace Lc4.Object

section Parts
variable {bytes rest body : List UInt8} {n : Nat}

@[simp] theorem takeWord_toBytes (w : Word) (rest : List UInt8) :
    takeWord (w.toBytes ++ rest) = some (w, rest) := by
  simp [takeWord, Word.toBytes, Word.ofBytes_toBytes]

theorem takeWord_eq_some_iff {w : Word} :
    takeWord bytes = some (w, rest) ↔ w.toBytes ++ rest = bytes := by
  constructor
  · intro h
    match bytes, h with
    | high :: low :: tail, h =>
      obtain ⟨rfl, rfl⟩ : Word.ofBytes high low = w ∧ tail = rest := by simpa [takeWord] using h
      rw [Word.toBytes_ofBytes]
      rfl
  · rintro rfl
    exact takeWord_toBytes w rest

theorem takeWord_eq_none_iff : takeWord bytes = none ↔ bytes.length < 2 := by
  match bytes with
  | [] | [_] => simp [takeWord]
  | _ :: _ :: _ => simp [takeWord]

theorem hasLength_iff : hasLength n bytes = true ↔ n ≤ bytes.length := by
  induction n generalizing bytes with
  | zero => simp [hasLength]
  | succ n ih =>
    cases bytes with
    | nil => simp [hasLength]
    | cons b bytes => simp [hasLength, ih]

theorem takeBytes_eq_some_iff :
    takeBytes n bytes = some (body, rest) ↔ body.length = n ∧ body ++ rest = bytes := by
  constructor
  · intro h
    simp only [takeBytes, hasLength_iff, Option.ite_none_right_eq_some, Option.some.injEq,
      Prod.mk.injEq] at h
    obtain ⟨le, rfl, rfl⟩ := h
    exact ⟨List.length_take_of_le le, List.take_append_drop n bytes⟩
  · rintro ⟨rfl, rfl⟩
    have enough : hasLength body.length (body ++ rest) = true := by
      rw [hasLength_iff, List.length_append]
      omega
    rw [takeBytes, if_pos enough, List.take_left, List.drop_left]

theorem takeBytes_append (body rest : List UInt8) :
    takeBytes body.length (body ++ rest) = some (body, rest) :=
  takeBytes_eq_some_iff.mpr ⟨rfl, rfl⟩

theorem takeName_counted {name : List UInt8} (fits : name.length ≤ maxLength)
    (rest : List UInt8) :
    takeName (counted name.length name ++ rest) = some (Text.Utf8.decode name, rest) := by
  simp [takeName, counted, toNat_count fits, takeBytes_append]

theorem exists_counted_of_takeName {name : String} (h : takeName bytes = some (name, rest)) :
    ∃ body, body.length ≤ maxLength ∧ Text.Utf8.decode body = name ∧
      counted body.length body ++ rest = bytes := by
  simp only [takeName, Option.bind_eq_bind, Option.bind_eq_some_iff, Option.pure_def,
    Option.some.injEq, Prod.mk.injEq] at h
  obtain ⟨⟨len, tail⟩, hlen, ⟨body, rest'⟩, hbody, rfl, rfl⟩ := h
  obtain ⟨length, rfl⟩ := takeBytes_eq_some_iff.mp hbody
  obtain rfl := takeWord_eq_some_iff.mp hlen
  have fits : body.length ≤ maxLength := by
    rw [length]
    exact toNat_le_maxLength len
  refine ⟨body, fits, rfl, ?_⟩
  rw [counted, length, BitVec.ofNat_toNat, BitVec.setWidth_eq, List.append_assoc]

theorem wordsOnto_flatMap (acc ws : List Word) :
    wordsOnto acc (ws.flatMap Word.toBytes) = acc.reverse ++ ws := by
  induction ws generalizing acc with
  | nil => simp [wordsOnto]
  | cons w ws ih =>
    rw [List.flatMap_cons, Word.toBytes, List.cons_append, List.cons_append, List.nil_append,
      wordsOnto, ih, Word.ofBytes_toBytes]
    simp

theorem wordsOf_flatMap (ws : List Word) : wordsOf (ws.flatMap Word.toBytes) = ws :=
  wordsOnto_flatMap [] ws

end Parts

section Block
variable {bytes rest : List UInt8} {b : Block} {kind : BlockKind}

/-- The payload of a record is read whatever follows it. -/
theorem readPayload_payload {r : Record} (fits : r.Fits) (rest : List UInt8) :
    readPayload r.kind (r.payload ++ rest) = .ok (r.block, rest) := by
  cases r with
  | memory part addr words =>
    have count := toNat_count fits
    have body := takeBytes_append (words.flatMap Word.toBytes) rest
    rw [Word.length_flatMap_toBytes] at body
    simp [readPayload, Record.kind, Record.payload, Record.block, counted, count, body,
      wordsOf_flatMap]
  | symbol addr name =>
    simp [readPayload, Record.kind, Record.payload, Record.block, takeName_counted fits]
  | fileName name =>
    simp [readPayload, Record.kind, Record.payload, Record.block, takeName_counted fits]
  | line addr number fileIndex =>
    simp [readPayload, Record.kind, Record.payload, Record.block]

theorem exists_record_of_readPayload_memory {part : Section}
    (h : readPayload (.memory part) bytes = .ok (b, rest)) :
    ∃ r : Record, r.Fits ∧ r.kind = .memory part ∧ r.block = b ∧ r.payload ++ rest = bytes := by
  simp only [readPayload] at h
  split at h
  · cases h
  rename_i addr tail hAddr
  split at h
  · cases h
  rename_i count tail' hCount
  split at h
  case h_2 => cases h
  rename_i body tail'' hBody
  obtain ⟨rfl, rfl⟩ : Block.memory part addr (wordsOf body) = b ∧ tail'' = rest := by
    simpa using h
  obtain ⟨length, rfl⟩ := takeBytes_eq_some_iff.mp hBody
  obtain rfl := takeWord_eq_some_iff.mp hCount
  obtain rfl := takeWord_eq_some_iff.mp hAddr
  obtain ⟨words, hWords, rfl⟩ := Word.exists_flatMap_toBytes length
  have fits : words.length ≤ maxLength := by
    rw [hWords]
    exact toNat_le_maxLength count
  refine ⟨.memory part addr words, fits, rfl, ?_, ?_⟩
  · rw [Record.block, wordsOf_flatMap]
  · rw [Record.payload, counted, hWords, BitVec.ofNat_toNat, BitVec.setWidth_eq,
      List.append_assoc, List.append_assoc]

/-- A payload of another kind is read as a whole or not at all. -/
theorem eq_some_of_whole {whole : Option (Block × List UInt8)}
    (h : (match whole with
      | some result => Except.ok result
      | none => Except.error (none : Option Block)) = .ok (b, rest)) :
    whole = some (b, rest) := by
  cases whole with
  | none => cases h
  | some result => rw [Except.ok.inj h]

/-- Whatever is read, a record of that kind stands at the start. -/
theorem exists_record_of_readPayload (h : readPayload kind bytes = .ok (b, rest)) :
    ∃ r : Record, r.Fits ∧ r.kind = kind ∧ r.block = b ∧ r.payload ++ rest = bytes := by
  cases kind with
  | memory part => exact exists_record_of_readPayload_memory h
  | symbol =>
    have read := eq_some_of_whole h
    simp only [Option.bind_eq_bind, Option.bind_eq_some_iff, Option.pure_def, Option.some.injEq,
      Prod.mk.injEq] at read
    obtain ⟨⟨addr, tail⟩, hAddr, ⟨name, rest⟩, hName, rfl, rfl⟩ := read
    obtain rfl := takeWord_eq_some_iff.mp hAddr
    obtain ⟨body, fits, rfl, rfl⟩ := exists_counted_of_takeName hName
    exact ⟨.symbol addr body, fits, rfl, rfl, List.append_assoc _ _ _⟩
  | fileName =>
    have read := eq_some_of_whole h
    simp only [Option.bind_eq_bind, Option.bind_eq_some_iff, Option.pure_def, Option.some.injEq,
      Prod.mk.injEq] at read
    obtain ⟨⟨name, rest⟩, hName, rfl, rfl⟩ := read
    obtain ⟨body, fits, rfl, rfl⟩ := exists_counted_of_takeName hName
    exact ⟨.fileName body, fits, rfl, rfl, rfl⟩
  | line =>
    have read := eq_some_of_whole h
    simp only [Option.bind_eq_bind, Option.bind_eq_some_iff, Option.pure_def, Option.some.injEq,
      Prod.mk.injEq] at read
    obtain ⟨⟨addr, tail⟩, hAddr, ⟨number, tail'⟩, hNumber, ⟨fileIndex, rest⟩, hIndex, rfl, rfl⟩ :=
      read
    obtain rfl := takeWord_eq_some_iff.mp hIndex
    obtain rfl := takeWord_eq_some_iff.mp hNumber
    obtain rfl := takeWord_eq_some_iff.mp hAddr
    refine ⟨.line addr number fileIndex, trivial, rfl, rfl, ?_⟩
    rw [Record.payload, List.append_assoc, List.append_assoc]

theorem ofTag?_eq_some_iff {tag : Word} : BlockKind.ofTag? tag = some kind ↔ kind.tag = tag := by
  constructor
  · intro h
    have found := List.find?_some h
    simpa using found
  · rintro rfl
    exact BlockKind.ofTag?_tag kind

theorem ofTag?_eq_none_iff {tag : Word} :
    BlockKind.ofTag? tag = none ↔ ∀ kind : BlockKind, kind.tag ≠ tag := by
  rw [Option.eq_none_iff_forall_ne_some]
  exact forall_congr' fun kind => not_congr ofTag?_eq_some_iff

theorem readBlock_of_short (short : bytes.length < 2) :
    readBlock bytes = .error .trailingByte := by
  simp [readBlock, takeWord_eq_none_iff.mpr short]

theorem readBlock_of_unknown {tag : Word} (unknown : ∀ kind : BlockKind, kind.tag ≠ tag)
    (payload : List UInt8) : readBlock (tag.toBytes ++ payload) = .error (.unknownTag tag) := by
  simp [readBlock, ofTag?_eq_none_iff.mpr unknown]

/-- A record is read as its block, whatever follows it. -/
theorem readBlock_record {r : Record} (fits : r.Fits) (rest : List UInt8) :
    readBlock (r.bytes ++ rest) = .ok (r.block, rest) := by
  rw [Record.bytes, List.append_assoc, readBlock]
  simp [readPayload_payload fits]

/-- No payload of the kind is complete in the bytes. -/
def Incomplete (kind : BlockKind) (payload : List UInt8) : Prop :=
  ∀ r : Record, r.Fits → r.kind = kind → ¬ r.payload <+: payload

/-- A payload that is too short for its kind is cut. -/
theorem readBlock_of_incomplete {payload : List UInt8} (incomplete : Incomplete kind payload) :
    ∃ part, readBlock (kind.tag.toBytes ++ payload) = .error (.truncated kind part) := by
  cases read : readPayload kind payload with
  | error part => exact ⟨part, by simp [readBlock, read]⟩
  | ok result =>
    obtain ⟨r, fits, hKind, -, rfl⟩ := exists_record_of_readPayload read
    exact absurd (List.prefix_append r.payload result.2) (incomplete r fits hKind)

/-- What stands at the front of a byte string, and what is read there. -/
inductive Front : List UInt8 → Except BlockFault (Block × List UInt8) → Prop
  | short {bytes : List UInt8} (short : bytes.length < 2) : Front bytes (.error .trailingByte)
  | unknown {tag : Word} (payload : List UInt8) (unknown : ∀ kind : BlockKind, kind.tag ≠ tag) :
    Front (tag.toBytes ++ payload) (.error (.unknownTag tag))
  | incomplete {kind : BlockKind} {payload : List UInt8} (part : Option Block)
    (incomplete : Incomplete kind payload) :
    Front (kind.tag.toBytes ++ payload) (.error (.truncated kind part))
  | record {r : Record} (rest : List UInt8) (fits : r.Fits) :
    Front (r.bytes ++ rest) (.ok (r.block, rest))

/-- The four things that bytes can start with, and what each of them reads as. -/
theorem front_readBlock (bytes : List UInt8) : Front bytes (readBlock bytes) := by
  cases word : takeWord bytes with
  | none =>
    have short := takeWord_eq_none_iff.mp word
    rw [readBlock_of_short short]
    exact .short short
  | some result =>
    obtain ⟨tag, payload⟩ := result
    obtain rfl := takeWord_eq_some_iff.mp word
    by_cases known : ∃ kind : BlockKind, kind.tag = tag
    · obtain ⟨kind, rfl⟩ := known
      by_cases complete : ∃ r : Record, r.Fits ∧ r.kind = kind ∧ r.payload <+: payload
      · obtain ⟨r, fits, rfl, rest, rfl⟩ := complete
        rw [← List.append_assoc, ← Record.bytes, readBlock_record fits]
        exact .record rest fits
      · have incomplete : Incomplete kind payload :=
          fun r fits hKind whole => complete ⟨r, fits, hKind, whole⟩
        obtain ⟨part, read⟩ := readBlock_of_incomplete incomplete
        rw [read]
        exact .incomplete part incomplete
    · have unknown : ∀ kind : BlockKind, kind.tag ≠ tag := not_exists.mp known
      rw [readBlock_of_unknown unknown]
      exact .unknown payload unknown

/-- A block is read exactly if the bytes start with a record of it. -/
theorem readBlock_eq_ok_iff :
    readBlock bytes = .ok (b, rest) ↔
      ∃ r : Record, r.Fits ∧ r.block = b ∧ r.bytes ++ rest = bytes := by
  constructor
  · intro read
    have front := front_readBlock bytes
    rw [read] at front
    cases front with
    | record _ fits => exact ⟨_, fits, rfl, rfl⟩
  · rintro ⟨r, fits, rfl, rfl⟩
    exact readBlock_record fits rest

theorem readBlock_eq_trailingByte_iff :
    readBlock bytes = .error .trailingByte ↔ bytes.length < 2 := by
  constructor
  · intro read
    have front := front_readBlock bytes
    rw [read] at front
    cases front with
    | short short => exact short
  · exact readBlock_of_short

theorem readBlock_eq_unknownTag_iff {tag : Word} :
    readBlock bytes = .error (.unknownTag tag) ↔
      tag.toBytes <+: bytes ∧ ∀ kind : BlockKind, kind.tag ≠ tag := by
  constructor
  · intro read
    have front := front_readBlock bytes
    rw [read] at front
    cases front with
    | unknown payload unknown => exact ⟨List.prefix_append _ payload, unknown⟩
  · rintro ⟨⟨payload, rfl⟩, unknown⟩
    exact readBlock_of_unknown unknown payload

/-- A block is cut exactly if a known tag stands in front of too few bytes. -/
theorem readBlock_eq_truncated_iff :
    (∃ part, readBlock bytes = .error (.truncated kind part)) ↔
      ∃ payload, kind.tag.toBytes ++ payload = bytes ∧ Incomplete kind payload := by
  constructor
  · rintro ⟨part, read⟩
    have front := front_readBlock bytes
    rw [read] at front
    cases front with
    | incomplete _ incomplete => exact ⟨_, rfl, incomplete⟩
  · rintro ⟨payload, rfl, incomplete⟩
    exact readBlock_of_incomplete incomplete

end Block

end Lc4.Object
