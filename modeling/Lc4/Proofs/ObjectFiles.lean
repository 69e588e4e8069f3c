import Lc4.Proofs.BlockReader

/-!
# Reading and writing object files

A byte string consists of whole records and a rest that does not start with one. The reader gives
the blocks of the records and then the fault that the rest has, unless it is empty. What is
written for a file consists of records alone.
-/
namespace Lc4

namespace Object

/-- The bytes are the records and a rest that does not start with a record. -/
structure Splits (bytes : List UInt8) (records : List Record) (rest : List UInt8) : Prop where
  whole : records.flatMap Record.bytes ++ rest = bytes
  fits : ∀ r ∈ records, r.Fits
  stuck : ∀ r : Record, r.Fits → ¬ r.bytes <+: rest

/-- Any bytes split into records and a rest that starts with none, by induction on their number. -/
theorem exists_splits (bytes : List UInt8) : ∃ records rest, Splits bytes records rest := by
  induction hn : bytes.length using Nat.strongRecOn generalizing bytes with
  | ind n ih =>
    by_cases starts : ∃ r : Record, r.Fits ∧ r.bytes <+: bytes
    · obtain ⟨r, fits, tail, rfl⟩ := starts
      have shorter : tail.length < n := by
        have := r.four_le_length_bytes
        rw [List.length_append] at hn
        omega
      obtain ⟨records, rest, splits⟩ := ih tail.length shorter tail rfl
      refine ⟨r :: records, rest, ?_, ?_, splits.stuck⟩
      · rw [List.flatMap_cons, List.append_assoc, splits.whole]
      · exact List.forall_mem_cons.mpr ⟨fits, splits.fits⟩
    · exact ⟨[], bytes, rfl, by simp, fun r fits starting => starts ⟨r, fits, starting⟩⟩

namespace Splits
variable {bytes rest rest' : List UInt8} {records records' : List Record} {r : Record}

theorem tail (h : Splits bytes (r :: records) rest) :
    Splits (records.flatMap Record.bytes ++ rest) records rest :=
  ⟨rfl, (List.forall_mem_cons.mp h.fits).2, h.stuck⟩

theorem cons_whole (h : Splits bytes (r :: records) rest) :
    r.bytes ++ (records.flatMap Record.bytes ++ rest) = bytes := by
  rw [← h.whole, List.flatMap_cons, List.append_assoc]

theorem unique (h : Splits bytes records rest) (h' : Splits bytes records' rest') :
    records = records' ∧ rest = rest' := by
  induction records generalizing bytes records' with
  | nil =>
    cases records' with
    | nil => exact ⟨rfl, h.whole.trans h'.whole.symm⟩
    | cons r records' =>
      have starts : r.bytes <+: rest := ⟨_, h'.cons_whole.trans h.whole.symm⟩
      exact absurd starts (h.stuck r (h'.fits r List.mem_cons_self))
  | cons r records ih =>
    have hr := h.fits r List.mem_cons_self
    cases records' with
    | nil =>
      have starts : r.bytes <+: rest' := ⟨_, h.cons_whole.trans h'.whole.symm⟩
      exact absurd starts (h'.stuck r hr)
    | cons s records' =>
      have same := h.cons_whole.trans h'.cons_whole.symm
      obtain ⟨rfl, tails⟩ := Record.bytes_append_inj hr (h'.fits s List.mem_cons_self) same
      obtain ⟨rfl, rfl⟩ := ih h.tail (tails ▸ h'.tail)
      exact ⟨rfl, rfl⟩

theorem length_le (h : Splits bytes records rest) :
    4 * records.length + rest.length ≤ bytes.length := by
  induction records generalizing bytes with
  | nil => simp [← h.whole]
  | cons r records ih =>
    have bound := ih h.tail
    have := r.four_le_length_bytes
    rw [← h.cons_whole, List.length_append, List.length_cons]
    omega

end Splits

/-- The fault that a rest at the given offset has, if it has one. -/
def restError (rest : List UInt8) (offset : Nat) : Option ReadError :=
  if rest = [] then none
  else match readBlock rest with
    | .ok _ => none
    | .error fault => some ⟨fault, offset⟩

@[simp] theorem restError_nil (offset : Nat) : restError [] offset = none :=
  rfl

theorem restError_of_stuck {rest : List UInt8} (stuck : ∀ r : Record, r.Fits → ¬ r.bytes <+: rest)
    (nonempty : rest ≠ []) (offset : Nat) :
    ∃ fault, readBlock rest = .error fault ∧ restError rest offset = some ⟨fault, offset⟩ := by
  cases read : readBlock rest with
  | ok result =>
    obtain ⟨r, fits, -, whole⟩ := readBlock_eq_ok_iff.mp read
    exact absurd ⟨_, whole⟩ (stuck r fits)
  | error fault => exact ⟨fault, rfl, by simp [restError, nonempty, read]⟩

theorem length_restError_le (rest : List UInt8) (offset : Nat) :
    (restError rest offset).toList.length ≤ rest.length := by
  cases rest with
  | nil => exact Nat.le_refl 0
  | cons b rest =>
    have := Option.length_toList_le (o := restError (b :: rest) offset)
    rw [List.length_cons]
    omega

/-- The results of reading in the order in which they come. -/
def Contents.results (c : Contents) : List (Except ReadError Block) :=
  c.blocks.map .ok ++ c.error.toList.map .error

namespace Reader

/-- What a reader hands out until it has nothing more. -/
inductive Yields : Reader → List (Except ReadError Block) → Prop
  | stop {r : Reader} (done : r.next? = none) : Yields r []
  | next {r r' : Reader} {x : Except ReadError Block} {xs : List (Except ReadError Block)}
    (read : r.next? = some (x, r')) (later : Yields r' xs) : Yields r (x :: xs)

variable {bytes rest : List UInt8} {records : List Record} {total : Nat}

/-- At the rest the reader yields its fault once and is then done. -/
theorem yields_rest (stuck : ∀ r : Record, r.Fits → ¬ r.bytes <+: rest) :
    Yields ⟨rest, total, false⟩
      (Contents.results ⟨[], restError rest (total - rest.length)⟩) := by
  by_cases empty : rest = []
  · subst empty
    exact .stop rfl
  · obtain ⟨fault, read, error⟩ := restError_of_stuck stuck empty (total - rest.length)
    have last : Yields ⟨rest, total, true⟩ [] := .stop (by simp [next?])
    have first : next? ⟨rest, total, false⟩ =
        some (.error ⟨fault, total - rest.length⟩, ⟨rest, total, true⟩) := by
      simp [next?, empty, read, offset]
    simpa [Contents.results, error] using last.next first

/-- The reader yields the blocks of the records and then the fault of the rest, by induction on the
records. -/
theorem yields_of_splits (h : Splits bytes records rest) :
    Yields ⟨bytes, total, false⟩
      (Contents.results ⟨records.map Record.block, restError rest (total - rest.length)⟩) := by
  induction records generalizing bytes with
  | nil =>
    obtain rfl : rest = bytes := h.whole
    exact yields_rest h.stuck
  | cons r records ih =>
    have read := readBlock_record (h.fits r List.mem_cons_self) (records.flatMap Record.bytes ++ rest)
    rw [h.cons_whole] at read
    have nonempty : bytes ≠ [] := by
      rintro rfl
      have bound := h.length_le
      simp at bound
    have first : next? ⟨bytes, total, false⟩ =
        some (.ok r.block, ⟨records.flatMap Record.bytes ++ rest, total, false⟩) := by
      simp [next?, nonempty, read]
    exact .next first (ih h.tail)

/-- A fold with enough fuel goes through all that the reader yields. -/
theorem foldBlocks_of_yields {σ : Type} (f : σ → Block → σ) {r : Reader} {blocks : List Block}
    {error : Option ReadError} {fuel : Nat} (h : r.Yields (Contents.results ⟨blocks, error⟩))
    (enough : blocks.length + error.toList.length ≤ fuel) (s : σ) :
    r.foldBlocks f fuel s = (blocks.foldl f s, error) := by
  induction blocks generalizing r fuel s with
  | nil =>
    cases error with
    | none =>
      cases h with
      | stop done =>
        cases fuel with
        | zero => rfl
        | succ fuel => simp [foldBlocks, done]
    | some e =>
      obtain ⟨fuel, rfl⟩ := Nat.exists_eq_add_of_le' (show 1 ≤ fuel by simpa using enough)
      cases h with
      | next read later => simp [foldBlocks, read]
  | cons b blocks ih =>
    rw [List.length_cons] at enough
    obtain ⟨fuel, rfl⟩ := Nat.exists_eq_add_of_le' (show 1 ≤ fuel by omega)
    have left : blocks.length + error.toList.length ≤ fuel := by omega
    cases h with
    | next read later =>
      rw [foldBlocks, read]
      exact ih later left (f s b)

end Reader

/-- A fold over bytes has as much fuel as there are bytes. A record takes several of them, so this is
enough for the blocks and the error. -/
theorem foldBlocks_of_splits {σ : Type} (f : σ → Block → σ) (s : σ) {bytes rest : List UInt8}
    {records : List Record} (h : Splits bytes records rest) :
    foldBlocks f s bytes =
      ((records.map Record.block).foldl f s, restError rest (bytes.length - rest.length)) := by
  apply Reader.foldBlocks_of_yields f (Reader.yields_of_splits h)
  have bound := h.length_le
  have errors := length_restError_le rest (bytes.length - rest.length)
  rw [List.length_map]
  omega

namespace Contents

/-- Where reading stopped, in a byte string of the given length. -/
def stop (c : Contents) (length : Nat) : Nat :=
  match c.error with
  | none => length
  | some e => e.offset

/-- What is wrong with the block where reading stopped. -/
def fault? (c : Contents) : Option BlockFault :=
  c.error.map ReadError.fault

variable {bytes rest : List UInt8} {records : List Record}

/-- The contents of bytes, read off how they split. -/
theorem ofBytes_of_splits (h : Splits bytes records rest) :
    ofBytes bytes = ⟨records.map Record.block, restError rest (bytes.length - rest.length)⟩ := by
  rw [ofBytes, foldBlocks_of_splits _ _ h]
  simp

theorem error_eq_none_iff (h : Splits bytes records rest) :
    (ofBytes bytes).error = none ↔ rest = [] := by
  rw [ofBytes_of_splits h]
  by_cases empty : rest = []
  · simp [empty]
  · obtain ⟨fault, -, error⟩ := restError_of_stuck h.stuck empty (bytes.length - rest.length)
    simp [empty, error]

theorem fault?_eq_some_iff (h : Splits bytes records rest) {fault : BlockFault} :
    (ofBytes bytes).fault? = some fault ↔ rest ≠ [] ∧ readBlock rest = .error fault := by
  rw [ofBytes_of_splits h]
  by_cases empty : rest = []
  · simp [fault?, empty]
  · obtain ⟨fault, read, error⟩ := restError_of_stuck h.stuck empty (bytes.length - rest.length)
    simp [fault?, empty, error, read]

theorem stop_of_splits (h : Splits bytes records rest) :
    (ofBytes bytes).stop bytes.length = (records.flatMap Record.bytes).length := by
  have length := congrArg List.length h.whole
  rw [List.length_append] at length
  rw [ofBytes_of_splits h]
  by_cases empty : rest = []
  · rw [empty, List.length_nil] at length
    simp [stop, empty, ← length]
  · obtain ⟨fault, -, error⟩ := restError_of_stuck h.stuck empty (bytes.length - rest.length)
    simp only [stop, error]
    omega

theorem take_stop (h : Splits bytes records rest) :
    bytes.take ((ofBytes bytes).stop bytes.length) = records.flatMap Record.bytes := by
  rw [stop_of_splits h, ← h.whole, List.take_left]

theorem drop_stop (h : Splits bytes records rest) :
    bytes.drop ((ofBytes bytes).stop bytes.length) = rest := by
  rw [stop_of_splits h, ← h.whole, List.drop_left]

end Contents

end Object

namespace ObjectFile

open Object

variable {bytes rest : List UInt8} {records : List Record}

theorem toBytes_records (f : ObjectFile) :
    f.toBytes = (f.blocks.map Block.record).flatMap Record.bytes := by
  rw [toBytes, List.flatMap_map]
  exact congrArg f.blocks.flatMap (funext Block.toBytes_eq_record_bytes)

/-- What is written for a file splits into its records with nothing left. -/
theorem splits_toBytes (f : ObjectFile) : Splits f.toBytes (f.blocks.map Block.record) [] := by
  refine ⟨by rw [List.append_nil, toBytes_records], ?_, fun r _ => r.not_prefix_nil⟩
  intro r hr
  obtain ⟨b, -, rfl⟩ := List.mem_map.mp hr
  exact b.fits_record

/-- Records whose names are valid are written again as they stood. -/
theorem toBytes_of_splits (h : Splits bytes records rest) (valid : ∀ r ∈ records, r.NameValid) :
    toBytes ⟨records.map Record.block⟩ = records.flatMap Record.bytes := by
  have same : records.map (Block.record ∘ Record.block) = records.map id :=
    List.map_congr_left fun r hr => Record.record_block (h.fits r hr) (valid r hr)
  rw [toBytes_records, List.map_map, same, List.map_id]

/-- What was written for a file is read back, with the lists and names that are too long cut. -/
theorem ofBytes_toBytes_cut (f : ObjectFile) :
    ofBytes f.toBytes = .ok ⟨f.blocks.map Block.cut⟩ ∧
      ((∀ b ∈ f.blocks, b.Fits) → ofBytes f.toBytes = .ok f) := by
  have read : ofBytes f.toBytes = .ok ⟨f.blocks.map Block.cut⟩ := by
    rw [ofBytes, Contents.ofBytes_of_splits f.splits_toBytes, restError_nil]
    simp [Function.comp_def, Block.block_record]
  refine ⟨read, fun fits => ?_⟩
  have same : f.blocks.map Block.cut = f.blocks.map id :=
    List.map_congr_left fun b hb => Block.cut_of_fits (fits b hb)
  rw [read, same, List.map_id]

/-- A file whose name has a letter outside ASCII. -/
theorem ofBytes_toBytes_cut_symbol :
    let f : ObjectFile := ⟨[.symbol 0x4000 "ÄRGER", .memory .code 0x4000 [0x9205]]⟩
    (∀ b ∈ f.blocks, b.Fits) ∧ ofBytes f.toBytes = .ok f := by
  intro f
  have fits : ∀ b ∈ f.blocks, b.Fits := by decide
  exact ⟨fits, (ofBytes_toBytes_cut f).2 fits⟩

end ObjectFile

namespace Object

/-- The names that are read from the bytes stand there as valid text. -/
def NamesValid (bytes : List UInt8) : Prop :=
  ∀ records rest, Splits bytes records rest → ∀ r ∈ records, r.NameValid

theorem namesValid_iff {bytes rest : List UInt8} {records : List Record}
    (h : Splits bytes records rest) : NamesValid bytes ↔ ∀ r ∈ records, r.NameValid := by
  constructor
  · exact fun valid => valid records rest h
  · intro valid records' rest' h'
    obtain ⟨rfl, -⟩ := h.unique h'
    exact valid

/-- What was read is written again byte by byte if its names are valid. -/
theorem toBytes_contents {bytes : List UInt8} (valid : NamesValid bytes) :
    ObjectFile.toBytes ⟨(Contents.ofBytes bytes).blocks⟩ =
      bytes.take ((Contents.ofBytes bytes).stop bytes.length) := by
  obtain ⟨records, rest, splits⟩ := exists_splits bytes
  have names := (namesValid_iff splits).mp valid
  rw [Contents.take_stop splits, ← ObjectFile.toBytes_of_splits splits names,
    Contents.ofBytes_of_splits splits]

/-- The reader takes every byte string apart exactly. -/
theorem reader_exact (bytes : List UInt8) :
    let c := Contents.ofBytes bytes
    let o := c.stop bytes.length
    let rest := bytes.drop o
    (Reader.ofBytes bytes).Yields c.results ∧
    c.blocks.length ≤ bytes.length / 4 ∧
    (∃ records, Splits bytes records rest ∧ c.blocks = records.map Record.block) ∧
    (NamesValid bytes → ObjectFile.toBytes ⟨c.blocks⟩ = bytes.take o) ∧
    (∀ other, NamesValid bytes → NamesValid other → c.error = none →
      Contents.ofBytes other = c → other = bytes) ∧
    (c.error = none ↔ rest = []) ∧
    (c.fault? = some .trailingByte ↔ rest.length = 1) ∧
    (∀ tag, c.fault? = some (.unknownTag tag) ↔
      tag.toBytes <+: rest ∧ ∀ kind : BlockKind, kind.tag ≠ tag) ∧
    ∀ kind, (∃ part, c.fault? = some (.truncated kind part)) ↔
      ∃ payload, kind.tag.toBytes ++ payload = rest ∧ Incomplete kind payload := by
  intro c o rest
  obtain ⟨records, tail, splits⟩ := exists_splits bytes
  obtain rfl : rest = tail := Contents.drop_stop splits
  have faults : ∀ fault, c.fault? = some fault ↔ rest ≠ [] ∧ readBlock rest = .error fault :=
    fun fault => Contents.fault?_eq_some_iff splits
  have blocks : c.blocks = records.map Record.block := by
    rw [show c = _ from Contents.ofBytes_of_splits splits]
  refine ⟨?_, ?_, ⟨records, splits, blocks⟩, toBytes_contents, ?_,
    Contents.error_eq_none_iff splits, ?_, fun tag => ?_, fun kind => ?_⟩
  · rw [show c = _ from Contents.ofBytes_of_splits splits]
    exact Reader.yields_of_splits splits
  · have bound := splits.length_le
    rw [blocks, List.length_map]
    omega
  · intro other valid valid' whole same
    have written := toBytes_contents valid'
    rw [same, Contents.stop, whole, List.take_length] at written
    rw [← written, toBytes_contents valid, Contents.stop, whole, List.take_length]
  · rw [faults, readBlock_eq_trailingByte_iff, ← List.length_pos_iff]
    omega
  · rw [faults, readBlock_eq_unknownTag_iff, and_iff_right_iff_imp]
    rintro ⟨⟨payload, whole⟩, -⟩ empty
    simp [Word.toBytes, empty] at whole
  · simp only [faults, exists_and_left]
    rw [readBlock_eq_truncated_iff, and_iff_right_iff_imp]
    rintro ⟨payload, whole, -⟩ empty
    simp [Word.toBytes, empty] at whole

/-- A file name of one letter that takes two bytes, and the first byte of a tag. -/
theorem reader_exact_trailing :
    NamesValid [0xF1, 0x7E, 0x00, 0x02, 0xC3, 0x84, 0xCA] ∧
      ObjectFile.toBytes ⟨[.fileName "Ä"]⟩ = [0xF1, 0x7E, 0x00, 0x02, 0xC3, 0x84] := by
  have short : readBlock [0xCA] = .error .trailingByte := readBlock_of_short (by decide)
  have splits : Splits [0xF1, 0x7E, 0x00, 0x02, 0xC3, 0x84, 0xCA]
      [.fileName [0xC3, 0x84]] [0xCA] := by
    refine ⟨by decide, by simp [Record.Fits, maxLength], ?_⟩
    rintro r fits ⟨rest, whole⟩
    rw [← whole, readBlock_record fits] at short
    cases short
  have valid := (namesValid_iff splits).mpr (List.forall_mem_singleton.mpr ⟨"Ä", by decide⟩)
  have read : Contents.ofBytes [0xF1, 0x7E, 0x00, 0x02, 0xC3, 0x84, 0xCA] =
      ⟨[.fileName "Ä"], some ⟨.trailingByte, 6⟩⟩ := by decide +kernel
  have written := (reader_exact [0xF1, 0x7E, 0x00, 0x02, 0xC3, 0x84, 0xCA]).2.2.2.1 valid
  rw [read] at written
  exact ⟨valid, written⟩

end Object

end Lc4
