import Lc4.Proofs.Loading

/-!
# Files that are cut off

A file that is cut off after some of its bytes still loads up to the last block that is whole. The
block in which the cut falls is reported at its offset; if it fills memory and its header is there,
its complete words are loaded too.
-/
namespace Lc4

namespace Object

section Words

theorem take_toBytes_append {n : Nat} (w : Word) (rest : List UInt8) (enough : 2 ≤ n) :
    (w.toBytes ++ rest).take n = w.toBytes ++ rest.take (n - 2) := by
  rw [List.take_append, List.take_of_length_le enough, Word.length_toBytes]

/-- Cut bytes hold the words that are whole. -/
theorem wordsOnto_take (acc ws : List Word) (n : Nat) :
    wordsOnto acc ((ws.flatMap Word.toBytes).take n) = acc.reverse ++ ws.take (n / 2) := by
  induction ws generalizing acc n with
  | nil => simp [wordsOnto]
  | cons w ws ih =>
    by_cases enough : 2 ≤ n
    · obtain ⟨k, rfl⟩ := Nat.exists_eq_add_of_le' enough
      rw [List.flatMap_cons, take_toBytes_append w _ enough, Word.toBytes, List.cons_append,
        List.cons_append, List.nil_append, wordsOnto, ih, Word.ofBytes_toBytes]
      simp
    · have none : n / 2 = 0 := Nat.div_eq_of_lt (Nat.lt_of_not_le enough)
      rw [none, List.take_zero, List.append_nil]
      obtain rfl | rfl : n = 0 ∨ n = 1 := by omega
      · rfl
      · rfl

theorem wordsOf_take (ws : List Word) (n : Nat) :
    wordsOf ((ws.flatMap Word.toBytes).take n) = ws.take (n / 2) :=
  wordsOnto_take [] ws n

theorem takeBytes_eq_none_iff {n : Nat} {bytes : List UInt8} :
    takeBytes n bytes = none ↔ bytes.length < n := by
  rw [takeBytes, ← Nat.not_le, ← hasLength_iff]
  by_cases h : hasLength n bytes = true <;> simp [h]

end Words

/-- What is read of a block of which only the first `n` bytes are there: its complete words, if
tag, address and length are there. -/
def Block.begun? (n : Nat) : Block → Option Block
  | .memory part addr words =>
    if 6 ≤ n then some (.memory part addr (words.take ((n - 6) / 2))) else none
  | .symbol _ _ | .fileName _ | .line _ _ _ => none

section Cut
variable {r s : Record} {n : Nat} {part? : Option Block}

theorem readPayload_of_no_header {part : Section} {bytes : List UInt8} (short : bytes.length < 4) :
    readPayload (.memory part) bytes = .error none := by
  cases address : takeWord bytes with
  | none => simp only [readPayload, address]
  | some result =>
    obtain ⟨addr, tail⟩ := result
    obtain rfl := takeWord_eq_some_iff.mp address
    rw [List.length_append, Word.length_toBytes] at short
    have count : takeWord tail = none := takeWord_eq_none_iff.mpr (by omega)
    simp only [readPayload, address, count]

/-- A memory block with a header and too few words keeps the whole ones. -/
theorem readPayload_of_header {part : Section} {addr count : Word} {body : List UInt8}
    (short : body.length < 2 * count.toNat) :
    readPayload (.memory part) (addr.toBytes ++ (count.toBytes ++ body)) =
      .error (some (.memory part addr (wordsOf body))) := by
  simp only [readPayload, takeWord_toBytes, takeBytes_eq_none_iff.mpr short]

/-- A cut memory block reads as much as is begun of it. -/
theorem readPayload_memory_take {part : Section} {addr : Word} {words : List Word}
    (fits : words.length ≤ maxLength)
    (short : n < (Record.memory part addr words).payload.length) :
    readPayload (.memory part) ((Record.memory part addr words).payload.take n) =
      .error ((Block.memory part addr words).begun? (n + 2)) := by
  by_cases header : 4 ≤ n
  · have split : (Record.memory part addr words).payload.take n =
        addr.toBytes ++ (Word.toBytes (BitVec.ofNat 16 words.length) ++
          (words.flatMap Word.toBytes).take (n - 4)) := by
      rw [Record.payload, counted, take_toBytes_append _ _ (by omega),
        take_toBytes_append _ _ (by omega), Nat.sub_sub]
    have body : ((words.flatMap Word.toBytes).take (n - 4)).length <
        2 * (BitVec.ofNat 16 words.length).toNat := by
      rw [Record.payload, counted, List.length_append, List.length_append, Word.length_toBytes,
        Word.length_toBytes, Word.length_flatMap_toBytes] at short
      rw [toNat_count fits, List.length_take]
      omega
    have complete : 6 ≤ n + 2 := by omega
    rw [split, readPayload_of_header body, wordsOf_take, Block.begun?, if_pos complete,
      Nat.add_sub_add_right]
  · have none : ((Record.memory part addr words).payload.take n).length < 4 := by
      rw [List.length_take]
      omega
    have incomplete : ¬ 6 ≤ n + 2 := by omega
    rw [readPayload_of_no_header none, Block.begun?, if_neg incomplete]

/-- A payload of another kind that cannot be read gives no part. -/
theorem part_eq_none_of_whole {whole : Option (Block × List UInt8)}
    (h : (match whole with
      | some result => Except.ok result
      | none => Except.error (none : Option Block)) = .error part?) : part? = none := by
  cases whole with
  | none => exact (Except.error.inj h).symm
  | some result => cases h

/-- Whatever its kind, a record that is cut behind its tag reads as much as is begun of it. -/
theorem part_of_readPayload (fits : r.Fits) (short : n < r.payload.length)
    (read : readPayload r.kind (r.payload.take n) = .error part?) :
    part? = r.block.begun? (n + 2) := by
  cases r with
  | memory part addr words =>
    have parts := (readPayload_memory_take fits short).symm.trans read
    exact (Except.error.inj parts).symm
  | symbol | fileName | line => exact part_eq_none_of_whole read

/-- A record that is cut short starts with no record at all. -/
theorem Record.not_prefix_take (fits : r.Fits) (fits' : s.Fits) (short : n < r.bytes.length) :
    ¬ s.bytes <+: r.bytes.take n := by
  rintro ⟨rest, whole⟩
  have same : s.bytes ++ (rest ++ r.bytes.drop n) = r.bytes ++ [] := by
    rw [← List.append_assoc, whole, List.take_append_drop, List.append_nil]
  obtain ⟨rfl, -⟩ := Record.bytes_append_inj fits' fits same
  have lengths := congrArg List.length whole
  rw [List.length_append, List.length_take] at lengths
  omega

/-- A cut record is reported as cut, with as much of it as is begun. -/
theorem readBlock_take (fits : r.Fits) (enough : 2 ≤ n) (short : n < r.bytes.length) :
    readBlock (r.bytes.take n) = .error (.truncated r.kind (r.block.begun? n)) := by
  have split : r.bytes.take n = r.kind.tag.toBytes ++ r.payload.take (n - 2) :=
    take_toBytes_append r.kind.tag r.payload enough
  cases read : readPayload r.kind (r.payload.take (n - 2)) with
  | ok result =>
    have whole : readBlock (r.bytes.take n) = .ok result := by
      rw [split]
      simp [readBlock, read]
    obtain ⟨s, fits', -, starts⟩ := readBlock_eq_ok_iff.mp whole
    exact absurd ⟨_, starts⟩ (Record.not_prefix_take fits fits' short)
  | error part? =>
    have inside : n - 2 < r.payload.length := by
      rw [Record.bytes, List.length_append, Word.length_toBytes] at short
      omega
    have part := part_of_readPayload fits inside read
    rw [Nat.sub_add_cancel enough] at part
    rw [split]
    simp [readBlock, read, part]

end Cut

/-- The number of bytes that records take up. -/
def size (records : List Record) : Nat :=
  (records.flatMap Record.bytes).length

theorem size_cons (r : Record) (records : List Record) :
    size (r :: records) = r.bytes.length + size records := by
  rw [size, List.flatMap_cons, List.length_append, size]

theorem size_append (before after : List Record) :
    size (before ++ after) = size before + size after := by
  rw [size, List.flatMap_append, List.length_append, size, size]

theorem size_take_le (k : Nat) (records : List Record) : size (records.take k) ≤ size records := by
  have parts := size_append (records.take k) (records.drop k)
  rw [List.take_append_drop] at parts
  omega

/-- The first `k` blocks of the bytes take up `p` bytes. -/
def Boundary (bytes : List UInt8) (k p : Nat) : Prop :=
  ∃ records rest, Splits bytes records rest ∧ k ≤ records.length ∧ size (records.take k) = p

/-- A cut that leaves `n` bytes leaves the records `before` and `j` bytes of those after it, not
all bytes of the first of them. -/
structure Cut (records before after : List Record) (n j : Nat) : Prop where
  parts : records = before ++ after
  left : size before + j = n
  done : after = [] → j = 0
  short : ∀ r rs, after = r :: rs → j < r.bytes.length

/-- Every place in a file falls on the end of some of its records or inside the next. -/
theorem exists_cut (records : List Record) {n : Nat} (inside : n ≤ size records) :
    ∃ before after j, Cut records before after n j := by
  induction records generalizing n with
  | nil =>
    have none : n = 0 := Nat.le_zero.mp inside
    exact ⟨[], [], 0, rfl, none.symm, fun _ => rfl, nofun⟩
  | cons r records ih =>
    by_cases first : n < r.bytes.length
    · refine ⟨[], r :: records, n, rfl, Nat.zero_add n, nofun, ?_⟩
      rintro _ _ ⟨rfl, rfl⟩
      exact first
    · rw [size_cons] at inside
      obtain ⟨before, after, j, cut⟩ := ih (n := n - r.bytes.length) (by omega)
      refine ⟨r :: before, after, j, ?_, ?_, cut.done, cut.short⟩
      · rw [cut.parts, List.cons_append]
      · have left := cut.left
        rw [size_cons]
        omega

namespace Cut
variable {bytes : List UInt8} {records before after : List Record} {n j : Nat}

theorem boundary (cut : Cut records before after n j) (splits : Splits bytes records []) :
    Boundary bytes before.length (size before) := by
  refine ⟨records, [], splits, ?_, ?_⟩
  · rw [cut.parts, List.length_append]
    omega
  · rw [cut.parts, List.take_left]

theorem greatest (cut : Cut records before after n j) (splits : Splits bytes records []) {k q : Nat}
    (boundary : Boundary bytes k q) (inside : q ≤ n) : q ≤ size before := by
  obtain ⟨records', rest, splits', -, rfl⟩ := boundary
  obtain ⟨rfl, -⟩ := splits.unique splits'
  rw [cut.parts, List.take_append, size_append] at inside ⊢
  have whole := size_take_le k before
  cases beyond : after.take (k - before.length) with
  | nil =>
    have none : size [] = 0 := rfl
    omega
  | cons r rs =>
    obtain ⟨rs', starts⟩ : ∃ rs', after = r :: rs' := by
      have parts := List.take_append_drop (k - before.length) after
      rw [beyond] at parts
      exact ⟨_, parts.symm⟩
    have all : before.take k = before := by
      refine List.take_of_length_le (Nat.le_of_not_lt fun less => ?_)
      rw [Nat.sub_eq_zero_of_le (Nat.le_of_lt less), List.take_zero] at beyond
      cases beyond
    have short := cut.short r rs' starts
    have left := cut.left
    rw [all, beyond, size_cons] at inside
    omega

/-- What is left of the bytes: the whole records and the start of the next. -/
theorem splits_take (cut : Cut records before after n j) (splits : Splits bytes records []) :
    Splits (bytes.take n) before ((after.flatMap Record.bytes).take j) := by
  have fits : ∀ r ∈ before ++ after, r.Fits := cut.parts ▸ splits.fits
  have whole := splits.whole
  rw [List.append_nil, cut.parts, List.flatMap_append] at whole
  refine ⟨?_, fun r hr => fits r (List.mem_append_left after hr), ?_⟩
  · rw [← whole, ← cut.left, size, List.take_append,
      List.take_of_length_le (Nat.le_add_right _ j), Nat.add_sub_cancel_left]
  · intro s fits' starts
    cases after with
    | nil =>
      rw [List.flatMap_nil, List.take_nil] at starts
      exact s.not_prefix_nil starts
    | cons r rs =>
      have short := cut.short r rs rfl
      rw [List.flatMap_cons, List.take_append_of_le_length (Nat.le_of_lt short)] at starts
      have last : r.Fits := fits r (List.mem_append_right before List.mem_cons_self)
      exact Record.not_prefix_take last fits' short starts

/-- The fault that the cut makes, and how far the first record that is not whole can be read. -/
def error (before after : List Record) (j : Nat) : Option ReadError :=
  if j = 0 then none
  else if j = 1 then some ⟨.trailingByte, size before⟩
  else after.head?.map fun r => ⟨.truncated r.kind (r.block.begun? j), size before⟩

/-- Cut bytes read as the records in front of the cut, and the error is that of the record it falls
in. -/
theorem contents_take (cut : Cut records before after n j) (splits : Splits bytes records []) :
    Contents.ofBytes (bytes.take n) = ⟨before.map Record.block, error before after j⟩ := by
  have left := cut.splits_take splits
  have offset : (bytes.take n).length - ((after.flatMap Record.bytes).take j).length =
      size before := by
    rw [← left.whole, List.length_append, Nat.add_sub_cancel, size]
  rw [Contents.ofBytes_of_splits left, offset, error]
  cases after with
  | nil =>
    rw [if_pos (cut.done rfl), List.flatMap_nil, List.take_nil, restError_nil]
  | cons r rs =>
    have short := cut.short r rs rfl
    have fits : r.Fits := splits.fits r (cut.parts ▸ List.mem_append_right before List.mem_cons_self)
    rw [List.flatMap_cons, List.take_append_of_le_length (Nat.le_of_lt short), List.head?_cons,
      Option.map_some]
    have length : (r.bytes.take j).length = j := List.length_take_of_le (Nat.le_of_lt short)
    by_cases none : j = 0
    · rw [if_pos none, none, List.take_zero, restError_nil]
    · have nonempty : r.bytes.take j ≠ [] := by
        rw [← List.length_pos_iff, length]
        omega
      rw [if_neg none, restError, if_neg nonempty]
      by_cases one : j = 1
      · rw [if_pos one, readBlock_of_short (by omega)]
      · rw [if_neg one, readBlock_take fits (by omega) short]

/-- Where the cut leaves less than a header, no part of a block is read. -/
theorem part_error (cut : Cut records before after n j) :
    (error before after j).bind ReadError.part? =
      (after.head?.map Record.block).bind (Block.begun? j) := by
  cases after with
  | nil =>
    rw [error, if_pos (cut.done rfl)]
    rfl
  | cons r rs =>
    rw [List.head?_cons, Option.map_some, Option.bind_some, error]
    by_cases header : 6 ≤ j
    · rw [if_neg (by omega), if_neg (by omega)]
      rfl
    · have none : r.block.begun? j = none := by
        cases r with
        | memory => exact if_neg header
        | symbol | fileName | line => rfl
      rw [none]
      repeat' split
      · rfl
      · rfl
      · simp [ReadError.part?, none]

/-- The three ways to cut: at a boundary, behind one byte of a tag, or further inside a record. -/
theorem error_cases (cut : Cut records before after n j) :
    (j = 0 ∧ error before after j = none) ∨
    (j = 1 ∧ error before after j = some ⟨.trailingByte, size before⟩) ∨
    (2 ≤ j ∧ ∃ r rs, after = r :: rs ∧
      error before after j = some ⟨.truncated r.kind (r.block.begun? j), size before⟩) := by
  by_cases zero : j = 0
  · exact .inl ⟨zero, if_pos zero⟩
  · by_cases one : j = 1
    · refine .inr (.inl ⟨one, ?_⟩)
      rw [error, if_neg zero, if_pos one]
    · refine .inr (.inr ⟨by omega, ?_⟩)
      cases after with
      | nil => exact absurd (cut.done rfl) zero
      | cons r rs =>
        refine ⟨r, rs, rfl, ?_⟩
        rw [error, if_neg zero, if_neg one]
        rfl

theorem error_eq_iff (cut : Cut records before after n j) :
    (error before after j = none ↔ j = 0) ∧
      (error before after j = some ⟨.trailingByte, size before⟩ ↔ j = 1) := by
  rcases cut.error_cases with ⟨rfl, error⟩ | ⟨rfl, error⟩ | ⟨two, r, rs, -, error⟩
  · simp [error]
  · simp [error]
  · have header : j ≠ 0 ∧ j ≠ 1 := by omega
    simp [error, header]

end Cut

end Object

namespace ObjectFile

open Object

/-- Bytes are a file exactly if they split into records with nothing left. -/
theorem ofBytes_eq_ok_iff {bytes : List UInt8} {f : ObjectFile} :
    ofBytes bytes = .ok f ↔ ∃ records, Splits bytes records [] ∧ f = ⟨records.map Record.block⟩ := by
  obtain ⟨records, rest, splits⟩ := exists_splits bytes
  constructor
  · intro read
    cases faulty : (Contents.ofBytes bytes).error with
    | some e => simp [ofBytes, faulty] at read
    | none =>
      obtain rfl := (Contents.error_eq_none_iff splits).mp faulty
      refine ⟨records, splits, ?_⟩
      simpa [ofBytes, Contents.ofBytes_of_splits splits] using read.symm
  · rintro ⟨records, splits, rfl⟩
    simp [ofBytes, Contents.ofBytes_of_splits splits]

end ObjectFile

namespace Machine

open Object

/-- Loading the part of a block that is there writes words, if it is one of a block that fills
memory and has its header. -/
theorem loadFile_begun (m : Machine) (blocks : List Block) (b? : Option Block) (j : Nat) :
    let before := m.loadFile ⟨blocks⟩
    m.loadFile ⟨blocks ++ (b?.bind (Block.begun? j)).toList⟩ =
      { before with mem := match b? with
        | some (.memory _ addr words) =>
          if 6 ≤ j then before.mem.copyBlock addr (words.take ((j - 6) / 2)) else before.mem
        | _ => before.mem } := by
  intro before
  cases b? with
  | none => rw [Option.bind_none, Option.toList_none, List.append_nil]
  | some b =>
    cases b with
    | memory part addr words =>
      by_cases header : 6 ≤ j
      · simp only [Option.bind_some, Block.begun?, if_pos header, Option.toList_some,
          loadFile_append]
        rfl
      · simp only [Option.bind_some, Block.begun?, if_neg header, Option.toList_none,
          List.append_nil]
        rfl
    | symbol | fileName | line =>
      simp only [Option.bind_some, Block.begun?, Option.toList_none, List.append_nil]
      rfl

/-- A file of which only the first `n` bytes are there is loaded up to the last block that ends
within them, and of the next block, if it fills memory, the words that are complete. The cut is
reported at the end of the last whole block, unless it falls there. -/
theorem loadBytes_take (m : Machine) {bytes : List UInt8} {f : ObjectFile} {n : Nat}
    (whole : ObjectFile.ofBytes bytes = .ok f) (inside : n ≤ bytes.length) :
    ∃ k p, Boundary bytes k p ∧ p ≤ n ∧ (∀ j q, Boundary bytes j q → q ≤ n → q ≤ p) ∧
      let before := m.loadFile ⟨f.blocks.take k⟩
      let s := (m.loadBytes (bytes.take n)).1
      let error := (m.loadBytes (bytes.take n)).2
      (error = none ↔ n = p) ∧
      (error = some ⟨.trailingByte, p⟩ ↔ n = p + 1) ∧
      (p + 1 < n → ∃ b, f.blocks[k]? = some b ∧
        error = some ⟨.truncated b.kind (b.begun? (n - p)), p⟩) ∧
      s = { before with mem := match f.blocks[k]? with
        | some (.memory _ addr words) =>
          if p + 6 ≤ n then before.mem.copyBlock addr (words.take ((n - p - 6) / 2))
          else before.mem
        | _ => before.mem } := by
  obtain ⟨records, splits, rfl⟩ := ObjectFile.ofBytes_eq_ok_iff.mp whole
  have bounded : n ≤ size records := by
    rwa [← splits.whole, List.append_nil] at inside
  obtain ⟨first, after, j, cut⟩ := exists_cut records bounded
  have left := cut.left
  have blocks : (records.map Record.block).take first.length = first.map Record.block := by
    rw [← List.map_take, cut.parts, List.take_left]
  have next : (records.map Record.block)[first.length]? = after.head?.map Record.block := by
    rw [List.getElem?_map, cut.parts, List.getElem?_append_right (Nat.le_refl _), Nat.sub_self,
      List.head?_eq_getElem?]
  have loaded := loadBytes_eq_loadFile m (bytes.take n)
  rw [cut.contents_take splits] at loaded
  have distance : n - size first = j := by omega
  refine ⟨first.length, size first, cut.boundary splits, by omega, ?_, ?_⟩
  · intro k q boundary le
    exact cut.greatest splits boundary le
  · rw [loaded, blocks, next, distance]
    refine ⟨?_, ?_, ?_, ?_⟩
    · rw [cut.error_eq_iff.1]
      omega
    · rw [cut.error_eq_iff.2]
      omega
    · intro beyond
      rcases cut.error_cases with ⟨zero, -⟩ | ⟨one, -⟩ | ⟨-, r, rs, rfl, error⟩
      · omega
      · omega
      · have kind : r.block.kind = r.kind := by cases r <;> rfl
        exact ⟨r.block, rfl, kind ▸ error⟩
    · have header : size first + 6 ≤ n ↔ 6 ≤ j := by omega
      simp only [cut.part_error, header]
      exact m.loadFile_begun (first.map Record.block) (after.head?.map Record.block) j

/-- The cut falls into the third of three words, of which the second is at the first address. -/
theorem loadBytes_take_wrapping :
    let f : ObjectFile := ⟨[.symbol 0x4000 "A", .memory .data 0xFFFF [1, 2, 3]]⟩
    let m := new .none
    let s := (m.loadBytes (f.toBytes.take 18)).1
    ObjectFile.ofBytes f.toBytes = .ok f ∧ 18 ≤ f.toBytes.length ∧ Boundary f.toBytes 1 7 ∧
      (m.loadBytes (f.toBytes.take 18)).2 =
        some ⟨.truncated (.memory .data) (some (.memory .data 0xFFFF [1, 2])), 7⟩ ∧
      s.mem = Memory.zero.copyBlock 0xFFFF [1, 2] ∧ s.labels.find? "A" = some 0x4000 := by
  intro f m s
  have whole : ObjectFile.ofBytes f.toBytes = .ok f :=
    ObjectFile.ofBytes_eq_ok_iff.mpr ⟨_, f.splits_toBytes, by decide +kernel⟩
  have inside : 18 ≤ f.toBytes.length := by decide +kernel
  have error : (m.loadBytes (f.toBytes.take 18)).2 =
      some ⟨.truncated (.memory .data) (some (.memory .data 0xFFFF [1, 2])), 7⟩ := by
    decide +kernel
  obtain ⟨k, p, boundary, le, -, ok, trailing, truncated, left⟩ := loadBytes_take m whole inside
  rw [error] at ok trailing truncated
  have beyond : p + 1 < 18 := by
    have whole : 18 ≠ p := fun h => nomatch ok.mpr h
    have even : 18 ≠ p + 1 := fun h => nomatch trailing.mpr h
    omega
  obtain ⟨b, next, same⟩ := truncated beyond
  simp only [Option.some.injEq, ReadError.mk.injEq, BlockFault.truncated.injEq] at same
  obtain ⟨⟨kind, -⟩, rfl⟩ := same
  obtain rfl : k = 1 := by
    match k, next with
    | 0, next =>
      obtain rfl := Option.some.inj next
      cases kind
    | 1, _ => rfl
  refine ⟨whole, inside, boundary, error, ?_, ?_⟩
  · exact congrArg Machine.mem left
  · exact congrArg (fun s => s.labels.find? "A") left

end Machine

end Lc4
