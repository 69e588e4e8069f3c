import Lc4.Memory
import Mathlib.Data.List.Induction

/-!
# Copying blocks

A block is copied slice by slice. The slices lie within memory, and what they do together is what
writing one word after the other does, the word with index `i` to the address `start + i` modulo
2 ^ 16. A block that is smaller than memory is then read back from where it was written.
-/
namespace Lc4.Memory

variable {start : Word} {words : List Word} {fuel k : Nat}

/-- Words with the addresses that they get from `start` on. -/
def placed (start : Word) (words : List Word) : List (Word × Word) :=
  words.mapIdx fun i w => (start + BitVec.ofNat 16 i, w)

def store (m : Memory) (e : Word × Word) : Memory :=
  m.set e.1 e.2

theorem placed_cons (start w : Word) (words : List Word) :
    placed start (w :: words) = (start, w) :: placed (start + 1) words := by
  have next (i : Nat) : start + BitVec.ofNat 16 (i + 1) = start + 1 + BitVec.ofNat 16 i := by
    rw [BitVec.add_assoc, Nat.add_comm, ← BitVec.ofNat_add_ofNat]
    rfl
  have first : start + BitVec.ofNat 16 0 = start := BitVec.add_zero start
  rw [placed, List.mapIdx_cons, first, placed]
  simp only [next]

/-- A second part is placed where the first one ends, wherever memory wraps. -/
theorem placed_append (start : Word) (first second : List Word) :
    placed start (first ++ second) =
      placed start first ++ placed (start + BitVec.ofNat 16 first.length) second := by
  have behind (i : Nat) : start + BitVec.ofNat 16 (i + first.length) =
      start + BitVec.ofNat 16 first.length + BitVec.ofNat 16 i := by
    rw [BitVec.add_assoc, BitVec.ofNat_add_ofNat, Nat.add_comm]
  rw [placed, List.mapIdx_append, placed, placed]
  simp only [behind]

/-- Behind the end of memory comes its first address, so words can be cut there. -/
theorem placed_split (cut : start.toNat + k = size ∨ words.length ≤ k) :
    placed start words = placed start (words.take k) ++ placed 0 (words.drop k) := by
  by_cases short : words.length ≤ k
  · rw [List.take_of_length_le short, List.drop_of_length_le short]
    exact (List.append_nil _).symm
  · have last : start.toNat + k = size := cut.resolve_right short
    have taken : (words.take k).length = k := List.length_take_of_le (by omega)
    have wraps : start + BitVec.ofNat 16 k = 0 := by
      rw [size] at last
      apply BitVec.eq_of_toNat_eq
      simp [last]
    conv_lhs => rw [← List.take_append_drop k words]
    rw [placed_append, taken, wraps]

/-- To overwrite a slice is to write its words one after the other. -/
theorem overwrite_eq_foldl (m : Memory) (i : Nat) (words : List Word) :
    m.overwrite i words = (placed (BitVec.ofNat 16 i) words).foldl store m := by
  induction words generalizing m i with
  | nil => rfl
  | cons w words ih =>
    have next : BitVec.ofNat 16 (i + 1) = BitVec.ofNat 16 i + 1 := (BitVec.ofNat_add_ofNat i 1).symm
    rw [overwrite, ih, next, placed_cons, List.foldl_cons, store]

/-- A slice that fills memory ends where the next one begins. -/
theorem foldl_chunks (m : Memory) (enough : words.length ≤ fuel) :
    (chunks fuel words).foldl (fun m chunk => m.overwrite 0 chunk) m =
      (placed 0 words).foldl store m := by
  induction fuel generalizing m words with
  | zero =>
    obtain rfl := List.length_eq_zero_iff.mp (Nat.le_zero.mp enough)
    rfl
  | succ fuel ih =>
    cases words with
    | nil => rfl
    | cons w words =>
      have shorter : ((w :: words).drop size).length ≤ fuel := by
        simp only [List.length_drop, List.length_cons, size] at enough ⊢
        omega
      have cut : placed 0 (w :: words) = _ := placed_split (k := size) (.inl rfl)
      rw [chunks, List.foldl_cons, ih _ shorter, overwrite_eq_foldl, cut, List.foldl_append]
      rfl

/-- To copy a block slice by slice is to write its words one after the other. -/
theorem copyBlock_eq_foldl (m : Memory) (start : Word) (words : List Word) :
    m.copyBlock start words = (placed start words).foldl store m := by
  have cut : start.toNat + min words.length (size - start.toNat) = size ∨
      words.length ≤ min words.length (size - start.toNat) := by
    have inside := start.isLt
    rw [size]
    omega
  rw [copyBlock, slices, List.foldl_cons, List.foldl_map, foldl_chunks _ (Nat.le_refl _),
    overwrite_eq_foldl, BitVec.ofNat_toNat, BitVec.setWidth_eq, placed_split cut,
    List.foldl_append]

theorem length_le_of_mem_chunks {chunk : List Word} (h : chunk ∈ chunks fuel words) :
    chunk.length ≤ size := by
  induction fuel generalizing words with
  | zero => cases h
  | succ fuel ih =>
    cases words with
    | nil => cases h
    | cons w words =>
      rcases List.mem_cons.mp h with rfl | later
      · exact List.length_take_le size _
      · exact ih later

/-- No slice goes beyond the end of memory. -/
theorem le_size_of_mem_slices {slice : Nat × List Word} (h : slice ∈ slices start words) :
    slice.1 + slice.2.length ≤ size := by
  rcases List.mem_cons.mp h with rfl | right
  · have inside := start.isLt
    simp only [List.length_take, size]
    omega
  · obtain ⟨chunk, mem, rfl⟩ := List.mem_map.mp right
    exact (Nat.zero_add _).symm ▸ length_le_of_mem_chunks mem

theorem copyBlock_concat (m : Memory) (start : Word) (words : List Word) (w : Word) :
    m.copyBlock start (words ++ [w]) =
      (m.copyBlock start words).set (start + BitVec.ofNat 16 words.length) w := by
  rw [copyBlock_eq_foldl, copyBlock_eq_foldl, placed_append, List.foldl_append, placed_cons]
  rfl

/-- In a block that is not larger than memory no two words have one address, so none is lost. -/
theorem get_copyBlock (m : Memory) (fits : words.length ≤ size) {i : Nat}
    (inside : i < words.length) :
    (m.copyBlock start words).get (start + BitVec.ofNat 16 i) = words[i] := by
  induction words using List.reverseRecOn with
  | nil => cases inside
  | append_singleton words w ih =>
    rw [List.length_append, List.length_singleton] at fits inside
    rw [copyBlock_concat]
    by_cases last : i = words.length
    · subst last
      rw [AddressMap.get_set_self, List.getElem_concat_length rfl]
    · have before : i < words.length := by omega
      have apart : start + BitVec.ofNat 16 i ≠ start + BitVec.ofNat 16 words.length := by
        intro same
        have value := congrArg BitVec.toNat ((BitVec.add_right_inj start).mp same)
        rw [size] at fits
        simp only [BitVec.toNat_ofNat] at value
        omega
      rw [AddressMap.get_set_of_ne _ _ apart, ih (by omega) before,
        List.getElem_append_left before]

/-- A block that fits is read back from where it was written. -/
theorem window_copyBlock (m : Memory) (start : Word) (fits : words.length ≤ size) :
    (m.copyBlock start words).window start words.length = placed start words := by
  refine List.ext_getElem (by simp [window, placed]) ?_
  intro i inside _
  have inside : i < words.length := by simpa [window] using inside
  simp only [window, placed, List.getElem_map, List.getElem_range, List.getElem_mapIdx,
    get_copyBlock m fits inside]

/-- Copying a block of any length writes its words in order, each to the address behind the one
before, and never beyond memory. A block of fewer words than there are addresses is then found in
the window of its length. -/
theorem copyBlock_exact (m : Memory) (start : Word) (words : List Word) :
    (∀ slice ∈ slices start words, slice.1 + slice.2.length ≤ size) ∧
    m.copyBlock start words = (placed start words).foldl store m ∧
    (words.length ≤ 0xFFFF →
      (m.copyBlock start words).window start words.length = placed start words) := by
  refine ⟨fun _ => le_size_of_mem_slices, copyBlock_eq_foldl m start words, fun small => ?_⟩
  exact window_copyBlock m start (Nat.le_succ_of_le small)

/-- A block that begins at the last address but one. -/
theorem copyBlock_exact_wrapping :
    [1, 2, 3, 4].length ≤ 0xFFFF ∧ (zero.copyBlock 0xFFFE [1, 2, 3, 4]).window 0xFFFE 4 =
      [(0xFFFE, 1), (0xFFFF, 2), (0, 3), (1, 4)] := by
  have small : ([1, 2, 3, 4] : List Word).length ≤ 0xFFFF := by decide
  exact ⟨small, (copyBlock_exact zero 0xFFFE [1, 2, 3, 4]).2.2 small⟩

end Lc4.Memory
