import Lc4.Word

/-!
# Maps on the address space

An `AddressMap` holds one value for every one of the 65536 addresses. It is a perfect binary tree
that branches on the address bits from the highest to the lowest, so a read or a write takes
sixteen steps, a map with one value everywhere is small, and two maps that hold the same values
are equal.
-/
namespace Lc4

/-- One value for each number below `2 ^ depth`. -/
inductive AddressTree (α : Type) : Nat → Type
  | leaf (value : α) : AddressTree α 0
  | node {depth : Nat} (low high : AddressTree α depth) : AddressTree α (depth + 1)

namespace AddressTree

variable {α β : Type}

def fill (v : α) : (depth : Nat) → AddressTree α depth
  | 0 => leaf v
  | depth + 1 =>
    let half := fill v depth
    node half half

/-- The value at the number given by the low `depth` bits of `a`. -/
def get : {depth : Nat} → AddressTree α depth → Nat → α
  | _, leaf v, _ => v
  | _, @node _ depth low high, a => if a.testBit depth then high.get a else low.get a

def set : {depth : Nat} → AddressTree α depth → Nat → α → AddressTree α depth
  | _, leaf _, _, v => leaf v
  | _, @node _ depth low high, a, v =>
    if a.testBit depth then node low (high.set a v) else node (low.set a v) high

/-- The numbers for whose values `f` gives a result, with the results and in ascending order, in
front of `rest`. The bits of the numbers above the lowest `depth` ones are those of `above`. -/
def filterMapOnto (f : α → Option β) :
    {depth : Nat} → AddressTree α depth → (above : Nat) → List (Nat × β) → List (Nat × β)
  | _, leaf v, above, rest =>
    match f v with
    | some b => (above, b) :: rest
    | none => rest
  | _, node low high, above, rest =>
    low.filterMapOnto f (2 * above) (high.filterMapOnto f (2 * above + 1) rest)

@[simp] theorem get_fill (v : α) (depth a : Nat) : (fill v depth).get a = v := by
  induction depth with
  | zero => rfl
  | succ depth ih => simp [fill, get, ih]

@[simp] theorem get_set_self {depth : Nat} (t : AddressTree α depth) (a : Nat) (v : α) :
    (t.set a v).get a = v := by
  induction t with
  | leaf => rfl
  | node low high ihl ihh =>
    rw [set]
    split
    · rename_i h
      simp [get, h, ihh]
    · rename_i h
      simp [get, h, ihl]

theorem get_set_of_testBit_ne {depth : Nat} (t : AddressTree α depth) {a b : Nat} (v : α)
    (h : ∃ i < depth, a.testBit i ≠ b.testBit i) : (t.set a v).get b = t.get b := by
  induction t with
  | leaf => obtain ⟨i, hi, _⟩ := h; omega
  | @node depth low high ihl ihh =>
    by_cases hd : a.testBit depth = b.testBit depth
    · have h' : ∃ i < depth, a.testBit i ≠ b.testBit i := by
        obtain ⟨i, hi, hne⟩ := h
        refine ⟨i, ?_, hne⟩
        have : i ≠ depth := fun e => hne (e ▸ hd)
        omega
      rw [set]
      split <;> simp_all [get]
    · rw [set]
      split <;> simp_all [get]

theorem ext {depth : Nat} {s t : AddressTree α depth}
    (h : ∀ a < 1 <<< depth, s.get a = t.get a) : s = t := by
  simp only [Nat.one_shiftLeft] at h
  induction s with
  | leaf v =>
    cases t with
    | leaf w => exact congrArg leaf (h 0 (by simp))
  | @node depth low high ihl ihh =>
    cases t with
    | node low' high' =>
      have hl : low = low' := ihl fun a ha => by
        have := h a (by rw [Nat.pow_succ]; omega)
        simpa [get, Nat.testBit_lt_two_pow ha] using this
      have hh : high = high' := ihh fun a ha => by
        have step := h (2 ^ depth + a) (by rw [Nat.pow_succ]; omega)
        have bitSet : (2 ^ depth + a).testBit depth = true := by
          rw [Nat.testBit_two_pow_add_eq, Nat.testBit_lt_two_pow ha]; rfl
        have low_bits : ∀ {d : Nat} (t : AddressTree α d), d ≤ depth →
            t.get (2 ^ depth + a) = t.get a := by
          intro d t hd
          induction t with
          | leaf => rfl
          | @node d l r il ir =>
            have e : (2 ^ depth + a).testBit d = a.testBit d :=
              Nat.testBit_two_pow_add_gt (by omega) a
            simp [get, e, il (by omega), ir (by omega)]
        simpa [get, bitSet, low_bits _ (Nat.le_refl depth)] using step
      rw [hl, hh]

theorem filterMapOnto_eq_append (f : α → Option β) {depth : Nat} (t : AddressTree α depth)
    (above : Nat) (rest : List (Nat × β)) :
    t.filterMapOnto f above rest = t.filterMapOnto f above [] ++ rest := by
  induction t generalizing above rest with
  | leaf v =>
    simp only [filterMapOnto]
    cases f v <;> rfl
  | node low high ihl ihh =>
    rw [filterMapOnto, filterMapOnto, ihl, ihh, ihl (2 * above) (high.filterMapOnto f _ []),
      List.append_assoc]

/-- The numbers that are listed are those with a result, under the bits that are given. -/
theorem mem_filterMapOnto {f : α → Option β} {depth : Nat} {t : AddressTree α depth}
    {above k : Nat} {b : β} :
    (k, b) ∈ t.filterMapOnto f above [] ↔ k >>> depth = above ∧ f (t.get k) = some b := by
  induction t generalizing above with
  | leaf v =>
    simp only [filterMapOnto, get, Nat.shiftRight_zero]
    cases f v with
    | none => simp
    | some c => simp [eq_comm]
  | @node depth low high ihl ihh =>
    rw [filterMapOnto, filterMapOnto_eq_append, List.mem_append, ihl, ihh, get,
      Nat.testBit_eq_decide_div_mod_eq, ← Nat.shiftRight_eq_div_pow, Nat.shiftRight_succ]
    by_cases odd : k >>> depth % 2 = 1
    · have half : k >>> depth = 2 * above + 1 ↔ k >>> depth / 2 = above := by omega
      have other : k >>> depth ≠ 2 * above := by omega
      simp [odd, half, other]
    · have half : k >>> depth = 2 * above ↔ k >>> depth / 2 = above := by omega
      have other : k >>> depth ≠ 2 * above + 1 := by omega
      simp [odd, half, other]

theorem pairwise_filterMapOnto (f : α → Option β) {depth : Nat} (t : AddressTree α depth)
    (above : Nat) : (t.filterMapOnto f above []).Pairwise fun p q => p.1 < q.1 := by
  induction t generalizing above with
  | leaf v =>
    simp only [filterMapOnto]
    cases f v <;> simp
  | @node depth low high ihl ihh =>
    rw [filterMapOnto, filterMapOnto_eq_append]
    refine List.pairwise_append.mpr ⟨ihl _, ihh _, ?_⟩
    rintro ⟨i, b⟩ hi ⟨j, c⟩ hj
    have first := (mem_filterMapOnto.mp hi).1
    have second := (mem_filterMapOnto.mp hj).1
    have order : i >>> depth < j >>> depth := by omega
    rw [Nat.shiftRight_eq_div_pow, Nat.shiftRight_eq_div_pow] at order
    exact Nat.lt_of_div_lt_div order

end AddressTree

abbrev AddressMap (α : Type) := AddressTree α 16

namespace AddressMap

variable {α β : Type}

def fill (v : α) : AddressMap α :=
  AddressTree.fill v 16

def get (m : AddressMap α) (a : Word) : α :=
  AddressTree.get m a.toNat

def set (m : AddressMap α) (a : Word) (v : α) : AddressMap α :=
  AddressTree.set m a.toNat v

def modify (m : AddressMap α) (a : Word) (f : α → α) : AddressMap α :=
  m.set a (f (m.get a))

/-- The addresses for whose values `f` gives a result, with the results and in ascending order. -/
def filterMap (m : AddressMap α) (f : α → Option β) : List (Word × β) :=
  (AddressTree.filterMapOnto f m 0 []).map fun p => (BitVec.ofNat 16 p.1, p.2)

@[simp] theorem get_fill (v : α) (a : Word) : get (fill v) a = v :=
  AddressTree.get_fill v 16 a.toNat

@[simp] theorem get_set_self (m : AddressMap α) (a : Word) (v : α) : get (set m a v) a = v :=
  AddressTree.get_set_self m a.toNat v

theorem get_set_of_ne (m : AddressMap α) {a b : Word} (v : α) (h : b ≠ a) :
    get (set m a v) b = get m b := by
  apply AddressTree.get_set_of_testBit_ne
  have : ¬ ∀ i < 16, a.getLsbD i = b.getLsbD i :=
    fun all => h (BitVec.eq_of_getLsbD_eq fun i hi => (all i hi).symm)
  simpa [BitVec.getLsbD] using this

theorem get_set (m : AddressMap α) (a b : Word) (v : α) :
    get (set m a v) b = if b = a then v else get m b := by
  split
  · rename_i h
    rw [h, get_set_self]
  · rename_i h
    exact get_set_of_ne m v h

theorem ext {s t : AddressMap α} (h : ∀ a : Word, get s a = get t a) : s = t := by
  apply AddressTree.ext
  intro a ha
  have e : (BitVec.ofNat 16 a).toNat = a := by simp; omega
  have := h (BitVec.ofNat 16 a)
  rwa [get, get, e] at this

/-- A listing holds what the function makes of the entry at each address, and nothing else. -/
theorem mem_filterMap {m : AddressMap α} {f : α → Option β} {a : Word} {b : β} :
    (a, b) ∈ m.filterMap f ↔ f (m.get a) = some b := by
  simp only [filterMap, List.mem_map, Prod.exists, Prod.mk.injEq, AddressTree.mem_filterMapOnto]
  constructor
  · rintro ⟨k, c, ⟨bits, found⟩, rfl, rfl⟩
    have below : k < 65536 := by omega
    rwa [get, BitVec.toNat_ofNat, Nat.mod_eq_of_lt below]
  · intro found
    have bits : a.toNat >>> 16 = 0 := by omega
    exact ⟨a.toNat, b, ⟨bits, found⟩, BitVec.ofNat_toNat 16 a, rfl⟩

/-- A listing is in ascending order of the addresses. -/
theorem pairwise_filterMap (m : AddressMap α) (f : α → Option β) :
    (m.filterMap f).Pairwise fun p q => p.1 < q.1 := by
  refine List.pairwise_map.mpr ?_
  refine (AddressTree.pairwise_filterMapOnto f m 0).imp_of_mem ?_
  rintro ⟨i, b⟩ ⟨j, c⟩ hi hj less
  have first := (AddressTree.mem_filterMapOnto.mp hi).1
  have second := (AddressTree.mem_filterMapOnto.mp hj).1
  rw [BitVec.lt_def, BitVec.toNat_ofNat, BitVec.toNat_ofNat]
  omega

end AddressMap

end Lc4
