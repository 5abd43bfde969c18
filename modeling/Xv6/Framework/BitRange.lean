import Mathlib.Tactic

/-! # Reading and writing ranges of bits

    A memory block is a bit vector in little-endian order: the C object of
    `l` bits at bit offset `s` is `x.extractLsb' s l`. `put x s v` stores `v`
    there. The laws below are those of a lens, for ranges that coincide, that
    are disjoint, or that contain one another; arrays, structs and bitmaps all
    follow from them.
-/

namespace BitRange

variable {w l k : Nat}

/-- Store `v` at bit offset `s` of `x`. -/
def put (x : BitVec w) (s : Nat) (v : BitVec l) : BitVec w :=
  (x &&& ~~~((BitVec.allOnes l).setWidth w <<< s)) ||| (v.setWidth w <<< s)

theorem getLsbD_put (x : BitVec w) (s : Nat) (v : BitVec l) (i : Nat) (hi : i < w) :
    (put x s v).getLsbD i =
      if s ≤ i ∧ i < s + l then v.getLsbD (i - s) else x.getLsbD i := by
  by_cases hs : s ≤ i
  · by_cases hl : i < s + l
    · have h1 : i - s < l := by omega
      simp [put, hi, hs, hl, h1, Nat.not_lt.mpr hs]
    · have h1 : ¬ i - s < l := by omega
      simp [put, hi, hs, hl, h1, Nat.not_lt.mpr hs, BitVec.getLsbD_of_ge v (i - s) (by omega)]
  · simp [put, hi, hs, Nat.lt_of_not_le hs]

/-- Reading back the range just written. -/
@[simp] theorem extractLsb'_put_self (x : BitVec w) (s : Nat) (v : BitVec l) (h : s + l ≤ w) :
    (put x s v).extractLsb' s l = v := by
  apply BitVec.eq_of_getLsbD_eq
  intro i hi
  rw [BitVec.getLsbD_extractLsb', getLsbD_put _ _ _ _ (by omega)]
  simp [hi]

/-- A write leaves every disjoint range alone. -/
theorem extractLsb'_put_of_disjoint (x : BitVec w) (s : Nat) (v : BitVec l) (t : Nat)
    (h : t + k ≤ s ∨ s + l ≤ t) :
    (put x s v).extractLsb' t k = x.extractLsb' t k := by
  apply BitVec.eq_of_getLsbD_eq
  intro i hi
  rw [BitVec.getLsbD_extractLsb', BitVec.getLsbD_extractLsb']
  by_cases hw : t + i < w
  · rw [getLsbD_put _ _ _ _ hw, if_neg (by omega)]
  · rw [BitVec.getLsbD_of_ge _ _ (by omega), BitVec.getLsbD_of_ge _ _ (by omega)]

/-- A bit of an extracted range. -/
theorem getLsbD_extractLsb'_sub (v : BitVec w) {s i : Nat} (h : s ≤ i ∧ i < s + l) :
    (v.extractLsb' s l).getLsbD (i - s) = v.getLsbD i := by
  rw [BitVec.getLsbD_extractLsb', decide_eq_true (by omega), Bool.true_and, Nat.add_sub_cancel' h.1]

/-! ## Arrays -/

/-- The `i`-th of the `k`-bit cells of `x`. -/
def cell (k : Nat) (x : BitVec w) (i : Nat) : BitVec k := x.extractLsb' (k * i) k

/-- Store the `i`-th `k`-bit cell. -/
def setCell (x : BitVec w) (i : Nat) (v : BitVec k) : BitVec w := put x (k * i) v

theorem cell_setCell_self (x : BitVec w) (i : Nat) (v : BitVec k) (h : k * i + k ≤ w) :
    cell k (setCell x i v) i = v :=
  extractLsb'_put_self x _ v h

theorem cell_setCell_ne (x : BitVec w) {i j : Nat} (v : BitVec k) (h : j ≠ i) :
    cell k (setCell x i v) j = cell k x j := by
  apply extractLsb'_put_of_disjoint
  rcases Nat.lt_or_gt_of_ne h with hlt | hgt
  · left
    calc k * j + k = k * (j + 1) := by ring
      _ ≤ k * i := Nat.mul_le_mul_left k hlt
  · right
    calc k * i + k = k * (i + 1) := by ring
      _ ≤ k * j := Nat.mul_le_mul_left k hgt

@[simp] theorem cell_zero (i : Nat) : cell k (0#w) i = 0#k := by
  simp [cell]

theorem setCell_cell (x : BitVec w) (i : Nat) : setCell x i (cell k x i) = x := by
  apply BitVec.eq_of_getLsbD_eq
  intro j hj
  unfold setCell cell
  rw [getLsbD_put _ _ _ _ hj]
  split_ifs with h
  · exact getLsbD_extractLsb'_sub x h
  · rfl

theorem setCell_setCell (x : BitVec w) (i : Nat) (u v : BitVec k) :
    setCell (setCell x i u) i v = setCell x i v := by
  apply BitVec.eq_of_getLsbD_eq
  intro j hj
  unfold setCell
  rw [getLsbD_put _ _ _ _ hj, getLsbD_put _ _ _ _ hj, getLsbD_put _ _ _ _ hj]
  split_ifs <;> rfl

end BitRange
