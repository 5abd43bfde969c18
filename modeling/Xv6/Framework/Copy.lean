import Mathlib.Tactic
import Mathlib.Data.BitVec

/-! # Copying within one memory

    The two loops that copy `n` cells of a memory to another place of the same
    memory, one with rising and one with falling addresses. Addresses wrap
    around, so every distance between two of them is a natural number below
    `2 ^ w`, whichever is the larger.

    A loop may overwrite cells that it has still to read. With rising
    addresses that happens exactly when the destination lies less than `n`
    cells above the source, and then the first cells of the source repeat
    (`up_apply`). With falling addresses it is the other way round
    (`down_of_le`).
-/

namespace Copy

open Function

variable {w : Nat} {α : Type}

/-- `while(n-- > 0) *d++ = *s++;` -/
def up (mem : BitVec w → α) : Nat → BitVec w → BitVec w → BitVec w → α
  | 0, _, _ => mem
  | n + 1, d, s => up (update mem d (mem s)) n (d + 1) (s + 1)

/-- `while(n-- > 0) *--d = *--s;` -/
def down (mem : BitVec w → α) : Nat → BitVec w → BitVec w → BitVec w → α
  | 0, _, _ => mem
  | n + 1, d, s => down (update mem (d - 1) (mem (s - 1))) n (d - 1) (s - 1)

variable {mem : BitVec w → α} {n : Nat} {d s : BitVec w}

/-! ## The last step of a loop -/

theorem up_succ (mem : BitVec w → α) (n : Nat) (d s : BitVec w) :
    up mem (n + 1) d s =
      update (up mem n d s) (d + BitVec.ofNat w n) (up mem n d s (s + BitVec.ofNat w n)) := by
  induction n generalizing mem d s with
  | zero => simp [up]
  | succ n ih =>
    have hadd : ∀ x : BitVec w, x + 1 + BitVec.ofNat w n = x + BitVec.ofNat w (n + 1) := by
      intro x
      rw [BitVec.ofNat_add, show BitVec.ofNat w 1 = 1 from rfl]
      ring
    show up (update mem d (mem s)) (n + 1) (d + 1) (s + 1) = _
    rw [ih, hadd, hadd]
    rfl

/-- Falling addresses are rising ones in the mirrored memory. -/
theorem down_eq_up (mem : BitVec w → α) (n : Nat) (d s a : BitVec w) :
    down mem n d s a = up (fun x => mem (-x)) n (1 - d) (1 - s) (-a) := by
  induction n generalizing mem d s with
  | zero => simp [down, up]
  | succ n ih =>
    have hmem : (fun x => update mem (d - 1) (mem (s - 1)) (-x)) =
        update (fun x => mem (-x)) (1 - d) (mem (-(1 - s))) := by
      funext x
      by_cases hx : x = 1 - d
      · rw [hx, neg_sub, update_self, update_self, neg_sub]
      · have hx' : -x ≠ d - 1 := fun h => hx (by rw [← neg_neg x, h, neg_sub])
        rw [update_of_ne hx, update_of_ne hx']
    have hpred : ∀ x : BitVec w, 1 - (x - 1) = 1 - x + 1 := fun x => by ring
    rw [down, up, ih, hmem, hpred, hpred]

/-! ## What the loops leave -/

/-- Being `n` cells above `d` is having distance `n` from it. -/
theorem eq_add_ofNat_iff (hn : n < 2 ^ w) (a : BitVec w) :
    a = d + BitVec.ofNat w n ↔ (a - d).toNat = n := by
  have hto : (BitVec.ofNat w n).toNat = n := by
    rw [BitVec.toNat_ofNat, Nat.mod_eq_of_lt hn]
  constructor
  · intro h
    rw [h, add_sub_cancel_left, hto]
  · intro h
    have hdist : a - d = BitVec.ofNat w n := BitVec.eq_of_toNat_eq (by rw [h, hto])
    rw [← hdist]
    ring

/-- A cell of the source is at or above the destination, or it lies more than
    the cells copied so far away from it. -/
theorem toNat_source (hn : n < 2 ^ w) :
    (s + BitVec.ofNat w n - d).toNat =
      if (d - s).toNat ≤ n then n - (d - s).toNat else 2 ^ w - ((d - s).toNat - n) := by
  have hself : BitVec.ofNat w (d - s).toNat = d - s := by
    rw [BitVec.ofNat_toNat, BitVec.setWidth_eq]
  split_ifs with h
  · have hsum : BitVec.ofNat w n = BitVec.ofNat w (n - (d - s).toNat) + (d - s) := by
      rw [← hself, ← BitVec.ofNat_add, hself, Nat.sub_add_cancel h]
    have heq : s + BitVec.ofNat w n - d = BitVec.ofNat w (n - (d - s).toNat) := by
      rw [hsum]
      ring
    rw [heq, BitVec.toNat_ofNat, Nat.mod_eq_of_lt (by omega)]
  · have hsum : BitVec.ofNat w ((d - s).toNat - n) + BitVec.ofNat w n = d - s := by
      rw [← BitVec.ofNat_add, Nat.sub_add_cancel (by omega), hself]
    have heq : s + BitVec.ofNat w n - d = - BitVec.ofNat w ((d - s).toNat - n) := by
      linear_combination hsum
    have hlt := (d - s).isLt
    rw [heq, BitVec.toNat_neg, BitVec.toNat_ofNat, Nat.mod_eq_of_lt (a := _ - n) (by omega),
      Nat.mod_eq_of_lt (by omega)]

/-- With rising addresses the first cells of the source repeat as often as the
    destination needs them. -/
theorem up_apply (hn : n ≤ 2 ^ w) (hne : d ≠ s) (a : BitVec w) :
    up mem n d s a =
      if (a - d).toNat < n then mem (s + BitVec.ofNat w ((a - d).toNat % (d - s).toNat)) else mem a := by
  have hpos : 0 < (d - s).toNat := by
    refine Nat.pos_of_ne_zero fun h => hne ?_
    exact sub_eq_zero.mp (BitVec.eq_of_toNat_eq (by simpa using h))
  induction n generalizing a with
  | zero => simp [up]
  | succ n ih =>
    -- what the last step reads
    have hread : up mem n d s (s + BitVec.ofNat w n) =
        mem (s + BitVec.ofNat w (n % (d - s).toNat)) := by
      rw [ih (by omega), toNat_source (by omega)]
      have hlt := (d - s).isLt
      split_ifs with hle hin hin
      · rw [Nat.mod_eq_sub_mod hle]
      · omega
      · omega
      · rw [Nat.mod_eq_of_lt (by omega)]
    rw [up_succ]
    by_cases ha : a = d + BitVec.ofNat w n
    · have hdist := (eq_add_ofNat_iff (by omega) a).mp ha
      rw [ha, update_self, ← ha, hdist, if_pos (by omega), hread]
    · have hdist := mt (eq_add_ofNat_iff (by omega) a).mpr ha
      rw [update_of_ne ha, ih (by omega)]
      congr 1
      simp only [eq_iff_iff]
      omega

/-- So they are a copy of the source, if the destination starts at or beyond
    its end. -/
theorem up_of_le (h : n ≤ (d - s).toNat) (a : BitVec w) :
    up mem n d s a = if (a - d).toNat < n then mem (s + (a - d)) else mem a := by
  have hlt := (d - s).isLt
  by_cases hne : d = s
  · have hzero : n = 0 := by
      rw [hne, sub_self] at h
      simpa using h
    subst hzero
    simp [up]
  · rw [up_apply (by omega) hne]
    split_ifs with hin
    · rw [Nat.mod_eq_of_lt (by omega), BitVec.ofNat_toNat, BitVec.setWidth_eq]
    · rfl

/-- Copying a range to itself changes nothing. -/
theorem up_self (mem : BitVec w → α) (n : Nat) (d : BitVec w) : up mem n d d = mem := by
  induction n generalizing d with
  | zero => rfl
  | succ n ih =>
    rw [up, update_eq_self]
    exact ih (d + 1)

/-- With falling addresses every cell is read before it is overwritten, if
    the source starts at or beyond the end of the destination. -/
theorem down_of_le (h : n ≤ (s - d).toNat) (a : BitVec w) :
    down mem n d s a = if (d - 1 - a).toNat < n then mem (s - (d - a)) else mem a := by
  have hdist : 1 - d - (1 - s) = s - d := by ring
  have hoff : -a - (1 - d) = d - 1 - a := by ring
  have hsrc : -(1 - s + (d - 1 - a)) = s - (d - a) := by ring
  rw [down_eq_up, up_of_le (by rwa [hdist]), hoff, hsrc, neg_neg]

end Copy
