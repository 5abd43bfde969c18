import Xv6.Param
import Xv6.Framework.Copy

/-! # `memmove`, in the kernel and in the user library

    `string.c` has a `memmove` that chooses its direction, `ulib.c` one that
    always copies upward. Both get addresses of 32 bits; the kernel's length
    is a `uint`, the library's an `int`.

    The kernel's compares `s + n > d` in 32-bit arithmetic. The sum wraps only
    for a source that ends at the very top of the address space, and no range
    of the same length can start above such a source.
-/

namespace Xv6

/-- A memory of bytes. -/
abbrev Memory : Type := BitVec 32 → Byte

/-- `memmove` of `string.c`. -/
def Kernel.memmove (mem : Memory) (dst src n : BitVec 32) : BitVec 32 × Memory :=
  if src < dst ∧ dst < src + n then
    (dst, Copy.down mem n.toNat (dst + n) (src + n))
  else
    (dst, Copy.up mem n.toNat dst src)

/-- `memmove` of `ulib.c`. For a negative `n` the loop ends at once. -/
def Ulib.memmove (mem : Memory) (vdst vsrc n : BitVec 32) : BitVec 32 × Memory :=
  (vdst, Copy.up mem n.toInt.toNat vdst vsrc)

/-- The `n` bytes at `a` are addresses below `2 ^ 32`. -/
def InMemory (a n : BitVec 32) : Prop := a.toNat + n.toNat ≤ 2 ^ 32

/-- The bytes `[dst, dst + n)` replaced by those at `src`. -/
def moved (mem : Memory) (dst src n : BitVec 32) : Memory := fun a =>
  if dst.toNat ≤ a.toNat ∧ a.toNat < dst.toNat + n.toNat then mem (src + (a - dst)) else mem a

variable {mem : Memory} {dst src n : BitVec 32}

/-- Inside a range that does not wrap, distances are differences. -/
theorem InMemory.offset_lt_iff (h : InMemory dst n) (a : BitVec 32) :
    (a - dst).toNat < n.toNat ↔ dst.toNat ≤ a.toNat ∧ a.toNat < dst.toNat + n.toNat := by
  unfold InMemory at h
  rw [BitVec.toNat_sub]
  omega

theorem InMemory.offset_lt_iff_down (h : InMemory dst n) (a : BitVec 32) :
    (dst + n - 1 - a).toNat < n.toNat ↔ dst.toNat ≤ a.toNat ∧ a.toNat < dst.toNat + n.toNat := by
  unfold InMemory at h
  rw [BitVec.toNat_sub, BitVec.toNat_sub, BitVec.toNat_add]
  simp only [BitVec.ofNat_eq_ofNat, BitVec.toNat_ofNat]
  omega

/-- Copying upward is right unless the destination starts inside the source,
    above its first byte. -/
theorem up_eq_moved (hs : InMemory src n) (hd : InMemory dst n)
    (h : ¬ (src < dst ∧ dst < src + n)) : Copy.up mem n.toNat dst src = moved mem dst src n := by
  by_cases heq : dst = src
  · subst heq
    funext a
    rw [Copy.up_self]
    unfold moved
    rw [add_sub_cancel, ite_self]
  · have hne : dst.toNat ≠ src.toNat := fun he => heq (BitVec.eq_of_toNat_eq he)
    have hle : n.toNat ≤ (dst - src).toNat := by
      unfold InMemory at hs hd
      rw [BitVec.lt_def, BitVec.lt_def, BitVec.toNat_add] at h
      rw [BitVec.toNat_sub]
      omega
    funext a
    rw [Copy.up_of_le hle]
    simp only [hd.offset_lt_iff, moved]

theorem down_eq_moved (hd : InMemory dst n) (h : src < dst) :
    Copy.down mem n.toNat (dst + n) (src + n) = moved mem dst src n := by
  have hle : n.toNat ≤ (src + n - (dst + n)).toNat := by
    unfold InMemory at hd
    rw [BitVec.lt_def] at h
    rw [add_sub_add_right_eq_sub, BitVec.toNat_sub]
    omega
  funext a
  rw [Copy.down_of_le hle, show src + n - (dst + n - a) = src + (a - dst) by ring]
  simp only [hd.offset_lt_iff_down, moved]

/-- The kernel's `memmove` moves, whatever the overlap. -/
theorem Kernel.memmove_eq_moved (hs : InMemory src n) (hd : InMemory dst n) :
    Kernel.memmove mem dst src n = (dst, moved mem dst src n) := by
  unfold Kernel.memmove
  split_ifs with h
  · rw [down_eq_moved hd h.1]
  · rw [up_eq_moved hs hd h]

/-- After the kernel's `memmove` the bytes at `dst` are those that were at
    `src`, and all others are as before. -/
theorem memmove_overlap_safe (mem : Memory) (dst src n : BitVec 32)
    (hs : src.toNat + n.toNat ≤ 2 ^ 32) (hd : dst.toNat + n.toNat ≤ 2 ^ 32) :
    (∀ i : BitVec 32, i < n → (Kernel.memmove mem dst src n).2 (dst + i) = mem (src + i)) ∧
    ∀ a : BitVec 32, a.toNat < dst.toNat ∨ dst.toNat + n.toNat ≤ a.toNat →
      (Kernel.memmove mem dst src n).2 a = mem a := by
  rw [Kernel.memmove_eq_moved hs hd]
  refine ⟨fun i hi => ?_, fun a ha => ?_⟩
  · have hin := (InMemory.offset_lt_iff (show InMemory dst n from hd) (dst + i)).mp (by
      rw [add_sub_cancel_left]
      exact hi)
    show moved mem dst src n (dst + i) = _
    rw [moved, if_pos hin, add_sub_cancel_left]
  · exact if_neg (by omega)

/-- A memory that holds its own addresses. -/
def numbered : Memory := fun a => a.setWidth 8

/-- The last four bytes of the address space, moved down by one. -/
theorem memmove_overlap_safe_top :
    (∀ i : BitVec 32, i < 4 →
      (Kernel.memmove numbered 0xFFFFFFFB 0xFFFFFFFC 4).2 (0xFFFFFFFB + i) = numbered (0xFFFFFFFC + i)) ∧
    ∀ a : BitVec 32, a.toNat < 0xFFFFFFFB ∨ 0xFFFFFFFF ≤ a.toNat →
      (Kernel.memmove numbered 0xFFFFFFFB 0xFFFFFFFC 4).2 a = numbered a :=
  memmove_overlap_safe numbered 0xFFFFFFFB 0xFFFFFFFC 4 (by decide) (by decide)

/-! ## The library's copy -/

/-- The source consists of repetitions of the bytes before the destination. -/
def Repeats (mem : Memory) (dst src n : BitVec 32) : Prop :=
  ∀ i : BitVec 32, i < n → mem (src + i) = mem (src + i % (dst - src))

/-- Copying upward into the source itself: its first bytes repeat. -/
theorem up_eq_repeated (hd : InMemory dst n) (hne : dst ≠ src) (a : BitVec 32) :
    Copy.up mem n.toNat dst src a =
      if dst.toNat ≤ a.toNat ∧ a.toNat < dst.toNat + n.toNat then
        mem (src + (a - dst) % (dst - src)) else mem a := by
  have hmod : BitVec.ofNat 32 ((a - dst).toNat % (dst - src).toNat) = (a - dst) % (dst - src) := by
    rw [← BitVec.toNat_umod, BitVec.ofNat_toNat, BitVec.setWidth_eq]
  rw [Copy.up_apply (by omega) hne, hmod]
  simp only [hd.offset_lt_iff]

theorem up_eq_moved_iff (hd : InMemory dst n) (hne : dst ≠ src) :
    Copy.up mem n.toNat dst src = moved mem dst src n ↔ Repeats mem dst src n := by
  constructor
  · intro h i hi
    have hin := (hd.offset_lt_iff (dst + i)).mp (by
      rw [add_sub_cancel_left]
      exact hi)
    have hcell := congrFun h (dst + i)
    rw [up_eq_repeated hd hne, moved, if_pos hin, if_pos hin, add_sub_cancel_left] at hcell
    exact hcell.symm
  · intro h
    funext a
    rw [up_eq_repeated hd hne, moved]
    split_ifs with hin
    · exact (h (a - dst) ((hd.offset_lt_iff a).mpr hin)).symm
    · rfl

/-- The library's `memmove` leaves the memory as the kernel's does unless the
    destination starts inside the source, above its first byte; and then only
    if the source happens to repeat. -/
theorem memmove_agree_iff (mem : Memory) (dst src n : BitVec 32) (hn : n.toNat < 2 ^ 31)
    (hs : src.toNat + n.toNat ≤ 2 ^ 32) (hd : dst.toNat + n.toNat ≤ 2 ^ 32) :
    (Ulib.memmove mem dst src n).2 = (Kernel.memmove mem dst src n).2 ↔
      (src.toNat < dst.toNat ∧ dst.toNat < src.toNat + n.toNat → Repeats mem dst src n) := by
  have hcount : n.toInt.toNat = n.toNat := by
    rw [BitVec.toInt_eq_toNat_of_lt (by omega)]
    rfl
  rw [Kernel.memmove_eq_moved hs hd]
  show Copy.up mem n.toInt.toNat dst src = moved mem dst src n ↔ _
  rw [hcount]
  by_cases hover : src.toNat < dst.toNat ∧ dst.toNat < src.toNat + n.toNat
  · have hne : dst ≠ src := by
      rintro rfl
      omega
    rw [up_eq_moved_iff hd hne]
    exact ⟨fun h _ => h, fun h => h hover⟩
  · have hok : ¬ (src < dst ∧ dst < src + n) := by
      rw [BitVec.lt_def, BitVec.lt_def, BitVec.toNat_add]
      omega
    exact ⟨fun _ h => absurd h hover, fun _ => up_eq_moved hs hd hok⟩

theorem memmove_agree_below :
    (Ulib.memmove numbered 10 11 3).2 = (Kernel.memmove numbered 10 11 3).2 :=
  (memmove_agree_iff numbered 10 11 3 (by decide) (by decide) (by decide)).mpr
    fun h => absurd h.1 (by decide)

/-- Three bytes moved up by one: the library copies the first into all three. -/
theorem memmove_disagree : (Ulib.memmove numbered 11 10 3).2 13 = 10 ∧
    (Kernel.memmove numbered 11 10 3).2 13 = 12 := by
  decide

end Xv6
