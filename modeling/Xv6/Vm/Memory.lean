import Xv6.Param
import Xv6.Framework.Op

/-! # Physical memory and the page allocator

    The constants of `memlayout.h` and `mmu.h`, page frames and the entries of
    page tables, and `kalloc.c`.

    A `uint` is a natural number; sums that may pass `2^32` are reduced. The
    kernel reaches a frame through its own mapping of physical memory, at
    `P2V(pa)`, so a pointer to a page is represented by the number of the
    frame, `pa / PGSIZE`.
-/

namespace Xv6.Vm

open BitRange Function

/-! ## Addresses -/

/-- Bytes mapped by a page. -/
abbrev PGSIZE : Nat := 4096
/-- First kernel virtual address. -/
abbrev KERNBASE : Nat := 0x80000000
/-- Start of extended memory. -/
abbrev EXTMEM : Nat := 0x100000
/-- Top physical memory. -/
abbrev PHYSTOP : Nat := 0xE000000
/-- Other devices are at high addresses. -/
abbrev DEVSPACE : Nat := 0xFE000000
/-- Entries per page directory, and per page table. -/
abbrev NPDENTRIES : Nat := 1024

def PGROUNDUP (sz : Nat) : Nat := (sz + PGSIZE - 1) % 2 ^ 32 / PGSIZE * PGSIZE

def PGROUNDDOWN (a : Nat) : Nat := a / PGSIZE * PGSIZE

/-- Page directory index. -/
def PDX (va : Nat) : Nat := va / 2 ^ 22 % 1024

/-- Page table index. -/
def PTX (va : Nat) : Nat := va / 2 ^ 12 % 1024

/-- Where the linker has put the kernel: `data` is the physical address of
    its read-write data, `kend` that of the first byte after it. -/
structure Layout where
  data : Nat
  kend : Nat
  data_aligned : data % PGSIZE = 0
  text : EXTMEM < data
  data_lt : data < kend
  kend_le : kend ≤ 4 * 1024 * 1024

/-- A kernel of about 1 MB. -/
def smallKernel : Layout := ⟨0x108000, 0x115000, by decide, by decide, by decide, by decide⟩

/-! ## Entries of page tables -/

/-- Present, writeable, user. -/
def PTE_P : BitVec 32 := 0x001
def PTE_W : BitVec 32 := 0x002
def PTE_U : BitVec 32 := 0x004

/-- `*pte & flag` -/
def has (w flag : BitVec 32) : Bool := w &&& flag != 0

/-- The frame of `PTE_ADDR(pte)`. -/
def frame (w : BitVec 32) : Nat := (w &&& 0xFFFFF000#32).toNat / PGSIZE

def PTE_FLAGS (w : BitVec 32) : BitVec 32 := w &&& 0xFFF#32

/-- The physical address of a frame with permissions. -/
def entry (f : Nat) (perm : BitVec 32) : BitVec 32 := BitVec.ofNat 32 (f * PGSIZE) ||| perm

theorem frame_eq (w : BitVec 32) : frame w = w.toNat / PGSIZE := by
  have hmask : ((w &&& 0xFFFFF000#32) >>> 12).toNat = (w >>> 12).toNat := by
    congr 1
    apply BitVec.eq_of_getLsbD_eq
    intro i hi
    simp only [BitVec.getLsbD_ushiftRight, BitVec.getLsbD_and]
    have hbit : ∀ j : Fin 20, (0xFFFFF000#32).getLsbD (12 + j) = true := by decide
    by_cases hj : i < 20
    · rw [hbit ⟨i, hj⟩, Bool.and_true]
    · rw [BitVec.getLsbD_of_ge _ _ (by omega), Bool.false_and]
  unfold frame
  simpa only [BitVec.toNat_ushiftRight, Nat.shiftRight_eq_div_pow] using hmask

theorem toNat_entry {f : Nat} {perm : BitVec 32} (hf : f < 2 ^ 20) (hperm : perm.toNat < PGSIZE) :
    (entry f perm).toNat = f * PGSIZE + perm.toNat := by
  have hlt : f * PGSIZE < 2 ^ 32 := by
    simp only [PGSIZE] at *
    omega
  unfold entry
  rw [BitVec.toNat_or, BitVec.toNat_ofNat, Nat.mod_eq_of_lt hlt, Nat.mul_comm f,
    show PGSIZE = 2 ^ 12 from rfl, ← Nat.two_pow_add_eq_or_of_lt hperm]

@[simp] theorem frame_entry {f : Nat} {perm : BitVec 32} (hf : f < 2 ^ 20)
    (hperm : perm.toNat < PGSIZE) : frame (entry f perm) = f := by
  rw [frame_eq, toNat_entry hf hperm]
  simp only [PGSIZE] at *
  omega

theorem has_twoPow (w : BitVec 32) {k : Nat} (hk : k < 32) :
    has w (BitVec.twoPow 32 k) = w.getLsbD k := by
  have hne : BitVec.twoPow 32 k ≠ 0 := by
    intro h
    have hbit := congrArg (fun v => v.getLsbD k) h
    simp [hk] at hbit
  unfold has
  rw [BitVec.and_twoPow]
  cases w.getLsbD k with
  | true => simpa using hne
  | false => rfl

/-- A flag of an entry is one of its permissions. -/
theorem has_entry (f : Nat) (perm : BitVec 32) {k : Nat} (hk : k < 12) :
    has (entry f perm) (BitVec.twoPow 32 k) = has perm (BitVec.twoPow 32 k) := by
  have hbit : (f * 2 ^ 12).testBit k = false := by
    rw [Nat.testBit_mul_two_pow]
    simp [Nat.not_le.mpr hk]
  rw [has_twoPow _ (by omega), has_twoPow _ (by omega)]
  unfold entry
  rw [BitVec.getLsbD_or, BitVec.getLsbD_ofNat, show PGSIZE = 2 ^ 12 from rfl, hbit, Bool.and_false,
    Bool.false_or]

/-! ## Memory -/

/-- The contents of a frame, in little-endian order. -/
abbrev Page : Type := BitVec (8 * PGSIZE)

namespace Page

/-- The `i`-th 32-bit word. -/
def word (p : Page) (i : Nat) : BitVec 32 := cell 32 p i

def setWord (p : Page) (i : Nat) (w : BitVec 32) : Page := setCell p i w

theorem word_setWord_self (p : Page) {i : Nat} (w : BitVec 32) (h : i < 1024) :
    (p.setWord i w).word i = w :=
  cell_setCell_self _ _ _ (by simp only [PGSIZE]; omega)

theorem word_setWord_ne (p : Page) {i j : Nat} (w : BitVec 32) (h : j ≠ i) :
    (p.setWord i w).word j = p.word j :=
  cell_setCell_ne _ _ h

@[simp] theorem word_zero (i : Nat) : Page.word 0 i = 0 := cell_zero i

end Page

/-- The frames, and `kmem.freelist`. -/
structure Phys where
  page : Nat → Page
  free : List Nat

namespace Phys

/-- Store a page. -/
def setPage (m : Phys) (f : Nat) (p : Page) : Phys := { m with page := update m.page f p }

@[simp] theorem setPage_page_self (m : Phys) (f : Nat) (p : Page) : (m.setPage f p).page f = p :=
  update_self ..

theorem setPage_page_ne (m : Phys) {f g : Nat} (p : Page) (h : g ≠ f) :
    (m.setPage f p).page g = m.page g :=
  update_of_ne h ..

end Phys

/-- Code that works on physical memory. -/
abbrev MemOp (α : Type) : Type := Op Phys α

/-- `memset(v, c, PGSIZE)` -/
def memset (f : Nat) (c : Byte) : MemOp Unit :=
  Op.modify fun m => m.setPage f (BitVec.replicate PGSIZE c)

/-! ## `kalloc.c` -/

/-- Allocate one page of physical memory. -/
def kalloc : MemOp (Option Nat) := do
  let m ← Op.get
  match m.free with
  | [] => pure none
  | r :: next =>
    Op.modify fun m => { m with free := next }
    pure (some r)

/-- Free the page of physical memory. -/
def kfree (L : Layout) (f : Nat) : MemOp Unit := do
  if f * PGSIZE < L.kend ∨ PHYSTOP ≤ f * PGSIZE then
    Op.panic "kfree"
  else
    -- Fill with junk to catch dangling refs.
    memset f 1
    Op.modify fun m => { m with free := f :: m.free }

end Xv6.Vm
