import Xv6.Vm.PageTable

/-! # User memory (`vm.c`)

    The rest of `vm.c`: page directories with the mappings of the kernel,
    growing, shrinking, copying and freeing user memory, and copying into it.
-/

namespace Xv6.Vm

variable (L : Layout)

/-! ## Shrinking and freeing -/

def PGADDR (d t o : Nat) : Nat := (d * 2 ^ 22 + t * 2 ^ 12 + o) % 2 ^ 32

/-- The loop of `deallocuvm`. It does not end if `a` passes `2^32`. -/
def deallocuvm_loop (pgdir oldsz : Nat) : (fuel a : Nat) → MemOp Unit
  | 0, _ => Op.block
  | fuel + 1, a => do
    if a < oldsz then
      match ← walkpgdir pgdir a false with
      | none =>
        let a := (PGADDR (PDX a + 1) 0 0 + 2 ^ 32 - PGSIZE) % 2 ^ 32
        deallocuvm_loop pgdir oldsz fuel ((a + PGSIZE) % 2 ^ 32)
      | some pte =>
        let w ← load pte
        if has w PTE_P then
          if frame w = 0 then
            Op.panic "kfree"
          else
            kfree L (frame w)
            store pte 0
            deallocuvm_loop pgdir oldsz fuel ((a + PGSIZE) % 2 ^ 32)
        else
          deallocuvm_loop pgdir oldsz fuel ((a + PGSIZE) % 2 ^ 32)
    else
      pure ()

/-- Deallocate user pages to bring the process size from `oldsz` to `newsz`.
    Returns the new process size. -/
@[irreducible] def deallocuvm (pgdir oldsz newsz : Nat) : MemOp Nat := do
  if newsz ≥ oldsz then
    pure oldsz
  else
    deallocuvm_loop L pgdir oldsz (2 ^ 20 + 1) (PGROUNDUP newsz)
    pure newsz

/-- Free a page table and all the physical memory pages in the user part. -/
@[irreducible] def freevm (pgdir : Nat) : MemOp Unit := do
  let _ ← deallocuvm L pgdir KERNBASE 0
  Op.loop (fun i => do
    let pde ← load (pgdir, i)
    if has pde PTE_P then
      kfree L (frame pde)
    else
      pure ()) NPDENTRIES 0
  kfree L pgdir

/-! ## The kernel part -/

/-- One row of the table of the kernel's mappings. -/
structure Kmap where
  virt : Nat
  phys_start : Nat
  phys_end : Nat
  perm : BitVec 32

def kmap : List Kmap :=
  [⟨KERNBASE, 0, EXTMEM, PTE_W⟩, -- I/O space
   ⟨KERNBASE + EXTMEM, EXTMEM, L.data, 0⟩, -- kern text+rodata
   ⟨KERNBASE + L.data, L.data, PHYSTOP, PTE_W⟩, -- kern data+memory
   ⟨DEVSPACE, DEVSPACE, 0, PTE_W⟩] -- more devices

/-- The loop of `setupkvm`. -/
def setupkvm_loop (pgdir : Nat) : List Kmap → MemOp (Option Nat)
  | [] => pure (some pgdir)
  | k :: ks => do
    let ok ← mappages pgdir k.virt ((k.phys_end + 2 ^ 32 - k.phys_start) % 2 ^ 32) k.phys_start k.perm
    if ok then
      setupkvm_loop pgdir ks
    else
      freevm L pgdir
      pure none

/-- Set up kernel part of a page table. -/
@[irreducible] def setupkvm : MemOp (Option Nat) := do
  match ← kalloc with
  | none => pure none
  | some pgdir =>
    memset pgdir 0
    if KERNBASE + PHYSTOP > DEVSPACE then
      Op.panic "PHYSTOP too high"
    else
      setupkvm_loop L pgdir (kmap L)

/-! ## Growing -/

/-- The loop of `allocuvm`; `false` if there is not enough memory. -/
def allocuvm_loop (pgdir oldsz newsz : Nat) : (fuel a : Nat) → MemOp Bool
  | 0, _ => Op.block
  | fuel + 1, a => do
    if a < newsz then
      match ← kalloc with
      | none =>
        let _ ← deallocuvm L pgdir newsz oldsz
        pure false
      | some mem =>
        memset mem 0
        let ok ← mappages pgdir a PGSIZE (mem * PGSIZE) (PTE_W ||| PTE_U)
        if ok then
          allocuvm_loop pgdir oldsz newsz fuel ((a + PGSIZE) % 2 ^ 32)
        else
          let _ ← deallocuvm L pgdir newsz oldsz
          kfree L mem
          pure false
    else
      pure true

/-- Allocate page tables and physical memory to grow process from `oldsz` to
    `newsz`. Returns new size or 0 on error. -/
@[irreducible] def allocuvm (pgdir oldsz newsz : Nat) : MemOp Nat := do
  if newsz ≥ KERNBASE then
    pure 0
  else if newsz < oldsz then
    pure oldsz
  else
    let ok ← allocuvm_loop L pgdir oldsz newsz (2 ^ 20 + 1) (PGROUNDUP oldsz)
    pure (if ok then newsz else 0)

/-- Clear PTE_U on a page. -/
def clearpteu (pgdir uva : Nat) : MemOp Unit := do
  match ← walkpgdir pgdir uva false with
  | none => Op.panic "clearpteu"
  | some pte =>
    let w ← load pte
    store pte (w &&& ~~~PTE_U)

end Xv6.Vm

namespace Xv6.Vm.Page

open BitRange

/-- `memmove` into a page: the bytes `f 0`, …, `f (n - 1)` from byte `off` on. -/
def setBytes (p : Page) (off : Nat) (f : Nat → Byte) : (n : Nat) → Page
  | 0 => p
  | n + 1 => setCell (setBytes p off f n) (off + n) (f n)

/-- The `i`-th byte. -/
def byte (p : Page) (i : Nat) : Byte := cell 8 p i

theorem byte_setBytes (p : Page) {off : Nat} (f : Nat → Byte) {n : Nat} (h : off + n ≤ PGSIZE)
    (i : Nat) : (p.setBytes off f n).byte i =
      if off ≤ i ∧ i < off + n then f (i - off) else p.byte i := by
  induction n with
  | zero =>
    rw [if_neg (by omega)]
    rfl
  | succ n ih =>
    show cell 8 (setCell (setBytes p off f n) (off + n) (f n)) i = _
    by_cases hi : i = off + n
    · subst hi
      rw [cell_setCell_self _ _ _ (by simp only [PGSIZE] at *; omega), if_pos (by omega),
        show off + n - off = n by omega]
    · rw [cell_setCell_ne _ _ hi]
      have hrest := ih (by omega)
      unfold byte at hrest
      rw [hrest]
      by_cases hin : off ≤ i ∧ i < off + n
      · rw [if_pos hin, if_pos (by omega)]
      · rw [if_neg hin, if_neg (by omega)]
        rfl

end Xv6.Vm.Page

namespace Xv6.Vm

/-! ## Copying into user memory -/

/-- Map user virtual address to kernel address. The entry is read without a
    test that there is one; a null pointer traps. -/
def uva2ka (pgdir uva : Nat) : MemOp (Option Nat) := do
  match ← walkpgdir pgdir uva false with
  | none => Op.panic "trap"
  | some pte =>
    let w ← load pte
    if has w PTE_P then
      if has w PTE_U then
        pure (some (frame w))
      else
        pure none
    else
      pure none

/-- The loop of `copyout`: `len` bytes are left, from `p buf` on. -/
def copyout_loop (pgdir : Nat) (p : Nat → Byte) : (fuel va len buf : Nat) → MemOp Bool
  | 0, _, _, _ => Op.block
  | fuel + 1, va, len, buf => do
    if len > 0 then
      let va0 := PGROUNDDOWN va
      match ← uva2ka pgdir va0 with
      | none => pure false
      | some pa0 =>
        let n := min (PGSIZE - (va - va0)) len
        Op.modify fun m => m.setPage pa0 ((m.page pa0).setBytes (va - va0) (fun i => p (buf + i)) n)
        copyout_loop pgdir p fuel ((va0 + PGSIZE) % 2 ^ 32) (len - n) (buf + n)
    else
      pure true

/-- Copy `len` bytes from `p` to user address `va` in page table `pgdir`;
    `false` is the result -1. -/
@[irreducible] def copyout (pgdir va : Nat) (p : Nat → Byte) (len : Nat) : MemOp Bool :=
  copyout_loop pgdir p (len + 1) va len 0

/-! ## Loading a program -/

/-- `readi` on a regular file with the given contents: `none` is the result
    -1, otherwise it is the number of bytes read. -/
def readi (content : List Byte) (off n : Nat) : Option (List Byte) :=
  if off > content.length ∨ off + n ≥ 2 ^ 32 then none else some ((content.drop off).take n)

/-- The loop of `loaduvm`. -/
def loaduvm_loop (pgdir addr : Nat) (content : List Byte) (offset sz : Nat) :
    (fuel i : Nat) → MemOp Bool
  | 0, _ => Op.block
  | fuel + 1, i => do
    if i < sz then
      match ← walkpgdir pgdir ((addr + i) % 2 ^ 32) false with
      | none => Op.panic "loaduvm: address should exist"
      | some pte =>
        let w ← load pte
        let n := if sz - i < PGSIZE then sz - i else PGSIZE
        match readi content ((offset + i) % 2 ^ 32) n with
        | none => pure false
        | some bs =>
          Op.modify fun m =>
            m.setPage (frame w) ((m.page (frame w)).setBytes 0 (fun j => bs.getD j 0) bs.length)
          if bs.length = n then
            loaduvm_loop pgdir addr content offset sz fuel ((i + PGSIZE) % 2 ^ 32)
          else
            pure false
    else
      pure true

/-- Load a program segment into `pgdir`; `false` is the result -1. -/
@[irreducible] def loaduvm (pgdir addr : Nat) (content : List Byte) (offset sz : Nat) : MemOp Bool := do
  if addr % PGSIZE ≠ 0 then
    Op.panic "loaduvm: addr must be page aligned"
  else
    loaduvm_loop pgdir addr content offset sz (2 ^ 20 + 1) 0

end Xv6.Vm
