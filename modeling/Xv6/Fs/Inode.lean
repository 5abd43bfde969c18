import Xv6.Fs.Disk
import Xv6.Framework.Op
import Xv6.Framework.Search

/-! # Blocks, inodes and their contents

    The lower half of `fs.c`: the block allocator (`balloc`, `bfree`), the
    inode slots (`ialloc`, `iupdate`, `iget`), and the contents of an inode
    (`bmap`, `itrunc`, `readi`, `writei`). All of it runs either under the
    lock of one buffer or under the sleep-lock of the one inode it works on,
    so each function is an uninterrupted stretch of code, an `Op`.

    The disk is the one the buffer cache and the log show: `log_write` changes
    the contents of a block at once. What the log itself does, its capacity
    included, is the subject of the modules under `Log`.
-/

namespace Xv6.Fs

open BitRange

/-! ## The state -/

/-- Index of a process in the process table. -/
abbrev Pid : Type := Fin NPROC
/-- Index of an entry in `icache.inode`, that is a `struct inode *`. -/
abbrev Slot : Type := Fin NINODE
/-- Index of an entry in `ftable.file`, that is a `struct file *`. -/
abbrev FileSlot : Type := Fin NFILE

/-- `struct inode`: the in-memory copy of an inode. -/
structure Inode extends Dinode where
  dev : Nat
  inum : Nat
  ref : Int
  /-- The holder of the sleep-lock. -/
  lock : Option Pid
  valid : Bool

inductive FileType where
  | FD_NONE
  | FD_PIPE
  | FD_INODE
deriving DecidableEq

/-- `struct file`. -/
structure File where
  type : FileType
  ref : Int
  readable : Bool
  writable : Bool
  ip : Slot
  off : BitVec 32

/-- The part of `struct proc` that belongs to the file system. -/
structure Proc where
  ofile : Fin NOFILE → Option FileSlot
  cwd : Option Slot

/-- The state of the file system. -/
structure FsState where
  disk : Disk
  /-- `log.outstanding`: how many operations are executing. -/
  outstanding : Nat
  icache : Slot → Inode
  ftable : FileSlot → File
  proc : Pid → Proc

namespace FsState

/-- Change one entry of the inode cache. -/
def setInode (s : FsState) (ip : Slot) (f : Inode → Inode) : FsState :=
  { s with icache := Function.update s.icache ip (f (s.icache ip)) }

/-- Change the copy of the on-disk fields in one entry of the inode cache. -/
def setCopy (s : FsState) (ip : Slot) (f : Dinode → Dinode) : FsState :=
  s.setInode ip fun ino => { ino with toDinode := f ino.toDinode }

end FsState

variable (sb : Superblock)

/-! ## Blocks -/

/-- Store the block in the running transaction. -/
def log_write (b : Nat) (data : Block) : Op FsState Unit := do
  let s ← Op.get
  if s.outstanding < 1 then
    Op.panic "log_write outside of trans"
  else
    Op.modify fun s => { s with disk := Function.update s.disk b data }

/-- Zero a block. -/
def bzero (bno : Nat) : Op FsState Unit := log_write bno 0

/-- The outer loop of `balloc`, from bit `b` on. -/
def balloc_from : (fuel b : Nat) → Op FsState Nat
  | 0, _ => Op.panic "balloc: out of blocks"
  | fuel + 1, b => do
    if b < sb.size then
      let s ← Op.get
      let bp := s.disk (sb.BBLOCK b)
      match firstFrom (fun bi => decide (b + bi < sb.size) && !bp.getLsbD bi) BPB 0 with
      | some bi =>
        log_write (sb.BBLOCK b) (put bp bi (BitVec.ofBool true))
        bzero (b + bi)
        pure (b + bi)
      | none => balloc_from fuel (b + BPB)
    else
      Op.panic "balloc: out of blocks"

/-- Allocate a zeroed disk block. -/
def balloc : Op FsState Nat := balloc_from sb (sb.size / BPB + 1) 0

/-- Free a disk block. -/
def bfree (b : Nat) : Op FsState Unit := do
  let s ← Op.get
  let bp := s.disk (sb.BBLOCK b)
  if bp.getLsbD (b % BPB) = false then
    Op.panic "freeing free block"
  else
    log_write (sb.BBLOCK b) (put bp (b % BPB) (BitVec.ofBool false))

/-! ## Inodes -/

/-- Allocate an inode: give a free one the type `type`. The caller then gets a
    cache entry for it with `iget`. -/
def ialloc (type : BitVec 16) : Op FsState Nat := do
  let s ← Op.get
  match firstFrom (fun inum => (dinode sb s.disk inum).type = 0) (sb.ninodes - 1) 1 with
  | some inum =>
    log_write (sb.IBLOCK inum) (setCell (s.disk (sb.IBLOCK inum)) (inum % IPB)
      { Dinode.zero with type := type }.encode)
    pure inum
  | none => Op.panic "ialloc: no inodes"

/-- Copy a modified in-memory inode to disk. -/
def iupdate (ip : Slot) : Op FsState Unit := do
  let s ← Op.get
  let inum := (s.icache ip).inum
  log_write (sb.IBLOCK inum) (setCell (s.disk (sb.IBLOCK inum)) (inum % IPB)
    (s.icache ip).toDinode.encode)

/-- Find the inode with number `inum` on device `dev` in the cache, or take a
    free entry for it. -/
def iget (dev inum : Nat) : Op FsState Slot := do
  let s ← Op.get
  match (List.finRange NINODE).find? fun ip => decide (0 < (s.icache ip).ref ∧
      (s.icache ip).dev = dev ∧ (s.icache ip).inum = inum) with
  | some ip =>
    Op.modify fun s => s.setInode ip fun ino => { ino with ref := ino.ref + 1 }
    pure ip
  | none =>
    match (List.finRange NINODE).find? fun ip => decide ((s.icache ip).ref = 0) with
    | some ip =>
      Op.modify fun s => s.setInode ip fun ino =>
        { ino with dev := dev, inum := inum, ref := 1, valid := false }
      pure ip
    | none => Op.panic "iget: no inodes"

/-! ## Inode content -/

/-- The address in entry `j` of the indirect block `addr`, allocated if there
    is none. -/
def bmap_indirect (addr j : Nat) : Op FsState Nat := do
  let s ← Op.get
  let bp := s.disk addr
  if (bp.word j).toNat = 0 then
    let b ← balloc sb
    log_write addr (bp.setWord j (BitVec.ofNat 32 b))
    pure b
  else
    pure (bp.word j).toNat

/-- The disk block address of the `bn`-th block in inode `ip`, allocated if
    there is none. -/
def bmap (ip : Slot) (bn : Nat) : Op FsState Nat := do
  let s ← Op.get
  if bn < NDIRECT then
    let addr := (s.icache ip).addr bn
    if addr = 0 then
      let addr ← balloc sb
      Op.modify fun s => s.setCopy ip fun d => d.setAddr bn addr
      pure addr
    else
      pure addr
  else if bn - NDIRECT < NINDIRECT then
    -- Load indirect block, allocating if necessary.
    if (s.icache ip).addr NDIRECT = 0 then
      let addr ← balloc sb
      Op.modify fun s => s.setCopy ip fun d => d.setAddr NDIRECT addr
      bmap_indirect sb addr (bn - NDIRECT)
    else
      bmap_indirect sb ((s.icache ip).addr NDIRECT) (bn - NDIRECT)
  else
    Op.panic "bmap: out of range"

/-- The first part of `itrunc`: the blocks in `addrs`. -/
def itrunc_direct (ip : Slot) : Op FsState Unit :=
  Op.loop (fun i => do
    let s ← Op.get
    if (s.icache ip).addr i = 0 then
      pure ()
    else
      bfree sb ((s.icache ip).addr i)
      Op.modify fun s => s.setCopy ip fun d => d.setAddr i 0) NDIRECT 0

/-- The second part of `itrunc`: the indirect block and the blocks in it. -/
def itrunc_indirect (ip : Slot) : Op FsState Unit := do
  let s ← Op.get
  if (s.icache ip).addr NDIRECT = 0 then
    pure ()
  else
    let bp := s.disk ((s.icache ip).addr NDIRECT)
    Op.loop (fun j =>
      if (bp.word j).toNat = 0 then
        pure ()
      else
        bfree sb (bp.word j).toNat) NINDIRECT 0
    bfree sb ((s.icache ip).addr NDIRECT)
    Op.modify fun s => s.setCopy ip fun d => d.setAddr NDIRECT 0

/-- Truncate inode (discard contents). -/
def itrunc (ip : Slot) : Op FsState Unit := do
  itrunc_direct sb ip
  itrunc_indirect sb ip
  Op.modify fun s => s.setCopy ip fun d => { d with size := 0 }
  iupdate sb ip

end Xv6.Fs

namespace Xv6

/-- `m` bytes of a block, from byte `off` on. -/
def Block.bytes (b : Block) (off m : Nat) : List Byte :=
  (List.range m).map fun i => BitRange.cell 8 b (off + i)

/-- The block with the bytes `f 0`, …, `f (m - 1)` stored from byte `off` on. -/
def Block.setBytes (b : Block) (off : Nat) (f : Nat → Byte) : (m : Nat) → Block
  | 0 => b
  | m + 1 => BitRange.setCell (b.setBytes off f m) (off + m) (f m)

end Xv6

namespace Xv6.Fs

variable (sb : Superblock)

/-- The loop of `readi`: `n` bytes are wanted, `tot` have been read. -/
def readi_loop (ip : Slot) (n : Nat) : (fuel tot off : Nat) → Op FsState (List Byte)
  | 0, _, _ => pure []
  | fuel + 1, tot, off => do
    if tot < n then
      let b ← bmap sb ip (off / BSIZE)
      let s ← Op.get
      let m := min (n - tot) (BSIZE - off % BSIZE)
      let dst ← readi_loop ip n fuel (tot + m) (off + m)
      pure ((s.disk b).bytes (off % BSIZE) m ++ dst)
    else
      pure []

/-- Read data from an inode that is not a device; `none` is the result -1. -/
def readi_blocks (ip : Slot) (off n : BitVec 32) : Op FsState (Option (List Byte)) := do
  let s ← Op.get
  let size := (s.icache ip).size
  if off > size ∨ off + n < off then
    pure none
  else
    let n := if off + n > size then size - off else n
    let dst ← readi_loop sb ip n.toNat n.toNat 0 off.toNat
    pure (some dst)

/-- The loop of `writei`; the result is the final value of `off`. -/
def writei_loop (ip : Slot) (src : Nat → Byte) (n : Nat) :
    (fuel tot off : Nat) → Op FsState Nat
  | 0, _, off => pure off
  | fuel + 1, tot, off => do
    if tot < n then
      let b ← bmap sb ip (off / BSIZE)
      let s ← Op.get
      let m := min (n - tot) (BSIZE - off % BSIZE)
      log_write b ((s.disk b).setBytes (off % BSIZE) (fun i => src (tot + i)) m)
      writei_loop ip src n fuel (tot + m) (off + m)
    else
      pure off

/-- Write data to an inode that is not a device; `none` is the result -1. -/
def writei_blocks (ip : Slot) (src : Nat → Byte) (off n : BitVec 32) :
    Op FsState (Option (BitVec 32)) := do
  let s ← Op.get
  if off > (s.icache ip).size ∨ off + n < off then
    pure none
  else if off + n > BitVec.ofNat 32 (MAXFILE * BSIZE) then
    pure none
  else
    let off' ← writei_loop sb ip src n.toNat n.toNat 0 off.toNat
    let s ← Op.get
    if 0 < n ∧ (s.icache ip).size.toNat < off' then
      Op.modify fun s => s.setCopy ip fun d => { d with size := BitVec.ofNat 32 off' }
      iupdate sb ip
    pure (some n)

end Xv6.Fs
