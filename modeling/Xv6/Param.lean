import Xv6.Framework.BitRange

/-! # Constants and the disk block

    The constants of `param.h`, `fs.h`, `stat.h` and `fcntl.h` that the
    models use, and the disk block as a little-endian bit vector.
-/

namespace Xv6

/-! ## `param.h` -/

/-- Maximum number of processes. -/
abbrev NPROC : Nat := 64
/-- Open files per process. -/
abbrev NOFILE : Nat := 16
/-- Open files per system. -/
abbrev NFILE : Nat := 100
/-- Maximum number of active i-nodes. -/
abbrev NINODE : Nat := 50
/-- Maximum major device number. -/
abbrev NDEV : Nat := 10
/-- Device number of file system root disk. -/
abbrev ROOTDEV : Nat := 1
/-- Max # of blocks any FS op writes. -/
abbrev MAXOPBLOCKS : Nat := 10
/-- Max data blocks in on-disk log. -/
abbrev LOGSIZE : Nat := MAXOPBLOCKS * 3
/-- Size of disk block cache. -/
abbrev NBUF : Nat := MAXOPBLOCKS * 3
/-- Size of file system in blocks. -/
abbrev FSSIZE : Nat := 1000

instance neZero_NPROC : NeZero NPROC := ⟨by decide⟩

instance neZero_NINODE : NeZero NINODE := ⟨by decide⟩

-- the numbers of processors that concrete runs have
instance neZero_one : NeZero (1 : Nat) := ⟨by decide⟩

instance neZero_two : NeZero (2 : Nat) := ⟨by decide⟩

/-! ## `fs.h` -/

/-- Root i-number. -/
abbrev ROOTINO : Nat := 1
/-- Block size in bytes. -/
abbrev BSIZE : Nat := 512
/-- Block numbers held by the inode itself. -/
abbrev NDIRECT : Nat := 12
/-- Block numbers held by the indirect block. -/
abbrev NINDIRECT : Nat := BSIZE / 4
/-- Largest number of data blocks of one file. -/
abbrev MAXFILE : Nat := NDIRECT + NINDIRECT
/-- Inodes per block; a `struct dinode` takes 64 bytes. -/
abbrev IPB : Nat := BSIZE / 64
/-- Bitmap bits per block. -/
abbrev BPB : Nat := BSIZE * 8
/-- Length of a directory entry's name. -/
abbrev DIRSIZ : Nat := 14

/-- A byte. -/
abbrev Byte : Type := BitVec 8

/-- The number in some bytes, the least significant byte first. -/
def littleEndian (bs : List Byte) : Nat := bs.foldr (fun b v => b.toNat + 256 * v) 0

/-- A disk block, bit `i` of the vector being bit `i % 8` of byte `i / 8`. -/
abbrev Block : Type := BitVec (8 * BSIZE)

/-- The `i`-th 32-bit word of a block. -/
def Block.word (b : Block) (i : Nat) : BitVec 32 := BitRange.cell 32 b i

/-- Store the `i`-th 32-bit word of a block. -/
def Block.setWord (b : Block) (i : Nat) (v : BitVec 32) : Block := BitRange.setCell b i v

theorem Block.word_setWord_self (b : Block) {i : Nat} (v : BitVec 32) (h : i < 128) :
    (b.setWord i v).word i = v :=
  BitRange.cell_setCell_self _ _ _ (by simp only [BSIZE]; omega)

theorem Block.word_setWord_ne (b : Block) {i j : Nat} (v : BitVec 32) (h : j ≠ i) :
    (b.setWord i v).word j = b.word j :=
  BitRange.cell_setCell_ne _ _ h

@[simp] theorem Block.word_zero (i : Nat) : Block.word 0 i = 0 :=
  BitRange.cell_zero i

end Xv6
