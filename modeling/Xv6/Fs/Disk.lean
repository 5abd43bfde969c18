import Xv6.Param
import Xv6.Framework.BitRange

/-! # The on-disk format

    The layout of `fs.h`:

        [ boot block | super block | log | inode blocks | free bit map | data blocks ]

    A disk is a map from block numbers to blocks: the contents that the buffer
    cache and the log show to the file system. This file reads and writes its
    structures: the `struct dinode` slots of the inode blocks and the bits of
    the free map. Every write touches the structure it is meant for and no
    other one, whichever of the three regions (inode blocks, free map, data
    blocks) it lies in.
-/

namespace Xv6.Fs

open BitRange Function

/-- The contents of a disk. -/
abbrev Disk : Type := Nat → Block

/-! ## The super block -/

/-- `struct superblock`, with the regions in the order `mkfs` lays them out. -/
structure Superblock where
  size : Nat
  nblocks : Nat
  ninodes : Nat
  nlog : Nat
  logstart : Nat
  inodestart : Nat
  bmapstart : Nat
  log_after_super : 2 ≤ logstart
  inodes_after_log : logstart + nlog ≤ inodestart
  bitmap_after_inodes : inodestart + ninodes / IPB < bmapstart
  data_after_bitmap : bmapstart + size / BPB < size - nblocks
  size_lt : size < 2 ^ 31

namespace Superblock

variable (sb : Superblock)

/-- The first data block; everything below it is metadata. -/
def datastart : Nat := sb.size - sb.nblocks

/-- The number of bits in the free map. -/
def nbits : Nat := (sb.size / BPB + 1) * BPB

/-- Block containing inode `i`. -/
def IBLOCK (i : Nat) : Nat := i / IPB + sb.inodestart

/-- Block of free map containing bit for block `b`. -/
def BBLOCK (b : Nat) : Nat := b / BPB + sb.bmapstart

theorem size_le_nbits : sb.size ≤ sb.nbits := by
  unfold nbits
  have := Nat.div_add_mod sb.size BPB
  have := Nat.mod_lt sb.size (show 0 < BPB by decide)
  rw [Nat.add_mul, Nat.mul_comm]
  omega

theorem bmapstart_lt_datastart : sb.bmapstart < sb.datastart :=
  lt_of_le_of_lt (Nat.le_add_right _ _) sb.data_after_bitmap

theorem datastart_pos : 0 < sb.datastart :=
  lt_of_le_of_lt (Nat.zero_le _) sb.bmapstart_lt_datastart

theorem datastart_le_size : sb.datastart ≤ sb.size := Nat.sub_le _ _

theorem IBLOCK_lt {n : Nat} (h : n < sb.ninodes) : sb.IBLOCK n < sb.bmapstart := by
  have hdiv : n / IPB ≤ sb.ninodes / IPB := Nat.div_le_div_right h.le
  have := sb.bitmap_after_inodes
  unfold IBLOCK
  omega

theorem bmapstart_le_BBLOCK (b : Nat) : sb.bmapstart ≤ sb.BBLOCK b := Nat.le_add_left _ _

theorem BBLOCK_lt {b : Nat} (h : b < sb.nbits) : sb.BBLOCK b < sb.datastart := by
  have hdiv : b / BPB < sb.size / BPB + 1 := Nat.div_lt_of_lt_mul (by rwa [nbits, Nat.mul_comm] at h)
  have := sb.data_after_bitmap
  unfold BBLOCK datastart
  omega

/-- The super block that `mkfs` writes: `FSSIZE` = 1000 blocks, `NINODES` =
    200 inodes. -/
def mkfs : Superblock where
  size := 1000
  nblocks := 941
  ninodes := 200
  nlog := LOGSIZE
  logstart := 2
  inodestart := 2 + LOGSIZE
  bmapstart := 2 + LOGSIZE + 26
  log_after_super := by decide
  inodes_after_log := by decide
  bitmap_after_inodes := by decide
  data_after_bitmap := by decide
  size_lt := by decide

end Superblock

/-! ## `struct dinode` -/

/-- `short type` of an inode that is free, a directory, a file, a device. -/
abbrev T_DIR : BitVec 16 := 1
abbrev T_FILE : BitVec 16 := 2
abbrev T_DEV : BitVec 16 := 3

/-- The fields of a `struct dinode`; `struct inode` holds a copy of them. The
    array `uint addrs[NDIRECT+1]` is kept as it lies in memory. -/
structure Dinode where
  type : BitVec 16
  major : BitVec 16
  minor : BitVec 16
  nlink : BitVec 16
  size : BitVec 32
  addrs : BitVec (32 * (NDIRECT + 1))
deriving DecidableEq

namespace Dinode

/-- All fields zero. -/
def zero : Dinode := ⟨0, 0, 0, 0, 0, 0⟩

/-- `addrs[k]`. -/
def addr (d : Dinode) (k : Nat) : Nat := (cell 32 d.addrs k).toNat

/-- `addrs[k] = v`. -/
def setAddr (d : Dinode) (k v : Nat) : Dinode :=
  { d with addrs := setCell d.addrs k (BitVec.ofNat 32 v) }

theorem addr_setAddr_self (d : Dinode) {k v : Nat} (hk : k ≤ NDIRECT) (hv : v < 2 ^ 32) :
    (d.setAddr k v).addr k = v := by
  unfold addr setAddr
  rw [cell_setCell_self _ _ _ (by simp only [NDIRECT] at *; omega), BitVec.toNat_ofNat,
    Nat.mod_eq_of_lt hv]

theorem addr_setAddr_ne (d : Dinode) {k j : Nat} (v : Nat) (h : j ≠ k) :
    (d.setAddr k v).addr j = d.addr j := by
  unfold addr setAddr
  rw [cell_setCell_ne _ _ h]

/-- The 64 bytes of the structure. -/
def encode (d : Dinode) : BitVec 512 :=
  put (put (put (put (put (put 0#512 0 d.type) 16 d.major) 32 d.minor) 48 d.nlink) 64 d.size)
    96 d.addrs

def decode (v : BitVec 512) : Dinode where
  type := v.extractLsb' 0 16
  major := v.extractLsb' 16 16
  minor := v.extractLsb' 32 16
  nlink := v.extractLsb' 48 16
  size := v.extractLsb' 64 32
  addrs := v.extractLsb' 96 416

@[simp] theorem decode_encode (d : Dinode) : decode d.encode = d := by
  cases d
  unfold encode decode
  congr 1 <;> simp [extractLsb'_put_of_disjoint]

theorem encode_decode (v : BitVec 512) : (decode v).encode = v := by
  apply BitVec.eq_of_getLsbD_eq
  intro i hi
  unfold encode decode
  simp only [getLsbD_put _ _ _ _ hi]
  split_ifs with h1 h2 h3 h4 h5 h6
  · exact getLsbD_extractLsb'_sub v h1
  · exact getLsbD_extractLsb'_sub v h2
  · exact getLsbD_extractLsb'_sub v h3
  · exact getLsbD_extractLsb'_sub v h4
  · exact getLsbD_extractLsb'_sub v h5
  · exact getLsbD_extractLsb'_sub v h6
  · -- the fields lie one after the other
    exfalso
    simp only [NDIRECT] at h1
    omega

end Dinode

/-! ## The free map -/

section

variable (start : Nat) (disk : Disk)

/-- The bit of block `b` in the free map that begins at block `start`. -/
def bitAt (b : Nat) : Bool := (disk (b / BPB + start)).getLsbD (b % BPB)

/-- The disk with the bit of block `b` stored. -/
def setBitAt (b : Nat) (v : Bool) : Disk :=
  update disk (b / BPB + start) (put (disk (b / BPB + start)) (b % BPB) (BitVec.ofBool v))

theorem eq_of_div_mod {a b m : Nat} (hd : a / m = b / m) (hm : a % m = b % m) : a = b := by
  rw [← Nat.div_add_mod a m, ← Nat.div_add_mod b m, hd, hm]

theorem bitAt_setBitAt (b : Nat) (v : Bool) (c : Nat) :
    bitAt start (setBitAt start disk b v) c = if c = b then v else bitAt start disk c := by
  have hlt : ∀ x, x % BPB < 8 * BSIZE := fun x => Nat.mod_lt x (by decide)
  unfold bitAt setBitAt
  by_cases hb : c / BPB + start = b / BPB + start
  · have hdiv : c / BPB = b / BPB := Nat.add_right_cancel hb
    rw [hb, update_self, getLsbD_put _ _ _ _ (hlt c)]
    by_cases hcb : c = b
    · subst hcb
      simp
    · -- two bits of one block of the free map
      have hmod : c % BPB ≠ b % BPB := fun hm => hcb (eq_of_div_mod hdiv hm)
      rw [if_neg (by omega), if_neg hcb]
  · have hcb : c ≠ b := by rintro rfl; exact hb rfl
    rw [update_of_ne hb, if_neg hcb]

end

/-! ## Inodes and bits of a disk -/

variable (sb : Superblock) (disk : Disk)

/-- Inode number `n` as it is on the disk. -/
def dinode (n : Nat) : Dinode := .decode (cell 512 (disk (sb.IBLOCK n)) (n % IPB))

/-- The disk with inode `n` stored. -/
def setDinode (n : Nat) (d : Dinode) : Disk :=
  update disk (sb.IBLOCK n) (setCell (disk (sb.IBLOCK n)) (n % IPB) d.encode)

/-- The bit of block `b` in the free map. -/
def bit (b : Nat) : Bool := (disk (sb.BBLOCK b)).getLsbD (b % BPB)

/-- The disk with the bit of block `b` stored. -/
def setBit (b : Nat) (v : Bool) : Disk :=
  update disk (sb.BBLOCK b) (put (disk (sb.BBLOCK b)) (b % BPB) (BitVec.ofBool v))

variable {sb disk}

/-! ## Writes and what they leave alone -/

theorem dinode_setDinode_self (n : Nat) (d : Dinode) : dinode sb (setDinode sb disk n d) n = d := by
  have hlt : n % IPB < IPB := Nat.mod_lt n (by decide)
  unfold dinode setDinode
  rw [update_self, cell_setCell_self _ _ _ (by simp only [IPB, BSIZE] at *; omega),
    Dinode.decode_encode]

theorem dinode_setDinode_ne {n m : Nat} (d : Dinode) (h : m ≠ n) :
    dinode sb (setDinode sb disk n d) m = dinode sb disk m := by
  unfold dinode setDinode
  by_cases hb : sb.IBLOCK m = sb.IBLOCK n
  · -- two slots of one inode block
    have hdiv : m / IPB = n / IPB := Nat.add_right_cancel hb
    have hmod : m % IPB ≠ n % IPB := fun hm => h (eq_of_div_mod hdiv hm)
    rw [hb, update_self, cell_setCell_ne _ _ hmod]
  · rw [update_of_ne hb]

theorem setDinode_dinode (n : Nat) : setDinode sb disk n (dinode sb disk n) = disk := by
  unfold setDinode dinode
  rw [Dinode.encode_decode, setCell_cell, update_eq_self]

theorem setDinode_setDinode (n : Nat) (d d' : Dinode) :
    setDinode sb (setDinode sb disk n d) n d' = setDinode sb disk n d' := by
  unfold setDinode
  rw [update_self, setCell_setCell, update_idem]

theorem setDinode_apply_of_datastart_le {n b : Nat} (d : Dinode) (hn : n < sb.ninodes)
    (hb : sb.datastart ≤ b) : setDinode sb disk n d b = disk b := by
  have := sb.IBLOCK_lt hn
  have := sb.bmapstart_lt_datastart
  exact update_of_ne (by omega) _ _

theorem bit_setDinode {n : Nat} (d : Dinode) (hn : n < sb.ninodes) (b : Nat) :
    bit sb (setDinode sb disk n d) b = bit sb disk b := by
  have := sb.IBLOCK_lt hn
  have := sb.bmapstart_le_BBLOCK b
  unfold bit setDinode
  rw [update_of_ne (by omega)]

theorem bit_setBit (b : Nat) (v : Bool) (c : Nat) :
    bit sb (setBit sb disk b v) c = if c = b then v else bit sb disk c :=
  bitAt_setBitAt sb.bmapstart disk b v c

theorem dinode_setBit {n : Nat} (hn : n < sb.ninodes) (b : Nat) (v : Bool) :
    dinode sb (setBit sb disk b v) n = dinode sb disk n := by
  have := sb.IBLOCK_lt hn
  have := sb.bmapstart_le_BBLOCK b
  unfold dinode setBit
  rw [update_of_ne (by omega)]

theorem setBit_apply_of_datastart_le {b c : Nat} (v : Bool) (hb : b < sb.nbits)
    (hc : sb.datastart ≤ c) : setBit sb disk b v c = disk c := by
  have := sb.BBLOCK_lt hb
  exact update_of_ne (by omega) _ _

/-- Data blocks are not inode blocks. -/
theorem dinode_update_data {n b : Nat} (v : Block) (hn : n < sb.ninodes)
    (hb : sb.datastart ≤ b) : dinode sb (update disk b v) n = dinode sb disk n := by
  have := sb.IBLOCK_lt hn
  have := sb.bmapstart_lt_datastart
  unfold dinode
  rw [update_of_ne (by omega)]

/-- Data blocks are not in the free map. -/
theorem bit_update_data {b c : Nat} (v : Block) (hc : c < sb.nbits)
    (hb : sb.datastart ≤ b) : bit sb (update disk b v) c = bit sb disk c := by
  have := sb.BBLOCK_lt hc
  unfold bit
  rw [update_of_ne (by omega)]

end Xv6.Fs
