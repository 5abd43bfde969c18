import Xv6.Fs.Disk
import Xv6.Framework.Ownership

/-! # Files as sets of blocks

    What the block pointers of a set of files amount to. The files are
    indexed by an arbitrary type `I` (inode numbers, or entries of the inode
    cache), `D i` being the inode of file `i`. Each file has `NPTR` pointer
    slots: the `NDIRECT + 1` entries of `addrs` and the entries of its
    indirect block. `own` lists what they refer to.

    `Image` says that the slots of all files together own blocks of the data
    area, in the sense of `Ownership`, and that no file has a hole. The moves
    by which `bmap` and `writei` change a file (a new pointer in the inode, a
    new pointer in the indirect block, new data) keep it; `Ext` collects what
    they do not change.
-/

namespace Xv6.Fs

open BitRange Ownership Function

/-- Pointer slots of one inode. -/
abbrev NPTR : Nat := NDIRECT + 1 + NINDIRECT

/-- The block number in pointer slot `k` of the inode `d`, 0 for none. -/
def ptr (disk : Disk) (d : Dinode) (k : Nat) : Nat :=
  if k ≤ NDIRECT then d.addr k
  else if d.addr NDIRECT = 0 then 0
  else ((disk (d.addr NDIRECT)).word (k - (NDIRECT + 1))).toNat

/-- The pointer slot of the `bn`-th block of a file. -/
def slotOf (bn : Nat) : Nat := if bn < NDIRECT then bn else bn + 1

theorem slotOf_lt {bn : Nat} (h : bn < MAXFILE) : slotOf bn < NPTR := by
  unfold slotOf
  simp only [MAXFILE, NPTR, NDIRECT, NINDIRECT, BSIZE] at *
  split <;> omega

theorem slotOf_ne (bn : Nat) : slotOf bn ≠ NDIRECT := by
  unfold slotOf
  split <;> omega

theorem slotOf_inj {m n : Nat} (h : slotOf m = slotOf n) : m = n := by
  unfold slotOf at h
  split at h <;> split at h <;> omega

/-- The byte at position `pos` of the file. -/
def byteAt (disk : Disk) (d : Dinode) (pos : Nat) : Byte :=
  cell 8 (disk (ptr disk d (slotOf (pos / BSIZE)))) (pos % BSIZE)

/-- The contents of the file. -/
def contents (disk : Disk) (d : Dinode) : List Byte :=
  (List.range d.size.toNat).map (byteAt disk d)

variable {d : Dinode}

/-- Slots in `addrs` do not depend on the disk. -/
theorem ptr_of_le {disk : Disk} {k : Nat} (h : k ≤ NDIRECT) :
    ptr disk d k = d.addr k := if_pos h

theorem ptr_of_lt {disk : Disk} {k : Nat} (h : NDIRECT < k) (h0 : d.addr NDIRECT ≠ 0) :
    ptr disk d k = ((disk (d.addr NDIRECT)).word (k - (NDIRECT + 1))).toNat := by
  unfold ptr
  rw [if_neg (by omega), if_neg h0]

/-- Without an indirect block its slots are empty. -/
theorem ptr_eq_zero {disk : Disk} {k : Nat} (h : NDIRECT < k) (h0 : d.addr NDIRECT = 0) :
    ptr disk d k = 0 := by
  unfold ptr
  rw [if_neg (by omega), if_pos h0]

/-- The slots depend on `addrs` and on the indirect block. -/
theorem ptr_congr {disk disk' : Disk} {d d' : Dinode} (k : Nat) (hd : d'.addrs = d.addrs)
    (hdisk : d.addr NDIRECT ≠ 0 → disk' (d.addr NDIRECT) = disk (d.addr NDIRECT)) :
    ptr disk' d' k = ptr disk d k := by
  have haddr : ∀ j, d'.addr j = d.addr j := fun j => by unfold Dinode.addr; rw [hd]
  unfold ptr
  simp only [haddr]
  split
  · rfl
  · split
    · rfl
    · next h => rw [hdisk h]

variable {I : Type}

open Classical in
/-- The block each pointer slot of the files `F` refers to. -/
noncomputable def own (disk : Disk) (F : Set I) (D : I → Dinode) (κ : I × Nat) : Nat :=
  if κ.1 ∈ F ∧ κ.2 < NPTR then ptr disk (D κ.1) κ.2 else 0

section

variable {disk : Disk} {F : Set I} {D : I → Dinode} {i : I} {k : Nat}

theorem own_eq (hi : i ∈ F) (hk : k < NPTR) : own disk F D (i, k) = ptr disk (D i) k :=
  if_pos ⟨hi, hk⟩

/-- The slot of the indirect block. -/
theorem own_indirect (hi : i ∈ F) : own disk F D (i, NDIRECT) = (D i).addr NDIRECT := by
  rw [own_eq hi (by decide), ptr_of_le le_rfl]

theorem own_of_not_mem (hi : i ∉ F) : own disk F D (i, k) = 0 :=
  if_neg fun h => hi h.1

/-- The table of owners depends on the `addrs` arrays and the indirect blocks. -/
theorem own_congr {disk' : Disk} {D' : I → Dinode}
    (hD : ∀ i ∈ F, (D' i).addrs = (D i).addrs)
    (hdisk : ∀ i ∈ F, (D i).addr NDIRECT ≠ 0 →
      disk' ((D i).addr NDIRECT) = disk ((D i).addr NDIRECT)) :
    own disk' F D' = own disk F D := by
  funext ⟨i, k⟩
  unfold own
  by_cases hF : i ∈ F ∧ k < NPTR
  · rw [if_pos hF, if_pos hF]
    exact ptr_congr k (hD i hF.1) (hdisk i hF.1)
  · rw [if_neg hF, if_neg hF]

theorem mem_of_own_ne_zero (h : own disk F D (i, k) ≠ 0) : i ∈ F ∧ k < NPTR := by
  by_contra hn
  exact h (if_neg hn)

end

variable (sb : Superblock)

/-- The files `F` own their blocks, have no holes, and the free map marks the
    metadata. -/
structure Image (disk : Disk) (F : Set I) (D : I → Dinode) : Prop where
  owns : Owns sb.datastart sb.size (bit sb disk) (own disk F D)
  nohole : ∀ i ∈ F, ∀ bn, bn * BSIZE < (D i).size.toNat →
    bn < MAXFILE ∧ own disk F D (i, slotOf bn) ≠ 0
  meta_marked : ∀ b, b < sb.datastart → bit sb disk b = true

/-- The free map marks nothing but the metadata and the blocks of `F`. -/
def NoLeak (disk : Disk) (F : Set I) (D : I → Dinode) : Prop :=
  Exact sb.datastart sb.nbits (bit sb disk) (own disk F D)

/-- 1 if file `i` has no indirect block. -/
noncomputable def lacksIndirect (disk : Disk) (F : Set I) (D : I → Dinode) (i : I) : Nat :=
  if own disk F D (i, NDIRECT) = 0 then 1 else 0

/-- What changes of file `a` leave alone: the inodes on the disk, all fields
    of its inode but `addrs`, the pointers it had, and every other file. The
    blocks used up are at most `c` apart from an indirect block. -/
structure Ext (F : Set I) (a : I) (disk disk' : Disk) (D D' : I → Dinode) (c : Nat) : Prop where
  dinode : ∀ n, n < sb.ninodes → dinode sb disk' n = dinode sb disk n
  fields : ∃ addrs, D' a = { D a with addrs := addrs }
  others : ∀ i, i ≠ a → D' i = D i
  own_others : ∀ i k, i ≠ a → own disk' F D' (i, k) = own disk F D (i, k)
  own_mono : ∀ k, own disk F D (a, k) ≠ 0 → own disk' F D' (a, k) = own disk F D (a, k)
  blocks : ∀ i k, i ≠ a → own disk F D (i, k) ≠ 0 →
    disk' (own disk F D (i, k)) = disk (own disk F D (i, k))
  noleak : NoLeak sb disk F D → NoLeak sb disk' F D'
  free : free sb.size (bit sb disk) + lacksIndirect disk' F D' a ≤
    free sb.size (bit sb disk') + lacksIndirect disk F D a + c

variable {sb} {F : Set I} {a : I} {disk disk' disk'' : Disk} {D D' D'' : I → Dinode} {c c' : Nat}

theorem Ext.refl : Ext sb F a disk disk D D 0 :=
  ⟨fun _ _ => .refl _, ⟨_, .refl _⟩, fun _ _ => .refl _, fun _ _ _ => .refl _, fun _ _ => .refl _,
    fun _ _ _ _ => .refl _, id, by simp⟩

section

variable (h : Ext sb F a disk disk' D D' c)
include h

theorem Ext.trans (h' : Ext sb F a disk' disk'' D' D'' c') :
    Ext sb F a disk disk'' D D'' (c + c') where
  dinode n hn := (h'.dinode n hn).trans (h.dinode n hn)
  fields := by
    obtain ⟨x, hx⟩ := h.fields
    obtain ⟨y, hy⟩ := h'.fields
    exact ⟨y, by rw [hy, hx]⟩
  others i hi := (h'.others i hi).trans (h.others i hi)
  own_others i k hi := (h'.own_others i k hi).trans (h.own_others i k hi)
  own_mono k hk := by
    have h1 := h.own_mono k hk
    rw [h'.own_mono k (by rwa [h1]), h1]
  blocks i k hi hk := by
    have h1 := h.own_others i k hi
    have h2 := h'.blocks i k hi (by rwa [h1])
    rw [h1] at h2
    rw [h2, h.blocks i k hi hk]
  noleak hn := h'.noleak (h.noleak hn)
  free := by
    have := h.free
    have := h'.free
    omega

theorem Ext.size_eq (i : I) : (D' i).size = (D i).size := by
  by_cases hi : i = a
  · obtain ⟨x, hx⟩ := h.fields
    rw [hi, hx]
  · rw [h.others i hi]

/-- No other file's contents change. -/
theorem Ext.byteAt_others (him : Image sb disk F D) {i : I} (hi : i ≠ a) (hF : i ∈ F) {pos : Nat}
    (hpos : pos < (D i).size.toNat) : byteAt disk' (D' i) pos = byteAt disk (D i) pos := by
  obtain ⟨hbn, hown⟩ := him.nohole i hF (pos / BSIZE)
    (lt_of_le_of_lt (Nat.div_mul_le_self pos BSIZE) hpos)
  have hk := slotOf_lt hbn
  have hb := h.blocks i _ hi hown
  have ho := h.own_others i (slotOf (pos / BSIZE)) hi
  rw [own_eq hF hk, own_eq hF hk] at ho
  rw [own_eq hF hk] at hb
  unfold byteAt
  rw [ho, hb]

theorem Ext.contents_others (him : Image sb disk F D) {i : I} (hi : i ≠ a) (hF : i ∈ F) :
    contents disk' (D' i) = contents disk (D i) := by
  unfold contents
  rw [h.size_eq i]
  apply List.map_congr_left
  intro pos hpos
  exact h.byteAt_others him hi hF (List.mem_range.mp hpos)

end

/-! ## Reading the bounds off an image -/

theorem Image.size_le (h : Image sb disk F D) {i : I} (hi : i ∈ F) :
    (D i).size.toNat ≤ MAXFILE * BSIZE := by
  by_contra hlt
  exact absurd (h.nohole i hi MAXFILE (by omega)).1 (lt_irrefl _)

theorem Image.datastart_le (h : Image sb disk F D) {κ : I × Nat} (hκ : own disk F D κ ≠ 0) :
    sb.datastart ≤ own disk F D κ := (h.owns.range κ hκ).1

/-- A block that the free map does not mark is a data block. -/
theorem Image.datastart_le_of_unmarked (h : Image sb disk F D) {b : Nat}
    (hb : bit sb disk b = false) : sb.datastart ≤ b := by
  by_contra hlt
  simp [h.meta_marked b (by omega)] at hb

/-! ## New blocks -/

/-- The disk after `balloc` returned the block `b`. -/
def allocBlock (sb : Superblock) (disk : Disk) (b : Nat) : Disk :=
  update (setBit sb disk b true) b 0

theorem bit_allocBlock {b c : Nat} (hb : sb.datastart ≤ b) (hc : c < sb.nbits) :
    bit sb (allocBlock sb disk b) c = if c = b then true else bit sb disk c := by
  unfold allocBlock
  rw [bit_update_data _ hc hb, bit_setBit]

theorem dinode_allocBlock {b n : Nat} (hb : sb.datastart ≤ b) (hn : n < sb.ninodes) :
    dinode sb (allocBlock sb disk b) n = dinode sb disk n := by
  unfold allocBlock
  rw [dinode_update_data _ hn hb, dinode_setBit hn]

theorem allocBlock_self (b : Nat) : allocBlock sb disk b b = 0 := update_self _ _ _

theorem allocBlock_apply {b x : Nat} (hb : b < sb.size) (hx : sb.datastart ≤ x) (hne : x ≠ b) :
    allocBlock sb disk b x = disk x := by
  unfold allocBlock
  rw [update_of_ne hne,
    setBit_apply_of_datastart_le true (lt_of_lt_of_le hb sb.size_le_nbits) hx]

variable [DecidableEq I] {n : Nat}

section

variable (him : Image sb disk F D)
include him

/-- Entering a fresh block `b` into an empty slot of file `a`, in general. -/
theorem Image.alloc {b k : Nat} (hb : bit sb disk b = false) (hlt : b < sb.size)
    (h0 : own disk F D (a, k) = 0)
    (hbit : ∀ c, c < sb.nbits → bit sb disk' c = if c = b then true else bit sb disk c)
    (hown : own disk' F D' = update (own disk F D) (a, k) b)
    (hdinode : ∀ n, n < sb.ninodes → Fs.dinode sb disk' n = Fs.dinode sb disk n)
    (hfields : ∃ addrs, D' a = { D a with addrs := addrs }) (hothers : ∀ i, i ≠ a → D' i = D i)
    (hblocks : ∀ i j, i ≠ a → own disk F D (i, j) ≠ 0 →
      disk' (own disk F D (i, j)) = disk (own disk F D (i, j))) :
    Image sb disk' F D' ∧ Ext sb F a disk disk' D D' (if k = NDIRECT then 0 else 1) := by
  have hdata := him.datastart_le_of_unmarked hb
  have hb0 : b ≠ 0 := by have := sb.datastart_pos; omega
  have hsize : ∀ i, (D' i).size = (D i).size := by
    intro i
    by_cases hi : i = a
    · obtain ⟨x, hx⟩ := hfields
      rw [hi, hx]
    · rw [hothers i hi]
  -- slots that were in use stay as they are
  have hmono : ∀ κ, own disk F D κ ≠ 0 → own disk' F D' κ = own disk F D κ := by
    intro κ hκ
    have hne : κ ≠ (a, k) := fun h => hκ (h ▸ h0)
    rw [hown, update_of_ne hne]
  have hbit' : ∀ c, c < sb.size → bit sb disk' c = if c = b then true else bit sb disk c :=
    fun c hc => hbit c (lt_of_lt_of_le hc sb.size_le_nbits)
  have hfree := free_alloc hlt hb hbit'
  refine ⟨⟨him.owns.alloc hdata hlt hb hbit' hown, ?_, ?_⟩, ⟨hdinode, hfields, hothers, ?_,
    fun j hj => hmono _ hj, hblocks, fun hn => hn.alloc hb0 h0 hbit hown, ?_⟩⟩
  · intro i hi bn hbn
    rw [hsize i] at hbn
    obtain ⟨hmax, hne⟩ := him.nohole i hi bn hbn
    exact ⟨hmax, by rwa [hmono _ hne]⟩
  · intro c hc
    rw [hbit' c (lt_of_lt_of_le hc sb.datastart_le_size), if_neg (by omega)]
    exact him.meta_marked c hc
  · intro i j hi
    have hne : (i, j) ≠ (a, k) := fun h => hi (congrArg Prod.fst h)
    rw [hown, update_of_ne hne]
  · unfold lacksIndirect
    rw [hown]
    by_cases hk : k = NDIRECT
    · -- the new block is the indirect block itself
      subst hk
      rw [update_self, if_neg hb0, if_pos h0, if_pos rfl]
      omega
    · have hne : (a, NDIRECT) ≠ (a, k) := fun h => hk (congrArg Prod.snd h).symm
      rw [update_of_ne hne, if_neg hk]
      omega

/-- Other slots do not see a new pointer in `addrs`. -/
theorem own_newPtr (ha : a ∈ F) {k b : Nat} (hk : k ≤ NDIRECT) (h0 : (D a).addr k = 0)
    (hb : bit sb disk b = false) (hlt : b < sb.size) :
    own (allocBlock sb disk b) F (update D a ((D a).setAddr k b)) =
      update (own disk F D) (a, k) b := by
  have hdata := him.datastart_le_of_unmarked hb
  have hbig : b < 2 ^ 32 := by have := sb.size_lt; omega
  -- the indirect blocks of all files are other blocks than the new one
  have hind : ∀ i ∈ F, (D i).addr NDIRECT ≠ 0 →
      allocBlock sb disk b ((D i).addr NDIRECT) = disk ((D i).addr NDIRECT) := by
    intro i hi hne
    rw [← own_indirect hi] at hne ⊢
    exact allocBlock_apply hlt (him.datastart_le hne) (him.owns.ne_of_unmarked hb _ hne)
  funext ⟨i, j⟩
  by_cases hF : i ∈ F ∧ j < NPTR
  · obtain ⟨hi, hj⟩ := hF
    by_cases hia : i = a
    · subst hia
      rw [own_eq hi hj, update_self]
      by_cases hjk : j = k
      · subst hjk
        rw [update_self, ptr_of_le hk, Dinode.addr_setAddr_self _ hk hbig]
      · have hne : (i, j) ≠ (i, k) := fun h => hjk (congrArg Prod.snd h)
        rw [update_of_ne hne, own_eq hi hj]
        by_cases hjN : j ≤ NDIRECT
        · rw [ptr_of_le hjN, ptr_of_le hjN, Dinode.addr_setAddr_ne _ _ hjk]
        · by_cases hkN : k = NDIRECT
          · -- a fresh indirect block is all zeroes
            subst hkN
            have hself : ((D i).setAddr NDIRECT b).addr NDIRECT = b :=
              Dinode.addr_setAddr_self _ le_rfl hbig
            have hb0 : b ≠ 0 := by have := sb.datastart_pos; omega
            rw [ptr_of_lt (by omega) (by rwa [hself]), hself, allocBlock_self, Block.word_zero,
              ptr_eq_zero (by omega) h0]
            rfl
          · have haddr := Dinode.addr_setAddr_ne (D i) b (Ne.symm hkN)
            by_cases h12 : (D i).addr NDIRECT = 0
            · rw [ptr_eq_zero (by omega) (by rw [haddr, h12]), ptr_eq_zero (by omega) h12]
            · rw [ptr_of_lt (by omega) (by rwa [haddr]), ptr_of_lt (by omega) h12, haddr,
                hind i hi h12]
    · have hne : (i, j) ≠ (a, k) := fun h => hia (congrArg Prod.fst h)
      rw [update_of_ne hne, own_eq hi hj, own_eq hi hj, update_of_ne hia]
      exact ptr_congr j rfl (hind i hi)
  · have hne : (i, j) ≠ (a, k) := by
      intro h
      obtain ⟨rfl, rfl⟩ := Prod.mk.injEq .. ▸ h
      exact hF ⟨ha, lt_of_le_of_lt hk (by decide)⟩
    rw [update_of_ne hne]
    unfold own
    rw [if_neg hF, if_neg hF]

/-- A new pointer in `addrs`. -/
theorem Image.newPtr (ha : a ∈ F) {k b : Nat} (hk : k ≤ NDIRECT) (h0 : (D a).addr k = 0)
    (hb : bit sb disk b = false) (hlt : b < sb.size) :
    Image sb (allocBlock sb disk b) F (update D a ((D a).setAddr k b)) ∧
    Ext sb F a disk (allocBlock sb disk b) D (update D a ((D a).setAddr k b))
      (if k = NDIRECT then 0 else 1) := by
  have hdata := him.datastart_le_of_unmarked hb
  have hk' : k < NPTR := lt_of_le_of_lt hk (by decide)
  refine him.alloc hb hlt ?_ (fun c hc => bit_allocBlock hdata hc)
    (own_newPtr him ha hk h0 hb hlt) (fun n hn => dinode_allocBlock hdata hn) ?_ ?_ ?_
  · rw [own_eq ha hk', ptr_of_le hk, h0]
  · exact ⟨_, by rw [update_self]; rfl⟩
  · intro i hi
    rw [update_of_ne hi]
  · intro i j _ hj
    exact allocBlock_apply hlt (him.datastart_le hj) (him.owns.ne_of_unmarked hb _ hj)

/-- Other slots do not see a new pointer in the indirect block. -/
theorem own_newEntry (ha : a ∈ F) {j b : Nat} (hj : j < NINDIRECT) (h12 : (D a).addr NDIRECT ≠ 0)
    (hb : bit sb disk b = false) (hlt : b < sb.size) :
    own (update (allocBlock sb disk b) ((D a).addr NDIRECT)
        ((disk ((D a).addr NDIRECT)).setWord j (BitVec.ofNat 32 b))) F D =
      update (own disk F D) (a, NDIRECT + 1 + j) b := by
  have hbig : b < 2 ^ 32 := by have := sb.size_lt; omega
  funext ⟨i, l⟩
  by_cases hF : i ∈ F ∧ l < NPTR
  · obtain ⟨hi, hl⟩ := hF
    by_cases hia : i = a
    · subst hia
      rw [own_eq hi hl]
      by_cases hlN : l ≤ NDIRECT
      · have hne : (i, l) ≠ (i, NDIRECT + 1 + j) := by
          intro h
          have := congrArg Prod.snd h
          simp only at this
          omega
        rw [update_of_ne hne, own_eq hi hl, ptr_of_le hlN, ptr_of_le hlN]
      · rw [ptr_of_lt (by omega) h12, update_self]
        by_cases hlj : l = NDIRECT + 1 + j
        · subst hlj
          rw [update_self, Nat.add_sub_cancel_left, Block.word_setWord_self _ _ hj,
            BitVec.toNat_ofNat, Nat.mod_eq_of_lt hbig]
        · have hne : (i, l) ≠ (i, NDIRECT + 1 + j) := fun h => hlj (congrArg Prod.snd h)
          rw [update_of_ne hne, own_eq hi hl, ptr_of_lt (by omega) h12,
            Block.word_setWord_ne _ _ (by omega)]
    · have hne : (i, l) ≠ (a, NDIRECT + 1 + j) := fun h => hia (congrArg Prod.fst h)
      rw [update_of_ne hne, own_eq hi hl, own_eq hi hl]
      refine ptr_congr l rfl fun h => ?_
      -- the indirect block of another file is another block
      have hx : (D i).addr NDIRECT ≠ (D a).addr NDIRECT := by
        rw [← own_indirect hi] at h
        rw [← own_indirect hi, ← own_indirect ha]
        intro heq
        exact hia (congrArg Prod.fst (him.owns.inj _ _ h heq))
      rw [update_of_ne hx]
      rw [← own_indirect hi] at h ⊢
      exact allocBlock_apply hlt (him.datastart_le h) (him.owns.ne_of_unmarked hb _ h)
  · have hne : (i, l) ≠ (a, NDIRECT + 1 + j) := by
      intro h
      obtain ⟨rfl, rfl⟩ := Prod.mk.injEq .. ▸ h
      exact hF ⟨ha, by simp only [NPTR]; omega⟩
    rw [update_of_ne hne]
    unfold own
    rw [if_neg hF, if_neg hF]

/-- A new pointer in the indirect block. -/
theorem Image.newEntry (ha : a ∈ F) {j b : Nat} (hj : j < NINDIRECT) (h12 : (D a).addr NDIRECT ≠ 0)
    (h0 : ((disk ((D a).addr NDIRECT)).word j).toNat = 0) (hb : bit sb disk b = false)
    (hlt : b < sb.size) :
    let disk' := update (allocBlock sb disk b) ((D a).addr NDIRECT)
        ((disk ((D a).addr NDIRECT)).setWord j (BitVec.ofNat 32 b))
    Image sb disk' F D ∧ Ext sb F a disk disk' D D 1 := by
  have hdata := him.datastart_le_of_unmarked hb
  have hown12 : own disk F D (a, NDIRECT) = _ := own_indirect ha
  have hx : sb.datastart ≤ (D a).addr NDIRECT := by
    rw [← hown12]
    exact him.datastart_le (by rwa [hown12])
  have hkN : NDIRECT + 1 + j ≠ NDIRECT := by omega
  have h := him.alloc (a := a) (k := NDIRECT + 1 + j) hb hlt
    (by rw [own_eq ha (by simp only [NPTR]; omega), ptr_of_lt (by omega) h12,
      Nat.add_sub_cancel_left, h0])
    (fun c hc => by rw [bit_update_data _ hc hx, bit_allocBlock hdata hc])
    (own_newEntry him ha hj h12 hb hlt)
    (fun n hn => by rw [dinode_update_data _ hn hx, dinode_allocBlock hdata hn])
    ⟨_, rfl⟩ (fun _ _ => rfl) ?_
  · rwa [if_neg hkN] at h
  · intro i l hi hl
    have hne : own disk F D (i, l) ≠ (D a).addr NDIRECT := by
      rw [← hown12]
      exact fun heq => hi (congrArg Prod.fst (him.owns.inj _ _ hl heq))
    rw [update_of_ne hne]
    exact allocBlock_apply hlt (him.datastart_le hl) (him.owns.ne_of_unmarked hb _ hl)

end

/-! ## New data -/

omit [DecidableEq I] in
/-- Data written to a block of file `a` changes no pointer. -/
theorem own_newData (him : Image sb disk F D) {k : Nat} (hk : k ≠ NDIRECT) (v : Block) :
    own (update disk (own disk F D (a, k)) v) F D = own disk F D := by
  refine own_congr (fun _ _ => rfl) fun i hi h => update_of_ne ?_ _ _
  rw [← own_indirect hi] at h ⊢
  intro heq
  exact hk (congrArg Prod.snd (him.owns.inj _ _ h heq)).symm

omit [DecidableEq I] in
/-- New data in a block of file `a`. -/
theorem Image.newData (him : Image sb disk F D) {k : Nat} (hk : k ≠ NDIRECT) (v : Block)
    (hown : own disk F D (a, k) ≠ 0) :
    let disk' := update disk (own disk F D (a, k)) v
    Image sb disk' F D ∧ Ext sb F a disk disk' D D 0 := by
  have hsame := own_newData (a := a) him hk v
  have hdata := him.datastart_le hown
  have hbit : ∀ c, c < sb.nbits →
      bit sb (update disk (own disk F D (a, k)) v) c = bit sb disk c :=
    fun c hc => bit_update_data v hc hdata
  have hbit' : ∀ c, c < sb.size →
      bit sb (update disk (own disk F D (a, k)) v) c = bit sb disk c :=
    fun c hc => hbit c (lt_of_lt_of_le hc sb.size_le_nbits)
  refine ⟨⟨him.owns.congr (fun κ => by rw [hsame]) hbit', ?_, ?_⟩,
    ⟨fun n hn => dinode_update_data v hn hdata, ⟨_, rfl⟩, fun _ _ => rfl,
      fun _ _ _ => by rw [hsame], fun _ _ => by rw [hsame], ?_,
      fun hn => hn.congr (fun κ => by rw [hsame]) hbit, ?_⟩⟩
  · intro i hi bn hbn
    rw [hsame]
    exact him.nohole i hi bn hbn
  · intro c hc
    rw [hbit' c (lt_of_lt_of_le hc sb.datastart_le_size)]
    exact him.meta_marked c hc
  · intro i l hi hl
    refine update_of_ne (fun heq => ?_) _ _
    exact hi (congrArg Prod.fst (him.owns.inj _ _ hl heq))
  · have hfree : free sb.size (bit sb (update disk (own disk F D (a, k)) v)) =
        free sb.size (bit sb disk) := by
      unfold free
      congr 1
      apply Finset.filter_congr
      intro c hc
      rw [hbit' c (Finset.mem_range.mp hc)]
    unfold lacksIndirect
    rw [hsame, hfree]
    exact le_rfl

/-! ## New inodes -/

omit [DecidableEq I] in
theorem own_setDinode (him : Image sb disk F D) (hn : n < sb.ninodes) (d : Dinode) :
    own (setDinode sb disk n d) F D = own disk F D := by
  refine own_congr (fun _ _ => rfl) fun i hi h => ?_
  rw [← own_indirect hi] at h ⊢
  exact setDinode_apply_of_datastart_le d hn (him.datastart_le h)

omit [DecidableEq I] in
/-- Storing an inode on the disk changes no file. -/
theorem Image.setDinode (him : Image sb disk F D) (hn : n < sb.ninodes) (d : Dinode) :
    Image sb (setDinode sb disk n d) F D where
  owns := him.owns.congr (fun κ => by rw [own_setDinode him hn]) fun b _ => bit_setDinode d hn b
  nohole i hi bn hbn := by
    rw [own_setDinode him hn]
    exact him.nohole i hi bn hbn
  meta_marked b hb := by
    rw [bit_setDinode d hn]
    exact him.meta_marked b hb

omit [DecidableEq I] in
theorem NoLeak.setDinode (h : NoLeak sb disk F D) (him : Image sb disk F D) (hn : n < sb.ninodes)
    (d : Dinode) : NoLeak sb (setDinode sb disk n d) F D :=
  Exact.congr h (fun κ => by rw [own_setDinode him hn]) fun b _ => bit_setDinode d hn b

omit [DecidableEq I] in
theorem byteAt_setDinode (him : Image sb disk F D) (hn : n < sb.ninodes) (d : Dinode) {i : I}
    (hi : i ∈ F) {pos : Nat} (hpos : pos / BSIZE < MAXFILE)
    (hown : own disk F D (i, slotOf (pos / BSIZE)) ≠ 0) :
    byteAt (Fs.setDinode sb disk n d) (D i) pos = byteAt disk (D i) pos := by
  have hown' := congrFun (own_setDinode him hn d) (i, slotOf (pos / BSIZE))
  rw [own_eq hi (slotOf_lt hpos), own_eq hi (slotOf_lt hpos)] at hown'
  have hdata := him.datastart_le hown
  rw [own_eq hi (slotOf_lt hpos)] at hdata
  unfold byteAt
  rw [hown', setDinode_apply_of_datastart_le d hn hdata]

/-- Other fields than `addrs` can change as long as the size is covered. -/
theorem Image.setFields (him : Image sb disk F D) (haddrs : d.addrs = (D a).addrs)
    (hsize : ∀ bn, bn * BSIZE < d.size.toNat → bn < MAXFILE ∧ own disk F D (a, slotOf bn) ≠ 0) :
    Image sb disk F (update D a d) ∧
    own disk F (update D a d) = own disk F D := by
  have hown : own disk F (update D a d) = own disk F D := by
    refine own_congr (fun i _ => ?_) fun _ _ _ => rfl
    by_cases hi : i = a
    · subst hi; rw [update_self, haddrs]
    · rw [update_of_ne hi]
  refine ⟨⟨?_, ?_, him.meta_marked⟩, hown⟩
  · rw [hown]; exact him.owns
  · intro i hi bn hbn
    rw [hown]
    by_cases hia : i = a
    · subst hia
      rw [update_self] at hbn
      exact hsize bn hbn
    · rw [update_of_ne hia] at hbn
      exact him.nohole i hi bn hbn

end Xv6.Fs
