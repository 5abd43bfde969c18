import Xv6.Mkfs.Main
import Xv6.Fs.Atomic

/-! # What `mkfs` builds, as the kernel sees it

    Between two steps of `mkfs` the free map is still empty. `State.view` is
    the image with the free map that `mkfs` would write at this point: on it,
    taking the next block is what the kernel's `balloc` does, and appending to
    a file keeps the invariant `Image` of the kernel's file system.
-/

namespace Xv6.Mkfs

open BitRange Ownership Fs Function

/-! ## The free map to come -/

theorem bitmap_succ (k : Nat) : bitmap (k + 1) = put (bitmap k) k (BitVec.ofBool true) := by
  unfold bitmap
  rw [List.range_succ, List.foldl_append]
  rfl

theorem getLsbD_bitmap (k : Nat) {i : Nat} (hi : i < 8 * BSIZE) :
    (bitmap k).getLsbD i = decide (i < k) := by
  induction k with
  | zero =>
    rw [decide_eq_false (by omega)]
    exact BitVec.getLsbD_zero
  | succ k ih =>
    rw [bitmap_succ, getLsbD_put _ _ _ _ hi, ih]
    by_cases hik : i = k
    · subst hik
      rw [if_pos (by omega), decide_eq_true (by omega), Nat.sub_self]
      rfl
    · rw [if_neg (by omega), decide_eq_decide]
      omega

/-- The image with the free map of the blocks taken so far. -/
def State.view (s : State) : Disk :=
  update s.disk Superblock.mkfs.bmapstart (bitmap s.freeblock)

variable {s : State} {off : Nat}

theorem view_apply {b : Nat} (hb : b ≠ Superblock.mkfs.bmapstart) : s.view b = s.disk b :=
  update_of_ne hb _ _

theorem bit_view {b : Nat} (hb : b < 8 * BSIZE) : bit .mkfs s.view b = decide (b < s.freeblock) := by
  have hblock : Superblock.mkfs.BBLOCK b = Superblock.mkfs.bmapstart := by
    unfold Superblock.BBLOCK
    rw [Nat.div_eq_of_lt (show b < BPB from hb), Nat.zero_add]
  unfold bit State.view
  rw [hblock, update_self, Nat.mod_eq_of_lt (show b < BPB from hb), getLsbD_bitmap _ hb]

theorem view_wsect {sec : Nat} (h : sec ≠ Superblock.mkfs.bmapstart) (buf : Block) :
    (wsect s sec buf).view = update s.view sec buf :=
  update_comm h _ _ _

theorem iblock_ne {n : Nat} (hn : n < NINODES) :
    Superblock.mkfs.IBLOCK n ≠ Superblock.mkfs.bmapstart :=
  (Superblock.mkfs.IBLOCK_lt (n := n) hn).ne

theorem view_winode {n : Nat} (hn : n < NINODES) (d : Dinode) :
    (winode s n d).view = setDinode .mkfs s.view n d := by
  have hne := iblock_ne hn
  unfold winode setDinode
  rw [view_wsect hne, view_apply hne]
  rfl

theorem rinode_eq {n : Nat} (hn : n < NINODES) : rinode s n = dinode .mkfs s.view n := by
  unfold rinode dinode rsect
  rw [view_apply (iblock_ne hn)]

/-- Taking the next block is what `balloc` of the kernel does. -/
theorem view_takeBlock (hlo : nmeta ≤ s.freeblock) (hhi : s.freeblock < FSSIZE)
    (hzero : s.disk s.freeblock = 0) : (takeBlock s).view = allocBlock .mkfs s.view s.freeblock := by
  have hblock : Superblock.mkfs.BBLOCK s.freeblock = Superblock.mkfs.bmapstart := by
    unfold Superblock.BBLOCK
    rw [Nat.div_eq_of_lt (lt_trans hhi (by decide)), Nat.zero_add]
  have hne : s.freeblock ≠ Superblock.mkfs.bmapstart := (lt_of_lt_of_le (by decide) hlo).ne'
  unfold allocBlock setBit takeBlock
  rw [hblock, Nat.mod_eq_of_lt (lt_trans hhi (by decide))]
  unfold State.view
  dsimp only
  rw [update_self, update_idem, ← bitmap_succ]
  -- the block is zero already
  funext b
  by_cases hb : b = s.freeblock
  · subst hb
    rw [update_self, update_of_ne hne, hzero]
  · rw [update_of_ne hb]

/-! ## Appending -/

/-- The blocks of a file of `size` bytes, its indirect block included. -/
def blocks (size : Nat) : Nat := (size + (BSIZE - 1)) / BSIZE + if NDIRECT * BSIZE < size then 1 else 0

/-- The next byte lies in a block that is there. -/
theorem blocks_inside (h : off / BSIZE * BSIZE < off) : blocks (off + 1) = blocks off := by
  unfold blocks
  simp only [NDIRECT, BSIZE] at *
  split <;> split <;> omega

/-- The next byte needs a new block, but no indirect block. -/
theorem blocks_aligned (h : ¬off / BSIZE * BSIZE < off) (hne : off / BSIZE ≠ NDIRECT) :
    blocks (off + 1) = blocks off + 1 := by
  unfold blocks
  simp only [NDIRECT, BSIZE] at *
  split <;> split <;> omega

theorem blocks_mono {m n : Nat} (h : m ≤ n) : blocks m ≤ blocks n := by
  unfold blocks
  simp only [NDIRECT, BSIZE] at *
  split <;> split <;> omega

/-- A block that is there is filled. -/
theorem blocks_fill {off m : Nat} (h0 : 0 < m) (hm : off % BSIZE + m ≤ BSIZE) :
    blocks (off + m) = blocks (off + 1) := by
  unfold blocks
  simp only [NDIRECT, BSIZE] at *
  split <;> split <;> omega

/-- Exactly the blocks below `off` are there, and the indirect block if one of
    them needs it. -/
structure Covers {I : Type} (disk : Disk) (F : Set I) (D : I → Dinode) (a : I) (off : Nat) : Prop where
  data : ∀ bn, bn < MAXFILE → (own disk F D (a, slotOf bn) ≠ 0 ↔ bn * BSIZE < off)
  ind : own disk F D (a, NDIRECT) ≠ 0 ↔ NDIRECT * BSIZE < off

/-- The blocks from `freeblock` on are free and zero. -/
structure Fresh (s : State) : Prop where
  lo : nmeta ≤ s.freeblock
  zero : ∀ b, s.freeblock ≤ b → s.disk b = 0

theorem Fresh.takeBlock (h : Fresh s) : Fresh (takeBlock s) :=
  ⟨Nat.le_succ_of_le h.lo, fun b hb => h.zero b (Nat.le_of_succ_le hb)⟩

theorem Fresh.wsect (h : Fresh s) {sec : Nat} (hsec : sec < s.freeblock) (buf : Block) :
    Fresh (wsect s sec buf) := by
  refine ⟨h.lo, fun b hb => ?_⟩
  have hne : b ≠ sec := (lt_of_lt_of_le hsec hb).ne'
  exact (update_of_ne hne _ _).trans (h.zero b hb)

theorem unmarked_freeblock (hhi : s.freeblock < FSSIZE) :
    bit .mkfs s.view s.freeblock = false := by
  rw [bit_view (lt_trans hhi (by decide)), decide_eq_false (lt_irrefl _)]

theorem Fresh.view_takeBlock (h : Fresh s) (hhi : s.freeblock < FSSIZE) :
    (Mkfs.takeBlock s).view = allocBlock .mkfs s.view s.freeblock :=
  Mkfs.view_takeBlock h.lo hhi (h.zero _ le_rfl)

variable {I : Type} {F : Set I} {D : I → Dinode} {a : I} {κ : I × Nat}

/-- The blocks in use lie below `freeblock`. -/
theorem lt_freeblock (him : Image .mkfs s.view F D) (hκ : own s.view F D κ ≠ 0) :
    own s.view F D κ < s.freeblock := by
  obtain ⟨-, hlt⟩ := him.owns.range κ hκ
  have hmark := him.owns.marked κ hκ
  rw [bit_view (lt_trans hlt (by decide))] at hmark
  exact of_decide_eq_true hmark

theorem ne_bmapstart (him : Image .mkfs s.view F D) (hκ : own s.view F D κ ≠ 0) :
    own s.view F D κ ≠ Superblock.mkfs.bmapstart :=
  (lt_of_lt_of_le Superblock.mkfs.bmapstart_lt_datastart (him.datastart_le hκ)).ne'

variable [DecidableEq I]

/-- `iappend` has found the sector `x` of block `off / BSIZE`. -/
structure Sector (F : Set I) (a : I) (off : Nat) (s : State) (D : I → Dinode) (x : Nat) (s' : State)
    (D' : I → Dinode) : Prop where
  mapped : Mapped .mkfs F a (off / BSIZE) s.view s'.view D D' x
  freeinode : s'.freeinode = s.freeinode
  freeblock : s'.freeblock + blocks off = s.freeblock + blocks (off + 1)
  fresh : Fresh s'
  own_iff : ∀ k, own s'.view F D' (a, k) ≠ 0 ↔
    own s.view F D (a, k) ≠ 0 ∨ k = slotOf (off / BSIZE) ∨ k = NDIRECT ∧ NDIRECT ≤ off / BSIZE

omit [DecidableEq I] in
/-- A sector that is there already. -/
theorem Sector.found {off x : Nat} (him : Image .mkfs s.view F D) (hf : Fresh s)
    (hcov : Covers s.view F D a off) (hbn : off / BSIZE < MAXFILE)
    (hown : own s.view F D (a, slotOf (off / BSIZE)) = x) (hx : x ≠ 0) :
    Sector F a off s D x s D := by
  have hlt := (hcov.data _ hbn).mp (by rw [hown]; exact hx)
  refine ⟨.found him hown hx, rfl, ?_, hf, fun k => ?_⟩
  · rw [blocks_inside hlt]
  · constructor
    · exact Or.inl
    · rintro (h | rfl | ⟨rfl, hge⟩)
      · exact h
      · rw [hown]
        exact hx
      · exact hcov.ind.mpr (lt_of_le_of_lt (Nat.mul_le_mul_right BSIZE hge) hlt)

/-- A new block that is entered in `addrs`. -/
theorem Sector.newPtr (him : Image .mkfs s.view F D) (ha : a ∈ F) (hf : Fresh s)
    (hhi : s.freeblock < FSSIZE) (hcov : Covers s.view F D a off) (hbn : off / BSIZE < NDIRECT)
    (h0 : (D a).addr (off / BSIZE) = 0) :
    Sector F a off s D s.freeblock (takeBlock s)
      (update D a ((D a).setAddr (off / BSIZE) s.freeblock)) := by
  have hb := unmarked_freeblock hhi
  have hslot : slotOf (off / BSIZE) = off / BSIZE := if_pos hbn
  have hown : own s.view F D (a, slotOf (off / BSIZE)) = 0 := by
    rw [hslot, own_eq ha (by simp only [NPTR]; omega), ptr_of_le hbn.le, h0]
  have haligned : ¬off / BSIZE * BSIZE < off := by
    rw [← hcov.data _ (lt_trans hbn (by decide)), hown]
    simp
  have hmap := Mapped.newPtr him ha hbn h0 hb hhi
  refine ⟨?_, rfl, ?_, hf.takeBlock, fun k => ?_⟩
  · rw [hf.view_takeBlock hhi]
    exact hmap
  · rw [blocks_aligned haligned hbn.ne]
    exact Nat.add_right_comm _ _ _
  · rw [hf.view_takeBlock hhi, own_newPtr him ha hbn.le h0 hb hhi, hslot]
    by_cases hk : k = off / BSIZE
    · rw [hk, update_self]
      simp only [true_or, or_true, iff_true]
      exact hmap.ne_zero
    · have hne : (a, k) ≠ (a, off / BSIZE) := fun h => hk (congrArg Prod.snd h)
      rw [update_of_ne hne]
      simp only [hk, false_or]
      constructor
      · exact Or.inl
      · rintro (h | ⟨-, hge⟩)
        · exact h
        · omega

/-- A new block that is entered in the indirect block. -/
theorem Sector.newEntry (him : Image .mkfs s.view F D) (ha : a ∈ F) (hf : Fresh s)
    (hhi : s.freeblock < FSSIZE) (hge : NDIRECT ≤ off / BSIZE) (hbn : off / BSIZE < MAXFILE)
    (h12 : (D a).addr NDIRECT ≠ 0)
    (h0 : ((s.disk ((D a).addr NDIRECT)).word (off / BSIZE - NDIRECT)).toNat = 0) :
    let s' := wsect (takeBlock s) ((D a).addr NDIRECT)
      ((s.disk ((D a).addr NDIRECT)).setWord (off / BSIZE - NDIRECT) (BitVec.ofNat 32 s.freeblock))
    Mapped .mkfs F a (off / BSIZE) s.view s'.view D D s.freeblock ∧ Fresh s' ∧
      own s'.view F D = update (own s.view F D) (a, slotOf (off / BSIZE)) s.freeblock := by
  intro s'
  have hb := unmarked_freeblock hhi
  have hj : off / BSIZE - NDIRECT < NINDIRECT := by
    simp only [MAXFILE] at hbn
    omega
  have hbn' : NDIRECT + (off / BSIZE - NDIRECT) = off / BSIZE := by omega
  have hown : own s.view F D (a, NDIRECT) = (D a).addr NDIRECT := own_indirect ha
  have hκ : own s.view F D (a, NDIRECT) ≠ 0 := by rwa [hown]
  have hmeta := ne_bmapstart him hκ
  have hlt := lt_freeblock him hκ
  rw [hown] at hmeta hlt
  have hview : s'.view = update (allocBlock .mkfs s.view s.freeblock) ((D a).addr NDIRECT)
      ((s.view ((D a).addr NDIRECT)).setWord (off / BSIZE - NDIRECT) (BitVec.ofNat 32 s.freeblock)) := by
    show (wsect (takeBlock s) _ _).view = _
    rw [view_wsect hmeta, hf.view_takeBlock hhi, view_apply hmeta]
  rw [← view_apply hmeta] at h0
  have hmap := Mapped.newEntry him ha hj h12 h0 hb hhi
  have hslots := own_newEntry him ha hj h12 hb hhi
  rw [hbn', ← hview] at hmap
  rw [← hview, ← slotOf_indirect, hbn'] at hslots
  exact ⟨hmap, hf.takeBlock.wsect (Nat.lt_succ_of_lt hlt) _, hslots⟩

/-- `iappend` finds the sector, or takes a new one. -/
theorem iappend_sector_spec (him : Image .mkfs s.view F D) (ha : a ∈ F) (hf : Fresh s)
    (hcov : Covers s.view F D a off) (hbn : off / BSIZE < MAXFILE)
    (hroom : s.freeblock + blocks (off + 1) ≤ FSSIZE + blocks off) :
    ∃ x s' D', iappend_sector s (D a) (off / BSIZE) = (x, s', D' a) ∧ Sector F a off s D x s' D' := by
  have hbig : s.freeblock < FSSIZE → s.freeblock < 2 ^ 32 := fun h => lt_trans h (by decide)
  unfold iappend_sector
  by_cases hd : off / BSIZE < NDIRECT
  · have hslot : slotOf (off / BSIZE) = off / BSIZE := if_pos hd
    have hown : own s.view F D (a, slotOf (off / BSIZE)) = (D a).addr (off / BSIZE) := by
      rw [hslot, own_eq ha (by simp only [NPTR]; omega), ptr_of_le hd.le]
    have hiff := hcov.data _ hbn
    rw [hown] at hiff
    rw [if_pos hd]
    by_cases h0 : (D a).addr (off / BSIZE) = 0
    · have hnew := blocks_aligned (fun h => hiff.mpr h h0) hd.ne
      have hhi : s.freeblock < FSSIZE := by omega
      rw [if_pos h0]
      refine ⟨_, _, _, ?_, Sector.newPtr him ha hf hhi hcov hd h0⟩
      dsimp only
      rw [update_self, Dinode.addr_setAddr_self _ hd.le (hbig hhi)]
    · rw [if_neg h0]
      exact ⟨_, _, D, rfl, .found him hf hcov hbn hown h0⟩
  · rw [if_neg hd]
    have hge : NDIRECT ≤ off / BSIZE := not_lt.mp hd
    have hj : off / BSIZE - NDIRECT < NINDIRECT := by
      simp only [MAXFILE] at hbn
      omega
    have hslot : slotOf (off / BSIZE) = off / BSIZE + 1 := if_neg hd
    have hind : own s.view F D (a, NDIRECT) = (D a).addr NDIRECT := own_indirect ha
    have hiff := hcov.data _ hbn
    by_cases h12 : (D a).addr NDIRECT = 0
    · -- the first block beyond the direct ones: the indirect block comes first
      have hoff : off = NDIRECT * BSIZE := by
        have hle : ¬NDIRECT * BSIZE < off := by
          rw [← hcov.ind, hind, h12]
          simp
        have := Nat.mul_le_mul_right BSIZE hge
        have := Nat.div_mul_le_self off BSIZE
        omega
      have hnew : blocks (off + 1) = blocks off + 2 := by rw [hoff]; decide
      have hhi : s.freeblock < FSSIZE := by omega
      have hb := unmarked_freeblock hhi
      rw [if_pos h12]
      dsimp only
      obtain ⟨him₁, hext₁⟩ := him.newPtr ha (le_refl NDIRECT) h12 hb hhi
      rw [if_pos rfl] at hext₁
      have hslots₁ := own_newPtr him ha (le_refl NDIRECT) h12 hb hhi
      rw [← hf.view_takeBlock hhi] at him₁ hext₁ hslots₁
      generalize hD₁ : update D a ((D a).setAddr NDIRECT s.freeblock) = D₁ at him₁ hext₁ hslots₁
      have hself : D₁ a = (D a).setAddr NDIRECT s.freeblock := by rw [← hD₁, update_self]
      have haddr : (D₁ a).addr NDIRECT = s.freeblock := by
        rw [hself, Dinode.addr_setAddr_self _ le_rfl (hbig hhi)]
      have hf₁ := hf.takeBlock
      have hword : (((takeBlock s).disk ((D₁ a).addr NDIRECT)).word (off / BSIZE - NDIRECT)).toNat = 0 := by
        rw [haddr]
        show ((s.disk s.freeblock).word _).toNat = 0
        rw [hf.zero _ le_rfl, Block.word_zero]
        rfl
      have hhi₁ : (takeBlock s).freeblock < FSSIZE := show s.freeblock + 1 < FSSIZE by omega
      have hne₁ : (D₁ a).addr NDIRECT ≠ 0 := by
        rw [haddr]
        exact (lt_of_lt_of_le (by decide) hf.lo).ne'
      obtain ⟨hmap, hf₂, hslots₂⟩ := Sector.newEntry him₁ ha hf₁ hhi₁ hge hbn hne₁ hword
      rw [← hself]
      unfold rsect
      rw [if_pos hword]
      refine ⟨_, _, D₁, ?_, ⟨hmap.after hext₁ ?_ fun k hk => ?_, rfl, ?_, hf₂, fun k => ?_⟩⟩
      · rw [Block.word_setWord_self _ _ hj, BitVec.toNat_ofNat,
          Nat.mod_eq_of_lt (lt_trans hhi₁ (by decide))]
      · rw [own_eq ha (slotOf_lt hbn), hslot]
        exact ptr_eq_zero (by omega) h12
      · rw [hf.view_takeBlock hhi]
        exact him.allocBlock_own hb hhi _ hk
      · show s.freeblock + 1 + 1 + _ = _
        omega
      · rw [hslots₂, hslots₁]
        by_cases hk : k = slotOf (off / BSIZE)
        · rw [hk, update_self]
          simp only [true_or, or_true, iff_true]
          exact hmap.ne_zero
        · have hpair : (a, k) ≠ (a, slotOf (off / BSIZE)) := fun h => hk (congrArg Prod.snd h)
          rw [update_of_ne hpair]
          by_cases hk' : k = NDIRECT
          · rw [hk', update_self]
            simp only [hge, and_self, or_true, iff_true]
            exact (lt_of_lt_of_le (by decide) hf.lo).ne'
          · have hpair' : (a, k) ≠ (a, NDIRECT) := fun h => hk' (congrArg Prod.snd h)
            rw [update_of_ne hpair']
            simp only [hk, hk', false_and, or_false]
    · rw [if_neg h12]
      dsimp only
      have hκ : own s.view F D (a, NDIRECT) ≠ 0 := by rwa [hind]
      have hmeta := ne_bmapstart him hκ
      rw [hind] at hmeta
      have hown : own s.view F D (a, slotOf (off / BSIZE)) =
          ((s.disk ((D a).addr NDIRECT)).word (off / BSIZE - NDIRECT)).toNat := by
        rw [own_eq ha (slotOf_lt hbn), hslot, ptr_of_lt (by omega) h12, view_apply hmeta,
          Nat.add_sub_add_right]
      unfold rsect
      by_cases h0 : ((s.disk ((D a).addr NDIRECT)).word (off / BSIZE - NDIRECT)).toNat = 0
      · rw [hown] at hiff
        have hnew := blocks_aligned (fun h => hiff.mpr h h0) fun heq => ?_
        · have hhi : s.freeblock < FSSIZE := by omega
          obtain ⟨hmap, hf', hslots⟩ := Sector.newEntry him ha hf hhi hge hbn h12 h0
          rw [if_pos h0]
          refine ⟨_, _, D, ?_, ⟨hmap, rfl, ?_, hf', fun k => ?_⟩⟩
          · rw [Block.word_setWord_self _ _ hj, BitVec.toNat_ofNat, Nat.mod_eq_of_lt (hbig hhi)]
          · show s.freeblock + 1 + _ = _
            omega
          · rw [hslots]
            by_cases hk : k = slotOf (off / BSIZE)
            · rw [hk, update_self]
              simp only [true_or, or_true, iff_true]
              exact hmap.ne_zero
            · have hpair : (a, k) ≠ (a, slotOf (off / BSIZE)) := fun h => hk (congrArg Prod.snd h)
              rw [update_of_ne hpair]
              simp only [hk, false_or]
              constructor
              · exact Or.inl
              · rintro (h | ⟨rfl, -⟩)
                · exact h
                · exact hκ
        · -- the first indirect block is there together with the table
          have hlt := hcov.ind.mp hκ
          rw [← heq] at hlt
          exact hiff.mpr hlt h0
      · rw [if_neg h0]
        exact ⟨_, _, D, rfl, .found him hf hcov hbn hown h0⟩

/-- The loop of `iappend` has stored `n` bytes from position `off` on. -/
structure Appended (F : Set I) (a : I) (src : Nat → Byte) (off n : Nat) (s : State) (D : I → Dinode)
    (s' : State) (D' : I → Dinode) : Prop where
  written : Written .mkfs F a src off n s.view s'.view D D' (span off n)
  freeinode : s'.freeinode = s.freeinode
  freeblock : s'.freeblock + blocks off = s.freeblock + blocks (off + n)
  fresh : Fresh s'
  covers : Covers s'.view F D' a (off + n)

omit [DecidableEq I] in
theorem Covers.alloc {disk : Disk} (h : Covers disk F D a off) (hmax : off ≤ MAXFILE * BSIZE)
    (bn : Nat) (hbn : bn * BSIZE < off) : own disk F D (a, slotOf bn) ≠ 0 :=
  (h.data bn (Nat.lt_of_mul_lt_mul_right (lt_of_lt_of_le hbn hmax))).mpr hbn

omit [DecidableEq I] in
/-- One turn of the loop. -/
theorem Sector.appended {off m x : Nat} (src : Nat → Byte) {s' : State} {D' : I → Dinode} (ha : a ∈ F)
    (hcov : Covers s.view F D a off) (h : Sector F a off s D x s' D') (h0 : 0 < m)
    (hm : off % BSIZE + m ≤ BSIZE) (hmax : off ≤ MAXFILE * BSIZE) :
    Appended F a src off m s D (wsect s' x ((rsect s' x).setBytes (off % BSIZE) src m)) D' := by
  have hκ : own s'.view F D' (a, slotOf (off / BSIZE)) ≠ 0 := by
    rw [h.mapped.own_eq]
    exact h.mapped.ne_zero
  have hmeta := ne_bmapstart h.mapped.image hκ
  have hlt := lt_freeblock h.mapped.image hκ
  rw [h.mapped.own_eq] at hmeta hlt
  have hview : (wsect s' x ((rsect s' x).setBytes (off % BSIZE) src m)).view =
      update s'.view x ((s'.view x).setBytes (off % BSIZE) src m) := by
    rw [view_wsect hmeta, view_apply hmeta]
    rfl
  have hsame : own (update s'.view x ((s'.view x).setBytes (off % BSIZE) src m)) F D' =
      own s'.view F D' := by
    have := own_newData (a := a) h.mapped.image (slotOf_ne (off / BSIZE))
      ((s'.view x).setBytes (off % BSIZE) src m)
    rwa [h.mapped.own_eq] at this
  have hspan : span off m = 1 := by
    unfold span
    rw [if_neg h0.ne']
    simp only [BSIZE] at *
    omega
  refine ⟨?_, h.freeinode, ?_, h.fresh.wsect hlt _, ?_⟩
  · rw [hview, hspan]
    exact .block ha h0 hm (hcov.alloc hmax) h.mapped
  · rw [blocks_fill h0 hm]
    exact h.freeblock
  · rw [hview]
    refine ⟨fun bn hbn => ?_, ?_⟩
    · rw [hsame, h.own_iff, hcov.data bn hbn]
      have hslot : slotOf bn = slotOf (off / BSIZE) ↔ bn = off / BSIZE :=
        ⟨slotOf_inj, congrArg slotOf⟩
      simp only [hslot, slotOf_ne bn, false_and, or_false]
      simp only [BSIZE] at *
      omega
    · rw [hsame, h.own_iff, hcov.ind]
      have hslot : NDIRECT ≠ slotOf (off / BSIZE) := (slotOf_ne _).symm
      simp only [hslot, true_and, false_or]
      simp only [NDIRECT, BSIZE] at *
      omega

/-- The loop of `iappend` stores all bytes. -/
theorem iappend_loop_spec {fuel off : Nat} {p : List Byte} (hfuel : p.length ≤ fuel)
    (him : Image .mkfs s.view F D) (ha : a ∈ F) (hf : Fresh s) (hcov : Covers s.view F D a off)
    (hmax : off + p.length ≤ MAXFILE * BSIZE)
    (hroom : s.freeblock + blocks (off + p.length) ≤ FSSIZE + blocks off) :
    ∃ s' D', iappend_loop fuel s (D a) off p = some (s', D' a, off + p.length) ∧
      Appended F a (fun i => p.getD i 0) off p.length s D s' D' := by
  induction fuel generalizing s D off p with
  | zero =>
    have hnil : p.length = 0 := by omega
    rw [hnil]
    exact ⟨s, D, rfl, ⟨.nil him (hcov.alloc (by omega)), rfl, rfl, hf, hcov⟩⟩
  | succ fuel ih =>
    unfold iappend_loop
    by_cases hp : 0 < p.length
    · have hbn : off / BSIZE < MAXFILE := Nat.div_lt_of_lt_mul (by rw [Nat.mul_comm]; omega)
      have hmod : off % BSIZE < BSIZE := Nat.mod_lt _ (by decide)
      rw [if_pos hp]
      dsimp only
      rw [if_pos hbn]
      have hone := blocks_mono (show off + 1 ≤ off + p.length by omega)
      obtain ⟨x, s₁, D₁, hsec, hs₁⟩ := iappend_sector_spec him ha hf hcov hbn (by omega)
      rw [hsec]
      dsimp only
      have hdiv := Nat.div_add_mod off BSIZE
      rw [Nat.mul_comm] at hdiv
      have hstart : off - off / BSIZE * BSIZE = off % BSIZE := by omega
      have hlen : (off / BSIZE + 1) * BSIZE - off = BSIZE - off % BSIZE := by
        rw [Nat.succ_mul]
        omega
      rw [hstart, hlen]
      generalize hm : min p.length (BSIZE - off % BSIZE) = m
      have happ := Sector.appended (fun i => p.getD i 0) (m := m) ha hcov hs₁ (by omega) (by omega)
        (by omega)
      have hsize : (p.drop m).length = p.length - m := List.length_drop
      have hend : off + m + (p.length - m) = off + p.length := by omega
      have hblocks := happ.freeblock
      obtain ⟨s₂, D₂, hloop, happ₂⟩ := ih (p := p.drop m) (by omega) happ.written.image
        happ.fresh happ.covers (by omega) (by rw [hsize, hend]; omega)
      have hblocks₂ := happ₂.freeblock
      have hsrc : (fun i => (p.drop m).getD i 0) = fun i => p.getD (m + i) 0 := by
        funext i
        simp [List.getD_eq_getElem?_getD]
      have hspan := span_step hp hm
      rw [hsize, hend] at hloop hblocks₂
      refine ⟨s₂, D₂, hloop, ?_⟩
      have hw₂ := happ₂.written
      have hc₂ := happ₂.covers
      rw [hsrc, hsize] at hw₂
      rw [hsize, hend] at hc₂
      refine ⟨?_, happ₂.freeinode.trans happ.freeinode, by omega, happ₂.fresh, hc₂⟩
      have htrans := happ.written.trans hw₂
      have hone' : span off m = 1 := by
        unfold span
        rw [if_neg (by omega)]
        simp only [BSIZE] at *
        omega
      rw [hone', ← hspan, show m + (p.length - m) = p.length by omega] at htrans
      exact htrans
    · rw [if_neg hp]
      have hnil : p.length = 0 := by omega
      rw [hnil]
      exact ⟨s, D, rfl, ⟨.nil him (hcov.alloc (by omega)), rfl, rfl, hf, hcov⟩⟩

/-! ## The invariant -/

/-- The part of the image that is built so far is in order: each file has the
    blocks it needs and no others. -/
structure Built (s : State) : Prop where
  vol : Volume .mkfs s.view
  fresh : Fresh s
  covers : ∀ n ∈ inodes .mkfs s.view, Covers s.view (inodes .mkfs s.view) (dinode .mkfs s.view) n
    (data .mkfs s.view n).length
  unused : ∀ n, s.freeinode ≤ n → n < NINODES → dinode .mkfs s.view n = .zero

/-- `iappend` has appended `p` to file `n`. -/
structure Extends (n : Nat) (p : List Byte) (s s' : State) : Prop where
  built : Built s'
  freeinode : s'.freeinode = s.freeinode
  freeblock : s'.freeblock + blocks (data .mkfs s.view n).length =
    s.freeblock + blocks ((data .mkfs s.view n).length + p.length)
  others : ∀ m, m < NINODES → m ≠ n → dinode .mkfs s'.view m = dinode .mkfs s.view m
  type_eq : (dinode .mkfs s'.view n).type = (dinode .mkfs s.view n).type
  data_eq : data .mkfs s'.view n = data .mkfs s.view n ++ p
  data_others : ∀ m ∈ inodes .mkfs s.view, m ≠ n → data .mkfs s'.view m = data .mkfs s.view m

theorem Extends.inodes_iff {n : Nat} {p : List Byte} {s s' : State} (h : Extends n p s s') (m : Nat) :
    m ∈ inodes .mkfs s'.view ↔ m ∈ inodes .mkfs s.view := by
  by_cases hm : m = n
  · subst hm
    unfold inodes
    rw [Set.mem_ofPred, Set.mem_ofPred, h.type_eq]
  · exact mem_inodes_iff h.others hm

theorem Extends.trans {n : Nat} {p q : List Byte} {s s' s'' : State} (h : Extends n p s s')
    (h' : Extends n q s' s'') : Extends n (p ++ q) s s'' where
  built := h'.built
  freeinode := h'.freeinode.trans h.freeinode
  freeblock := by
    have h1 := h.freeblock
    have h2 := h'.freeblock
    rw [h.data_eq, List.length_append] at h2
    rw [List.length_append, ← Nat.add_assoc]
    omega
  others m hm hne := (h'.others m hm hne).trans (h.others m hm hne)
  type_eq := h'.type_eq.trans h.type_eq
  data_eq := by rw [h'.data_eq, h.data_eq, List.append_assoc]
  data_others m hm hne := by
    rw [h'.data_others m ((h.inodes_iff m).mpr hm) hne, h.data_others m hm hne]

theorem Fresh.winode {s : State} (h : Fresh s) {n : Nat} (hn : n < NINODES) (d : Dinode) :
    Fresh (winode s n d) := by
  have hlt := Superblock.mkfs.IBLOCK_lt (n := n) hn
  exact h.wsect (lt_of_lt_of_le (lt_trans hlt (by decide)) h.lo) _

/-- All bytes of `p`, by their positions. -/
theorem map_getD_range (p : List Byte) : (List.range p.length).map (fun i => p.getD i 0) = p := by
  apply List.ext_getElem
  · simp
  · intro i h1 h2
    simp [List.getD_eq_getElem?_getD, h2]

theorem splice_append (l p : List Byte) : splice l l.length p = l ++ p := by
  unfold splice
  rw [List.take_length, List.drop_of_length_le (Nat.le_add_right _ _), List.append_nil]

theorem Covers.congr {disk disk' : Disk} {F F' : Set Nat} {D D' : Nat → Dinode} {n off off' : Nat}
    (h : Covers disk F D n off) (hown : ∀ k, own disk' F' D' (n, k) = own disk F D (n, k))
    (hoff : off' = off) : Covers disk' F' D' n off' := by
  subst hoff
  exact ⟨fun bn hbn => by rw [hown]; exact h.data bn hbn, by rw [hown]; exact h.ind⟩

/-- Nothing to append. -/
theorem Built.iappend_nil {s : State} (h : Built s) {n : Nat} (hn : n < NINODES) :
    ∃ s', Mkfs.iappend s n [] = some s' ∧ Extends n [] s s' := by
  have hself : ({ dinode .mkfs s.view n with
      size := BitVec.ofNat 32 (dinode .mkfs s.view n).size.toNat } : Dinode) = dinode .mkfs s.view n := by
    rw [BitVec.ofNat_toNat, BitVec.setWidth_eq]
  have hrun : Mkfs.iappend s n [] = some (winode s n (dinode .mkfs s.view n)) := by
    unfold Mkfs.iappend
    rw [rinode_eq hn]
    show some (winode s n _) = _
    rw [hself]
  have hview : (winode s n (dinode .mkfs s.view n)).view = s.view := by
    rw [view_winode hn, setDinode_dinode]
  refine ⟨_, hrun, ?_⟩
  constructor
  · refine ⟨?_, h.fresh.winode hn _, ?_, ?_⟩
    · rw [hview]
      exact h.vol
    · rw [hview]
      exact h.covers
    · rw [hview]
      exact h.unused
  · rfl
  · rfl
  · intro m _ _
    rw [hview]
  · rw [hview]
  · rw [hview, List.append_nil]
  · intro m _ _
    rw [hview]

theorem Built.iappend {s : State} (h : Built s) {n : Nat} (hn : n ∈ inodes .mkfs s.view) {p : List Byte}
    (hmax : (data .mkfs s.view n).length + p.length ≤ MAXFILE * BSIZE)
    (hroom : s.freeblock + blocks ((data .mkfs s.view n).length + p.length) ≤
      FSSIZE + blocks (data .mkfs s.view n).length)
    (hnames : (dinode .mkfs s.view n).type = T_DIR → NamesBelow NINODES (data .mkfs s.view n ++ p)) :
    ∃ s', Mkfs.iappend s n p = some s' ∧ Extends n p s s' := by
  by_cases hp : p = []
  · subst hp
    exact h.iappend_nil hn.1
  have hlen := length_data .mkfs s.view n
  obtain ⟨s₁, D₁, hloop, happ⟩ :=
    iappend_loop_spec le_rfl h.vol.image hn h.fresh (h.covers n hn) hmax hroom
  have hpos : 0 < p.length := List.length_pos_iff.mpr hp
  have hw := Wrote.of_grown happ.written h.vol.image hn hlen.le hmax (by omega) hn.1
  dsimp only at hw
  generalize hd : ({ D₁ n with
    size := BitVec.ofNat 32 ((data .mkfs s.view n).length + p.length) } : Dinode) = d at hw
  have hrun : Mkfs.iappend s n p = some (winode s₁ n d) := by
    unfold Mkfs.iappend
    rw [rinode_eq hn.1]
    dsimp only
    rw [← hlen, hloop, ← hd]
    rfl
  have hsize : d.size.toNat = (data .mkfs s.view n).length + p.length := by
    rw [← hd]
    show (BitVec.ofNat 32 _).toNat = _
    rw [BitVec.toNat_ofNat, Nat.mod_eq_of_lt (lt_of_le_of_lt hmax (by decide))]
  -- the pointers are those the loop has left
  obtain ⟨him₁, hown₁⟩ := happ.written.image.setFields (a := n) (d := d) (by rw [← hd]) fun bn hbn => by
    have hlt : bn * BSIZE < (data .mkfs s.view n).length + p.length := by rwa [hsize] at hbn
    exact ⟨Nat.lt_of_mul_lt_mul_right (lt_of_lt_of_le hlt hmax), happ.written.alloc bn hlt⟩
  have hslots : own (setDinode .mkfs s₁.view n d) (inodes .mkfs s.view) (update D₁ n d) =
      own s₁.view (inodes .mkfs s.view) D₁ := by
    rw [own_setDinode him₁ hn.1, hown₁]
  have hview : (winode s₁ n d).view = setDinode .mkfs s₁.view n d := view_winode hn.1 d
  rw [← hview] at hw hslots
  obtain ⟨htouch, hself, ⟨addrs, size, hfields⟩, hdata, -⟩ := h.vol.write hn hw fun ht => by
    rw [map_getD_range, splice_append]
    exact hnames ht
  rw [map_getD_range, splice_append] at hdata
  have hF := hw.inodes_eq hn
  have hslots' : own (winode s₁ n d).view (inodes .mkfs (winode s₁ n d).view)
      (dinode .mkfs (winode s₁ n d).view) = own s₁.view (inodes .mkfs s.view) D₁ := by
    rw [hF, own_congr_on fun m hm => hw.dinode_eq hm, hslots]
  refine ⟨_, hrun, ?_⟩
  constructor
  · refine ⟨htouch.volume, happ.fresh.winode hn.1 d, fun m hm => ?_, fun m hm hlt => ?_⟩
    · by_cases hmn : m = n
      · subst hmn
        exact happ.covers.congr (fun k => congrFun hslots' _) (by rw [hdata, List.length_append])
      · rw [hF] at hm
        refine (h.covers m hm).congr (fun k => ?_) (by rw [htouch.data m hm hmn])
        exact htouch.slots m k hmn
    · have hmn : m ≠ n := by
        rintro rfl
        have hfree : s₁.freeinode ≤ m := hm
        rw [happ.freeinode] at hfree
        exact hn.2 (by rw [h.unused m hfree hlt]; rfl)
      rw [htouch.dinode m hlt hmn]
      exact h.unused m (by rw [← happ.freeinode]; exact hm) hlt
  · exact happ.freeinode
  · exact happ.freeblock
  · exact htouch.dinode
  · rw [hself, hfields]
  · exact hdata
  · exact htouch.data

/-- All chunks of a file. -/
theorem Built.appendChunks {s : State} (h : Built s) {n : Nat} (hn : n ∈ inodes .mkfs s.view)
    (htype : (dinode .mkfs s.view n).type ≠ T_DIR) (chunks : List (List Byte))
    (hmax : (data .mkfs s.view n).length + chunks.flatten.length ≤ MAXFILE * BSIZE)
    (hroom : s.freeblock + blocks ((data .mkfs s.view n).length + chunks.flatten.length) ≤
      FSSIZE + blocks (data .mkfs s.view n).length) :
    ∃ s', chunks.foldlM (fun s buf => Mkfs.iappend s n buf) s = some s' ∧
      Extends n chunks.flatten s s' := by
  induction chunks generalizing s with
  | nil =>
    refine ⟨s, rfl, ⟨h, rfl, rfl, fun _ _ _ => rfl, rfl, ?_, fun _ _ _ => rfl⟩⟩
    simp
  | cons p chunks ih =>
    rw [List.flatten_cons, List.length_append] at hmax hroom
    have hle := blocks_mono (show (data .mkfs s.view n).length + p.length ≤
      (data .mkfs s.view n).length + (p.length + chunks.flatten.length) by omega)
    obtain ⟨s₁, hrun, hext⟩ := h.iappend hn (p := p) (by omega) (by omega) fun ht => absurd ht htype
    have hlen : (data .mkfs s₁.view n).length = (data .mkfs s.view n).length + p.length := by
      rw [hext.data_eq, List.length_append]
    have hblocks := hext.freeblock
    have htotal : (data .mkfs s₁.view n).length + chunks.flatten.length =
        (data .mkfs s.view n).length + (p.length + chunks.flatten.length) := by omega
    obtain ⟨s₂, hrun₂, hext₂⟩ := ih hext.built ((hext.inodes_iff n).mpr hn)
      (by rw [hext.type_eq]; exact htype) (by omega) (by rw [htotal, hlen]; omega)
    refine ⟨s₂, ?_, hext.trans hext₂⟩
    rw [List.foldlM_cons, hrun]
    exact hrun₂

/-- The inode that `ialloc` writes. -/
def newInode (type : BitVec 16) : Dinode := { blank type with nlink := 1 }

/-- `ialloc` took the next inode. -/
theorem Built.ialloc {s : State} (h : Built s) {t : BitVec 16} (ht : t ≠ 0)
    (hlt : s.freeinode < NINODES) :
    let s' := (Mkfs.ialloc s t).2
    Built s' ∧ s'.freeinode = s.freeinode + 1 ∧ s'.freeblock = s.freeblock ∧
      dinode .mkfs s'.view s.freeinode = newInode t ∧ data .mkfs s'.view s.freeinode = [] ∧
      (∀ m, m < NINODES → m ≠ s.freeinode → dinode .mkfs s'.view m = dinode .mkfs s.view m) ∧
      ∀ m ∈ inodes .mkfs s.view, m ≠ s.freeinode → data .mkfs s'.view m = data .mkfs s.view m := by
  intro s'
  have hview : s'.view = setDinode .mkfs s.view s.freeinode (newInode t) :=
    view_winode (s := { s with freeinode := s.freeinode + 1 }) hlt _
  have hfree : (dinode .mkfs s.view s.freeinode).type = 0 := by
    rw [h.unused _ le_rfl hlt]
    rfl
  obtain ⟨htouch, hdata⟩ := h.vol.ialloc (t := t) hlt hfree ht
  have hblank : dinode .mkfs (setDinode .mkfs s.view s.freeinode (blank t)) s.freeinode = blank t :=
    dinode_setDinode_self _ _
  obtain ⟨htouch', hdata', -⟩ := htouch.volume.setFields (d := newInode t) (n := s.freeinode)
    ⟨hlt, by rw [hblank]; exact ht⟩ (by rw [hblank]; rfl) (by rw [hblank]; rfl) (by rw [hblank]; rfl)
  rw [setDinode_setDinode, ← hview] at htouch' hdata'
  have hself : dinode .mkfs s'.view s.freeinode = newInode t := by rw [hview, dinode_setDinode_self]
  have hothers : ∀ m, m < NINODES → m ≠ s.freeinode → dinode .mkfs s'.view m = dinode .mkfs s.view m :=
    fun m _ hm => by rw [hview, dinode_setDinode_ne _ hm]
  have hmem : ∀ m, m ≠ s.freeinode → (m ∈ inodes .mkfs s'.view ↔ m ∈ inodes .mkfs s.view) :=
    fun m hm => mem_inodes_iff hothers hm
  have hdata₀ : data .mkfs s'.view s.freeinode = [] := hdata'.trans hdata
  have hothers' : ∀ m ∈ inodes .mkfs s.view, m ≠ s.freeinode →
      data .mkfs s'.view m = data .mkfs s.view m := by
    intro m hm hne
    rw [htouch'.data m ((mem_inodes_iff htouch.dinode hne).mpr hm) hne, htouch.data m hm hne]
  refine ⟨⟨htouch'.volume, ?_, fun m hm => ?_, fun m hm hmlt => ?_⟩, rfl, rfl, hself, hdata₀, hothers,
    hothers'⟩
  · exact Fresh.winode (s := { s with freeinode := s.freeinode + 1 }) ⟨h.fresh.lo, h.fresh.zero⟩ hlt _
  · by_cases hne : m = s.freeinode
    · -- a new inode has no blocks
      subst hne
      have hown : ∀ k, own s'.view (inodes .mkfs s'.view) (dinode .mkfs s'.view) (s.freeinode, k) = 0 := by
        intro k
        unfold own
        split
        · rw [hself]
          exact ptr_blank s'.view t k
        · rfl
      rw [hdata₀]
      exact ⟨fun bn _ => by rw [hown]; simp, by rw [hown]; simp⟩
    · have hm' := (hmem m hne).mp hm
      refine (h.covers m hm').congr (fun k => ?_) (by rw [hothers' m hm' hne])
      exact (htouch'.slots m k hne).trans (htouch.slots m k hne)
  · have hle : s.freeinode + 1 ≤ m := hm
    rw [hothers m hmlt (by omega)]
    exact h.unused m (by omega) hmlt

/-! ## The whole program -/

/-- The contents of a host file. -/
def HostFile.content (f : HostFile) : List Byte := f.chunks.flatten

/-- The contents of the root directory: its dots, then the files in order. -/
def rootData (files : List HostFile) : List Byte :=
  direntBytes (bytesOf ".") ROOTINO ++ direntBytes (bytesOf "..") ROOTINO ++
    files.zipIdx.flatMap fun e => direntBytes e.1.target (e.2 + 2)

/-- The blocks that an image with these files needs. -/
def total (files : List HostFile) : Nat :=
  nmeta + blocks (DIRENT * (files.length + 2)) + (files.map fun f => blocks f.content.length).sum

/-- The files fit in the image. -/
structure Fits (files : List HostFile) : Prop where
  few : files.length ≤ NINODES - 2
  names : ∀ f ∈ files, SLASH ∉ f.name
  sizes : ∀ f ∈ files, f.content.length ≤ MAXFILE * BSIZE
  total : total files ≤ FSSIZE

variable {files : List HostFile} {f : HostFile}

theorem rootData_append : rootData (files ++ [f]) =
    rootData files ++ direntBytes f.target (files.length + 2) := by
  unfold rootData
  rw [List.zipIdx_append, List.flatMap_append, ← List.append_assoc]
  congr 1
  simp [List.zipIdx]

theorem length_rootData : (rootData files).length = DIRENT * (files.length + 2) := by
  induction files using List.reverseRecOn with
  | nil => decide
  | append_singleton files f ih =>
    rw [rootData_append, List.length_append, ih, length_direntBytes, List.length_append, List.length_singleton]
    simp only [DIRENT]
    omega

theorem total_append (files : List HostFile) (f : HostFile) :
    total (files ++ [f]) + blocks (DIRENT * (files.length + 2)) =
      total files + blocks (DIRENT * (files.length + 2 + 1)) + blocks f.content.length := by
  unfold total
  rw [List.map_append, List.sum_append, List.length_append, List.map_singleton, List.sum_singleton,
    List.length_singleton, Nat.add_right_comm files.length 1 2]
  omega

/-- The image holds the root directory and these files. -/
structure Holds (files : List HostFile) (s : State) : Prop where
  built : Built s
  freeinode : s.freeinode = files.length + 2
  freeblock : s.freeblock = total files
  inodes_iff : ∀ n, n < NINODES → (n ∈ inodes .mkfs s.view ↔ 1 ≤ n ∧ n < files.length + 2)
  dir : (dinode .mkfs s.view ROOTINO).type = T_DIR
  root : data .mkfs s.view ROOTINO = rootData files
  file : ∀ i (hi : i < files.length), (dinode .mkfs s.view (i + 2)).type = T_FILE ∧
    data .mkfs s.view (i + 2) = files[i].content

/-- One more entry keeps the inode numbers in range. -/
theorem namesBelow_append {c : List Byte} {k : Nat} (hlen : c.length = DIRENT * k)
    (h : NamesBelow NINODES c) {name : Name} {n : Nat} (hn : n < NINODES) :
    NamesBelow NINODES (c ++ direntBytes name n) := by
  rw [← splice_append, hlen]
  refine h.splice (length_direntBytes _ _) hlen.ge ?_
  rw [direntInum_direntBytes, Nat.mod_eq_of_lt (lt_trans hn (by decide))]
  exact hn

/-- An entry is appended to the root directory. -/
theorem Built.appendEntry {s : State} (h : Built s) (hroot : ROOTINO ∈ inodes .mkfs s.view) {k : Nat}
    (htype : (dinode .mkfs s.view ROOTINO).type = T_DIR)
    (hlen : (data .mkfs s.view ROOTINO).length = DIRENT * k) (hk : k < NINODES) (name : Name) {n : Nat}
    (hn : n < NINODES) (hroom : s.freeblock + blocks (DIRENT * (k + 1)) ≤ FSSIZE + blocks (DIRENT * k)) :
    ∃ s', Mkfs.iappend s ROOTINO (direntBytes name n) = some s' ∧
      Extends ROOTINO (direntBytes name n) s s' := by
  have hnew : (data .mkfs s.view ROOTINO).length + (direntBytes name n).length = DIRENT * (k + 1) := by
    rw [hlen, length_direntBytes, Nat.mul_succ]
  refine h.iappend hroot ?_ ?_ fun _ => ?_
  · rw [hnew]
    simp only [DIRENT, MAXFILE, NDIRECT, NINDIRECT, BSIZE, NINODES] at *
    omega
  · rw [hnew, hlen]
    exact hroom
  · exact namesBelow_append hlen (h.vol.names _ hroot htype) hn

/-- A file is added. -/
theorem Holds.addFile {s : State} (h : Holds files s) (hfew : files.length + 2 < NINODES)
    (hname : SLASH ∉ f.name) (hsize : f.content.length ≤ MAXFILE * BSIZE)
    (htotal : total (files ++ [f]) ≤ FSSIZE) :
    ∃ s', Mkfs.addFile s f = some s' ∧ Holds (files ++ [f]) s' := by
  have hsum := total_append files f
  have hfree := h.freeinode
  have hblk := h.freeblock
  have hmono := blocks_mono (show DIRENT * (files.length + 2) ≤ DIRENT * (files.length + 2 + 1) by
    simp only [DIRENT]; omega)
  have hroot : ROOTINO ∈ inodes .mkfs s.view := by
    refine (h.inodes_iff _ (by decide)).mpr ⟨le_rfl, ?_⟩
    show 1 < files.length + 2
    omega
  -- the inode
  obtain ⟨hb₁, hfi₁, hfb₁, hself₁, hdata₁, hoth₁, hdoth₁⟩ :=
    h.built.ialloc (t := T_FILE) (by decide) (by omega)
  generalize hs₁ : (Mkfs.ialloc s T_FILE).2 = s₁ at hb₁ hfi₁ hfb₁ hself₁ hdata₁ hoth₁ hdoth₁
  rw [hfree] at hself₁ hdata₁ hoth₁ hdoth₁
  have hne : ROOTINO ≠ files.length + 2 := by simp only [ROOTINO]; omega
  have hdir₁ : (dinode .mkfs s₁.view ROOTINO).type = T_DIR := by
    rw [hoth₁ _ (by decide) hne, h.dir]
  have hroot₁ : ROOTINO ∈ inodes .mkfs s₁.view := ⟨by decide, by rw [hdir₁]; decide⟩
  have hrdata₁ : data .mkfs s₁.view ROOTINO = rootData files := by
    rw [hdoth₁ _ hroot hne, h.root]
  have hlen₁ : (data .mkfs s₁.view ROOTINO).length = DIRENT * (files.length + 2) := by
    rw [hrdata₁, length_rootData]
  -- its entry
  obtain ⟨s₂, hrun₂, hext₂⟩ := hb₁.appendEntry hroot₁ hdir₁ hlen₁ hfew f.target (n := files.length + 2) hfew
    (by omega)
  have hfb₂ := hext₂.freeblock
  rw [hlen₁, length_direntBytes, ← Nat.mul_add_one] at hfb₂
  have hself₂ : dinode .mkfs s₂.view (files.length + 2) = newInode T_FILE := by
    rw [hext₂.others _ hfew hne.symm, hself₁]
  have hnew₁ : files.length + 2 ∈ inodes .mkfs s₁.view := ⟨hfew, by rw [hself₁]; decide⟩
  have hnew₂ : files.length + 2 ∈ inodes .mkfs s₂.view := ⟨hfew, by rw [hself₂]; decide⟩
  have hdata₂ : data .mkfs s₂.view (files.length + 2) = [] := by
    rw [hext₂.data_others _ hnew₁ hne.symm, hdata₁]
  -- its contents
  have hblocks0 : blocks 0 = 0 := by decide
  obtain ⟨s₃, hrun₃, hext₃⟩ := hext₂.built.appendChunks hnew₂
    (by rw [hself₂]; decide) f.chunks (by rw [hdata₂, List.length_nil, Nat.zero_add]; exact hsize)
    (by
      rw [hdata₂, List.length_nil, Nat.zero_add, hblocks0]
      change s₂.freeblock + blocks f.content.length ≤ FSSIZE + 0
      omega)
  have hfb₃ := hext₃.freeblock
  rw [hdata₂, List.length_nil, Nat.zero_add, hblocks0] at hfb₃
  change s₃.freeblock + 0 = s₂.freeblock + blocks f.content.length at hfb₃
  refine ⟨s₃, ?_, ?_⟩
  · unfold Mkfs.addFile
    rw [if_neg hname]
    have hnum : (Mkfs.ialloc s T_FILE).1 = files.length + 2 := hfree
    rw [show Mkfs.ialloc s T_FILE = (files.length + 2, s₁) from Prod.ext hnum hs₁]
    dsimp only
    rw [hrun₂]
    exact hrun₃
  have hothers : ∀ m, m < NINODES → m ≠ files.length + 2 → m ≠ ROOTINO →
      dinode .mkfs s₃.view m = dinode .mkfs s.view m := by
    intro m hm h1 h2
    rw [hext₃.others m hm h1, hext₂.others m hm h2, hoth₁ m hm h1]
  have hlength : (files ++ [f]).length = files.length + 1 := by simp
  constructor
  · exact hext₃.built
  · rw [hext₃.freeinode, hext₂.freeinode, hfi₁, hfree, hlength]
  · omega
  · intro n hn
    rw [hext₃.inodes_iff, hext₂.inodes_iff, hlength]
    by_cases hnf : n = files.length + 2
    · rw [hnf]
      simp only [hnew₁, true_iff]
      omega
    · rw [mem_inodes_iff hoth₁ hnf, h.inodes_iff n hn]
      omega
  · rw [hext₃.others _ (by decide) hne, hext₂.type_eq, hdir₁]
  · rw [hext₃.data_others _ ((hext₂.inodes_iff _).mpr hroot₁) hne, hext₂.data_eq, hrdata₁, rootData_append]
  · intro i hi
    rw [hlength] at hi
    by_cases hif : i = files.length
    · subst hif
      rw [hext₃.type_eq, hself₂, hext₃.data_eq, hdata₂]
      refine ⟨rfl, ?_⟩
      simp [HostFile.content]
    · have hlt : i < files.length := by omega
      obtain ⟨htype, hcont⟩ := h.file i hlt
      have h1 : i + 2 ≠ files.length + 2 := by omega
      have h2 : i + 2 ≠ ROOTINO := by simp only [ROOTINO]; omega
      have hmem : i + 2 ∈ inodes .mkfs s.view := (h.inodes_iff _ (by omega)).mpr ⟨by omega, by omega⟩
      have hmem₁ : i + 2 ∈ inodes .mkfs s₁.view := (mem_inodes_iff hoth₁ h1).mpr hmem
      rw [hothers _ (by omega) h1 h2, hext₃.data_others _ ((hext₂.inodes_iff _).mpr hmem₁) h1,
        hext₂.data_others _ hmem₁ h2, hdoth₁ _ hmem h1, List.getElem_append_left hlt]
      exact ⟨htype, hcont⟩

theorem dinode_blankImage {n : Nat} (hn : n < NINODES) : dinode .mkfs blankImage.view n = .zero := by
  have hlo : 1 < Superblock.mkfs.IBLOCK n :=
    lt_of_lt_of_le (show 1 < 2 + LOGSIZE by decide) (Nat.le_add_left _ _)
  have hzero : blankImage.disk (Superblock.mkfs.IBLOCK n) = 0 :=
    update_of_ne hlo.ne' superblock _
  have hcell : cell 512 (0 : Block) (n % IPB) = 0#512 := cell_zero _
  unfold dinode
  rw [view_apply (iblock_ne hn), hzero, hcell]
  decide +kernel

theorem inodes_blankImage : inodes .mkfs blankImage.view = ∅ := by
  refine Set.eq_empty_of_forall_notMem fun n hn => hn.2 ?_
  rw [dinode_blankImage hn.1]
  rfl

/-- Before the first file nothing is in use but the metadata. -/
theorem blankImage_built : Built blankImage := by
  have hown : ∀ κ, own blankImage.view (inodes .mkfs blankImage.view) (dinode .mkfs blankImage.view) κ = 0 := by
    intro κ
    rw [inodes_blankImage]
    exact own_of_not_mem (Set.notMem_empty _)
  have hnone : ∀ n, n ∉ inodes .mkfs blankImage.view := by
    intro n
    rw [inodes_blankImage]
    exact Set.notMem_empty n
  refine ⟨⟨⟨⟨fun κ h => absurd (hown κ) h, fun κ _ h => absurd (hown κ) h, fun κ h => absurd (hown κ) h⟩,
    fun n hn => absurd hn (hnone n), fun b hb => ?_⟩, fun b hb => ?_, fun n hn => absurd hn (hnone n)⟩,
    ⟨le_rfl, fun b hb => ?_⟩, fun n hn => absurd hn (hnone n), fun n _ hn => dinode_blankImage hn⟩
  · rw [bit_view (lt_trans hb (by decide))]
    exact decide_eq_true hb
  · rw [bit_view hb, decide_eq_true_eq]
    constructor
    · exact Or.inl
    · rintro (h | ⟨κ, h, -⟩)
      · exact h
      · exact absurd (hown κ) h
  · have hb : nmeta ≤ b := hb
    exact update_of_ne (show b ≠ 1 from (lt_of_lt_of_le (by decide) hb).ne') _ _

/-- The root directory with its dots. -/
theorem makeRoot_holds : ∃ s, makeRoot blankImage = some s ∧ Holds [] s := by
  have hsmall : total [] ≤ FSSIZE := by decide
  obtain ⟨hb₁, hfi₁, hfb₁, hself₁, hdata₁, hoth₁, -⟩ :=
    blankImage_built.ialloc (t := T_DIR) (by decide) (by decide)
  generalize hs₁ : (ialloc blankImage T_DIR).2 = s₁ at hb₁ hfi₁ hfb₁ hself₁ hdata₁ hoth₁
  change dinode .mkfs s₁.view ROOTINO = _ at hself₁
  change data .mkfs s₁.view ROOTINO = _ at hdata₁
  have hroot₁ : ROOTINO ∈ inodes .mkfs s₁.view := ⟨by decide, by rw [hself₁]; decide⟩
  obtain ⟨s₂, hrun₂, hext₂⟩ := hb₁.appendEntry hroot₁ (by rw [hself₁]; rfl) (k := 0)
    (by rw [hdata₁]; rfl) (by decide) (bytesOf ".") (n := ROOTINO) (by decide) (by rw [hfb₁]; decide)
  have hfb₂ := hext₂.freeblock
  rw [hdata₁, length_direntBytes, hfb₁] at hfb₂
  have hroot₂ : ROOTINO ∈ inodes .mkfs s₂.view := (hext₂.inodes_iff _).mpr hroot₁
  have hlen₂ : (data .mkfs s₂.view ROOTINO).length = DIRENT * 1 := by
    rw [hext₂.data_eq, hdata₁, List.nil_append, length_direntBytes, Nat.mul_one]
  have hblk₂ : s₂.freeblock = nmeta + 1 := hfb₂
  obtain ⟨s₃, hrun₃, hext₃⟩ := hext₂.built.appendEntry hroot₂ (by rw [hext₂.type_eq, hself₁]; rfl)
    hlen₂ (by decide) (bytesOf "..") (n := ROOTINO) (by decide) (by rw [hblk₂]; decide)
  have hfb₃ := hext₃.freeblock
  rw [hlen₂, length_direntBytes, hblk₂] at hfb₃
  have hblk₃ : s₃.freeblock = nmeta + 1 := Nat.add_right_cancel hfb₃
  refine ⟨s₃, ?_, ?_⟩
  · unfold makeRoot
    rw [show ialloc blankImage T_DIR = (ROOTINO, s₁) from Prod.ext rfl hs₁]
    dsimp only
    rw [if_pos rfl, hrun₂]
    exact hrun₃
  constructor
  · exact hext₃.built
  · rw [hext₃.freeinode, hext₂.freeinode, hfi₁]
    rfl
  · rw [hblk₃]
    decide
  · intro n hn
    rw [hext₃.inodes_iff, hext₂.inodes_iff]
    by_cases hn1 : n = ROOTINO
    · rw [hn1]
      simp only [hroot₁, true_iff]
      decide
    · rw [mem_inodes_iff hoth₁ hn1, inodes_blankImage]
      have hne : n ≠ 1 := hn1
      simp only [Set.mem_empty_iff_false, List.length_nil, false_iff]
      omega
  · rw [hext₃.type_eq, hext₂.type_eq, hself₁]
    rfl
  · rw [hext₃.data_eq, hext₂.data_eq, hdata₁]
    rfl
  · intro i hi
    exact absurd hi (Nat.not_lt_zero i)

/-- The blocks that a part of the files needs. -/
theorem total_le_append (files rest : List HostFile) : total files ≤ total (files ++ rest) := by
  unfold total
  have hmono := blocks_mono (show DIRENT * (files.length + 2) ≤ DIRENT * ((files ++ rest).length + 2) by
    rw [List.length_append]
    simp only [DIRENT]
    omega)
  rw [List.map_append, List.sum_append]
  omega

/-- The loop over the files. -/
theorem Holds.addFiles {s : State} (h : Holds files s) (rest : List HostFile) (hfit : Fits (files ++ rest)) :
    ∃ s', rest.foldlM Mkfs.addFile s = some s' ∧ Holds (files ++ rest) s' := by
  induction rest generalizing files s with
  | nil =>
    rw [List.append_nil]
    exact ⟨s, rfl, h⟩
  | cons f rest ih =>
    have hassoc : files ++ f :: rest = (files ++ [f]) ++ rest := by simp
    rw [hassoc] at hfit ⊢
    have hmem : f ∈ files ++ [f] ++ rest := by simp
    have hfew := hfit.few
    simp only [List.length_append, List.length_singleton] at hfew
    obtain ⟨s₁, hrun, h₁⟩ := h.addFile (f := f) (by simp only [NINODES] at *; omega) (hfit.names f hmem)
      (hfit.sizes f hmem) ((total_le_append _ rest).trans hfit.total)
    obtain ⟨s₂, hrun₂, h₂⟩ := ih h₁ hfit
    refine ⟨s₂, ?_, h₂⟩
    rw [List.foldlM_cons, hrun]
    exact hrun₂

/-- The state before the end of `main`. -/
theorem main_holds (hfit : Fits files) : ∃ s, Holds files s ∧ main files = finish s := by
  obtain ⟨s₀, hrun₀, h₀⟩ := makeRoot_holds
  obtain ⟨s, hrun, h⟩ := h₀.addFiles files hfit
  refine ⟨s, h, ?_⟩
  unfold main
  rw [hrun₀]
  show (files.foldlM Mkfs.addFile s₀).bind finish = _
  rw [hrun]
  rfl

/-- The root inode with its size rounded up. -/
def rounded (d : Dinode) : Dinode :=
  { d with size := BitVec.ofNat 32 ((d.size.toNat / BSIZE + 1) * BSIZE) }

/-- The image that `mkfs` leaves. -/
theorem Holds.finish {s : State} (h : Holds files s) (hfit : Fits files) :
    ∃ s', Mkfs.finish s = some s' ∧
      s'.disk = setDinode .mkfs s.view ROOTINO (rounded (dinode .mkfs s.view ROOTINO)) := by
  have hlt : (winode s ROOTINO (rounded (dinode .mkfs s.view ROOTINO))).freeblock < BSIZE * 8 := by
    show s.freeblock < BSIZE * 8
    rw [h.freeblock]
    exact lt_of_le_of_lt hfit.total (by decide)
  refine ⟨wsect (winode s ROOTINO (rounded (dinode .mkfs s.view ROOTINO))) Superblock.mkfs.bmapstart
    (bitmap s.freeblock), ?_, ?_⟩
  · unfold Mkfs.finish balloc
    rw [rinode_eq (by decide)]
    exact if_pos hlt
  · exact view_winode (by decide) _

/-! ## Holes -/

/-- The size of the root directory of the finished image. -/
theorem Holds.size_rounded {s : State} (h : Holds files s) (hfit : Fits files) :
    (rounded (dinode .mkfs s.view ROOTINO)).size.toNat =
      (DIRENT * (files.length + 2) / BSIZE + 1) * BSIZE := by
  have hlen := length_data .mkfs s.view ROOTINO
  rw [h.root, length_rootData] at hlen
  have hfew := hfit.few
  show (BitVec.ofNat 32 _).toNat = _
  rw [← hlen, BitVec.toNat_ofNat, Nat.mod_eq_of_lt]
  simp only [DIRENT, BSIZE, NINODES] at *
  omega

/-- The block pointers of the finished image are those before the end. -/
theorem Built.ptr_setDinode {s : State} (h : Built s) {n m : Nat} (hn : n < NINODES) (d : Dinode)
    (hm : m ∈ inodes .mkfs s.view) (hd : n = m → d.addrs = (dinode .mkfs s.view n).addrs) (k : Nat) :
    ptr (setDinode .mkfs s.view n d) (dinode .mkfs (setDinode .mkfs s.view n d) m) k =
      ptr s.view (dinode .mkfs s.view m) k := by
  refine ptr_congr k ?_ fun h0 => ?_
  · by_cases hnm : n = m
    · subst hnm
      rw [dinode_setDinode_self, hd rfl]
    · rw [dinode_setDinode_ne _ (Ne.symm hnm)]
  · have hown : own s.view (inodes .mkfs s.view) (dinode .mkfs s.view) (m, NDIRECT) = _ := own_indirect hm
    rw [← hown] at h0 ⊢
    exact setDinode_apply_of_datastart_le d hn (h.vol.image.datastart_le h0)

/-- **Holes.** The image that `mkfs` makes of files that fit is without holes
    exactly when the entries of the root directory do not fill its last block. -/
theorem mkfs_noHoles_iff (hfit : Fits files) :
    ∃ s, main files = some s ∧ (NoHoles .mkfs s.disk ↔ (files.length + 2) % (BSIZE / DIRENT) ≠ 0) := by
  obtain ⟨s, h, hmain⟩ := main_holds hfit
  obtain ⟨s', hfinish, hdisk⟩ := h.finish hfit
  refine ⟨s', hmain.trans hfinish, ?_⟩
  rw [hdisk]
  have hsize := h.size_rounded hfit
  have hfew := hfit.few
  have hlen : (data .mkfs s.view ROOTINO).length = DIRENT * (files.length + 2) := by
    rw [h.root, length_rootData]
  generalize hd : rounded (dinode .mkfs s.view ROOTINO) = d at hsize
  have htype : d.type = T_DIR := by
    rw [← hd]
    exact h.dir
  have hroot : ROOTINO ∈ inodes .mkfs s.view := ⟨by decide, by rw [h.dir]; decide⟩
  have hroot' : ROOTINO ∈ inodes .mkfs (setDinode .mkfs s.view ROOTINO d) :=
    ⟨by decide, by rw [dinode_setDinode_self, htype]; decide⟩
  have hptr : ∀ m ∈ inodes .mkfs s.view, ∀ k, ptr (setDinode .mkfs s.view ROOTINO d)
      (dinode .mkfs (setDinode .mkfs s.view ROOTINO d) m) k = ptr s.view (dinode .mkfs s.view m) k :=
    fun m hm k => h.built.ptr_setDinode (by decide) d hm (fun _ => by rw [← hd]; rfl) k
  have hcov := h.built.covers ROOTINO hroot
  rw [hlen] at hcov
  constructor
  · -- a full last block: the next one is missing
    intro hno heq
    obtain ⟨hbn, h0⟩ := hno ROOTINO hroot' (DIRENT * (files.length + 2) / BSIZE) (by
      rw [dinode_setDinode_self, hsize]
      exact Nat.mul_lt_mul_of_pos_right (Nat.lt_succ_self _) (by decide))
    rw [hptr _ hroot, ← own_eq hroot (slotOf_lt hbn), hcov.data _ hbn] at h0
    simp only [DIRENT, BSIZE] at *
    omega
  · intro hpart m hm bn hbn
    by_cases hm1 : m = ROOTINO
    · subst hm1
      rw [dinode_setDinode_self, hsize] at hbn
      have hlt : bn < MAXFILE ∧ bn * BSIZE < DIRENT * (files.length + 2) := by
        simp only [DIRENT, BSIZE, NINODES, MAXFILE, NDIRECT, NINDIRECT] at *
        omega
      refine ⟨hlt.1, ?_⟩
      rw [hptr _ hroot, ← own_eq hroot (slotOf_lt hlt.1), hcov.data _ hlt.1]
      exact hlt.2
    · have hm' : m ∈ inodes .mkfs s.view :=
        (mem_inodes_iff (fun k _ hk => dinode_setDinode_ne _ hk) hm1).mp hm
      rw [dinode_setDinode_ne _ hm1] at hbn
      obtain ⟨hmax, hown⟩ := h.built.vol.image.nohole m hm' bn hbn
      rw [own_eq hm' (slotOf_lt hmax)] at hown
      rw [hptr m hm']
      exact ⟨hmax, hown⟩

/-- Thirty empty files fill the first block of the root directory. -/
def thirtyFiles : List HostFile :=
  (List.range 30).map fun i => ⟨[BitVec.ofNat 8 (97 + i)], []⟩

theorem thirtyFiles_fit : Fits thirtyFiles := by
  refine ⟨by decide, ?_, ?_, by decide⟩
  · decide
  · decide

/-- A file of two blocks and a short one. -/
def twoFiles : List HostFile :=
  [⟨bytesOf "_cat", [List.replicate 512 7, List.replicate 88 8]⟩, ⟨bytesOf "README", [bytesOf "xv6"]⟩]

/-- They leave room in the root directory. -/
theorem mkfs_noHoles_two_files : ∃ s, main twoFiles = some s ∧ NoHoles .mkfs s.disk := by
  have hfit : Fits twoFiles :=
    ⟨by decide, by decide, by decide +kernel, by decide +kernel⟩
  obtain ⟨s, hmain, hiff⟩ := mkfs_noHoles_iff hfit
  exact ⟨s, hmain, hiff.mpr (by decide)⟩

/-- The root directory of thirty files has a hole. -/
theorem mkfs_hole : Fits thirtyFiles ∧ ∃ s, main thirtyFiles = some s ∧ ¬NoHoles .mkfs s.disk := by
  have hexec : (match main thirtyFiles with
      | some s => decide ((dinode .mkfs s.disk ROOTINO).type ≠ 0 ∧
          BSIZE < (dinode .mkfs s.disk ROOTINO).size.toNat ∧
          ptr s.disk (dinode .mkfs s.disk ROOTINO) 1 = 0)
      | none => false) = true := by decide +kernel
  refine ⟨thirtyFiles_fit, ?_⟩
  split at hexec
  · next s hmain =>
    obtain ⟨htype, hsize, hptr⟩ := of_decide_eq_true hexec
    refine ⟨s, hmain, fun hno => ?_⟩
    exact (hno ROOTINO ⟨by decide, htype⟩ 1 (by rw [Nat.one_mul]; exact hsize)).2 hptr
  · cases hexec

end Xv6.Mkfs
