import Xv6.Fs.Bitmap
import Xv6.Fs.Image

/-! # The contents of files

    `readi` and `writei` on top of `bmap` and `balloc`, seen as operations on
    byte strings.

    The specifications are in continuation style: `wp (f ..) E Q s` follows
    from what `f` does being enough for `Q`. All functions here change the
    disk and the cached copy of one inode only, so every state they reach is
    `s.withFile ip disk d`.
-/

namespace Xv6.Fs

open BitRange Ownership Op Function

/-- The state with another disk and another copy of the inode `ip`. -/
def FsState.withFile (s : FsState) (ip : Slot) (disk : Disk) (d : Dinode) : FsState :=
  { s with
    disk := disk
    icache := update s.icache ip { s.icache ip with toDinode := d } }

section

variable (s : FsState) (ip : Slot) (disk disk' : Disk) (d d' : Dinode)

@[simp] theorem withFile_disk : (s.withFile ip disk d).disk = disk := rfl

@[simp] theorem withFile_outstanding : (s.withFile ip disk d).outstanding = s.outstanding := rfl

@[simp] theorem withFile_copy : ((s.withFile ip disk d).icache ip).toDinode = d := by
  simp [FsState.withFile]

@[simp] theorem withFile_inum : ((s.withFile ip disk d).icache ip).inum = (s.icache ip).inum := by
  simp [FsState.withFile]

theorem withFile_of_ne {j : Slot} (h : j ≠ ip) :
    (s.withFile ip disk d).icache j = s.icache j := by
  simp [FsState.withFile, h]

@[simp] theorem withFile_withFile :
    (s.withFile ip disk d).withFile ip disk' d' = s.withFile ip disk' d' := by
  simp [FsState.withFile]

theorem withFile_self : s.withFile ip s.disk (s.icache ip).toDinode = s := by
  simp [FsState.withFile]

theorem setCopy_eq (f : Dinode → Dinode) :
    s.setCopy ip f = s.withFile ip s.disk (f (s.icache ip).toDinode) := rfl

theorem setDisk_eq : { s with disk := disk } = s.withFile ip disk (s.icache ip).toDinode := by
  simp [FsState.withFile]

end

section

variable (s : FsState) (i : Slot) (f : Inode → Inode)

@[simp] theorem setInode_disk : (s.setInode i f).disk = s.disk := rfl

@[simp] theorem setInode_ftable : (s.setInode i f).ftable = s.ftable := rfl

@[simp] theorem setInode_proc : (s.setInode i f).proc = s.proc := rfl

@[simp] theorem setInode_self : (s.setInode i f).icache i = f (s.icache i) := by
  simp [FsState.setInode]

theorem setInode_ne {j : Slot} (h : j ≠ i) : (s.setInode i f).icache j = s.icache j := by
  simp [FsState.setInode, h]

end

variable {sb : Superblock} {s : FsState} {E : String → Prop} {Q : Nat → FsState → Prop}

/-! ## Blocks -/

/-- `balloc` returns a block that was free, zeroed, or there is none. -/
theorem wp_balloc (hlog : Logs E s)
    (hfull : (∀ c, c < sb.size → bit sb s.disk c = true) → E "balloc: out of blocks")
    (hQ : ∀ b, b < sb.size → bit sb s.disk b = false →
      Q b { s with disk := allocBlock sb s.disk b }) : wp (balloc sb) E Q s := by
  rw [balloc_eq]
  refine Bytes.wp_balloc hlog (fun hempty => hfull fun c hc => ?_) fun b hb => hQ b hb.1.1 hb.1.2
  by_contra hne
  have hin : c ∈ Bytes.free sb.size sb.bmapstart s.disk := ⟨hc, Bool.eq_false_of_not_eq_true hne⟩
  rw [hempty] at hin
  exact hin

/-! ## `bmap` -/

variable {I : Type} [DecidableEq I] {F : Set I} {a : I} {D : I → Dinode} {ip : Slot} {bn b : Nat}

/-- What `bmap` does for file `a`: it finds, or makes, a block in the slot of
    `bn`, and the blocks that `a` had keep their data. -/
structure Mapped (sb : Superblock) (F : Set I) (a : I) (bn : Nat) (disk disk' : Disk)
    (D D' : I → Dinode) (b : Nat) : Prop where
  image : Image sb disk' F D'
  ext : Ext sb F a disk disk' D D' 1
  own_eq : own disk' F D' (a, slotOf bn) = b
  ne_zero : b ≠ 0
  data : ∀ k, k ≠ NDIRECT → own disk F D (a, k) ≠ 0 →
    disk' (own disk F D (a, k)) = disk (own disk F D (a, k))
  same : own disk F D (a, slotOf bn) ≠ 0 → D' a = D a

omit [DecidableEq I] in
/-- Nothing is lost when fewer blocks are used up than allowed. -/
theorem Ext.weaken {disk disk' : Disk} {D' : I → Dinode} {c c' : Nat}
    (h : Ext sb F a disk disk' D D' c) (hc : c ≤ c') : Ext sb F a disk disk' D D' c' :=
  { h with free := h.free.trans (by omega) }

omit [DecidableEq I] in
/-- A block that is already there. -/
theorem Mapped.found {disk : Disk} (him : Image sb disk F D)
    (hown : own disk F D (a, slotOf bn) = b) (hb : b ≠ 0) :
    Mapped sb F a bn disk disk D D b :=
  ⟨him, Ext.refl.weaken (by omega), hown, hb, fun _ _ _ => rfl, fun _ => rfl⟩

omit [DecidableEq I] in
/-- First an indirect block, at no charge, then the block itself. -/
theorem Mapped.after {disk disk' disk'' : Disk} {D' D'' : I → Dinode}
    (hext : Ext sb F a disk disk' D D' 0) (h0 : own disk F D (a, slotOf bn) = 0)
    (hdata : ∀ k, own disk F D (a, k) ≠ 0 →
      disk' (own disk F D (a, k)) = disk (own disk F D (a, k)))
    (h : Mapped sb F a bn disk' disk'' D' D'' b) : Mapped sb F a bn disk disk'' D D'' b where
  image := h.image
  ext := (hext.trans h.ext).weaken (by omega)
  own_eq := h.own_eq
  ne_zero := h.ne_zero
  data k hk hne := by
    have hmono := hext.own_mono k hne
    have h' := h.data k hk (by rwa [hmono])
    rw [hmono] at h'
    rw [h', hdata k hne]
  same hne := absurd h0 hne

omit [DecidableEq I] in
/-- A fresh block is nobody's. -/
theorem Image.allocBlock_own {disk : Disk} (him : Image sb disk F D) {b : Nat}
    (hb : bit sb disk b = false) (hlt : b < sb.size) (κ : I × Nat) (hκ : own disk F D κ ≠ 0) :
    allocBlock sb disk b (own disk F D κ) = disk (own disk F D κ) :=
  allocBlock_apply hlt (him.datastart_le hκ) (him.owns.ne_of_unmarked hb κ hκ)

/-- With a block left, the free map is not full. -/
theorem not_full {disk : Disk} (hfree : 1 ≤ free sb.size (bit sb disk)) :
    ¬ ∀ c, c < sb.size → bit sb disk c = true := by
  intro h
  obtain ⟨b, hb, hbit⟩ := exists_of_free_pos hfree
  simp [h b hb] at hbit

theorem slotOf_indirect (j : Nat) : slotOf (NDIRECT + j) = NDIRECT + 1 + j := by
  unfold slotOf
  rw [if_neg (by omega)]
  omega

/-- A fresh block in `addrs`. -/
theorem Mapped.newPtr {disk : Disk} (him : Image sb disk F D) (ha : a ∈ F) (hbn : bn < NDIRECT)
    (h0 : (D a).addr bn = 0) (hb : bit sb disk b = false) (hlt : b < sb.size) :
    Mapped sb F a bn disk (allocBlock sb disk b) D (update D a ((D a).setAddr bn b)) b := by
  have hslot : slotOf bn = bn := if_pos hbn
  have hown : own disk F D (a, bn) = (D a).addr bn := by
    rw [Fs.own_eq ha (by simp only [NPTR]; omega), ptr_of_le hbn.le]
  obtain ⟨him', hext⟩ := him.newPtr ha hbn.le h0 hb hlt
  refine ⟨him', hext.weaken (by split <;> omega), ?_, ?_, fun k _ hk => him.allocBlock_own hb hlt _ hk,
    fun h => absurd (by rw [hslot, hown, h0]) h⟩
  · rw [hslot, own_newPtr him ha hbn.le h0 hb hlt, update_self]
  · have := him.datastart_le_of_unmarked hb
    have := sb.datastart_pos
    omega

/-- A fresh block in the indirect block. -/
theorem Mapped.newEntry {disk : Disk} (him : Image sb disk F D) (ha : a ∈ F) {j b : Nat}
    (hj : j < NINDIRECT) (h12 : (D a).addr NDIRECT ≠ 0)
    (h0 : ((disk ((D a).addr NDIRECT)).word j).toNat = 0) (hb : bit sb disk b = false)
    (hlt : b < sb.size) :
    Mapped sb F a (NDIRECT + j) disk (update (allocBlock sb disk b) ((D a).addr NDIRECT)
      ((disk ((D a).addr NDIRECT)).setWord j (BitVec.ofNat 32 b))) D D b := by
  obtain ⟨him', hext⟩ := him.newEntry ha hj h12 h0 hb hlt
  refine ⟨him', hext, ?_, ?_, ?_, fun _ => rfl⟩
  · rw [slotOf_indirect, own_newEntry him ha hj h12 hb hlt, update_self]
  · have := him.datastart_le_of_unmarked hb
    have := sb.datastart_pos
    omega
  · intro k hk hne
    -- the indirect block is not a data block of the file
    have hx : own disk F D (a, k) ≠ (D a).addr NDIRECT := by
      have h12eq : own disk F D (a, NDIRECT) = _ := own_indirect ha
      rw [← h12eq]
      exact fun heq => hk (congrArg Prod.snd (him.owns.inj _ _ hne heq))
    rw [update_of_ne hx]
    exact him.allocBlock_own hb hlt _ hne

theorem wp_bmap_indirect (hlog : Logs E s) (him : Image sb s.disk F D) (ha : a ∈ F) {j : Nat}
    (hj : j < NINDIRECT) (h12 : (D a).addr NDIRECT ≠ 0)
    (hfull : free sb.size (bit sb s.disk) < 1 → E "balloc: out of blocks")
    (hQ : ∀ b disk', Mapped sb F a (NDIRECT + j) s.disk disk' D D b →
      Q b { s with disk := disk' }) : wp (bmap_indirect sb ((D a).addr NDIRECT) j) E Q s := by
  have hown : own s.disk F D (a, NDIRECT + 1 + j) =
      ((s.disk ((D a).addr NDIRECT)).word j).toNat := by
    rw [Fs.own_eq ha (by simp only [NPTR]; omega), ptr_of_lt (by omega) h12,
      Nat.add_sub_cancel_left]
  unfold bmap_indirect
  simp only [wp_bind, wp_get]
  by_cases h0 : ((s.disk ((D a).addr NDIRECT)).word j).toNat = 0
  · rw [if_pos h0, wp_bind]
    refine wp_balloc hlog (fun h => hfull (by by_contra hf; exact not_full (by omega) h)) ?_
    intro b hlt hb
    rw [wp_bind]
    refine wp_log_write hlog ?_
    rw [wp_pure]
    exact hQ b _ (Mapped.newEntry him ha hj h12 h0 hb hlt)
  · rw [if_neg h0, wp_pure]
    exact hQ _ _ (Mapped.found him (by rw [slotOf_indirect, hown]) h0)

omit [DecidableEq I] in
/-- A block that is there is found. -/
theorem bmap_found (ha : a ∈ F) (hip : (s.icache ip).toDinode = D a) {bn : Nat}
    (hbn : bn < MAXFILE) (hown : own s.disk F D (a, slotOf bn) ≠ 0) :
    bmap sb ip bn s = .ok (own s.disk F D (a, slotOf bn)) s := by
  have hwp : wp (bmap sb ip bn) (fun _ => False)
      (fun b s' => b = own s.disk F D (a, slotOf bn) ∧ s' = s) s := by
    rw [Fs.own_eq ha (slotOf_lt hbn)] at hown ⊢
    unfold bmap
    simp only [wp_bind, wp_get, hip]
    by_cases hd : bn < NDIRECT
    · have hslot : slotOf bn = bn := if_pos hd
      rw [hslot, ptr_of_le hd.le] at hown ⊢
      rw [if_pos hd, if_neg hown, wp_pure]
      exact ⟨rfl, rfl⟩
    · have hslot : slotOf bn = bn + 1 := if_neg hd
      rw [hslot] at hown ⊢
      have h12 : (D a).addr NDIRECT ≠ 0 := fun h => hown (ptr_eq_zero (by omega) h)
      have hj : bn - NDIRECT < NINDIRECT := by simp only [MAXFILE] at hbn; omega
      rw [ptr_of_lt (by omega) h12, show bn + 1 - (NDIRECT + 1) = bn - NDIRECT by omega] at hown ⊢
      rw [if_neg hd, if_pos hj, if_neg h12]
      unfold bmap_indirect
      simp only [wp_bind, wp_get]
      rw [if_neg hown, wp_pure]
      exact ⟨rfl, rfl⟩
  obtain ⟨b, s', hok, rfl, rfl⟩ := hwp.returns
  exact hok

theorem wp_bmap (hlog : Logs E s) (him : Image sb s.disk F D) (ha : a ∈ F)
    (hip : (s.icache ip).toDinode = D a) {bn : Nat} (hbn : bn < MAXFILE)
    (hfull : own s.disk F D (a, slotOf bn) = 0 →
      free sb.size (bit sb s.disk) < 1 + lacksIndirect s.disk F D a → E "balloc: out of blocks")
    (hQ : ∀ b disk' D', Mapped sb F a bn s.disk disk' D D' b →
      Q b (s.withFile ip disk' (D' a))) : wp (bmap sb ip bn) E Q s := by
  by_cases hmissing : own s.disk F D (a, slotOf bn) ≠ 0
  · unfold wp
    rw [bmap_found ha hip hbn hmissing]
    have h := hQ _ _ _ (Mapped.found him rfl hmissing)
    rwa [← hip, withFile_self] at h
  replace hfull := hfull (not_not.mp hmissing)
  have hself : ∀ disk', { s with disk := disk' } = s.withFile ip disk' (D a) := by
    intro disk'
    rw [setDisk_eq s ip, hip]
  have hnf : ∀ c, c ≤ lacksIndirect s.disk F D a →
      (∀ b, b < sb.size → bit sb s.disk b = true) → E "balloc: out of blocks" := by
    intro c hc h
    refine hfull ?_
    by_contra hf
    exact not_full (by omega) h
  unfold bmap
  simp only [wp_bind, wp_get]
  by_cases hd : bn < NDIRECT
  · -- a direct block
    have hslot : slotOf bn = bn := if_pos hd
    have hown : own s.disk F D (a, bn) = (D a).addr bn := by
      rw [Fs.own_eq ha (by simp only [NPTR]; omega), ptr_of_le hd.le]
    rw [if_pos hd]
    simp only [hip]
    by_cases h0 : (D a).addr bn = 0
    · rw [if_pos h0, wp_bind]
      refine wp_balloc hlog (hnf 0 (Nat.zero_le _)) fun b hlt hb => ?_
      simp only [wp_bind, wp_modify, wp_pure]
      have hst := hQ b _ _ (Mapped.newPtr him ha hd h0 hb hlt)
      rw [hself, setCopy_eq, withFile_withFile, withFile_copy, withFile_disk]
      rwa [update_self] at hst
    · exact absurd (by rw [hslot, hown]; exact h0) hmissing
  · rw [if_neg hd]
    have hj : bn - NDIRECT < NINDIRECT := by simp only [MAXFILE] at hbn; omega
    have hbn' : NDIRECT + (bn - NDIRECT) = bn := by omega
    rw [if_pos hj]
    simp only [hip]
    by_cases h12 : (D a).addr NDIRECT = 0
    · -- the indirect block comes first
      have hlack : lacksIndirect s.disk F D a = 1 := by
        unfold lacksIndirect
        rw [if_pos (by rw [own_indirect ha, h12])]
      rw [if_pos h12, wp_bind]
      refine wp_balloc hlog (hnf 0 (Nat.zero_le _)) fun b hlt hb => ?_
      obtain ⟨him', hext⟩ := him.newPtr ha (le_refl NDIRECT) h12 hb hlt
      rw [if_pos rfl] at hext
      simp only [wp_bind, wp_modify]
      rw [hself, setCopy_eq, withFile_withFile, withFile_copy, withFile_disk]
      have hD : (update D a ((D a).setAddr NDIRECT b)) a = (D a).setAddr NDIRECT b :=
        update_self _ _ _
      have hbig : b < 2 ^ 32 := by have := sb.size_lt; omega
      have haddr : ((update D a ((D a).setAddr NDIRECT b)) a).addr NDIRECT = b := by
        rw [hD, Dinode.addr_setAddr_self _ le_rfl hbig]
      have hb0 : b ≠ 0 := by
        have := him.datastart_le_of_unmarked hb
        have := sb.datastart_pos
        omega
      rw [← hD]
      have hfree := hext.free
      have htail := wp_bmap_indirect (E := E) (Q := Q)
        (s := s.withFile ip (allocBlock sb s.disk b)
          ((update D a ((D a).setAddr NDIRECT b)) a)) hlog him' ha hj
        (by rwa [haddr]) ?_ ?_
      · rwa [haddr] at htail
      · intro hf
        refine hfull ?_
        simp only [withFile_disk] at hf
        omega
      · intro x disk' hm
        rw [hbn'] at hm
        rw [setDisk_eq _ ip, withFile_withFile, withFile_copy]
        refine hQ x disk' _ (hm.after hext ?_ fun k hk => him.allocBlock_own hb hlt _ hk)
        rw [Fs.own_eq ha (slotOf_lt hbn), ptr_eq_zero _ h12]
        unfold slotOf
        rw [if_neg hd]
        omega
    · rw [if_neg h12]
      refine wp_bmap_indirect hlog him ha hj h12 (fun hf => hfull (by omega)) ?_
      intro b disk' hm
      rw [hbn'] at hm
      rw [hself]
      exact hQ b disk' D hm

/-! ## Bytes -/

theorem cell_setBytes (b : Block) (off : Nat) (f : Nat → Byte) (m : Nat) (h : off + m ≤ BSIZE)
    (i : Nat) : cell 8 (b.setBytes off f m) i =
      if off ≤ i ∧ i < off + m then f (i - off) else cell 8 b i := by
  induction m with
  | zero => rw [if_neg (by omega)]; rfl
  | succ m ih =>
    have ih := ih (by omega)
    unfold Block.setBytes
    by_cases hi : i = off + m
    · subst hi
      rw [cell_setCell_self _ _ _ (by simp only [BSIZE] at *; omega), if_pos (by omega),
        Nat.add_sub_cancel_left]
    · rw [cell_setCell_ne _ _ hi, ih]
      congr 1
      simp only [eq_iff_iff]
      omega

/-- Positions inside one block. -/
theorem div_mod_block {off i : Nat} (h : off % BSIZE + i < BSIZE) :
    (off + i) / BSIZE = off / BSIZE ∧ (off + i) % BSIZE = off % BSIZE + i := by
  simp only [BSIZE] at *
  omega

omit [DecidableEq I] in
/-- The bytes of a file through the slots of its image. -/
theorem byteAt_eq {disk : Disk} (ha : a ∈ F) {pos : Nat} (h : pos / BSIZE < MAXFILE) :
    byteAt disk (D a) pos =
      cell 8 (disk (own disk F D (a, slotOf (pos / BSIZE)))) (pos % BSIZE) := by
  unfold byteAt
  rw [Fs.own_eq ha (slotOf_lt h)]

omit [DecidableEq I] in
theorem bytes_eq {disk : Disk} (ha : a ∈ F) {off m : Nat} (h : off / BSIZE < MAXFILE)
    (hm : off % BSIZE + m ≤ BSIZE) :
    (disk (own disk F D (a, slotOf (off / BSIZE)))).bytes (off % BSIZE) m =
      (List.range m).map fun i => byteAt disk (D a) (off + i) := by
  unfold Block.bytes
  apply List.map_congr_left
  intro i hi
  rw [List.mem_range] at hi
  obtain ⟨hdiv, hmod⟩ := div_mod_block (show off % BSIZE + i < BSIZE by omega)
  rw [byteAt_eq ha (by rwa [hdiv]), hdiv, hmod]

/-! ## `readi` -/

omit [DecidableEq I] in
/-- The loop of `readi` collects the bytes and changes nothing. -/
theorem wp_readi_loop (him : Image sb s.disk F D) (ha : a ∈ F)
    (hip : (s.icache ip).toDinode = D a) {n : Nat} (fuel tot off : Nat)
    (hsize : off + (n - tot) ≤ (D a).size.toNat) (hfuel : n - tot ≤ fuel) :
    wp (readi_loop sb ip n fuel tot off) E (fun dst s' => s' = s ∧
      dst = (List.range (n - tot)).map fun i => byteAt s.disk (D a) (off + i)) s := by
  induction fuel generalizing tot off with
  | zero =>
    rw [Nat.le_zero.mp hfuel]
    exact ⟨rfl, rfl⟩
  | succ fuel ih =>
    unfold readi_loop
    by_cases htot : tot < n
    · rw [if_pos htot]
      -- the block is below the size, so `bmap` finds it
      obtain ⟨hbn, hown⟩ := him.nohole a ha (off / BSIZE)
        (lt_of_le_of_lt (Nat.div_mul_le_self off BSIZE) (by omega))
      have hmod : off % BSIZE < BSIZE := Nat.mod_lt _ (by decide)
      generalize hm : min (n - tot) (BSIZE - off % BSIZE) = m
      have hrest : n - tot = m + (n - (tot + m)) := by omega
      rw [wp_bind]
      unfold wp
      rw [bmap_found ha hip hbn hown]
      show wp _ _ _ _
      simp only [wp_bind, wp_get]
      refine (ih (tot + m) (off + m) (by omega) (by omega)).imp fun dst s' h => ?_
      rw [wp_pure, h.1, h.2, bytes_eq ha hbn (by omega), hrest, List.range_add, List.map_append,
        List.map_map]
      refine ⟨rfl, ?_⟩
      congr 1
      apply List.map_congr_left
      intro i _
      simp only [Function.comp_apply, Nat.add_assoc]
    · rw [if_neg htot, wp_pure, show n - tot = 0 by omega]
      exact ⟨rfl, rfl⟩

/-! ## `writei` -/

/-- The bytes `src 0`, …, `src (n - 1)` have been stored in file `a` from
    position `off` on, for at most `c` blocks. -/
structure Written (sb : Superblock) (F : Set I) (a : I) (src : Nat → Byte) (off n : Nat)
    (disk disk' : Disk) (D D' : I → Dinode) (c : Nat) : Prop where
  image : Image sb disk' F D'
  ext : Ext sb F a disk disk' D D' c
  alloc : ∀ bn, bn * BSIZE < off + n → own disk' F D' (a, slotOf bn) ≠ 0
  bytes : ∀ pos, pos / BSIZE < MAXFILE →
    own disk F D (a, slotOf (pos / BSIZE)) ≠ 0 ∨ off ≤ pos ∧ pos < off + n →
    byteAt disk' (D' a) pos =
      if off ≤ pos ∧ pos < off + n then src (pos - off) else byteAt disk (D a) pos
  same : (∀ bn, bn * BSIZE < off + n → own disk F D (a, slotOf bn) ≠ 0) → D' a = D a

section

variable {disk disk' disk'' : Disk} {D' D'' : I → Dinode} {src : Nat → Byte} {off m n c c' : Nat}

omit [DecidableEq I] in
theorem Written.nil (him : Image sb disk F D)
    (hcov : ∀ bn, bn * BSIZE < off → own disk F D (a, slotOf bn) ≠ 0) :
    Written sb F a src off 0 disk disk D D 0 where
  image := him
  ext := Ext.refl
  alloc bn hbn := hcov bn (by omega)
  bytes pos _ _ := by rw [if_neg (by omega)]
  same _ := rfl

omit [DecidableEq I] in
theorem Written.trans (h : Written sb F a src off m disk disk' D D' c)
    (h' : Written sb F a (fun i => src (m + i)) (off + m) n disk' disk'' D' D'' c') :
    Written sb F a src off (m + n) disk disk'' D D'' (c + c') where
  image := h'.image
  ext := h.ext.trans h'.ext
  alloc bn hbn := h'.alloc bn (by omega)
  bytes pos hpos hor := by
    -- whatever is looked at exists after the first part
    have hor' : own disk' F D' (a, slotOf (pos / BSIZE)) ≠ 0 ∨
        off + m ≤ pos ∧ pos < off + m + n := by
      by_cases hlt : off + m ≤ pos ∧ pos < off + m + n
      · exact Or.inr hlt
      · left
        by_cases h1 : off ≤ pos ∧ pos < off + m
        · exact h.alloc _ (lt_of_le_of_lt (Nat.div_mul_le_self pos BSIZE) (by omega))
        · have hown := hor.resolve_right (by omega)
          rwa [h.ext.own_mono _ hown]
    rw [h'.bytes pos hpos hor']
    by_cases h2 : off + m ≤ pos ∧ pos < off + m + n
    · rw [if_pos h2, if_pos (by omega)]
      show src (m + (pos - (off + m))) = _
      rw [show m + (pos - (off + m)) = pos - off by omega]
    · rw [if_neg h2, h.bytes pos hpos]
      · congr 1
        simp only [eq_iff_iff]
        omega
      · by_cases h1 : off ≤ pos ∧ pos < off + m
        · exact Or.inr h1
        · exact Or.inl (hor.resolve_right (by omega))
  same hcov := by
    have h1 := h.same fun bn hbn => hcov bn (by omega)
    rw [h'.same fun bn hbn => ?_, h1]
    have hne := hcov bn (by omega)
    rwa [h.ext.own_mono _ hne]

omit [DecidableEq I] in
/-- One turn of the loop: `bmap`, then new data in the block. -/
theorem Written.block {b : Nat} (ha : a ∈ F)
    (hm0 : 0 < m) (hm : off % BSIZE + m ≤ BSIZE)
    (hcov : ∀ bn, bn * BSIZE < off → own disk F D (a, slotOf bn) ≠ 0)
    (h : Mapped sb F a (off / BSIZE) disk disk' D D' b) :
    Written sb F a src off m disk
      (update disk' b ((disk' b).setBytes (off % BSIZE) src m)) D D' 1 := by
  obtain ⟨him, hext⟩ := h.image.newData (a := a) (slotOf_ne (off / BSIZE))
    ((disk' b).setBytes (off % BSIZE) src m) (by rw [h.own_eq]; exact h.ne_zero)
  have hsame := own_newData (a := a) h.image (slotOf_ne (off / BSIZE))
    ((disk' b).setBytes (off % BSIZE) src m)
  rw [h.own_eq] at him hext hsame
  refine ⟨him, h.ext.trans hext, ?_, ?_, ?_⟩
  · intro bn hlt
    rw [hsame]
    by_cases hbn' : bn = off / BSIZE
    · rw [hbn', h.own_eq]
      exact h.ne_zero
    · have hne := hcov bn (by simp only [BSIZE] at *; omega)
      rwa [h.ext.own_mono _ hne]
  · intro pos hpos hor
    rw [byteAt_eq ha hpos, hsame]
    by_cases hdiv : pos / BSIZE = off / BSIZE
    · rw [hdiv, h.own_eq, update_self, cell_setBytes _ _ _ _ hm]
      by_cases hin : off ≤ pos ∧ pos < off + m
      · rw [if_pos hin, if_pos (by simp only [BSIZE] at *; omega)]
        congr 1
        simp only [BSIZE] at *
        omega
      · -- the rest of the block, which was there before
        have hown := hor.resolve_right hin
        have hb : own disk F D (a, slotOf (pos / BSIZE)) = b := by
          rw [← h.ext.own_mono _ hown, hdiv, h.own_eq]
        have hdata := h.data _ (slotOf_ne (pos / BSIZE)) hown
        rw [hb] at hdata
        rw [if_neg hin, if_neg (by simp only [BSIZE] at *; omega), hdata, byteAt_eq ha hpos, hb]
    · have hin : ¬ (off ≤ pos ∧ pos < off + m) := by simp only [BSIZE] at *; omega
      have hown := hor.resolve_right hin
      have hmono := h.ext.own_mono _ hown
      -- another block of the same file
      have hne : own disk F D (a, slotOf (pos / BSIZE)) ≠ b := by
        rw [← hmono, ← h.own_eq]
        intro heq
        have hpair := h.image.owns.inj _ _ (by rwa [hmono]) heq
        exact hdiv (slotOf_inj (congrArg Prod.snd hpair))
      rw [if_neg hin, hmono, update_of_ne hne, h.data _ (slotOf_ne _) hown,
        byteAt_eq ha hpos]
  · intro hall
    exact h.same (hall _ (by simp only [BSIZE] at *; omega))

end

/-- How many blocks `n` bytes from position `off` on lie in. -/
def span (off n : Nat) : Nat := if n = 0 then 0 else (off + n - 1) / BSIZE - off / BSIZE + 1

theorem span_step {off n m : Nat} (hn : 0 < n) (hm : min n (BSIZE - off % BSIZE) = m) :
    span off n = 1 + span (off + m) (n - m) := by
  unfold span
  simp only [BSIZE] at *
  rw [if_neg (by omega)]
  split <;> omega

theorem wp_writei_loop {src : Nat → Byte} {n : Nat} (fuel tot off : Nat) (hlog : Logs E s)
    (him : Image sb s.disk F D) (ha : a ∈ F) (hip : (s.icache ip).toDinode = D a)
    (hcov : ∀ bn, bn * BSIZE < off → own s.disk F D (a, slotOf bn) ≠ 0)
    (hmax : off + (n - tot) ≤ MAXFILE * BSIZE) (hfuel : n - tot ≤ fuel)
    (hfull : (∃ bn, bn * BSIZE < off + (n - tot) ∧ own s.disk F D (a, slotOf bn) = 0) →
      free sb.size (bit sb s.disk) < span off (n - tot) + lacksIndirect s.disk F D a →
      E "balloc: out of blocks")
    (hQ : ∀ disk' D', Written sb F a (fun i => src (tot + i)) off (n - tot) s.disk disk' D D'
      (span off (n - tot)) → Q (off + (n - tot)) (s.withFile ip disk' (D' a))) :
    wp (writei_loop sb ip src n fuel tot off) E Q s := by
  induction fuel generalizing s D tot off with
  | zero =>
    have h0 : n - tot = 0 := by omega
    have h := hQ s.disk D (by rw [h0]; exact Written.nil him hcov)
    rw [h0, ← hip, withFile_self] at h
    exact h
  | succ fuel ih =>
    unfold writei_loop
    by_cases htot : tot < n
    · rw [if_pos htot]
      have hmod : off % BSIZE < BSIZE := Nat.mod_lt _ (by decide)
      have hbn : off / BSIZE < MAXFILE := Nat.div_lt_of_lt_mul (by rw [Nat.mul_comm]; omega)
      generalize hm : min (n - tot) (BSIZE - off % BSIZE) = m
      have hspan := span_step (by omega) hm
      have hrest : n - tot - m = n - (tot + m) := by omega
      rw [hrest] at hspan
      rw [wp_bind]
      have hstart : off / BSIZE * BSIZE < off + (n - tot) :=
        lt_of_le_of_lt (Nat.div_mul_le_self off BSIZE) (by omega)
      refine wp_bmap hlog him ha hip hbn (fun h0 h => hfull ⟨_, hstart, h0⟩ (by omega)) ?_
      intro b disk' D' hmap
      simp only [wp_bind, wp_get, withFile_disk]
      refine wp_log_write hlog ?_
      have hblock : Written sb F a (fun i => src (tot + i)) off m s.disk _ D D' 1 :=
        Written.block ha (by omega) (by omega) hcov hmap
      rw [setDisk_eq _ ip, withFile_withFile, withFile_copy]
      have hfree := hblock.ext.free
      refine ih (tot + m) (off + m) hlog hblock.image (withFile_copy ..)
        (fun bn h => hblock.alloc bn h) (by omega) (by omega) ?_ ?_
      · rintro ⟨bn, hbn', h0⟩ hf
        simp only [withFile_disk] at hf h0
        -- a block that is missing now was missing before
        have hend : off + m + (n - (tot + m)) = off + (n - tot) := by omega
        rw [hend] at hbn'
        refine hfull ⟨bn, hbn', ?_⟩ (by omega)
        by_contra hne
        rw [hblock.ext.own_mono _ hne] at h0
        exact hne h0
      · intro disk'' D'' h
        rw [withFile_withFile, show off + m + (n - (tot + m)) = off + (n - tot) by omega]
        refine hQ disk'' D'' ?_
        rw [hspan, show n - tot = m + (n - (tot + m)) by omega]
        refine hblock.trans ?_
        simp only [← Nat.add_assoc]
        exact h
    · rw [if_neg htot, wp_pure]
      have h0 : n - tot = 0 := by omega
      have h := hQ s.disk D (by rw [h0]; exact Written.nil him hcov)
      rw [h0, ← hip, withFile_self] at h
      exact h

end Xv6.Fs
