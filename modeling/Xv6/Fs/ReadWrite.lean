import Xv6.Fs.Contents

/-! # Files are byte strings

    `readi` and `writei` on inodes that are not devices, in terms of the byte
    string `contents`: a read returns a slice, a write overwrites a slice and
    extends the string as needed, and neither touches another file. The
    inode on the disk stays equal to the cached copy if it was before.
-/

namespace Xv6.Fs

open BitRange Ownership Op Function

/-! ## Byte strings -/

/-- `l` with `bs` written over it from position `off` on. -/
def splice {α : Type} (l : List α) (off : Nat) (bs : List α) : List α :=
  l.take off ++ bs ++ l.drop (off + bs.length)

theorem splice_map_range {α : Type} (f g : Nat → α) {size off n : Nat} (h : off ≤ size) :
    splice ((List.range size).map f) off ((List.range n).map g) =
      (List.range (max size (off + n))).map fun pos =>
        if off ≤ pos ∧ pos < off + n then g (pos - off) else f pos := by
  unfold splice
  apply List.ext_getElem
  · simp only [List.length_append, List.length_take, List.length_map, List.length_range,
      List.length_drop]
    omega
  · intro pos h1 h2
    simp only [List.length_map, List.length_range] at h2
    by_cases hlo : pos < off
    · rw [List.getElem_append_left (by simp; omega), List.getElem_append_left (by simp; omega)]
      simp only [List.getElem_take, List.getElem_map, List.getElem_range]
      rw [if_neg (by omega)]
    · by_cases hhi : pos < off + n
      · rw [List.getElem_append_left (by simp; omega), List.getElem_append_right (by simp; omega)]
        simp only [List.length_take, List.length_map, List.length_range, List.getElem_map,
          List.getElem_range]
        rw [if_pos (by omega), Nat.min_eq_left h]
      · rw [List.getElem_append_right (by simp; omega)]
        simp only [List.length_append, List.length_take, List.length_map, List.length_range,
          List.getElem_drop, List.getElem_map, List.getElem_range]
        rw [if_neg (by omega)]
        congr 1
        omega

theorem slice_map_range {α : Type} (f : Nat → α) (size off n : Nat) :
    (((List.range size).map f).drop off).take n =
      (List.range (min n (size - off))).map fun i => f (off + i) := by
  apply List.ext_getElem
  · simp
  · intro i h1 h2
    simp

variable {sb : Superblock} {s : FsState} {E : String → Prop} {I : Type} {F : Set I} {a : I}
  {D : I → Dinode} {ip : Slot} {src : Nat → Byte} {D' : I → Dinode} {inum off n : Nat}

/-! ## Reading -/

/-- `off + n` overflows 32 bits. -/
theorem lt_wrap_iff (off n : BitVec 32) : off + n < off ↔ 2 ^ 32 ≤ off.toNat + n.toNat := by
  have h1 := off.isLt
  have h2 := n.isLt
  rw [BitVec.lt_def, BitVec.toNat_add]
  omega

/-- `readi` returns -1 or a slice of the contents, and changes nothing. -/
theorem wp_readi_blocks (him : Image sb s.disk F D) (ha : a ∈ F)
    (hip : (s.icache ip).toDinode = D a) (off n : BitVec 32) :
    wp (readi_blocks sb ip off n) E (fun r s' => s' = s ∧
      r = if (D a).size.toNat < off.toNat ∨ 2 ^ 32 ≤ off.toNat + n.toNat then none
        else some (((contents s.disk (D a)).drop off.toNat).take n.toNat)) s := by
  have hsz : (s.icache ip).size = (D a).size := by rw [hip]
  unfold readi_blocks
  simp only [wp_bind, wp_get, hsz, gt_iff_lt, lt_wrap_iff, BitVec.lt_def (x := (D a).size)]
  by_cases hbad : (D a).size.toNat < off.toNat ∨ 2 ^ 32 ≤ off.toNat + n.toNat
  · rw [if_pos hbad, if_pos hbad]
    exact ⟨rfl, rfl⟩
  · rw [if_neg hbad, if_neg hbad]
    rw [not_or] at hbad
    have hadd : (off + n).toNat = off.toNat + n.toNat := by
      rw [BitVec.toNat_add, Nat.mod_eq_of_lt (by omega)]
    -- the number of bytes after clipping at the end of the file
    have hclip : (if (D a).size.toNat < (off + n).toNat then (D a).size - off else n).toNat =
        min n.toNat ((D a).size.toNat - off.toNat) := by
      rw [hadd]
      split
      · rw [BitVec.toNat_sub_of_le (by rw [BitVec.le_def]; omega)]
        omega
      · omega
    simp only [wp_bind, wp_pure]
    refine (wp_readi_loop him ha hip _ 0 off.toNat (by omega) (by omega)).imp fun dst s' h => ?_
    refine ⟨h.1, ?_⟩
    unfold contents
    rw [h.2, slice_map_range, Nat.sub_zero, hclip]

/-! ## Writing -/

/-- `writei` wrote `n` bytes of `src` to file `a`, inode number `inum`, from
    position `off` on. -/
structure Wrote (sb : Superblock) (F : Set I) (a : I) (inum : Nat) (src : Nat → Byte)
    (off n : Nat) (disk disk' : Disk) (D D' : I → Dinode) : Prop where
  image : Image sb disk' F D'
  fields : ∃ addrs size, D' a = { D a with addrs := addrs, size := size }
  others : ∀ i, i ≠ a → D' i = D i
  own_others : ∀ i k, i ≠ a → own disk' F D' (i, k) = own disk F D (i, k)
  own_mono : ∀ k, own disk F D (a, k) ≠ 0 → own disk' F D' (a, k) = own disk F D (a, k)
  contents_eq : contents disk' (D' a) =
    splice (contents disk (D a)) off ((List.range n).map src)
  contents_others : ∀ i ∈ F, i ≠ a → contents disk' (D i) = contents disk (D i)
  noleak : NoLeak sb disk F D → NoLeak sb disk' F D'
  dinode_others : ∀ m, m < sb.ninodes → m ≠ inum → dinode sb disk' m = dinode sb disk m
  dinode_self : dinode sb disk inum = D a → dinode sb disk' inum = D' a
  free : free sb.size (bit sb disk) ≤ free sb.size (bit sb disk') + (span off n + 1)

theorem lacksIndirect_le (disk : Disk) (F : Set I) (D : I → Dinode) (a : I) :
    lacksIndirect disk F D a ≤ 1 := by
  unfold lacksIndirect
  split <;> omega

/-- What the loop of `writei` wrote, as contents. -/
theorem Written.contents_eq {disk disk' : Disk} {off n c : Nat}
    (h : Written sb F a src off n disk disk' D D' c) (him : Image sb disk F D) (ha : a ∈ F)
    (hoff : off ≤ (D a).size.toNat) (hmax : off + n ≤ MAXFILE * BSIZE) :
    (List.range (max (D a).size.toNat (off + n))).map (byteAt disk' (D' a)) =
      splice (contents disk (D a)) off ((List.range n).map src) := by
  have hsize := him.size_le ha
  unfold contents
  rw [splice_map_range _ _ hoff]
  apply List.map_congr_left
  intro pos hpos
  rw [List.mem_range] at hpos
  refine h.bytes pos (Nat.div_lt_of_lt_mul (by rw [Nat.mul_comm]; omega)) ?_
  by_cases hin : off ≤ pos ∧ pos < off + n
  · exact Or.inr hin
  · exact Or.inl (him.nohole a ha _ (lt_of_le_of_lt (Nat.div_mul_le_self pos BSIZE)
      (by omega))).2

/-- The file did not grow: the inode is as before. -/
theorem Wrote.of_inside {disk disk' : Disk}
    (h : Written sb F a src off n disk disk' D D' (span off n)) (him : Image sb disk F D)
    (ha : a ∈ F) (hin : off + n ≤ (D a).size.toNat) (hmn : inum < sb.ninodes) :
    Wrote sb F a inum src off n disk disk' D D' := by
  have hsame : D' a = D a := h.same fun bn hbn => (him.nohole a ha bn (by omega)).2
  have hmax := him.size_le ha
  have hfree := h.ext.free
  have hlack := lacksIndirect_le disk F D a
  refine ⟨h.image, ⟨_, _, hsame⟩, h.ext.others, h.ext.own_others, h.ext.own_mono, ?_, ?_,
    h.ext.noleak, fun m hm _ => h.ext.dinode m hm, fun heq => ?_, by omega⟩
  · rw [← h.contents_eq him ha (by omega) (by omega), Nat.max_eq_left hin, contents, hsame]
  · intro i hi hia
    rw [← h.ext.others i hia, h.ext.contents_others him hia hi, h.ext.others i hia]
  · rw [h.ext.dinode inum hmn, heq, hsame]

variable [DecidableEq I]

/-- The file grew: `iupdate` stores the inode with its new size. -/
theorem Wrote.of_grown {disk disk' : Disk}
    (h : Written sb F a src off n disk disk' D D' (span off n)) (him : Image sb disk F D)
    (ha : a ∈ F) (hoff : off ≤ (D a).size.toNat) (hmax : off + n ≤ MAXFILE * BSIZE)
    (hgrow : (D a).size.toNat < off + n) (hmn : inum < sb.ninodes) :
    let d : Dinode := { D' a with size := BitVec.ofNat 32 (off + n) }
    Wrote sb F a inum src off n disk (setDinode sb disk' inum d) D (update D' a d) := by
  intro d
  have hd : d.size.toNat = off + n := by
    show (BitVec.ofNat 32 (off + n)).toNat = off + n
    rw [BitVec.toNat_ofNat, Nat.mod_eq_of_lt]
    simp only [MAXFILE, NDIRECT, NINDIRECT, BSIZE] at hmax
    omega
  have hcov : ∀ bn, bn * BSIZE < off + n → bn < MAXFILE := fun bn hbn =>
    Nat.lt_of_mul_lt_mul_right (lt_of_lt_of_le hbn hmax)
  obtain ⟨him1, hown1⟩ := h.image.setFields (a := a) (d := d) rfl
    (fun bn hbn => ⟨hcov bn (by omega), h.alloc bn (by omega)⟩)
  have hself : update D' a d a = d := update_self _ _ _
  have hothers : ∀ i, i ≠ a → update D' a d i = D i := fun i hi => by
    rw [update_of_ne hi, h.ext.others i hi]
  have hbit : ∀ b, bit sb (setDinode sb disk' inum d) b = bit sb disk' b :=
    bit_setDinode d hmn
  have hfree := h.ext.free
  have hlack := lacksIndirect_le disk F D a
  -- bytes are read through the same pointers as before the `iupdate`
  have hbyte : ∀ i ∈ F, ∀ pos, pos < (update D' a d i).size.toNat →
      byteAt (setDinode sb disk' inum d) (update D' a d i) pos =
        byteAt disk' (D' i) pos := by
    intro i hi pos hpos
    obtain ⟨hbn, hne⟩ := him1.nohole i hi (pos / BSIZE)
      (lt_of_le_of_lt (Nat.div_mul_le_self pos BSIZE) hpos)
    rw [byteAt_setDinode him1 hmn d hi hbn hne, byteAt_eq hi hbn, hown1, byteAt_eq hi hbn]
  refine ⟨him1.setDinode hmn d, ?_, hothers, fun i k hia => ?_, fun k hk => ?_, ?_, ?_,
    fun hn => ?_, ?_, ?_, ?_⟩
  · obtain ⟨addrs, hx⟩ := h.ext.fields
    exact ⟨addrs, BitVec.ofNat 32 (off + n), by rw [hself]; simp only [d, hx]⟩
  · rw [own_setDinode him1 hmn, hown1, h.ext.own_others i k hia]
  · rw [own_setDinode him1 hmn, hown1, h.ext.own_mono k hk]
  · rw [← h.contents_eq him ha hoff hmax, Nat.max_eq_right hgrow.le, contents]
    have hlen : (update D' a d a).size.toNat = off + n := by rw [hself, hd]
    rw [hlen]
    apply List.map_congr_left
    intro pos hpos
    exact hbyte a ha pos (by rw [hlen]; exact List.mem_range.mp hpos)
  · intro i hi hia
    rw [← h.ext.contents_others him hia hi, h.ext.others i hia, contents, contents]
    apply List.map_congr_left
    intro pos hpos
    have := hbyte i hi pos (by rw [hothers i hia]; exact List.mem_range.mp hpos)
    rwa [hothers i hia, h.ext.others i hia] at this
  · refine Exact.congr (h.ext.noleak hn) (fun κ => ?_) fun b _ => hbit b
    rw [own_setDinode him1 hmn, hown1]
  · intro m hm hne
    rw [dinode_setDinode_ne d hne, h.ext.dinode m hm]
  · intro _
    rw [dinode_setDinode_self, hself]
  · have hsame : Ownership.free sb.size (bit sb (setDinode sb disk' inum d)) =
        Ownership.free sb.size (bit sb disk') := congrArg _ (funext hbit)
    omega

theorem wp_iupdate {Q : Unit → FsState → Prop} (hlog : Logs E s)
    (hQ : Q () (s.withFile ip (setDinode sb s.disk (s.icache ip).inum (s.icache ip).toDinode)
      (s.icache ip).toDinode)) : wp (iupdate sb ip) E Q s := by
  unfold iupdate
  simp only [wp_bind, wp_get]
  refine wp_log_write hlog ?_
  rw [setDisk_eq _ ip]
  exact hQ

/-- `writei` returns -1 and changes nothing, or it returns `n` and has written
    the `n` bytes. -/
theorem wp_writei_blocks {Q : Option (BitVec 32) → FsState → Prop} (hlog : Logs E s)
    (him : Image sb s.disk F D) (ha : a ∈ F) (hip : (s.icache ip).toDinode = D a)
    (hmn : (s.icache ip).inum < sb.ninodes) (off n : BitVec 32)
    (hfull : off.toNat ≤ (D a).size.toNat → off.toNat + n.toNat ≤ MAXFILE * BSIZE →
      ∀ bn, (D a).size.toNat ≤ bn * BSIZE → bn * BSIZE < off.toNat + n.toNat →
      free sb.size (bit sb s.disk) < span off.toNat n.toNat + 1 → E "balloc: out of blocks")
    (hbad : (D a).size.toNat < off.toNat ∨ MAXFILE * BSIZE < off.toNat + n.toNat → Q none s)
    (hgood : ∀ disk' D', off.toNat ≤ (D a).size.toNat →
      off.toNat + n.toNat ≤ MAXFILE * BSIZE →
      Wrote sb F a (s.icache ip).inum src off.toNat n.toNat s.disk disk' D D' →
      Q (some n) (s.withFile ip disk' (D' a))) : wp (writei_blocks sb ip src off n) E Q s := by
  have hsz : (s.icache ip).size = (D a).size := by rw [hip]
  have hMAX : (BitVec.ofNat 32 (MAXFILE * BSIZE)).toNat = MAXFILE * BSIZE := by decide
  have hlt : MAXFILE * BSIZE < 2 ^ 32 := by decide
  unfold writei_blocks
  simp only [wp_bind, wp_get, hsz, gt_iff_lt, lt_wrap_iff]
  simp only [BitVec.lt_def, hMAX]
  by_cases hoff : (D a).size.toNat < off.toNat ∨ 2 ^ 32 ≤ off.toNat + n.toNat
  · rw [if_pos hoff, wp_pure]
    exact hbad (by omega)
  · rw [if_neg hoff]
    rw [not_or] at hoff
    rw [BitVec.toNat_add, Nat.mod_eq_of_lt (by omega)]
    by_cases hmax : MAXFILE * BSIZE < off.toNat + n.toNat
    · rw [if_pos hmax, wp_pure]
      exact hbad (Or.inr hmax)
    · rw [if_neg hmax]
      have hlack := lacksIndirect_le s.disk F D a
      simp only [wp_bind]
      have hle : off.toNat ≤ (D a).size.toNat := by omega
      refine wp_writei_loop n.toNat 0 off.toNat hlog him ha hip
        (fun bn hbn => (him.nohole a ha bn (lt_of_lt_of_le hbn hle)).2) (by omega) (by omega)
        ?_ ?_
      · rintro ⟨bn, hbn, h0⟩ h
        rw [Nat.sub_zero] at h hbn
        refine hfull hle (by omega) bn ?_ hbn (by omega)
        by_contra hin
        exact (him.nohole a ha bn (not_le.mp hin)).2 h0
      intro disk' D' hw
      simp only [Nat.zero_add, Nat.sub_zero] at hw ⊢
      have hsize' : (D' a).size = (D a).size := hw.ext.size_eq a
      have hsz' : ((s.withFile ip disk' (D' a)).icache ip).size = (D a).size := by
        rw [withFile_copy, hsize']
      simp only [wp_get, hsz']
      by_cases hgrow : 0 < n.toNat ∧ (D a).size.toNat < off.toNat + n.toNat
      · have hpos : (0 : BitVec 32).toNat < n.toNat := by simpa using hgrow.1
        rw [if_pos ⟨hpos, hgrow.2⟩]
        simp only [wp_bind, wp_modify, setCopy_eq, withFile_withFile, withFile_copy,
          withFile_disk]
        refine wp_iupdate hlog ?_
        have hwrote := Wrote.of_grown hw him ha (by omega) (by omega) hgrow.2 hmn
        have h := hgood _ _ (by omega) (by omega) hwrote
        rw [update_self] at h
        simpa using h
      · have hpos : ¬ ((0 : BitVec 32).toNat < n.toNat ∧
            (D a).size.toNat < off.toNat + n.toNat) := by simpa using hgrow
        rw [if_neg hpos]
        simp only [wp_pure]
        exact hgood _ _ (by omega) (by omega) (Wrote.of_inside hw him ha (by omega) hmn)

end Xv6.Fs
