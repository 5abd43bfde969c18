import Xv6.Fs.ReadWrite

/-! # Truncation

    `itrunc` gives back the blocks of an inode one after the other. While it
    runs, pointers in the indirect block still name blocks that are free
    already, so the state in between is not an `Image`. What holds is
    `Released`: the free map and the table of owners agree once the slots
    given back so far, `R`, are struck out of the table.
-/

namespace Xv6.Fs

open BitRange Ownership Op Function

variable {sb : Superblock} {s : FsState} {E : String → Prop} {I : Type} [DecidableEq I] {F : Set I}
  {a : I} {D : I → Dinode} {ip : Slot} {disk disk' : Disk} {R : Finset Nat}
  {Q : Unit → FsState → Prop}

/-- The table of owners without the slots `R` of file `a`. -/
noncomputable def strike (own : I × Nat → Nat) (a : I) (R : Finset Nat) (κ : I × Nat) : Nat :=
  if κ.1 = a ∧ κ.2 ∈ R then 0 else own κ

theorem strike_empty (own : I × Nat → Nat) (a : I) : strike own a ∅ = own := by
  funext κ
  unfold strike
  rw [if_neg (by simp)]

theorem strike_insert (own : I × Nat → Nat) (a : I) (R : Finset Nat) (k : Nat) :
    strike own a (insert k R) = update (strike own a R) (a, k) 0 := by
  funext ⟨i, j⟩
  by_cases h : (i, j) = (a, k)
  · rw [h, update_self]
    unfold strike
    rw [if_pos (by simp)]
  · rw [update_of_ne h]
    unfold strike
    congr 1
    simp only [Finset.mem_insert, eq_iff_iff]
    constructor
    · rintro ⟨rfl, rfl | hj⟩
      · exact absurd rfl h
      · exact ⟨rfl, hj⟩
    · rintro ⟨rfl, hj⟩
      exact ⟨rfl, Or.inr hj⟩

/-- The slots `R` of file `a` have been given back. -/
structure Released (sb : Superblock) (F : Set I) (a : I) (disk disk' : Disk) (D : I → Dinode)
    (R : Finset Nat) : Prop where
  owns : Owns sb.datastart sb.size (bit sb disk') (strike (own disk F D) a R)
  exact : NoLeak sb disk F D →
    Exact sb.datastart sb.nbits (bit sb disk') (strike (own disk F D) a R)
  data : ∀ x, sb.datastart ≤ x → disk' x = disk x
  dinode : ∀ n, n < sb.ninodes → dinode sb disk' n = dinode sb disk n
  meta_marked : ∀ b, b < sb.datastart → bit sb disk' b = true

theorem Released.start (him : Image sb disk F D) : Released sb F a disk disk D ∅ := by
  refine ⟨?_, fun h => ?_, fun _ _ => rfl, fun _ _ => rfl, him.meta_marked⟩
  · rw [strike_empty]; exact him.owns
  · rw [strike_empty]; exact h

/-- Striking out an empty slot changes nothing. -/
theorem Released.skip (h : Released sb F a disk disk' D R) {k : Nat}
    (h0 : own disk F D (a, k) = 0) : Released sb F a disk disk' D (insert k R) := by
  have hsame : strike (own disk F D) a (insert k R) = strike (own disk F D) a R := by
    rw [strike_insert, update_eq_self_iff]
    unfold strike
    split
    · rfl
    · exact h0.symm
  refine ⟨?_, fun hn => ?_, h.data, h.dinode, h.meta_marked⟩
  · rw [hsame]; exact h.owns
  · rw [hsame]; exact h.exact hn

/-- The block in slot `k` is marked until it is given back. -/
theorem Released.free (h : Released sb F a disk disk' D R) {k : Nat} (hk : k ∉ R)
    (h0 : own disk F D (a, k) ≠ 0) :
    bit sb disk' (own disk F D (a, k)) = true ∧
    Released sb F a disk (setBit sb disk' (own disk F D (a, k)) false) D (insert k R) := by
  have hstrike : strike (own disk F D) a R (a, k) = own disk F D (a, k) :=
    if_neg fun hc => hk hc.2
  have hne : strike (own disk F D) a R (a, k) ≠ 0 := by rwa [hstrike]
  have hrange := h.owns.range _ hne
  have hmark := h.owns.marked _ hne
  rw [hstrike] at hrange hmark
  have hbit : ∀ c, bit sb (setBit sb disk' (own disk F D (a, k)) false) c =
      if c = strike (own disk F D) a R (a, k) then false else bit sb disk' c := by
    intro c
    rw [bit_setBit, hstrike]
  have hlt : own disk F D (a, k) < sb.nbits := lt_of_lt_of_le hrange.2 sb.size_le_nbits
  refine ⟨hmark, h.owns.free hne (fun c _ => hbit c) (strike_insert ..),
    fun hn => (h.exact hn).free h.owns hne (fun c _ => hbit c) (strike_insert ..), ?_, ?_, ?_⟩
  · intro x hx
    rw [setBit_apply_of_datastart_le false hlt hx, h.data x hx]
  · intro n hn
    rw [dinode_setBit hn, h.dinode n hn]
  · intro b hb
    rw [bit_setBit, if_neg (by omega)]
    exact h.meta_marked b hb

omit [DecidableEq I] in
theorem wp_bfree {b : Nat} (hlog : Logs E s) (hb : bit sb s.disk b = true)
    (hQ : Q () { s with disk := setBit sb s.disk b false }) : wp (bfree sb b) E Q s := by
  rw [bfree_eq]
  exact Bytes.wp_bfree hlog hb hQ

/-! ## The loops -/

/-- The state while the loop over `addrs` stands at `i`. -/
def DirectAt (sb : Superblock) (s : FsState) (F : Set I) (a : I) (D : I → Dinode) (ip : Slot)
    (i : Nat) (s' : FsState) : Prop :=
  ∃ disk' d, s' = s.withFile ip disk' d ∧
    Released sb F a s.disk disk' D (Finset.range i) ∧
    (∃ addrs, d = { D a with addrs := addrs }) ∧
    (∀ k, k < i → d.addr k = 0) ∧ (∀ k, i ≤ k → d.addr k = (D a).addr k)

theorem wp_itrunc_direct (hlog : Logs E s) (him : Image sb s.disk F D) (ha : a ∈ F)
    (hip : (s.icache ip).toDinode = D a) :
    wp (itrunc_direct sb ip) E (fun _ s' => DirectAt sb s F a D ip NDIRECT s') s := by
  refine wp_loop_zero (DirectAt sb s F a D ip) ?_ ?_
  · exact ⟨s.disk, D a, by rw [← hip, withFile_self], Released.start him, ⟨_, rfl⟩,
      fun k hk => absurd hk (Nat.not_lt_zero k), fun _ _ => rfl⟩
  · rintro i s' hi ⟨disk', d, rfl, hrel, ⟨addrs, hd⟩, hlow, hhigh⟩
    simp only [wp_bind, wp_get, withFile_copy]
    have hown : own s.disk F D (a, i) = d.addr i := by
      rw [own_eq ha (lt_trans hi (by decide)), ptr_of_le hi.le, hhigh i le_rfl]
    by_cases h0 : d.addr i = 0
    · rw [if_pos h0, wp_pure]
      refine ⟨disk', d, rfl, ?_, ⟨addrs, hd⟩, fun k hk => ?_, fun k hk => hhigh k (by omega)⟩
      · rw [Finset.range_add_one]
        exact hrel.skip (by rw [hown, h0])
      · by_cases hki : k = i
        · rw [hki, h0]
        · exact hlow k (by omega)
    · rw [if_neg h0]
      obtain ⟨hmark, hrel'⟩ := hrel.free (k := i) (by simp) (by rwa [hown])
      rw [hown] at hmark hrel'
      rw [wp_bind]
      refine wp_bfree hlog hmark ?_
      rw [setDisk_eq _ ip]
      simp only [wp_modify, setCopy_eq, withFile_withFile, withFile_copy, withFile_disk]
      refine ⟨_, _, rfl, ?_, ⟨_, by rw [hd]; rfl⟩, fun k hk => ?_, fun k hk => ?_⟩
      · rw [Finset.range_add_one]
        exact hrel'
      · by_cases hki : k = i
        · rw [hki, Dinode.addr_setAddr_self _ hi.le (by decide)]
        · rw [Dinode.addr_setAddr_ne _ _ hki, hlow k (by omega)]
      · rw [Dinode.addr_setAddr_ne _ _ (by omega), hhigh k (by omega)]

/-- The slots given back when the loop over the indirect block stands at `j`. -/
def freedSlots (j : Nat) : Finset Nat :=
  Finset.range NDIRECT ∪ (Finset.range j).image (NDIRECT + 1 + ·)

theorem freedSlots_zero : freedSlots 0 = Finset.range NDIRECT := by
  unfold freedSlots
  rw [Finset.range_zero, Finset.image_empty, Finset.union_empty]

theorem freedSlots_succ (j : Nat) :
    freedSlots (j + 1) = insert (NDIRECT + 1 + j) (freedSlots j) := by
  unfold freedSlots
  rw [Finset.range_add_one (n := j), Finset.image_insert, Finset.union_insert]

theorem not_mem_freedSlots {j : Nat} : NDIRECT + 1 + j ∉ freedSlots j ∧ NDIRECT ∉ freedSlots j := by
  unfold freedSlots
  simp only [Finset.mem_union, Finset.mem_range, Finset.mem_image, not_or, not_exists, not_and]
  refine ⟨⟨by omega, fun x hx => by omega⟩, ⟨by omega, fun x hx => by omega⟩⟩

/-- All slots of the file have been given back. -/
def AllFreed (sb : Superblock) (s : FsState) (F : Set I) (a : I) (D : I → Dinode) (ip : Slot)
    (s' : FsState) : Prop :=
  ∃ disk' d, s' = s.withFile ip disk' d ∧
    Released sb F a s.disk disk' D (Finset.range NPTR) ∧
    (∃ addrs, d = { D a with addrs := addrs }) ∧ (∀ k, k ≤ NDIRECT → d.addr k = 0)

theorem insert_freedSlots : insert NDIRECT (freedSlots NINDIRECT) = Finset.range NPTR := by
  decide +kernel

/-- With the inode `d` that the first loop leaves behind. -/
theorem wp_itrunc_indirect (hlog : Logs E s) (ha : a ∈ F)
    {s' : FsState} (hs' : DirectAt sb s F a D ip NDIRECT s') :
    wp (itrunc_indirect sb ip) E (fun _ s'' => AllFreed sb s F a D ip s'') s' := by
  obtain ⟨disk', d, rfl, hrel, ⟨addrs, hd⟩, hlow, hhigh⟩ := hs'
  have h12 : d.addr NDIRECT = (D a).addr NDIRECT := hhigh NDIRECT le_rfl
  unfold itrunc_indirect
  simp only [wp_bind, wp_get, withFile_copy, withFile_disk]
  by_cases h0 : d.addr NDIRECT = 0
  · -- no indirect block: the remaining slots are empty
    rw [if_pos h0, wp_pure]
    refine ⟨disk', d, rfl, ?_, ⟨addrs, hd⟩, fun k hk => ?_⟩
    · have hskip : ∀ j, Released sb F a s.disk disk' D (Finset.range (NDIRECT + j)) := by
        intro j
        induction j with
        | zero => exact hrel
        | succ j ih =>
          rw [← Nat.add_assoc, Finset.range_add_one]
          refine ih.skip ?_
          by_cases hlt : NDIRECT + j < NPTR
          · rw [own_eq ha hlt]
            by_cases hj : j = 0
            · rw [hj, Nat.add_zero, ptr_of_le le_rfl, ← h12, h0]
            · exact ptr_eq_zero (by omega) (by rw [← h12, h0])
          · exact if_neg fun h => hlt h.2
      exact hskip (1 + NINDIRECT)
    · by_cases hk' : k = NDIRECT
      · rw [hk', h0]
      · exact hlow k (by omega)
  · rw [if_neg h0]
    have hne : (D a).addr NDIRECT ≠ 0 := by rwa [← h12]
    have hown12 : own s.disk F D (a, NDIRECT) = d.addr NDIRECT := by rw [own_indirect ha, h12]
    -- the indirect block itself is not touched while its entries are freed
    have hdata : disk' (d.addr NDIRECT) = s.disk (d.addr NDIRECT) := by
      have hst : strike (own s.disk F D) a (Finset.range NDIRECT) (a, NDIRECT) =
          d.addr NDIRECT := by
        unfold strike
        rw [if_neg (by simp), hown12]
      have hrange := hrel.owns.range (a, NDIRECT) (by rw [hst]; exact h0)
      rw [hst] at hrange
      exact hrel.data _ hrange.1
    have hentry : ∀ j, j < NINDIRECT → own s.disk F D (a, NDIRECT + 1 + j) =
        ((disk' (d.addr NDIRECT)).word j).toNat := by
      intro j hj
      rw [own_eq ha (by simp only [NPTR]; omega), ptr_of_lt (by omega) hne, hdata, h12,
        Nat.add_sub_cancel_left]
    simp only [wp_bind]
    refine (wp_loop_zero (fun j s'' => ∃ disk'', s'' = s.withFile ip disk'' d ∧
      Released sb F a s.disk disk'' D (freedSlots j)) ⟨disk', rfl, by rw [freedSlots_zero]; exact hrel⟩
      ?_).imp ?_
    · rintro j s'' hj ⟨disk'', rfl, hrel'⟩
      rw [freedSlots_succ]
      by_cases hz : ((disk' (d.addr NDIRECT)).word j).toNat = 0
      · rw [if_pos hz, wp_pure]
        exact ⟨disk'', rfl, hrel'.skip (by rw [hentry j hj, hz])⟩
      · rw [if_neg hz]
        obtain ⟨hmark, hrel''⟩ := hrel'.free not_mem_freedSlots.1 (by rwa [hentry j hj])
        rw [hentry j hj] at hmark hrel''
        refine wp_bfree hlog hmark ⟨_, ?_, hrel''⟩
        rw [setDisk_eq _ ip, withFile_withFile, withFile_copy, withFile_disk]
    · rintro _ s'' ⟨disk'', rfl, hrel'⟩
      obtain ⟨hmark, hrel''⟩ := hrel'.free not_mem_freedSlots.2 (by rw [hown12]; exact h0)
      rw [hown12] at hmark hrel''
      refine wp_bfree hlog hmark ?_
      rw [setDisk_eq _ ip]
      simp only [wp_modify, setCopy_eq, withFile_withFile, withFile_copy, withFile_disk]
      refine ⟨_, _, rfl, by rw [← insert_freedSlots]; exact hrel'', ⟨_, by rw [hd]; rfl⟩, fun k hk => ?_⟩
      by_cases hk' : k = NDIRECT
      · rw [hk', Dinode.addr_setAddr_self _ le_rfl (by decide)]
      · rw [Dinode.addr_setAddr_ne _ _ hk', hlow k (by omega)]

/-! ## The whole function -/

/-- `itrunc` gave back all blocks of file `a`, inode number `inum`, whose
    inode is now `d`. -/
structure Truncated (sb : Superblock) (F : Set I) (a : I) (inum : Nat) (disk disk' : Disk)
    (D : I → Dinode) (d : Dinode) : Prop where
  image : Image sb disk' (F \ {a}) D
  noleak : NoLeak sb disk F D → NoLeak sb disk' (F \ {a}) D
  fields : ∃ addrs, d = { D a with addrs := addrs, size := 0 }
  own_others : ∀ i k, i ≠ a → own disk' (F \ {a}) D (i, k) = own disk F D (i, k)
  contents_others : ∀ i ∈ F, i ≠ a → contents disk' (D i) = contents disk (D i)
  dinode_others : ∀ m, m < sb.ninodes → m ≠ inum → dinode sb disk' m = dinode sb disk m
  dinode_self : dinode sb disk' inum = d

omit [DecidableEq I] in
/-- Contents depend on the data blocks only. -/
theorem Image.contents_congr (him : Image sb disk F D)
    (hdata : ∀ x, sb.datastart ≤ x → disk' x = disk x) {i : I} (hi : i ∈ F) :
    contents disk' (D i) = contents disk (D i) := by
  unfold contents
  apply List.map_congr_left
  intro pos hpos
  obtain ⟨hbn, hown⟩ := him.nohole i hi (pos / BSIZE)
    (lt_of_le_of_lt (Nat.div_mul_le_self pos BSIZE) (List.mem_range.mp hpos))
  have hsame : own disk' F D = own disk F D := by
    refine own_congr (fun _ _ => rfl) fun j hj h => ?_
    rw [← own_indirect hj] at h ⊢
    exact hdata _ (him.datastart_le h)
  rw [byteAt_eq hi hbn, byteAt_eq hi hbn, hsame, hdata _ (him.datastart_le hown)]

/-- With all slots of `a` struck out, the table is that of the other files. -/
theorem Released.own_eq (h : Released sb F a disk disk' D R) (him : Image sb disk F D)
    (hR : R = Finset.range NPTR) :
    own disk' (F \ {a}) D = strike (own disk F D) a R := by
  funext ⟨i, k⟩
  unfold strike
  by_cases hia : i = a
  · rw [own_of_not_mem (by simp [hia])]
    by_cases hk : k ∈ R
    · rw [if_pos ⟨hia, hk⟩]
    · rw [if_neg fun hc => hk hc.2]
      refine (if_neg fun hc => hk ?_).symm
      rw [hR]
      exact Finset.mem_range.mpr hc.2
  · rw [if_neg fun hc => hia hc.1]
    by_cases hF : i ∈ F ∧ k < NPTR
    · rw [Fs.own_eq (show i ∈ F \ {a} from ⟨hF.1, hia⟩) hF.2, Fs.own_eq hF.1 hF.2]
      refine ptr_congr k rfl fun hne => ?_
      rw [← own_indirect hF.1] at hne ⊢
      exact h.data _ (him.datastart_le hne)
    · unfold own
      rw [if_neg hF, if_neg fun hc => hF ⟨hc.1.1, hc.2⟩]

theorem wp_itrunc (hlog : Logs E s) (him : Image sb s.disk F D) (ha : a ∈ F)
    (hip : (s.icache ip).toDinode = D a) (hmn : (s.icache ip).inum < sb.ninodes)
    (hQ : ∀ disk' d, Truncated sb F a (s.icache ip).inum s.disk disk' D d →
      Q () (s.withFile ip disk' d)) : wp (itrunc sb ip) E Q s := by
  unfold itrunc
  simp only [wp_bind]
  refine (wp_itrunc_direct hlog him ha hip).imp fun _ s1 hs1 => ?_
  have hlog1 : Logs E s1 := by
    obtain ⟨disk', d, rfl, _⟩ := hs1
    exact hlog
  refine (wp_itrunc_indirect hlog ha hs1).imp ?_
  rintro _ s2 ⟨disk', d, rfl, hrel, ⟨addrs, hd⟩, hzero⟩
  simp only [wp_modify, setCopy_eq, withFile_withFile, withFile_copy, withFile_disk]
  refine wp_iupdate hlog ?_
  simp only [withFile_withFile, withFile_copy, withFile_disk, withFile_inum]
  refine hQ _ _ ?_
  have hown := hrel.own_eq him rfl
  have him' : Image sb disk' (F \ {a}) D := by
    refine ⟨by rw [hown]; exact hrel.owns, ?_, hrel.meta_marked⟩
    intro i hi bn hbn
    obtain ⟨hlt, hne⟩ := him.nohole i hi.1 bn hbn
    refine ⟨hlt, ?_⟩
    rw [hown]
    unfold strike
    rwa [if_neg fun hc => hi.2 hc.1]
  refine ⟨him'.setDinode hmn _, fun hn => ?_, ⟨addrs, by rw [hd]⟩, fun i k hia => ?_, ?_, ?_, ?_⟩
  · refine NoLeak.setDinode ?_ him' hmn _
    unfold NoLeak
    rw [hown]
    exact hrel.exact hn
  · rw [own_setDinode him' hmn, hown]
    exact if_neg fun hc => hia hc.1
  · intro i hi hia
    refine him.contents_congr (fun x hx => ?_) hi
    rw [setDinode_apply_of_datastart_le _ hmn hx, hrel.data x hx]
  · intro m hm hne
    rw [dinode_setDinode_ne _ hne, hrel.dinode m hm]
  · rw [dinode_setDinode_self]

end Xv6.Fs
