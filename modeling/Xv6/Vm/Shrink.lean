import Xv6.Vm.Dealloc

/-! # Shrinking and freeing an address space

    `deallocuvm` unmaps the pages of a range and gives their frames back to
    the pool; that it jumps over the pages of an absent page table makes no
    difference. `freevm` gives back all frames of an address space.
-/

namespace Xv6.Vm

open Op Function

variable {L : Layout} {R : Type} {r : R → Option Nat} {A : Set Nat} {hand : List Nat}
  {m m' m'' : Phys} {d v lo hi : Nat} {E : String → Prop}

/-! ## `deallocuvm` -/

/-- No page from `lo` up to `hi` is mapped any more. -/
def cut (ptes : Nat → Option (BitVec 32)) (lo hi v : Nat) : Option (BitVec 32) :=
  if lo ≤ v ∧ v < hi then none else ptes v

theorem cut_self (ptes : Nat → Option (BitVec 32)) (lo : Nat) : cut ptes lo lo = ptes := by
  funext v
  unfold cut
  rw [if_neg (by omega)]

theorem cut_succ (ptes : Nat → Option (BitVec 32)) {k : Nat} (hk : lo ≤ k) :
    update (cut ptes lo k) k none = cut ptes lo (k + 1) := by
  funext u
  unfold cut
  by_cases hu : u = k
  · subst hu
    rw [update_self, if_pos (by omega)]
  · rw [update_of_ne hu]
    exact if_congr (by omega) rfl rfl

/-- Frames of user pages have gone back to the pool. -/
structure Unmapped (A : Set Nat) (r : R → Option Nat) (hand : List Nat) (d : Nat)
    (ptes : Nat → Option (BitVec 32)) (m m' : Phys) : Prop where
  space : Space A r hand d m'
  pte : pte m' d = ptes
  table : table m' d = table m d
  page : ∀ f, f ≠ d → (∀ i, Vm.table m d i ≠ some f) → f ∉ m'.free → m'.page f = m.page f
  free : m.free <:+ m'.free

theorem Unmapped.trans {ptes ptes' : Nat → Option (BitVec 32)}
    (h : Unmapped A r hand d ptes m m') (h' : Unmapped A r hand d ptes' m' m'') :
    Unmapped A r hand d ptes' m m'' where
  space := h'.space
  pte := h'.pte
  table := h'.table.trans h.table
  page f hfd hft hff := by
    rw [h'.page f hfd (by rw [h.table]; exact hft) hff]
    exact h.page f hfd hft fun hf => hff (h'.free.subset hf)
  free := h.free.trans h'.free

/-- Unmapping page `v` and freeing its frame. -/
theorem Space.release (h : Space A r hand d m) {t : Nat} (ht : table m d (v / 1024) = some t)
    (hv : v < KERNPAGE) {w : BitVec 32} (hw : pte m d v = some w) :
    Unmapped A r hand d (update (pte m d) v none) m
      (({ m.setPage (frame w) junk with free := frame w :: m.free } : Phys).setPage t
        ((m.page t).setWord (v % 1024) 0)) := by
  have hk : v % 1024 < 1024 := Nat.mod_lt _ (by decide)
  obtain ⟨htab, hpte⟩ := h.tree.store ht hk 0
  rw [page_index] at hpte
  have hw' : pte m d (1024 * (v / 1024) + v % 1024) = some w := by rwa [page_index]
  have hspace := h.unmap ht hk (by rwa [page_index]) hw'
  obtain ⟨hfd, hft⟩ := h.user_not_tree hv hw
  have htf : t ≠ frame w := fun he => hft _ (he ▸ ht)
  -- the two stores are to different frames
  have hcomm : (m.setPage (frame w) junk).setPage t ((m.page t).setWord (v % 1024) 0) =
      (m.setPage t ((m.page t).setWord (v % 1024) 0)).setPage (frame w) junk := by
    unfold Phys.setPage
    simp only [update_comm htf]
  have hpages : ({ m.setPage (frame w) junk with free := frame w :: m.free } : Phys).setPage t
      ((m.page t).setWord (v % 1024) 0) =
      { (m.setPage t ((m.page t).setWord (v % 1024) 0)).setPage (frame w) junk with
        free := frame w :: m.free } := by
    rw [← hcomm]
    rfl
  rw [hpages]
  have hft' : ∀ i, table (m.setPage t ((m.page t).setWord (v % 1024) 0)) d i ≠ some (frame w) := by
    rw [htab]
    exact hft
  obtain ⟨htab2, hpte2, hown2⟩ := own_setPage hfd hft' junk
  refine ⟨?_, hpte2.trans hpte, htab2.trans htab, ?_, List.suffix_cons ..⟩
  · show Allotment A (Sum.elim (own _ d) r) (hand ++ frame w :: m.free)
    have hsame : own { (m.setPage t ((m.page t).setWord (v % 1024) 0)).setPage (frame w) junk with
        free := frame w :: m.free } d = own (m.setPage t ((m.page t).setWord (v % 1024) 0)) d :=
      hown2
    rw [hsame]
    exact hspace.perm List.perm_middle.symm
  · intro f hfd' hft'' hff
    have hfw : f ≠ frame w := by
      rintro rfl
      exact hff (List.mem_cons_self ..)
    have hfT : f ≠ t := by
      rintro rfl
      exact hft'' _ ht
    show ((m.setPage t _).setPage (frame w) junk).page f = m.page f
    rw [Phys.setPage_page_ne _ _ hfw, Phys.setPage_page_ne _ _ hfT]

/-- One page further on. -/
theorem Unmapped.wp_page {k : Nat} {m₁ : Phys} (h : Unmapped A r hand d (cut (Vm.pte m d) lo k) m m₁)
    (hA : Frames L A) (hlo : lo ≤ k) (hk : k < KERNPAGE) :
    wp (deallocuvm_page L d k) E (fun _ m' => Unmapped A r hand d (cut (Vm.pte m d) lo (k + 1)) m m') m₁ := by
  rw [← cut_succ _ hlo, ← h.pte]
  apply wp_deallocuvm_page (lt_trans hk (by decide))
  · intro hnone
    rw [update_eq_self_iff.mpr hnone.symm, h.pte]
    exact h
  · intro t w ht hw
    have hown : own m₁ d (.user k) = some (frame w) := by
      rw [own_user hk, hw]
      rfl
    obtain ⟨hlow, hhigh⟩ := hA _ (h.space.mem_of_own (a := Sum.inl (Own.user k)) hown)
    have htw : t ≠ frame w := fun he => (h.space.user_not_tree hk hw).2 _ (he ▸ ht)
    exact ⟨hlow, hhigh, htw, h.trans (h.space.release ht hk hw)⟩

/-- `deallocuvm` unmaps the pages from `PGROUNDUP(newsz)` up to `oldsz`. -/
theorem wp_deallocuvm (h : Space A r hand d m) (hA : Frames L A) {oldsz newsz : Nat}
    (hold : oldsz ≤ KERNBASE) (hlt : newsz < oldsz) {Q : Nat → Phys → Prop}
    (hQ : ∀ m', Unmapped A r hand d (cut (pte m d) (pages newsz) (pages oldsz)) m m' →
      Q newsz m') : wp (deallocuvm L d oldsz newsz) E Q m := by
  have hmono := pages_mono hlt.le
  have hpages := pages_le hold
  rw [deallocuvm_eq_plain hold]
  unfold deallocuvm_plain
  rw [if_neg (by omega), wp_bind]
  have hstart : Unmapped A r hand d (cut (pte m d) (pages newsz) (pages newsz)) m m := by
    rw [cut_self]
    exact ⟨h, rfl, rfl, fun _ _ _ _ => rfl, List.suffix_rfl⟩
  have hloop := wp_loop (E := E) (f := deallocuvm_page L d) (n := pages oldsz - pages newsz)
    (fun k m₁ => Unmapped A r hand d (cut (pte m d) (pages newsz) k) m m₁) hstart
    fun k m₁ hlo hk hm₁ => hm₁.wp_page hA hlo (by omega)
  refine hloop.imp fun _ m' hm' => hQ m' ?_
  rwa [show pages newsz + (pages oldsz - pages newsz) = pages oldsz by omega] at hm'

/-! ## `freevm` -/

/-- The owners while `freevm` frees the page tables: those from entry `i` on
    are left, and the directory. -/
def tablesFrom (m : Phys) (d i : Nat) : Own → Option Nat
  | .dir => some d
  | .table j => if i ≤ j then table m d j else none
  | .user _ => none

/-- The state before `freevm` frees the page table in entry `i`. -/
structure Freeing (A : Set Nat) (r : R → Option Nat) (hand : List Nat) (d : Nat) (m : Phys)
    (i : Nat) (m' : Phys) : Prop where
  part : Allotment A (Sum.elim (tablesFrom m d i) r) (hand ++ m'.free)
  page : ∀ f, f ∉ m'.free → m'.page f = m.page f
  free : m.free <:+ m'.free

theorem tablesFrom_succ [DecidableEq R] (m : Phys) (d i : Nat) :
    Sum.elim (tablesFrom m d (i + 1)) r =
      update (Sum.elim (tablesFrom m d i) r) (Sum.inl (Own.table i)) none := by
  funext a
  by_cases ha : a = Sum.inl (Own.table i)
  · subst ha
    rw [update_self]
    exact if_neg (by omega)
  · rw [update_of_ne ha]
    rcases a with (_ | j | v) | x
    · rfl
    · have hj : j ≠ i := fun he => ha (by rw [he])
      show (if i + 1 ≤ j then _ else _) = if i ≤ j then _ else _
      by_cases hij : i ≤ j
      · rw [if_pos hij, if_pos (by omega)]
      · rw [if_neg hij, if_neg (by omega)]
    · rfl
    · rfl

theorem Freeing.dir_page {i : Nat} (h : Freeing A r hand d m i m') : m'.page d = m.page d :=
  h.page d fun hd => h.part.apart (a := Sum.inl Own.dir) rfl (List.mem_append_right _ hd)

/-- An address space without user pages gives back its page tables. -/
theorem wp_freevm_tables (hA : Frames L A) (h : Freeing A r hand d m 0 m) :
    wp (Op.loop (fun i => do
      let pde ← load (d, i)
      if has pde PTE_P then
        kfree L (frame pde)
      else
        pure ()) NPDENTRIES 0) E (fun _ m' => Freeing A r hand d m NPDENTRIES m') m := by
  classical
  refine wp_loop_zero (fun i m' => Freeing A r hand d m i m') h fun i m₁ hi hm₁ => ?_
  rw [wp_bind, wp_load, hm₁.dir_page]
  have hown : Sum.elim (tablesFrom m d i) r (Sum.inl (Own.table i)) = table m d i := if_pos le_rfl
  by_cases hP : has ((m.page d).word i) PTE_P = true
  · have ht : table m d i = some (frame ((m.page d).word i)) := table_eq_some.mpr ⟨hP, rfl⟩
    have hmem := hA _ (hm₁.part.mem_of_own (hown.trans ht))
    rw [if_pos hP]
    refine wp_kfree hmem.1 hmem.2 ⟨?_, fun f hf => ?_, hm₁.free.trans (List.suffix_cons ..)⟩
    · rw [tablesFrom_succ]
      exact (hm₁.part.give (hown.trans ht)).perm List.perm_middle.symm
    · obtain ⟨hne, hf⟩ := not_or.mp (mt List.mem_cons.mpr hf)
      show (m₁.setPage _ junk).page f = m.page f
      rw [Phys.setPage_page_ne _ _ hne]
      exact hm₁.page f hf
  · have ht : table m d i = none := if_neg hP
    rw [if_neg hP, wp_pure]
    refine ⟨?_, hm₁.page, hm₁.free⟩
    have hsame : update (Sum.elim (tablesFrom m d i) r) (Sum.inl (Own.table i)) none =
        Sum.elim (tablesFrom m d i) r := by
      rw [← hown.trans ht]
      exact update_eq_self _ _
    rw [tablesFrom_succ, hsame]
    exact hm₁.part

/-- Frames of the address space that have been freed are in the pool. -/
theorem Space.mem_free (h : Space A r hand d m) {free : List Nat}
    (hpart : Allotment A r (hand ++ free)) {a : Own} {f : Nat} (ha : own m d a = some f) :
    f ∈ free := by
  have hown : Sum.elim (own m d) r (Sum.inl a) = some f := ha
  rcases (hpart.total f).mp (h.mem_of_own hown) with hf | ⟨x, hx⟩
  · rcases List.mem_append.mp hf with hf | hf
    · exact absurd (List.mem_append_left _ hf) (h.apart hown)
    · exact hf
  · exact absurd (h.inj hown (b := Sum.inr x) hx) (by simp)

/-- `freevm` gives back every frame of the address space. -/
theorem wp_freevm (h : Space A r hand d m) (hA : Frames L A) {Q : Unit → Phys → Prop}
    (hQ : ∀ m', Allotment A r (hand ++ m'.free) → (∀ f, f ∉ m'.free → m'.page f = m.page f) →
      m.free <:+ m'.free → Q () m') : wp (freevm L d) E Q m := by
  classical
  unfold freevm
  rw [wp_bind]
  refine wp_deallocuvm h hA le_rfl (by decide) fun m₁ hm₁ => ?_
  have hdir : d ∈ A := h.mem_of_own (a := Sum.inl Own.dir) rfl
  -- no user pages are left
  have hown : own m₁ d = tablesFrom m₁ d 0 := by
    funext a
    cases a with
    | dir => rfl
    | table j =>
      show own m₁ d (.table j) = if 0 ≤ j then own m₁ d (.table j) else none
      rw [if_pos (Nat.zero_le j)]
    | user v =>
      show own m₁ d (.user v) = none
      unfold own
      rw [hm₁.pte]
      simp only [cut]
      by_cases hv : v < KERNPAGE
      · rw [if_pos hv, if_pos ⟨le_of_eq_of_le (by decide) (Nat.zero_le v), lt_of_lt_of_eq hv (by decide)⟩]
        rfl
      · rw [if_neg hv]
  have hstart : Freeing A r hand d m₁ 0 m₁ := by
    refine ⟨?_, fun _ _ => rfl, List.suffix_rfl⟩
    rw [← hown]
    exact hm₁.space
  rw [wp_bind]
  refine (wp_freevm_tables hA hstart).imp fun _ m₂ hm₂ => ?_
  refine wp_kfree (hA d hdir).1 (hA d hdir).2 ?_
  -- the directory is the last frame
  have hlast := hm₂.part.give (a := Sum.inl Own.dir) rfl
  have hpart : Allotment A r (hand ++ d :: m₂.free) := by
    refine (hlast.perm List.perm_middle.symm).reindex (fun x y => y = Sum.inr x) ?_ ?_ ?_
    · rintro x x' y rfl hy
      simpa using hy
    · intro x f hx
      exact ⟨Sum.inr x, rfl, by simpa using hx⟩
    · rintro ((_ | j | v) | x) f hy
      · simp at hy
      · rw [update_of_ne (by simp)] at hy
        have hj : ¬ NPDENTRIES ≤ j → False := fun hlt => by
          simp only [Sum.elim_inl, tablesFrom, if_neg hlt] at hy
          cases hy
        have hj' : NPDENTRIES ≤ j := by_contra hj
        simp only [Sum.elim_inl, tablesFrom, if_pos hj'] at hy
        exact absurd (table_lt hy) (by simp only [NPDENTRIES] at hj'; omega)
      · rw [update_of_ne (by simp)] at hy
        cases hy
      · exact ⟨x, rfl, by simpa using hy⟩
  refine hQ _ hpart (fun f hf => ?_) ((hm₁.free.trans hm₂.free).trans (List.suffix_cons ..))
  obtain ⟨hfd, hf₂⟩ := not_or.mp (mt List.mem_cons.mpr hf)
  show (m₂.setPage d junk).page f = m.page f
  rw [Phys.setPage_page_ne _ _ hfd, hm₂.page f hf₂]
  refine hm₁.page f hfd (fun i hi => ?_) fun hf₁ => hf₂ (hm₂.free.subset hf₁)
  exact hf (h.mem_free hpart (a := .table i) hi)

end Xv6.Vm
