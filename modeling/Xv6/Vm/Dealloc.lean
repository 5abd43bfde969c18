import Xv6.Vm.Mapping
import Xv6.Vm.Uvm

/-! # `deallocuvm` visits every page

    When a page table is absent, `deallocuvm` goes on behind the 4 MB that it
    would map. This makes no difference (`deallocuvm_eq_plain`), whatever the memory
    holds: it does the same as the loop that visits one page after the other.
    What that loop does is said page by page, and follows for `deallocuvm`.
-/

namespace Xv6.Vm

open Op

variable {L : Layout} {m m₁ : Phys} {d v lo k oldsz newsz : Nat} {E : String → Prop}

/-! ## Pages of a range -/

/-- The number of pages that `sz` bytes take. -/
def pages (sz : Nat) : Nat := (sz + PGSIZE - 1) / PGSIZE

theorem PGROUNDUP_eq {sz : Nat} (h : sz ≤ KERNBASE) : PGROUNDUP sz = pages sz * PGSIZE := by
  unfold PGROUNDUP pages
  simp only [KERNBASE, PGSIZE] at *
  rw [Nat.mod_eq_of_lt (by omega)]

theorem lt_pages {sz k : Nat} : k < pages sz ↔ k * PGSIZE < sz := by
  unfold pages
  simp only [PGSIZE]
  omega

theorem pages_mono {sz sz' : Nat} (h : sz ≤ sz') : pages sz ≤ pages sz' :=
  Nat.div_le_div_right (by omega)

theorem pages_le {sz : Nat} (h : sz ≤ KERNBASE) : pages sz ≤ KERNPAGE :=
  (pages_mono h).trans (by decide)

/-- Where the loop goes on when there is no page table for page `k`. -/
theorem skip_table {k : Nat} (hk : k < KERNPAGE) :
    ((PGADDR (k / 1024 + 1) 0 0 + 2 ^ 32 - PGSIZE) % 2 ^ 32 + PGSIZE) % 2 ^ 32 =
      (k / 1024 + 1) * 1024 * PGSIZE := by
  simp only [KERNPAGE, KERNBASE, PGSIZE] at hk
  unfold PGADDR
  simp only [PGSIZE]
  omega

/-! ## The plain loop -/

/-- Free page `v`, if it is present. -/
def deallocuvm_page (L : Layout) (pgdir v : Nat) : MemOp Unit := do
  match ← walkpgdir pgdir (v * PGSIZE) false with
  | none => pure ()
  | some pte =>
    let w ← load pte
    if has w PTE_P then
      if frame w = 0 then
        Op.panic "kfree"
      else
        kfree L (frame w)
        store pte 0
    else
      pure ()

/-- `deallocuvm` without the jump. -/
def deallocuvm_plain (L : Layout) (pgdir oldsz newsz : Nat) : MemOp Nat := do
  if newsz ≥ oldsz then
    pure oldsz
  else
    Op.loop (deallocuvm_page L pgdir) (pages oldsz - pages newsz) (pages newsz)
    pure newsz

theorem walkpgdir_eq (m : Phys) (d va : Nat) :
    walkpgdir d va false m = .ok ((table m d (PDX va)).map fun t => (t, PTX va)) m := by
  obtain ⟨r, m', hrun, rfl, rfl⟩ := (wp_walkpgdir (E := fun _ => False) (m := m) (d := d) va
    (Q := fun r m' => r = (table m d (PDX va)).map (fun t => (t, PTX va)) ∧ m' = m) ⟨rfl, rfl⟩).returns
  exact hrun

theorem deallocuvm_page_absent (hv : v < 2 ^ 20) (h : table m d (v / 1024) = none) :
    deallocuvm_page L d v m = .ok () m := by
  unfold deallocuvm_page
  rw [bind_of_ok (walkpgdir_eq m d _), PDX_page v hv, h]
  rfl

/-- Where there is a page table, a round of the loop is one page. -/
theorem deallocuvm_loop_page {fuel t : Nat} (hv : v < 2 ^ 20) (ht : table m d (v / 1024) = some t)
    (hlt : v * PGSIZE < oldsz) :
    deallocuvm_loop L d oldsz (fuel + 1) (v * PGSIZE) m =
      (deallocuvm_page L d v >>= fun _ =>
        deallocuvm_loop L d oldsz fuel ((v * PGSIZE + PGSIZE) % 2 ^ 32)) m := by
  have hwalk : walkpgdir d (v * PGSIZE) false m = .ok (some (t, v % 1024)) m := by
    rw [walkpgdir_eq, PDX_page v hv, PTX_page, ht]
    rfl
  have hload : load (t, v % 1024) m = .ok ((m.page t).word (v % 1024)) m := rfl
  rw [deallocuvm_loop, if_pos hlt, bind_of_ok hwalk, deallocuvm_page, Op.bind_assoc, bind_of_ok hwalk]
  dsimp only
  rw [bind_of_ok hload, Op.bind_assoc, bind_of_ok hload]
  split_ifs
  · rfl
  · rw [Op.bind_assoc]
  · rfl

/-- From page `k` on, `deallocuvm` does what the plain loop does. -/
theorem deallocuvm_loop_eq (hold : oldsz ≤ KERNBASE) (fuel k : Nat) (hfuel : KERNPAGE - k < fuel)
    (hk : k ≤ KERNPAGE) (m : Phys) :
    deallocuvm_loop L d oldsz fuel (k * PGSIZE) m =
      Op.loop (deallocuvm_page L d) (pages oldsz - k) k m := by
  have hpages := pages_le hold
  induction fuel generalizing k m with
  | zero => omega
  | succ fuel ih =>
    by_cases hlt : k * PGSIZE < oldsz
    · have hk' : k < pages oldsz := lt_pages.mpr hlt
      have hk20 : k + 1 < 2 ^ 20 := by
        simp only [KERNPAGE, KERNBASE, PGSIZE] at *
        omega
      cases ht : table m d (k / 1024) with
      | none =>
        -- no page of this table is there to be freed
        have hnext : deallocuvm_loop L d oldsz (fuel + 1) (k * PGSIZE) m =
            deallocuvm_loop L d oldsz fuel ((k / 1024 + 1) * 1024 * PGSIZE) m := by
          rw [deallocuvm_loop, if_pos hlt, bind_of_ok (walkpgdir_eq m d _), PDX_page k (by omega), ht,
            ← skip_table (by omega)]
          rfl
        have hle : (k / 1024 + 1) * 1024 ≤ KERNPAGE := by
          simp only [KERNPAGE, KERNBASE, PGSIZE] at *
          omega
        rw [hnext, ih _ (by omega) hle]
        have hskip := loop_skip (f := deallocuvm_page L d) (s := m) (i := k)
          (k := min ((k / 1024 + 1) * 1024) (pages oldsz) - k) (n := pages oldsz - (k / 1024 + 1) * 1024)
          fun j hj hj' => deallocuvm_page_absent (by omega) (by rwa [show j / 1024 = k / 1024 by omega])
        rw [show pages oldsz - k = min ((k / 1024 + 1) * 1024) (pages oldsz) - k +
          (pages oldsz - (k / 1024 + 1) * 1024) by omega, hskip]
        rcases Nat.le_total ((k / 1024 + 1) * 1024) (pages oldsz) with hin | hout
        · rw [show k + (min ((k / 1024 + 1) * 1024) (pages oldsz) - k) = (k / 1024 + 1) * 1024 by omega]
        · rw [show pages oldsz - (k / 1024 + 1) * 1024 = 0 by omega]
          rfl
      | some t =>
        have hrest : deallocuvm_loop L d oldsz fuel ((k + 1) * PGSIZE) =
            Op.loop (deallocuvm_page L d) (pages oldsz - (k + 1)) (k + 1) :=
          funext (ih (k + 1) (by omega) (by omega))
        rw [deallocuvm_loop_page (by omega) ht hlt, page_add hk20, hrest,
          show pages oldsz - k = pages oldsz - (k + 1) + 1 by omega]
        rfl
    · have hk' : pages oldsz ≤ k := by
        by_contra hlt'
        exact hlt (lt_pages.mp (by omega))
      unfold deallocuvm_loop
      rw [if_neg hlt, show pages oldsz - k = 0 by omega]
      rfl

theorem deallocuvm_eq_plain (hold : oldsz ≤ KERNBASE) : deallocuvm L d oldsz newsz = deallocuvm_plain L d oldsz newsz := by
  have hpages := pages_le hold
  unfold deallocuvm deallocuvm_plain
  split_ifs with hge
  · rfl
  · have hmono := pages_mono (Nat.not_le.mp hge).le
    have hloop : deallocuvm_loop L d oldsz (2 ^ 20 + 1) (PGROUNDUP newsz) =
        Op.loop (deallocuvm_page L d) (pages oldsz - pages newsz) (pages newsz) := by
      rw [PGROUNDUP_eq (by omega)]
      exact funext (deallocuvm_loop_eq hold _ _ (by simp only [KERNPAGE, KERNBASE, PGSIZE]; omega) (by omega))
    rw [hloop]

/-! ## What it does -/

/-- One page: its frame is filled with junk and freed, and its entry cleared. -/
theorem wp_deallocuvm_page (hv : v < 2 ^ 20) {Q : Unit → Phys → Prop} (hnone : pte m d v = none → Q () m)
    (hsome : ∀ t w, table m d (v / 1024) = some t → pte m d v = some w →
      L.kend ≤ frame w * PGSIZE ∧ frame w * PGSIZE < PHYSTOP ∧ t ≠ frame w ∧
      Q () (({ m.setPage (frame w) junk with free := frame w :: m.free } : Phys).setPage t
        ((m.page t).setWord (v % 1024) 0))) :
    wp (deallocuvm_page L d v) E Q m := by
  unfold deallocuvm_page
  rw [wp_bind]
  apply wp_walkpgdir
  rw [PDX_page v hv, PTX_page]
  cases ht : table m d (v / 1024) with
  | none =>
    refine hnone ?_
    unfold pte
    rw [ht]
  | some t =>
    simp only [Option.map_some, wp_bind, wp_load]
    have hpte : pte m d v = if has ((m.page t).word (v % 1024)) PTE_P then
        some ((m.page t).word (v % 1024)) else none := by
      unfold pte
      rw [ht]
    generalize (m.page t).word (v % 1024) = w at hpte
    split_ifs at hpte ⊢ with hP h0
    · obtain ⟨hlow, -⟩ := hsome t w ht hpte
      have := L.data_lt
      rw [h0] at hlow
      omega
    · obtain ⟨hlow, hhigh, hne, hQ⟩ := hsome t w ht hpte
      rw [wp_bind]
      refine wp_kfree hlow hhigh ?_
      rw [wp_store]
      show Q () (({ m.setPage (frame w) junk with free := frame w :: m.free } : Phys).setPage t
        (((m.setPage (frame w) junk).page t).setWord (v % 1024) 0))
      rw [Phys.setPage_page_ne _ _ hne]
      exact hQ
    · exact hnone hpte

/-- A page directory as the kernel has them: its page tables are different
    frames, and the user pages are memory of the allocator and no part of it. -/
structure Directory (L : Layout) (d : Nat) (m : Phys) : Prop where
  table_ne_dir : ∀ {i t}, table m d i = some t → t ≠ d
  table_inj : ∀ {i j t}, table m d i = some t → table m d j = some t → i = j
  user_ne_dir : ∀ {v w}, v < KERNPAGE → pte m d v = some w → frame w ≠ d
  user_ne_table : ∀ {v w i}, v < KERNPAGE → pte m d v = some w → table m d i ≠ some (frame w)
  memory : ∀ {v w}, v < KERNPAGE → pte m d v = some w →
    L.kend ≤ frame w * PGSIZE ∧ frame w * PGSIZE < PHYSTOP

/-- The frames of the pages from `lo` up to `k` that are present. -/
def presentFrames (m : Phys) (d lo k : Nat) : List Nat :=
  ((List.range' lo (k - lo)).filterMap (pte m d)).map frame

theorem presentFrames_succ (h : lo ≤ k) :
    presentFrames m d lo (k + 1) = presentFrames m d lo k ++ ((pte m d k).map frame).toList := by
  unfold presentFrames
  rw [show k + 1 - lo = k - lo + 1 by omega, List.range'_1_concat, List.filterMap_append, List.map_append,
    show lo + (k - lo) = k by omega]
  cases hk : pte m d k with
  | none => simp [hk]
  | some w => simp [hk]

theorem mem_presentFrames {f : Nat} (h : f ∈ presentFrames m d lo k) :
    ∃ v w, v < k ∧ pte m d v = some w ∧ frame w = f := by
  unfold presentFrames at h
  obtain ⟨w, hw, rfl⟩ := List.mem_map.mp h
  obtain ⟨v, hv, hpte⟩ := List.mem_filterMap.mp hw
  rw [List.mem_range'_1] at hv
  exact ⟨v, w, by omega, hpte, rfl⟩

/-- The frames of the present pages from `lo` up to `k` have been freed, each
    once, and their entries cleared. Nothing else has changed. -/
structure Freed (d lo k : Nat) (m m₁ : Phys) : Prop where
  free : m₁.free = (presentFrames m d lo k).reverse ++ m.free
  page : ∀ f, f ∉ presentFrames m d lo k → (∀ i, table m d i ≠ some f) → m₁.page f = m.page f
  word : ∀ i t, table m d i = some t → ∀ j, j < 1024 → (m₁.page t).word j =
    if (lo ≤ 1024 * i + j ∧ 1024 * i + j < k) ∧ pte m d (1024 * i + j) ≠ none then 0 else (m.page t).word j

theorem Freed.start : Freed d lo lo m m where
  free := by simp [presentFrames]
  page _ _ _ := rfl
  word i t _ j _ := by rw [if_neg (by omega)]

theorem Freed.table_eq (h : Freed d lo k m m₁) (hd : Directory L d m) (hk : k ≤ KERNPAGE) :
    table m₁ d = table m d := by
  refine table_congr (h.page d (fun hmem => ?_) fun i hi => hd.table_ne_dir hi rfl)
  obtain ⟨v, w, hv, hw, hf⟩ := mem_presentFrames hmem
  exact hd.user_ne_dir (by omega) hw hf

theorem pte_eq_word {i t j : Nat} (ht : table m d i = some t) (hj : j < 1024) :
    pte m d (1024 * i + j) =
      if has ((m.page t).word j) PTE_P then some ((m.page t).word j) else none := by
  unfold pte
  rw [show (1024 * i + j) / 1024 = i by omega, show (1024 * i + j) % 1024 = j by omega, ht]

theorem Freed.pte_eq (h : Freed d lo k m m₁) (hd : Directory L d m) (hk : k ≤ KERNPAGE) (v : Nat) :
    pte m₁ d v = if lo ≤ v ∧ v < k then none else pte m d v := by
  have htab := h.table_eq hd hk
  cases ht : table m d (v / 1024) with
  | none =>
    have hnone : ∀ {m' : Phys}, table m' d (v / 1024) = none → pte m' d v = none := by
      intro m' hm'
      unfold pte
      rw [hm']
    rw [hnone ht, hnone (by rw [htab, ht]), ite_self]
  | some t =>
    have hword := h.word _ t ht (v % 1024) (Nat.mod_lt _ (by decide))
    have hold := pte_eq_word ht (Nat.mod_lt v (by decide))
    have hnew := pte_eq_word (m := m₁) (by rw [htab, ht]) (Nat.mod_lt v (by decide))
    rw [page_index] at hword hold hnew
    by_cases hin : lo ≤ v ∧ v < k
    · rw [if_pos hin]
      by_cases hpte : pte m d v ≠ none
      · rw [if_pos ⟨hin, hpte⟩] at hword
        rw [hnew, hword]
        exact if_neg (by decide)
      · rw [if_neg fun h => hpte h.2] at hword
        rw [hnew, hword, ← hold]
        exact not_not.mp hpte
    · rw [if_neg fun h => hin h.1] at hword
      rw [if_neg hin, hnew, hword, ← hold]

/-- One page further on. -/
theorem Freed.wp_page (h : Freed d lo k m m₁) (hd : Directory L d m) (hlo : lo ≤ k) (hk : k < KERNPAGE) :
    wp (deallocuvm_page L d k) E (fun _ m' => Freed d lo (k + 1) m m') m₁ := by
  have htab := h.table_eq hd hk.le
  have hpte : pte m₁ d k = pte m d k := by rw [h.pte_eq hd hk.le, if_neg (by omega)]
  have hframes := presentFrames_succ (m := m) (d := d) hlo
  apply wp_deallocuvm_page (lt_trans hk (by decide))
  · intro hnone
    rw [hpte] at hnone
    rw [hnone, Option.map_none, Option.toList_none, List.append_nil] at hframes
    refine ⟨hframes ▸ h.free, hframes ▸ h.page, fun i t ht j hj => ?_⟩
    rw [h.word i t ht j hj]
    refine if_congr ?_ rfl rfl
    by_cases hik : 1024 * i + j = k
    · rw [hik, hnone]
      simp
    · rw [show 1024 * i + j < k + 1 ↔ 1024 * i + j < k by omega]
  · intro t w ht hw
    rw [hpte] at hw
    rw [htab] at ht
    obtain ⟨hlow, hhigh⟩ := hd.memory hk hw
    have htw : t ≠ frame w := fun he => hd.user_ne_table hk hw (he ▸ ht)
    refine ⟨hlow, hhigh, htw, ?_⟩
    rw [hw, Option.map_some, Option.toList_some] at hframes
    refine ⟨?_, fun f hf hft => ?_, fun i t' ht' j hj => ?_⟩
    · rw [hframes, List.reverse_append]
      show frame w :: m₁.free = _
      rw [h.free]
      rfl
    · rw [hframes, List.mem_append, not_or] at hf
      have hfw : f ≠ frame w := fun he => hf.2 (List.mem_singleton.mpr he)
      have hfT : f ≠ t := by
        rintro rfl
        exact hft _ ht
      rw [Phys.setPage_page_ne _ _ hfT]
      show (m₁.setPage (frame w) junk).page f = m.page f
      rw [Phys.setPage_page_ne _ _ hfw]
      exact h.page f hf.1 hft
    · by_cases hT : t' = t
      · -- the page table of page `k`
        subst hT
        obtain rfl := hd.table_inj ht' ht
        rw [Phys.setPage_page_self]
        by_cases hjk : j = k % 1024
        · subst hjk
          rw [Page.word_setWord_self _ _ hj, page_index, if_pos ⟨by omega, by rw [hw]; simp⟩]
        · rw [Page.word_setWord_ne _ _ hjk, h.word _ _ ht' j hj]
          refine if_congr ?_ rfl rfl
          rw [show 1024 * (k / 1024) + j < k + 1 ↔ 1024 * (k / 1024) + j < k by omega]
      · have hne : t' ≠ frame w := fun he => hd.user_ne_table hk hw (he ▸ ht')
        rw [Phys.setPage_page_ne _ _ hT]
        show ((m₁.setPage (frame w) junk).page t').word j = _
        rw [Phys.setPage_page_ne _ _ hne, h.word _ _ ht' j hj]
        have hik : 1024 * i + j ≠ k := by
          intro he
          rw [← he, show (1024 * i + j) / 1024 = i by omega, ht'] at ht
          exact hT (Option.some.inj ht)
        refine if_congr ?_ rfl rfl
        rw [show 1024 * i + j < k + 1 ↔ 1024 * i + j < k by omega]

theorem wp_deallocuvm_freed (hd : Directory L d m) (hnew : newsz ≤ oldsz) (hold : oldsz ≤ KERNBASE) :
    wp (deallocuvm L d oldsz newsz) E
      (fun sz m' => sz = newsz ∧ Freed d (pages newsz) (pages oldsz) m m') m := by
  have hpages := pages_le hold
  have hmono := pages_mono hnew
  rw [deallocuvm_eq_plain hold]
  unfold deallocuvm_plain
  split_ifs with hge
  · obtain rfl : newsz = oldsz := le_antisymm hnew hge
    exact ⟨rfl, .start⟩
  · rw [wp_bind]
    have hloop := wp_loop (E := E) (f := deallocuvm_page L d) (n := pages oldsz - pages newsz)
      (fun k m₁ => Freed d (pages newsz) k m m₁) (.start (m := m))
      fun k m₁ hlo hk hm₁ => hm₁.wp_page hd hlo (by omega)
    refine hloop.imp fun _ m' hm' => ⟨rfl, ?_⟩
    rwa [show pages newsz + (pages oldsz - pages newsz) = pages oldsz by omega] at hm'

/-- A page is freed or there is a panic, whatever the memory holds. -/
theorem wp_deallocuvm_page_ends (L : Layout) (d v : Nat) (m : Phys) :
    wp (deallocuvm_page L d v) (fun _ => True) (fun _ _ => True) m := by
  unfold deallocuvm_page
  rw [wp_bind]
  apply wp_walkpgdir
  cases table m d (PDX (v * PGSIZE)) with
  | none => trivial
  | some t =>
    simp only [Option.map_some, wp_bind, wp_load]
    split_ifs
    · trivial
    · rw [wp_bind]
      unfold kfree
      split_ifs
      · trivial
      · trivial
    · trivial

/-- `deallocuvm` ends and does what the plain loop does, on any memory. On a
    directory of the kernel it returns, having freed the present pages from
    `PGROUNDUP(newsz)` up to `oldsz`, each once, and cleared their entries. -/
theorem deallocuvm_visits_every_page (L : Layout) (d oldsz newsz : Nat) (hnew : newsz ≤ oldsz)
    (hold : oldsz ≤ KERNBASE) (m : Phys) :
    deallocuvm L d oldsz newsz m = deallocuvm_plain L d oldsz newsz m ∧
    deallocuvm L d oldsz newsz m ≠ .blocked ∧
    (Directory L d m → ∃ m', deallocuvm L d oldsz newsz m = .ok newsz m' ∧
      Freed d (pages newsz) (pages oldsz) m m' ∧ table m' d = table m d ∧
      ∀ v, pte m' d v = if PGROUNDUP newsz ≤ v * PGSIZE ∧ v * PGSIZE < oldsz then none else pte m d v) := by
  refine ⟨by rw [deallocuvm_eq_plain hold], ?_, fun hd => ?_⟩
  · rw [deallocuvm_eq_plain hold]
    refine wp.not_blocked (E := fun _ => True) (Q := fun _ _ => True) ?_
    unfold deallocuvm_plain
    split_ifs
    · trivial
    · rw [wp_bind]
      exact wp_loop (fun _ _ => True) trivial fun k m₁ _ _ _ => wp_deallocuvm_page_ends L d k m₁
  · obtain ⟨_, m', hrun, rfl, hm'⟩ := (wp_deallocuvm_freed hd hnew hold).returns
    refine ⟨m', hrun, hm', hm'.table_eq hd (pages_le hold), fun v => ?_⟩
    rw [hm'.pte_eq hd (pages_le hold), PGROUNDUP_eq (by omega)]
    exact if_congr (and_congr (Nat.mul_le_mul_right_iff (by decide)).symm lt_pages) rfl rfl

/-- A directory in frame 0x200 whose page table, frame 0x201, maps the first
    page to frame 0x202. -/
def onePage : Phys where
  page := fun f =>
    if f = 0x200 then Page.setWord 0 0 (entry 0x201 (PTE_P ||| PTE_W ||| PTE_U))
    else if f = 0x201 then Page.setWord 0 0 (entry 0x202 (PTE_P ||| PTE_W ||| PTE_U))
    else 0
  free := []

theorem onePage_table {i t : Nat} (h : table onePage 0x200 i = some t) : i = 0 ∧ t = 0x201 := by
  obtain ⟨hP, hframe⟩ := table_eq_some.mp h
  by_cases hi : i = 0
  · subst hi
    exact ⟨rfl, hframe.symm.trans (by decide +kernel)⟩
  · have hword : (onePage.page 0x200).word i = 0 := (Page.word_setWord_ne 0 _ hi).trans (Page.word_zero i)
    rw [hword] at hP
    exact absurd hP (by decide)

theorem onePage_pte {w : BitVec 32} (h : pte onePage 0x200 v = some w) : v = 0 ∧ frame w = 0x202 := by
  cases ht : table onePage 0x200 (v / 1024) with
  | none =>
    unfold pte at h
    rw [ht] at h
    cases h
  | some t =>
    obtain ⟨hv, rfl⟩ := onePage_table ht
    have hword := pte_eq_word ht (Nat.mod_lt v (by decide))
    rw [page_index, h] at hword
    by_cases hv' : v % 1024 = 0
    · rw [hv'] at hword
      refine ⟨by omega, ?_⟩
      have hw : some w = some (entry 0x202 (PTE_P ||| PTE_W ||| PTE_U)) := hword.trans (by decide +kernel)
      rw [Option.some.inj hw, frame_entry (by decide) (by decide)]
    · have hzero : (onePage.page 0x201).word (v % 1024) = 0 :=
        (Page.word_setWord_ne 0 _ hv').trans (Page.word_zero _)
      rw [hzero] at hword
      cases hword

theorem onePage_directory : Directory smallKernel 0x200 onePage where
  table_ne_dir hi := by
    rw [(onePage_table hi).2]
    decide
  table_inj hi hj := (onePage_table hi).1.trans (onePage_table hj).1.symm
  user_ne_dir _ hw := by
    rw [(onePage_pte hw).2]
    decide
  user_ne_table _ hw hi := by
    rw [(onePage_pte hw).2] at hi
    exact absurd (onePage_table hi).2 (by decide)
  memory _ hw := by
    rw [(onePage_pte hw).2]
    decide

/-- All user memory of a process of one page is freed. -/
theorem deallocuvm_visits_every_page_one : ∃ m', deallocuvm smallKernel 0x200 KERNBASE 0 onePage = .ok 0 m' ∧
    m'.free = (presentFrames onePage 0x200 (pages 0) (pages KERNBASE)).reverse ++ [] ∧ pte m' 0x200 0 = none := by
  obtain ⟨m', hrun, hm', -, hpte⟩ := (deallocuvm_visits_every_page smallKernel 0x200 KERNBASE 0 (by decide) le_rfl
    onePage).2.2 onePage_directory
  exact ⟨m', hrun, hm'.free, (hpte 0).trans (if_pos (by decide))⟩

end Xv6.Vm
