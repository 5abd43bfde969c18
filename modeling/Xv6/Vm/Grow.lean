import Xv6.Vm.Shrink

/-! # Growing an address space

    `allocuvm` takes a frame for each new page, fills it with zeros and maps
    it, and undoes all of this when memory runs out; page tables that were
    added on the way stay. `growproc` calls it, or `deallocuvm`, with a sum
    that is computed in 32 bits.
-/

namespace Xv6.Vm

open Op Function

variable {L : Layout} {R : Type} {r : R → Option Nat} {A : Set Nat} {hand hand' : List Nat}
  {m m' m'' : Phys} {d v f lo k oldsz newsz : Nat} {E : String → Prop} {fs : List Nat}

/-! ## `allocuvm` -/

/-- A frame that is not part of the page tables and not in the pool stays so
    while the pages of the address space stay. -/
theorem Space.stays (h : Space A r hand d m) (h' : Space A r hand' d m') (hhand : hand ⊆ hand')
    (huser : ∀ v w, v < KERNPAGE → pte m d v = some w → pte m' d v = some w)
    (hfd : f ≠ d) (hft : ∀ i, table m d i ≠ some f) (hff : f ∉ m.free) :
    (∀ i, table m' d i ≠ some f) ∧ f ∉ m'.free := by
  -- an owner that `f` has in both states, or a place in both hands, excludes the rest
  have hkeep : f ∈ A → f ∈ hand' ∨ ∃ a : Own ⊕ R, (∀ i, a ≠ Sum.inl (Own.table i)) ∧
      Sum.elim (own m' d) r a = some f := by
    intro hf
    rcases (h.total f).mp hf with hf | ⟨(_ | i | v) | x, hx⟩
    · rcases List.mem_append.mp hf with hf | hf
      · exact Or.inl (hhand hf)
      · exact absurd hf hff
    · exact absurd (Option.some_injective _ hx).symm hfd
    · exact absurd hx (hft i)
    · refine Or.inr ⟨Sum.inl (Own.user v), by simp, ?_⟩
      have hv : v < KERNPAGE := by
        by_contra hge
        rw [Sum.elim_inl, own, if_neg hge] at hx
        cases hx
      rw [Sum.elim_inl, own_user hv] at hx ⊢
      obtain ⟨w, hw, hwf⟩ := Option.map_eq_some_iff.mp hx
      rw [huser v w hv hw, Option.map_some, hwf]
    · exact Or.inr ⟨Sum.inr x, by simp, hx⟩
  constructor
  · intro i hi
    have hi' : Sum.elim (own m' d) r (Sum.inl (Own.table i)) = some f := hi
    rcases hkeep (h'.mem_of_own hi') with hf | ⟨a, ha, haf⟩
    · exact h'.apart hi' (List.mem_append_left _ hf)
    · exact ha i (h'.inj haf hi')
  · intro hf
    rcases hkeep (h'.mem_of_free (List.mem_append_right _ hf)) with hf' | ⟨a, _, haf⟩
    · exact (List.nodup_append.mp h'.nodup).2.2 f hf' f hf rfl
    · exact h'.apart haf (List.mem_append_right _ hf)

/-- What has left the pool is in hand, in page tables, or in the pages that
    were added. -/
theorem Space.length_free_le (h : Space A r hand d m) (h' : Space A r hand' d m')
    (hold : ∀ v, v < KERNPAGE → ¬(lo ≤ v ∧ v < k) → pte m' d v = pte m d v) :
    m.free.length ≤ hand'.length + m'.free.length + 1024 + (k - lo) := by
  have hsub : m.free ⊆ hand' ++ m'.free ++ (List.range 1024).filterMap (table m' d) ++
      (List.range' lo (k - lo)).filterMap (fun v => own m' d (.user v)) := by
    intro f hf
    have hpool : f ∈ hand ++ m.free := List.mem_append_right _ hf
    simp only [List.mem_append, List.mem_filterMap, List.mem_range, List.mem_range'_1]
    rcases (h'.total f).mp (h.mem_of_free hpool) with hf' | ⟨a, ha⟩
    · exact Or.inl (Or.inl (List.mem_append.mp hf'))
    · match a, ha with
      | Sum.inl Own.dir, ha => exact absurd hpool (h.apart (a := Sum.inl Own.dir) ha)
      | Sum.inl (Own.table i), ha => exact Or.inl (Or.inr ⟨i, table_lt ha, ha⟩)
      | Sum.inl (Own.user v), ha =>
        by_cases hv : lo ≤ v ∧ v < k
        · exact Or.inr ⟨v, by omega, ha⟩
        · have hsame : own m d (.user v) = some f := by
            rw [Sum.elim_inl] at ha
            by_cases hk : v < KERNPAGE
            · rwa [own_user hk, hold v hk hv, ← own_user hk] at ha
            · rw [own, if_neg hk] at ha
              cases ha
          exact absurd hpool (h.apart (a := Sum.inl (Own.user v)) hsame)
      | Sum.inr x, ha => exact absurd hpool (h.apart (a := Sum.inr x) ha)
  have hlen := ((List.nodup_append.mp h.nodup).2.1.subperm hsub).length_le
  have htab := List.length_filterMap_le (table m' d) (List.range 1024)
  have huser := List.length_filterMap_le (fun v => own m' d (.user v)) (List.range' lo (k - lo))
  simp only [List.length_append, List.length_range, List.length_range'] at hlen htab huser
  omega

/-- The permissions of the pages that `allocuvm` maps. -/
abbrev userPerm : BitVec 32 := PTE_W ||| PTE_U ||| PTE_P

/-- The pages from `lo` up to `hi` have been added, filled with zeros. -/
structure Filled (A : Set Nat) (r : R → Option Nat) (hand : List Nat) (d lo hi : Nat)
    (m m' : Phys) : Prop where
  space : Space A r hand d m'
  old : ∀ v, ¬(lo ≤ v ∧ v < hi) → pte m' d v = pte m d v
  new : ∀ v, lo ≤ v → v < hi → ∃ f, f < 2 ^ 20 ∧ pte m' d v = some (entry f userPerm) ∧ m'.page f = 0
  tables : ∀ i t, table m d i = some t → table m' d i = some t
  page : ∀ f, f ≠ d → (∀ i, table m d i ≠ some f) → f ∉ m.free → m'.page f = m.page f

theorem Filled.rfl (h : Space A r hand d m) : Filled A r hand d lo lo m m :=
  ⟨h, fun _ _ => Eq.refl _, fun v hlo hhi => by omega, fun _ _ => id, fun _ _ _ _ => Eq.refl _⟩

/-- Pages that were there are there afterwards. -/
theorem Filled.keeps {hi : Nat} (h : Filled A r hand d lo hi m m')
    (hnone : ∀ v, lo ≤ v → v < hi → pte m d v = none) (v : Nat) (w : BitVec 32)
    (hw : pte m d v = some w) : pte m' d v = some w := by
  rw [h.old v, hw]
  intro hv
  rw [hnone v hv.1 hv.2] at hw
  cases hw

/-- The undoing: `deallocuvm` takes the new pages away again. -/
theorem Filled.undo (hk : k ≤ pages newsz) (hm : Space A r hand d m)
    (hnone : ∀ v, pages oldsz ≤ v → v < pages newsz → pte m d v = none)
    (h : Filled A r hand' d (pages oldsz) k m m') (hhand : hand ⊆ hand')
    (hcut : Unmapped A r hand' d (cut (pte m' d) (pages oldsz) (pages newsz)) m' m'') :
    pte m'' d = pte m d ∧ (∀ i t, table m d i = some t → table m'' d i = some t) ∧
      ∀ f, f ≠ d → (∀ i, table m d i ≠ some f) → f ∉ m.free → m''.page f = m.page f := by
  have hpte : pte m'' d = pte m d := by
    rw [hcut.pte]
    funext v
    unfold cut
    by_cases hv : pages oldsz ≤ v ∧ v < pages newsz
    · rw [if_pos hv, hnone v hv.1 hv.2]
    · rw [if_neg hv, h.old v (by omega)]
  refine ⟨hpte, fun i t ht => by rw [hcut.table]; exact h.tables i t ht, fun f hfd hft hff => ?_⟩
  have hkeep := h.keeps fun v hlo hv => hnone v hlo (by omega)
  have hoff := hm.stays h.space hhand (fun v w _ => hkeep v w) hfd hft hff
  have hoff' := hm.stays hcut.space hhand (fun v w _ hw => by rw [hpte, hw]) hfd hft hff
  rw [hcut.page f hfd hoff.1 hoff'.2, h.page f hfd hft hff]

/-- A frame from the pool is in hand, and its contents have been replaced. -/
theorem Space.takeFrame (h : Space A r hand d m) (hfree : m.free = f :: fs) (p : Page) :
    let m' := ({ m with free := fs } : Phys).setPage f p
    Space A r (f :: hand) d m' ∧ pte m' d = pte m d ∧ table m' d = table m d ∧
      ∀ g, g ≠ f → m'.page g = m.page g := by
  intro m'
  obtain ⟨hfd, hft⟩ := h.pool_not_tree (f := f) (by simp [hfree])
  obtain ⟨htab, hpte, -⟩ := own_setPage (m := { m with free := fs }) hfd hft p
  have hspace : Space A r (f :: hand) d { m with free := fs } := by
    refine h.perm ?_
    rw [hfree]
    exact List.perm_middle
  exact ⟨hspace.setPage hfd hft p, hpte, htab, fun g hg => Phys.setPage_page_ne _ p hg⟩

/-- A frame from the pool is in hand, filled with zeros. -/
theorem Filled.take (h : Filled A r hand d lo k m m') (hfree : m'.free = f :: fs)
    (hm : Space A r hand d m) (hnone : ∀ v, lo ≤ v → v < k → pte m d v = none) :
    Filled A r (f :: hand) d lo k m (({ m' with free := fs } : Phys).setPage f 0) := by
  obtain ⟨hspace, hpte, htab, hpage⟩ := h.space.takeFrame hfree 0
  refine ⟨hspace, ?_, ?_, ?_, ?_⟩
  · rw [hpte]
    exact h.old
  · intro v hlo hv
    obtain ⟨g, hg, hw, hzero⟩ := h.new v hlo hv
    refine ⟨g, hg, by rw [hpte]; exact hw, ?_⟩
    by_cases hgf : g = f
    · rw [hgf, Phys.setPage_page_self]
    · rw [hpage g hgf, hzero]
  · rw [htab]
    exact h.tables
  · intro g hgd hgt hgf
    have hoff := (hm.stays h.space (fun _ => id) (fun v w _ => h.keeps hnone v w) hgd hgt hgf).2
    rw [hpage g (by rintro rfl; exact hoff (by simp [hfree])), h.page g hgd hgt hgf]

/-- The frame in hand goes back to the pool. -/
theorem Space.putBack (h : Space A r (f :: hand) d m) :
    let m' : Phys := { m.setPage f junk with free := f :: m.free }
    Space A r hand d m' ∧ pte m' d = pte m d ∧ table m' d = table m d ∧
      ∀ g, g ≠ f → m'.page g = m.page g := by
  intro m'
  obtain ⟨hfd, hft⟩ := h.pool_not_tree (f := f) (by simp)
  obtain ⟨htab, hpte, -⟩ := own_setPage hfd hft junk
  refine ⟨?_, hpte, htab, fun g hg => m.setPage_page_ne junk hg⟩
  exact (h.setPage hfd hft junk).perm List.perm_middle.symm

theorem userPerm_lt : userPerm.toNat < PGSIZE := by decide

/-- The frame in hand becomes the next page. -/
theorem Filled.step (h : Filled A r (f :: hand) d lo k m m') (hzero : m'.page f = 0)
    (hlo : lo ≤ k) (hk : k < KERNPAGE) (hA : Frames L A) (hm : Space A r hand d m)
    (hnone : ∀ v, lo ≤ v → v < k + 1 → pte m d v = none)
    (hmap : Mapped A r hand d (update (pte m' d) k (some (entry f userPerm))) m' m'') :
    Filled A r hand d lo (k + 1) m m'' := by
  have hnone' : ∀ v, lo ≤ v → v < k → pte m d v = none := fun v hlo hv => hnone v hlo (by omega)
  have hmf : f < 2 ^ 20 := hA.lt (h.space.mem_of_free (by simp))
  -- user pages of the address space are not among its page tables
  have huser : ∀ v w, v < KERNPAGE → pte m'' d v = some w → m''.page (frame w) = m'.page (frame w) := by
    intro v w hv hw
    obtain ⟨hd, ht⟩ := hmap.space.user_not_tree hv hw
    exact hmap.page _ hd ht
  refine ⟨hmap.space, ?_, ?_, fun i t ht => hmap.tables i t (h.tables i t ht), ?_⟩
  · intro v hv
    rw [hmap.pte, update_of_ne (by omega)]
    exact h.old v (by omega)
  · intro v hlo' hv
    by_cases hvk : v = k
    · subst hvk
      have hw : pte m'' d v = some (entry f userPerm) := by rw [hmap.pte, update_self]
      refine ⟨f, hmf, hw, ?_⟩
      have hsame := huser v _ hk hw
      rwa [frame_entry hmf userPerm_lt, hzero] at hsame
    · obtain ⟨g, hg, hw, hgz⟩ := h.new v hlo' (by omega)
      have hw'' : pte m'' d v = some (entry g userPerm) := by
        rw [hmap.pte, update_of_ne hvk, hw]
      refine ⟨g, hg, hw'', ?_⟩
      have hsame := huser v _ (by omega) hw''
      rwa [frame_entry hg userPerm_lt, hgz] at hsame
  · intro g hgd hgt hgf
    have hkeep : ∀ v w, v < KERNPAGE → pte m d v = some w → pte m'' d v = some w := by
      intro v w _ hw
      rw [hmap.pte, update_of_ne, h.keeps hnone' v w hw]
      rintro rfl
      rw [hnone v hlo (by omega)] at hw
      cases hw
    have hoff := hm.stays hmap.space (fun _ => id) hkeep hgd hgt hgf
    rw [hmap.page g hgd hoff.1, h.page g hgd hgt hgf]

theorem wp_allocuvm_loop (hA : Frames L A) (hnew : newsz < KERNBASE) (hm : Space A r hand d m)
    (hnone : ∀ v, pages oldsz ≤ v → v < pages newsz → pte m d v = none) {Q : Bool → Phys → Prop}
    (hok : ∀ m', Filled A r hand d (pages oldsz) (pages newsz) m m' → Q true m')
    (hfail : ∀ m', m.free.length ≤ hand.length + 1025 + (pages newsz - pages oldsz) →
      Filled A r hand d (pages oldsz) (pages oldsz) m m' → Q false m') :
    ∀ fuel k m', pages newsz + 1 - k ≤ fuel → pages oldsz ≤ k → k ≤ pages newsz →
      Filled A r hand d (pages oldsz) k m m' →
      wp (allocuvm_loop L d oldsz newsz fuel (k * PGSIZE)) E Q m' := by
  intro fuel
  induction fuel with
  | zero => omega
  | succ fuel ih =>
    intro k m' hfuel hlo hk h
    have hpages := pages_le hnew.le
    unfold allocuvm_loop
    by_cases hlt : k * PGSIZE < newsz
    · rw [if_pos hlt]
      have hk' : k < pages newsz := lt_pages.mpr hlt
      have hold : oldsz < newsz := by
        by_contra hge
        have := pages_mono (Nat.le_of_not_lt hge)
        omega
      have hnone' : ∀ v, pages oldsz ≤ v → v < k → pte m d v = none :=
        fun v hlo hv => hnone v hlo (by omega)
      rw [wp_bind]
      refine wp_kalloc (fun hempty => ?_) fun f fs hfree => ?_
      · -- no frame for the page
        have hfew := hm.length_free_le h.space fun v _ => h.old v
        rw [hempty, List.length_nil] at hfew
        rw [wp_bind]
        refine wp_deallocuvm h.space hA hnew.le hold fun m'' hcut => ?_
        obtain ⟨hpte, htab, hpage⟩ := h.undo hk hm hnone (fun _ => id) hcut
        exact hfail m'' (by omega) ⟨hcut.space, fun v _ => by rw [hpte], fun v hlo hv => by omega, htab, hpage⟩
      · have hone := h.take hfree hm hnone'
        rw [wp_bind, wp_memset, replicate_zero, wp_bind]
        refine wp_mappages_user hone.space hA (by omega) (by decide) (fun hsome => ?_) (fun hempty => ?_)
          fun m'' _ hmap => ?_
        · exact absurd ((hone.old k (by omega)).trans (hnone k hlo hk')) hsome
        · -- no frame for the page table: the frame in hand goes back, too
          have hfew := hm.length_free_le hone.space fun v _ => hone.old v
          rw [hempty, List.length_nil, List.length_cons] at hfew
          rw [if_neg (by decide), wp_bind]
          refine wp_deallocuvm hone.space hA hnew.le hold fun m'' hcut => ?_
          have hmem : f ∈ A := hcut.space.mem_of_free (by simp)
          rw [wp_bind]
          refine wp_kfree (hA f hmem).1 (hA f hmem).2 ?_
          obtain ⟨hpte, htab, hpage⟩ := hone.undo hk hm hnone (List.subset_cons_self ..) hcut
          obtain ⟨hspace, hpte', htab', hpage'⟩ := hcut.space.putBack
          refine hfail _ (by omega) ⟨hspace, fun v _ => by rw [hpte', hpte], fun v hlo hv => by omega,
            by rw [htab']; exact htab, fun g hgd hgt hgf => ?_⟩
          have hoff := (hm.stays h.space (fun _ => id) (fun v w _ => h.keeps hnone' v w) hgd hgt hgf).2
          rw [hpage' g (by rintro rfl; exact hoff (by simp [hfree])), hpage g hgd hgt hgf]
        · rw [if_pos rfl, page_add (by simp only [KERNPAGE, KERNBASE, PGSIZE] at hpages; omega)]
          exact ih (k + 1) m'' (by omega) (by omega) hk'
            (hone.step (Phys.setPage_page_self ..) hlo (by omega) hA hm
              (fun v hlo hv => hnone v hlo (by omega)) hmap)
    · have hk' : k = pages newsz := by
        have := mt lt_pages.mp hlt
        omega
      rw [if_neg hlt, wp_pure]
      exact hok m' (hk' ▸ h)

/-- `allocuvm` adds the pages up to `newsz`, or leaves the pages as they are
    and returns 0. The latter does not happen when the pool is large. -/
theorem wp_allocuvm (hA : Frames L A) (hold : oldsz ≤ newsz) (hnew : newsz < KERNBASE)
    (hm : Space A r hand d m)
    (hnone : ∀ v, pages oldsz ≤ v → v < pages newsz → pte m d v = none) {Q : Nat → Phys → Prop}
    (hok : ∀ m', Filled A r hand d (pages oldsz) (pages newsz) m m' → Q newsz m')
    (hfail : ∀ m', m.free.length ≤ hand.length + 1025 + (pages newsz - pages oldsz) →
      Filled A r hand d (pages oldsz) (pages oldsz) m m' → Q 0 m') :
    wp (allocuvm L d oldsz newsz) E Q m := by
  have hpages := pages_le hnew.le
  unfold allocuvm
  rw [if_neg (by omega), if_neg (by omega), wp_bind, PGROUNDUP_eq (by omega)]
  refine wp_allocuvm_loop hA hnew hm hnone (fun m' h => ?_) (fun m' hfew h => ?_) _ _ _
    (by simp only [KERNPAGE, KERNBASE, PGSIZE] at hpages; omega) le_rfl (pages_mono hold)
    (Filled.rfl hm)
  · rw [if_pos rfl]
    exact hok m' h
  · rw [if_neg (by decide)]
    exact hfail m' hfew h

/-! ## `growproc` -/

/-- The fields of `struct proc` that `growproc` and `exec` use; `eip` and `esp`
    are those of the trap frame. -/
structure Proc where
  sz : Nat
  pgdir : Nat
  eip : Nat
  esp : Nat
  name : List Byte
deriving DecidableEq

/-- The memory and the current process. -/
structure State where
  mem : Phys
  proc : Proc

/-- An operation on the memory. -/
def onMem {α : Type} (op : MemOp α) : Op State α := zoom State.mem (fun m s => { s with mem := m }) op

/-- The sum of a `uint` and an `int`. -/
def uadd (a : Nat) (n : Int) : Nat := ((a + n) % 2 ^ 32).toNat

/-- `curproc->sz = sz`, and the result 0. -/
def commitSize (sz : Nat) : Op State Bool := do
  modify fun s => { s with proc := { s.proc with sz := sz } }
  pure true

/-- Grow current process's memory by `n` bytes; `false` is the result -1. -/
def growproc (L : Layout) (n : Int) : Op State Bool := do
  let curproc := (← get).proc
  if n > 0 then
    let sz ← onMem (allocuvm L curproc.pgdir curproc.sz (uadd curproc.sz n))
    if sz = 0 then pure false else commitSize sz
  else if n < 0 then
    let sz ← onMem (deallocuvm L curproc.pgdir curproc.sz (uadd curproc.sz n))
    if sz = 0 then pure false else commitSize sz
  else
    commitSize curproc.sz

/-- The user pages are exactly those below `PGROUNDUP(sz)`. -/
structure UserPages (L : Layout) (A : Set Nat) (r : R → Option Nat) (s : State) : Prop where
  frames : Frames L A
  space : Space A r [] s.proc.pgdir s.mem
  exact : ∀ v, v < KERNPAGE →
    ((pte s.mem s.proc.pgdir v).isSome ↔ v * PGSIZE < PGROUNDUP s.proc.sz)

/-- An `int`. -/
def IsInt (n : Int) : Prop := -2 ^ 31 ≤ n ∧ n < 2 ^ 31

variable {s s' : State} {n : Int} {Q : Bool → State → Prop}

theorem UserPages.lt_iff (h : UserPages L A r s) (hsz : s.proc.sz ≤ KERNBASE) (hv : v < KERNPAGE) :
    (pte s.mem s.proc.pgdir v).isSome ↔ v < pages s.proc.sz := by
  rw [h.exact v hv, PGROUNDUP_eq hsz]
  simp only [PGSIZE]
  omega

theorem UserPages.pte_eq_none (h : UserPages L A r s) (hsz : s.proc.sz ≤ KERNBASE) (hv : v < KERNPAGE)
    (hge : pages s.proc.sz ≤ v) : pte s.mem s.proc.pgdir v = none := by
  rw [← Option.not_isSome_iff_eq_none, h.lt_iff hsz hv]
  omega

theorem uadd_eq {a : Nat} (h : 0 ≤ a + n) (h' : a + n < 2 ^ 32) : (uadd a n : Int) = a + n := by
  unfold uadd
  omega

/-! ### What `growproc` does -/

/-- Growing below `KERNBASE`. -/
theorem wp_growproc_grow (h : UserPages L A r s) (hn : 0 < n) (hsum : s.proc.sz + n < KERNBASE)
    (hok : ∀ m' (sz' : Nat), (sz' : Int) = s.proc.sz + n →
      Filled A r [] s.proc.pgdir (pages s.proc.sz) (pages sz') s.mem m' →
      Q true ⟨m', { s.proc with sz := sz' }⟩)
    (hfail : ∀ m', Filled A r [] s.proc.pgdir (pages s.proc.sz) (pages s.proc.sz) s.mem m' →
      Q false ⟨m', s.proc⟩) : wp (growproc L n) E Q s := by
  have hsz : s.proc.sz ≤ KERNBASE := by simp only [KERNBASE] at *; omega
  have hsum' := uadd_eq (a := s.proc.sz) (n := n) (by omega) (by simp only [KERNBASE] at hsum; omega)
  have hnew : uadd s.proc.sz n < KERNBASE := by omega
  have hold : s.proc.sz ≤ uadd s.proc.sz n := by omega
  have hpos : uadd s.proc.sz n ≠ 0 := by omega
  unfold growproc
  rw [wp_bind, wp_get, if_pos hn, wp_bind, onMem, wp_zoom]
  refine wp_allocuvm h.frames hold hnew h.space (fun v hlo hv => ?_) (fun m' hm' => ?_)
    fun m' _ hm' => ?_
  · exact h.pte_eq_none hsz (lt_of_lt_of_le hv (pages_le hnew.le)) hlo
  · rw [if_neg hpos]
    exact hok m' _ hsum' hm'
  · rw [if_pos rfl]
    exact hfail m' hm'

/-- The sum is computed in 32 bits; `allocuvm` has nothing to do when it is
    `KERNBASE` or more, or less than the size. -/
theorem wp_growproc_refuse (hn : 0 < n)
    (hsum : KERNBASE ≤ uadd s.proc.sz n ∨ uadd s.proc.sz n < s.proc.sz)
    (hok : uadd s.proc.sz n < KERNBASE → Q true s) (hfail : Q false s) :
    wp (growproc L n) E Q s := by
  unfold growproc
  rw [wp_bind, wp_get, if_pos hn, wp_bind, onMem, wp_zoom]
  unfold allocuvm
  by_cases hge : uadd s.proc.sz n ≥ KERNBASE
  · rw [if_pos hge, wp_pure, if_pos rfl]
    exact hfail
  · have hlt : uadd s.proc.sz n < s.proc.sz := by omega
    have hpos : s.proc.sz ≠ 0 := by omega
    rw [if_neg hge, if_pos hlt, wp_pure, if_neg hpos]
    exact hok (Nat.lt_of_not_le hge)

/-- Shrinking to a size that is not negative; the size 0 counts as failure. -/
theorem wp_growproc_shrink (h : UserPages L A r s) (hsz : s.proc.sz ≤ KERNBASE) (hn : n < 0)
    (hsum : 0 ≤ s.proc.sz + n) (hQ : ∀ m' (sz' : Nat), (sz' : Int) = s.proc.sz + n →
      Unmapped A r [] s.proc.pgdir
        (cut (pte s.mem s.proc.pgdir) (pages sz') (pages s.proc.sz)) s.mem m' →
      if sz' = 0 then Q false ⟨m', s.proc⟩ else Q true ⟨m', { s.proc with sz := sz' }⟩) :
    wp (growproc L n) E Q s := by
  have hsum' := uadd_eq hsum (by simp only [KERNBASE] at hsz; omega)
  have hlt : uadd s.proc.sz n < s.proc.sz := by omega
  unfold growproc
  rw [wp_bind, wp_get, if_neg (by omega), if_pos hn, wp_bind, onMem, wp_zoom]
  refine wp_deallocuvm h.space h.frames hsz hlt fun m' hm' => ?_
  have hcase := hQ m' _ hsum' hm'
  by_cases hzero : uadd s.proc.sz n = 0
  · rw [if_pos hzero] at hcase ⊢
    exact hcase
  · rw [if_neg hzero] at hcase ⊢
    exact hcase

/-- Shrinking below zero: the sum wraps around, and the process stays as it
    is. -/
theorem wp_growproc_wrap (hn : n < 0) (hwrap : s.proc.sz ≤ uadd s.proc.sz n)
    (hQ : Q (decide (s.proc.sz ≠ 0)) s) : wp (growproc L n) E Q s := by
  unfold growproc
  rw [wp_bind, wp_get, if_neg (by omega), if_pos hn, wp_bind, onMem, wp_zoom]
  unfold deallocuvm
  rw [if_pos hwrap, wp_pure]
  by_cases hzero : s.proc.sz = 0
  · rw [if_pos hzero, wp_pure]
    simpa [hzero] using hQ
  · rw [decide_eq_true hzero] at hQ
    rw [if_neg hzero]
    exact hQ

/-! ### Success -/

/-- The size has changed by `n`, and the user pages with it. -/
structure Grew (n : Int) (s s' : State) : Prop where
  size : (s'.proc.sz : Int) = s.proc.sz + n
  exact : ∀ v, v < KERNPAGE →
    ((pte s'.mem s'.proc.pgdir v).isSome ↔ v * PGSIZE < PGROUNDUP s'.proc.sz)
  kept : ∀ v w w', v < KERNPAGE → pte s.mem s.proc.pgdir v = some w →
    pte s'.mem s'.proc.pgdir v = some w' → s'.mem.page (frame w') = s.mem.page (frame w)
  zero : ∀ v w', v < KERNPAGE → pte s.mem s.proc.pgdir v = none →
    pte s'.mem s'.proc.pgdir v = some w' → s'.mem.page (frame w') = 0

/-- The frame of a user page is not in the pool. -/
theorem Space.user_not_free (h : Space A r hand d m) (hv : v < KERNPAGE) {w : BitVec 32}
    (hw : pte m d v = some w) : frame w ∉ m.free := by
  intro hf
  have hown : own m d (.user v) = some (frame w) := by
    rw [own_user hv, hw]
    rfl
  exact h.apart (a := Sum.inl (Own.user v)) hown (List.mem_append_right _ hf)

theorem UserPages.grew (h : UserPages L A r s) (hsz : s.proc.sz ≤ KERNBASE) {sz' : Nat}
    (hsum : (sz' : Int) = s.proc.sz + n) (hn : 0 ≤ n) (hsz' : sz' ≤ KERNBASE)
    (hm' : Filled A r [] s.proc.pgdir (pages s.proc.sz) (pages sz') s.mem m') :
    Grew n s ⟨m', { s.proc with sz := sz' }⟩ := by
  have hmono : pages s.proc.sz ≤ pages sz' := pages_mono (by omega)
  refine ⟨hsum, ?_, ?_, ?_⟩
  · intro v hv
    show (pte m' s.proc.pgdir v).isSome ↔ v * PGSIZE < PGROUNDUP sz'
    rw [PGROUNDUP_eq hsz', Nat.mul_lt_mul_right (by decide)]
    by_cases hnew : pages s.proc.sz ≤ v ∧ v < pages sz'
    · obtain ⟨f, _, hw, _⟩ := hm'.new v hnew.1 hnew.2
      rw [hw]
      simpa using hnew.2
    · rw [hm'.old v hnew, h.lt_iff hsz hv]
      omega
  · intro v w w' hv hw hw'
    have hlt : v < pages s.proc.sz := (h.lt_iff hsz hv).mp (by rw [hw]; rfl)
    have hsame : pte m' s.proc.pgdir v = some w := by rw [hm'.old v (by omega), hw]
    obtain rfl : w = w' := Option.some_injective _ (hsame.symm.trans hw')
    obtain ⟨hd, ht⟩ := h.space.user_not_tree hv hw
    exact hm'.page _ hd ht (h.space.user_not_free hv hw)
  · intro v w' hv hw hw'
    have hge : ¬ v < pages s.proc.sz := by
      rw [← h.lt_iff hsz hv, hw]
      simp
    by_cases hlt : v < pages sz'
    · obtain ⟨f, hf, hfw, hzero⟩ := hm'.new v (by omega) hlt
      obtain rfl : entry f userPerm = w' := Option.some_injective _ (hfw.symm.trans hw')
      show m'.page (frame (entry f userPerm)) = 0
      rw [frame_entry hf userPerm_lt, hzero]
    · have hsame : pte m' s.proc.pgdir v = none := by rw [hm'.old v (by omega), hw]
      rw [hsame] at hw'
      cases hw'

theorem UserPages.shrunk (h : UserPages L A r s) (hsz : s.proc.sz ≤ KERNBASE) {sz' : Nat}
    (hsum : (sz' : Int) = s.proc.sz + n) (hn : n < 0)
    (hm' : Unmapped A r [] s.proc.pgdir
      (cut (pte s.mem s.proc.pgdir) (pages sz') (pages s.proc.sz)) s.mem m') :
    Grew n s ⟨m', { s.proc with sz := sz' }⟩ := by
  have hmono : pages sz' ≤ pages s.proc.sz := pages_mono (by omega)
  have hcut : ∀ v w, pte m' s.proc.pgdir v = some w → pte s.mem s.proc.pgdir v = some w := by
    intro v w hw
    rw [hm'.pte, cut] at hw
    split at hw
    · cases hw
    · exact hw
  refine ⟨hsum, ?_, ?_, ?_⟩
  · intro v hv
    show (pte m' s.proc.pgdir v).isSome ↔ v * PGSIZE < PGROUNDUP sz'
    rw [PGROUNDUP_eq (by omega), Nat.mul_lt_mul_right (by decide), hm'.pte, cut]
    by_cases hin : pages sz' ≤ v ∧ v < pages s.proc.sz
    · rw [if_pos hin]
      simpa using hin.1
    · rw [if_neg hin, h.lt_iff hsz hv]
      omega
  · intro v w w' hv hw hw'
    obtain rfl : w = w' := Option.some_injective _ (hw.symm.trans (hcut v w' hw'))
    obtain ⟨hd, ht⟩ := h.space.user_not_tree hv hw
    exact hm'.page _ hd ht (hm'.space.user_not_free hv hw')
  · intro v w' hv hw hw'
    rw [hcut v w' hw'] at hw
    cases hw

/-- The first page of an address space, with its page table. -/
theorem Space.firstPage (h : Space A r [] d m) (hA : Frames L A) (hd : m.page d = 0) {t : Nat}
    (hfree : m.free = t :: f :: fs) :
    ∃ m', Space A r [] d m' ∧ ∀ v, (pte m' d v).isSome ↔ v = 0 := by
  have ht20 : t < 2 ^ 20 := hA.lt (h.mem_of_free (show t ∈ [] ++ m.free by simp [hfree]))
  have hspace := h.newTable hA (i := 0) (by decide) (table_blank hd 0) hfree
  have hpte := h.tree.pte_newTable (i := 0) (by decide) (table_blank hd 0) hfree ht20
  have htab := table_newTable (m := m) (d := d) (i := 0) (f :: fs) (by decide) ht20
  generalize hm' : m.newTable d 0 t (f :: fs) = m' at *
  have hfree' : m'.free = f :: fs := by
    rw [← hm']
    rfl
  have hhand : Space A r [f] d { m' with free := fs } := by
    have hpool : Allotment A (Sum.elim (own m' d) r) ([] ++ m'.free) := hspace
    rw [hfree'] at hpool
    exact hpool
  have ht : table m' d 0 = some t := by rw [htab, update_self]
  have hnone : ∀ v, pte { m' with free := fs } d v = none := by
    intro v
    show pte m' d v = none
    rw [hpte, pte_blank hd]
  obtain ⟨-, hpte'⟩ := hhand.tree.store ht (k := 0) (by decide) (entry f userPerm)
  refine ⟨_, hhand.map hA ht (k := 0) (by decide) (by decide) (hnone _) userPerm_lt (by decide),
    fun v => ?_⟩
  have hpresent : has (entry f userPerm) PTE_P = true :=
    (has_entry f userPerm (k := 0) (by decide)).trans (by decide)
  rw [hpte', if_pos hpresent]
  by_cases hv : v = 0
  · subst hv
    simp
  · rw [update_of_ne (by omega), hnone]
    simpa using hv

/-- A process with one page of memory, and a free frame. -/
theorem exists_onePage : ∃ s : State, s.proc.sz = 4096 ∧
    UserPages smallKernel {f | 1024 ≤ f ∧ f < 1028} (fun x : Empty => x.elim) s := by
  have hpool : Allotment {f | 1024 ≤ f ∧ f < 1028} (fun x : Empty => x.elim) [1024, 1025, 1026, 1027] := by
    refine ⟨fun {a} => a.elim, fun {a} => a.elim, by decide, fun f => ?_⟩
    simp only [List.mem_cons, List.not_mem_nil, or_false, IsEmpty.exists_iff]
    show 1024 ≤ f ∧ f < 1028 ↔ _
    omega
  have hA : Frames smallKernel {f | 1024 ≤ f ∧ f < 1028} := by
    intro f hf
    have hf' : 1024 ≤ f ∧ f < 1028 := hf
    show 0x115000 ≤ f * PGSIZE ∧ f * PGSIZE < PHYSTOP
    simp only [PGSIZE, PHYSTOP]
    omega
  have hblank := Space.blank (m := ⟨fun _ => 0, [1025, 1026, 1027]⟩) hpool rfl (List.nil_append _)
  obtain ⟨m, hspace, hpte⟩ := hblank.firstPage hA rfl rfl
  refine ⟨⟨m, ⟨4096, 1024, 0, 0, []⟩⟩, rfl, hA, hspace, fun v hv => ?_⟩
  show (pte m 1024 v).isSome ↔ v * PGSIZE < PGROUNDUP 4096
  rw [hpte, PGROUNDUP_eq (by decide), show pages 4096 = 1 from rfl]
  simp only [PGSIZE]
  omega

/-- A call of `growproc` that succeeds changes the size by `n`, exactly when
    the sum is not negative or there is nothing to take away. -/
theorem growproc_exact_iff (h : UserPages L A r s) (hsz : s.proc.sz < KERNBASE) (hn : IsInt n) :
    (∀ s', growproc L n s = .ok true s' → Grew n s s') ↔ 0 ≤ s.proc.sz + n ∨ s.proc.sz = 0 := by
  obtain ⟨hlo, hhi⟩ := hn
  have hsz32 : (s.proc.sz : Int) < 2 ^ 31 := by simp only [KERNBASE] at hsz; omega
  constructor
  · intro hexact
    by_contra hneg
    -- the sum wraps around, and the call succeeds without effect
    have hwrap : s.proc.sz ≤ uadd s.proc.sz n := by unfold uadd; omega
    have hrun : wp (growproc L n) (fun _ => False) (fun b s' => b = true ∧ s' = s) s := by
      apply wp_growproc_wrap (by omega) hwrap
      exact ⟨decide_eq_true (by omega), rfl⟩
    obtain ⟨b, s', hok, rfl, rfl⟩ := hrun.returns
    have := (hexact s' hok).size
    omega
  · intro hcond s' hok
    suffices hrun : wp (growproc L n) (fun _ => False) (fun b s' => b = true → Grew n s s') s from
      hrun.of_ok hok rfl
    rcases lt_trichotomy n 0 with hneg | rfl | hpos
    · by_cases hsum : 0 ≤ s.proc.sz + n
      · apply wp_growproc_shrink h hsz.le hneg hsum
        intro m' sz' hsz' hm'
        split
        · intro hfalse
          cases hfalse
        · intro _
          exact h.shrunk hsz.le hsz' hneg hm'
      · have hzero : s.proc.sz = 0 := by omega
        apply wp_growproc_wrap hneg (by omega)
        intro htrue
        rw [hzero] at htrue
        cases htrue
    · intro _
      have hsame : Filled A r [] s.proc.pgdir (pages s.proc.sz) (pages s.proc.sz) s.mem s.mem :=
        Filled.rfl h.space
      exact h.grew hsz.le (by omega) le_rfl hsz.le hsame
    · by_cases hsum : s.proc.sz + n < KERNBASE
      · apply wp_growproc_grow h hpos hsum
        · intro m' sz' hsz' hm' _
          exact h.grew hsz.le hsz' hpos.le (by omega) hm'
        · intro m' _ hfalse
          cases hfalse
      · have hge : KERNBASE ≤ uadd s.proc.sz n := by unfold uadd; simp only [KERNBASE] at *; omega
        apply wp_growproc_refuse hpos (Or.inl hge)
        · intro hlt
          omega
        · intro hfalse
          cases hfalse

theorem growproc_exact_iff_one_page : ∃ s : State, s.proc.sz = 4096 ∧
    ∀ s', growproc smallKernel 4096 s = .ok true s' → Grew 4096 s s' := by
  obtain ⟨s, hsz, h⟩ := exists_onePage
  refine ⟨s, hsz, (growproc_exact_iff h (by rw [hsz]; decide) ⟨by decide, by decide⟩).mpr ?_⟩
  rw [hsz]
  decide

/-- A process with one page gives up two: the call succeeds, and the size is
    as before. -/
theorem growproc_succeeds_without_effect : ∃ s : State,
    UserPages smallKernel {f | 1024 ≤ f ∧ f < 1028} (fun x : Empty => x.elim) s ∧
    s.proc.sz = 4096 ∧ growproc smallKernel (-8192) s = .ok true s ∧ ¬ Grew (-8192) s s := by
  obtain ⟨s, hsz, h⟩ := exists_onePage
  have hwrap : s.proc.sz ≤ uadd s.proc.sz (-8192) := by
    rw [hsz]
    decide
  have hrun : wp (growproc smallKernel (-8192)) (fun _ => False) (fun b s' => b = true ∧ s' = s) s := by
    apply wp_growproc_wrap (by decide) hwrap
    exact ⟨decide_eq_true (by omega), rfl⟩
  obtain ⟨b, s', hok, rfl, rfl⟩ := hrun.returns
  refine ⟨s', h, hsz, hok, fun hgrew => ?_⟩
  have := hgrew.size
  omega

/-! ### Failure -/

/-- The process and its user pages are as before; frames that have left the
    pool are page tables. -/
structure Intact (s s' : State) : Prop where
  proc : s'.proc = s.proc
  pte : ∀ v, v < KERNPAGE → pte s'.mem s.proc.pgdir v = pte s.mem s.proc.pgdir v
  page : ∀ v w, v < KERNPAGE → Vm.pte s.mem s.proc.pgdir v = some w →
    s'.mem.page (frame w) = s.mem.page (frame w)
  free : ∀ f ∈ s.mem.free, f ∈ s'.mem.free ∨ ∃ i, table s'.mem s.proc.pgdir i = some f

theorem Intact.rfl : Intact s s :=
  ⟨Eq.refl _, fun _ _ => Eq.refl _, fun _ _ _ _ => Eq.refl _, fun _ => Or.inl⟩

/-- Frames of the pool that have left it without becoming user pages are page
    tables. -/
theorem Space.free_or_table (h : Space A r hand d m) (h' : Space A r hand d m')
    (hpte : pte m' d = pte m d) (hf : f ∈ m.free) : f ∈ m'.free ∨ ∃ i, table m' d i = some f := by
  have hpool : f ∈ hand ++ m.free := List.mem_append_right _ hf
  rcases (h'.total f).mp (h.mem_of_free hpool) with hf' | ⟨a, ha⟩
  · rcases List.mem_append.mp hf' with hhand | hfree
    · exact absurd rfl ((List.nodup_append.mp h.nodup).2.2 f hhand f hf)
    · exact Or.inl hfree
  · match a, ha with
    | Sum.inl Own.dir, ha => exact absurd hpool (h.apart (a := Sum.inl Own.dir) ha)
    | Sum.inl (Own.table i), ha => exact Or.inr ⟨i, ha⟩
    | Sum.inl (Own.user v), ha =>
      have hsame : own m d (.user v) = some f := by
        rw [Sum.elim_inl] at ha
        unfold own at ha ⊢
        rwa [hpte] at ha
      exact absurd hpool (h.apart (a := Sum.inl (Own.user v)) hsame)
    | Sum.inr x, ha => exact absurd hpool (h.apart (a := Sum.inr x) ha)

theorem UserPages.intact (h : UserPages L A r s)
    (hm' : Filled A r [] s.proc.pgdir (pages s.proc.sz) (pages s.proc.sz) s.mem m') :
    Intact s ⟨m', s.proc⟩ := by
  have hpte : pte m' s.proc.pgdir = pte s.mem s.proc.pgdir := funext fun v => hm'.old v (by omega)
  refine ⟨rfl, fun v _ => congrFun hpte v, fun v w hv hw => ?_, fun f hf => ?_⟩
  · obtain ⟨hd, ht⟩ := h.space.user_not_tree hv hw
    exact hm'.page _ hd ht (h.space.user_not_free hv hw)
  · exact h.space.free_or_table hm'.space hpte hf

theorem deallocuvm_eq {a : Nat} (hok : deallocuvm L d oldsz newsz m = .ok a m') :
    a = oldsz ∨ a = newsz := by
  unfold deallocuvm at hok
  split at hok
  · cases hok
    exact Or.inl rfl
  · obtain ⟨_, _, _, hpure⟩ := bind_eq_ok hok
    cases hpure
    exact Or.inr rfl

/-- When shrinking fails, the size or the sum is 0. -/
theorem growproc_shrink_fails (hn : n < 0) (hok : growproc L n s = .ok false s') :
    s.proc.sz = 0 ∨ uadd s.proc.sz n = 0 := by
  unfold growproc at hok
  rw [get_bind, if_neg (by omega), if_pos hn] at hok
  obtain ⟨a, s₁, hmem, hrest⟩ := bind_eq_ok hok
  unfold onMem zoom at hmem
  cases hrun : deallocuvm L s.proc.pgdir s.proc.sz (uadd s.proc.sz n) s.mem with
  | ok a' m' =>
    rw [hrun] at hmem
    cases hmem
    by_cases ha : a = 0
    · rcases deallocuvm_eq hrun with hsz | hsum
      · exact Or.inl (hsz.symm.trans ha)
      · exact Or.inr (hsum.symm.trans ha)
    · rw [if_neg ha] at hrest
      cases hrest
  | panic msg =>
    rw [hrun] at hmem
    cases hmem
  | blocked =>
    rw [hrun] at hmem
    cases hmem

/-- A call of `growproc` that fails leaves the process as it was, exactly when
    it was not a call to give up all memory. -/
theorem growproc_atomic_iff (h : UserPages L A r s) (hsz : s.proc.sz < 2 ^ 32) (hn : IsInt n) :
    (∀ s', growproc L n s = .ok false s' → Intact s s') ↔ 0 ≤ n ∨ s.proc.sz + n ≠ 0 := by
  obtain ⟨hlo, hhi⟩ := hn
  constructor
  · intro hatomic
    by_contra hall
    have hneg : n < 0 := by omega
    have hle : s.proc.sz ≤ KERNBASE := by simp only [KERNBASE]; omega
    have hzero : (s.proc.sz : Int) + n = 0 := by omega
    have hpage : 0 < pages s.proc.sz := lt_pages.mpr (by rw [Nat.zero_mul]; omega)
    -- all pages are taken away, page 0 among them
    have hrun : wp (growproc L n) (fun _ => False)
        (fun b s' => b = false ∧ pte s'.mem s.proc.pgdir 0 = none) s := by
      apply wp_growproc_shrink h hle hneg (by omega)
      intro m' sz' hsz' hm'
      obtain rfl : sz' = 0 := by omega
      rw [if_pos rfl]
      refine ⟨rfl, ?_⟩
      show pte m' s.proc.pgdir 0 = none
      rw [hm'.pte, cut, if_pos ⟨by decide, hpage⟩]
    obtain ⟨b, s', hok, rfl, hnone⟩ := hrun.returns
    have hsome : (pte s.mem s.proc.pgdir 0).isSome :=
      (h.lt_iff hle (by decide)).mpr hpage
    rw [← (hatomic s' hok).pte 0 (by decide), hnone] at hsome
    cases hsome
  · intro hcond s' hok
    rcases lt_trichotomy n 0 with hneg | rfl | hpos
    · by_cases hle : s.proc.sz ≤ KERNBASE
      · suffices hrun : wp (growproc L n) (fun _ => False) (fun b s' => b = false → Intact s s') s from
          hrun.of_ok hok rfl
        by_cases hsum : 0 ≤ s.proc.sz + n
        · apply wp_growproc_shrink h hle hneg hsum
          intro m' sz' hsz' hm'
          rw [if_neg (by omega)]
          intro hfalse
          cases hfalse
        · have hwrap : s.proc.sz ≤ uadd s.proc.sz n := by
            unfold uadd
            simp only [KERNBASE] at hle
            omega
          apply wp_growproc_wrap hneg hwrap
          intro _
          exact Intact.rfl
      · -- neither the size nor the sum is 0
        have hzero := growproc_shrink_fails hneg hok
        unfold uadd at hzero
        simp only [KERNBASE] at hle
        omega
    · cases hok
    · suffices hrun : wp (growproc L n) (fun _ => False) (fun b s' => b = false → Intact s s') s from
        hrun.of_ok hok rfl
      by_cases hsum : s.proc.sz + n < KERNBASE
      · apply wp_growproc_grow h hpos hsum
        · intro m' sz' _ _ hfalse
          cases hfalse
        · intro m' hm' _
          exact h.intact hm'
      · have hrefuse : KERNBASE ≤ uadd s.proc.sz n ∨ uadd s.proc.sz n < s.proc.sz := by
          unfold uadd
          simp only [KERNBASE] at *
          omega
        apply wp_growproc_refuse hpos hrefuse
        · intro _ hfalse
          cases hfalse
        · intro _
          exact Intact.rfl

theorem growproc_atomic_iff_one_page : ∃ s : State, s.proc.sz = 4096 ∧
    ∀ s', growproc smallKernel 8192 s = .ok false s' → Intact s s' := by
  obtain ⟨s, hsz, h⟩ := exists_onePage
  refine ⟨s, hsz, (growproc_atomic_iff h (by rw [hsz]; decide) ⟨by decide, by decide⟩).mpr ?_⟩
  exact Or.inl (by decide)

/-- A process with one page gives it up: the call fails, and the page is gone. -/
theorem growproc_fails_with_effect : ∃ s s' : State,
    UserPages smallKernel {f | 1024 ≤ f ∧ f < 1028} (fun x : Empty => x.elim) s ∧
    s.proc.sz = 4096 ∧ growproc smallKernel (-4096) s = .ok false s' ∧ ¬ Intact s s' := by
  obtain ⟨s, hsz, h⟩ := exists_onePage
  have hle : s.proc.sz ≤ KERNBASE := by
    rw [hsz]
    decide
  have hpages : pages s.proc.sz = 1 := by
    rw [hsz]
    decide
  have hrun : wp (growproc smallKernel (-4096)) (fun _ => False)
      (fun b s' => b = false ∧ pte s'.mem s.proc.pgdir 0 = none) s := by
    apply wp_growproc_shrink h hle (by decide) (by omega)
    intro m' sz' hsz' hm'
    obtain rfl : sz' = 0 := by omega
    rw [if_pos rfl]
    refine ⟨rfl, ?_⟩
    show pte m' s.proc.pgdir 0 = none
    rw [hm'.pte, cut, hpages]
    rfl
  obtain ⟨b, s', hok, rfl, hnone⟩ := hrun.returns
  refine ⟨s, s', h, hsz, hok, fun hintact => ?_⟩
  have hsome : (pte s.mem s.proc.pgdir 0).isSome := by
    rw [h.lt_iff hle (by decide), hpages]
    decide
  rw [← hintact.pte 0 (by decide), hnone] at hsome
  cases hsome

end Xv6.Vm
