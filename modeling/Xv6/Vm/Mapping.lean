import Xv6.Vm.PageTable

/-! # What `walkpgdir` and `mappages` do

    `walkpgdir` leaves all mappings as they are, whether or not it adds a page
    table (`Grows`). `mappages` adds mappings to that: a frame in hand becomes
    a user page, or a range of the kernel part is filled in.
-/

namespace Xv6.Vm

open Op Function

variable {L : Layout} {R : Type} {r : R → Option Nat} {A : Set Nat} {hand hand' : List Nat}
  {m m' m'' : Phys} {d v : Nat} {E : String → Prop} {Q : Bool → Phys → Prop} {perm : BitVec 32}
  {ptes ptes' : Nat → Option (BitVec 32)} {f : Nat} {p : Nat × Nat} {w : BitVec 32}

theorem replicate_zero : BitVec.replicate PGSIZE (0 : Byte) = (0 : Page) := by
  apply BitVec.eq_of_getLsbD_eq
  intro i hi
  rw [BitVec.getLsbD_replicate]
  simp

theorem wp_load {Q : BitVec 32 → Phys → Prop} :
    wp (load p) E Q m ↔ Q ((m.page p.1).word p.2) m := Iff.rfl

theorem wp_store {Q : Unit → Phys → Prop} :
    wp (store p w) E Q m ↔ Q () (m.setPage p.1 ((m.page p.1).setWord p.2 w)) := Iff.rfl

theorem wp_memset {c : Byte} {Q : Unit → Phys → Prop} :
    wp (memset f c) E Q m ↔ Q () (m.setPage f (BitVec.replicate PGSIZE c)) := Iff.rfl

theorem wp_kalloc {Q : Option Nat → Phys → Prop} (hnone : m.free = [] → Q none m)
    (hsome : ∀ f fs, m.free = f :: fs → Q (some f) { m with free := fs }) :
    wp kalloc E Q m := by
  unfold kalloc
  rw [wp_bind, wp_get]
  cases hfree : m.free with
  | nil => exact hnone hfree
  | cons f fs => exact hsome f fs hfree

/-- What the junk looks like that `kfree` leaves. -/
def junk : Page := BitVec.replicate PGSIZE 1

theorem wp_kfree {Q : Unit → Phys → Prop} (hf : L.kend ≤ f * PGSIZE) (hf' : f * PGSIZE < PHYSTOP)
    (hQ : Q () { m.setPage f junk with free := f :: m.free }) : wp (kfree L f) E Q m := by
  unfold kfree
  rw [if_neg (by omega), wp_bind, wp_memset]
  exact hQ

/-! ## `walkpgdir` -/

theorem wp_walkpgdir (va : Nat) {Q : Option (Nat × Nat) → Phys → Prop}
    (hQ : Q ((table m d (PDX va)).map fun t => (t, PTX va)) m) :
    wp (walkpgdir d va false) E Q m := by
  unfold walkpgdir
  rw [wp_bind, wp_load]
  unfold table at hQ
  by_cases hP : has ((m.page d).word (PDX va)) PTE_P = true
  · rw [if_pos hP] at hQ ⊢
    exact hQ
  · rw [if_neg hP] at hQ ⊢
    exact hQ

/-- A page table may have been added in entry `j`; nothing else has changed. -/
structure Grows (d j : Nat) (m m' : Phys) : Prop where
  tree : Tree d m'
  pte : pte m' d = pte m d
  tables : ∀ i t, table m d i = some t → table m' d i = some t
  others : ∀ i, i ≠ j → table m' d i = table m d i
  page : ∀ f, f ≠ d → (∀ i, table m' d i ≠ some f) → m'.page f = m.page f
  free : m'.free <:+ m.free
  step : m' = m ∨ j < 1024 ∧ table m d j = none ∧ ∃ t fs, m.free = t :: fs ∧ m' = m.newTable d j t fs

theorem Grows.rfl {j : Nat} (h : Tree d m) : Grows d j m m :=
  ⟨h, Eq.refl _, fun _ _ => id, fun _ _ => Eq.refl _, fun _ _ _ => Eq.refl _, List.suffix_rfl,
    Or.inl (Eq.refl _)⟩

/-- The frames of an address space whose page tables have grown. -/
theorem Space.grow (h : Space A r hand d m) (hA : Frames L A) {j : Nat} (hm' : Grows d j m m') :
    Space A r hand d m' := by
  rcases hm'.step with rfl | ⟨hj, hnone, t, fs, hfree, rfl⟩
  · exact h
  · exact h.newTable hA hj hnone hfree

/-- The frames of the pool are numbers of 20 bits. -/
def PoolSmall (m : Phys) : Prop := ∀ f ∈ m.free, f < 2 ^ 20

theorem Space.poolSmall (h : Space A r hand d m) (hA : Frames L A) : PoolSmall m :=
  fun _ hf => hA.lt (h.mem_of_free (List.mem_append_right _ hf))

theorem PDX_lt (va : Nat) : PDX va < 1024 := Nat.mod_lt _ (by decide)

theorem Tree.grow (h : Tree d m) {j t : Nat} {fs : List Nat} (hj : j < 1024) (hnone : table m d j = none)
    (hfree : m.free = t :: fs) (ht : t < 2 ^ 20) :
    Grows d j m (m.newTable d j t fs) ∧ table (m.newTable d j t fs) d j = some t := by
  have htable := table_newTable (m := m) (d := d) fs hj ht
  refine ⟨⟨h.newTable hj hnone hfree ht, h.pte_newTable hj hnone hfree ht, fun i u hi => ?_, fun i hi => ?_,
    fun f hfd hft => ?_, ?_, Or.inr ⟨hj, hnone, t, fs, hfree, rfl⟩⟩, ?_⟩
  · have hij : i ≠ j := by
      rintro rfl
      rw [hnone] at hi
      cases hi
    rw [htable, update_of_ne hij]
    exact hi
  · rw [htable, update_of_ne hi]
  · refine newTable_page hfd ?_
    rintro rfl
    exact hft j (by rw [htable, update_self])
  · show fs <:+ m.free
    rw [hfree]
    exact List.suffix_cons ..
  · rw [htable, update_self]

theorem wp_walkpgdir_alloc (h : Tree d m) (hpool : PoolSmall m) (va : Nat)
    {Q : Option (Nat × Nat) → Phys → Prop}
    (hnone : m.free = [] → table m d (PDX va) = none → Q none m)
    (hsome : ∀ t m', Grows d (PDX va) m m' → table m' d (PDX va) = some t → Q (some (t, PTX va)) m') :
    wp (walkpgdir d va true) E Q m := by
  unfold walkpgdir
  rw [wp_bind, wp_load]
  by_cases hP : has ((m.page d).word (PDX va)) PTE_P = true
  · rw [if_pos hP]
    exact hsome _ m (.rfl h) (table_eq_some.mpr ⟨hP, rfl⟩)
  · have htab : table m d (PDX va) = none := if_neg hP
    rw [if_neg hP, if_pos rfl, wp_bind]
    refine wp_kalloc (fun hfree => hnone hfree htab) fun t fs hfree => ?_
    have hmem : t ∈ m.free := by simp [hfree]
    have htd : t ≠ d := fun he => h.dir_not_free (he ▸ hmem)
    obtain ⟨hgrows, ht⟩ := h.grow (PDX_lt va) htab hfree (hpool t hmem)
    simp only [wp_bind, wp_memset, wp_store, replicate_zero]
    rw [Phys.setPage_page_ne _ _ htd.symm]
    exact hsome t _ hgrows ht

/-! ## `mappages` -/

/-- Mappings have been added, giving `ptes`, and page tables for them. -/
structure Maps (d : Nat) (ptes : Nat → Option (BitVec 32)) (m m' : Phys) : Prop where
  pte : pte m' d = ptes
  more : ∀ v, Vm.pte m d v ≠ none → ptes v ≠ none
  tables : ∀ i t, table m d i = some t → table m' d i = some t
  fresh : ∀ i, table m' d i ≠ table m d i → ∃ v, v / 1024 = i ∧ ptes v ≠ none
  page : ∀ f, f ≠ d → (∀ i, table m' d i ≠ some f) → m'.page f = m.page f
  free : m'.free <:+ m.free

theorem Maps.rfl : Maps d (Vm.pte m d) m m :=
  ⟨Eq.refl _, fun _ => id, fun _ _ => id, fun _ hi => absurd (Eq.refl _) hi, fun _ _ _ => Eq.refl _,
    List.suffix_rfl⟩

theorem Maps.trans (h : Maps d ptes m m') (h' : Maps d ptes' m' m'') : Maps d ptes' m m'' where
  pte := h'.pte
  more v hv := h'.more v (by rw [h.pte]; exact h.more v hv)
  tables i t ht := h'.tables i t (h.tables i t ht)
  fresh i hi := by
    by_cases hsame : table m'' d i = table m' d i
    · obtain ⟨v, hv, hpte⟩ := h.fresh i (by rwa [← hsame])
      exact ⟨v, hv, h'.more v (by rwa [h.pte])⟩
    · exact h'.fresh i hsame
  page f hfd hft := by
    rw [h'.page f hfd hft]
    exact h.page f hfd fun i hi => hft i (h'.tables i f hi)
  free := h'.free.trans h.free

/-- The frames of an address space with more mappings. -/
structure Mapped (A : Set Nat) (r : R → Option Nat) (hand : List Nat) (d : Nat)
    (ptes : Nat → Option (BitVec 32)) (m m' : Phys) : Prop extends Maps d ptes m m' where
  space : Space A r hand d m'

theorem Mapped.rfl (h : Space A r hand d m) : Mapped A r hand d (Vm.pte m d) m m := ⟨.rfl, h⟩

theorem Mapped.trans {hand' : List Nat} (h : Mapped A r hand d ptes m m')
    (h' : Mapped A r hand' d ptes' m' m'') :
    Mapped A r hand' d ptes' m m'' :=
  ⟨h.toMaps.trans h'.toMaps, h'.space⟩

/-- The address of a page. -/
theorem PDX_page (v : Nat) (hv : v < 2 ^ 20) : PDX (v * PGSIZE) = v / 1024 := by
  unfold PDX
  simp only [PGSIZE]
  omega

theorem PTX_page (v : Nat) : PTX (v * PGSIZE) = v % 1024 := by
  unfold PTX
  simp only [PGSIZE]
  omega

/-- The next page. -/
theorem page_add (h : v + 1 < 2 ^ 20) : (v * PGSIZE + PGSIZE) % 2 ^ 32 = (v + 1) * PGSIZE := by
  simp only [PGSIZE]
  omega

theorem page_index (v : Nat) : 1024 * (v / 1024) + v % 1024 = v := by omega

/-- An entry is stored in a page table, which may have been added for it. -/
theorem Grows.store {t : Nat} (h : Grows d (v / 1024) m m') (ht : table m' d (v / 1024) = some t)
    (hw : has w PTE_P = true) :
    Maps d (update (Vm.pte m d) v (some w)) m
      (m'.setPage t ((m'.page t).setWord (v % 1024) w)) := by
  obtain ⟨htab, hpte⟩ := h.tree.store ht (Nat.mod_lt v (by decide)) w
  rw [page_index, h.pte, if_pos hw] at hpte
  refine ⟨hpte, fun u hu => ?_, fun i u hi => ?_, fun i hi => ?_, fun f hfd hft => ?_, h.free⟩
  · by_cases huv : u = v
    · rw [huv, update_self]
      simp
    · rwa [update_of_ne huv]
  · rw [htab]
    exact h.tables i u hi
  · rw [htab] at hi
    refine ⟨v, by_contra fun hne => hi (h.others i (Ne.symm hne)), ?_⟩
    rw [update_self]
    simp
  · rw [htab] at hft
    rw [Phys.setPage_page_ne]
    · exact h.page f hfd hft
    · rintro rfl
      exact hft _ ht

/-- The entry that `mappages` stores. -/
theorem entry_eq (f : Nat) (perm : BitVec 32) :
    BitVec.ofNat 32 (f * PGSIZE) ||| perm ||| PTE_P = entry f (perm ||| PTE_P) := by
  unfold entry
  rw [BitVec.or_assoc]

theorem toNat_or_P (h : perm.toNat < PGSIZE) : (perm ||| PTE_P).toNat < PGSIZE := by
  rw [BitVec.toNat_or]
  exact Nat.or_lt_two_pow (n := 12) h (by decide)

theorem has_or_P (perm : BitVec 32) : has (perm ||| PTE_P) PTE_P = true := by
  rw [show PTE_P = BitVec.twoPow 32 0 from rfl, has_twoPow _ (by decide)]
  simp

/-- One round of the loop: page `v` gets an entry, or there is no memory for
    its page table. Pages that have an entry are not mapped again. -/
theorem wp_mappages_step (h : Tree d m) (hpool : PoolSmall m) (hv : v < 2 ^ 20) {last fuel pa : Nat}
    (hremap : pte m d v ≠ none → E "remap") (hfail : m.free = [] → Q false m)
    (hok : ∀ t m₁, pte m d v = none → Grows d (v / 1024) m m₁ → table m₁ d (v / 1024) = some t →
      wp (if v * PGSIZE = last then pure true
        else mappages_loop d last perm fuel ((v * PGSIZE + PGSIZE) % 2 ^ 32)
          ((pa + PGSIZE) % 2 ^ 32)) E Q
        (m₁.setPage t ((m₁.page t).setWord (v % 1024) (BitVec.ofNat 32 pa ||| perm ||| PTE_P)))) :
    wp (mappages_loop d last perm (fuel + 1) (v * PGSIZE) pa) E Q m := by
  unfold mappages_loop
  rw [wp_bind]
  refine wp_walkpgdir_alloc h hpool _ (fun hfree _ => hfail hfree) fun t m₁ hgrows ht => ?_
  rw [PDX_page v hv] at hgrows ht
  have hpte : pte m d v = if has ((m₁.page t).word (v % 1024)) PTE_P
      then some ((m₁.page t).word (v % 1024)) else none := by
    rw [← hgrows.pte]
    unfold pte
    rw [ht]
  simp only [wp_bind, wp_load, PTX_page]
  by_cases hP : has ((m₁.page t).word (v % 1024)) PTE_P = true
  · rw [if_pos hP] at hpte ⊢
    exact hremap (by rw [hpte]; simp)
  · rw [if_neg hP] at hpte ⊢
    rw [wp_bind, wp_store]
    exact hok t m₁ hpte hgrows ht

/-- A frame in hand becomes user page `v`. -/
theorem wp_mappages_user (h : Space A r (f :: hand) d m) (hA : Frames L A) (hv : v < KERNPAGE)
    (hperm : perm.toNat < PGSIZE) (hremap : pte m d v ≠ none → E "remap")
    (hfail : m.free = [] → Q false m) (hok : ∀ m', pte m d v = none → Mapped A r hand d
      (update (pte m d) v (some (entry f (perm ||| PTE_P)))) m m' → Q true m') :
    wp (mappages d (v * PGSIZE) PGSIZE (f * PGSIZE) perm) E Q m := by
  have hv20 : v < 2 ^ 20 := lt_trans hv (by decide)
  have hlast : PGROUNDDOWN ((v * PGSIZE + PGSIZE + 2 ^ 32 - 1) % 2 ^ 32) = v * PGSIZE := by
    unfold PGROUNDDOWN
    simp only [KERNPAGE, KERNBASE, PGSIZE] at *
    omega
  have hfirst : PGROUNDDOWN (v * PGSIZE) = v * PGSIZE := by
    unfold PGROUNDDOWN
    simp only [PGSIZE]
    omega
  unfold mappages
  rw [hlast, hfirst]
  refine wp_mappages_step h.tree (h.poolSmall hA) hv20 hremap hfail fun t m₁ hnone hgrows ht => ?_
  rw [if_pos rfl, wp_pure, entry_eq]
  apply hok _ hnone
  have hk : v % 1024 < 1024 := Nat.mod_lt _ (by decide)
  have hv' : 1024 * (v / 1024) + v % 1024 < KERNPAGE := by rwa [page_index]
  have hnone' : pte m₁ d (1024 * (v / 1024) + v % 1024) = none := by
    rw [page_index, hgrows.pte, hnone]
  have hpresent : has (entry f (perm ||| PTE_P)) PTE_P = true :=
    (has_entry f _ (k := 0) (by decide)).trans (has_or_P perm)
  exact ⟨hgrows.store ht hpresent,
    (h.grow hA hgrows).map hA ht hk hv' hnone' (toNat_or_P hperm) (has_or_P perm)⟩

/-- `n` pages from `v` on are mapped to the frames from `p` on. -/
def mapRange (ptes : Nat → Option (BitVec 32)) (v n p : Nat) (perm : BitVec 32) (u : Nat) :
    Option (BitVec 32) :=
  if v ≤ u ∧ u < v + n then some (entry (p + (u - v)) (perm ||| PTE_P)) else ptes u

theorem mapRange_succ (ptes : Nat → Option (BitVec 32)) (v n p : Nat) (perm : BitVec 32) :
    update (mapRange ptes v n p perm) (v + n) (some (entry (p + n) (perm ||| PTE_P))) =
      mapRange ptes v (n + 1) p perm := by
  funext u
  unfold mapRange
  by_cases hu : u = v + n
  · subst hu
    rw [update_self, if_pos (by omega), show v + n - v = n by omega]
  · rw [update_of_ne hu]
    by_cases hin : v ≤ u ∧ u < v + n
    · rw [if_pos hin, if_pos (by omega)]
    · rw [if_neg hin, if_neg (by omega)]

/-- What is not mapped is not changed. -/
theorem mapRange_zero (ptes : Nat → Option (BitVec 32)) (v p : Nat) (perm : BitVec 32) :
    mapRange ptes v 0 p perm = ptes := by
  funext u
  unfold mapRange
  rw [if_neg (by omega)]

/-- A physical address matters modulo `2^32`. -/
theorem ofNat_congr {a b : Nat} (h : a % 2 ^ 32 = b % 2 ^ 32) : BitVec.ofNat 32 a = BitVec.ofNat 32 b := by
  apply BitVec.eq_of_toNat_eq
  rw [BitVec.toNat_ofNat, BitVec.toNat_ofNat, h]

/-- A range of pages is mapped; without memory, a part of it. What page tables
    and entries for these pages keep, `I`, is kept. -/
theorem wp_mappages {n p va size pa : Nat} {I : Phys → Prop} (hI : I m)
    (htree : ∀ m, I m → Tree d m) (hgrow : ∀ {m m' j}, I m → PoolSmall m → Grows d j m m' → I m')
    (hstore : ∀ {m i t k} (w : BitVec 32), I m → table m d i = some t → k < 1024 → v ≤ 1024 * i + k →
      I (m.setPage t ((m.page t).setWord k w))) (hpool : PoolSmall m)
    (hfirst : PGROUNDDOWN va = v * PGSIZE)
    (hlast : PGROUNDDOWN ((va + size + 2 ^ 32 - 1) % 2 ^ 32) = (v + n - 1) * PGSIZE)
    (hpa : pa = p * PGSIZE) (hn : 0 < n) (hvn : v + n ≤ 2 ^ 20)
    (hnone : ∀ u, v ≤ u → u < v + n → pte m d u = none)
    (hfail : ∀ k m', k ≤ n → m'.free = [] → I m' → Maps d (mapRange (pte m d) v k p perm) m m' → Q false m')
    (hok : ∀ m', I m' → Maps d (mapRange (pte m d) v n p perm) m m' → Q true m') :
    wp (mappages d va size pa perm) E Q m := by
  have hloop : ∀ fuel k m₁ pa, k < n → n - k ≤ fuel → pa % 2 ^ 32 = (p + k) * PGSIZE % 2 ^ 32 → I m₁ →
      Maps d (mapRange (pte m d) v k p perm) m m₁ →
      wp (mappages_loop d ((v + n - 1) * PGSIZE) perm fuel ((v + k) * PGSIZE) pa) E Q m₁ := by
    intro fuel
    induction fuel with
    | zero => omega
    | succ fuel ih =>
      intro k m₁ pa hk hfuel hpa hI₁ hm₁
      have hpool₁ : PoolSmall m₁ := fun f hf => hpool f (hm₁.free.subset hf)
      have hnone₁ : pte m₁ d (v + k) = none := by
        rw [hm₁.pte]
        unfold mapRange
        rw [if_neg (by omega)]
        exact hnone _ (by omega) (by omega)
      refine wp_mappages_step (htree m₁ hI₁) hpool₁ (by omega) (absurd hnone₁)
        (fun hfree => hfail k m₁ (by omega) hfree hI₁ hm₁) fun t m₂ _ hgrows ht => ?_
      have hk1024 : (v + k) % 1024 < 1024 := Nat.mod_lt _ (by decide)
      rw [ofNat_congr hpa, entry_eq]
      have hpresent : has (entry (p + k) (perm ||| PTE_P)) PTE_P = true :=
        (has_entry (p + k) _ (k := 0) (by decide)).trans (has_or_P perm)
      have hI₂ := hstore (entry (p + k) (perm ||| PTE_P)) (hgrow hI₁ hpool₁ hgrows) ht hk1024
        (by rw [page_index]; omega)
      have hstep : Maps d (mapRange (pte m d) v (k + 1) p perm) m
          (m₂.setPage t ((m₂.page t).setWord ((v + k) % 1024) (entry (p + k) (perm ||| PTE_P)))) := by
        have hstored := hm₁.trans (hgrows.store ht hpresent)
        rwa [hm₁.pte, mapRange_succ] at hstored
      by_cases hend : k + 1 = n
      · rw [if_pos (by rw [← hend]; simp only [PGSIZE]; omega), wp_pure]
        rw [hend] at hstep
        exact hok _ hI₂ hstep
      · rw [if_neg (by simp only [PGSIZE]; omega), page_add (by omega)]
        exact ih (k + 1) _ _ (by omega) (by omega) (by simp only [PGSIZE] at *; omega) hI₂ hstep
  unfold mappages
  rw [hlast, hfirst]
  refine hloop (2 ^ 20) 0 m pa hn (by omega) (by rw [hpa, Nat.add_zero]) hI ?_
  rw [mapRange_zero]
  exact .rfl

/-- A range of the kernel part is mapped; without memory, a part of it. -/
theorem wp_mappages_kernel {n p : Nat} (h : Space A r hand d m) (hA : Frames L A)
    (hv : KERNPAGE ≤ v) (hn : 0 < n) (hvn : v + n ≤ 2 ^ 20)
    (hnone : ∀ u, v ≤ u → u < v + n → pte m d u = none) (hfail : ∀ k m', k ≤ n → m'.free = [] →
      Mapped A r hand d (mapRange (pte m d) v k p perm) m m' → Q false m')
    (hok : ∀ m', Mapped A r hand d (mapRange (pte m d) v n p perm) m m' → Q true m') :
    wp (mappages d (v * PGSIZE) (n * PGSIZE) (p * PGSIZE) perm) E Q m := by
  refine wp_mappages (I := Space A r hand d) (n := n) h (fun _ => Space.tree) (fun h' _ hm' => h'.grow hA hm')
    (fun w h' ht hk hpage => h'.store_same ht hk fun hlt => by omega) (h.poolSmall hA) ?_ ?_ rfl hn hvn
    hnone (fun k m' hk hfree h' hm' => hfail k m' hk hfree ⟨hm', h'⟩) fun m' h' hm' => hok m' ⟨hm', h'⟩
  · unfold PGROUNDDOWN
    simp only [PGSIZE]
    omega
  · unfold PGROUNDDOWN
    simp only [PGSIZE] at *
    omega

end Xv6.Vm
