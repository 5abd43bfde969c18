import Xv6.Vm.Grow

/-! # The kernel part of an address space

    Every directory that `setupkvm` builds has the same mappings above
    `KERNBASE`, none of them for the user (`kernelPtes`). The functions that
    grow and change the user part keep them (`AddrSpace`).
-/

namespace Xv6.Vm

open Op Function

variable {L : Layout} {R : Type} {r : R → Option Nat} {A : Set Nat} {hand hand' : List Nat}
  {m m' m'' : Phys} {d v f lo k oldsz newsz : Nat} {E : String → Prop}
  {Q : Option Nat → Phys → Prop} {w : BitVec 32}

/-! ## The mappings -/

namespace Kmap

/-- The first page of a row, its first frame, and the number of pages. -/
def first (k : Kmap) : Nat := k.virt / PGSIZE

def start (k : Kmap) : Nat := k.phys_start / PGSIZE

def count (k : Kmap) : Nat := (k.phys_end + 2 ^ 32 - k.phys_start) % 2 ^ 32 / PGSIZE

/-- Rows that `mappages` can map. -/
structure Ok (k : Kmap) : Prop where
  virt : k.virt = k.first * PGSIZE
  phys : k.phys_start = k.start * PGSIZE
  size : (k.phys_end + 2 ^ 32 - k.phys_start) % 2 ^ 32 = k.count * PGSIZE
  pos : 0 < k.count
  kernel : KERNPAGE ≤ k.first
  top : k.first + k.count ≤ 2 ^ 20
  high : k.start + k.count ≤ 2 ^ 20
  perm : has (k.perm ||| PTE_P) PTE_U = false

/-- Rows in ascending order, from page `lo` on. -/
def Ascending : Nat → List Kmap → Prop
  | _, [] => True
  | lo, k :: ks => lo ≤ k.first ∧ k.Ok ∧ Ascending (k.first + k.count) ks

/-- A row of `n` pages from page `v` on, mapped to the frames from `p` on. -/
theorem ok_of {k : Kmap} {v p n : Nat} (hvirt : k.virt = v * PGSIZE) (hphys : k.phys_start = p * PGSIZE)
    (hsize : (k.phys_end + 2 ^ 32 - k.phys_start) % 2 ^ 32 = n * PGSIZE) (hn : 0 < n)
    (hv : KERNPAGE ≤ v) (htop : v + n ≤ 2 ^ 20) (hhigh : p + n ≤ 2 ^ 20)
    (hperm : has (k.perm ||| PTE_P) PTE_U = false) :
    k.Ok ∧ k.first = v ∧ k.count = n ∧ k.start = p := by
  have hfirst : k.first = v := by rw [first, hvirt, Nat.mul_div_cancel _ (by decide)]
  have hstart : k.start = p := by rw [start, hphys, Nat.mul_div_cancel _ (by decide)]
  have hcount : k.count = n := by rw [count, hsize, Nat.mul_div_cancel _ (by decide)]
  refine ⟨⟨?_, ?_, ?_, ?_, ?_, ?_, ?_, hperm⟩, hfirst, hcount, hstart⟩
  · rwa [hfirst]
  · rwa [hstart]
  · rwa [hcount]
  · rwa [hcount]
  · rwa [hfirst]
  · rwa [hfirst, hcount]
  · rwa [hstart, hcount]
/-- The mappings of the rows, added to `ptes`. -/
def add (ptes : Nat → Option (BitVec 32)) : List Kmap → Nat → Option (BitVec 32)
  | [] => ptes
  | k :: ks => add (mapRange ptes k.first k.count k.start k.perm) ks

/-- A page has the entry of `ptes`, or one of a row. -/
theorem add_cases {rows : List Kmap} (h : Ascending lo rows) (ptes : Nat → Option (BitVec 32))
    (v : Nat) : add ptes rows v = ptes v ∨
      lo ≤ v ∧ ∃ w, add ptes rows v = some w ∧ KERNPAGE ≤ v ∧ has w PTE_U = false := by
  induction rows generalizing lo ptes with
  | nil => exact Or.inl rfl
  | cons k ks ih =>
    obtain ⟨hlo, hok, hks⟩ := h
    have hkernel := hok.kernel
    rcases ih hks (mapRange ptes k.first k.count k.start k.perm) with hrest | ⟨hge, w, hw⟩
    · by_cases hin : k.first ≤ v ∧ v < k.first + k.count
      · refine Or.inr ⟨by omega, _, hrest.trans (if_pos hin), by omega, ?_⟩
        exact (has_entry _ _ (k := 2) (by decide)).trans hok.perm
      · exact Or.inl (hrest.trans (if_neg hin))
    · exact Or.inr ⟨by omega, w, hw⟩

end Kmap

/-- The entries of the kernel part. -/
def kernelPtes (L : Layout) : Nat → Option (BitVec 32) := Kmap.add (fun _ => none) (kmap L)

theorem kmap_ascending (L : Layout) : Kmap.Ascending KERNPAGE (kmap L) := by
  have haligned := L.data_aligned
  have htext := L.text
  have hdata := L.data_lt
  have hkend := L.kend_le
  obtain ⟨D, hD⟩ : ∃ D, L.data = D * PGSIZE := 
    ⟨L.data / PGSIZE, (Nat.div_mul_cancel (Nat.dvd_of_mod_eq_zero haligned)).symm⟩
  have hD' : 256 < D ∧ D < 1024 := by
    simp only [PGSIZE, EXTMEM] at *
    omega
  have hW : has (PTE_W ||| PTE_P) PTE_U = false := by decide
  have h0 : has (0 ||| PTE_P) PTE_U = false := by decide
  obtain ⟨h₁, hf₁, hc₁, -⟩ := Kmap.ok_of (k := ⟨KERNBASE, 0, EXTMEM, PTE_W⟩) (v := KERNPAGE) (p := 0)
    (n := 256) rfl rfl rfl (by decide) le_rfl (by decide) (by decide) hW
  obtain ⟨h₂, hf₂, hc₂, -⟩ := Kmap.ok_of (k := ⟨KERNBASE + EXTMEM, EXTMEM, L.data, 0⟩)
    (v := KERNPAGE + 256) (p := 256) (n := D - 256) rfl rfl
    (by simp only [PGSIZE, EXTMEM] at *; omega) (by omega) (by omega)
    (by simp only [KERNPAGE, KERNBASE, PGSIZE]; omega) (by omega) h0
  obtain ⟨h₃, hf₃, hc₃, -⟩ := Kmap.ok_of (k := ⟨KERNBASE + L.data, L.data, PHYSTOP, PTE_W⟩)
    (v := KERNPAGE + D) (p := D) (n := 0xE000 - D)
    (by rw [hD]; simp only [KERNPAGE, KERNBASE, PGSIZE]; omega) hD
    (by rw [hD]; simp only [PGSIZE, PHYSTOP] at *; omega) (by omega) (by omega)
    (by simp only [KERNPAGE, KERNBASE, PGSIZE]; omega) (by omega) hW
  obtain ⟨h₄, hf₄, hc₄, -⟩ := Kmap.ok_of (k := ⟨DEVSPACE, DEVSPACE, 0, PTE_W⟩)
    (v := 0xFE000) (p := 0xFE000) (n := 0x2000) rfl rfl rfl (by decide) (by decide) (by decide)
    (by decide) hW
  refine ⟨?_, h₁, ?_, h₂, ?_, h₃, ?_, h₄, trivial⟩
  · rw [hf₁]
  · rw [hf₁, hc₁, hf₂]
  · rw [hf₂, hc₂, hf₃]
    omega
  · rw [hf₃, hc₃, hf₄]
    simp only [KERNPAGE, KERNBASE, PGSIZE]
    omega

/-- The user part is empty, and no entry of the kernel part is for the user. -/
theorem kernelPtes_user (hv : v < KERNPAGE) : kernelPtes L v = none := by
  rcases Kmap.add_cases (kmap_ascending L) (fun _ => none) v with h | ⟨hge, -⟩
  · exact h
  · omega

theorem kernelPtes_not_user (h : kernelPtes L v = some w) : has w PTE_U = false := by
  rcases Kmap.add_cases (kmap_ascending L) (fun _ => none) v with hnone | ⟨-, w', hw', -, hU⟩
  · rw [kernelPtes, hnone] at h
    cases h
  · obtain rfl : w' = w := Option.some_injective _ (hw'.symm.trans h)
    exact hU

/-- The I/O devices at the top of the address space are mapped. -/
theorem kernelPtes_dev (hv : DEVSPACE / PGSIZE ≤ v) (hv' : v < 2 ^ 20) : kernelPtes L v ≠ none := by
  have hin : DEVSPACE / PGSIZE ≤ v ∧ v < DEVSPACE / PGSIZE + 0x2000 := by
    refine ⟨hv, ?_⟩
    simp only [DEVSPACE, PGSIZE]
    omega
  intro hnone
  have hrow : kernelPtes L v = some _ := if_pos hin
  rw [hrow] at hnone
  cases hnone

/-! ## `setupkvm` -/

/-- The rows are mapped one after the other. If memory runs out, the directory
    is freed again. -/
theorem wp_setupkvm_loop (hA : Frames L A) :
    ∀ rows lo m, Kmap.Ascending lo rows → Space A r hand d m →
      (∀ u, lo ≤ u → pte m d u = none) →
      (∀ m', Mapped A r hand d (Kmap.add (pte m d) rows) m m' → Q (some d) m') →
      (∀ ptes m₁ m', m₁.free = [] → Mapped A r hand d ptes m m₁ →
        (∀ v, v < KERNPAGE → ptes v = pte m d v) → Allotment A r (hand ++ m'.free) →
        (∀ f, f ∉ m'.free → m'.page f = m₁.page f) → m₁.free <:+ m'.free → Q none m') →
      wp (setupkvm_loop L d rows) E Q m := by
  intro rows
  induction rows with
  | nil =>
    intro lo m _ hm _ hok _
    exact hok m (Mapped.rfl hm)
  | cons k ks ih =>
    intro lo m hrows hm hnone hok hfail
    obtain ⟨hlo, hk, hks⟩ := hrows
    -- rows lie in the kernel part
    have huser : ∀ n v, v < KERNPAGE → mapRange (pte m d) k.first n k.start k.perm v = pte m d v := by
      intro n v hv
      have := hk.kernel
      exact if_neg (by omega)
    unfold setupkvm_loop
    rw [wp_bind, hk.size, hk.virt, hk.phys]
    apply wp_mappages_kernel hm hA hk.kernel hk.pos hk.top
    · intro u hu _
      exact hnone u (by omega)
    · intro n m₁ _ hempty hm₁
      rw [if_neg (by decide), wp_bind]
      apply wp_freevm hm₁.space hA
      intro m' hpart hpage hfree
      exact hfail _ m₁ m' hempty hm₁ (huser n) hpart hpage hfree
    · intro m₁ hm₁
      rw [if_pos rfl]
      apply ih (k.first + k.count) m₁ hks hm₁.space
      · intro u hu
        rw [hm₁.pte, mapRange, if_neg (by omega)]
        exact hnone u (by omega)
      · intro m' hm'
        have hall := hm₁.trans hm'
        rw [hm₁.pte] at hall
        exact hok m' hall
      · intro ptes m₂ m' hempty hm₂ hsame hpart hpage hfree
        refine hfail ptes m₂ m' hempty (hm₁.trans hm₂) (fun v hv => ?_) hpart hpage hfree
        rw [hsame v hv, hm₁.pte, huser _ v hv]

/-- A new directory with nothing but the kernel part. -/
structure Setup (L : Layout) (A : Set Nat) (r : R → Option Nat) (hand : List Nat) (d : Nat)
    (m m' : Phys) : Prop where
  space : Space A r hand d m'
  pte : pte m' d = kernelPtes L
  table : ∀ i, table m' d i ≠ none → ∃ v, v / 1024 = i ∧ kernelPtes L v ≠ none
  page : ∀ f, f ∉ m.free → m'.page f = m.page f
  taken : m.free.length ≤ hand.length + m'.free.length + 1025

/-- All frames are back in the pool. -/
structure Undone (A : Set Nat) (r : R → Option Nat) (hand : List Nat) (m m' : Phys) : Prop where
  part : Allotment A r (hand ++ m'.free)
  free : m'.free.Perm m.free
  page : ∀ f, f ∉ m.free → m'.page f = m.page f

/-- The pool is determined by what the owners have. -/
theorem pool_perm {free free' : List Nat} (h : Allotment A r (hand ++ free))
    (h' : Allotment A r (hand ++ free')) : free'.Perm free := by
  obtain ⟨-, hnd, hdis⟩ := List.nodup_append.mp h.nodup
  obtain ⟨-, hnd', hdis'⟩ := List.nodup_append.mp h'.nodup
  have hsub : ∀ {l l' : List Nat}, Allotment A r (hand ++ l) → Allotment A r (hand ++ l') →
      ∀ f, f ∈ l → f ∈ l' := by
    intro l l' hl hl' f hf
    rcases (hl'.total f).mp (hl.mem_of_free (List.mem_append_right _ hf)) with hf' | ⟨x, hx⟩
    · rcases List.mem_append.mp hf' with hhand | hf'
      · exact absurd rfl ((List.nodup_append.mp hl.nodup).2.2 f hhand f hf)
      · exact hf'
    · exact absurd (List.mem_append_right _ hf) (hl.apart hx)
  exact (List.perm_ext_iff_of_nodup hnd' hnd).mpr fun f => ⟨hsub h' h f, hsub h h' f⟩

theorem wp_setupkvm (hA : Frames L A) (h : Allotment A r (hand ++ m.free))
    (hok : ∀ d m', Setup L A r hand d m m' → Q (some d) m')
    (hfail : ∀ m', m.free.length ≤ hand.length + 1025 → Undone A r hand m m' → Q none m') :
    wp (setupkvm L) E Q m := by
  unfold setupkvm
  rw [wp_bind]
  refine wp_kalloc (fun hempty => ?_) fun d fs hfree => ?_
  · exact hfail m (by rw [hempty]; simp) ⟨h, List.Perm.refl _, fun _ _ => rfl⟩
  · rw [wp_bind, wp_memset, replicate_zero, if_neg (by decide)]
    have hpool : (hand ++ m.free).Perm (d :: (hand ++ fs)) := by
      rw [hfree]
      exact List.perm_middle
    have hblank : ((({ m with free := fs } : Phys).setPage d 0)).page d = 0 := Phys.setPage_page_self ..
    have hspace : Space A r hand d (({ m with free := fs } : Phys).setPage d 0) :=
      Space.blank (h.perm hpool) hblank rfl
    have hpage : ∀ f, f ∉ m.free → (({ m with free := fs } : Phys).setPage d 0).page f = m.page f := by
      intro f hf
      apply Phys.setPage_page_ne
      rintro rfl
      exact hf (by simp [hfree])
    generalize hm₀ : ({ m with free := fs } : Phys).setPage d 0 = m₀ at *
    have hfree₀ : m₀.free = fs := by rw [← hm₀]; rfl
    -- a frame outside the pool is neither the directory nor a page table
    have hoff : ∀ {ptes m₁}, Mapped A r hand d ptes m₀ m₁ → ∀ f, f ∉ m.free → m₁.page f = m.page f := by
      intro ptes m₁ hm₁ f hf
      have hfd : f ≠ d := by
        rintro rfl
        exact hf (by simp [hfree])
      have hft : ∀ i, table m₀ d i ≠ some f := by
        intro i
        rw [table_blank hblank]
        simp
      have hff : f ∉ m₀.free := by
        rw [hfree₀]
        intro hmem
        exact hf (by simp [hfree, hmem])
      have hstays := hspace.stays hm₁.space (fun _ => id)
        (fun v w _ hw => by rw [pte_blank hblank] at hw; cases hw) hfd hft hff
      rw [hm₁.page f hfd hstays.1, hpage f hf]
    -- only page tables have left the pool
    have htaken : ∀ {m₁}, Space A r hand d m₁ → (∀ v, v < KERNPAGE → pte m₁ d v = none) →
        m.free.length ≤ hand.length + m₁.free.length + 1025 := by
      intro m₁ hm₁ hnone
      have hfew := hspace.length_free_le hm₁ fun v hv (_ : ¬(0 ≤ v ∧ v < 0)) => by
        rw [hnone v hv, pte_blank hblank]
      rw [hfree₀] at hfew
      rw [hfree, List.length_cons]
      omega
    refine wp_setupkvm_loop hA _ _ _ (kmap_ascending L) hspace (fun u _ => pte_blank hblank u)
      (fun m' hm' => hok d m' ⟨hm'.space, ?_, fun i hi => ?_, hoff hm', ?_⟩)
      fun ptes m₁ m' hempty hm₁ hsame hpart hpage' _ => hfail m' ?_ ⟨hpart, ?_, fun f hf => ?_⟩
    · rw [hm'.pte, show pte m₀ d = fun _ => none from funext (pte_blank hblank)]
      rfl
    · have hnone := funext (pte_blank hblank)
      obtain ⟨v, hv, hpte⟩ := hm'.fresh i (by rwa [table_blank hblank])
      rw [hnone] at hpte
      exact ⟨v, hv, hpte⟩
    · refine htaken hm'.space fun v hv => ?_
      rw [hm'.pte, show pte m₀ d = fun _ => none from funext (pte_blank hblank)]
      exact kernelPtes_user hv
    · have hfew := htaken hm₁.space fun v hv => by rw [hm₁.pte, hsame v hv, pte_blank hblank]
      rw [hempty, List.length_nil] at hfew
      omega
    · exact pool_perm h hpart
    · rw [hpage' f (mt (pool_perm h hpart).mem_iff.mp hf), hoff hm₁ f hf]

/-! ## Address spaces with the kernel part -/

/-- An address space whose kernel part is that of `setupkvm`. -/
structure AddrSpace (L : Layout) (A : Set Nat) (r : R → Option Nat) (hand : List Nat) (d : Nat)
    (m : Phys) : Prop where
  space : Space A r hand d m
  kernel : ∀ v, KERNPAGE ≤ v → pte m d v = kernelPtes L v

theorem Setup.addrSpace (h : Setup L A r hand d m m') : AddrSpace L A r hand d m' :=
  ⟨h.space, fun v _ => congrFun h.pte v⟩

theorem Filled.addrSpace (h : Filled A r hand d lo k m m') (hk : k ≤ KERNPAGE)
    (hm : AddrSpace L A r hand' d m) : AddrSpace L A r hand d m' :=
  ⟨h.space, fun v hv => by rw [h.old v (by omega), hm.kernel v hv]⟩

theorem Unmapped.addrSpace (h : Unmapped A r hand d (cut (Vm.pte m d) lo k) m m') (hk : k ≤ KERNPAGE)
    (hm : AddrSpace L A r hand' d m) : AddrSpace L A r hand d m' :=
  ⟨h.space, fun v hv => by rw [h.pte, cut, if_neg (by omega), hm.kernel v hv]⟩

/-- A page for the user is below `KERNBASE`. -/
theorem AddrSpace.user_lt (h : AddrSpace L A r hand d m) (hw : pte m d v = some w)
    (hU : has w PTE_U = true) : v < KERNPAGE := by
  by_contra hge
  rw [h.kernel v (by omega)] at hw
  rw [kernelPtes_not_user hw] at hU
  cases hU

/-- The devices have page tables. -/
theorem AddrSpace.table_dev (h : AddrSpace L A r hand d m) (hv : DEVSPACE / PGSIZE ≤ v)
    (hv' : v < 2 ^ 20) : table m d (v / 1024) ≠ none := by
  intro hnone
  have hpte : pte m d v = none := by
    unfold pte
    rw [hnone]
  rw [h.kernel v (le_trans (by decide) hv)] at hpte
  exact kernelPtes_dev hv hv' hpte

/-! ### `clearpteu` -/

/-- An entry without the permission for the user. -/
def clearU (w : BitVec 32) : BitVec 32 := w &&& ~~~PTE_U

theorem getLsbD_clearU (w : BitVec 32) (i : Nat) :
    (clearU w).getLsbD i = (w.getLsbD i && !decide (i = 2)) := by
  unfold clearU
  rw [BitVec.getLsbD_and, BitVec.getLsbD_not, show PTE_U = BitVec.twoPow 32 2 from rfl,
    BitVec.getLsbD_twoPow]
  by_cases hi : i < 32
  · by_cases h2 : i = 2
    · subst h2
      simp
    · simp [hi, h2, Ne.symm h2]
  · rw [BitVec.getLsbD_of_ge w i (by omega)]
    rfl

theorem has_clearU_P (w : BitVec 32) : has (clearU w) PTE_P = has w PTE_P := by
  rw [show PTE_P = BitVec.twoPow 32 0 from rfl, has_twoPow _ (by decide), has_twoPow _ (by decide),
    getLsbD_clearU]
  simp

theorem has_clearU_U (w : BitVec 32) : has (clearU w) PTE_U = false := by
  rw [show PTE_U = BitVec.twoPow 32 2 from rfl, has_twoPow _ (by decide), getLsbD_clearU]
  simp

theorem frame_clearU (w : BitVec 32) : frame (clearU w) = frame w := by
  unfold frame
  congr 2
  apply BitVec.eq_of_getLsbD_eq
  intro i _
  rw [BitVec.getLsbD_and, BitVec.getLsbD_and, getLsbD_clearU]
  by_cases h2 : i = 2
  · subst h2
    simp
  · simp [h2]

theorem clearU_eq (h : has w PTE_U = false) : clearU w = w := by
  rw [show PTE_U = BitVec.twoPow 32 2 from rfl, has_twoPow _ (by decide)] at h
  apply BitVec.eq_of_getLsbD_eq
  intro i _
  rw [getLsbD_clearU]
  by_cases h2 : i = 2
  · subst h2
    rw [h]
    rfl
  · simp [h2]

/-- Page `v` has lost the permission for the user. -/
structure Cleared (A : Set Nat) (r : R → Option Nat) (hand : List Nat) (d v : Nat)
    (m m' : Phys) : Prop where
  space : Space A r hand d m'
  pte : pte m' d = update (pte m d) v ((pte m d v).map clearU)
  table : table m' d = table m d
  page : ∀ f, (∀ i, Vm.table m d i ≠ some f) → m'.page f = m.page f
  free : m'.free = m.free

theorem wp_clearpteu (h : Space A r hand d m) {uva : Nat} (huva : uva < 2 ^ 32) {Q : Unit → Phys → Prop}
    (hpanic : table m d (uva / PGSIZE / 1024) = none → E "clearpteu")
    (hok : ∀ m', Cleared A r hand d (uva / PGSIZE) m m' → Q () m') :
    wp (clearpteu d uva) E Q m := by
  have hPDX : PDX uva = uva / PGSIZE / 1024 := by
    unfold PDX
    simp only [PGSIZE]
    omega
  have hPTX : PTX uva = uva / PGSIZE % 1024 := rfl
  unfold clearpteu
  rw [wp_bind]
  apply wp_walkpgdir
  rw [hPDX, hPTX]
  cases ht : table m d (uva / PGSIZE / 1024) with
  | none => exact hpanic ht
  | some t =>
    have hk : uva / PGSIZE % 1024 < 1024 := Nat.mod_lt _ (by decide)
    have hentry : pte m d (uva / PGSIZE) = if has ((m.page t).word (uva / PGSIZE % 1024)) PTE_P
        then some ((m.page t).word (uva / PGSIZE % 1024)) else none := by
      unfold pte
      rw [ht]
    simp only [Option.map_some, wp_bind, wp_load, wp_store]
    generalize (m.page t).word (uva / PGSIZE % 1024) = w at hentry ⊢
    -- the entry is present afterwards if it was before
    have hmap : (if has (clearU w) PTE_P then some (clearU w) else none) =
        (pte m d (uva / PGSIZE)).map clearU := by
      rw [hentry, has_clearU_P]
      split <;> rfl
    obtain ⟨htab, hpte⟩ := h.tree.store ht hk (clearU w)
    rw [page_index, hmap] at hpte
    have hspace := h.store_same ht hk (w := clearU w) fun _ => by
      rw [page_index, hmap, Option.map_map]
      congr 1
      funext x
      exact frame_clearU x
    apply hok
    refine ⟨hspace, hpte, htab, fun f hft => ?_, rfl⟩
    apply Phys.setPage_page_ne
    rintro rfl
    exact hft _ ht

theorem Cleared.addrSpace (h : Cleared A r hand d v m m') (hm : AddrSpace L A r hand d m) :
    AddrSpace L A r hand d m' := by
  refine ⟨h.space, fun u hu => ?_⟩
  rw [h.pte]
  by_cases huv : u = v
  · -- the kernel part has no permission for the user to lose
    subst huv
    rw [update_self, hm.kernel u hu]
    cases hw : kernelPtes L u with
    | none => rfl
    | some w => rw [Option.map_some, clearU_eq (kernelPtes_not_user hw)]
  · rw [update_of_ne huv, hm.kernel u hu]

/-! ### Directories that have been built -/

/-- The undoing in `allocuvm`. -/
theorem deallocuvm_keeps (hA : Frames L A) (h : AddrSpace L A r hand d m) (hold : oldsz ≤ newsz)
    (hnew : newsz < KERNBASE) {Q : Nat → Phys → Prop}
    (hQ : ∀ a m', AddrSpace L A r hand d m' → Q a m') : wp (deallocuvm L d newsz oldsz) E Q m := by
  by_cases hlt : oldsz < newsz
  · apply wp_deallocuvm h.space hA hnew.le hlt
    intro m' hm'
    exact hQ _ _ (hm'.addrSpace (pages_le hnew.le) h)
  · unfold deallocuvm
    rw [if_pos (by omega)]
    exact hQ _ _ h

theorem allocuvm_loop_keeps (hA : Frames L A) (hold : oldsz ≤ newsz) (hnew : newsz < KERNBASE) :
    ∀ fuel k m, pages newsz + 1 - k ≤ fuel → k ≤ pages newsz → AddrSpace L A r hand d m →
      wp (allocuvm_loop L d oldsz newsz fuel (k * PGSIZE)) (fun _ => True)
        (fun _ m' => AddrSpace L A r hand d m') m := by
  intro fuel
  have hpages := pages_le hnew.le
  induction fuel with
  | zero => omega
  | succ fuel ih =>
    intro k m hfuel hk h
    unfold allocuvm_loop
    by_cases hlt : k * PGSIZE < newsz
    · have hk' := lt_pages.mpr hlt
      rw [if_pos hlt, wp_bind]
      refine wp_kalloc (fun _ => ?_) fun f fs hfree => ?_
      · rw [wp_bind]
        apply deallocuvm_keeps hA h hold hnew
        intro _ m' hm'
        exact hm'
      · rw [wp_bind, wp_memset, replicate_zero, wp_bind]
        obtain ⟨hspace, hpte, -, -⟩ := h.space.takeFrame hfree 0
        have hone : AddrSpace L A r (f :: hand) d (({ m with free := fs } : Phys).setPage f 0) :=
          ⟨hspace, fun v hv => by rw [hpte, h.kernel v hv]⟩
        refine wp_mappages_user hspace hA (by omega) (by decide) (fun _ => trivial) (fun _ => ?_)
          fun m' _ hm' => ?_
        · rw [if_neg (by decide), wp_bind]
          apply deallocuvm_keeps hA hone hold hnew
          intro _ m' hm'
          have hmem := hA f (hm'.space.mem_of_free (by simp))
          rw [wp_bind]
          apply wp_kfree hmem.1 hmem.2
          obtain ⟨hback, hpte', -, -⟩ := hm'.space.putBack
          exact ⟨hback, fun v hv => by rw [hpte', hm'.kernel v hv]⟩
        · rw [if_pos rfl, page_add (by simp only [KERNPAGE, KERNBASE, PGSIZE] at hpages; omega)]
          apply ih (k + 1) m' (by omega) hk'
          refine ⟨hm'.space, fun v hv => ?_⟩
          rw [hm'.pte, update_of_ne (by omega), hone.kernel v hv]
    · rw [if_neg hlt]
      exact h

/-- `allocuvm` keeps the kernel part, whatever it is called with. -/
theorem allocuvm_keeps (hA : Frames L A) (h : AddrSpace L A r hand d m) :
    wp (allocuvm L d oldsz newsz) (fun _ => True) (fun _ m' => AddrSpace L A r hand d m') m := by
  unfold allocuvm
  by_cases hge : newsz ≥ KERNBASE
  · rw [if_pos hge]
    exact h
  · rw [if_neg hge]
    by_cases hlt : newsz < oldsz
    · rw [if_pos hlt]
      exact h
    · have hpages := pages_le (Nat.le_of_not_le hge)
      rw [if_neg hlt, wp_bind, PGROUNDUP_eq (by omega)]
      have hloop := allocuvm_loop_keeps hA (Nat.le_of_not_lt hlt) (Nat.lt_of_not_le hge) (2 ^ 20 + 1)
        (pages oldsz) m (by simp only [KERNPAGE, KERNBASE, PGSIZE] at hpages; omega)
        (pages_mono (Nat.le_of_not_lt hlt)) h
      exact hloop.imp fun _ m' hm' => hm'

/-- The states in which the directory `d` has been built by `setupkvm`,
    `allocuvm` and `clearpteu`. What user pages hold may change in between. -/
inductive Built (L : Layout) (A : Set Nat) (r : R → Option Nat) (d : Nat) : Phys → Prop
  | setup {m m' : Phys} (hm : Allotment A r m.free) (hok : setupkvm L m = .ok (some d) m') :
    Built L A r d m'
  | alloc {m m' : Phys} {oldsz newsz sz : Nat} (hm : Built L A r d m)
    (hok : allocuvm L d oldsz newsz m = .ok sz m') : Built L A r d m'
  | clear {m m' : Phys} {uva : Nat} (hm : Built L A r d m) (huva : uva < 2 ^ 32)
    (hok : clearpteu d uva m = .ok () m') : Built L A r d m'
  | write {m : Phys} {v : Nat} {w : BitVec 32} (hm : Built L A r d m) (hv : v < KERNPAGE)
    (hw : pte m d v = some w) (p : Page) : Built L A r d (m.setPage (frame w) p)

theorem Built.addrSpace (h : Built L A r d m) (hA : Frames L A) : AddrSpace L A r [] d m := by
  induction h with
  | setup hm hok =>
    refine wp.of_ok (E := fun _ => False) (Q := fun o m' => ∀ d, o = some d → AddrSpace L A r [] d m')
      (wp_setupkvm hA (show Allotment _ _ ([] ++ _) from hm) ?_ ?_) hok _ rfl
    · intro d' m' hsetup d hd
      cases hd
      exact hsetup.addrSpace
    · intro m' _ _ d hd
      cases hd
  | alloc _ hok ih => exact (allocuvm_keeps hA ih).of_ok hok
  | clear _ huva hok ih =>
    refine wp.of_ok (E := fun _ => True) (Q := fun _ m' => AddrSpace L A r [] d m')
      (wp_clearpteu ih.space huva (fun _ => trivial) ?_) hok
    intro m' hm'
    exact hm'.addrSpace ih
  | write _ hv hw p ih =>
    obtain ⟨hd, ht⟩ := ih.space.user_not_tree hv hw
    refine ⟨ih.space.setPage hd ht p, fun u hu => ?_⟩
    rw [(own_setPage hd ht p).2.1, ih.kernel u hu]

end Xv6.Vm
