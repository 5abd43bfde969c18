import Xv6.Vm.Memory
import Xv6.Framework.Allotment

/-! # Two-level page tables (`vm.c`)

    `walkpgdir` and `mappages`, and what they do to an address space.

    An address space is what a page directory `d` and the memory make of each
    other: `table m d i` is the page table in entry `i` of the directory,
    `pte m d v` the entry for virtual page `v`. `own m d` lists the frames it
    consists of: the directory, its page tables, and the user pages. Together
    with the frames of everybody else, `r`, and the pool they are a
    `Allotment`; frames that have been allocated and not yet put to use,
    `hand`, count as pool.
-/

namespace Xv6.Vm

open BitRange Op Function

/-! ## The code -/

/-- `*pte`, for an entry given by its table and its index. -/
def load (pte : Nat × Nat) : MemOp (BitVec 32) := do
  let m ← Op.get
  pure ((m.page pte.1).word pte.2)

/-- `*pte = w` -/
def store (pte : Nat × Nat) (w : BitVec 32) : MemOp Unit :=
  Op.modify fun m => m.setPage pte.1 ((m.page pte.1).setWord pte.2 w)

/-- Return the PTE in page table `pgdir` that corresponds to virtual address
    `va`. If `alloc`, create any required page table pages. -/
def walkpgdir (pgdir va : Nat) (alloc : Bool) : MemOp (Option (Nat × Nat)) := do
  let pde ← load (pgdir, PDX va)
  if has pde PTE_P then
    pure (some (frame pde, PTX va))
  else if alloc then
    match ← kalloc with
    | none => pure none
    | some pgtab =>
      -- Make sure all those PTE_P bits are zero.
      memset pgtab 0
      store (pgdir, PDX va) (entry pgtab (PTE_P ||| PTE_W ||| PTE_U))
      pure (some (pgtab, PTX va))
  else
    pure none

/-- The loop of `mappages`; `a` reaches `last` in at most `2^20` steps. -/
def mappages_loop (pgdir last : Nat) (perm : BitVec 32) : (fuel a pa : Nat) → MemOp Bool
  | 0, _, _ => Op.block
  | fuel + 1, a, pa => do
    match ← walkpgdir pgdir a true with
    | none => pure false
    | some pte =>
      let w ← load pte
      if has w PTE_P then
        Op.panic "remap"
      else
        store pte (BitVec.ofNat 32 pa ||| perm ||| PTE_P)
        if a = last then
          pure true
        else
          mappages_loop pgdir last perm fuel ((a + PGSIZE) % 2 ^ 32) ((pa + PGSIZE) % 2 ^ 32)

/-- Create PTEs for virtual addresses starting at `va` that refer to physical
    addresses starting at `pa`; `false` is the result -1. -/
def mappages (pgdir va size pa : Nat) (perm : BitVec 32) : MemOp Bool :=
  mappages_loop pgdir (PGROUNDDOWN ((va + size + 2 ^ 32 - 1) % 2 ^ 32)) perm (2 ^ 20)
    (PGROUNDDOWN va) pa

/-! ## Address spaces -/

/-- The page table in entry `i` of the directory. -/
def table (m : Phys) (d i : Nat) : Option Nat :=
  if has ((m.page d).word i) PTE_P then some (frame ((m.page d).word i)) else none

/-- The entry for virtual page `v`, if the page is present. -/
def pte (m : Phys) (d v : Nat) : Option (BitVec 32) :=
  match table m d (v / 1024) with
  | none => none
  | some t =>
    if has ((m.page t).word (v % 1024)) PTE_P then some ((m.page t).word (v % 1024)) else none

/-- The parts of an address space. -/
inductive Own where
  | dir
  | table (i : Nat)
  | user (v : Nat)
deriving DecidableEq

/-- The number of the first virtual page of the kernel. -/
abbrev KERNPAGE : Nat := KERNBASE / PGSIZE

/-- The frames of an address space. -/
def own (m : Phys) (d : Nat) : Own → Option Nat
  | .dir => some d
  | .table i => Vm.table m d i
  | .user v => if v < KERNPAGE then (pte m d v).map frame else none

variable {m m' : Phys} {d i t v : Nat} {f : Nat} {fs : List Nat} {k : Nat}

theorem word_of_ge (p : Page) (h : 1024 ≤ i) : p.word i = 0 := by
  apply BitVec.eq_of_getLsbD_eq
  intro j hj
  unfold Page.word cell
  rw [BitVec.getLsbD_extractLsb', BitVec.getLsbD_of_ge _ _ (by simp only [PGSIZE]; omega)]
  simp

theorem table_eq_some : table m d i = some t ↔
    has ((m.page d).word i) PTE_P = true ∧ frame ((m.page d).word i) = t := by
  unfold table
  split
  · next h => simp [h]
  · next h => simp [h]

theorem table_lt (h : table m d i = some t) : i < 1024 := by
  by_contra hge
  have hw := (table_eq_some.mp h).1
  rw [word_of_ge _ (by omega)] at hw
  exact absurd hw (by decide)

/-- Only the page of the directory matters for the page tables. -/
theorem table_congr (h : m'.page d = m.page d) : table m' d = table m d := by
  funext i
  unfold table
  rw [h]

/-- Only the pages of the directory and its tables matter. -/
theorem pte_congr (h : m'.page d = m.page d)
    (ht : ∀ i t, table m d i = some t → m'.page t = m.page t) : pte m' d = pte m d := by
  funext v
  unfold pte
  rw [table_congr h]
  cases htab : table m d (v / 1024) with
  | none => rfl
  | some t => simp only [ht _ _ htab]

theorem own_congr (h : m'.page d = m.page d)
    (ht : ∀ i t, table m d i = some t → m'.page t = m.page t) : own m' d = own m d := by
  funext a
  cases a with
  | dir => rfl
  | table i => exact congrFun (table_congr h) i
  | user v =>
    unfold own
    rw [pte_congr h ht]

theorem own_user (hv : v < KERNPAGE) : own m d (.user v) = (pte m d v).map frame := if_pos hv

/-! ## Changing a page table -/

/-- The directory and its page tables are different frames, none of them in
    the pool. -/
structure Tree (d : Nat) (m : Phys) : Prop where
  table_ne_dir : ∀ {i t}, table m d i = some t → t ≠ d
  table_inj : ∀ {i j t}, table m d i = some t → table m d j = some t → i = j
  dir_not_free : d ∉ m.free
  table_not_free : ∀ {i t}, table m d i = some t → t ∉ m.free
  nodup : m.free.Nodup

theorem Tree.congr (h : Tree d m) (htab : table m' d = table m d) (hfree : m'.free = m.free) :
    Tree d m' where
  table_ne_dir hi := h.table_ne_dir (htab ▸ hi)
  table_inj hi hj := h.table_inj (htab ▸ hi) (htab ▸ hj)
  dir_not_free := hfree ▸ h.dir_not_free
  table_not_free hi := hfree ▸ h.table_not_free (htab ▸ hi)
  nodup := hfree ▸ h.nodup

/-- A new, empty page table. -/
def Phys.newTable (m : Phys) (d i t : Nat) (fs : List Nat) : Phys :=
  (({ m with free := fs } : Phys).setPage t 0).setPage d
    ((m.page d).setWord i (entry t (PTE_P ||| PTE_W ||| PTE_U)))

theorem table_newTable (fs : List Nat) (hi : i < 1024) (ht : t < 2 ^ 20) :
    table (m.newTable d i t fs) d = update (table m d) i (some t) := by
  funext j
  unfold table Phys.newTable
  rw [Phys.setPage_page_self]
  by_cases hj : j = i
  · subst hj
    rw [Page.word_setWord_self _ _ hi, update_self, frame_entry ht (by decide)]
    exact if_pos (has_entry t (PTE_P ||| PTE_W ||| PTE_U) (k := 0) (by decide))
  · rw [Page.word_setWord_ne _ _ hj, update_of_ne hj]

theorem newTable_page (hfd : f ≠ d) (hft : f ≠ t) : (m.newTable d i t fs).page f = m.page f := by
  unfold Phys.newTable
  rw [Phys.setPage_page_ne _ _ hfd, Phys.setPage_page_ne _ _ hft]

theorem Tree.pte_newTable (h : Tree d m) (hi : i < 1024) (hnone : table m d i = none)
    (hfree : m.free = t :: fs) (ht : t < 2 ^ 20) : pte (m.newTable d i t fs) d = pte m d := by
  have hpool : t ∈ m.free := by simp [hfree]
  have htd : t ≠ d := fun he => h.dir_not_free (he ▸ hpool)
  funext v
  unfold pte
  rw [table_newTable fs hi ht]
  by_cases hv : v / 1024 = i
  · -- the new table has no entries
    have hzero : (m.newTable d i t fs).page t = 0 := by
      unfold Phys.newTable
      rw [Phys.setPage_page_ne _ _ htd, Phys.setPage_page_self]
    rw [hv, update_self, hnone]
    simp only [hzero, Page.word_zero]
    rfl
  · rw [update_of_ne hv]
    cases hj : table m d (v / 1024) with
    | none => rfl
    | some u =>
      have hut : u ≠ t := fun he => h.table_not_free hj (he ▸ hpool)
      simp only [newTable_page (h.table_ne_dir hj) hut]

theorem Tree.newTable (h : Tree d m) (hi : i < 1024) (hnone : table m d i = none)
    (hfree : m.free = t :: fs) (ht : t < 2 ^ 20) : Tree d (m.newTable d i t fs) := by
  have hpool : t ∈ m.free := by simp [hfree]
  have htab := table_newTable (m := m) (d := d) fs hi ht
  have hnd : t ∉ fs ∧ fs.Nodup := List.nodup_cons.mp (hfree ▸ h.nodup)
  have hsub : ∀ {f}, f ∈ fs → f ∈ m.free := by
    intro f hf
    rw [hfree]
    exact List.mem_cons_of_mem _ hf
  -- a page table is the new one or one of the old
  have hcases : ∀ {j u}, table (m.newTable d i t fs) d j = some u →
      j = i ∧ u = t ∨ j ≠ i ∧ table m d j = some u := by
    intro j u hj
    rw [htab] at hj
    by_cases hji : j = i
    · subst hji
      rw [update_self] at hj
      exact Or.inl ⟨rfl, (Option.some.inj hj).symm⟩
    · rw [update_of_ne hji] at hj
      exact Or.inr ⟨hji, hj⟩
  refine ⟨fun hj => ?_, fun hj hk => ?_, fun hd => h.dir_not_free (hsub hd), fun hj => ?_, hnd.2⟩
  · rcases hcases hj with ⟨rfl, rfl⟩ | ⟨-, hj⟩
    · exact fun he => h.dir_not_free (he ▸ hpool)
    · exact h.table_ne_dir hj
  · rcases hcases hj with ⟨rfl, rfl⟩ | ⟨-, hoj⟩
    · rcases hcases hk with ⟨rfl, -⟩ | ⟨-, hok⟩
      · rfl
      · exact absurd hpool (h.table_not_free hok)
    · rcases hcases hk with ⟨rfl, rfl⟩ | ⟨-, hok⟩
      · exact absurd hpool (h.table_not_free hoj)
      · exact h.table_inj hoj hok
  · rcases hcases hj with ⟨rfl, rfl⟩ | ⟨-, hold⟩
    · exact hnd.1
    · exact fun hu => h.table_not_free hold (hsub hu)

/-- Storing an entry. -/
theorem Tree.store (h : Tree d m) (ht : table m d i = some t) (hk : k < 1024) (w : BitVec 32) :
    let m' := m.setPage t ((m.page t).setWord k w)
    table m' d = table m d ∧
    pte m' d = update (pte m d) (1024 * i + k) (if has w PTE_P then some w else none) := by
  intro m'
  have htab : table m' d = table m d :=
    table_congr (Phys.setPage_page_ne _ _ (h.table_ne_dir ht).symm)
  refine ⟨htab, ?_⟩
  funext v
  unfold pte
  rw [htab]
  by_cases hv : v = 1024 * i + k
  · have hdiv : v / 1024 = i := by omega
    have hmod : v % 1024 = k := by omega
    rw [hv, update_self, ← hv, hdiv, hmod, ht]
    simp only [m', Phys.setPage_page_self, Page.word_setWord_self _ _ hk]
  · rw [update_of_ne hv]
    cases hj : table m d (v / 1024) with
    | none => rfl
    | some u =>
      by_cases hu : u = t
      · subst hu
        have hi : v / 1024 = i := h.table_inj hj ht
        have hmod : v % 1024 ≠ k := by omega
        simp only [m', Phys.setPage_page_self, Page.word_setWord_ne _ _ hmod]
      · simp only [m', Phys.setPage_page_ne _ _ hu]

/-! ## Changing an address space -/

section

variable {R : Type} {r : R → Option Nat} {A : Set Nat} {hand : List Nat} {w : BitVec 32}
  {L : Layout}

/-- The frames of the address space `d`, of the others, and of the pool. -/
abbrev Space (A : Set Nat) (r : R → Option Nat) (hand : List Nat) (d : Nat) (m : Phys) : Prop :=
  Allotment A (Sum.elim (own m d) r) (hand ++ m.free)

/-- Frames that `kfree` accepts. -/
def Frames (L : Layout) (A : Set Nat) : Prop :=
  ∀ f ∈ A, L.kend ≤ f * PGSIZE ∧ f * PGSIZE < PHYSTOP

theorem Frames.lt (h : Frames L A) (hf : f ∈ A) : f < 2 ^ 20 := by
  have := (h f hf).2
  simp only [PHYSTOP, PGSIZE] at this
  omega

section

variable (h : Space A r hand d m)
include h

theorem Space.table_ne_dir (ht : table m d i = some t) : t ≠ d :=
  Allotment.ne_of_own h (a := Sum.inl (Own.table i)) (b := Sum.inl Own.dir) ht rfl (by simp)

theorem Space.table_inj {j : Nat} (hi : table m d i = some t) (hj : table m d j = some t) :
    i = j := by
  have := h.inj (a := Sum.inl (Own.table i)) (b := Sum.inl (Own.table j)) hi hj
  simpa using this

theorem Space.user_not_tree (hv : v < KERNPAGE) (hw : pte m d v = some w) :
    frame w ≠ d ∧ ∀ i, table m d i ≠ some (frame w) := by
  have hown : own m d (.user v) = some (frame w) := by rw [own_user hv, hw]; rfl
  refine ⟨Allotment.ne_of_own h (a := Sum.inl (Own.user v)) (b := Sum.inl Own.dir) hown rfl (by simp),
    fun i hi => ?_⟩
  have := h.inj (a := Sum.inl (Own.user v)) (b := Sum.inl (Own.table i)) hown hi
  simp at this

theorem Space.pool_not_tree (hf : f ∈ hand ++ m.free) :
    f ≠ d ∧ ∀ i, table m d i ≠ some f :=
  ⟨(Allotment.ne_of_free h (a := Sum.inl Own.dir) rfl hf).symm, fun i hi =>
    Allotment.ne_of_free h (a := Sum.inl (Own.table i)) hi hf rfl⟩

end

/-- A page of zeros is a directory without page tables. -/
theorem table_blank (h : m.page d = 0) (i : Nat) : table m d i = none := by
  unfold table
  rw [h, Page.word_zero]
  exact if_neg (by decide)

theorem pte_blank (h : m.page d = 0) (v : Nat) : pte m d v = none := by
  unfold pte
  rw [table_blank h]

theorem own_blank [DecidableEq R] (h : m.page d = 0) :
    Sum.elim (own m d) r =
      update (Sum.elim (fun _ : Own => none) r) (Sum.inl Own.dir) (some d) := by
  funext a
  match a with
  | Sum.inl Own.dir => rfl
  | Sum.inl (Own.table i) =>
    rw [update_of_ne (by simp)]
    exact table_blank h i
  | Sum.inl (Own.user v) =>
    rw [update_of_ne (by simp)]
    show own m d (.user v) = none
    rw [own, pte_blank h]
    split <;> rfl
  | Sum.inr x => rw [update_of_ne (by simp), Sum.elim_inr, Sum.elim_inr]

/-- A frame from the pool is a directory of its own once it is cleared. -/
theorem Space.blank {free : List Nat} (h : Allotment A r (d :: free)) (hd : m.page d = 0)
    (hfree : hand ++ m.free = free) : Space A r hand d m := by
  classical
  show Allotment A (Sum.elim (own m d) r) (hand ++ m.free)
  rw [own_blank hd, hfree]
  refine Allotment.take (h.reindex (fun x y => x = Sum.inr y) ?_ ?_ ?_) rfl
  · intro x x' y hx hx'
    rw [hx, hx']
  · intro x f hx
    match x, hx with
    | Sum.inr y, hx => exact ⟨y, rfl, hx⟩
  · intro y f hy
    exact ⟨Sum.inr y, rfl, hy⟩

/-- What is stored in a frame outside the page tables does not concern them. -/
theorem own_setPage (hf : f ≠ d) (ht : ∀ i, table m d i ≠ some f) (p : Page) :
    table (m.setPage f p) d = table m d ∧ pte (m.setPage f p) d = pte m d ∧
      own (m.setPage f p) d = own m d := by
  have hd : (m.setPage f p).page d = m.page d := m.setPage_page_ne p (Ne.symm hf)
  have htab : ∀ i t, table m d i = some t → (m.setPage f p).page t = m.page t := by
    intro i t hit
    apply m.setPage_page_ne p
    rintro rfl
    exact ht i hit
  exact ⟨table_congr hd, pte_congr hd htab, own_congr hd htab⟩

section

variable (h : Space A r hand d m)
include h

theorem Space.tree : Tree d m where
  table_ne_dir hi := h.table_ne_dir hi
  table_inj hi hj := h.table_inj hi hj
  dir_not_free hd := (h.pool_not_tree (List.mem_append_right _ hd)).1 rfl
  table_not_free hi ht := (h.pool_not_tree (List.mem_append_right _ ht)).2 _ hi
  nodup := (List.nodup_append.mp h.nodup).2.1

theorem Space.newTable (hA : Frames L A) (hi : i < 1024) (hnone : table m d i = none)
    (hfree : m.free = t :: fs) : Space A r hand d (m.newTable d i t fs) := by
  classical
  have ht : t < 2 ^ 20 := hA.lt (h.mem_of_free (show t ∈ hand ++ m.free by simp [hfree]))
  have htab := table_newTable (m := m) (d := d) fs hi ht
  -- the frame moves from the pool to the entry `i` of the directory
  have hown : Sum.elim (own (m.newTable d i t fs) d) r =
      update (Sum.elim (own m d) r) (Sum.inl (Own.table i)) (some t) := by
    funext a
    by_cases ha : a = Sum.inl (Own.table i)
    · subst ha
      rw [update_self]
      show table (m.newTable d i t fs) d i = some t
      rw [htab, update_self]
    · rw [update_of_ne ha]
      rcases a with (_ | j | v) | x
      · rfl
      · have hj : j ≠ i := fun he => ha (by rw [he])
        show table (m.newTable d i t fs) d j = table m d j
        rw [htab, update_of_ne hj]
      · show own (m.newTable d i t fs) d (.user v) = own m d (.user v)
        unfold own
        rw [h.tree.pte_newTable hi hnone hfree ht]
      · rfl
  show Allotment A (Sum.elim (own (m.newTable d i t fs) d) r) (hand ++ fs)
  rw [hown]
  have hperm : (hand ++ m.free).Perm (t :: (hand ++ fs)) := by
    rw [hfree]
    exact List.perm_middle
  exact Allotment.take (h.perm hperm) (show own m d (.table i) = none from hnone)

/-- Storing an entry of the kernel part, or one for the same frame. -/
theorem Space.store_same (ht : table m d i = some t) (hk : k < 1024) (hw : 1024 * i + k < KERNPAGE →
      (if has w PTE_P then some w else none).map frame = (pte m d (1024 * i + k)).map frame) :
    Space A r hand d (m.setPage t ((m.page t).setWord k w)) := by
  obtain ⟨htab, hpte⟩ := h.tree.store ht hk w
  have hown : own (m.setPage t ((m.page t).setWord k w)) d = own m d := by
    funext a
    cases a with
    | dir => rfl
    | table j => exact congrFun htab j
    | user v =>
      simp only [own, hpte]
      by_cases hv : v = 1024 * i + k
      · subst hv
        rw [update_self]
        split
        · next hlt => exact hw hlt
        · rfl
      · rw [update_of_ne hv]
  show Allotment A (Sum.elim (own _ d) r) (hand ++ m.free)
  rw [hown]
  exact h

/-- The owners after an entry for a user page has been stored. -/
theorem Space.own_store [DecidableEq R] (ht : table m d i = some t) (hk : k < 1024) (w : BitVec 32)
    (hv : 1024 * i + k < KERNPAGE) :
    Sum.elim (own (m.setPage t ((m.page t).setWord k w)) d) r =
      update (Sum.elim (own m d) r) (Sum.inl (Own.user (1024 * i + k)))
        ((if has w PTE_P then some w else none).map frame) := by
  obtain ⟨htab, hpte⟩ := h.tree.store ht hk w
  funext a
  by_cases ha : a = Sum.inl (Own.user (1024 * i + k))
  · subst ha
    rw [update_self]
    show own _ d (.user _) = _
    rw [own_user hv, hpte, update_self]
  · rw [update_of_ne ha]
    rcases a with (_ | j | u) | x
    · rfl
    · exact congrFun htab j
    · have hu : u ≠ 1024 * i + k := fun he => ha (by rw [he])
      show own _ d (.user u) = own m d (.user u)
      simp only [own, hpte]
      rw [update_of_ne hu]
    · rfl

end

/-- A frame in hand becomes a user page. -/
theorem Space.map (h : Space A r (f :: hand) d m) (hA : Frames L A) (ht : table m d i = some t)
    (hk : k < 1024) (hv : 1024 * i + k < KERNPAGE) (hnone : pte m d (1024 * i + k) = none)
    {perm : BitVec 32} (hperm : perm.toNat < PGSIZE) (hP : has perm PTE_P = true) :
    Space A r hand d (m.setPage t ((m.page t).setWord k (entry f perm))) := by
  classical
  have hf : f < 2 ^ 20 := hA.lt (h.mem_of_free (by simp))
  have hpresent : has (entry f perm) PTE_P = true := (has_entry f perm (k := 0) (by decide)).trans hP
  show Allotment A (Sum.elim (own _ d) r) (hand ++ m.free)
  rw [h.own_store ht hk _ hv, if_pos hpresent]
  show Allotment A (update _ _ (some (frame _))) _
  rw [frame_entry hf hperm]
  apply Allotment.take h
  show own m d (.user _) = none
  rw [own_user hv, hnone]
  rfl

/-- A user page is unmapped; its frame is in hand. -/
theorem Space.unmap (h : Space A r hand d m) (ht : table m d i = some t) (hk : k < 1024)
    (hv : 1024 * i + k < KERNPAGE) (hw : pte m d (1024 * i + k) = some w) :
    Space A r (frame w :: hand) d (m.setPage t ((m.page t).setWord k 0)) := by
  classical
  show Allotment A (Sum.elim (own _ d) r) (frame w :: (hand ++ m.free))
  rw [h.own_store ht hk _ hv]
  apply Allotment.give h
  show own m d (.user _) = _
  rw [own_user hv, hw]
  rfl

/-- What is stored in a frame outside the page tables leaves the allotment. -/
theorem Space.setPage (h : Space A r hand d m) (hf : f ≠ d) (ht : ∀ i, table m d i ≠ some f)
    (p : Page) : Space A r hand d (m.setPage f p) := by
  show Allotment A (Sum.elim (own _ d) r) (hand ++ m.free)
  rw [(own_setPage hf ht p).2.2]
  exact h

end

end Xv6.Vm
