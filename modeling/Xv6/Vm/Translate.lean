import Xv6.Vm.Kernel

/-! # Translating addresses

    What the hardware does with an address: `PDX` selects the page table and
    `PTX` the entry in it. After `mappages` has returned 0, the addresses of
    the range lead to the frames it was given, and all others lead where they
    led before. All directories of `setupkvm` translate alike.
-/

namespace Xv6.Vm

open Op

variable {L : Layout} {m m' : Phys} {d v : Nat} {perm : BitVec 32}

/-- The entry for address `a`, if its page is present. -/
def translate (m : Phys) (d a : Nat) : Option (BitVec 32) :=
  let pde := (m.page d).word (PDX a)
  if has pde PTE_P then
    let pte := (m.page (frame pde)).word (PTX a)
    if has pte PTE_P then some pte else none
  else none

theorem translate_eq {a : Nat} (ha : a < 2 ^ 32) : translate m d a = pte m d (a / PGSIZE) := by
  have hPDX : PDX a = a / PGSIZE / 1024 := by
    unfold PDX
    simp only [PGSIZE]
    omega
  have hPTX : PTX a = a / PGSIZE % 1024 := rfl
  unfold translate pte table
  rw [hPDX, hPTX]
  by_cases hP : has ((m.page d).word (a / PGSIZE / 1024)) PTE_P = true
  · simp only [if_pos hP]
  · simp only [if_neg hP]

/-- The page of an address in a range of `n` pages. -/
theorem mem_pages {va size a : Nat} (hsize : 0 < size) :
    va / PGSIZE ≤ a / PGSIZE ∧ a / PGSIZE < va / PGSIZE + ((va + size - 1) / PGSIZE - va / PGSIZE + 1) ↔
      PGROUNDDOWN va ≤ a ∧ PGROUNDDOWN a < va + size := by
  unfold PGROUNDDOWN
  simp only [PGSIZE]
  omega

/-- The low bits of an entry are its flags. -/
theorem PTE_FLAGS_entry (f : Nat) (h : perm.toNat < PGSIZE) : PTE_FLAGS (entry f perm) = perm := by
  apply BitVec.eq_of_toNat_eq
  unfold PTE_FLAGS entry
  rw [BitVec.toNat_and, BitVec.toNat_or, BitVec.toNat_ofNat, show (0xFFF#32).toNat = 2 ^ 12 - 1 from rfl,
    Nat.and_two_pow_sub_one_eq_mod, Nat.or_mod_two_pow, Nat.mod_mod_of_dvd _ (by decide),
    show PGSIZE = 2 ^ 12 from rfl, Nat.mul_mod_left, Nat.zero_or]
  exact Nat.mod_eq_of_lt h

/-- Frame numbers matter modulo `2^20`. -/
theorem entry_mod (f : Nat) (perm : BitVec 32) : entry (f % 2 ^ 20) perm = entry f perm := by
  unfold entry
  rw [ofNat_congr (a := f % 2 ^ 20 * PGSIZE) (b := f * PGSIZE)]
  simp only [PGSIZE]
  omega

theorem frame_entry_mod (f : Nat) (h : perm.toNat < PGSIZE) :
    frame (entry f perm) = f % 2 ^ 20 := by
  rw [← entry_mod, frame_entry (Nat.mod_lt _ (by decide)) h]

/-- `mappages` on any directory, for a range without mappings. -/
theorem wp_mappages_translate (h : Tree d m) (hpool : PoolSmall m) {va size pa : Nat} (perm : BitVec 32)
    (hsize : 0 < size) (htop : va + size ≤ 2 ^ 32) (hpa : pa % PGSIZE = 0)
    (hnone : ∀ a, PGROUNDDOWN va ≤ a → PGROUNDDOWN a < va + size → translate m d a = none) :
    wp (mappages d va size pa perm) (fun _ => False) (fun ok m' => ok = true → ∀ a, a < 2 ^ 32 →
      translate m' d a = if PGROUNDDOWN va ≤ a ∧ PGROUNDDOWN a < va + size
        then some (entry (pa / PGSIZE + (a / PGSIZE - va / PGSIZE)) (perm ||| PTE_P))
        else translate m d a) m := by
  apply wp_mappages (I := Tree d) (v := va / PGSIZE) (n := (va + size - 1) / PGSIZE - va / PGSIZE + 1)
    (p := pa / PGSIZE) h fun _ => id
  · intro m m' j _ _ hgrows
    exact hgrows.tree
  · intro m i t k w hm ht hk _
    exact hm.congr (hm.store ht hk w).1 rfl
  · exact hpool
  · rfl
  · unfold PGROUNDDOWN
    simp only [PGSIZE]
    omega
  · exact (Nat.div_mul_cancel (Nat.dvd_of_mod_eq_zero hpa)).symm
  · omega
  · simp only [PGSIZE]
    omega
  · intro u hu hu'
    -- a page is unmapped when its first address is
    have hlt : u * PGSIZE < 2 ^ 32 := by
      simp only [PGSIZE] at *
      omega
    have hdiv : u * PGSIZE / PGSIZE = u := Nat.mul_div_cancel u (by decide)
    rw [← hdiv, ← translate_eq hlt]
    rw [← hdiv] at hu hu'
    obtain ⟨hlo, hhi⟩ := (mem_pages hsize).mp ⟨hu, hu'⟩
    exact hnone _ hlo hhi
  · intro k m' _ _ _ _ hok
    cases hok
  · intro m' _ hm' _ a ha
    rw [translate_eq ha, translate_eq ha, hm'.pte, mapRange]
    exact if_congr (mem_pages hsize) rfl rfl

/-- The pool of `kalloc`: no frame twice, and all of them memory that `kfree`
    accepts. -/
structure Pool (L : Layout) (m : Phys) : Prop where
  nodup : m.free.Nodup
  memory : ∀ f ∈ m.free, L.kend ≤ f * PGSIZE ∧ f * PGSIZE < PHYSTOP

theorem Pool.allotment (h : Pool L m) :
    Allotment {f | f ∈ m.free} (fun _ : Empty => none) ([] ++ m.free) where
  inj ha := by cases ha
  apart ha := by cases ha
  nodup := h.nodup
  total f := by simp

theorem Pool.wp_setupkvm (h : Pool L m) :
    wp (setupkvm L) (fun _ => False) (fun r m' => ∀ d, r = some d → pte m' d = kernelPtes L) m := by
  refine Vm.wp_setupkvm h.memory h.allotment (fun d m' hm' d' hd' => ?_) fun m' _ _ d hd => ?_
  · obtain rfl := Option.some.inj hd'
    exact hm'.pte
  · cases hd

/-- When `mappages` returns 0, the pages of the range lead to successive frames
    with the given permissions, and all other pages lead where they did before.
    Every directory of `setupkvm` has the same mappings, none for the user. -/
theorem mappages_setupkvm_translate (d : Nat) (m : Phys) (h : Tree d m) (hpool : PoolSmall m)
    (va size pa : Nat) (perm : BitVec 32) (hsize : 0 < size) (htop : va + size ≤ 2 ^ 32)
    (hpa : pa % PGSIZE = 0)
    (hnone : ∀ a, PGROUNDDOWN va ≤ a → PGROUNDDOWN a < va + size → translate m d a = none) :
    (∃ ok m', mappages d va size pa perm m = .ok ok m' ∧ (ok = true → ∀ a, a < 2 ^ 32 →
      (PGROUNDDOWN va ≤ a ∧ PGROUNDDOWN a < va + size → ∃ w, translate m' d a = some w ∧
        w = BitVec.ofNat 32 (pa + (PGROUNDDOWN a - PGROUNDDOWN va)) ||| (perm ||| PTE_P) ∧
        (perm.toNat < PGSIZE → PTE_FLAGS w = perm ||| PTE_P ∧
          frame w = (pa / PGSIZE + (a / PGSIZE - va / PGSIZE)) % 2 ^ 20)) ∧
      (¬ (PGROUNDDOWN va ≤ a ∧ PGROUNDDOWN a < va + size) → translate m' d a = translate m d a))) ∧
    ∀ (L : Layout) (m : Phys), Pool L m → ∃ r m', setupkvm L m = .ok r m' ∧ ∀ d, r = some d →
      ∀ a, a < 2 ^ 32 → translate m' d a = kernelPtes L (a / PGSIZE) ∧
        ∀ w, translate m' d a = some w → has w PTE_U = false := by
  refine ⟨?_, fun L m hm => ?_⟩
  · obtain ⟨ok, m', hrun, hpost⟩ := (wp_mappages_translate h hpool perm hsize htop hpa hnone).returns
    refine ⟨ok, m', hrun, fun hok a ha => ⟨fun hin => ⟨_, (hpost hok a ha).trans (if_pos hin), ?_, ?_⟩,
      fun hout => (hpost hok a ha).trans (if_neg hout)⟩⟩
    · unfold entry
      congr 1
      apply ofNat_congr
      unfold PGROUNDDOWN at hin ⊢
      simp only [PGSIZE] at *
      omega
    · intro hperm
      exact ⟨PTE_FLAGS_entry _ (toNat_or_P hperm), frame_entry_mod _ (toNat_or_P hperm)⟩
  · obtain ⟨r, m', hrun, hpost⟩ := hm.wp_setupkvm.returns
    refine ⟨r, m', hrun, fun d hd a ha => ?_⟩
    rw [translate_eq ha, hpost d hd]
    exact ⟨rfl, fun w hw => kernelPtes_not_user hw⟩

/-- A blank directory in frame 0x200, and two frames in the pool. -/
def blankMemory : Phys := ⟨fun _ => 0, [0x201, 0x202]⟩

theorem blankMemory_tree : Tree 0x200 blankMemory where
  table_ne_dir hi := by rw [table_blank rfl] at hi; cases hi
  table_inj hi := by rw [table_blank rfl] at hi; cases hi
  dir_not_free := by decide
  table_not_free hi := by rw [table_blank rfl] at hi; cases hi
  nodup := by decide

/-- The last page of the address space. -/
theorem mappages_setupkvm_translate_top :
    ∃ m', mappages 0x200 0xFFFFF000 PGSIZE 0x3000 PTE_W blankMemory = .ok true m' ∧
      translate m' 0x200 0xFFFFF123 = some 0x3003 := by
  have hnone : ∀ a, PGROUNDDOWN 0xFFFFF000 ≤ a → PGROUNDDOWN a < 0xFFFFF000 + PGSIZE →
      translate blankMemory 0x200 a = none := by
    intro a _ ha
    rw [translate_eq (by unfold PGROUNDDOWN at ha; simp only [PGSIZE] at ha; omega), pte_blank rfl]
  obtain ⟨ok, m', hrun, hpost⟩ := (mappages_setupkvm_translate 0x200 blankMemory blankMemory_tree
    (by unfold PoolSmall; decide) 0xFFFFF000 PGSIZE 0x3000 PTE_W (by decide) (by decide) (by decide) hnone).1
  have hok : (mappages 0x200 0xFFFFF000 PGSIZE 0x3000 PTE_W blankMemory).returns (fun ok _ => ok) =
      true := by decide +kernel
  rw [hrun] at hok
  obtain rfl : ok = true := hok
  obtain ⟨w, hw, hval, -⟩ := (hpost rfl 0xFFFFF123 (by decide)).1 (by decide)
  refine ⟨m', hrun, hw.trans ?_⟩
  rw [hval]
  decide

end Xv6.Vm
