import Xv6.Vm.Kernel

/-! # Copying into user memory

    `copyout` writes page by page, each page through the frame that `uva2ka`
    finds for it. It writes all bytes if all pages are there for the user; at
    the first page that is not, it stops. If that page does not even have a
    page table, `uva2ka` reads an entry through a null pointer.
-/

namespace Xv6.Vm

open Op

variable {L : Layout} {R : Type} {r : R → Option Nat} {A : Set Nat} {hand : List Nat}
  {m m' m'' : Phys} {d v f va len n : Nat} {p : Nat → Byte} {E : String → Prop}
  {Q : Bool → Phys → Prop}

/-! ## User pages -/

/-- The frame of page `v`, if the user may access it. -/
def userFrame (m : Phys) (d v : Nat) : Option Nat :=
  match pte m d v with
  | none => none
  | some w => if has w PTE_U then some (frame w) else none

theorem userFrame_eq_some : userFrame m d v = some f ↔
    ∃ w, pte m d v = some w ∧ has w PTE_U = true ∧ frame w = f := by
  unfold userFrame
  cases hw : pte m d v with
  | none => simp
  | some w =>
    by_cases hU : has w PTE_U = true
    · simp [hU]
    · simp [hU]

theorem userFrame_congr (h : pte m' d = pte m d) : userFrame m' d = userFrame m d := by
  funext v
  unfold userFrame
  rw [h]

theorem AddrSpace.userFrame_lt (h : AddrSpace L A r hand d m) (hf : userFrame m d v = some f) :
    v < KERNPAGE := by
  obtain ⟨w, hw, hU, -⟩ := userFrame_eq_some.mp hf
  exact h.user_lt hw hU

/-- The user's frames are not part of the page tables. -/
theorem AddrSpace.userFrame_not_tree (h : AddrSpace L A r hand d m) (hf : userFrame m d v = some f) :
    f ≠ d ∧ ∀ i, table m d i ≠ some f := by
  obtain ⟨w, hw, hU, rfl⟩ := userFrame_eq_some.mp hf
  exact h.space.user_not_tree (h.user_lt hw hU) hw

/-- Different pages have different frames. -/
theorem AddrSpace.userFrame_inj (h : AddrSpace L A r hand d m) {u : Nat}
    (hf : userFrame m d v = some f) (hg : userFrame m d u = some f) : v = u := by
  have hv := h.userFrame_lt hf
  have hu := h.userFrame_lt hg
  obtain ⟨w, hw, -, hwf⟩ := userFrame_eq_some.mp hf
  obtain ⟨w', hw', -, hwf'⟩ := userFrame_eq_some.mp hg
  have hown : own m d (.user v) = some f := by rw [own_user hv, hw, ← hwf]; rfl
  have hown' : own m d (.user u) = some f := by rw [own_user hu, hw', ← hwf']; rfl
  have := h.space.inj (a := Sum.inl (Own.user v)) (b := Sum.inl (Own.user u)) hown hown'
  simpa using this

theorem wp_uva2ka (hv : v < 2 ^ 20) {Q : Option Nat → Phys → Prop}
    (htrap : table m d (v / 1024) = none → E "trap")
    (hok : table m d (v / 1024) ≠ none → Q (userFrame m d v) m) :
    wp (uva2ka d (v * PGSIZE)) E Q m := by
  unfold uva2ka
  rw [wp_bind]
  apply wp_walkpgdir
  rw [PDX_page v hv, PTX_page v]
  cases ht : table m d (v / 1024) with
  | none => exact htrap ht
  | some t =>
    have hQ := hok (by rw [ht]; simp)
    unfold userFrame pte at hQ
    rw [ht] at hQ
    simp only [Option.map_some, wp_bind, wp_load]
    by_cases hP : has ((m.page t).word (v % 1024)) PTE_P = true
    · simp only [if_pos hP] at hQ ⊢
      by_cases hU : has ((m.page t).word (v % 1024)) PTE_U = true
      · rw [if_pos hU] at hQ ⊢
        exact hQ
      · rw [if_neg hU] at hQ ⊢
        exact hQ
    · simp only [if_neg hP] at hQ ⊢
      exact hQ

/-! ## The bytes copied -/

/-- The pages in which the `n` bytes from `va` on lie. -/
def Touches (va n v : Nat) : Prop := ∃ i, i < n ∧ (va + i) / PGSIZE = v

theorem touches_iff : Touches va n v ↔ 0 < n ∧ va / PGSIZE ≤ v ∧ v * PGSIZE < va + n := by
  constructor
  · intro ⟨i, hi, hv⟩
    simp only [PGSIZE] at *
    omega
  · intro ⟨hn, hlo, hhi⟩
    -- the first byte of the range in the page
    refine ⟨max va (v * PGSIZE) - va, ?_, ?_⟩
    · omega
    · simp only [PGSIZE] at *
      omega

/-- The first `n` bytes of `p` are at `va` in the address space `d`; everything
    else is as before. -/
structure Copied (d : Nat) (p : Nat → Byte) (va n : Nat) (m m' : Phys) : Prop where
  free : m'.free = m.free
  bytes : ∀ v f, userFrame m d v = some f → ∀ i, i < PGSIZE → (m'.page f).byte i =
    if va ≤ v * PGSIZE + i ∧ v * PGSIZE + i < va + n then p (v * PGSIZE + i - va) else (m.page f).byte i
  other : ∀ f, (∀ v, Touches va n v → userFrame m d v ≠ some f) → m'.page f = m.page f

theorem Copied.zero : Copied d p va 0 m m :=
  ⟨rfl, fun v f _ i _ => by rw [if_neg (by omega)], fun _ _ => rfl⟩

/-- The mappings do not change. -/
theorem Copied.tree (h : Copied d p va n m m') (hm : AddrSpace L A r hand d m) :
    table m' d = table m d ∧ pte m' d = pte m d := by
  have hd : m'.page d = m.page d := by
    apply h.other
    intro v _ hv
    exact (hm.userFrame_not_tree hv).1 rfl
  have ht : ∀ i t, table m d i = some t → m'.page t = m.page t := by
    intro i t hit
    apply h.other
    intro v _ hv
    exact (hm.userFrame_not_tree hv).2 i hit
  exact ⟨table_congr hd, pte_congr hd ht⟩

/-- The bytes of one more page. -/
theorem Copied.step {buf cur : Nat} (h : Copied d p va buf m m') (hm : AddrSpace L A r hand d m)
    (hcur : cur = va + buf) (hf : userFrame m d (cur / PGSIZE) = some f)
    (hn : n ≤ PGSIZE - cur % PGSIZE) (hpos : 0 < n) :
    Copied d p va (buf + n) m
      (m'.setPage f ((m'.page f).setBytes (cur % PGSIZE) (fun i => p (buf + i)) n)) := by
  have hdiv : cur / PGSIZE * PGSIZE + cur % PGSIZE = cur := by
    simp only [PGSIZE]
    omega
  have hmod : cur % PGSIZE < PGSIZE := Nat.mod_lt _ (by decide)
  refine ⟨h.free, fun v g hg i hi => ?_, fun g hg => ?_⟩
  · by_cases hgf : g = f
    · -- the page that is written now
      subst hgf
      obtain rfl : v = cur / PGSIZE := hm.userFrame_inj hg hf
      rw [Phys.setPage_page_self, Page.byte_setBytes _ _ (by omega), h.bytes _ _ hf i hi]
      generalize cur / PGSIZE * PGSIZE = base at *
      by_cases hin : cur % PGSIZE ≤ i ∧ i < cur % PGSIZE + n
      · rw [if_pos hin, if_pos (by omega)]
        congr 1
        omega
      · rw [if_neg hin]
        by_cases hold : va ≤ base + i ∧ base + i < va + buf
        · rw [if_pos hold, if_pos (by omega)]
        · rw [if_neg hold, if_neg (by omega)]
    · -- another page: none of its bytes is among the new ones
      have hvne : v ≠ cur / PGSIZE := by
        rintro rfl
        rw [hf] at hg
        exact hgf (Option.some_injective _ hg).symm
      have hout : ¬(cur ≤ v * PGSIZE + i ∧ v * PGSIZE + i < cur + n) := by
        simp only [PGSIZE] at *
        omega
      rw [Phys.setPage_page_ne _ _ hgf, h.bytes v g hg i hi]
      by_cases hold : va ≤ v * PGSIZE + i ∧ v * PGSIZE + i < va + buf
      · rw [if_pos hold, if_pos (by omega)]
      · rw [if_neg hold, if_neg (by omega)]
  · have hgf : g ≠ f := by
      rintro rfl
      exact hg (cur / PGSIZE) ⟨buf, by omega, by rw [hcur]⟩ hf
    rw [Phys.setPage_page_ne _ _ hgf]
    apply h.other
    intro v ⟨i, hi, hv⟩
    exact hg v ⟨i, by omega, hv⟩

/-! ## `copyout` -/

/-- Page `v` is the first one of the range that is not there for the user. -/
structure Blocked (m : Phys) (d va len v : Nat) : Prop where
  touches : Touches va len v
  absent : userFrame m d v = none
  before : ∀ u, va / PGSIZE ≤ u → u < v → userFrame m d u ≠ none

section

variable (hm : AddrSpace L A r hand d m)
  (hok : ∀ m', (∀ v, Touches va len v → userFrame m d v ≠ none) → Copied d p va len m m' →
    Q true m')
  (hfail : ∀ v n m', Blocked m d va len v → table m d (v / 1024) ≠ none →
    (∀ u, Touches va n u → userFrame m d u ≠ none) → Copied d p va n m m' → Q false m')
  (htrap : ∀ v, Blocked m d va len v → table m d (v / 1024) = none → E "trap")
include hm hok hfail htrap

theorem wp_copyout_loop :
    ∀ fuel cur buf m', buf ≤ len → len - buf < fuel → (buf < len → cur = va + buf ∧ cur < 2 ^ 32) →
      (∀ u, Touches va buf u → userFrame m d u ≠ none) → Copied d p va buf m m' →
      wp (copyout_loop d p fuel cur (len - buf) buf) E Q m' := by
  intro fuel
  induction fuel with
  | zero => omega
  | succ fuel ih =>
    intro cur buf m' hbuf hfuel hcur hall h
    unfold copyout_loop
    by_cases hlt : buf < len
    · obtain ⟨hcur, hcur32⟩ := hcur hlt
      have hpos : len - buf > 0 := by omega
      have hdown : PGROUNDDOWN cur = cur / PGSIZE * PGSIZE := rfl
      have hsub : cur - cur / PGSIZE * PGSIZE = cur % PGSIZE := by
        simp only [PGSIZE]
        omega
      have hpage : cur / PGSIZE < 2 ^ 20 := by
        simp only [PGSIZE]
        omega
      obtain ⟨htab, hpte⟩ := h.tree hm
      -- all pages before the one of `cur` have been written
      have hbefore : ∀ u, va / PGSIZE ≤ u → u < cur / PGSIZE → userFrame m d u ≠ none := by
        intro u hlo hhi
        rw [hcur] at hhi
        refine hall u (touches_iff.mpr ?_)
        simp only [PGSIZE] at *
        omega
      have hblocked : userFrame m d (cur / PGSIZE) = none → Blocked m d va len (cur / PGSIZE) := by
        intro hnone
        exact ⟨⟨buf, hlt, by rw [hcur]⟩, hnone, hbefore⟩
      rw [if_pos hpos, hdown, wp_bind, hsub]
      apply wp_uva2ka hpage
      · rw [htab]
        intro hnone
        refine htrap _ (hblocked ?_) hnone
        unfold userFrame pte
        rw [hnone]
      · rw [htab, userFrame_congr hpte]
        intro htable
        cases hf : userFrame m d (cur / PGSIZE) with
        | none => exact hfail _ buf m' (hblocked hf) htable hall h
        | some f =>
          have hv := hm.userFrame_lt hf
          simp only [wp_bind, wp_modify]
          rw [show len - buf - min (PGSIZE - cur % PGSIZE) (len - buf) =
            len - (buf + min (PGSIZE - cur % PGSIZE) (len - buf)) by omega]
          have hmod : cur % PGSIZE < PGSIZE := Nat.mod_lt _ (by decide)
          apply ih
          · omega
          · omega
          · -- the next page, if there is more to copy
            intro hmore
            simp only [KERNPAGE, KERNBASE, PGSIZE] at *
            omega
          · intro u hu
            by_cases hlast : u = cur / PGSIZE
            · rw [hlast, hf]
              simp
            · obtain ⟨-, hlo, hhi⟩ := touches_iff.mp hu
              refine hbefore u hlo ?_
              simp only [PGSIZE] at *
              omega
          · exact h.step hm hcur hf (Nat.min_le_left _ _) (by omega)
    · obtain rfl : buf = len := by omega
      rw [if_neg (by omega)]
      exact hok m' hall h

/-- `copyout` copies all bytes if all pages are there for the user, and fails
    otherwise; it traps if the first page that is not there has no page table. -/
theorem wp_copyout (hva : va < 2 ^ 32) : wp (copyout d va p len) E Q m := by
  unfold copyout
  refine wp_copyout_loop hm hok hfail htrap (len + 1) va 0 m (Nat.zero_le _) (by omega)
    (fun _ => ⟨rfl, hva⟩) (fun u hu => ?_) Copied.zero
  exact absurd (touches_iff.mp hu).1 (lt_irrefl 0)

end

/-- The call returns: 0 after writing exactly the bytes if every page is there
    for the user, and -1 otherwise. -/
structure CopiesOut (d va : Nat) (p : Nat → Byte) (len : Nat) (m : Phys) (ok : Bool) (m' : Phys) :
    Prop where
  run : copyout d va p len m = .ok ok m'
  result : ok = true ↔ ∀ v, Touches va len v → userFrame m d v ≠ none
  copied : ok = true → Copied d p va len m m'

/-- `copyout` is total and exact just when the first page that is not there for
    the user, if there is one, has a page table. -/
theorem copyout_exact_iff (hA : Frames L A) (h : Built L A r d m) (hva : va < 2 ^ 32) :
    (∃ ok m', CopiesOut d va p len m ok m') ↔
      ∀ v, Blocked m d va len v → table m d (v / 1024) ≠ none := by
  have hm := h.addrSpace hA
  constructor
  · intro ⟨ok, m', hrun, _, _⟩ v hv hnone
    -- the run traps at page `v`
    have htraps : wp (copyout d va p len) (fun msg => msg = "trap") (fun _ _ => False) m := by
      refine wp_copyout hm ?_ ?_ ?_ hva
      · intro _ hall _
        exact hall v hv.touches hv.absent
      · intro u _ _ hu htable _ _
        -- there is only one first page
        have huv : u = v := by
          by_contra hne
          have hlo := (touches_iff.mp hv.touches).2.1
          have hlo' := (touches_iff.mp hu.touches).2.1
          rcases Nat.lt_or_gt_of_ne hne with hlt | hgt
          · exact hv.before u hlo' hlt hu.absent
          · exact hu.before v hlo hgt hv.absent
        exact htable (huv ▸ hnone)
      · intro _ _ _
        rfl
    exact htraps.of_ok hrun
  · intro hcond
    have hreturns : wp (copyout d va p len) (fun _ => False)
        (fun ok m' => (ok = true ↔ ∀ v, Touches va len v → userFrame m d v ≠ none) ∧
          (ok = true → Copied d p va len m m')) m := by
      refine wp_copyout hm ?_ ?_ ?_ hva
      · intro m' hall hcopied
        exact ⟨⟨fun _ => hall, fun _ => rfl⟩, fun _ => hcopied⟩
      · intro v _ m' hv _ _ _
        refine ⟨⟨fun hfalse => ?_, fun hall => ?_⟩, fun hfalse => ?_⟩
        · cases hfalse
        · exact absurd hv.absent (hall v hv.touches)
        · cases hfalse
      · intro v hv hnone
        exact hcond v hv hnone
    obtain ⟨ok, m', hrun, hresult, hcopied⟩ := hreturns.returns
    exact ⟨ok, m', hrun, hresult, hcopied⟩

/-- A pool of 8000 frames. -/
abbrev manyFrames : Set Nat := {f | 1024 ≤ f ∧ f < 9024}

theorem manyFrames_ok : Frames smallKernel manyFrames := by
  intro f hf
  have hf' : 1024 ≤ f ∧ f < 9024 := hf
  show 0x115000 ≤ f * PGSIZE ∧ f * PGSIZE < PHYSTOP
  simp only [PGSIZE, PHYSTOP]
  omega

theorem manyFrames_pool : Allotment manyFrames (fun x : Empty => x.elim) (List.range' 1024 8000) := by
  refine ⟨fun {a} => a.elim, fun {a} => a.elim, List.nodup_range', fun f => ?_⟩
  simp only [List.mem_range'_1, IsEmpty.exists_iff, or_false]
  show 1024 ≤ f ∧ f < 9024 ↔ _
  omega

/-- That is enough for `setupkvm` to succeed. -/
theorem exists_setup : ∃ d m, Built smallKernel manyFrames (fun x : Empty => x.elim) d m ∧
    m.free.length ≥ 6000 ∧ pte m d = kernelPtes smallKernel ∧
    ∀ i, table m d i ≠ none → ∃ v, v / 1024 = i ∧ kernelPtes smallKernel v ≠ none := by
  let m₀ : Phys := ⟨fun _ => 0, List.range' 1024 8000⟩
  have hlen : m₀.free.length = 8000 := List.length_range'
  have hrun : wp (setupkvm smallKernel) (fun _ => False)
      (fun o m => ∃ d, o = some d ∧ Setup smallKernel manyFrames (fun x : Empty => x.elim) [] d m₀ m) m₀ := by
    apply wp_setupkvm manyFrames_ok (show Allotment _ _ ([] ++ _) from manyFrames_pool)
    · intro d m hm
      exact ⟨d, rfl, hm⟩
    · intro m hfew _
      rw [hlen, List.length_nil] at hfew
      omega
  obtain ⟨o, m, hok, d, rfl, hm⟩ := hrun.returns
  have htaken := hm.taken
  rw [hlen, List.length_nil] at htaken
  exact ⟨d, m, Built.setup manyFrames_pool hok, by omega, hm.pte, hm.table⟩

/-- A directory with one user page. -/
theorem exists_userPage : ∃ d m, Built smallKernel manyFrames (fun x : Empty => x.elim) d m ∧
    userFrame m d 0 ≠ none ∧ m.free.length ≥ 4000 := by
  obtain ⟨d, m, hbuilt, hlen, hpte, -⟩ := exists_setup
  have hm := hbuilt.addrSpace manyFrames_ok
  have hrun : wp (allocuvm smallKernel d 0 4096) (fun _ => False)
      (fun _ m' => userFrame m' d 0 ≠ none ∧ m'.free.length ≥ 4000) m := by
    apply wp_allocuvm manyFrames_ok (by decide) (by decide) hm.space
    · intro v _ hv
      rw [hpte]
      exact kernelPtes_user (lt_trans hv (by decide))
    · intro m' hm'
      obtain ⟨f, hf, hw, -⟩ := hm'.new 0 (by decide) (by decide)
      have hU : has (entry f userPerm) PTE_U = true :=
        (has_entry f userPerm (k := 2) (by decide)).trans (by decide)
      have htaken := hm.space.length_free_le hm'.space fun v _ => hm'.old v
      rw [List.length_nil, show pages 4096 - pages 0 = 1 from rfl] at htaken
      rw [userFrame_eq_some.mpr ⟨_, hw, hU, rfl⟩]
      exact ⟨Option.some_ne_none _, by omega⟩
    · intro m' hfew _
      rw [List.length_nil, show pages 4096 = 1 from rfl] at hfew
      omega
  obtain ⟨_, m', hok, huser⟩ := hrun.returns
  exact ⟨d, m', hbuilt.alloc hok, huser⟩

theorem copyout_exact_iff_three_bytes : ∃ d m, Built smallKernel manyFrames (fun x : Empty => x.elim) d m ∧
    ∃ m', CopiesOut d 16 (fun i => BitVec.ofNat 8 (i + 1)) 3 m true m' := by
  obtain ⟨d, m, hbuilt, huser, -⟩ := exists_userPage
  have hall : ∀ v, Touches 16 3 v → userFrame m d v ≠ none := by
    intro v hv
    obtain ⟨-, -, hlt⟩ := touches_iff.mp hv
    obtain rfl : v = 0 := by
      simp only [PGSIZE] at hlt
      omega
    exact huser
  obtain ⟨ok, m', hcopies⟩ := (copyout_exact_iff manyFrames_ok hbuilt (by decide)
    (p := fun i => BitVec.ofNat 8 (i + 1))).mpr fun v hv => absurd hv.absent (hall v hv.touches)
  obtain rfl := hcopies.result.mpr hall
  exact ⟨d, m, hbuilt, m', hcopies⟩

/-- A byte for address 0 of a directory without user pages. -/
theorem copyout_reads_null : ∃ d m, Built smallKernel manyFrames (fun x : Empty => x.elim) d m ∧
    copyout d 0 (fun _ => 0) 1 m = .panic "trap" := by
  obtain ⟨d, m, hbuilt, -, hpte, htable⟩ := exists_setup
  have hnone : table m d 0 = none := by
    by_contra hsome
    obtain ⟨v, hv, hkernel⟩ := htable 0 hsome
    exact hkernel (kernelPtes_user (lt_of_lt_of_le (by omega : v < 1024) (by decide)))
  refine ⟨d, m, hbuilt, ?_⟩
  have hblocked : Blocked m d 0 1 0 := by
    refine ⟨⟨0, by decide, rfl⟩, ?_, fun u _ hu => absurd hu (Nat.not_lt_zero u)⟩
    unfold userFrame
    rw [hpte, kernelPtes_user (by decide)]
  apply wp.panics
  refine wp_copyout (hbuilt.addrSpace manyFrames_ok) ?_ ?_ ?_ (by decide)
  · intro _ hall _
    exact hall 0 hblocked.touches hblocked.absent
  · intro v _ _ hv htable' _ _
    obtain ⟨i, hi, rfl⟩ := hv.touches
    obtain rfl : i = 0 := by omega
    exact htable' hnone
  · intro _ _ _
    rfl

end Xv6.Vm
