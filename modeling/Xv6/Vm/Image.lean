import Xv6.Vm.Copyout
import Xv6.Vm.Exec

/-! # Building an image

    While `exec` builds a new address space, the pages below its size are
    mapped and no others, and the frames that were not free at the start are
    as they were (`Image`). Loading a program keeps this for every content of
    the file, and does not panic.
-/

namespace Xv6.Vm

open Op

variable {L : Layout} {R : Type} {r : R → Option Nat} {A : Set Nat} {hand : List Nat}
  {m₀ m m' m'' : Phys} {d v f sz newsz va n : Nat} {p : Nat → Byte} {content : List Byte}
  {E : String → Prop} {Q : Option Nat → Phys → Prop} {bs : List Byte} {ph : Proghdr}

/-! ## Images -/

/-- The address space `d` has exactly the pages of `sz` bytes; it was built of
    frames that are free in `m₀`. -/
structure Image (L : Layout) (A : Set Nat) (r : R → Option Nat) (d sz : Nat) (m₀ m : Phys) : Prop where
  addr : AddrSpace L A r [] d m
  size : sz ≤ KERNBASE
  exact : ∀ v, v < KERNPAGE → (pte m d v ≠ none ↔ v < pages sz)
  other : ∀ f, f ∉ m₀.free → m.page f = m₀.page f

/-- Frames that were not free are neither part of the address space nor free. -/
theorem Space.foreign (h : Space A r [] d m) (h₀ : Allotment A r m₀.free) (hf : f ∉ m₀.free) :
    f ≠ d ∧ (∀ i, table m d i ≠ some f) ∧ f ∉ m.free ∧
      ∀ v w, v < KERNPAGE → pte m d v = some w → frame w ≠ f := by
  have hother : ∀ a, own m d a ≠ some f := by
    intro a ha
    have ha' : Sum.elim (own m d) r (Sum.inl a) = some f := ha
    rcases (h₀.total f).mp (h.mem_of_own ha') with hfree | ⟨x, hx⟩
    · exact hf hfree
    · have := h.inj ha' (b := Sum.inr x) hx
      cases this
  refine ⟨fun he => hother .dir (congrArg some he.symm), fun i => hother (.table i), fun hfree => ?_,
    fun v w hv hw he => hother (.user v) ?_⟩
  · rcases (h₀.total f).mp (h.mem_of_free hfree) with hfree₀ | ⟨x, hx⟩
    · exact hf hfree₀
    · exact h.apart (a := Sum.inr x) hx hfree
  · rw [own_user hv, hw, ← he]
    rfl

/-- `setupkvm` gives an image without pages. -/
theorem Setup.image (h : Setup L A r [] d m m') : Image L A r d 0 m m' where
  addr := h.addrSpace
  size := Nat.zero_le _
  exact v hv := by
    rw [h.pte, kernelPtes_user hv]
    exact ⟨fun hne => absurd rfl hne, fun hlt => absurd hlt (Nat.not_lt_zero v)⟩
  other := h.page

/-- `allocuvm` grows an image, or leaves it as it is and returns 0 or the size. -/
theorem Image.wp_allocuvm (hA : Frames L A) (h₀ : Allotment A r m₀.free) (h : Image L A r d sz m₀ m)
    {Q : Nat → Phys → Prop}
    (hok : ∀ sz' m', newsz ≤ sz' → Image L A r d sz' m₀ m' → Q sz' m')
    (hfail : ∀ m', Image L A r d sz m₀ m' → Q 0 m') : wp (allocuvm L d sz newsz) E Q m := by
  by_cases hge : newsz ≥ KERNBASE
  · unfold allocuvm
    rw [if_pos hge]
    exact hfail m h
  · by_cases hlt : newsz < sz
    · unfold allocuvm
      rw [if_neg hge, if_pos hlt]
      exact hok sz m hlt.le h
    · have hpages : pages newsz ≤ KERNPAGE := pages_le (Nat.le_of_not_le hge)
      have hmono : pages sz ≤ pages newsz := pages_mono (Nat.le_of_not_lt hlt)
      have hforeign : ∀ {k m'}, Filled A r [] d (pages sz) k m m' → ∀ f, f ∉ m₀.free →
          m'.page f = m₀.page f := by
        intro k m' hm' f hf
        obtain ⟨hfd, hft, hff, -⟩ := h.addr.space.foreign h₀ hf
        rw [hm'.page f hfd hft hff, h.other f hf]
      apply Vm.wp_allocuvm hA (Nat.le_of_not_lt hlt) (Nat.lt_of_not_le hge) h.addr.space
      · intro v hlo hv
        by_contra hsome
        have := (h.exact v (by omega)).mp hsome
        omega
      · intro m' hm'
        refine hok newsz m' le_rfl ⟨hm'.addrSpace hpages h.addr, by omega,
          fun v hv => ?_, hforeign hm'⟩
        by_cases hin : pages sz ≤ v ∧ v < pages newsz
        · obtain ⟨f, -, hw, -⟩ := hm'.new v hin.1 hin.2
          rw [hw]
          simpa using hin.2
        · rw [hm'.old v hin, h.exact v hv]
          omega
      · intro m' _ hm'
        refine hfail m' ⟨hm'.addrSpace (by omega) h.addr, h.size, fun v hv => ?_, hforeign hm'⟩
        rw [hm'.old v (by omega), h.exact v hv]

/-! ## Writing to user pages -/

/-- Only the contents of user pages have changed. -/
structure UserOnly (d : Nat) (m m' : Phys) : Prop where
  free : m'.free = m.free
  other : ∀ f, (∀ v w, v < KERNPAGE → pte m d v = some w → frame w ≠ f) → m'.page f = m.page f

theorem UserOnly.rfl : UserOnly d m m := ⟨Eq.refl _, fun _ _ => Eq.refl _⟩

theorem UserOnly.tree (h : UserOnly d m m') (hm : Space A r hand d m) :
    table m' d = table m d ∧ pte m' d = pte m d := by
  have hd : m'.page d = m.page d :=
    h.other d fun v w hv hw => (hm.user_not_tree hv hw).1
  have ht : ∀ i t, table m d i = some t → m'.page t = m.page t := by
    intro i t hit
    refine h.other t fun v w hv hw he => ?_
    exact (hm.user_not_tree hv hw).2 i (he ▸ hit)
  exact ⟨table_congr hd, pte_congr hd ht⟩

theorem UserOnly.trans (h : UserOnly d m m') (h' : UserOnly d m' m'') (hm : Space A r hand d m) :
    UserOnly d m m'' where
  free := h'.free.trans h.free
  other f hf := by
    have hpte := (h.tree hm).2
    rw [h'.other f (by rw [hpte]; exact hf), h.other f hf]

theorem UserOnly.addrSpace (h : UserOnly d m m') (hm : AddrSpace L A r hand d m) :
    AddrSpace L A r hand d m' := by
  obtain ⟨htab, hpte⟩ := h.tree hm.space
  refine ⟨?_, fun v hv => by rw [hpte, hm.kernel v hv]⟩
  have hown : own m' d = own m d := by
    funext a
    cases a with
    | dir => exact Eq.refl _
    | table i => exact congrFun htab i
    | user v =>
      show own m' d (.user v) = own m d (.user v)
      rw [own, own, hpte]
  show Allotment A (Sum.elim (own m' d) r) (hand ++ m'.free)
  rw [hown, h.free]
  exact hm.space

theorem Copied.userOnly (h : Copied d p va n m m') (hm : AddrSpace L A r hand d m) : UserOnly d m m' where
  free := h.free
  other f hf := by
    apply h.other
    intro v _ hv
    obtain ⟨w, hw, hU, hwf⟩ := userFrame_eq_some.mp hv
    exact hf v w (hm.user_lt hw hU) hw hwf

theorem Image.userOnly (h : Image L A r d sz m₀ m) (h₀ : Allotment A r m₀.free)
    (hm' : UserOnly d m m') : Image L A r d sz m₀ m' where
  addr := hm'.addrSpace h.addr
  size := h.size
  exact v hv := by rw [(hm'.tree h.addr.space).2, h.exact v hv]
  other f hf := by rw [hm'.other f (h.addr.space.foreign h₀ hf).2.2.2, h.other f hf]

/-! ## `loaduvm` -/

/-- The page in which the bytes from `k * PGSIZE` on are loaded. -/
theorem load_page {addr filesz k : Nat} (haddr : addr % PGSIZE = 0) (hend : addr + filesz ≤ KERNBASE)
    (hk : k * PGSIZE < filesz) : (addr + k * PGSIZE) % 2 ^ 32 = (addr / PGSIZE + k) * PGSIZE ∧
      addr / PGSIZE + k < KERNPAGE ∧ addr ≤ (addr / PGSIZE + k) * PGSIZE ∧
      (addr / PGSIZE + k) * PGSIZE < addr + filesz := by
  simp only [PGSIZE, KERNBASE, KERNPAGE] at *
  omega

/-- The word at the place that `walkpgdir` finds for a page that is present. -/
theorem pte_word {w : BitVec 32} (h : pte m d v = some w) :
    ∃ t, table m d (v / 1024) = some t ∧ (m.page t).word (v % 1024) = w := by
  unfold pte at h
  cases ht : table m d (v / 1024) with
  | none =>
    rw [ht] at h
    cases h
  | some t =>
    rw [ht] at h
    simp only at h
    split at h
    · exact ⟨t, rfl, Option.some_injective _ h⟩
    · cases h

section

variable {addr offset filesz : Nat} {Q : Bool → Phys → Prop} (hm : AddrSpace L A r hand d m)
  (haddr : addr % PGSIZE = 0) (hend : addr + filesz ≤ KERNBASE)
  (hmapped : ∀ v, addr ≤ v * PGSIZE → v * PGSIZE < addr + filesz → pte m d v ≠ none)
  (hQ : ∀ ok m', UserOnly d m m' → Q ok m')
include hm haddr hend hmapped hQ

theorem wp_loaduvm_loop :
    ∀ fuel k m', pages filesz < k + fuel → k ≤ pages filesz → UserOnly d m m' →
      wp (loaduvm_loop d addr content offset filesz fuel (k * PGSIZE)) E Q m' := by
  intro fuel
  have hpages : pages filesz ≤ KERNPAGE := pages_le (by omega)
  induction fuel with
  | zero => omega
  | succ fuel ih =>
    intro k m' hfuel hk h
    unfold loaduvm_loop
    by_cases hlt : k * PGSIZE < filesz
    · obtain ⟨hpage, hv, hlo, hhi⟩ := load_page haddr hend hlt
      obtain ⟨w, hw⟩ := Option.ne_none_iff_exists'.mp (hmapped _ hlo hhi)
      obtain ⟨htab, hpte⟩ := h.tree hm.space
      obtain ⟨t, ht, hword⟩ := pte_word (hpte ▸ hw)
      rw [if_pos hlt, wp_bind, hpage]
      apply wp_walkpgdir
      rw [PDX_page _ (lt_trans hv (by decide)), PTX_page, ht]
      simp only [Option.map_some, wp_bind, wp_load, hword]
      generalize (if filesz - k * PGSIZE < PGSIZE then filesz - k * PGSIZE else PGSIZE) = n
      cases readi content ((offset + k * PGSIZE) % 2 ^ 32) n with
      | none => exact hQ false m' h
      | some bs =>
        -- only the frame of that page changes
        have hwrite : ∀ q : Page, UserOnly d m (m'.setPage (frame w) q) := by
          intro q
          refine h.trans ⟨rfl, fun f hf => ?_⟩ hm.space
          apply Phys.setPage_page_ne
          intro he
          exact hf _ w hv (hpte ▸ hw) he.symm
        have hk' := lt_pages.mpr hlt
        simp only [wp_bind, wp_modify]
        split
        · rw [page_add (by simp only [KERNPAGE, KERNBASE, PGSIZE] at hpages; omega)]
          exact ih (k + 1) _ (by omega) hk' (hwrite _)
        · exact hQ false _ (hwrite _)
    · rw [if_neg hlt]
      exact hQ true m' h

/-- `loaduvm` writes to user pages only, and needs only that they are mapped. -/
theorem wp_loaduvm : wp (loaduvm d addr content offset filesz) E Q m := by
  have hpages : pages filesz ≤ KERNPAGE := pages_le (by omega)
  unfold loaduvm
  rw [if_neg (not_not.mpr haddr)]
  rw [← Nat.zero_mul PGSIZE]
  exact wp_loaduvm_loop hm haddr hend hmapped hQ (2 ^ 20 + 1) 0 m
    (by simp only [KERNPAGE, KERNBASE, PGSIZE] at hpages; omega) (Nat.zero_le _) UserOnly.rfl

end

/-! ## Loading the program -/

theorem le_lt (bs : List Byte) (off n : Nat) : le bs off n < 256 ^ n := by
  have hdigits : ∀ l : List Byte, l.foldr (fun b acc => b.toNat + 256 * acc) 0 < 256 ^ l.length := by
    intro l
    induction l with
    | nil => decide
    | cons b l ih =>
      have hb := b.isLt
      rw [List.foldr_cons, List.length_cons, Nat.pow_succ]
      omega
  refine lt_of_lt_of_le (hdigits _) (Nat.pow_le_pow_right (by decide) ?_)
  rw [List.length_take]
  exact Nat.min_le_left _ _

/-- A segment that passes the tests of `exec` ends where `allocuvm` was told. -/
theorem segment_end (hph : ph = Proghdr.ofBytes bs) (hfilesz : ¬ ph.memsz < ph.filesz)
    (hwrap : ¬(ph.vaddr + ph.memsz) % 2 ^ 32 < ph.vaddr) :
    ph.vaddr + ph.filesz ≤ (ph.vaddr + ph.memsz) % 2 ^ 32 := by
  have hvaddr : ph.vaddr < 2 ^ 32 := by
    rw [hph]
    exact le_lt bs 8 4
  have hmemsz : ph.memsz < 2 ^ 32 := by
    rw [hph]
    exact le_lt bs 20 4
  omega

/-- A segment is loaded, or the image is given up. -/
theorem wp_exec_segment (hA : Frames L A) (h₀ : Allotment A r m₀.free) (h : Image L A r d sz m₀ m)
    (hph : ph = Proghdr.ofBytes bs) (hok : ∀ sz m', Image L A r d sz m₀ m' → Q (some sz) m')
    (hbad : ∀ sz m', Image L A r d sz m₀ m' → Q none m') :
    wp (exec_segment L d content ph sz) E Q m := by
  unfold exec_segment
  by_cases hfilesz : ph.memsz < ph.filesz
  · rw [if_pos hfilesz]
    exact hbad sz m h
  by_cases hwrap : (ph.vaddr + ph.memsz) % 2 ^ 32 < ph.vaddr
  · rw [if_neg hfilesz, if_pos hwrap]
    exact hbad sz m h
  have hsegment := segment_end hph hfilesz hwrap
  rw [if_neg hfilesz, if_neg hwrap, wp_bind]
  apply h.wp_allocuvm hA h₀
  · intro sz' m' hnew hm'
    by_cases hzero : sz' = 0
    · rw [if_pos hzero]
      exact hbad sz' m' hm'
    by_cases haligned : ph.vaddr % PGSIZE = 0
    · -- the segment lies below the new size
      have hend : ph.vaddr + ph.filesz ≤ sz' := hsegment.trans hnew
      have hsize := hm'.size
      rw [if_neg hzero, if_neg (not_not.mpr haligned), wp_bind]
      apply wp_loaduvm hm'.addr haligned (hend.trans hsize)
      · intro v _ hhi
        have hv : v < pages sz' := lt_pages.mpr (lt_of_lt_of_le hhi hend)
        exact (hm'.exact v (lt_of_lt_of_le hv (pages_le hsize))).mpr hv
      · intro ok m'' hm''
        have himage := hm'.userOnly h₀ hm''
        cases ok with
        | true => exact hok sz' m'' himage
        | false => exact hbad sz' m'' himage
    · rw [if_neg hzero, if_pos haligned]
      exact hbad sz' m' hm'
  · intro m' hm'
    rw [if_pos rfl]
    exact hbad sz m' hm'

/-- Whatever the file holds, loading it ends with an image. -/
theorem wp_exec_load (hA : Frames L A) (h₀ : Allotment A r m₀.free)
    (hok : ∀ sz m', Image L A r d sz m₀ m' → Q (some sz) m')
    (hbad : ∀ sz m', Image L A r d sz m₀ m' → Q none m') :
    ∀ n off sz m, Image L A r d sz m₀ m → wp (exec_load L d content n off sz) E Q m := by
  intro n
  induction n with
  | zero =>
    intro off sz m h
    exact hok sz m h
  | succ n ih =>
    intro off sz m h
    unfold exec_load
    cases hph : (readFull content off 32).map Proghdr.ofBytes with
    | none => exact hbad sz m h
    | some ph =>
      obtain ⟨bs, -, hbs⟩ := Option.map_eq_some_iff.mp hph
      show wp (if ph.type ≠ ELF_PROG_LOAD then _ else _) E Q m
      by_cases htype : ph.type ≠ ELF_PROG_LOAD
      · rw [if_pos htype]
        exact ih _ sz m h
      · rw [if_neg htype, wp_bind]
        apply wp_exec_segment hA h₀ h hbs.symm
        · intro sz' m' hm'
          exact ih _ sz' m' hm'
        · intro sz' m' hm'
          exact hbad sz' m' hm'

end Xv6.Vm
