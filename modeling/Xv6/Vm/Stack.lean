import Xv6.Vm.Image

/-! # The initial stack

    `exec` pushes the argument strings and the argument vector on a single
    page, above a guard page that the user may not access. `copyout` refuses
    to write to the guard page, so what does not fit is not pushed; and since
    it writes upwards, a string that would begin below the guard page does not
    fit, either.
-/

namespace Xv6.Vm

open Op Function

variable {L : Layout} {R : Type} {r : R → Option Nat} {A : Set Nat} {hand : List Nat}
  {m₀ m m' m'' : Phys} {d v f g F hi va len : Nat} {p : Nat → Byte} {E : String → Prop}

/-! ## The stack page -/

/-- An image whose last two pages are the guard page `g`, which has never been
    written, and the stack page, in frame `F`. -/
structure Stack (L : Layout) (A : Set Nat) (r : R → Option Nat) (d g F : Nat) (m₀ m : Phys) : Prop where
  image : Image L A r d ((g + 2) * PGSIZE) m₀ m
  guard : userFrame m d g = none
  clean : ∀ w, pte m d g = some w → m.page (frame w) = 0
  stack : userFrame m d (g + 1) = some F

theorem Stack.top_le (h : Stack L A r d g F m₀ m) : (g + 2) * PGSIZE ≤ KERNBASE := h.image.size

/-- The byte at address `a` of the stack page. -/
def stackByte (m : Phys) (g F a : Nat) : Byte := (m.page F).byte (a - (g + 1) * PGSIZE)

/-- Copying to user pages keeps the stack, and the guard page clean. -/
theorem Stack.copied (h : Stack L A r d g F m₀ m) (h₀ : Allotment A r m₀.free) {n : Nat}
    (hm' : Copied d p va n m m') : Stack L A r d g F m₀ m' := by
  obtain ⟨-, hpte⟩ := hm'.tree h.image.addr
  have htop := h.top_le
  refine ⟨h.image.userOnly h₀ (hm'.userOnly h.image.addr), ?_, fun w hw => ?_, ?_⟩
  · rw [userFrame_congr hpte, h.guard]
  · rw [hpte] at hw
    rw [hm'.other (frame w), h.clean w hw]
    -- the frame of the guard page is not that of another page
    intro v _ hv
    obtain ⟨w', hw', hU, hframe⟩ := userFrame_eq_some.mp hv
    have hg : g < KERNPAGE := by
      simp only [KERNPAGE, KERNBASE, PGSIZE] at *
      omega
    have hown : own m d (.user g) = some (frame w) := by
      rw [own_user hg, hw]
      rfl
    have hown' : own m d (.user v) = some (frame w) := by
      rw [own_user (h.image.addr.user_lt hw' hU), hw', ← hframe]
      rfl
    have hgv := h.image.addr.space.inj (a := Sum.inl (Own.user g)) (b := Sum.inl (Own.user v)) hown hown'
    obtain rfl : g = v := by simpa using hgv
    rw [h.guard] at hv
    cases hv
  · rw [userFrame_congr hpte, h.stack]

/-- What was copied to the stack page. -/
theorem Stack.stackByte_copied (h : Stack L A r d g F m₀ m) {n : Nat} (hm' : Copied d p va n m m')
    {a : Nat} (hlo : (g + 1) * PGSIZE ≤ a) (hhi : a < (g + 2) * PGSIZE) :
    stackByte m' g F a = if va ≤ a ∧ a < va + n then p (a - va) else stackByte m g F a := by
  unfold stackByte
  have hi : a - (g + 1) * PGSIZE < PGSIZE := by
    simp only [PGSIZE] at *
    omega
  have haddr : (g + 1) * PGSIZE + (a - (g + 1) * PGSIZE) = a := by omega
  rw [hm'.bytes (g + 1) F h.stack _ hi, haddr]

/-- Where a push goes that does not touch the guard page. -/
theorem push_fits (hlo : (g + 1) * PGSIZE ≤ hi) (hhi : hi ≤ (g + 2) * PGSIZE)
    (htop : (g + 2) * PGSIZE ≤ KERNBASE) (hlen : len ≤ KERNBASE)
    (hva : va = usub hi len / 4 * 4) (hkernel : va < KERNBASE) (hpos : 0 < len)
    (hguard : ¬ Touches va len g) : (g + 1) * PGSIZE ≤ va ∧ va + len ≤ hi ∧ hi < va + len + 4 := by
  rw [touches_iff] at hguard
  unfold usub at hva
  simp only [KERNBASE, PGSIZE] at *
  omega

/-- Where any push goes. -/
theorem push_cases (hhi : hi ≤ KERNBASE) (hlen : len + 3 < 2 ^ 25)
    (hva : va = usub hi len / 4 * 4) : va + len ≤ hi ∨ DEVSPACE ≤ va := by
  unfold usub at hva
  simp only [KERNBASE, DEVSPACE] at *
  omega

/-- Pushing `len` bytes below `hi`. It works only if they fit in the page; and
    it traps only if the address wraps around, which takes 32 MB. -/
theorem Stack.wp_push (h : Stack L A r d g F m₀ m) (h₀ : Allotment A r m₀.free) {Q : Bool → Phys → Prop}
    (hlo : (g + 1) * PGSIZE ≤ hi) (hhi : hi ≤ (g + 2) * PGSIZE) (hpos : 0 < len) (hlen : len ≤ KERNBASE)
    (hva : va = usub hi len / 4 * 4)
    (hok : ∀ m', (g + 1) * PGSIZE ≤ va → va + len ≤ hi → hi < va + len + 4 → Copied d p va len m m' →
      Q true m')
    (hfail : ∀ m', Stack L A r d g F m₀ m' → hi < (g + 1) * PGSIZE + (len + 3) / 4 * 4 → Q false m')
    (htrap : 2 ^ 25 ≤ len + 3 → E "trap") : wp (copyout d va p len) E Q m := by
  have htop := h.top_le
  have hva32 : va < 2 ^ 32 := by
    have hlt : usub hi len < 2 ^ 32 := Nat.mod_lt _ (by decide)
    omega
  have hkernel : ∀ f, userFrame m d (va / PGSIZE) = some f → va < KERNBASE := by
    intro f hf
    have hlt := h.image.addr.userFrame_lt hf
    simp only [KERNPAGE, KERNBASE, PGSIZE] at hlt ⊢
    omega
  refine wp_copyout h.image.addr ?_ ?_ ?_ hva32
  · intro m' hall hcopied
    have hguard : ¬ Touches va len g := fun ht => hall g ht h.guard
    obtain ⟨f, hf⟩ := Option.ne_none_iff_exists'.mp (hall _ ⟨0, hpos, by rw [Nat.add_zero]⟩)
    obtain ⟨hbase, hend, hround⟩ := push_fits hlo hhi htop hlen hva (hkernel f hf) hpos hguard
    exact hok m' hbase hend hround hcopied
  · intro v n m' hv _ _ hcopied
    refine hfail m' (h.copied h₀ hcopied) ?_
    by_contra hfits
    -- all bytes would be in the stack page
    have hpage : v = g + 1 := by
      obtain ⟨-, hvlo, hvhi⟩ := touches_iff.mp hv.touches
      unfold usub at hva
      simp only [KERNBASE, PGSIZE] at *
      omega
    have habsent := hv.absent
    rw [hpage, h.stack] at habsent
    cases habsent
  · intro v hv hnone
    apply htrap
    by_contra hshort
    obtain ⟨-, hvlo, hvhi⟩ := touches_iff.mp hv.touches
    rcases push_cases (hhi.trans htop) (Nat.lt_of_not_le hshort) hva with hend | hdev
    · -- below the size all pages are mapped
      have hlt : v < g + 2 := by
        simp only [PGSIZE] at *
        omega
      have hpages : v < pages ((g + 2) * PGSIZE) := lt_pages.mpr (Nat.mul_lt_mul_of_pos_right hlt (by decide))
      have hpte := (h.image.exact v (lt_of_lt_of_le hpages (pages_le htop))).mpr hpages
      apply hpte
      unfold pte
      rw [hnone]
    · -- the page is in the device space, which has page tables
      have hv' : v = va / PGSIZE := by
        by_contra hne
        obtain ⟨f, hf⟩ := Option.ne_none_iff_exists'.mp (hv.before _ le_rfl (by omega))
        have := hkernel f hf
        simp only [KERNBASE, DEVSPACE] at *
        omega
      refine h.image.addr.table_dev ?_ ?_ hnone
      · rw [hv']
        exact Nat.div_le_div_right hdev
      · rw [hv']
        simp only [PGSIZE]
        omega

/-! ## The argument strings -/

/-- The strings stand one below the other, from below `hi` down to `sp`, each
    at its address. -/
def Pushed (b : Nat → Byte) : (hi : Nat) → List (List Byte) → List Nat → (sp : Nat) → Prop
  | hi, [], [], sp => sp = hi
  | hi, s :: argv, a :: addrs, sp =>
    a % 4 = 0 ∧ a + (s.length + 1) ≤ hi ∧ hi < a + (s.length + 1) + 4 ∧
      (∀ i, i ≤ s.length → b (a + i) = cstring s i) ∧ Pushed b a argv addrs sp
  | _, _, _, _ => False

variable {b b' : Nat → Byte} {argv : List (List Byte)} {addrs : List Nat} {sp : Nat}
  {Q : Option (Nat × Nat) → Phys → Prop}

theorem Pushed.le (h : Pushed b hi argv addrs sp) : sp ≤ hi := by
  induction argv generalizing hi addrs with
  | nil =>
    cases addrs with
    | nil => exact le_of_eq h
    | cons a addrs => exact h.elim
  | cons s argv ih =>
    cases addrs with
    | nil => exact h.elim
    | cons a addrs =>
      obtain ⟨-, hend, -, -, hrest⟩ := h
      have := ih hrest
      omega

/-- What is written below `sp` does not matter. -/
theorem Pushed.congr (h : Pushed b hi argv addrs sp) (hb : ∀ a, sp ≤ a → a < hi → b' a = b a) :
    Pushed b' hi argv addrs sp := by
  induction argv generalizing hi addrs with
  | nil =>
    cases addrs with
    | nil => exact h
    | cons a addrs => exact h.elim
  | cons s argv ih =>
    cases addrs with
    | nil => exact h.elim
    | cons a addrs =>
      obtain ⟨halign, hend, hround, hbytes, hrest⟩ := h
      have hle := hrest.le
      refine ⟨halign, hend, hround, fun i hi' => ?_, ih hrest fun c hlo hhi => hb c hlo (by omega)⟩
      rw [hb (a + i) (by omega) (by omega), hbytes i hi']

/-- The strings take exactly their rounded lengths. -/
theorem Pushed.sum (h : Pushed b hi argv addrs sp) (halign : hi % 4 = 0) :
    sp + (argv.map fun s => (s.length + 1 + 3) / 4 * 4).sum = hi := by
  induction argv generalizing hi addrs with
  | nil =>
    cases addrs with
    | nil => exact h
    | cons a addrs => exact h.elim
  | cons s argv ih =>
    cases addrs with
    | nil => exact h.elim
    | cons a addrs =>
      obtain ⟨ha, hend, hround, -, hrest⟩ := h
      have hsum := ih hrest ha
      rw [List.map_cons, List.sum_cons]
      omega

/-- The strings are pushed, or one of them does not fit. -/
theorem Stack.wp_exec_args (h₀ : Allotment A r m₀.free) :
    ∀ (argv : List (List Byte)) (argc hi : Nat) (ustack : List Nat) (m : Phys)
      {Q : Option (Nat × List Nat) → Phys → Prop}, Stack L A r d g F m₀ m →
      (g + 1) * PGSIZE ≤ hi → hi ≤ (g + 2) * PGSIZE → hi % 4 = 0 → (∀ s ∈ argv, s.length < KERNBASE) →
      (∀ addrs sp m', Stack L A r d g F m₀ m' → (g + 1) * PGSIZE ≤ sp → sp % 4 = 0 →
        argc + argv.length ≤ max argc MAXARG →
        Pushed (stackByte m' g F) hi argv addrs sp →
        (∀ a, hi ≤ a → a < (g + 2) * PGSIZE → stackByte m' g F a = stackByte m g F a) →
        Q (some (sp, ustack ++ addrs)) m') →
      (∀ m', Stack L A r d g F m₀ m' → MAXARG < argc + argv.length ∨
        hi < (g + 1) * PGSIZE + (argv.map fun s => (s.length + 1 + 3) / 4 * 4).sum → Q none m') →
      ((∃ s ∈ argv, 2 ^ 25 ≤ s.length + 4) → E "trap") →
      wp (exec_args d argv argc hi ustack) E Q m := by
  intro argv
  induction argv with
  | nil =>
    intro argc hi ustack m Q h hlo hhi halign _ hok _ _
    have hdone := hok [] hi m h hlo halign (by simp) rfl fun _ _ _ => rfl
    rwa [List.append_nil] at hdone
  | cons s argv ih =>
    intro argc hi ustack m Q h hlo hhi halign hlens hok hbad htrap
    unfold exec_args exec_arg
    rw [wp_bind]
    by_cases hmax : argc ≥ MAXARG
    · rw [if_pos hmax]
      exact hbad m h (Or.inl (by rw [List.length_cons]; omega))
    · have hlen := hlens s (List.mem_cons_self ..)
      rw [if_neg hmax]
      generalize hva : usub hi (s.length + 1) / 4 * 4 = a
      rw [wp_bind]
      apply h.wp_push h₀ hlo hhi (Nat.succ_pos _) (Nat.succ_le_of_lt hlen) hva.symm
      · intro m₁ hbase hend hround hcopied
        have h₁ := h.copied h₀ hcopied
        have hbyte : ∀ c, (g + 1) * PGSIZE ≤ c → c < (g + 2) * PGSIZE → stackByte m₁ g F c =
            if a ≤ c ∧ c < a + (s.length + 1) then cstring s (c - a) else stackByte m g F c :=
          fun c hlo hhi => h.stackByte_copied hcopied hlo hhi
        rw [if_pos rfl, wp_pure]
        apply ih (argc + 1) a (ustack ++ [a]) m₁ h₁ hbase (by omega) (by omega)
          (fun s hs => hlens s (List.mem_cons_of_mem _ hs))
        · intro addrs sp m' hm' hsp hspalign hcount hpushed hsame
          have hall : Pushed (stackByte m' g F) hi (s :: argv) (a :: addrs) sp := by
            refine ⟨by omega, hend, hround, fun i hi' => ?_, hpushed⟩
            rw [hsame (a + i) (by omega) (by omega), hbyte (a + i) (by omega) (by omega),
              if_pos (by omega), Nat.add_sub_cancel_left]
          have hdone := hok (a :: addrs) sp m' hm' hsp hspalign
            (by rw [List.length_cons]; simp only [MAXARG] at *; omega) hall fun c hlo' hhi' => by
              rw [hsame c (by omega) hhi', hbyte c (by omega) hhi', if_neg (by omega)]
          rwa [List.append_assoc]
        · intro m' hm' hwhy
          refine hbad m' hm' (hwhy.imp (fun hmany => ?_) fun hlong => ?_)
          · rw [List.length_cons]
            omega
          · rw [List.map_cons, List.sum_cons]
            omega
        · intro ⟨s', hs', hlong⟩
          exact htrap ⟨s', List.mem_cons_of_mem _ hs', hlong⟩
      · intro m' hm' hlong
        rw [if_neg (by decide)]
        refine hbad m' hm' (Or.inr ?_)
        rw [List.map_cons, List.sum_cons]
        omega
      · intro hlong
        exact htrap ⟨s, List.mem_cons_self .., by omega⟩

theorem Pushed.length (h : Pushed b hi argv addrs sp) : addrs.length = argv.length := by
  induction argv generalizing hi addrs with
  | nil =>
    cases addrs with
    | nil => rfl
    | cons a addrs => exact h.elim
  | cons s argv ih =>
    cases addrs with
    | nil => exact h.elim
    | cons a addrs => rw [List.length_cons, List.length_cons, ih h.2.2.2.2]

/-! ## The argument vector -/

/-- The words at the bottom of the stack: fake return PC, `argc`, the argv
    pointer, and the vector itself. -/
def vector (esp : Nat) (addrs : List Nat) : List Nat :=
  0xffffffff :: addrs.length :: (esp + 12) :: (addrs ++ [0])

/-- The stack page after all has been pushed: the strings from `hi` down to
    `sp`, and below them, at `esp`, the words. -/
structure ArgPage (b : Nat → Byte) (hi : Nat) (argv : List (List Byte)) (addrs : List Nat)
    (sp esp : Nat) : Prop where
  pushed : Pushed b hi argv addrs sp
  bottom : esp + 4 * (argv.length + 4) = sp
  aligned : esp % 4 = 0
  words : ∀ i, i < 4 * (argv.length + 4) → b (esp + i) = wordBytes (vector esp addrs) i

/-- The words are written below the strings. -/
theorem ArgPage.of_bytes {base top esp : Nat} {ws : List Nat} (hws : ws = vector esp addrs) (hpushed : Pushed b top argv addrs sp)
    (hbase : base ≤ esp) (hbottom : esp + 4 * (argv.length + 4) = sp) (halign : esp % 4 = 0)
    (hb : ∀ a, base ≤ a → a < top → b' a =
      if esp ≤ a ∧ a < esp + 4 * (argv.length + 4) then wordBytes ws (a - esp) else b a) :
    ArgPage b' top argv addrs sp esp := by
  subst hws
  have hle := hpushed.le
  refine ⟨hpushed.congr fun a hlo hhi => ?_, hbottom, halign, fun i hi => ?_⟩
  · rw [hb a (by omega) hhi, if_neg (by omega)]
  · rw [hb (esp + i) (by omega) (by omega), if_pos (by omega), Nat.add_sub_cancel_left]

/-- The two pages for the stack. -/
theorem Filled.stack (h₀ : Allotment A r m₀.free) {sz : Nat} (h : Image L A r d sz m₀ m)
    (hg : g = pages sz) (htop : (g + 2) * PGSIZE ≤ KERNBASE) (hm' : Filled A r [] d g (g + 2) m m')
    (hclear : Cleared A r [] d g m' m'') : ∃ F, Stack L A r d g F m₀ m'' := by
  have hk : g + 2 ≤ KERNPAGE := by
    simp only [KERNPAGE, KERNBASE, PGSIZE] at *
    omega
  have haddr := hm'.addrSpace hk h.addr
  obtain ⟨G, hG, hGw, hGzero⟩ := hm'.new g le_rfl (by omega)
  obtain ⟨F, hF, hFw, -⟩ := hm'.new (g + 1) (by omega) (by omega)
  have hguard : pte m'' d g = some (clearU (entry G userPerm)) := by
    rw [hclear.pte, update_self, hGw]
    rfl
  have hstack : pte m'' d (g + 1) = some (entry F userPerm) := by
    rw [hclear.pte, update_of_ne (by omega), hFw]
  refine ⟨F, ⟨hclear.addrSpace haddr, htop, fun v hv => ?_, fun f hf => ?_⟩, ?_, fun w hw => ?_, ?_⟩
  · have hpages : pages ((g + 2) * PGSIZE) = g + 2 := by
      simp only [pages, PGSIZE]
      omega
    rw [hpages]
    by_cases hvg : v = g
    · rw [hvg, hguard]
      simp
    · rw [hclear.pte, update_of_ne hvg]
      by_cases hin : g ≤ v ∧ v < g + 2
      · obtain ⟨f, -, hw, -⟩ := hm'.new v hin.1 hin.2
        rw [hw]
        simpa using hin.2
      · rw [hm'.old v hin, h.exact v hv, ← hg]
        omega
  · obtain ⟨hfd, hft, hff, -⟩ := h.addr.space.foreign h₀ hf
    rw [hclear.page f (haddr.space.foreign h₀ hf).2.1, hm'.page f hfd hft hff, h.other f hf]
  · unfold userFrame
    rw [hguard]
    exact if_neg (by rw [has_clearU_U]; decide)
  · rw [hguard] at hw
    obtain rfl := Option.some_injective _ hw
    rw [frame_clearU, frame_entry hG userPerm_lt]
    have htree := haddr.space.user_not_tree (by omega) hGw
    rw [frame_entry hG userPerm_lt] at htree
    rw [hclear.page G htree.2, hGzero]
  · rw [userFrame_eq_some]
    refine ⟨_, hstack, (has_entry F userPerm (k := 2) (by decide)).trans (by decide), ?_⟩
    exact frame_entry hF userPerm_lt

/-- The space that the strings and the vector take. -/
def stackNeed (argv : List (List Byte)) : Nat :=
  (argv.map fun s => (s.length + 1 + 3) / 4 * 4).sum + 4 * (argv.length + 4)

/-- There are not too many arguments, and they fit in a page. -/
def FitPage (argv : List (List Byte)) : Prop := argv.length ≤ MAXARG ∧ stackNeed argv ≤ PGSIZE

/-- All of it fits in the page. -/
theorem ArgPage.need_le (h : ArgPage b hi argv addrs sp esp) (halign : hi % 4 = 0) :
    esp + stackNeed argv = hi := by
  have hbottom := h.bottom
  have hsum := h.pushed.sum halign
  unfold stackNeed
  omega

/-- Pushing the vector below the strings. -/
theorem Stack.wp_exec_vector (h : Stack L A r d g F m₀ m) (h₀ : Allotment A r m₀.free)
    (hlo : (g + 1) * PGSIZE ≤ sp) (halign : sp % 4 = 0) (hcount : argv.length ≤ MAXARG)
    (hpushed : Pushed (stackByte m g F) ((g + 2) * PGSIZE) argv addrs sp)
    {Q : Option Nat → Phys → Prop}
    (hok : ∀ esp m', Stack L A r d g F m₀ m' → (g + 1) * PGSIZE ≤ esp →
      ArgPage (stackByte m' g F) ((g + 2) * PGSIZE) argv addrs sp esp → Q (some esp) m')
    (hfail : ∀ m', Stack L A r d g F m₀ m' → sp < (g + 1) * PGSIZE + 4 * (argv.length + 4) → Q none m') :
    wp (exec_vector d sp addrs) E Q m := by
  have hlength := hpushed.length
  have hle := hpushed.le
  have htop := h.top_le
  have hesp : usub sp ((3 + addrs.length + 1) * 4) = sp - 4 * (argv.length + 4) := by
    unfold usub
    simp only [MAXARG, KERNBASE, PGSIZE] at *
    omega
  have hargv : usub sp ((addrs.length + 1) * 4) = sp - 4 * (argv.length + 4) + 12 := by
    unfold usub
    simp only [MAXARG, KERNBASE, PGSIZE] at *
    omega
  have hround : usub sp ((3 + addrs.length + 1) * 4) =
      usub sp ((3 + addrs.length + 1) * 4) / 4 * 4 := by
    rw [hesp]
    omega
  have hlen : (3 + addrs.length + 1) * 4 ≤ KERNBASE := by
    simp only [MAXARG, KERNBASE] at *
    omega
  unfold exec_vector
  rw [wp_bind]
  apply h.wp_push h₀ hlo hle (by omega) hlen hround
  · intro m' hbase hend hround' hcopied
    rw [if_pos rfl]
    refine hok _ m' (h.copied h₀ hcopied) hbase ?_
    have hsize : (3 + addrs.length + 1) * 4 = 4 * (argv.length + 4) := by omega
    have hwords : 0xffffffff :: addrs.length :: usub sp ((addrs.length + 1) * 4) :: (addrs ++ [0]) =
        vector (usub sp ((3 + addrs.length + 1) * 4)) addrs := by rw [vector, hargv, hesp]
    rw [hwords, hsize] at hcopied
    rw [hsize] at hesp hbase ⊢
    generalize usub sp (4 * (argv.length + 4)) = esp at *
    refine ArgPage.of_bytes rfl hpushed hbase ?_ ?_ fun a hlo hhi => ?_
    · omega
    · omega
    · exact h.stackByte_copied hcopied hlo hhi
  · intro m' hm' hlong
    rw [if_neg (by decide)]
    exact hfail m' hm' (by omega)
  · intro hlong
    simp only [MAXARG] at hcount
    omega

/-- The arguments are pushed, or do not fit. -/
theorem Stack.wp_exec_push (h : Stack L A r d g F m₀ m) (h₀ : Allotment A r m₀.free)
    (hlens : ∀ s ∈ argv, s.length < KERNBASE)
    (hok : ∀ addrs sp esp m', Stack L A r d g F m₀ m' → (g + 1) * PGSIZE ≤ esp →
      ArgPage (stackByte m' g F) ((g + 2) * PGSIZE) argv addrs sp esp →
      Q (some ((g + 2) * PGSIZE, esp)) m')
    (hfail : ∀ m', Stack L A r d g F m₀ m' → ¬FitPage argv → Q none m')
    (htrap : (∃ s ∈ argv, 2 ^ 25 ≤ s.length + 4) → E "trap") :
    wp (exec_push d ((g + 2) * PGSIZE) argv) E Q m := by
  unfold exec_push
  rw [wp_bind]
  have hbase : (g + 1) * PGSIZE ≤ (g + 2) * PGSIZE := Nat.mul_le_mul_right _ (by omega)
  have halign : (g + 2) * PGSIZE % 4 = 0 := by
    simp only [PGSIZE]
    omega
  apply Stack.wp_exec_args h₀ argv 0 _ [] m h hbase le_rfl halign hlens
  · intro addrs sp m' hm' hlo hsp hcount hpushed _
    rw [Nat.zero_add, Nat.zero_max] at hcount
    rw [List.nil_append]
    dsimp only
    rw [wp_bind]
    apply hm'.wp_exec_vector h₀ hlo hsp hcount hpushed
    · intro esp m'' hm'' hesp hpage
      exact hok addrs sp esp m'' hm'' hesp hpage
    · intro m'' hm'' hlong
      refine hfail m'' hm'' fun hfit => ?_
      have hsum := hpushed.sum halign
      have hneed := hfit.2
      simp only [stackNeed, PGSIZE] at *
      omega
  · intro m' hm' hwhy
    refine hfail m' hm' fun hfit => ?_
    obtain ⟨hmany, hneed⟩ := hfit
    simp only [stackNeed, PGSIZE] at *
    omega
  · exact htrap

/-- The stack is set up, or memory runs out or the arguments do not fit. In no
    case is the guard page written. -/
theorem wp_exec_stack (hA : Frames L A) (h₀ : Allotment A r m₀.free) {sz : Nat}
    (h : Image L A r d sz m₀ m) (hlens : ∀ s ∈ argv, s.length < KERNBASE)
    (hok : ∀ F addrs sp esp m', Stack L A r d (pages sz) F m₀ m' → (pages sz + 1) * PGSIZE ≤ esp →
      ArgPage (stackByte m' (pages sz) F) ((pages sz + 2) * PGSIZE) argv addrs sp esp →
      Q (some ((pages sz + 2) * PGSIZE, esp)) m')
    (hbad : ∀ m', Image L A r d sz m₀ m' ∨ (∃ F, Stack L A r d (pages sz) F m₀ m') →
      KERNBASE ≤ (pages sz + 2) * PGSIZE ∨ m.free.length ≤ 1027 ∨ ¬FitPage argv → Q none m')
    (htrap : (∃ s ∈ argv, 2 ^ 25 ≤ s.length + 4) → E "trap") :
    wp (exec_stack L d sz argv) E Q m := by
  have hsize := h.size
  have hpages := pages_le hsize
  have hround := PGROUNDUP_eq hsize
  generalize hg : pages sz = g at hpages hround hok hbad
  have hnew : (g * PGSIZE + 2 * PGSIZE) % 2 ^ 32 = (g + 2) * PGSIZE := by
    simp only [KERNPAGE, KERNBASE, PGSIZE] at *
    omega
  have hg0 : pages (g * PGSIZE) = g := by
    simp only [pages, PGSIZE]
    omega
  have hg2 : pages ((g + 2) * PGSIZE) = g + 2 := by
    simp only [pages, PGSIZE]
    omega
  have hback : (g + 2) * PGSIZE - 2 * PGSIZE = g * PGSIZE := by
    rw [Nat.add_mul, Nat.add_sub_cancel]
  unfold exec_stack
  rw [hround, hnew, wp_bind]
  by_cases hge : (g + 2) * PGSIZE ≥ KERNBASE
  · unfold allocuvm
    rw [if_pos hge, wp_pure, if_pos rfl]
    exact hbad m (Or.inl h) (Or.inl hge)
  have htop : (g + 2) * PGSIZE < KERNBASE := Nat.lt_of_not_le hge
  apply wp_allocuvm hA (Nat.mul_le_mul_right _ (by omega)) htop h.addr.space
  · intro v hlo hhi
    rw [hg0] at hlo
    rw [hg2] at hhi
    by_contra hsome
    have hv : v < KERNPAGE := by
      simp only [KERNPAGE, KERNBASE, PGSIZE] at *
      omega
    have := (h.exact v hv).mp hsome
    omega
  · intro m₁ hm₁
    rw [hg0, hg2] at hm₁
    have hpos : (g + 2) * PGSIZE ≠ 0 := by
      simp only [PGSIZE]
      omega
    rw [if_neg hpos, hback, wp_bind]
    have hva : g * PGSIZE < 2 ^ 32 :=
      lt_of_le_of_lt (Nat.mul_le_mul_right _ (Nat.le_add_right g 2)) (htop.trans (by decide))
    have hpage : g * PGSIZE / PGSIZE = g := Nat.mul_div_cancel _ (by decide)
    apply wp_clearpteu hm₁.space hva
    · intro hnone
      obtain ⟨f, -, hw, -⟩ := hm₁.new g le_rfl (by omega)
      obtain ⟨t, ht, -⟩ := pte_word hw
      rw [hpage, ht] at hnone
      cases hnone
    · intro m₂ hm₂
      rw [hpage] at hm₂
      obtain ⟨F, hstack⟩ := hm₁.stack h₀ h hg.symm htop.le hm₂
      apply hstack.wp_exec_push h₀ hlens
      · intro addrs sp esp m' hm' hesp hargs
        exact hok F addrs sp esp m' hm' hesp hargs
      · intro m' hm' hlong
        exact hbad m' (Or.inr ⟨F, hm'⟩) (Or.inr (Or.inr hlong))
      · exact htrap
  · intro m₁ hfew hm₁
    rw [hg0] at hm₁
    rw [hg0, hg2, List.length_nil] at hfew
    rw [if_pos rfl]
    refine hbad m₁ (Or.inl ⟨hm₁.addrSpace hpages h.addr, hsize, fun v hv => ?_, fun f hf => ?_⟩)
      (Or.inr (Or.inl (by omega)))
    · rw [hm₁.old v (by omega), h.exact v hv]
    · obtain ⟨hfd, hft, hff, -⟩ := h.addr.space.foreign h₀ hf
      rw [hm₁.page f hfd hft hff, h.other f hf]

end Xv6.Vm
