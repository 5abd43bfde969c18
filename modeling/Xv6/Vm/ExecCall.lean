import Xv6.Vm.Stack

/-! # The whole call of `exec`

    Whatever the file holds and wherever memory runs out, `exec` either
    replaces the address space of the process or leaves everything as it was.
    When it succeeds, the stack of the new program holds the arguments.
-/

namespace Xv6.Vm

open Op

variable {L : Layout} {R : Type} {r : R → Option Nat} {A : Set Nat} {m₀ m m' : Phys}
  {d d' v f g F sz : Nat} {argv : List (List Byte)} {E : String → Prop} {s s' : ExecState}
  {Q : Bool → ExecState → Prop} {path : List Byte}

/-! ## Giving up -/

/-- An image that is given up leaves nothing behind. -/
theorem Image.wp_freevm (hA : Frames L A) (h₀ : Allotment A r m₀.free) (h : Image L A r d sz m₀ m)
    {Q : Unit → Phys → Prop} (hQ : ∀ m', Undone A r [] m₀ m' → Q () m') : wp (freevm L d) E Q m := by
  apply Vm.wp_freevm h.addr.space hA
  intro m' hpart hpage _
  have hperm := pool_perm (show Allotment A r ([] ++ m₀.free) from h₀) hpart
  refine hQ m' ⟨hpart, hperm, fun f hf => ?_⟩
  rw [hpage f (mt hperm.mem_iff.mp hf), h.other f hf]

/-- Nothing has changed but the order of the free frames and what they hold. -/
structure Restored (s s' : ExecState) : Prop where
  proc : s'.proc = s.proc
  free : s'.mem.free.Perm s.mem.free
  page : ∀ f, f ∉ s.mem.free → s'.mem.page f = s.mem.page f
  outstanding : s'.outstanding = s.outstanding
  ref : s'.ref = s.ref
  locked : s'.locked = s.locked

/-- The state in which `exec` holds the inode. -/
def holding (s : ExecState) (m : Phys) : ExecState :=
  { s with mem := m, outstanding := s.outstanding + 1, ref := s.ref + 1, locked := true }

theorem wp_inMem {α : Type} {op : MemOp α} {Q : α → ExecState → Prop} :
    wp (inMem op) E Q s ↔ wp op E (fun a m => Q a { s with mem := m }) s.mem := by
  unfold inMem
  rw [wp_zoom]

/-- Releasing the inode, and the end of the transaction. -/
theorem wp_release (hs : s.locked = false) {Q : Unit → ExecState → Prop}
    (hQ : Q () { s with mem := m }) :
    wp iunlockput E (fun _ s' => wp end_op E Q s') (holding s m) := by
  have hlocked : ({ s with mem := m } : ExecState) =
      { s with mem := m, outstanding := s.outstanding + 1 - 1, ref := s.ref + 1 - 1, locked := false } := by
    rw [Int.add_sub_cancel, Nat.add_sub_cancel, ← hs]
  rw [hlocked] at hQ
  unfold iunlockput end_op
  simp only [wp_bind, wp_get]
  rw [if_neg (by simp [holding])]
  exact hQ

/-- The label `bad` before there is a directory. -/
theorem wp_exec_bad_none (hs : s.locked = false) (hQ : Q false { s with mem := m }) :
    wp (exec_bad L none true) E Q (holding s m) := by
  show wp (do iunlockput; end_op; pure false) E Q (holding s m)
  simp only [wp_bind]
  exact wp_release hs hQ

/-- The label `bad` with a directory, before and after the inode is released. -/
theorem wp_exec_bad_held (hA : Frames L A) (h₀ : Allotment A r s.mem.free)
    (h : Image L A r d sz s.mem m) (hs : s.locked = false) (hQ : ∀ s', Restored s s' → Q false s') :
    wp (exec_bad L (some d) true) E Q (holding s m) := by
  unfold exec_bad
  rw [wp_bind, wp_inMem]
  apply h.wp_freevm hA h₀
  intro m' hm'
  rw [if_pos rfl]
  simp only [wp_bind]
  exact wp_release hs (hQ _ ⟨rfl, hm'.free, hm'.page, rfl, rfl, rfl⟩)

theorem wp_exec_bad_released (hA : Frames L A) (h₀ : Allotment A r s.mem.free)
    (h : Image L A r d sz s.mem m) (hQ : ∀ s', Restored s s' → Q false s') :
    wp (exec_bad L (some d) false) E Q { s with mem := m } := by
  unfold exec_bad
  rw [wp_bind, wp_inMem]
  apply h.wp_freevm hA h₀
  intro m' hm'
  rw [if_neg (by decide)]
  exact hQ _ ⟨rfl, hm'.free, hm'.page, rfl, rfl, rfl⟩

/-! ## The commit -/

/-- The address space of the process is as it was while the new one is built. -/
theorem Image.own_old (h : Image L A (Sum.elim (own m₀ d') r) d sz m₀ m)
    (h₀ : Space A r [] d' m₀) : own m d' = own m₀ d' := by
  have hkept : ∀ a f, own m₀ d' a = some f → m.page f = m₀.page f := by
    intro a f ha
    apply h.other
    exact h₀.apart (a := Sum.inl a) ha
  exact own_congr (hkept .dir d' rfl) fun i t ht => hkept (.table i) t ht

/-- Seen from the old address space, the new one is one of the others. -/
theorem Image.swap (h : Image L A (Sum.elim (own m₀ d') r) d sz m₀ m) (h₀ : Space A r [] d' m₀) :
    Space A (Sum.elim (own m d) r) [] d' m := by
  have hold := h.own_old h₀
  refine Allotment.reindex h.addr.space (fun x y => match x, y with
    | Sum.inl a, Sum.inr (Sum.inl b) => a = b
    | Sum.inr (Sum.inl a), Sum.inl b => a = b
    | Sum.inr (Sum.inr x), Sum.inr (Sum.inr y) => x = y
    | _, _ => False) ?_ ?_ ?_
  · intro x x' y hx hx'
    match x, x', y with
    | Sum.inl a, Sum.inl a', Sum.inr (Sum.inl b) => rw [hx, hx']
    | Sum.inr (Sum.inl a), Sum.inr (Sum.inl a'), Sum.inl b => rw [hx, hx']
    | Sum.inr (Sum.inr x), Sum.inr (Sum.inr x'), Sum.inr (Sum.inr y) => rw [hx, hx']
  · intro x f hx
    match x with
    | Sum.inl a =>
      refine ⟨Sum.inr (Sum.inl a), rfl, ?_⟩
      rw [← hold]
      exact hx
    | Sum.inr (Sum.inl a) => exact ⟨Sum.inl a, rfl, hx⟩
    | Sum.inr (Sum.inr x) => exact ⟨Sum.inr (Sum.inr x), rfl, hx⟩
  · intro y f hy
    match y with
    | Sum.inl a => exact ⟨Sum.inr (Sum.inl a), rfl, hy⟩
    | Sum.inr (Sum.inl a) =>
      refine ⟨Sum.inl a, rfl, ?_⟩
      rw [← hold] at hy
      exact hy
    | Sum.inr (Sum.inr x) => exact ⟨Sum.inr (Sum.inr x), rfl, hy⟩

/-- The memory after the old address space has been freed: the new one is as
    it was built. -/
structure Settled (L : Layout) (A : Set Nat) (r : R → Option Nat) (d : Nat) (m m' : Phys) : Prop where
  addr : AddrSpace L A r [] d m'
  pte : pte m' d = pte m d
  page : ∀ v w, v < KERNPAGE → Vm.pte m d v = some w → m'.page (frame w) = m.page (frame w)

theorem Image.settle (h : Image L A (Sum.elim (own m₀ d') r) d sz m₀ m)
    (hpart : Allotment A (Sum.elim (own m d) r) m'.free)
    (hpage : ∀ f, f ∉ m'.free → m'.page f = m.page f) : Settled L A r d m m' := by
  have hkept : ∀ a f, own m d a = some f → m'.page f = m.page f := by
    intro a f ha
    apply hpage
    exact hpart.apart (a := Sum.inl a) ha
  have htables : ∀ i t, table m d i = some t → m'.page t = m.page t := fun i t ht => hkept (.table i) t ht
  have hown := own_congr (hkept .dir d rfl) htables
  have hpte := pte_congr (hkept .dir d rfl) htables
  refine ⟨⟨?_, fun v hv => by rw [hpte, h.addr.kernel v hv]⟩, hpte, fun v w hv hw => ?_⟩
  · show Allotment A (Sum.elim (own m' d) r) m'.free
    rw [hown]
    exact hpart
  · apply hkept (.user v)
    rw [own_user hv, hw]
    rfl

theorem wp_exec_commit (hA : Frames L A) (h₀ : Space A r [] s.proc.pgdir s.mem)
    (h : Image L A (Sum.elim (own s.mem s.proc.pgdir) r) d sz s.mem m) {top entry sp : Nat}
    (hQ : ∀ m', Settled L A r d m m' →
      Q true { s with mem := m', proc := ⟨top, d, entry, sp, (lastPart path).take 15⟩ }) :
    wp (exec_commit L path d top entry sp) E Q { s with mem := m } := by
  unfold exec_commit
  simp only [wp_bind, wp_get, wp_modify]
  rw [wp_inMem]
  apply wp_freevm (h.swap h₀) hA
  intro m' hpart hpage _
  exact hQ m' (h.settle hpart hpage)

/-! ## All or nothing -/

/-- The process has a new address space with exactly the pages of its size, and
    the inode and the log are as before. -/
structure Replaced (L : Layout) (A : Set Nat) (r : R → Option Nat) (s s' : ExecState) : Prop where
  addr : AddrSpace L A r [] s'.proc.pgdir s'.mem
  exact : ∀ v, v < KERNPAGE → (pte s'.mem s'.proc.pgdir v ≠ none ↔ v < pages s'.proc.sz)
  outstanding : s'.outstanding = s.outstanding
  ref : s'.ref = s.ref
  locked : s'.locked = s.locked

/-- What a successful call has built: the stack of `m`, in the memory that is
    left when the old address space has been freed. -/
structure Done (L : Layout) (A : Set Nat) (r : R → Option Nat) (argv : List (List Byte))
    (s : ExecState) (d sz F : Nat) (addrs : List Nat) (sp : Nat) (m : Phys) (s' : ExecState) : Prop where
  stack : Stack L A (Sum.elim (own s.mem s.proc.pgdir) r) d (pages sz) F s.mem m
  base : (pages sz + 1) * PGSIZE ≤ s'.proc.esp
  args : ArgPage (stackByte m (pages sz) F) ((pages sz + 2) * PGSIZE) argv addrs sp s'.proc.esp
  settled : Settled L A r d m s'.mem
  pgdir : s'.proc.pgdir = d
  size : s'.proc.sz = (pages sz + 2) * PGSIZE
  replaced : Replaced L A r s s'

/-- A program without segments, enough memory for it, and arguments that fit. -/
structure Suffices (file : Option (List Byte)) (argv : List (List Byte)) (free : Nat) : Prop where
  file : ∃ content elf, file = some content ∧ (readFull content 0 52).map Elfhdr.ofBytes = some elf ∧
    elf.magic = ELF_MAGIC ∧ elf.phnum = 0
  free : 2 * 1025 + 2 < free
  args : FitPage argv

section

variable {file : Option (List Byte)} (hA : Frames L A) (h : Space A r [] s.proc.pgdir s.mem)
  (hs : s.locked = false) (hlens : ∀ a ∈ argv, a.length < KERNBASE)
  (hbad : ∀ s', Restored s s' → ¬Suffices file argv s.mem.free.length → Q false s')
  (hok : ∀ d sz F addrs sp m s', Done L A r argv s d sz F addrs sp m s' → Q true s')
  (htrap : (∃ a ∈ argv, 2 ^ 25 ≤ a.length + 4) → E "trap")
include hA h hs hlens hbad hok htrap

/-- From the point on where the program has been loaded. -/
theorem wp_exec_loaded {entry : Nat}
    (hm : Image L A (Sum.elim (own s.mem s.proc.pgdir) r) d sz s.mem m)
    (hroom : Suffices file argv s.mem.free.length → sz = 0 ∧ 1027 < m.free.length) :
    wp (exec_loaded L path argv d sz entry) E Q (holding s m) := by
  have h₀ : Allotment A (Sum.elim (own s.mem s.proc.pgdir) r) s.mem.free := h
  unfold exec_loaded
  simp only [wp_bind]
  refine wp_release hs ?_
  rw [wp_inMem]
  apply wp_exec_stack hA h₀ hm hlens
  · intro F addrs sp esp m₁ hstack hesp hargs
    apply wp_exec_commit hA h hstack.image
    intro m₂ hm₂
    refine hok d sz F addrs sp m₁ _ ⟨hstack, hesp, hargs, hm₂, rfl, rfl, hm₂.addr, fun v hv => ?_, rfl, rfl, rfl⟩
    show pte m₂ d v ≠ none ↔ v < pages ((pages sz + 2) * PGSIZE)
    rw [hm₂.pte]
    exact hstack.image.exact v hv
  · intro m₁ hm₁ hwhy
    have hno : ¬Suffices file argv s.mem.free.length := by
      intro hsuff
      obtain ⟨rfl, hfree⟩ := hroom hsuff
      rcases hwhy with hlarge | hfew | hlong
      · exact absurd hlarge (by decide)
      · omega
      · exact hlong hsuff.args
    rcases hm₁ with himage | ⟨F, hstack⟩
    · exact wp_exec_bad_released (s := s) hA h₀ himage fun s' hs' => hbad s' hs' hno
    · exact wp_exec_bad_released (s := s) hA h₀ hstack.image fun s' hs' => hbad s' hs' hno
  · exact htrap

/-- From the point on where the inode is locked. -/
theorem wp_exec_held {content : List Byte} (hfile : file = some content) :
    wp (exec_held L content path argv) E Q (holding s s.mem) := by
  have h₀ : Allotment A (Sum.elim (own s.mem s.proc.pgdir) r) s.mem.free := h
  have hsame : Restored s { s with mem := s.mem } :=
    ⟨rfl, List.Perm.refl _, fun _ _ => rfl, rfl, rfl, rfl⟩
  -- what would suffice is about the header that is read here
  have hheader : Suffices file argv s.mem.free.length → ∃ elf,
      (readFull content 0 52).map Elfhdr.ofBytes = some elf ∧ elf.magic = ELF_MAGIC ∧ elf.phnum = 0 := by
    intro hsuff
    obtain ⟨content', elf, hcontent, helf⟩ := hsuff.file
    obtain rfl := Option.some.inj (hfile.symm.trans hcontent)
    exact ⟨elf, helf⟩
  unfold exec_held
  cases hread : (readFull content 0 52).map Elfhdr.ofBytes with
  | none =>
    refine wp_exec_bad_none hs (hbad _ hsame fun hsuff => ?_)
    obtain ⟨elf, helf, -⟩ := hheader hsuff
    rw [hread] at helf
    cases helf
  | some elf =>
    have hself : Suffices file argv s.mem.free.length → elf.magic = ELF_MAGIC ∧ elf.phnum = 0 := by
      intro hsuff
      obtain ⟨elf', helf, hok⟩ := hheader hsuff
      obtain rfl := Option.some.inj (hread.symm.trans helf)
      exact hok
    dsimp only
    by_cases hmagic : elf.magic ≠ ELF_MAGIC
    · rw [if_pos hmagic]
      exact wp_exec_bad_none hs (hbad _ hsame fun hsuff => hmagic (hself hsuff).1)
    rw [if_neg hmagic, wp_bind, wp_inMem]
    apply wp_setupkvm hA (show Allotment A _ ([] ++ _) from h₀)
    · intro d m₁ hsetup
      dsimp only
      rw [wp_bind, wp_inMem]
      have htaken := hsetup.taken
      rw [List.length_nil] at htaken
      by_cases hphnum : elf.phnum = 0
      · -- the loop ends at once
        rw [hphnum]
        refine wp_exec_loaded hA h hs hlens hbad hok htrap hsetup.image fun hsuff => ⟨rfl, ?_⟩
        have hfree := hsuff.free
        show 1027 < m₁.free.length
        omega
      · have hno : ¬Suffices file argv s.mem.free.length := fun hsuff => hphnum (hself hsuff).2
        refine wp_exec_load hA h₀ (fun sz m₂ hm₂ => ?_) (fun sz m₂ hm₂ => ?_) _ _ _ _ hsetup.image
        · exact wp_exec_loaded hA h hs hlens hbad hok htrap hm₂ (absurd · hno)
        · exact wp_exec_bad_held hA h₀ hm₂ hs fun s' hs' => hbad s' hs' hno
    · intro m₁ hfew hm₁
      rw [List.length_nil] at hfew
      refine wp_exec_bad_none hs (hbad _ ⟨rfl, hm₁.free, hm₁.page, rfl, rfl, rfl⟩ fun hsuff => ?_)
      have hfree := hsuff.free
      omega

theorem wp_exec : wp (exec L file path argv) E Q s := by
  unfold exec
  cases hfile : file with
  | none =>
    show Q false { s with outstanding := s.outstanding + 1 - 1 }
    refine hbad _ ⟨rfl, List.Perm.refl _, fun _ _ => rfl, Int.add_sub_cancel .., rfl, rfl⟩ fun hsuff => ?_
    obtain ⟨content, elf, hcontent, -⟩ := hsuff.file
    rw [hfile] at hcontent
    cases hcontent
  | some content => exact wp_exec_held hA h hs hlens hbad hok htrap hfile

end

/-- `exec` replaces the address space, or leaves everything as it was; the only
    thing that can keep it from returning is an argument of about 32 MB.
    Loading does not panic and maps no user page at or above `KERNBASE`. -/
theorem exec_all_or_nothing (hA : Frames L A) (h : AddrSpace L A r [] s.proc.pgdir s.mem)
    (hs : s.locked = false) (hlens : ∀ a ∈ argv, a.length < KERNBASE) (file : Option (List Byte))
    (path : List Byte) :
    wp (exec L file path argv) (fun msg => msg = "trap" ∧ ∃ a ∈ argv, 2 ^ 25 ≤ a.length + 4)
      (fun ok s' => if ok then Replaced L A r s s' else Restored s s') s ∧
    ∀ content d n off sz m, Image L A (Sum.elim (own s.mem s.proc.pgdir) r) d sz s.mem m →
      wp (exec_load L d content n off sz) (fun _ => False)
        (fun _ m' => ∀ v w, pte m' d v = some w → has w PTE_U = true → v < KERNPAGE) m := by
  constructor
  · apply wp_exec hA h.space hs hlens
    · intro s' hs' _
      exact hs'
    · intro d sz F addrs sp m s' hdone
      exact hdone.replaced
    · intro hlong
      exact ⟨rfl, hlong⟩
  · intro content d n off sz m hm
    have h₀ : Allotment A (Sum.elim (own s.mem s.proc.pgdir) r) s.mem.free := h.space
    exact wp_exec_load hA h₀ (fun sz' m' hm' v w hw hU => hm'.addr.user_lt hw hU)
      (fun sz' m' hm' v w hw hU => hm'.addr.user_lt hw hU) n off sz m hm

/-- A process that runs in the directory `d`. -/
def caller (d : Nat) (m : Phys) : ExecState :=
  { mem := m, proc := ⟨4096, d, 0, 4096, []⟩, outstanding := 0, ref := 1, locked := false }

/-- A program without segments. -/
def emptyProgram : List Byte := [0x7f, 0x45, 0x4c, 0x46] ++ List.replicate 48 0

/-- The process can run it with two arguments. -/
theorem exists_exec : ∃ d m s', Built smallKernel manyFrames (fun x : Empty => x.elim) d m ∧
    exec smallKernel (some emptyProgram) [] [[97], [98, 99]] (caller d m) = .ok true s' := by
  obtain ⟨d, m, hbuilt, -, hfree⟩ := exists_userPage
  have hsuff : Suffices (some emptyProgram) [[97], [98, 99]] m.free.length :=
    ⟨⟨_, _, rfl, rfl, by decide, by decide⟩, by omega, by decide, by decide⟩
  have hrun : wp (exec smallKernel (some emptyProgram) [] [[97], [98, 99]]) (fun _ => False)
      (fun ok _ => ok = true) (caller d m) := by
    apply wp_exec (s := caller d m) manyFrames_ok (hbuilt.addrSpace manyFrames_ok).space rfl (by decide)
    · intro s' _ hno
      exact absurd hsuff hno
    · intros
      rfl
    · decide
  obtain ⟨ok, s', hok, rfl⟩ := hrun.returns
  exact ⟨d, m, s', hbuilt, hok⟩

theorem exec_all_or_nothing_two_arguments :
    ∃ d m s', exec smallKernel (some emptyProgram) [] [[97], [98, 99]] (caller d m) = .ok true s' ∧
      Replaced smallKernel manyFrames (fun x : Empty => x.elim) (caller d m) s' := by
  obtain ⟨d, m, s', hbuilt, hrun⟩ := exists_exec
  exact ⟨d, m, s', hrun, (exec_all_or_nothing (s := caller d m) manyFrames_ok
    (hbuilt.addrSpace manyFrames_ok) rfl (by decide) _ _).1.of_ok hrun⟩

/-! ## The arguments -/

/-- The byte at a user address. -/
def userByte (m : Phys) (d a : Nat) : Option Byte :=
  (userFrame m d (a / PGSIZE)).map fun f => (m.page f).byte (a % PGSIZE)

/-- The word at a user address. -/
def userWord (m : Phys) (d a : Nat) : Option Nat :=
  match userByte m d a, userByte m d (a + 1), userByte m d (a + 2), userByte m d (a + 3) with
  | some b₀, some b₁, some b₂, some b₃ =>
    some (b₀.toNat + 256 * (b₁.toNat + 256 * (b₂.toNat + 256 * b₃.toNat)))
  | _, _, _, _ => none

/-- The user memory of the process, from its stack pointer on, decodes to the
    arguments, all inside the last page. -/
structure Marshalled (argv : List (List Byte)) (addrs : List Nat) (m : Phys) (p : Proc) : Prop where
  count : addrs.length = argv.length
  ret : userWord m p.pgdir p.esp = some 0xffffffff
  argc : userWord m p.pgdir (p.esp + 4) = some argv.length
  vector : userWord m p.pgdir (p.esp + 8) = some (p.esp + 12)
  aligned : (p.esp + 12) % 4 = 0
  pointers : ∀ (i : Nat) a, addrs[i]? = some a → userWord m p.pgdir (p.esp + 12 + 4 * i) = some a
  null : userWord m p.pgdir (p.esp + 12 + 4 * argv.length) = some 0
  strings : ∀ (i : Nat) s a, argv[i]? = some s → addrs[i]? = some a →
    ∀ j, j ≤ s.length → userByte m p.pgdir (a + j) = some (cstring s j)
  low : p.sz - PGSIZE ≤ p.esp
  above : ∀ (i : Nat) s a, argv[i]? = some s → addrs[i]? = some a →
    p.esp + 4 * (argv.length + 4) ≤ a ∧ a + s.length + 1 ≤ p.sz
  apart : ∀ (i j : Nat) s a b, i < j → argv[j]? = some s → addrs[i]? = some a → addrs[j]? = some b →
    b + s.length + 1 ≤ a

variable {b : Nat → Byte} {addrs : List Nat} {hi sp esp : Nat}

/-- Each string is at its address, between `sp` and `hi`. -/
theorem Pushed.get (h : Pushed b hi argv addrs sp) {i : Nat} {s : List Byte} {a : Nat}
    (hs : argv[i]? = some s) (ha : addrs[i]? = some a) :
    sp ≤ a ∧ a + s.length + 1 ≤ hi ∧ ∀ j, j ≤ s.length → b (a + j) = cstring s j := by
  induction argv generalizing hi addrs i with
  | nil => cases hs
  | cons s₀ argv ih =>
    cases addrs with
    | nil => exact h.elim
    | cons a₀ addrs =>
      obtain ⟨-, hend, -, hbytes, hrest⟩ := h
      cases i with
      | zero =>
        obtain rfl : s₀ = s := by simpa using hs
        obtain rfl : a₀ = a := by simpa using ha
        exact ⟨hrest.le, by omega, hbytes⟩
      | succ i =>
        obtain ⟨hlo, hhi, hstring⟩ := ih hrest (i := i) (by simpa using hs) (by simpa using ha)
        exact ⟨hlo, by omega, hstring⟩

/-- Later strings are below earlier ones. -/
theorem Pushed.apart (h : Pushed b hi argv addrs sp) {i j : Nat} (hij : i < j) {s : List Byte}
    {a c : Nat} (hs : argv[j]? = some s) (ha : addrs[i]? = some a) (hc : addrs[j]? = some c) :
    c + s.length + 1 ≤ a := by
  induction argv generalizing hi addrs i j with
  | nil => cases hs
  | cons s₀ argv ih =>
    cases addrs with
    | nil => exact h.elim
    | cons a₀ addrs =>
      obtain ⟨-, -, -, -, hrest⟩ := h
      obtain ⟨j, rfl⟩ : ∃ k, j = k + 1 := ⟨j - 1, by omega⟩
      have hs' : argv[j]? = some s := by simpa using hs
      have hc' : addrs[j]? = some c := by simpa using hc
      cases i with
      | zero =>
        obtain rfl : a₀ = a := by simpa using ha
        exact (hrest.get hs' hc').2.1
      | succ i => exact ih hrest (i := i) (j := j) (by omega) hs' (by simpa using ha) hc'

/-- The four bytes of a word of an array. -/
theorem wordBytes_word (ws : List Nat) {k w : Nat} (hw : ws.getD k 0 = w) (hlt : w < 2 ^ 32) :
    (wordBytes ws (4 * k)).toNat + 256 * ((wordBytes ws (4 * k + 1)).toNat +
      256 * ((wordBytes ws (4 * k + 2)).toNat + 256 * (wordBytes ws (4 * k + 3)).toNat)) = w := by
  have hbyte : ∀ j, j < 4 → (wordBytes ws (4 * k + j)).toNat = w / 256 ^ j % 256 := by
    intro j hj
    unfold wordBytes
    rw [show (4 * k + j) / 4 = k by omega, show (4 * k + j) % 4 = j by omega, hw, BitVec.toNat_ofNat]
  have h0 := hbyte 0 (by decide)
  rw [Nat.add_zero] at h0
  rw [h0, hbyte 1 (by decide), hbyte 2 (by decide), hbyte 3 (by decide)]
  omega

/-- A word of the vector, read from the stack page. -/
theorem ArgPage.word (h : ArgPage b hi argv addrs sp esp) {p : Nat}
    (hread : ∀ a, esp ≤ a → a < sp → userByte m p a = some (b a)) {k w : Nat} (hk : k < argv.length + 4)
    (hw : (vector esp addrs).getD k 0 = w) (hlt : w < 2 ^ 32) : userWord m p (esp + 4 * k) = some w := by
  have hbottom := h.bottom
  have hbyte : ∀ j, j < 4 → userByte m p (esp + 4 * k + j) = some (wordBytes (vector esp addrs) (4 * k + j)) := by
    intro j hj
    rw [hread _ (by omega) (by omega), Nat.add_assoc, h.words (4 * k + j) (by omega)]
  have h0 := hbyte 0 (by decide)
  rw [Nat.add_zero, Nat.add_zero] at h0
  unfold userWord
  rw [h0, hbyte 1 (by decide), hbyte 2 (by decide), hbyte 3 (by decide)]
  exact congrArg some (wordBytes_word _ hw hlt)

theorem ArgPage.length (h : ArgPage b hi argv addrs sp esp) : addrs.length = argv.length := h.pushed.length

/-- What the vector holds after its three leading words. -/
theorem vector_getD_pointer {i a : Nat} (ha : addrs[i]? = some a) : (vector esp addrs).getD (3 + i) 0 = a := by
  have hi : i < addrs.length := (List.getElem?_eq_some_iff.mp ha).1
  rw [List.getD_eq_getElem?_getD, Nat.add_comm]
  simp [vector, List.getElem?_append_left hi, ha]

theorem vector_getD_null : (vector esp addrs).getD (3 + addrs.length) 0 = 0 := by
  rw [List.getD_eq_getElem?_getD, Nat.add_comm]
  simp [vector]

/-- The page decodes to the arguments. -/
theorem ArgPage.marshalled {p : Proc} (h : ArgPage b hi argv addrs sp p.esp)
    (hread : ∀ a, hi - PGSIZE ≤ a → a < hi → userByte m p.pgdir a = some (b a))
    (hsz : p.sz = hi) (hlow : hi - PGSIZE ≤ p.esp) (hhi : hi ≤ KERNBASE) :
    Marshalled argv addrs m p := by
  have hbottom := h.bottom
  have hle := h.pushed.le
  have hcount := h.length
  have halign := h.aligned
  have hmem : ∀ a, p.esp ≤ a → a < sp → userByte m p.pgdir a = some (b a) := fun a ha hlt =>
    hread a (by omega) (by omega)
  have hword : ∀ {k w : Nat}, k < argv.length + 4 → (vector p.esp addrs).getD k 0 = w → w < 2 ^ 32 →
      userWord m p.pgdir (p.esp + 4 * k) = some w := h.word hmem
  simp only [KERNBASE] at hhi
  refine ⟨hcount, hword (k := 0) (by omega) rfl (by decide), ?_, ?_, by omega, ?_, ?_, ?_, ?_, ?_, ?_⟩
  · rw [← hcount]
    exact hword (k := 1) (by omega) rfl (by omega)
  · exact hword (k := 2) (by omega) rfl (by omega)
  · intro i a ha
    have hi : i < addrs.length := (List.getElem?_eq_some_iff.mp ha).1
    obtain ⟨s, hs⟩ : ∃ s, argv[i]? = some s := ⟨_, List.getElem?_eq_getElem (hcount ▸ hi)⟩
    have hend := (h.pushed.get hs ha).2.1
    rw [show p.esp + 12 + 4 * i = p.esp + 4 * (3 + i) by omega]
    exact hword (by omega) (vector_getD_pointer ha) (by omega)
  · rw [show p.esp + 12 + 4 * argv.length = p.esp + 4 * (3 + addrs.length) by omega]
    exact hword (by omega) vector_getD_null (by decide)
  · intro i s a hs ha j hj
    obtain ⟨hlo, hend, hstring⟩ := h.pushed.get hs ha
    rw [hread _ (by omega) (by omega), hstring j hj]
  · rw [hsz]
    exact hlow
  · intro i s a hs ha
    obtain ⟨hlo, hend, -⟩ := h.pushed.get hs ha
    rw [hbottom, hsz]
    exact ⟨hlo, hend⟩
  · intro i j s a c hij hs ha hc
    exact h.pushed.apart hij hs ha hc

/-- What a byte of the stack page is in the memory that is left. -/
theorem Done.read {sz : Nat} {s s' : ExecState} (h : Done L A r argv s d sz F addrs sp m s') {a : Nat}
    (hlo : (pages sz + 1) * PGSIZE ≤ a) (hhi : a < (pages sz + 2) * PGSIZE) :
    userByte s'.mem s'.proc.pgdir a = some (stackByte m (pages sz) F a) := by
  have hpage : a / PGSIZE = pages sz + 1 := by
    simp only [PGSIZE] at *
    omega
  have hoff : a % PGSIZE = a - (pages sz + 1) * PGSIZE := by
    simp only [PGSIZE] at *
    omega
  obtain ⟨w, hw, hU, hF⟩ := userFrame_eq_some.mp h.stack.stack
  have huser : userFrame s'.mem d (pages sz + 1) = some F :=
    userFrame_eq_some.mpr ⟨w, by rw [h.settled.pte, hw], hU, hF⟩
  have hlt : pages sz + 1 < KERNPAGE := by
    have htop := h.stack.top_le
    simp only [PGSIZE, KERNBASE, KERNPAGE] at *
    omega
  have hkept := h.settled.page _ w hlt hw
  rw [hF] at hkept
  unfold userByte stackByte
  rw [h.pgdir, hpage, huser, hoff, ← hkept]
  rfl

/-- When `exec` succeeds, the new stack page decodes to the arguments, which
    therefore fit; and whether or not they fit, setting up the stack leaves the
    guard page below it as it was allocated. -/
theorem exec_marshals_arguments (hA : Frames L A) (h : AddrSpace L A r [] s.proc.pgdir s.mem)
    (hs : s.locked = false) (hlens : ∀ a ∈ argv, a.length < KERNBASE) (file : Option (List Byte))
    (path : List Byte) :
    wp (exec L file path argv) (fun msg => msg = "trap" ∧ ∃ a ∈ argv, 2 ^ 25 ≤ a.length + 4)
      (fun ok s' => ok = true → (∃ addrs, Marshalled argv addrs s'.mem s'.proc) ∧ stackNeed argv ≤ PGSIZE) s ∧
    ∀ d sz m, pages sz < KERNPAGE → Image L A (Sum.elim (own s.mem s.proc.pgdir) r) d sz s.mem m →
      wp (exec_stack L d sz argv) (fun msg => msg = "trap" ∧ ∃ a ∈ argv, 2 ^ 25 ≤ a.length + 4)
        (fun _ m' => ∀ w, pte m' d (pages sz) = some w → m'.page (frame w) = 0) m := by
  constructor
  · apply wp_exec hA h.space hs hlens
    · intro s' _ _ hok
      cases hok
    · intro d sz F addrs sp m s' hdone _
      have hneed := hdone.args.need_le (by simp only [PGSIZE]; omega)
      have hbase := hdone.base
      have hbelow : (pages sz + 2) * PGSIZE - PGSIZE = (pages sz + 1) * PGSIZE := by
        simp only [PGSIZE]
        omega
      refine ⟨⟨addrs, hdone.args.marshalled (fun a hlo hhi => ?_) hdone.size ?_ hdone.stack.top_le⟩, ?_⟩
      · rw [hbelow] at hlo
        exact hdone.read hlo hhi
      · rw [hbelow]
        exact hbase
      · simp only [PGSIZE] at *
        omega
    · intro hlong
      exact ⟨rfl, hlong⟩
  · intro d sz m hsz hm
    have h₀ : Allotment A (Sum.elim (own s.mem s.proc.pgdir) r) s.mem.free := h.space
    apply wp_exec_stack hA h₀ hm hlens
    · intro F addrs sp esp m' hstack _ _
      exact hstack.clean
    · intro m' hm' _ w hw
      rcases hm' with himage | ⟨F, hstack⟩
      · -- the guard page has not been allocated
        have hnone := mt (himage.exact _ hsz).mp (lt_irrefl _)
        rw [hw] at hnone
        exact absurd (Option.some_ne_none w) hnone
      · exact hstack.clean w hw
    · intro hlong
      exact ⟨rfl, hlong⟩

theorem exec_marshals_arguments_two :
    ∃ d m s', exec smallKernel (some emptyProgram) [] [[97], [98, 99]] (caller d m) = .ok true s' ∧
      ∃ addrs, Marshalled [[97], [98, 99]] addrs s'.mem s'.proc := by
  obtain ⟨d, m, s', hbuilt, hrun⟩ := exists_exec
  exact ⟨d, m, s', hrun, ((exec_marshals_arguments (s := caller d m) manyFrames_ok
    (hbuilt.addrSpace manyFrames_ok) rfl (by decide) _ _).1.of_ok hrun rfl).1⟩

end Xv6.Vm
