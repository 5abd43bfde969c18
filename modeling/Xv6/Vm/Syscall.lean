import Xv6.Vm.Exec
import Xv6.Vm.Translate

/-! # Fetching system call arguments (`syscall.c`)

    User code makes a system call with its arguments on the stack. The kernel
    reads them, and the memory they point to, through the page table of the
    process, so each pointer is checked against the size of the process first.

    An `int`, a `uint` and a pointer are words of 32 bits, with the arithmetic
    and the comparisons of C. The functions run on the memory of the current
    process; reading a page that is not present traps.
-/

namespace Xv6.Vm

open Op

/-! ## The code -/

/-- What is used of the current process: its size, its page table, and the
    saved stack pointer, `tf->esp`. -/
structure Caller where
  sz : BitVec 32
  pgdir : Nat
  esp : BitVec 32

/-- The byte at address `a`, if its page is present. -/
def byteAt (m : Phys) (d a : Nat) : Option Byte :=
  (translate m d a).map fun w => (m.page (frame w)).byte (a % PGSIZE)

/-- `*(char*)a` -/
def loadb (pgdir : Nat) (a : BitVec 32) : MemOp Byte := do
  let m ← Op.get
  match byteAt m pgdir a.toNat with
  | none => Op.panic "trap"
  | some b => pure b

/-- `*(int*)a` -/
def loadw (pgdir : Nat) (a : BitVec 32) : MemOp (BitVec 32) := do
  let b₀ ← loadb pgdir a
  let b₁ ← loadb pgdir (a + 1)
  let b₂ ← loadb pgdir (a + 2)
  let b₃ ← loadb pgdir (a + 3)
  pure (b₃ ++ b₂ ++ b₁ ++ b₀)

/-- Fetch the int at `addr` from the current process. -/
def fetchint (curproc : Caller) (addr : BitVec 32) : MemOp (Option (BitVec 32)) := do
  if addr ≥ curproc.sz ∨ addr + 4 > curproc.sz then
    pure none
  else
    let i ← loadw curproc.pgdir addr
    pure (some i)

/-- The loop of `fetchstr`: `pp` is where the string starts. -/
def fetchstr_loop (curproc : Caller) (pp : BitVec 32) :
    (fuel : Nat) → (s : BitVec 32) → MemOp (Option (BitVec 32 × BitVec 32))
  | 0, _ => Op.block
  | fuel + 1, s => do
    if s < curproc.sz then
      let b ← loadb curproc.pgdir s
      if b = 0 then
        pure (some (pp, s - pp))
      else
        fetchstr_loop curproc pp fuel (s + 1)
    else
      pure none

/-- Fetch the nul-terminated string at `addr` from the current process: where
    it starts, and its length. -/
def fetchstr (curproc : Caller) (addr : BitVec 32) : MemOp (Option (BitVec 32 × BitVec 32)) := do
  if addr ≥ curproc.sz then
    pure none
  else
    fetchstr_loop curproc addr (2 ^ 32) addr

/-- Where the nth argument is. -/
def Caller.arg (curproc : Caller) (n : BitVec 32) : BitVec 32 := curproc.esp + 4 + 4 * n

/-- Fetch the nth 32-bit system call argument. -/
def argint (curproc : Caller) (n : BitVec 32) : MemOp (Option (BitVec 32)) :=
  fetchint curproc (curproc.arg n)

/-- Fetch the nth word-sized system call argument as a pointer to a block of
    memory of `size` bytes. -/
def argptr (curproc : Caller) (n size : BitVec 32) : MemOp (Option (BitVec 32)) := do
  match ← argint curproc n with
  | none => pure none
  | some i =>
    if size.slt 0 ∨ i ≥ curproc.sz ∨ i + size > curproc.sz then
      pure none
    else
      pure (some i)

/-- Fetch the nth word-sized system call argument as a string pointer. -/
def argstr (curproc : Caller) (n : BitVec 32) : MemOp (Option (BitVec 32 × BitVec 32)) := do
  match ← argint curproc n with
  | none => pure none
  | some addr => fetchstr curproc addr

/-- The loop of `sys_exec`; `argv` holds the pointers up to `i`. -/
def sys_exec_loop (curproc : Caller) (uargv : BitVec 32) :
    (fuel i : Nat) → (argv : List (BitVec 32)) → MemOp (Option (List (BitVec 32)))
  | 0, _, _ => Op.block
  | fuel + 1, i, argv => do
    if i ≥ MAXARG then
      pure none
    else
      match ← fetchint curproc (uargv + 4 * BitVec.ofNat 32 i) with
      | none => pure none
      | some uarg =>
        if uarg = 0 then
          pure (some argv)
        else
          match ← fetchstr curproc uarg with
          | none => pure none
          | some (p, _) => sys_exec_loop curproc uargv fuel (i + 1) (argv ++ [p])

/-- `sys_exec`, up to the call of `exec`: the path and the pointers that it
    passes on, without the 0 at their end. -/
def sys_exec (curproc : Caller) : MemOp (Option (BitVec 32 × List (BitVec 32))) := do
  match ← argstr curproc 0 with
  | none => pure none
  | some (path, _) =>
    match ← argint curproc 1 with
    | none => pure none
    | some uargv =>
      match ← sys_exec_loop curproc uargv (MAXARG + 1) 0 [] with
      | none => pure none
      | some argv => pure (some (path, argv))

/-! ## What the checks ensure -/

/-- A process whose pages are present. -/
structure Caller.Present (p : Caller) (m : Phys) : Prop where
  sz : p.sz.toNat < KERNBASE
  page : ∀ a, a < p.sz.toNat → translate m p.pgdir a ≠ none

/-- A string of `k` bytes in the memory of the process, and the NUL behind it. -/
structure IsString (m : Phys) (p : Caller) (q : BitVec 32) (k : Nat) : Prop where
  below : ∀ j, j ≤ k → q.toNat + j < p.sz.toNat
  nul : byteAt m p.pgdir (q.toNat + k) = some 0
  first : ∀ j, j < k → byteAt m p.pgdir (q.toNat + j) ≠ some 0

variable {m : Phys} {p : Caller} {E : String → Prop}
  {Q : Option (BitVec 32 × BitVec 32) → Phys → Prop} {a : BitVec 32}

theorem Caller.Present.byte (h : p.Present m) {a : Nat} (ha : a < p.sz.toNat) :
    ∃ b, byteAt m p.pgdir a = some b := by
  obtain ⟨w, hw⟩ := Option.ne_none_iff_exists'.mp (h.page a ha)
  exact ⟨_, by rw [byteAt, hw]; rfl⟩

theorem wp_loadb {d : Nat} {b : Byte} (hb : byteAt m d a.toNat = some b) {Q : Byte → Phys → Prop}
    (hQ : Q b m) : wp (loadb d a) E Q m := by
  unfold loadb
  rw [wp_bind, wp_get, hb]
  exact hQ

theorem extract_append_zero {n : Nat} (x : BitVec n) (b : Byte) : (x ++ b).extractLsb' 0 8 = b := by
  apply BitVec.eq_of_getLsbD_eq
  intro j hj
  rw [BitVec.getLsbD_extractLsb', BitVec.getLsbD_append, if_pos (by omega), decide_eq_true hj, Bool.true_and,
    Nat.zero_add]

theorem extract_append_add {n : Nat} (x : BitVec n) (b : Byte) (k : Nat) :
    (x ++ b).extractLsb' (k + 8) 8 = x.extractLsb' k 8 := by
  apply BitVec.eq_of_getLsbD_eq
  intro j hj
  rw [BitVec.getLsbD_extractLsb', BitVec.getLsbD_extractLsb', BitVec.getLsbD_append, if_neg (by omega),
    show k + 8 + j - 8 = k + j by omega]

/-- The bytes of a word that is read. -/
theorem wp_loadw (h : p.Present m) (ha : a.toNat + 4 ≤ p.sz.toNat) {Q : BitVec 32 → Phys → Prop}
    (hQ : ∀ x : BitVec 32, (∀ i, i < 4 →
      byteAt m p.pgdir (a.toNat + i) = some (x.extractLsb' (8 * i) 8)) → Q x m) :
    wp (loadw p.pgdir a) E Q m := by
  have hsz := h.sz
  have hadd : ∀ i : Nat, i < 4 → (a + BitVec.ofNat 32 i).toNat = a.toNat + i := by
    intro i hi
    rw [BitVec.toNat_add, BitVec.toNat_ofNat]
    simp only [KERNBASE] at hsz
    omega
  obtain ⟨b₀, h₀⟩ := h.byte (show a.toNat + 0 < _ by omega)
  obtain ⟨b₁, h₁⟩ := h.byte (show a.toNat + 1 < _ by omega)
  obtain ⟨b₂, h₂⟩ := h.byte (show a.toNat + 2 < _ by omega)
  obtain ⟨b₃, h₃⟩ := h.byte (show a.toNat + 3 < _ by omega)
  unfold loadw
  rw [wp_bind]
  refine wp_loadb h₀ ?_
  rw [wp_bind]
  refine wp_loadb ((congrArg _ (hadd 1 (by decide))).trans h₁) ?_
  rw [wp_bind]
  refine wp_loadb ((congrArg _ (hadd 2 (by decide))).trans h₂) ?_
  rw [wp_bind]
  refine wp_loadb ((congrArg _ (hadd 3 (by decide))).trans h₃) ?_
  refine hQ _ fun i hi => ?_
  match i, hi with
  | 0, _ => rw [h₀, extract_append_zero]
  | 1, _ => rw [h₁, extract_append_add _ _ 0, extract_append_zero]
  | 2, _ => rw [h₂, extract_append_add _ _ 8, extract_append_add _ _ 0, extract_append_zero]
  | 3, _ =>
    rw [h₃, extract_append_add _ _ 16, extract_append_add _ _ 8, extract_append_add _ _ 0,
      BitVec.extractLsb'_eq_self]

theorem wp_fetchint (h : p.Present m) (addr : BitVec 32) {Q : Option (BitVec 32) → Phys → Prop}
    (hnone : Q none m)
    (hsome : ∀ x : BitVec 32, addr.toNat + 4 ≤ p.sz.toNat → (∀ i, i < 4 →
      byteAt m p.pgdir (addr.toNat + i) = some (x.extractLsb' (8 * i) 8)) → Q (some x) m) :
    wp (fetchint p addr) E Q m := by
  have hsz := h.sz
  unfold fetchint
  split_ifs with hbad
  · exact hnone
  · rw [not_or] at hbad
    -- the sum does not wrap around
    have hlt : addr.toNat < p.sz.toNat := BitVec.not_le.mp hbad.1
    have hsum : (addr + 4).toNat = addr.toNat + 4 := by
      rw [BitVec.toNat_add]
      simp only [KERNBASE] at hsz
      exact Nat.mod_eq_of_lt (by show addr.toNat + 4 < _; omega)
    have hle : addr.toNat + 4 ≤ p.sz.toNat := by
      rw [← hsum]
      exact BitVec.not_lt.mp hbad.2
    rw [wp_bind]
    exact wp_loadw h hle fun x hx => hsome x hle hx

/-- The loop of `fetchstr` at `s`, when there is no NUL from `pp` up to there. -/
theorem wp_fetchstr_loop (h : p.Present m) {pp : BitVec 32} (hnone : Q none m)
    (hsome : ∀ k : BitVec 32, IsString m p pp k.toNat → Q (some (pp, k)) m) (fuel : Nat)
    (s : BitVec 32) (hfuel : p.sz.toNat - s.toNat < fuel) (hs : pp.toNat ≤ s.toNat)
    (hfirst : ∀ j, pp.toNat + j < s.toNat → byteAt m p.pgdir (pp.toNat + j) ≠ some 0) :
    wp (fetchstr_loop p pp fuel s) E Q m := by
  have hsz := h.sz
  simp only [KERNBASE] at hsz
  induction fuel generalizing s with
  | zero => omega
  | succ fuel ih =>
    unfold fetchstr_loop
    split_ifs with hlt
    · have hlt' : s.toNat < p.sz.toNat := hlt
      obtain ⟨b, hb⟩ := h.byte hlt'
      rw [wp_bind]
      refine wp_loadb hb ?_
      split_ifs with hzero
      · have hk : (s - pp).toNat = s.toNat - pp.toNat := BitVec.toNat_sub_of_le hs
        refine hsome (s - pp) ⟨fun j hj => ?_, ?_, fun j hj => hfirst j ?_⟩
        · rw [hk] at hj
          omega
        · rw [hk, show pp.toNat + (s.toNat - pp.toNat) = s.toNat by omega, hb, hzero]
        · rw [hk] at hj
          omega
      · have hnext : (s + 1).toNat = s.toNat + 1 := by
          rw [BitVec.toNat_add]
          exact Nat.mod_eq_of_lt (by show s.toNat + 1 < _; omega)
        refine ih (s + 1) (by omega) (by omega) fun j hj => ?_
        by_cases hj' : pp.toNat + j < s.toNat
        · exact hfirst j hj'
        · rw [show pp.toNat + j = s.toNat by omega, hb]
          simpa using hzero
    · exact hnone

theorem wp_fetchstr (h : p.Present m) (addr : BitVec 32) (hnone : Q none m)
    (hsome : ∀ k : BitVec 32, IsString m p addr k.toNat → Q (some (addr, k)) m) :
    wp (fetchstr p addr) E Q m := by
  unfold fetchstr
  split_ifs
  · exact hnone
  · have hsz := p.sz.isLt
    exact wp_fetchstr_loop h hnone hsome _ addr (by omega) le_rfl fun j hj => by omega

theorem wp_argint (h : p.Present m) (n : BitVec 32) {Q : Option (BitVec 32) → Phys → Prop}
    (hnone : Q none m)
    (hsome : ∀ x : BitVec 32, (p.arg n).toNat + 4 ≤ p.sz.toNat → (∀ i, i < 4 →
      byteAt m p.pgdir ((p.arg n).toNat + i) = some (x.extractLsb' (8 * i) 8)) → Q (some x) m) :
    wp (argint p n) E Q m :=
  wp_fetchint h _ hnone hsome

theorem wp_argptr (h : p.Present m) (n size : BitVec 32) {Q : Option (BitVec 32) → Phys → Prop}
    (hnone : Q none m)
    (hsome : ∀ q : BitVec 32, 0 ≤ size.toInt → (q.toNat : Int) + size.toInt ≤ p.sz.toNat → Q (some q) m) :
    wp (argptr p n size) E Q m := by
  have hsz := h.sz
  simp only [KERNBASE] at hsz
  unfold argptr
  rw [wp_bind]
  refine wp_argint h n hnone fun i _ _ => ?_
  dsimp only
  split_ifs with hbad
  · exact hnone
  · rw [not_or, not_or] at hbad
    obtain ⟨hpos, hi, hle⟩ := hbad
    have hpos' : 0 ≤ size.toInt := by
      rw [BitVec.slt_iff_toInt_lt] at hpos
      simpa using hpos
    have hsize : size.toInt = size.toNat ∧ size.toNat < 2 ^ 31 := by
      have hlt := BitVec.toInt_lt (x := size)
      have heq := BitVec.toInt_eq_toNat_cond size
      have hnat := size.isLt
      split_ifs at heq <;> omega
    have hi' : i.toNat < p.sz.toNat := BitVec.not_le.mp hi
    -- both are below `2^31`
    have hsum : (i + size).toNat = i.toNat + size.toNat := by
      rw [BitVec.toNat_add]
      exact Nat.mod_eq_of_lt (by omega)
    have hle' : (i + size).toNat ≤ p.sz.toNat := BitVec.not_lt.mp hle
    refine hsome i hpos' ?_
    rw [hsize.1]
    omega

theorem wp_argstr (h : p.Present m) (n : BitVec 32) (hnone : Q none m)
    (hsome : ∀ q k : BitVec 32, IsString m p q k.toNat → Q (some (q, k)) m) :
    wp (argstr p n) E Q m := by
  unfold argstr
  rw [wp_bind]
  refine wp_argint h n hnone fun addr _ _ => ?_
  exact wp_fetchstr h addr hnone (hsome addr)

/-- The loop of `sys_exec` collects strings. -/
theorem wp_sys_exec_loop (h : p.Present m) (uargv : BitVec 32) {Q : Option (List (BitVec 32)) → Phys → Prop}
    (hnone : Q none m)
    (hsome : ∀ argv, argv.length < MAXARG → (∀ q ∈ argv, ∃ k, IsString m p q k) → Q (some argv) m)
    (fuel i : Nat) (argv : List (BitVec 32)) (hfuel : MAXARG - i < fuel) (hi : argv.length = i)
    (hargv : ∀ q ∈ argv, ∃ k, IsString m p q k) :
    wp (sys_exec_loop p uargv fuel i argv) E Q m := by
  induction fuel generalizing i argv with
  | zero => omega
  | succ fuel ih =>
    unfold sys_exec_loop
    split_ifs with hmax
    · exact hnone
    · rw [wp_bind]
      refine wp_fetchint h _ hnone fun uarg _ _ => ?_
      dsimp only
      split_ifs with hzero
      · exact hsome argv (by omega) hargv
      · rw [wp_bind]
        refine wp_fetchstr h uarg hnone fun k hk => ?_
        refine ih (i + 1) (argv ++ [uarg]) (by omega) (by rw [List.length_append, hi]; rfl) fun q hq => ?_
        rcases List.mem_append.mp hq with hq | hq
        · exact hargv q hq
        · obtain rfl := List.mem_singleton.mp hq
          exact ⟨_, hk⟩

theorem wp_sys_exec (h : p.Present m) {Q : Option (BitVec 32 × List (BitVec 32)) → Phys → Prop}
    (hnone : Q none m)
    (hsome : ∀ path argv, (∃ k, IsString m p path k) → argv.length < MAXARG →
      (∀ q ∈ argv, ∃ k, IsString m p q k) → Q (some (path, argv)) m) :
    wp (sys_exec p) E Q m := by
  unfold sys_exec
  rw [wp_bind]
  refine wp_argstr h 0 hnone fun path k hk => ?_
  dsimp only
  rw [wp_bind]
  refine wp_argint h 1 hnone fun uargv _ _ => ?_
  dsimp only
  rw [wp_bind]
  refine wp_sys_exec_loop h uargv hnone (fun argv hlen hargv => ?_) _ 0 [] (by decide) rfl (by simp)
  exact hsome path argv ⟨_, hk⟩ hlen hargv

/-- For a process below `KERNBASE` whose pages are present, the functions that
    fetch arguments return without a trap; what they accept lies in the memory
    of the process, as do all strings that `sys_exec` passes on. -/
theorem syscall_arguments_checked (p : Caller) (m : Phys) (hsz : p.sz.toNat < KERNBASE)
    (hpages : ∀ a, a < p.sz.toNat → translate m p.pgdir a ≠ none) :
    (∀ n, ∃ r, argint p n m = .ok r m ∧ ∀ x, r = some x →
      (p.esp + 4 + 4 * n).toNat + 4 ≤ p.sz.toNat ∧ ∀ i, i < 4 →
        byteAt m p.pgdir ((p.esp + 4 + 4 * n).toNat + i) = some (x.extractLsb' (8 * i) 8)) ∧
    (∀ n size, ∃ r, argptr p n size m = .ok r m ∧ ∀ q, r = some q →
      0 ≤ size.toInt ∧ (q.toNat : Int) + size.toInt ≤ p.sz.toNat) ∧
    (∀ n, ∃ r, argstr p n m = .ok r m ∧ ∀ q k, r = some (q, k) →
      (∀ j, j ≤ k.toNat → q.toNat + j < p.sz.toNat) ∧
      byteAt m p.pgdir (q.toNat + k.toNat) = some 0 ∧
      ∀ j, j < k.toNat → byteAt m p.pgdir (q.toNat + j) ≠ some 0) ∧
    ∃ r, sys_exec p m = .ok r m ∧ ∀ path argv, r = some (path, argv) →
      (∃ k, IsString m p path k) ∧ ∀ q ∈ argv, ∃ k, IsString m p q k := by
  have h : p.Present m := ⟨hsz, hpages⟩
  -- the memory is only read
  have hreturns : ∀ {α : Type} {f : MemOp α} {Q : α → Prop},
      wp f (fun _ => False) (fun r m' => m' = m ∧ Q r) m → ∃ r, f m = .ok r m ∧ Q r := by
    intro α f Q hf
    obtain ⟨r, m', hrun, rfl, hQ⟩ := hf.returns
    exact ⟨r, hrun, hQ⟩
  refine ⟨fun n => hreturns ?_, fun n size => hreturns ?_, fun n => hreturns ?_, hreturns ?_⟩
  · refine wp_argint h n ⟨rfl, nofun⟩ fun x hle hx => ⟨rfl, fun y hy => ?_⟩
    obtain rfl := Option.some.inj hy
    exact ⟨hle, hx⟩
  · refine wp_argptr h n size ⟨rfl, nofun⟩ fun q hpos hle => ⟨rfl, fun q' hq' => ?_⟩
    obtain rfl := Option.some.inj hq'
    exact ⟨hpos, hle⟩
  · refine wp_argstr h n ⟨rfl, nofun⟩ fun q k hk => ⟨rfl, fun q' k' hq' => ?_⟩
    obtain ⟨rfl, rfl⟩ := Prod.mk.inj (Option.some.inj hq')
    exact ⟨hk.below, hk.nul, hk.first⟩
  · refine wp_sys_exec h ⟨rfl, nofun⟩ fun path argv hpath _ hargv => ⟨rfl, fun path' argv' heq => ?_⟩
    obtain ⟨rfl, rfl⟩ := Prod.mk.inj (Option.some.inj heq)
    exact ⟨hpath, hargv⟩

/-- A process of one page that holds zeros: a number, a buffer of eight bytes,
    the empty string, and an empty path without arguments. -/
theorem syscall_arguments_checked_zeros :
    (argint ⟨4096, 0x200, 0⟩ 0 onePage = .ok (some 0) onePage ∧
      (0 + 4 + 4 * 0 : BitVec 32).toNat + 4 ≤ 4096) ∧
    (argptr ⟨4096, 0x200, 0⟩ 0 8 onePage = .ok (some 0) onePage ∧
      ((0 : BitVec 32).toNat : Int) + (8 : BitVec 32).toInt ≤ (4096 : BitVec 32).toNat) ∧
    (argstr ⟨4096, 0x200, 0⟩ 0 onePage = .ok (some (0, 0)) onePage ∧ byteAt onePage 0x200 0 = some 0) ∧
    sys_exec ⟨4096, 0x200, 0⟩ onePage = .ok (some (0, [])) onePage ∧
      ∃ k, IsString onePage ⟨4096, 0x200, 0⟩ 0 k := by
  have hpages : ∀ a, a < 4096 → translate onePage 0x200 a ≠ none := by
    intro a ha
    rw [translate_eq (by omega), show a / PGSIZE = 0 by simp only [PGSIZE]; omega]
    decide +kernel
  have hvalue : ∀ {α : Type} [DecidableEq α] {f : MemOp α} {r x : α}, f onePage = .ok r onePage →
      (f onePage).returns (fun r _ => decide (r = x)) = true → r = x := by
    intro α _ f r x hrun hr
    rw [hrun] at hr
    exact of_decide_eq_true hr
  obtain ⟨hint, hptr, hstr, r, hexec, hstrings⟩ :=
    syscall_arguments_checked ⟨4096, 0x200, 0⟩ onePage (by decide) hpages
  obtain rfl := hvalue (x := some (0, [])) hexec (by decide +kernel)
  obtain ⟨r, hrun, hpost⟩ := hint 0
  obtain rfl := hvalue (x := some 0) hrun (by decide +kernel)
  obtain ⟨r, hrun', hpost'⟩ := hptr 0 8
  obtain rfl := hvalue (x := some 0) hrun' (by decide +kernel)
  obtain ⟨r, hrun'', hpost''⟩ := hstr 0
  obtain rfl := hvalue (x := some (0, 0)) hrun'' (by decide +kernel)
  exact ⟨⟨hrun, (hpost 0 rfl).1⟩, ⟨hrun', (hpost' 0 rfl).2⟩, ⟨hrun'', (hpost'' 0 0 rfl).2.1⟩, hexec,
    (hstrings 0 [] rfl).1⟩

end Xv6.Vm
