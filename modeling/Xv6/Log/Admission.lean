import Xv6.Log.GroupCommit

/-! # Admission and the size of the log region

    `begin_op` reserves `MAXOPBLOCKS` log entries for every operation against
    a total of `LOGSIZE`, while `log_write` allows `log.size - 1` entries, one
    less when `mkfs` sets `sb.nlog = LOGSIZE`, and tests that limit before it
    takes the lock. This module says exactly when the two agree.

    Operations keep to their quota of `MAXOPBLOCKS` distinct blocks
    throughout (`Quota`). `Room` is the condition on a `log_write` call under
    which it does not panic, and `Reserved` the one under which the entries in
    flight still fit the region.
-/

namespace Xv6.Log

open LTS Function

variable {P : Type} {nlog : Nat} {s s' : State P}

/-- The block list has one entry for each distinct block logged. -/
theorem length_lh_eq (hi : Inv s) (hh : Hist s) : s.lh.length = s.logged.dedup.length := by
  have hset : s.lh.toFinset = s.logged.toFinset := by
    ext b
    simp only [List.mem_toFinset]
    exact hh.logged b
  rw [← List.toFinset_card_of_nodup hi.nodup, hset, List.card_toFinset]

variable [DecidableEq P] {l : Label P} {p : P}

/-! ## The quota of an operation -/

/-- An operation passes at most `MAXOPBLOCKS` distinct blocks to `log_write`. -/
def Quota (s : State P) : Label P → Bool
  | .log_write p b => (s.passed p ++ [b]).dedup.length ≤ MAXOPBLOCKS
  | _ => true

/-- The log of `nlog` blocks used by operations that keep to their quota. -/
noncomputable def quotaSys (P : Type) [DecidableEq P] (nlog : Nat) :
    System (State P) (Label P) :=
  (sys P nlog).restrict fun s l => Quota s l = true

theorem step_of_quota (h : (quotaSys P nlog).next s l = some s') :
    s.fault = none ∧ Step nlog s l s' :=
  step_of_sys (restrict_next.mp h).2

theorem quota_inv (hr : Reachable (quotaSys P nlog) s) : Inv s :=
  reachable_inv hr.of_restrict

/-! ## Admission -/

/-- The operations of the running transaction have logged fewer than
    `nlog - 1` distinct blocks when `log_write` is called. -/
def Room (nlog : Nat) (s : State P) : Label P → Prop
  | .log_write _ _ => s.logged.dedup.length + 1 < nlog
  | _ => True

/-- A step of `log_write` panics over the size of the transaction exactly
    when there is no room. -/
theorem too_big_iff (hr : Reachable (sys P LOGSIZE) s) (hf : s.fault = none)
    (hs : Step LOGSIZE s l s') : s'.fault ≠ some .too_big_a_transaction ↔ Room LOGSIZE s l := by
  have hlen := length_lh_eq (reachable_inv hr) (reachable_hist hr)
  cases hs with
  | too_big p b _ hbig =>
    simp only [Room, ne_eq, not_true_eq_false, false_iff, ← hlen]
    omega
  | outside p b hpc hout =>
    have := (reachable_inv hr).census.pos (p := p) (by simp [hpc, Pc.Inside])
    omega
  | test p b _ _ hsz _ =>
    simp only [State.test, hf, Room, ← hlen]
    simpa using hsz
  | commit p c _ => simp [Room, (commit_step_frame s p c).1, hf]
  | _ => simp [Room, State.setPc, State.enter, State.log, hf]

/-- **Log admission, exactly.** With `log.size = sb.nlog = LOGSIZE`, a run of
    operations within their quota avoids `panic("too big a transaction")` if
    and only if every `log_write` in it is called while the operations of the
    running transaction have logged fewer than `LOGSIZE - 1` distinct blocks. -/
theorem admission_sufficient_iff {ls : List (Label P)}
    (hrun : Run (quotaSys P LOGSIZE) (initlog P) ls s) :
    s.fault ≠ some .too_big_a_transaction ↔
      Run ((quotaSys P LOGSIZE).restrict (Room LOGSIZE)) (initlog P) ls s := by
  induction hrun with
  | nil => exact ⟨fun _ => .nil, fun _ => by simp [initlog]⟩
  | @snoc ls s₁ s₂ l hrun hn ih =>
    obtain ⟨hf, hs⟩ := step_of_quota hn
    have hr : Reachable (sys P LOGSIZE) s₁ :=
      ((Reachable.init rfl).run hrun).of_restrict
    have hprev := ih.mp (by simp [hf])
    rw [too_big_iff hr hf hs]
    constructor
    · intro hroom
      exact .snoc l hprev (restrict_next.mpr ⟨hroom, hn⟩)
    · intro hrun'
      -- the labels determine the run, so its last step is this one
      obtain ⟨s₃, hrun₃, hn₃⟩ := hrun'.last
      rw [hrun.unique hrun₃.of_restrict]
      exact (restrict_next.mp hn₃).1

/-- One operation that logs one block: both sides hold. -/
theorem admission_sufficient_one_block :
    ∃ s : State (Fin 3),
      Run (quotaSys (Fin 3) LOGSIZE) (initlog (Fin 3))
        [.begin_op 0, .log_write 0 100, .append 0] s ∧
      Run ((quotaSys (Fin 3) LOGSIZE).restrict (Room LOGSIZE)) (initlog (Fin 3))
        [.begin_op 0, .log_write 0 100, .append 0] s := by
  obtain ⟨s, hex, hf⟩ : ∃ s, (sys (Fin 3) LOGSIZE).exec Quota (initlog (Fin 3))
      [.begin_op 0, .log_write 0 100, .append 0] = some s ∧ s.fault = none := ⟨_, rfl, rfl⟩
  have hrun := run_of_exec hex
  exact ⟨s, hrun, (admission_sufficient_iff hrun).mp (by simp [hf])⟩

/-- Labels of one complete `log_write`. -/
def logBlock {P : Type} (p : P) (b : Nat) : List (Label P) := [.log_write p b, .append p]

/-- Three concurrent operations log ten distinct blocks each: the thirtieth
    `log_write` finds 29 blocks logged and panics. -/
def fullQuota : List (Label (Fin 3)) :=
  [.begin_op 0, .begin_op 1, .begin_op 2] ++
  (List.range 10).flatMap (fun i => logBlock 0 (100 + i)) ++
  (List.range 10).flatMap (fun i => logBlock 1 (200 + i)) ++
  (List.range 9).flatMap (fun i => logBlock 2 (300 + i)) ++ [.log_write 2 309]

theorem admission_not_sufficient :
    ¬ ∀ s : State (Fin 3), Reachable (quotaSys (Fin 3) LOGSIZE) s →
      s.fault ≠ some .too_big_a_transaction := by
  intro h
  obtain ⟨s, hex, hf⟩ : ∃ s, (sys (Fin 3) LOGSIZE).exec Quota (initlog (Fin 3)) fullQuota = some s ∧
      s.fault = some .too_big_a_transaction := ⟨_, rfl, by decide⟩
  exact h s (reachable_of_exec rfl hex) hf

/-! ## The log region -/

/-- If a `log_write` passes its test, the blocks listed, those of the
    processes between test and append, and its own are together fewer than
    `nlog` distinct blocks. -/
def Reserved (nlog : Nat) (s : State P) : Label P → Prop
  | .log_write _ b => s.lh.length + 1 < nlog → ∀ T : Finset Nat,
      (∀ x ∈ T, x = b ∨ x ∈ s.lh ∨ ∃ q, s.pc q = .log_write x) → T.card < nlog
  | _ => True

/-- The blocks listed and those in flight are fewer than `nlog`. -/
def Fits (nlog : Nat) (s : State P) : Prop :=
  ∀ T : Finset Nat, (∀ x ∈ T, x ∈ s.lh ∨ ∃ q, s.pc q = .log_write x) → T.card < nlog

omit [DecidableEq P] in
/-- What is listed and in flight may shrink. -/
theorem Fits.mono (h : Fits nlog s)
    (hsub : ∀ x, (x ∈ s'.lh ∨ ∃ q, s'.pc q = .log_write x) →
      x ∈ s.lh ∨ ∃ q, s.pc q = .log_write x) : Fits nlog s' := by
  intro T hT
  exact h T fun x hx => hsub x (hT x hx)

/-- The positions inside `log_write` after one process has moved elsewhere. -/
theorem inFlight_update {pc : P → Pc} {p q : P} {c : Pc} {x : Nat} (hc : ∀ b, c ≠ .log_write b)
    (h : update pc p c q = .log_write x) : q ≠ p ∧ pc q = .log_write x := by
  by_cases hqp : q = p
  · subst hqp
    rw [update_self] at h
    exact absurd h (hc x)
  · rw [update_of_ne hqp] at h
    exact ⟨hqp, h⟩

omit [DecidableEq P] in
@[simp] theorem wakeup_eq_log_write (pc : P → Pc) (q : P) (b : Nat) :
    wakeup pc q = .log_write b ↔ pc q = .log_write b := by
  unfold wakeup
  split <;> simp_all

/-- A step of `commit` puts no block in flight and lists no new one. -/
theorem fits_commit_step {c : CommitPc} (h : Fits nlog s) : Fits nlog (commit_step s p c) := by
  apply h.mono
  intro x hx
  rcases hx with hx | ⟨q, hq⟩
  · left
    rcases commit_step_lh s p c with h1 | h1
    · exact h1 ▸ hx
    · simp [h1] at hx
  · exact Or.inr ⟨q, commit_step_pc s p q c hq⟩

/-- A step that meets `Reserved` keeps listed and in-flight blocks within the
    region. -/
theorem fits_step (h : Fits nlog s) (hl : Reserved nlog s l) (hs : Step nlog s l s') :
    Fits nlog s' := by
  cases hs with
  | test p b hpc _ hsz _ =>
    intro T hT
    apply hl hsz T
    intro x hx
    rcases hT x hx with hmem | ⟨q, hq⟩
    · exact Or.inr (Or.inl hmem)
    · simp only [State.test] at hq
      by_cases hqp : q = p
      · subst hqp
        simp only [update_self, Pc.log_write.injEq] at hq
        exact Or.inl hq.symm
      · rw [update_of_ne hqp] at hq
        exact Or.inr (Or.inr ⟨q, hq⟩)
  | append p b hpc _ _ =>
    apply h.mono
    intro x hx
    rcases hx with hmem | ⟨q, hq⟩
    · rcases List.mem_append.mp hmem with hmem | hmem
      · exact Or.inl hmem
      · -- the block just listed was in flight
        rw [List.mem_singleton] at hmem
        exact Or.inr ⟨p, hmem ▸ hpc⟩
    · exact Or.inr ⟨q, (inFlight_update (by simp) hq).2⟩
  | commit p c _ => exact fits_commit_step h
  | too_big p b _ _ => exact h
  | outside p b _ _ => exact h
  | overrun p b _ _ _ => exact h
  | end_panic p _ _ => exact h
  | end_more p _ _ _ =>
    apply h.mono
    intro x hx
    rcases hx with hmem | ⟨q, hq⟩
    · exact Or.inl hmem
    · rw [wakeup_eq_log_write] at hq
      exact Or.inr ⟨q, (inFlight_update (by simp) hq).2⟩
  | _ =>
    apply h.mono
    intro x hx
    rcases hx with hmem | ⟨q, hq⟩
    · exact Or.inl hmem
    · exact Or.inr ⟨q, (inFlight_update (by simp) hq).2⟩

theorem reachable_fits (hpos : 0 < nlog)
    (hr : Reachable ((quotaSys P nlog).restrict (Reserved nlog)) s) : Fits nlog s := by
  refine hr.invariant ?_ ?_
  · intro s hs T hT
    -- nothing is listed or in flight initially
    have hempty : T = ∅ := by
      rw [Finset.eq_empty_iff_forall_notMem]
      intro x hx
      rcases hT x hx with h | ⟨q, h⟩ <;> simp [show s = initlog P from hs, initlog] at h
    simpa [hempty] using hpos
  · intro s l s' h hn
    obtain ⟨hl, hn⟩ := restrict_next.mp hn
    exact fits_step h hl (step_of_quota hn).2

omit [DecidableEq P] in
theorem Fits.length_lt (h : Fits nlog s) (hi : Inv s) : s.lh.length < nlog := by
  rw [← List.toFinset_card_of_nodup hi.nodup]
  exact h _ fun x hx => Or.inl (List.mem_toFinset.mp hx)

/-- When listed and in-flight blocks do not fit the region, letting the
    processes in flight append overruns it. -/
theorem overrun_of_not_fits (hle : nlog ≤ LOGSIZE) (n : Nat) :
    ∀ s : State P, s.fault = none → ∀ T : Finset Nat,
      (∀ x ∈ T, x ∈ s.lh ∨ ∃ q, s.pc q = .log_write x) → nlog ≤ T.card →
      (T.filter (· ∉ s.lh)).card = n →
      ∃ ls s', Run (quotaSys P nlog) s ls s' ∧ nlog ≤ s'.lh.length := by
  induction n with
  | zero =>
    intro s _ T _ hcard h0
    refine ⟨[], s, .nil, ?_⟩
    -- every block of `T` is listed
    have hsub : T ⊆ s.lh.toFinset := by
      intro x hx
      by_contra hmem
      have : x ∈ T.filter (· ∉ s.lh) := by simp [hx, by simpa using hmem]
      rw [Finset.card_eq_zero.mp h0] at this
      simp at this
    calc nlog ≤ T.card := hcard
      _ ≤ s.lh.toFinset.card := Finset.card_le_card hsub
      _ ≤ s.lh.length := List.toFinset_card_le _
  | succ n ih =>
    intro s hf T hT hcard hn
    obtain ⟨x, hx⟩ : (T.filter (· ∉ s.lh)).Nonempty := by
      rw [← Finset.card_pos]; omega
    rw [Finset.mem_filter] at hx
    obtain ⟨q, hq⟩ : ∃ q, s.pc q = .log_write x := (hT x hx.1).resolve_left hx.2
    by_cases hlen : s.lh.length < LOGSIZE
    · -- one of the processes in flight appends its block
      have hnext : (quotaSys P nlog).next s (.append q) = some (s.log q x (s.lh ++ [x])) := by
        rw [quotaSys, restrict_next]
        refine ⟨rfl, ?_⟩
        simp [sys, next, hf, hq, hx.2, hlen]
      have hT' : ∀ y ∈ T, y ∈ s.lh ++ [x] ∨
          ∃ r, (s.log q x (s.lh ++ [x])).pc r = .log_write y := by
        intro y hy
        rcases hT y hy with hmem | ⟨r, hr'⟩
        · exact Or.inl (List.mem_append_left _ hmem)
        · by_cases hrq : r = q
          · subst hrq
            rw [hq, Pc.log_write.injEq] at hr'
            exact Or.inl (by simp [hr'])
          · exact Or.inr ⟨r, by simp [State.log, update_of_ne hrq, hr']⟩
      have hset : T.filter (· ∉ s.lh ++ [x]) = (T.filter (· ∉ s.lh)).erase x := by
        ext y
        simp only [List.mem_append, List.mem_singleton, Finset.mem_filter, Finset.mem_erase]
        tauto
      have hleft : (T.filter (· ∉ s.lh ++ [x])).card = n := by
        rw [hset, Finset.card_erase_of_mem (Finset.mem_filter.mpr hx), hn]
        rfl
      obtain ⟨ls, s', hrun, hlen'⟩ := ih (s.log q x (s.lh ++ [x])) hf T hT' hcard hleft
      exact ⟨_, s', hrun.cons hnext, hlen'⟩
    · exact ⟨[], s, .nil, by omega⟩

/-- Only a process inside an operation calls `log_write`. -/
theorem Step.pc_log_write {b : Nat} (h : Step nlog s (.log_write p b) s') : s.pc p = .op := by
  cases h with
  | too_big _ _ hpc _ => exact hpc
  | outside _ _ hpc _ => exact hpc
  | test _ _ hpc _ _ _ => exact hpc

/-- The log block that a step of `write_log` writes or of `install_trans`
    reads, for the process `p`. -/
def slotAt (logstart : Nat) (s : State P) (p : P) : Option Nat :=
  match s.pc p with
  | .commit (.write_log tail) => if tail < s.lh.length then some (logstart + tail + 1) else none
  | .commit (.install_trans tail) =>
    if tail < s.lh.length then some (logstart + tail + 1) else none
  | _ => none

omit [DecidableEq P] in
theorem slotAt_bound {logstart a : Nat} (h : slotAt logstart s p = some a) :
    logstart < a ∧ a ≤ logstart + s.lh.length := by
  unfold slotAt at h
  split at h
  · split at h
    · simp only [Option.some.injEq] at h; omega
    · simp at h
  · split at h
    · simp only [Option.some.injEq] at h; omega
    · simp at h
  · simp at h

/-- **The log region, exactly.** In every run of operations within their
    quota whose `log_write` calls all meet `Reserved`, every reachable state
    has `lh.n ≤ nlog - 1` and every slot `write_log` writes or `install_trans`
    reads is one of the `nlog` blocks from `logstart` on, below the inode
    blocks. And no weaker condition will do: from a `log_write` that passes its
    test without meeting `Reserved`, a run leads to a state that overruns the
    region. -/
theorem log_region_iff_reserved (logstart : Nat) (hpos : 0 < nlog) (hle : nlog ≤ LOGSIZE) :
    (∀ s : State P, Reachable ((quotaSys P nlog).restrict (Reserved nlog)) s →
      s.lh.length ≤ nlog - 1 ∧
      ∀ p a, slotAt logstart s p = some a → logstart ≤ a ∧ a < logstart + nlog) ∧
    (∀ (s : State P) (p : P) (b : Nat), Reachable (quotaSys P nlog) s →
      (quotaSys P nlog).next s (.log_write p b) = some (s.test p b) →
      ¬ Reserved nlog s (.log_write p b) →
      ∃ ls s', Run (quotaSys P nlog) (s.test p b) ls s' ∧ nlog - 1 < s'.lh.length) := by
  constructor
  · intro s hr
    have hlt := (reachable_fits hpos hr).length_lt (quota_inv hr.of_restrict)
    refine ⟨by omega, ?_⟩
    intro p a ha
    have := slotAt_bound ha
    omega
  · intro s p b hr hn hres
    simp only [Reserved, not_forall] at hres
    obtain ⟨_, T, hT, hcard⟩ := hres
    obtain ⟨hf, hs⟩ := step_of_quota hn
    have hpc := hs.pc_log_write
    obtain ⟨ls, s', hrun, hlen⟩ := overrun_of_not_fits hle _ (s.test p b) hf T (by
      intro x hx
      rcases hT x hx with rfl | hmem | ⟨q, hq⟩
      · exact Or.inr ⟨p, by simp [State.test]⟩
      · exact Or.inl hmem
      · by_cases hqp : q = p
        · -- `p` itself is not in flight yet
          rw [hqp, hpc] at hq
          simp at hq
        · exact Or.inr ⟨q, by simp [State.test, update_of_ne hqp, hq]⟩)
      (by omega) rfl
    exact ⟨ls, s', hrun, by omega⟩

/-- Nothing is listed, and no other process is inside an operation, when a `log_write`
    is called. -/
def Lonely (s : State (Fin 3)) : Label (Fin 3) → Bool
  | .log_write p _ => s.lh.isEmpty && decide (∀ q, q ≠ p → s.pc q = .idle) && decide (s.pc p = .op)
  | _ => true

/-- A lonely `log_write` has the log to itself. -/
theorem reserved_of_lonely {s : State (Fin 3)} {l : Label (Fin 3)} (h : Lonely s l = true) :
    Reserved LOGSIZE s l := by
  cases l with
  | log_write p b =>
    simp only [Lonely, Bool.and_eq_true, List.isEmpty_iff, decide_eq_true_eq] at h
    obtain ⟨⟨hlh, hidle⟩, hop⟩ := h
    intro _ T hT
    have hsub : T ⊆ {b} := by
      intro x hx
      rcases hT x hx with rfl | hmem | ⟨q, hq⟩
      · exact Finset.mem_singleton_self _
      · rw [hlh] at hmem
        cases hmem
      · by_cases hqp : q = p
        · rw [hqp, hop] at hq
          cases hq
        · rw [hidle q hqp] at hq
          cases hq
    calc T.card ≤ ({b} : Finset Nat).card := Finset.card_le_card hsub
      _ = 1 := Finset.card_singleton b
      _ < LOGSIZE := by decide
  | begin_op p => trivial
  | append p => trivial
  | end_op p => trivial
  | commit p => trivial
  | kill p => trivial

/-- The log `mkfs` makes, from block 2 on, with the inode blocks at block 32: one
    operation has logged a block, and its commit is about to write the slot. -/
theorem log_region_mkfs : ∃ s : State (Fin 3),
    Reachable ((quotaSys (Fin 3) LOGSIZE).restrict (Reserved LOGSIZE)) s ∧
    slotAt 2 s 0 = some 3 ∧ s.lh.length ≤ LOGSIZE - 1 ∧ 2 ≤ 3 ∧ 3 < 2 + LOGSIZE := by
  obtain ⟨s, hex, hslot⟩ : ∃ s, (sys (Fin 3) LOGSIZE).exec (fun s l => Quota s l && Lonely s l)
      (initlog (Fin 3)) [.begin_op 0, .log_write 0 100, .append 0, .end_op 0, .commit 0] = some s ∧
      slotAt 2 s 0 = some 3 := ⟨_, rfl, rfl⟩
  have hr : Reachable ((quotaSys (Fin 3) LOGSIZE).restrict (Reserved LOGSIZE)) s := by
    refine (reachable_of_exec rfl hex).mono (fun _ h => h) fun s l s' hnext => ?_
    obtain ⟨hboth, hnext⟩ := restrict_next.mp hnext
    rw [Bool.and_eq_true] at hboth
    exact restrict_next.mpr ⟨reserved_of_lonely hboth.2, restrict_next.mpr ⟨hboth.1, hnext⟩⟩
  obtain ⟨hlen, hall⟩ := (log_region_iff_reserved 2 (by decide) le_rfl).1 s hr
  exact ⟨s, hr, hslot, hlen, hall 0 3 hslot⟩

/-- Three operations have logged 28 blocks between them when two of them pass
    the test of `log_write`; both then append. -/
def racingAppends : List (Label (Fin 3)) :=
  [.begin_op 0, .begin_op 1, .begin_op 2] ++
  (List.range 10).flatMap (fun i => logBlock 0 (100 + i)) ++
  (List.range 9).flatMap (fun i => logBlock 1 (200 + i)) ++
  (List.range 9).flatMap (fun i => logBlock 2 (300 + i)) ++
  [.log_write 1 209, .log_write 2 309, .append 1, .append 2]

theorem log_region_overrun :
    ¬ ∀ s : State (Fin 3), Reachable (quotaSys (Fin 3) LOGSIZE) s → s.lh.length ≤ LOGSIZE - 1 := by
  intro h
  obtain ⟨s, hex, hlen⟩ : ∃ s, (sys (Fin 3) LOGSIZE).exec Quota (initlog (Fin 3))
      racingAppends = some s ∧ s.lh.length = 30 := ⟨_, rfl, rfl⟩
  have hle := h s (reachable_of_exec rfl hex)
  rw [hlen] at hle
  exact absurd hle (by decide)

end Xv6.Log
