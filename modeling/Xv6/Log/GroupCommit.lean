import Xv6.Log.Concurrent

/-! # Group commit and the waiters of `begin_op`

    The core invariant `Inv` counts the processes inside an operation, ties
    `committing` to the one process that runs `commit`, and says when the
    block list is empty and why a sleeper sleeps. The history invariant `Hist`
    places every logged block in the running transaction or in the one commit
    its operation belongs to. Both are kept by every step; the theorems about
    group commit and about stranded waiters read them off.
-/

namespace Xv6.Log

open LTS Function

variable {P : Type} {p : P}

/-! ## Counting the processes inside an operation -/

/-- Exactly `n` processes are between `begin_op` and `end_op`. -/
def Census (pc : P → Pc) (n : Nat) : Prop :=
  ∃ F : Finset P, (∀ p, p ∈ F ↔ (pc p).Inside) ∧ F.card = n

theorem Census.congr {pc pc' : P → Pc} {n : Nat} (h : Census pc n)
    (heq : ∀ p, (pc' p).Inside ↔ (pc p).Inside) : Census pc' n := by
  obtain ⟨F, hF, hn⟩ := h
  exact ⟨F, fun p => (hF p).trans (heq p).symm, hn⟩

theorem Census.pos {pc : P → Pc} {n : Nat} (h : Census pc n) (hin : (pc p).Inside) : 0 < n := by
  obtain ⟨F, hF, hn⟩ := h
  rw [← hn]
  exact Finset.card_pos.mpr ⟨p, (hF p).mpr hin⟩

@[simp] theorem wakeup_inside (pc : P → Pc) (q : P) :
    (wakeup pc q).Inside ↔ (pc q).Inside := by
  unfold wakeup
  split <;> simp_all [Pc.Inside]

@[simp] theorem wakeup_eq_commit (pc : P → Pc) (q : P) (c : CommitPc) :
    wakeup pc q = .commit c ↔ pc q = .commit c := by
  unfold wakeup
  split <;> simp_all

@[simp] theorem wakeup_ne_asleep (pc : P → Pc) (q : P) : wakeup pc q ≠ .asleep := by
  unfold wakeup
  split <;> simp_all

section Update

variable [DecidableEq P] {c : Pc}

theorem Census.enter {pc : P → Pc} {n : Nat} (h : Census pc n) (hout : ¬ (pc p).Inside)
    (hin : c.Inside) : Census (update pc p c) (n + 1) := by
  obtain ⟨F, hF, hn⟩ := h
  refine ⟨insert p F, ?_, ?_⟩
  · intro q
    by_cases hq : q = p
    · subst hq; simp [hin]
    · simp [hq, hF]
  · rw [Finset.card_insert_of_notMem (by rwa [hF]), hn]

theorem Census.leave {pc : P → Pc} {n : Nat} (h : Census pc n) (hin : (pc p).Inside)
    (hout : ¬ c.Inside) : Census (update pc p c) (n - 1) := by
  obtain ⟨F, hF, hn⟩ := h
  refine ⟨F.erase p, ?_, ?_⟩
  · intro q
    by_cases hq : q = p
    · subst hq; simp [hout]
    · simp [hq, hF]
  · rw [Finset.card_erase_of_mem ((hF p).mpr hin), hn]

/-- A change of one program counter that keeps the process inside, or outside. -/
theorem Census.set {pc : P → Pc} {n : Nat} (h : Census pc n) (heq : c.Inside ↔ (pc p).Inside) :
    Census (update pc p c) n := by
  apply h.congr
  intro q
  by_cases hq : q = p
  · subst hq; simp [heq]
  · simp [hq]

end Update

/-! ## The core invariant -/

/-- The invariant over `outstanding`, `committing`, `lh` and the positions of
    the processes. -/
structure Inv (s : State P) : Prop where
  census : Census s.pc s.outstanding
  /-- `commit` runs with no operation outstanding. -/
  alone : s.committing = true → s.outstanding = 0
  holder : ∀ p c, s.pc p = .commit c → s.committing = true
  unique : ∀ p q c c', s.pc p = .commit c → s.pc q = .commit c' → p = q
  running : s.committing = true → ∃ p c, s.pc p = .commit c
  nodup : s.lh.Nodup
  empty : s.committing = false → s.outstanding = 0 → s.lh = []
  erased : ∀ p c, s.pc p = .commit c → c = .erase ∨ c = .done → s.lh = []
  /-- Why a process sleeps in `begin_op`. -/
  asleep : ∀ p, s.pc p = .asleep →
    s.committing = true ∨ s.lh.length + (s.outstanding + 1) * MAXOPBLOCKS > LOGSIZE

theorem inv_init : Inv (initlog P) := by
  refine ⟨⟨∅, ?_, rfl⟩, ?_, ?_, ?_, ?_, List.nodup_nil, ?_, ?_, ?_⟩
  · intro p; simp [initlog, Pc.Inside]
  · intro _; rfl
  · intro p c hp; simp [initlog] at hp
  · intro p q c c' hp; simp [initlog] at hp
  · intro hc; simp [initlog] at hc
  · intro _ _; rfl
  · intro p c hp; simp [initlog] at hp
  · intro p hp; simp [initlog] at hp

section Core

variable {size : Nat} {s : State P}

/-- A process inside an operation rules out a running commit. -/
theorem Inv.not_committing (h : Inv s) (hin : (s.pc p).Inside) : s.committing = false := by
  have hpos := h.census.pos hin
  by_contra hc
  have := h.alone (by simpa using hc)
  omega

variable [DecidableEq P] {s' : State P}

/-- The process running `commit` moves from one place in it to another. -/
theorem Inv.commit_move (h : Inv s) {c c' : CommitPc} (hp : s.pc p = .commit c) (lh : List Nat)
    (hnd : lh.Nodup) (hlh : c' = .erase ∨ c' = .done → lh = []) (s' : State P)
    (hpc : s'.pc = update s.pc p (.commit c')) (hlh' : s'.lh = lh)
    (hout : s'.outstanding = s.outstanding) (hcom : s'.committing = s.committing) : Inv s' := by
  have hc : s.committing = true := h.holder p c hp
  refine ⟨?_, ?_, ?_, ?_, ?_, ?_, ?_, ?_, ?_⟩
  · rw [hpc, hout]
    exact h.census.set (by simp [hp, Pc.Inside])
  · rw [hcom, hout]; exact h.alone
  · intro q d _; rw [hcom]; exact hc
  · intro q r d d' hq hr
    rw [hpc] at hq hr
    -- nobody but `p` is in `commit`, before and after
    have hall : ∀ r d, update s.pc p (.commit c') r = .commit d → r = p := by
      intro r d hr
      by_cases hrp : r = p
      · exact hrp
      · rw [update_of_ne hrp] at hr
        exact h.unique r p d c hr hp
    rw [hall q d hq, hall r d' hr]
  · intro _
    exact ⟨p, c', by rw [hpc, update_self]⟩
  · rw [hlh']; exact hnd
  · intro hf; rw [hcom, hc] at hf; simp at hf
  · intro q d hq hd
    rw [hpc] at hq
    rw [hlh']
    by_cases hqp : q = p
    · subst hqp
      simp only [update_self, Pc.commit.injEq] at hq
      subst hq
      exact hlh hd
    · rw [update_of_ne hqp] at hq
      exact absurd (h.unique q p d c hq hp) hqp
  · intro q _; rw [hcom]; exact Or.inl hc

/-- A process inside an operation moves within it; the block list may grow. -/
theorem Inv.inside_move (h : Inv s) {c : Pc} (hin : (s.pc p).Inside) (hc : c.Inside) (lh : List Nat)
    (hlen : s.lh.length ≤ lh.length) (hnd : lh.Nodup) (hpc : s'.pc = update s.pc p c := by rfl)
    (hlh : s'.lh = lh := by rfl) (hout : s'.outstanding = s.outstanding := by rfl)
    (hcom : s'.committing = s.committing := by rfl) : Inv s' := by
  have hfalse : s.committing = false := h.not_committing hin
  have hpos := h.census.pos hin
  have hno : ∀ q d, s'.pc q ≠ .commit d := by
    intro q d hq
    rw [hpc] at hq
    by_cases hqp : q = p
    · subst hqp
      rw [update_self] at hq
      simp [hq, Pc.Inside] at hc
    · rw [update_of_ne hqp] at hq
      have := h.holder q d hq
      simp [hfalse] at this
  refine ⟨?_, ?_, ?_, ?_, ?_, ?_, ?_, ?_, ?_⟩
  · rw [hpc, hout]
    exact h.census.set (by simp [hin, hc])
  · rw [hcom, hout]; exact h.alone
  · intro q d hq; exact absurd hq (hno q d)
  · intro q r d d' hq; exact absurd hq (hno q d)
  · intro hf; rw [hcom, hfalse] at hf; simp at hf
  · rw [hlh]; exact hnd
  · intro _ h0; omega
  · intro q d hq; exact absurd hq (hno q d)
  · intro q hq
    rw [hpc] at hq
    rw [hcom, hlh, hout]
    by_cases hqp : q = p
    · subst hqp
      rw [update_self] at hq
      simp [hq, Pc.Inside] at hc
    · rw [update_of_ne hqp] at hq
      rcases h.asleep q hq with h1 | h1
      · exact Or.inl h1
      · right; omega

/-- A process outside any operation and outside `commit` changes its position. -/
theorem Inv.outside_move (h : Inv s) {c : Pc} (hout : ¬ (s.pc p).Inside) (hc : ¬ c.Inside)
    (hcc : ∀ d, c ≠ .commit d ∧ s.pc p ≠ .commit d) (hasleep : c = .asleep →
      s.committing = true ∨ s.lh.length + (s.outstanding + 1) * MAXOPBLOCKS > LOGSIZE) :
    Inv (s.setPc p c) := by
  have hcommit : ∀ q d, (s.setPc p c).pc q = .commit d ↔ s.pc q = .commit d := by
    intro q d
    simp only [State.setPc]
    by_cases hqp : q = p
    · subst hqp
      simp [hcc d]
    · rw [update_of_ne hqp]
  refine ⟨h.census.set (by simp [hout, hc]), h.alone, ?_, ?_, ?_, h.nodup, h.empty, ?_, ?_⟩
  · intro q d hq; exact h.holder q d ((hcommit q d).mp hq)
  · intro q r d d' hq hr
    exact h.unique q r d d' ((hcommit q d).mp hq) ((hcommit r d').mp hr)
  · intro hcom
    obtain ⟨q, d, hq⟩ := h.running hcom
    exact ⟨q, d, (hcommit q d).mpr hq⟩
  · intro q d hq; exact h.erased q d ((hcommit q d).mp hq)
  · intro q hq
    simp only [State.setPc] at hq ⊢
    by_cases hqp : q = p
    · subst hqp
      rw [update_self] at hq
      exact hasleep hq
    · rw [update_of_ne hqp] at hq
      exact h.asleep q hq

/-- Every step of `commit` keeps the invariant. -/
theorem inv_commit_step (h : Inv s) {c : CommitPc} (hp : s.pc p = .commit c) :
    Inv (commit_step s p c) := by
  cases c with
  | start =>
    simp only [commit_step]
    split
    · exact h.commit_move hp s.lh h.nodup (by simp) _ rfl rfl rfl rfl
    · next hlen =>
      have hnil : s.lh = [] := by simpa using hlen
      exact h.commit_move hp s.lh h.nodup (fun _ => hnil) _ rfl rfl rfl rfl
  | write_log tail =>
    simp only [commit_step]
    split <;> exact h.commit_move hp s.lh h.nodup (by simp) _ rfl rfl rfl rfl
  | write_head => exact h.commit_move hp s.lh h.nodup (by simp) _ rfl rfl rfl rfl
  | install_trans tail =>
    simp only [commit_step]
    split <;> exact h.commit_move hp s.lh h.nodup (by simp) _ rfl rfl rfl rfl
  | clear => exact h.commit_move hp [] List.nodup_nil (fun _ => rfl) _ rfl rfl rfl rfl
  | erase =>
    have hnil := h.erased p _ hp (Or.inl rfl)
    exact h.commit_move hp s.lh h.nodup (fun _ => hnil) _ rfl rfl rfl rfl
  | done =>
    -- `committing` is cleared: the block list is empty and every sleeper is woken
    have hcom := h.holder p _ hp
    have hnone : ∀ q d, wakeup (update s.pc p .idle) q ≠ .commit d := by
      intro q d hq
      rw [wakeup_eq_commit] at hq
      by_cases hqp : q = p
      · simp [hqp] at hq
      · rw [update_of_ne hqp] at hq
        exact hqp (h.unique q p d _ hq hp)
    refine ⟨?_, ?_, ?_, ?_, ?_, h.nodup, ?_, ?_, ?_⟩
    · exact (h.census.set (c := .idle) (p := p) (by simp [hp, Pc.Inside])).congr
        (by simp [commit_step])
    · intro hf; simp [commit_step] at hf
    · intro q d hq; exact absurd hq (hnone q d)
    · intro q r d d' hq; exact absurd hq (hnone q d)
    · intro hf; simp [commit_step] at hf
    · intro _ _; exact h.erased p _ hp (Or.inr rfl)
    · intro q d hq; exact absurd hq (hnone q d)
    · intro q hq; exact absurd hq (wakeup_ne_asleep _ _)

/-- Every step keeps the core invariant. -/
theorem inv_step {l : Label P} (h : Inv s) (hs : Step size s l s') : Inv s' := by
  cases hs with
  | sleep p hpc hfull =>
    have hout : ¬ (s.pc p).Inside := by rcases hpc with hpc | hpc <;> simp [hpc, Pc.Inside]
    have hncom : ∀ d, s.pc p ≠ .commit d := by rcases hpc with hpc | hpc <;> simp [hpc]
    refine h.outside_move hout (c := .asleep) (by simp [Pc.Inside]) (by simpa using hncom) ?_
    intro _
    simpa [State.full] using hfull
  | enter p hpc hfull =>
    have hout : ¬ (s.pc p).Inside := by rcases hpc with hpc | hpc <;> simp [hpc, Pc.Inside]
    have hfull' : s.committing = false := by
      simp only [State.full, Bool.or_eq_false_iff] at hfull
      exact hfull.1
    have hno : ∀ q c, update s.pc p .op q ≠ .commit c := by
      intro q c hq
      by_cases hqp : q = p
      · simp [hqp] at hq
      · rw [update_of_ne hqp] at hq
        have := h.holder q c hq
        simp [hfull'] at this
    refine ⟨h.census.enter hout trivial, ?_, ?_, ?_, ?_, h.nodup, ?_, ?_, ?_⟩
    · intro hc; simp [State.enter, hfull'] at hc
    · intro q c hq; exact absurd hq (hno q c)
    · intro q r c c' hq; exact absurd hq (hno q c)
    · intro hc; simp [State.enter, hfull'] at hc
    · intro _ h0; simp [State.enter] at h0
    · intro q c hq; exact absurd hq (hno q c)
    · intro q hq
      simp only [State.enter] at hq ⊢
      by_cases hqp : q = p
      · simp [hqp] at hq
      · rw [update_of_ne hqp] at hq
        rcases h.asleep q hq with h1 | h1
        · exact Or.inl h1
        · right
          simp only [MAXOPBLOCKS, LOGSIZE] at h1 ⊢
          omega
  | too_big p b _ _ => exact ⟨h.1, h.2, h.3, h.4, h.5, h.6, h.7, h.8, h.9⟩
  | outside p b _ _ => exact ⟨h.1, h.2, h.3, h.4, h.5, h.6, h.7, h.8, h.9⟩
  | overrun p b _ _ _ => exact ⟨h.1, h.2, h.3, h.4, h.5, h.6, h.7, h.8, h.9⟩
  | test p b hpc _ _ _ =>
    have hin : (s.pc p).Inside := by simp [hpc, Pc.Inside]
    exact h.inside_move hin (c := .log_write b) trivial s.lh le_rfl h.nodup
  | absorb p b hpc _ =>
    have hin : (s.pc p).Inside := by simp [hpc, Pc.Inside]
    exact h.inside_move hin (c := .op) trivial s.lh le_rfl h.nodup
  | append p b hpc hb _ =>
    have hin : (s.pc p).Inside := by simp [hpc, Pc.Inside]
    have hnd : (s.lh ++ [b]).Nodup := by
      rw [List.nodup_append]
      refine ⟨h.nodup, List.nodup_singleton b, ?_⟩
      intro x hx y hy hxy
      rw [List.mem_singleton] at hy
      exact hb (hy ▸ hxy ▸ hx)
    exact h.inside_move hin (c := .op) trivial (s.lh ++ [b]) (by simp) hnd
  | end_panic p hpc hc =>
    -- `commit` never runs while an operation is outstanding
    have := h.not_committing (p := p) (by simp [hpc, Pc.Inside])
    simp [hc] at this
  | end_last p hpc hc h0 =>
    have hin : (s.pc p).Inside := by simp [hpc, Pc.Inside]
    have honly : ∀ q d, update s.pc p (.commit .start) q = .commit d →
        q = p ∧ d = .start := by
      intro q d hq
      by_cases hqp : q = p
      · subst hqp
        simp only [update_self, Pc.commit.injEq] at hq
        exact ⟨rfl, hq.symm⟩
      · rw [update_of_ne hqp] at hq
        have := h.holder q d hq
        simp [hc] at this
    refine ⟨h.census.leave hin (by simp [Pc.Inside]), ?_, ?_, ?_, ?_, h.nodup, ?_, ?_, ?_⟩
    · intro _; exact h0
    · intro q d _; rfl
    · intro q r d d' hq hr
      rw [(honly q d hq).1, (honly r d' hr).1]
    · intro _; exact ⟨p, .start, by simp⟩
    · intro hf; simp at hf
    · intro q d hq hd
      rw [(honly q d hq).2] at hd
      simp at hd
    · intro q _; exact Or.inl rfl
  | end_more p hpc hc h0 =>
    have hin : (s.pc p).Inside := by simp [hpc, Pc.Inside]
    have hno : ∀ q d, wakeup (update s.pc p .idle) q ≠ .commit d := by
      intro q d hq
      rw [wakeup_eq_commit] at hq
      by_cases hqp : q = p
      · simp [hqp] at hq
      · rw [update_of_ne hqp] at hq
        have := h.holder q d hq
        simp [hc] at this
    refine ⟨?_, ?_, ?_, ?_, ?_, h.nodup, ?_, ?_, ?_⟩
    · exact (h.census.leave (c := .idle) hin (by simp [Pc.Inside])).congr (by simp)
    · intro hf; simp [hc] at hf
    · intro q d hq; exact absurd hq (hno q d)
    · intro q r d d' hq; exact absurd hq (hno q d)
    · intro hf; simp [hc] at hf
    · intro _ h1; exact absurd h1 h0
    · intro q d hq; exact absurd hq (hno q d)
    · intro q hq; exact absurd hq (wakeup_ne_asleep _ _)
  | commit p c hpc => exact inv_commit_step h hpc
  | kill p hpc =>
    exact h.outside_move (by simp [hpc, Pc.Inside]) (by simp [Pc.Inside]) (by simp [hpc]) (by simp)

theorem reachable_inv (hr : Reachable (sys P size) s) : Inv s :=
  hr.invariant (fun _ h => h ▸ inv_init) fun _ _ _ h hn => inv_step h (step_of_next hn).2

end Core

/-! ## The history invariant -/

variable {size : Nat} {s : State P}

/-- The commit has put its block list on disk, or had none to put. -/
def CommitPc.Flushed : CommitPc → Prop
  | .start => False
  | .write_log _ => False
  | .write_head => False
  | _ => True

/-- Block `b` of operation `op` is listed once in the commit the operation
    belongs to, or that commit has not happened yet and `b` is in the running
    transaction. -/
def Placed (s : State P) (op b : Nat) : Prop :=
  (∃ l, s.committed[s.commitOf op]? = some l ∧ l.count b = 1) ∨
    (s.commitOf op = s.committed.length ∧ b ∈ s.lh)

/-- Where the logged blocks are. -/
structure Hist (s : State P) : Prop where
  member : ∀ p, (s.pc p).Inside →
    s.opOf p < s.nextOp ∧ s.commitOf (s.opOf p) = s.committed.length
  old : ∀ e ∈ s.recorded, e.1 < s.nextOp
  placed : ∀ e ∈ s.recorded, Placed s e.1 e.2
  flushed : ∀ p c, s.pc p = .commit c → c.Flushed →
    ∀ e ∈ s.recorded, s.commitOf e.1 ≠ s.committed.length
  logged : ∀ b, b ∈ s.lh ↔ b ∈ s.logged

theorem hist_init : Hist (initlog P) := by
  refine ⟨?_, ?_, ?_, ?_, ?_⟩
  · intro p hp; simp [initlog, Pc.Inside] at hp
  · simp [initlog]
  · simp [initlog]
  · simp [initlog]
  · simp [initlog]

/-- A step that touches neither the history nor the block list, lets nobody
    into an operation and nobody past the commit point. -/
theorem Hist.frame {s' : State P} (h : Hist s) (hnext : s'.nextOp = s.nextOp)
    (hop : s'.opOf = s.opOf) (hof : s'.commitOf = s.commitOf) (hrec : s'.recorded = s.recorded)
    (hlog : s'.logged = s.logged) (hcom : s'.committed = s.committed) (hlh : s'.lh = s.lh)
    (hin : ∀ p, (s'.pc p).Inside → (s.pc p).Inside)
    (hfl : ∀ p c, s'.pc p = .commit c → c.Flushed →
      (∃ q d, s.pc q = .commit d ∧ d.Flushed) ∨ s.lh = []) : Hist s' := by
  refine ⟨?_, ?_, ?_, ?_, ?_⟩
  · intro p hp
    rw [hop, hnext, hof, hcom]
    exact h.member p (hin p hp)
  · rw [hrec, hnext]; exact h.old
  · intro e he
    rw [hrec] at he
    simpa only [Placed, hcom, hof, hlh] using h.placed e he
  · intro p c hp hc e he
    rw [hof, hcom]
    rw [hrec] at he
    rcases hfl p c hp hc with ⟨q, d, hq, hd⟩ | hnil
    · exact h.flushed q d hq hd e he
    · -- nothing is logged, so every recorded block is in an earlier commit
      intro heq
      rcases h.placed e he with ⟨l, hl, _⟩ | ⟨_, hb⟩
      · have := (List.getElem?_eq_some_iff.mp hl).1
        omega
      · simp [hnil] at hb
  · rw [hlh, hlog]; exact h.logged

variable [DecidableEq P]

/-- One process changes its position, everything else staying as it is. -/
theorem Hist.move {s' : State P} (h : Hist s) (p : P) (c : Pc)
    (hin : c.Inside → (s.pc p).Inside)
    (hfl : ∀ d, c = .commit d → d.Flushed →
      (∃ q d, s.pc q = .commit d ∧ d.Flushed) ∨ s.lh = [])
    (hpc : s'.pc = update s.pc p c)
    (hrest : s'.nextOp = s.nextOp ∧ s'.opOf = s.opOf ∧ s'.commitOf = s.commitOf ∧
      s'.recorded = s.recorded ∧ s'.logged = s.logged ∧ s'.committed = s.committed ∧
      s'.lh = s.lh) : Hist s' := by
  obtain ⟨h1, h2, h3, h4, h5, h6, h7⟩ := hrest
  refine h.frame h1 h2 h3 h4 h5 h6 h7 ?_ ?_
  · intro q hq
    rw [hpc] at hq
    by_cases hqp : q = p
    · subst hqp
      rw [update_self] at hq
      exact hin hq
    · rwa [update_of_ne hqp] at hq
  · intro q d hq hd
    rw [hpc] at hq
    by_cases hqp : q = p
    · subst hqp
      rw [update_self] at hq
      exact hfl d hq hd
    · rw [update_of_ne hqp] at hq
      exact Or.inl ⟨q, d, hq, hd⟩

/-- The critical section of `log_write` records its block in the running
    transaction. -/
theorem Hist.log {b : Nat} {lh : List Nat} (hi : Inv s) (h : Hist s) (hpc : s.pc p = .log_write b)
    (hmem : ∀ x, x ∈ lh ↔ x ∈ s.lh ∨ x = b) : Hist (s.log p b lh) := by
  have hin : (s.pc p).Inside := by simp [hpc, Pc.Inside]
  obtain ⟨hlt, hof⟩ := h.member p hin
  have hfalse := hi.not_committing hin
  refine ⟨?_, ?_, ?_, ?_, ?_⟩
  · intro q hq
    by_cases hqp : q = p
    · subst hqp; exact ⟨hlt, hof⟩
    · apply h.member q
      simpa [State.log, update_of_ne hqp] using hq
  · intro e he
    rcases List.mem_append.mp he with he | he
    · exact h.old e he
    · rw [List.mem_singleton] at he
      subst he
      exact hlt
  · intro e he
    rcases List.mem_append.mp he with he | he
    · rcases h.placed e he with hl | ⟨heq, hb⟩
      · exact Or.inl hl
      · exact Or.inr ⟨heq, (hmem _).mpr (Or.inl hb)⟩
    · rw [List.mem_singleton] at he
      subst he
      exact Or.inr ⟨hof, (hmem b).mpr (Or.inr rfl)⟩
  · intro q c hq
    simp only [State.log] at hq
    by_cases hqp : q = p
    · simp [hqp] at hq
    · rw [update_of_ne hqp] at hq
      have := hi.holder q c hq
      simp [hfalse] at this
  · intro x
    simp [State.log, hmem, h.logged]

/-- The commit point: the running transaction becomes a commit. -/
theorem Hist.write_head (hi : Inv s) (h : Hist s) (hpc : s.pc p = .commit .write_head) :
    Hist (commit_step s p .write_head) := by
  have hout := hi.alone (hi.holder p _ hpc)
  have hnone : ∀ q, ¬ (s.pc q).Inside := by
    intro q hq
    have := hi.census.pos hq
    omega
  have hlt : ∀ e ∈ s.recorded, s.commitOf e.1 ≤ s.committed.length := by
    intro e he
    rcases h.placed e he with ⟨l, hl, _⟩ | ⟨heq, _⟩
    · exact (List.getElem?_eq_some_iff.mp hl).1.le
    · omega
  refine ⟨?_, h.old, ?_, ?_, h.logged⟩
  · intro q hq
    simp only [commit_step, State.setPc] at hq
    by_cases hqp : q = p
    · simp [hqp, Pc.Inside] at hq
    · rw [update_of_ne hqp] at hq
      exact absurd hq (hnone q)
  · intro e he
    left
    simp only [commit_step, State.setPc] at he ⊢
    rcases h.placed e he with ⟨l, hl, hc⟩ | ⟨heq, hb⟩
    · have := (List.getElem?_eq_some_iff.mp hl).1
      exact ⟨l, by rw [List.getElem?_append_left this]; exact hl, hc⟩
    · -- the operation was in the running transaction, listed there once
      refine ⟨s.lh, by simp [heq], ?_⟩
      exact List.count_eq_one_of_mem hi.nodup hb
  · intro q c _ _ e he
    have := hlt e he
    simp only [commit_step, State.setPc, List.length_append, List.length_singleton]
    omega

/-- One process leaves its operation, or `commit`, and all sleepers are woken. -/
theorem Hist.wakeup {s' : State P} (h : Hist s) (p : P)
    (hpc : s'.pc = Log.wakeup (update s.pc p .idle))
    (hrest : s'.nextOp = s.nextOp ∧ s'.opOf = s.opOf ∧ s'.commitOf = s.commitOf ∧
      s'.recorded = s.recorded ∧ s'.logged = s.logged ∧ s'.committed = s.committed ∧
      s'.lh = s.lh) : Hist s' := by
  obtain ⟨h1, h2, h3, h4, h5, h6, h7⟩ := hrest
  refine h.frame h1 h2 h3 h4 h5 h6 h7 ?_ ?_
  · intro q hq
    rw [hpc, wakeup_inside] at hq
    by_cases hqp : q = p
    · simp [hqp, Pc.Inside] at hq
    · rwa [update_of_ne hqp] at hq
  · intro q d hq hd
    rw [hpc, wakeup_eq_commit] at hq
    by_cases hqp : q = p
    · simp [hqp] at hq
    · rw [update_of_ne hqp] at hq
      exact Or.inl ⟨q, d, hq, hd⟩

/-- Erasing the transaction: all its blocks are in a commit already. -/
theorem Hist.clear (h : Hist s) (hpc : s.pc p = .commit .clear) :
    Hist (commit_step s p .clear) := by
  have hfl := h.flushed p _ hpc trivial
  refine ⟨?_, h.old, ?_, ?_, ?_⟩
  · intro q hq
    simp only [commit_step, State.setPc] at hq
    by_cases hqp : q = p
    · simp [hqp, Pc.Inside] at hq
    · rw [update_of_ne hqp] at hq
      exact h.member q hq
  · intro e he
    rcases h.placed e he with hl | ⟨heq, _⟩
    · exact Or.inl hl
    · exact absurd heq (hfl e he)
  · intro _ _ _ _
    exact hfl
  · simp [commit_step]

/-- Every step of `commit` keeps the history invariant. -/
theorem hist_commit_step {c : CommitPc} (hi : Inv s) (h : Hist s) (hpc : s.pc p = .commit c) :
    Hist (commit_step s p c) := by
  cases c with
  | start =>
    simp only [commit_step]
    split
    · exact h.move p _ (by simp [Pc.Inside]) (by simp [CommitPc.Flushed]) rfl
        ⟨rfl, rfl, rfl, rfl, rfl, rfl, rfl⟩
    · next hlen =>
      exact h.move p _ (by simp [Pc.Inside]) (fun _ _ _ => Or.inr (by simpa using hlen)) rfl
        ⟨rfl, rfl, rfl, rfl, rfl, rfl, rfl⟩
  | write_log tail =>
    simp only [commit_step]
    split <;> exact h.move p _ (by simp [Pc.Inside]) (by simp [CommitPc.Flushed]) rfl
      ⟨rfl, rfl, rfl, rfl, rfl, rfl, rfl⟩
  | write_head => exact h.write_head hi hpc
  | install_trans tail =>
    simp only [commit_step]
    split <;> exact h.move p _ (by simp [Pc.Inside])
      (fun _ _ _ => Or.inl ⟨p, _, hpc, trivial⟩) rfl ⟨rfl, rfl, rfl, rfl, rfl, rfl, rfl⟩
  | clear => exact h.clear hpc
  | erase =>
    exact h.move p _ (by simp [Pc.Inside]) (fun _ _ _ => Or.inl ⟨p, _, hpc, trivial⟩) rfl
      ⟨rfl, rfl, rfl, rfl, rfl, rfl, rfl⟩
  | done => exact h.wakeup p rfl ⟨rfl, rfl, rfl, rfl, rfl, rfl, rfl⟩

/-- Every step keeps the history invariant. -/
theorem hist_step {s' : State P} {l : Label P} (hi : Inv s) (h : Hist s)
    (hs : Step size s l s') : Hist s' := by
  cases hs with
  | sleep p _ _ =>
    exact h.move p .asleep (by simp [Pc.Inside]) (by simp) rfl ⟨rfl, rfl, rfl, rfl, rfl, rfl, rfl⟩
  | enter p hpc _ =>
    have hcom : ∀ op, op < s.nextOp → (s.enter p).commitOf op = s.commitOf op := by
      intro op hop
      exact update_of_ne (by omega) _ _
    refine ⟨?_, ?_, ?_, ?_, h.logged⟩
    · intro q hq
      by_cases hqp : q = p
      · subst hqp; simp [State.enter]
      · have hq' : (s.pc q).Inside := by
          simpa [State.enter, update_of_ne hqp] using hq
        obtain ⟨h1, h2⟩ := h.member q hq'
        have hopq : (s.enter p).opOf q = s.opOf q := update_of_ne hqp _ _
        rw [hopq, hcom _ h1]
        exact ⟨by simp only [State.enter]; omega, h2⟩
    · intro e he
      have := h.old e he
      simp only [State.enter]
      omega
    · intro e he
      have := h.placed e he
      rw [Placed, hcom _ (h.old e he)]
      exact this
    · intro q c hq hc e he
      rw [hcom _ (h.old e he)]
      by_cases hqp : q = p
      · simp [hqp, State.enter] at hq
      · simp only [State.enter, update_of_ne hqp] at hq
        exact h.flushed q c hq hc e he
  | too_big p b _ _ => exact ⟨h.1, h.2, h.3, h.4, h.5⟩
  | outside p b _ _ => exact ⟨h.1, h.2, h.3, h.4, h.5⟩
  | overrun p b _ _ _ => exact ⟨h.1, h.2, h.3, h.4, h.5⟩
  | test p b hpc _ _ _ =>
    exact h.move p (.log_write b) (by simp [hpc, Pc.Inside]) (by simp) rfl
      ⟨rfl, rfl, rfl, rfl, rfl, rfl, rfl⟩
  | absorb p b hpc hb =>
    refine h.log hi hpc ?_
    intro x
    constructor
    · exact Or.inl
    · rintro (hx | rfl)
      · exact hx
      · exact hb
  | append p b hpc _ _ => exact h.log hi hpc (by simp)
  | end_panic p hpc hc =>
    have := hi.not_committing (p := p) (by simp [hpc, Pc.Inside])
    simp [hc] at this
  | end_last p _ _ _ =>
    refine h.move p (.commit .start) (by simp [Pc.Inside]) ?_ rfl
      ⟨rfl, rfl, rfl, rfl, rfl, rfl, rfl⟩
    intro d hd hfl
    simp only [Pc.commit.injEq] at hd
    subst hd
    exact absurd hfl (by simp [CommitPc.Flushed])
  | end_more p _ _ _ => exact h.wakeup p rfl ⟨rfl, rfl, rfl, rfl, rfl, rfl, rfl⟩
  | commit p c hpc => exact hist_commit_step hi h hpc
  | kill p _ =>
    exact h.move p .woken (by simp [Pc.Inside]) (by simp) rfl ⟨rfl, rfl, rfl, rfl, rfl, rfl, rfl⟩

theorem reachable_hist (hr : Reachable (sys P size) s) : Hist s := by
  have hboth : Inv s ∧ Hist s := by
    refine hr.invariant (I := fun s => Inv s ∧ Hist s)
      (fun _ h => h ▸ ⟨inv_init, hist_init⟩) ?_
    intro _ _ _ h hn
    have hs := (step_of_next hn).2
    exact ⟨inv_step h.1 hs, hist_step h.1 h.2 hs⟩
  exact hboth.2

/-! ## Group commit -/

/-- A running commit keeps everybody else out of `log_write` and out of new
    operations. -/
theorem commit_excludes {s' : State P} {l : Label P} (hi : Inv s) {c : CommitPc}
    (hpc : s.pc p = .commit c) (hs : Step size s l s') :
    (∀ q b, l ≠ .log_write q b) ∧ (∀ q, l ≠ .append q) ∧ s'.nextOp = s.nextOp := by
  have hcom := hi.holder p c hpc
  have hnone : ∀ q, ¬ (s.pc q).Inside := by
    intro q hq
    have := hi.not_committing hq
    simp [hcom] at this
  cases hs with
  | enter q _ hfull => simp [State.full, hcom] at hfull
  | too_big q b hq _ => exact absurd (by simp [hq, Pc.Inside]) (hnone q)
  | outside q b hq _ => exact absurd (by simp [hq, Pc.Inside]) (hnone q)
  | test q b hq _ _ _ => exact absurd (by simp [hq, Pc.Inside]) (hnone q)
  | absorb q b hq _ => exact absurd (by simp [hq, Pc.Inside]) (hnone q)
  | append q b hq _ _ => exact absurd (by simp [hq, Pc.Inside]) (hnone q)
  | overrun q b hq _ _ => exact absurd (by simp [hq, Pc.Inside]) (hnone q)
  | end_panic q hq _ => exact absurd (by simp [hq, Pc.Inside]) (hnone q)
  | end_last q hq _ _ => exact absurd (by simp [hq, Pc.Inside]) (hnone q)
  | end_more q hq _ _ => exact absurd (by simp [hq, Pc.Inside]) (hnone q)
  | sleep q _ _ => exact ⟨by simp, by simp, rfl⟩
  | kill q _ => exact ⟨by simp, by simp, rfl⟩
  | commit q d _ => exact ⟨by simp, by simp, (commit_step_frame s q d).2⟩

/-- **Group commit never splits an operation.** In every reachable state:
    `commit` runs only with `outstanding = 0` and `committing = 1`; while it
    runs, no step enters `log_write` or admits an operation; all blocks an
    operation has logged are listed, each exactly once, in one and the same
    commit, or that commit is still to come and they are in the running
    transaction, each exactly once; an operation in progress belongs to the
    commit still to come; and once nothing is in progress, every operation's
    blocks are in a commit that has happened. -/
theorem group_commit_whole (hr : Reachable (sys P size) s) :
    (∀ p c, s.pc p = .commit c → s.outstanding = 0 ∧ s.committing = true) ∧
    (∀ p c, s.pc p = .commit c → ∀ l s', (sys P size).next s l = some s' →
      (∀ q b, l ≠ .log_write q b) ∧ (∀ q, l ≠ .append q) ∧ s'.nextOp = s.nextOp) ∧
    (∀ op, ∃ k : Nat, ∀ b, (op, b) ∈ s.recorded →
      (∃ l, s.committed[k]? = some l ∧ l.count b = 1) ∨
      (k = s.committed.length ∧ s.lh.count b = 1)) ∧
    (∀ p, (s.pc p).Inside → s.commitOf (s.opOf p) = s.committed.length) ∧
    (s.committing = false → s.outstanding = 0 → ∀ op, ∃ k : Nat, ∀ b, (op, b) ∈ s.recorded →
      ∃ l, s.committed[k]? = some l ∧ l.count b = 1) := by
  have hi := reachable_inv hr
  have hh := reachable_hist hr
  refine ⟨?_, ?_, ?_, ?_, ?_⟩
  · intro p c hpc
    have hcom := hi.holder p c hpc
    exact ⟨hi.alone hcom, hcom⟩
  · intro p c hpc l s' hn
    exact commit_excludes hi hpc (step_of_next hn).2
  · intro op
    refine ⟨s.commitOf op, ?_⟩
    intro b hb
    rcases hh.placed _ hb with hl | ⟨heq, hmem⟩
    · exact Or.inl hl
    · exact Or.inr ⟨heq, List.count_eq_one_of_mem hi.nodup hmem⟩
  · intro p hp
    exact (hh.member p hp).2
  · intro hcom hout op
    have hnil := hi.empty hcom hout
    refine ⟨s.commitOf op, ?_⟩
    intro b hb
    rcases hh.placed _ hb with hl | ⟨_, hmem⟩
    · exact hl
    · simp [hnil] at hmem

/-- One process logs block 7 and ends its operation; its commit has just put
    the header on disk. -/
theorem group_commit_whole_one_op :
    ∃ s : State Bool, Reachable (sys Bool 30) s ∧ (0, 7) ∈ s.recorded ∧ s.committed = [[7]] ∧
      ∃ k : Nat, (∃ l, s.committed[k]? = some l ∧ l.count 7 = 1) ∨
        (k = s.committed.length ∧ s.lh.count 7 = 1) := by
  obtain ⟨s, hex, hrec, hcom⟩ : ∃ s, (sys Bool 30).exec (fun _ _ => true) (initlog Bool)
      [.begin_op true, .log_write true 7, .append true, .end_op true, .commit true,
        .commit true, .commit true, .commit true] = some s ∧ (0, 7) ∈ s.recorded ∧
      s.committed = [[7]] := ⟨_, rfl, by decide, rfl⟩
  have hr : Reachable (sys Bool 30) s := (reachable_of_exec rfl hex).of_restrict
  obtain ⟨k, hk⟩ := (group_commit_whole hr).2.2.1 0
  exact ⟨s, hr, hrec, hcom, k, hk 7 hrec⟩

/-! ## Waiters of `begin_op` -/

/-- **No `begin_op` waiter is stranded.** In every reachable state: with no
    commit and no operation in progress the block list is empty; a process
    asleep in `begin_op` has a commit running or too little log space; so it
    always has a commit in progress or an outstanding operation. The end of
    an operation wakes it or starts a commit, and the end of a commit wakes
    it. -/
theorem no_stranded_waiter (hr : Reachable (sys P size) s) :
    (s.committing = false → s.outstanding = 0 → s.lh = []) ∧
    (∀ p, s.pc p = .asleep →
      s.committing = true ∨ s.lh.length + (s.outstanding + 1) * MAXOPBLOCKS > LOGSIZE) ∧
    (∀ p, s.pc p = .asleep →
      (∃ q c, s.pc q = .commit c) ∨ (∃ q, (s.pc q).Inside)) ∧
    (∀ p q s', s.pc p = .asleep → (sys P size).next s (.end_op q) = some s' →
      s'.pc p = .woken ∨ s'.committing = true) ∧
    (∀ p q s', s.pc p = .asleep → s.pc q = .commit .done →
      (sys P size).next s (.commit q) = some s' → s'.pc p = .woken) := by
  have hi := reachable_inv hr
  refine ⟨hi.empty, hi.asleep, ?_, ?_, ?_⟩
  · intro p hp
    by_cases hcom : s.committing = true
    · exact Or.inl (hi.running hcom)
    · right
      -- with nothing outstanding the log would be empty and have room
      by_contra hnone
      obtain ⟨F, hF, hn⟩ := hi.census
      have hempty : F = ∅ := by
        rw [Finset.eq_empty_iff_forall_notMem]
        intro q hq
        exact hnone ⟨q, (hF q).mp hq⟩
      have hout : s.outstanding = 0 := by rw [← hn, hempty]; rfl
      have hnil := hi.empty (by simpa using hcom) hout
      rcases hi.asleep p hp with h1 | h1
      · exact hcom h1
      · simp [hnil, hout] at h1
  · intro p q s' hp hn
    have hs : Step size s (.end_op q) s' := (step_of_sys hn).2
    have hne : s.pc q = .op → p ≠ q := by
      intro hq hpq
      rw [hpq, hq] at hp
      simp at hp
    cases hs with
    | end_panic _ hq hc =>
      exact Or.inr hc
    | end_last _ hq _ _ => exact Or.inr rfl
    | end_more _ hq _ _ =>
      left
      simp [wakeup, update_of_ne (hne hq), hp]
  · intro p q s' hp hq hn
    have hs : Step size s (.commit q) s' := (step_of_sys hn).2
    have hne : p ≠ q := by
      intro hpq
      rw [hpq, hq] at hp
      simp at hp
    cases hs with
    | commit _ c hc =>
      rw [hq] at hc
      simp only [Pc.commit.injEq] at hc
      subst hc
      simp [commit_step, wakeup, update_of_ne hne, hp]

/-- Three operations fill the reservation and a fourth process goes to sleep. -/
theorem no_stranded_waiter_fourth :
    ∃ s : State (Fin 4), Reachable (sys (Fin 4) 30) s ∧ s.pc 3 = .asleep ∧
      ((∃ q c, s.pc q = .commit c) ∨ (∃ q, (s.pc q).Inside)) := by
  obtain ⟨s, hex, hpc⟩ : ∃ s, (sys (Fin 4) 30).exec (fun _ _ => true) (initlog (Fin 4))
      [.begin_op 0, .begin_op 1, .begin_op 2, .begin_op 3] = some s ∧ s.pc 3 = .asleep :=
    ⟨_, rfl, by decide⟩
  have hr : Reachable (sys (Fin 4) 30) s := (reachable_of_exec rfl hex).of_restrict
  exact ⟨s, hr, hpc, (no_stranded_waiter hr).2.2.1 3 hpc⟩

end Xv6.Log
