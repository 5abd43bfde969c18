import Xv6.Kern.Proc

/-! # What kernel threads own and know

    The ghost state of a kernel thread: the spin-locks it holds, whether it
    has given up the CPU, the slot that `fork` is filling, the process a
    scheduler has picked, and what a thread that holds `ptable.lock` has seen
    in the process table. `Coh` says that the ghost states of all threads fit
    the memory of the kernel. It has three parts:

    * `Placed`: locks are held by the CPU whose thread thinks so; a CPU
      executes its scheduler or the process in `c->proc`, which is RUNNING
      unless the thread on that CPU holds `ptable.lock`;
    * `Tied`: what threads know about the process table is true;
    * `Family`: the first process has no parent and stays, and a process that
      exits knows its parent.

    A thread that is switched away holds no lock but `ptable.lock`, and goes
    on holding it: the lock passes with the CPU from the process to the
    scheduler and back.
-/

namespace Xv6.Kern

/-- A process thread is running; or has stored a new state and is about to
    switch; or is switched away, or has just been switched to. -/
inductive Phase where
  | on
  | off
  | away
deriving DecidableEq

/-- What a thread that holds `ptable.lock` is about to do: sleep on a channel,
    or wake the process it has killed. -/
inductive Due (K : Type) where
  | sleep (chan : Chan K)
  | rouse (p : Slot)

/-- What a thread owns and knows. -/
structure Ghost (L K Γ : Type) where
  /-- Spin-locks. -/
  locks : Finset (Lock L)
  phase : Phase
  /-- What the thread will do before it releases `ptable.lock`. -/
  due : Option (Due K)
  /-- The slot that `fork` fills, and whether its parent is set. -/
  child : Option (Slot × Bool)
  /-- The process a scheduler has picked, and whether it has still to switch to
      it. -/
  pick : Option (Slot × Bool)
  /-- Slots in which nobody sleeps on the channel. -/
  woken : Option (Chan K) → Set Slot
  /-- Slots in which there is no zombie child of this process. -/
  scan : Set Slot
  /-- Slots in which there is no child of this process. -/
  moved : Set Slot
  /-- The parent of this process. -/
  kin : Option (Option Slot)
  /-- The pid that `wait` has found and still has to return. -/
  got : Option (BitVec 32)
  /-- What the users of `sleep` and `wakeup` add. -/
  extra : Γ

variable {C L K E Γ : Type}

namespace Ghost

/-- A thread between two calls. -/
def idle (x : Γ) : Ghost L K Γ := ⟨∅, .on, none, none, none, fun _ => ∅, ∅, ∅, none, none, x⟩

/-- What was seen under `ptable.lock` is forgotten. -/
def forget (g : Ghost L K Γ) : Ghost L K Γ :=
  { g with woken := fun _ => ∅, scan := ∅, moved := ∅, kin := none }

end Ghost

namespace Kernel

/-- Slot `p` sleeps on `chan`. -/
def Asleep (s : Kernel C L K E) (p : Slot) (chan : Option (Chan K)) : Prop :=
  (s.proc p).state = .SLEEPING ∧ (s.proc p).chan = chan

/-- Thread `t` is executed by the CPU that holds `ptable.lock`. -/
def Active (s : Kernel C L K E) (t : Thread C) : Prop :=
  ∃ c, s.cur c = t ∧ s.lock .ptable = some c

end Kernel

/-- Locks, CPUs and the process states fit. -/
structure Placed (s : Kernel C L K E) (G : Thread C → Ghost L K Γ) : Prop where
  lock : ∀ c l, s.lock l = some c ↔ l ∈ (G (s.cur c)).locks
  ncli : ∀ c, s.ncli c = (G (s.cur c)).locks.card
  cur : ∀ c, s.cur c = .sched c ∨ ∃ p, s.cur c = .proc p
  cproc : ∀ c, s.cproc c = (G (.sched c)).pick.map Prod.fst
  /-- A scheduler that is switched away waits for its process. -/
  gone : ∀ c p, s.cur c = .proc p →
    (G (.sched c)).locks = {.ptable} ∧ (G (.sched c)).pick = some (p, false)
  /-- A process that is picked is RUNNING until it comes back. -/
  back : ∀ c p b, s.cur c = .sched c → (G (.sched c)).pick = some (p, b) →
    .ptable ∈ (G (.sched c)).locks ∧ ((s.proc p).state = .RUNNING ↔ b = true)
  uniq : ∀ c c' p, s.cproc c = some p → s.cproc c' = some p → c = c'
  running : ∀ p, (s.proc p).state = .RUNNING → ∃ c, s.cproc c = some p
  here : ∀ c p, s.cur c = .proc p →
    ((s.proc p).state = .RUNNING ↔ (G (.proc p)).phase ≠ .off)
  holds : ∀ p, (G (.proc p)).phase ≠ .on → .ptable ∈ (G (.proc p)).locks
  away : ∀ p, (∀ c, s.cur c ≠ .proc p) → (G (.proc p)).phase = .away
  only : ∀ p, (G (.proc p)).phase = .away → (G (.proc p)).locks = {.ptable}

/-- What threads know is true. -/
structure Tied (s : Kernel C L K E) (G : Thread C → Ghost L K Γ) : Prop where
  child : ∀ t np b, (G t).child = some (np, b) → (s.proc np).state = .EMBRYO ∧
    (b = true → ∃ p, t = .proc p ∧ (s.proc np).parent = some p)
  child_uniq : ∀ t t' np b b', (G t).child = some (np, b) → (G t').child = some (np, b') → t = t'
  due : ∀ t, (G t).due ≠ none → s.Active t
  woken : ∀ t chan p, p ∈ (G t).woken chan → s.Active t ∧ ¬ s.Asleep p chan
  scan : ∀ t q, q ∈ (G t).scan → s.Active t ∧
    ∀ p, t = .proc p → ¬ ((s.proc q).parent = some p ∧ (s.proc q).state = .ZOMBIE)
  moved : ∀ t q, q ∈ (G t).moved → s.Active t ∧ ∀ p, t = .proc p → (s.proc q).parent ≠ some p

/-- The first process, and the parents of processes that exit. -/
structure Family (s : Kernel C L K E) (G : Thread C → Ghost L K Γ) : Prop where
  init_parent : (s.proc initproc).parent = none
  init_alive : (s.proc initproc).state ≠ .UNUSED ∧ (s.proc initproc).state ≠ .EMBRYO ∧
    (s.proc initproc).state ≠ .ZOMBIE
  noself : ∀ p, (s.proc p).parent ≠ some p
  kin : ∀ t x, (G t).kin = some x → s.Active t ∧
    ∀ p, t = .proc p → (G t).phase = .on ∧ (s.proc p).parent = x

/-- The ghost states `G` fit the locks, the CPUs and the process table. -/
structure Fits (s : Kernel C L K E) (G : Thread C → Ghost L K Γ) : Prop where
  placed : Placed s G
  tied : Tied s G

/-- The ghost states `G` fit the memory `s`. -/
structure Coh (s : Kernel C L K E) (G : Thread C → Ghost L K Γ) : Prop extends Fits s G where
  family : Family s G

/-- What threads know is about the process table. -/
theorem Tied.congr {s s' : Kernel C L K E} {G : Thread C → Ghost L K Γ} (h : Tied s G)
    (hlock : s'.lock = s.lock) (hcur : s'.cur = s.cur) (hproc : s'.proc = s.proc) : Tied s' G := by
  obtain ⟨lock, ncli, cur, cproc, proc, nextpid, exits, waits, rets, env⟩ := s
  obtain ⟨lock', ncli', cur', cproc', proc', nextpid', exits', waits', rets', env'⟩ := s'
  subst hlock hcur hproc
  exact ⟨h.child, h.child_uniq, h.due, h.woken, h.scan, h.moved⟩

theorem Fits.congr {s s' : Kernel C L K E} {G : Thread C → Ghost L K Γ} (h : Fits s G)
    (hlock : s'.lock = s.lock) (hncli : s'.ncli = s.ncli) (hcur : s'.cur = s.cur)
    (hcproc : s'.cproc = s.cproc) (hproc : s'.proc = s.proc) : Fits s' G := by
  obtain ⟨hp, ht⟩ := h
  refine ⟨?_, ht.congr hlock hcur hproc⟩
  obtain ⟨lock, ncli, cur, cproc, proc, nextpid, exits, waits, rets, env⟩ := s
  obtain ⟨lock', ncli', cur', cproc', proc', nextpid', exits', waits', rets', env'⟩ := s'
  subst hlock hncli hcur hcproc hproc
  exact ⟨hp.lock, hp.ncli, hp.cur, hp.cproc, hp.gone, hp.back, hp.uniq, hp.running, hp.here,
    hp.holds, hp.away, hp.only⟩

/-- Coherence is about locks, CPUs and the process table only. -/
theorem Coh.congr {s s' : Kernel C L K E} {G : Thread C → Ghost L K Γ} (h : Coh s G)
    (hlock : s'.lock = s.lock) (hncli : s'.ncli = s.ncli) (hcur : s'.cur = s.cur)
    (hcproc : s'.cproc = s.cproc) (hproc : s'.proc = s.proc) : Coh s' G := by
  refine ⟨h.toFits.congr hlock hncli hcur hcproc hproc, ?_⟩
  obtain ⟨h1, h2, h3, h4⟩ := h.family
  refine ⟨by rw [hproc]; exact h1, by rw [hproc]; exact h2, by rw [hproc]; exact h3, ?_⟩
  unfold Kernel.Active at h4 ⊢
  rw [hlock, hcur, hproc]
  exact h4

/-! ## First consequences -/

section

variable {s : Kernel C L K E} {G : Thread C → Ghost L K Γ} {c c' : C} {p : Slot} {t : Thread C}

/-- A CPU that executes a process executes the one in `c->proc`. -/
theorem Placed.cproc_of_cur (h : Placed s G) (hc : s.cur c = .proc p) : s.cproc c = some p := by
  rw [h.cproc, (h.gone c p hc).2]
  rfl

/-- No two CPUs execute the same thread. -/
theorem Placed.cur_inj (h : Placed s G) (hc : s.cur c = t) (hc' : s.cur c' = t) : c = c' := by
  cases t with
  | proc p => exact h.uniq c c' p (h.cproc_of_cur hc) (h.cproc_of_cur hc')
  | sched d =>
    have hown : ∀ e, s.cur e = .sched d → e = d := by
      intro e he
      rcases h.cur e with hs | ⟨p, hp⟩
      · rw [hs] at he
        cases he
        rfl
      · rw [hp] at he
        cases he
    rw [hown c hc, hown c' hc']

theorem Placed.active (h : Placed s G) (hc : s.cur c = t) (hl : .ptable ∈ (G t).locks) :
    s.Active t :=
  ⟨c, hc, (h.lock c _).mpr (by rw [hc]; exact hl)⟩

theorem Active.unique {t' : Thread C} (h : s.Active t) (h' : s.Active t') : t = t' := by
  obtain ⟨c, rfl, hl⟩ := h
  obtain ⟨c', rfl, hl'⟩ := h'
  rw [hl] at hl'
  cases hl'
  rfl

/-- The state of the process a CPU has in `c->proc`: it is RUNNING, or the CPU
    holds `ptable.lock`. -/
theorem Placed.state_of_cproc (h : Placed s G) (hc : s.cproc c = some p) :
    (s.proc p).state = .RUNNING ∨ s.lock .ptable = some c := by
  rcases h.cur c with hs | ⟨q, hq⟩
  · rw [h.cproc] at hc
    obtain ⟨⟨q, b⟩, hpick, rfl⟩ := Option.map_eq_some_iff.mp hc
    right
    rw [h.lock, hs]
    exact (h.back c q b hs hpick).1
  · rw [h.cproc_of_cur hq] at hc
    cases hc
    by_cases hoff : (G (.proc p)).phase = .off
    · right
      rw [h.lock, hq]
      exact h.holds p (by rw [hoff]; simp)
    · exact Or.inl ((h.here c p hq).mpr hoff)

/-- No CPU has a process in `c->proc` that is not RUNNING, except the one that
    holds `ptable.lock`. -/
theorem Placed.not_cproc (h : Placed s G) (hc : s.cur c = t) (htab : .ptable ∈ (G t).locks)
    {p : Slot} (hp : (s.proc p).state ≠ .RUNNING) {d : C} (hd : d ≠ c) : s.cproc d ≠ some p := by
  intro hdp
  rcases h.state_of_cproc hdp with hrun | hlock
  · exact hp hrun
  · have hlc := (h.lock c .ptable).mpr (by rw [hc]; exact htab)
    rw [hlc] at hlock
    exact hd (Option.some.inj hlock).symm

end

end Xv6.Kern
