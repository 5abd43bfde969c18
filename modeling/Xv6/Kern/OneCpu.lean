import Xv6.Kern.ExecCpu

/-! # A process runs on at most one CPU

    `ptable.lock` is taken by a scheduler and released by the process it
    switches to, and the other way round. Between the two, `c->proc` and the
    state of the process disagree; the thread on that CPU then holds the lock.
    So whenever the lock is free, the RUNNING processes are exactly those in
    some CPU's `c->proc`, and each is there once. No two CPUs ever execute the
    same thread, whoever holds the lock.
-/

namespace Xv6.Kern

variable {C L K E : Type} [DecidableEq C] [DecidableEq L] [DecidableEq K]

/-- The regime that adds nothing. -/
def plain : Rules C L K E Unit where
  Inv _ _ := True
  Cond _ _ _ := True
  May _ _ := True
  rest := ()

theorem plain_lawful : (plain : Rules C L K E Unit).Lawful :=
  ⟨fun _ _ => trivial, fun _ _ _ _ => trivial, fun _ => trivial, fun _ _ _ => trivial⟩

/-- In every state of every run on any number of CPUs, the ghost states fit. -/
theorem coh_of_reachable {init : E → Prop}
    {σ : Machine.Config C (Kernel C L K E) (Thread C) Act}
    (h : LTS.Reachable (system init call trap) σ) :
    ∃ G : Thread C → Ghost L K Unit, Coh σ.mem G := by
  have hinv := plain_lawful.sound_all (fun _ _ => trivial)
    (fun p x => safe_call plain_lawful x fun _ _ _ _ _ _ => trivial)
    (fun i _ _ hg hmay => safe_trap plain_lawful hg hmay i) (fun _ _ _ => trivial) h
  obtain ⟨_, G, hcoh, _⟩ := hinv
  exact ⟨G, hcoh.1⟩

/-- Whenever `ptable.lock` is free, a RUNNING process is the `c->proc` of
    exactly one CPU and any other process of none; and no two CPUs ever execute
    on the same kernel stack. -/
theorem process_on_one_cpu (init : E → Prop)
    (σ : Machine.Config C (Kernel C L K E) (Thread C) Act)
    (h : LTS.Reachable (system init call trap) σ) :
    (σ.mem.lock .ptable = none → ∀ p,
      ((σ.mem.proc p).state = .RUNNING → ∃! c, σ.mem.cproc c = some p) ∧
      ((σ.mem.proc p).state ≠ .RUNNING → ∀ c, σ.mem.cproc c ≠ some p)) ∧
    ∀ c c', σ.mem.cur c = σ.mem.cur c' → c = c' := by
  obtain ⟨G, hcoh⟩ := coh_of_reachable h
  have hp := hcoh.placed
  refine ⟨fun hfree p => ⟨fun hrun => ?_, fun hrun c hc => ?_⟩, fun c c' hcc => ?_⟩
  · obtain ⟨c, hc⟩ := hp.running p hrun
    exact ⟨c, hc, fun c' hc' => hp.uniq c' c p hc' hc⟩
  · rcases hp.state_of_cproc hc with hr | hlock
    · exact hrun hr
    · rw [hfree] at hlock
      cases hlock
  · exact hp.cur_inj hcc rfl

/-- CPU 0 enters its scheduler, picks the first process and switches to it; the
    process releases the lock. -/
def firstRun : List (Machine.Label (Fin 2) (Option (Call Empty Empty)) (Irq Empty)) :=
  .call 0 none :: List.replicate 6 (.step 0)

theorem process_on_one_cpu_first :
    ∃ σ : Machine.Config (Fin 2) (Kernel (Fin 2) Empty Empty Unit) (Thread (Fin 2)) Act,
      LTS.Reachable (system (fun _ => True) call trap) σ ∧ σ.mem.lock .ptable = none ∧
      (σ.mem.proc initproc).state = .RUNNING ∧ ∃! c, σ.mem.cproc c = some initproc := by
  have hrun : ((system (fun _ : Unit => True) call trap).exec (fun _ _ => true)
      (boot () : Machine.Config (Fin 2) (Kernel (Fin 2) Empty Empty Unit) (Thread (Fin 2)) Act)
      firstRun).any (fun σ => decide (σ.mem.lock .ptable = none ∧
        (σ.mem.proc initproc).state = .RUNNING)) = true := by
    decide +kernel
  obtain ⟨σ, hσ, hfree, hst⟩ := LTS.exists_run_of_exec hrun
  have hreach : LTS.Reachable (system (fun _ => True) call trap) σ :=
    (reachable_of_boot trivial hσ).of_restrict
  exact ⟨σ, hreach, hfree, hst, ((process_on_one_cpu _ σ hreach).1 hfree initproc).1 hst⟩

end Xv6.Kern
