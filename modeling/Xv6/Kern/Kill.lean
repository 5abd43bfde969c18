import Xv6.Kern.Lifecycle

/-! # What `kill` hits

    `kill` looks for the first slot whose `pid` is the one it is given, and
    does not look at the state of the slot. A slot that has never been used
    and one that `wait` has freed have pid 0; one that a failed `fork` has
    given back keeps the pid it had. So `kill(0)` marks an UNUSED slot, and as
    `allocproc` does not reset `killed`, the next process that gets the slot is
    born with the mark.

    `kill` does what it should exactly when the first slot with that pid is not
    UNUSED. In runs in which `kill` marks neither UNUSED nor EMBRYO slots, a
    process is marked only if `kill` has been called with its pid since it was
    made.
-/

namespace Xv6.Kern

open Op Prog Function

variable {C L K E : Type}

/-- Running an action and what follows it, without interference. -/
theorem run_step {α β : Type} {l : Act} {m : KOp C L K E α} {f : α → KProg C L K E β} {a : α}
    {x y : C × Kernel C L K E} (h : m x = .ok a y) :
    ((Prog.atomic l m : KProg C L K E α) >>= f).run x = (f a).run y := by
  rw [run_bind, run_atomic, bind_of_ok h]

variable {s : Kernel C L K E} {c : C} {pid : BitVec 32} {s' : Kernel C L K E}

/-! ## `kill` alone -/

/-- The slot that `kill(pid)` finds. -/
def killTarget (s : Kernel C L K E) (pid : BitVec 32) : Option Slot :=
  (List.finRange NPROC).find? fun p => (s.proc p).pid = pid

/-- What `kill` does to the slot it finds. -/
def Proc.kill (pr : Proc K) : Proc K := Proc.rouse { pr with killed := true, hit := true }

/-- The memory after `kill(pid)`. -/
def killed_by (s : Kernel C L K E) (pid : BitVec 32) : Kernel C L K E :=
  match killTarget s pid with
  | some p => s.setProc p Proc.kill
  | none => s

/-- The call changes nothing but a live process with this pid, and returns -1
    and changes nothing when there is none. -/
def HitsOnly (s s' : Kernel C L K E) (pid : BitVec 32) (r : Int) : Prop :=
  (∀ p, s'.proc p ≠ s.proc p → (s.proc p).state ≠ .UNUSED ∧ (s.proc p).pid = pid) ∧
  ((∀ p, (s.proc p).state ≠ .UNUSED → (s.proc p).pid ≠ pid) → r = -1 ∧ s'.proc = s.proc)

/-- The slot that `kill(pid)` finds, if any, is in use. -/
def Aimed (s : Kernel C L K E) (pid : BitVec 32) : Prop :=
  ∀ p, killTarget s pid = some p → (s.proc p).state ≠ .UNUSED

/-- The slot that `kill` finds has the pid. -/
theorem pid_of_killTarget {p : Slot} (h : killTarget s pid = some p) : (s.proc p).pid = pid := by
  simpa using List.find?_some h

/-- `kill` hits only its target if and only if the slot it finds is in use. -/
theorem hitsOnly_iff (hstale : ∀ p q, (s.proc p).state = .UNUSED → (s.proc q).state ≠ .UNUSED →
      (s.proc p).pid ≠ (s.proc q).pid) :
    HitsOnly s (killed_by s pid) pid (if killTarget s pid = none then -1 else 0) ↔
      Aimed s pid := by
  unfold HitsOnly Aimed killed_by
  cases htarget : killTarget s pid with
  | none =>
    simp
  | some p =>
    have hpid := pid_of_killTarget htarget
    simp only [Option.some.injEq, reduceCtorEq, if_false]
    constructor
    · -- the call does not return -1, so there is a live process with this pid
      rintro ⟨_, hnone⟩ q rfl hq
      have hlive : ∀ r, (s.proc r).state ≠ .UNUSED → (s.proc r).pid ≠ pid := by
        intro r hr hrp
        exact hstale p r hq hr (by rw [hpid, hrp])
      have := (hnone hlive).1
      omega
    · intro haim
      have hlive := haim p rfl
      refine ⟨fun q hq => ?_, fun hnone => absurd hpid (hnone p hlive)⟩
      have hqp : q = p := by
        by_contra hne
        exact hq (setProc_ne hne _)
      subst hqp
      exact ⟨hlive, hpid⟩

theorem kill_scan_run (pid : BitVec 32) (ps : List Slot) :
    (kill_scan pid ps).run (c, s) = match ps.find? fun p => (s.proc p).pid = pid with
      | some p => .ok true (c, s.setProc p Proc.kill)
      | none => .ok false (c, s) := by
  induction ps with
  | nil => rfl
  | cons p ps ih =>
    unfold kill_scan
    by_cases hp : (s.proc p).pid = pid
    · rw [List.find?_cons_of_pos (by simpa using hp)]
      refine (run_step (a := true)
        (y := (c, s.setProc p fun pr => { pr with killed := true, hit := true })) ?_).trans ?_
      · rw [get_bind, if_pos hp]
        rfl
      · refine (run_step (a := ()) (y := (c, s.setProc p Proc.kill)) ?_).trans rfl
        change Outcome.ok () (c, (s.setProc p _).setProc p Proc.rouse) = _
        rw [setProc_setProc]
        rfl
    · rw [List.find?_cons_of_neg (by simpa using hp), ← ih]
      refine (run_step (a := false) (y := (c, s)) ?_).trans rfl
      rw [get_bind, if_neg hp]
      rfl

section

variable [DecidableEq C] [DecidableEq L]

/-- Taking and giving a lock leaves everything as it was. -/
theorem give_take_setProc (hfree : s.lock .ptable = none) (p : Slot) (f : Proc K → Proc K) :
    ((s.take .ptable c).setProc p f).give .ptable c = s.setProc p f := by
  have hlock : update s.lock .ptable none = s.lock := by
    rw [← hfree, update_eq_self]
  simp [Kernel.take, Kernel.give, Kernel.setProc, hlock]

theorem give_take (hfree : s.lock .ptable = none) : (s.take .ptable c).give .ptable c = s := by
  have hlock : update s.lock .ptable none = s.lock := by
    rw [← hfree, update_eq_self]
  simp [Kernel.take, Kernel.give, hlock]

/-- `kill` runs to its end when nobody holds `ptable.lock`. -/
theorem kill_run (hfree : s.lock .ptable = none) :
    (kill pid).run (c, s) =
      .ok (if killTarget s pid = none then -1 else 0) (c, killed_by s pid) := by
  have hrelease : ∀ (s' : Kernel C L K E) (r : Int), s'.lock .ptable = some c →
      ((release .ptable >>= fun _ => pure r) : KProg C L K E Int).run (c, s') =
        .ok r (c, s'.give .ptable c) := by
    intro s' r hs'
    refine (run_step (a := ()) (y := (c, s'.give .ptable c)) ?_).trans rfl
    unfold releases
    rw [get_bind, if_pos hs']
    rfl
  have hscan := kill_scan_run (s := s.take .ptable c) (c := c) pid (List.finRange NPROC)
  rw [show ((List.finRange NPROC).find? fun p => ((s.take .ptable c).proc p).pid = pid) =
    killTarget s pid from rfl] at hscan
  unfold kill killed_by
  refine (run_step (a := ()) (y := (c, s.take .ptable c)) ?_).trans ?_
  · rw [get_bind]
    simp only [hfree]
    rfl
  rw [run_bind]
  cases htarget : killTarget s pid with
  | none =>
    rw [htarget] at hscan
    rw [bind_of_ok hscan, hrelease _ _ (by simp [Kernel.take]), give_take hfree]
    rfl
  | some p =>
    rw [htarget] at hscan
    rw [bind_of_ok hscan, hrelease _ _ (by simp [Kernel.take, Kernel.setProc]),
      give_take_setProc hfree]
    rfl

end

/-! ## Runs -/

/-- `kill` marks no UNUSED slot, and no slot that it has marked is given back
    by `fork`. -/
def Aims (s : Kernel C L K E) (_ : C) : Act → Prop
  | .kill p pid => (s.proc p).pid = pid → (s.proc p).state ≠ .UNUSED
  | .unalloc p => (s.proc p).killed = false
  | _ => True

instance (s : Kernel C L K E) (c : C) : (l : Act) → Decidable (Aims s c l)
  | .kill p pid => inferInstanceAs (Decidable ((s.proc p).pid = pid → (s.proc p).state ≠ .UNUSED))
  | .unalloc p => inferInstanceAs (Decidable ((s.proc p).killed = false))
  | .alloc => .isTrue trivial
  | .fail => .isTrue trivial
  | .other => .isTrue trivial

/-- Who is marked has been hit, and an UNUSED slot is not marked. -/
structure Marks (s : Kernel C L K E) : Prop where
  hit : ∀ p, (s.proc p).killed = true → (s.proc p).hit = true
  fresh : ∀ p, (s.proc p).state = .UNUSED → (s.proc p).killed = false

theorem Marks.same (h : Marks s) (hproc : s'.proc = s.proc) : Marks s' := by
  refine ⟨fun p => ?_, fun p => ?_⟩ <;> rw [hproc]
  · exact h.hit p
  · exact h.fresh p

/-- One slot changes. -/
theorem Marks.change (h : Marks s) {q : Slot} {x : Proc K} (hproc : s'.proc = update s.proc q x)
    (hhit : x.killed = true → x.hit = true)
    (hfresh : x.state = .UNUSED → x.killed = false) : Marks s' := by
  refine ⟨fun p => ?_, fun p => ?_⟩ <;> rw [hproc] <;> by_cases hp : p = q
  · subst hp
    rw [update_self]
    exact hhit
  · rw [update_of_ne hp]
    exact h.hit p
  · subst hp
    rw [update_self]
    exact hfresh
  · rw [update_of_ne hp]
    exact h.fresh p

variable [DecidableEq C] [DecidableEq L] [DecidableEq K]

/-- The regime for marks. -/
def marks : Rules C L K E Unit where
  Inv s _ := Marks s
  Cond := Aims
  May _ _ := True
  rest := ()

theorem marks_step {May : Lock L → Unit → Prop} {G : Thread C → Ghost L K Unit} {t : Thread C}
    {l : Act} {g' : Ghost L K Unit} (h : Marks s) (hcond : Aims s c l)
    (htr : Trans May t c G s l s' g') : Marks s' := by
  have hmark := h.hit
  have hfresh := h.fresh
  cases htr with
  | quiet => exact h
  | acquire hfree hon => exact h.same rfl
  | release hl hon hmay => exact h.same rfl
  | unlock hl hon hpick hdue hmay => exact h.same rfl
  | land heq haway => exact h
  | swtch heq hlocks hpick hdue hmay => exact h.same rfl
  | unpick heq hpick => exact h.same rfl
  | scanned heq htab hq => exact h
  | kin heq htab hon => exact h
  | returns heq => exact h.same rfl
  | yields heq htab hon hdue hmay => exact h.change rfl (hmark _) (by simp)
  | sleeps heq htab hon hdue hmay hscan => exact h.change rfl (hmark _) (by simp)
  | exits heq htab hon hdue hmay hchild hinit hmoved hwoken => exact h.change rfl (hmark _) (by simp)
  | leave heq hlocks hoff hdue hmay => exact h.change rfl (hmark _) (hfresh _)
  | pick heq htab hpick hrun => exact h.change rfl (hmark _) (by simp)
  | @wake chan q htab =>
    refine h.change (q := q) (x := (s.proc q).wake chan) rfl ?_ ?_
    · unfold Proc.wake
      split <;> exact hmark q
    · unfold Proc.wake
      split
      case isTrue => simp
      case isFalse => exact hfresh q
  | @kill q pid htab hdue hpid =>
    exact h.change rfl (fun _ => rfl) fun hq => absurd hq (hcond hpid)
  | @rouse q htab hdue =>
    refine h.change (q := q) (x := (s.proc q).rouse) rfl ?_ ?_
    · unfold Proc.rouse
      split <;> exact hmark q
    · unfold Proc.rouse
      split
      case isTrue => simp
      case isFalse => exact hfresh q
  | @alloc p np heq htab hfree =>
    -- the mark of a free slot is clear
    have hclear := hfresh np hfree
    refine h.change rfl (fun hk => ?_) fun _ => hclear
    exact absurd (hclear.symm.trans hk) (by simp)
  | unalloc hchild => exact h.change rfl (hmark _) fun _ => hcond
  | ready hchild => exact h.change rfl (hmark _) (hfresh _)
  | adopt heq hon htab hchild => exact h.change rfl (hmark _) (hfresh _)
  | born htab hchild => exact h.change rfl (hmark _) (by simp)
  | @reparent p q heq htab hchild hinit =>
    refine ⟨fun r => ?_, fun r hr => ?_⟩
    · rw [reparent_proc]
      exact hmark r
    · rw [reparent_proc]
      exact hfresh r (reparent_state_of hr (by simp))
  | reap heq htab hparent hzombie hgot => exact h.change rfl nofun fun _ => rfl
  | tidy heq hon => exact h.change rfl (hmark _) (hfresh _)

theorem marks_lawful : (marks : Rules C L K E Unit).Lawful :=
  ⟨fun hat htr => marks_step hat.coh.2 hat.cond htr, fun hat _ _ _ => hat.coh.2,
    fun _ => trivial, fun _ _ _ => trivial⟩

omit [DecidableEq C] [DecidableEq L] [DecidableEq K] in
theorem boot_marks (e : E) : Marks (Kernel.boot e : Kernel C L K E) := by
  have hclear : ∀ p, ((Kernel.boot e : Kernel C L K E).proc p).killed = false := by
    intro p
    unfold Kernel.boot
    dsimp only
    split <;> rfl
  refine ⟨fun p hp => ?_, fun p _ => hclear p⟩
  rw [hclear] at hp
  cases hp

/-- `kill(pid)` hits only its target if and only if the slot it finds is not
    UNUSED; and in runs in which it marks no UNUSED slot and `fork` gives back
    no slot that it has marked, a process is marked only if `kill` was called
    with its pid after it was made. -/
theorem kill_hits_only_target (init : E → Prop)
    (σ : Machine.Config C (Kernel C L K E) (Thread C) Act) :
    (LTS.Reachable ((system init call trap).restrict (Meets NoOverflow)) σ →
      σ.mem.lock .ptable = none → ∀ c pid, ∃ r s', (kill pid).run (c, σ.mem) = .ok r (c, s') ∧
        (HitsOnly σ.mem s' pid r ↔ Aimed σ.mem pid)) ∧
    (LTS.Reachable ((system init call trap).restrict (Meets Aims)) σ →
      ∀ p, (σ.mem.proc p).state ≠ .UNUSED → (σ.mem.proc p).killed = true →
        (σ.mem.proc p).hit = true) := by
  constructor
  · intro h hfree c pid
    obtain ⟨G, hlife, _⟩ := reachable_life h
    exact ⟨_, _, kill_run hfree, hitsOnly_iff hlife.stale⟩
  · intro h p _
    have hinv := marks_lawful.sound (fun e _ => boot_marks e)
      (fun p x => safe_call marks_lawful x fun _ _ _ _ _ hat => hat.coh.2)
      (fun i _ _ hg hmay => safe_trap marks_lawful hg hmay i) h
    obtain ⟨_, G, ⟨_, hmarks⟩, _⟩ := hinv
    exact hmarks.hit p

/-! ## Runs with and without a target -/

/-- One CPU runs the first process. -/
abbrev OneCpu : Type 1 :=
  Machine.Config (Fin 1) (Kernel (Fin 1) Empty Empty Unit) (Thread (Fin 1)) Act

/-- The first process starts. -/
def initStarts : List (Machine.Label (Fin 1) (Option (Call Empty Empty)) (Irq Empty)) :=
  .call 0 none :: List.replicate 6 (.step 0)

/-- It forks a child and kills it. -/
def forkKill : List (Machine.Label (Fin 1) (Option (Call Empty Empty)) (Irq Empty)) :=
  initStarts ++ .call 0 (some (.sys (.fork true true))) :: List.replicate 10 (.step 0) ++
    .call 0 (some (.sys (.kill 2))) :: List.replicate 5 (.step 0)

/-- It calls `kill(0)` and then forks. -/
def killFork : List (Machine.Label (Fin 1) (Option (Call Empty Empty)) (Irq Empty)) :=
  initStarts ++ .call 0 (some (.sys (.kill 0))) :: List.replicate 5 (.step 0) ++
    .call 0 (some (.sys (.fork true true))) :: List.replicate 10 (.step 0)

theorem kill_hits_only_target_child :
    ∃ σ : OneCpu, LTS.Reachable ((system (fun _ => True) call trap).restrict (Meets NoOverflow)) σ ∧
      LTS.Reachable ((system (fun _ => True) call trap).restrict (Meets Aims)) σ ∧
      σ.mem.lock .ptable = none ∧ (σ.mem.proc 1).killed = true ∧ (σ.mem.proc 1).hit = true ∧
      ∃ r s', (kill 2).run (0, σ.mem) = .ok r (0, s') ∧ HitsOnly σ.mem s' 2 r := by
  have hrun : ((system (fun _ : Unit => True) call trap).exec
      (fun σ l => decide (Meets NoOverflow σ l) && decide (Meets Aims σ l)) (boot () : OneCpu)
      forkKill).any (fun σ => decide (σ.mem.lock .ptable = none ∧
        (σ.mem.proc 1).state = .RUNNABLE ∧ (σ.mem.proc 1).killed = true ∧
        killTarget σ.mem 2 = some 1)) = true := by
    decide +kernel
  obtain ⟨σ, hσ, hfree, hst, hkilled, htarget⟩ := LTS.exists_run_of_exec hrun
  have hreach := reachable_of_boot trivial hσ
  simp only [Bool.and_eq_true, decide_eq_true_eq] at hreach
  have hreach₁ := hreach.restrict_mono fun _ _ h => h.1
  have hreach₂ := hreach.restrict_mono fun _ _ h => h.2
  have hclaim := kill_hits_only_target (fun _ => True) σ
  obtain ⟨r, s', hkill, hiff⟩ := hclaim.1 hreach₁ hfree 0 2
  refine ⟨σ, hreach₁, hreach₂, hfree, hkilled,
    hclaim.2 hreach₂ 1 (by rw [hst]; simp) hkilled, r, s', hkill, hiff.mpr fun p hp => ?_⟩
  rw [htarget] at hp
  cases hp
  rw [hst]
  simp

/-- `kill(0)` returns 0 and marks a slot that is not in use; the child that
    gets the slot is marked from the start. -/
theorem kill_hits_unused_slot :
    (∃ σ : OneCpu, LTS.Reachable (system (fun _ => True) call trap) σ ∧
      σ.mem.lock .ptable = none ∧ (σ.mem.proc 1).state = .UNUSED ∧
      (σ.mem.proc 1).killed = false ∧
      ∃ s', (kill 0).run (0, σ.mem) = .ok 0 (0, s') ∧ (s'.proc 1).killed = true) ∧
    ∃ σ : OneCpu, LTS.Reachable (system (fun _ => True) call trap) σ ∧
      σ.mem.lock .ptable = none ∧ (σ.mem.proc 1).state = .RUNNABLE ∧
      (σ.mem.proc 1).killed = true ∧ (σ.mem.proc 1).hit = false := by
  constructor
  · have hrun : ((system (fun _ : Unit => True) call trap).exec (fun _ _ => true) (boot () : OneCpu)
        initStarts).any (fun σ => decide (σ.mem.lock .ptable = none ∧
          (σ.mem.proc 1).state = .UNUSED ∧ (σ.mem.proc 1).killed = false ∧
          killTarget σ.mem 0 = some 1)) = true := by
      decide +kernel
    obtain ⟨σ, hσ, hfree, hst, hkilled, htarget⟩ := LTS.exists_run_of_exec hrun
    refine ⟨σ, (reachable_of_boot trivial hσ).of_restrict, hfree, hst, hkilled,
      killed_by σ.mem 0, ?_, ?_⟩
    · rw [kill_run hfree, htarget]
      rfl
    · unfold killed_by
      rw [htarget]
      simp only [setProc_self, Proc.kill]
      rw [rouse_of_ne (by simp [hst])]
  · have hrun : ((system (fun _ : Unit => True) call trap).exec (fun _ _ => true) (boot () : OneCpu)
        killFork).any (fun σ => decide (σ.mem.lock .ptable = none ∧
          (σ.mem.proc 1).state = .RUNNABLE ∧ (σ.mem.proc 1).killed = true ∧
          (σ.mem.proc 1).hit = false)) = true := by
      decide +kernel
    obtain ⟨σ, hσ, hok⟩ := LTS.exists_run_of_exec hrun
    exact ⟨σ, (reachable_of_boot trivial hσ).of_restrict, hok⟩

end Xv6.Kern
