import Xv6.Kern.Ghost

/-! # What one action of a kernel thread can do

    `Trans` lists the steps of a kernel thread: how the memory changes, how
    the ghost state of the thread changes with it, and what the thread must
    own and know for it. Every step keeps the ghost states coherent
    (`Trans.coh`). `May l x` is up to the users of `sleep`: a thread that has
    added `x` to its ghost state may give up the lock `l`.
-/

namespace Xv6.Kern

open Function

variable {C L K E Γ : Type}

section

variable [DecidableEq C] [DecidableEq L] [DecidableEq K]

/-- The steps of thread `t` on CPU `c`. -/
inductive Trans (May : Lock L → Γ → Prop) (t : Thread C) (c : C) (G : Thread C → Ghost L K Γ) (s : Kernel C L K E) :
    Act → Kernel C L K E → Ghost L K Γ → Prop where
  | quiet {l : Act} : Trans May t c G s l s (G t)
  -- locks
  | acquire {l : Lock L} (hfree : s.lock l = none) (hon : ∀ p, t = .proc p → (G t).phase = .on) :
      Trans May t c G s .other (s.take l c) { G t with locks := insert l (G t).locks }
  | release {a : Act} {l : L} (hl : .other l ∈ (G t).locks)
      (hon : ∀ p, t = .proc p → (G t).phase = .on) (hmay : May (.other l) (G t).extra) :
      Trans May t c G s a (s.give (.other l) c)
        { G t with locks := (G t).locks.erase (.other l) }
  | unlock (hl : .ptable ∈ (G t).locks) (hon : ∀ p, t = .proc p → (G t).phase = .on)
      (hpick : ∀ d, t = .sched d → (G t).pick = none) (hdue : (G t).due = none)
      (hmay : May .ptable (G t).extra) :
      Trans May t c G s .other (s.give .ptable c)
        { (G t).forget with locks := (G t).locks.erase .ptable }
  -- giving up the CPU
  | yields {p : Slot} (ht : t = .proc p) (htab : .ptable ∈ (G t).locks) (hon : (G t).phase = .on)
      (hdue : (G t).due = none) (hmay : May .ptable (G t).extra) :
      Trans May t c G s .other (s.setProc p fun pr => { pr with state := .RUNNABLE })
        { (G t).forget with phase := .off }
  | sleeps {p : Slot} {chan : Chan K} (ht : t = .proc p) (htab : .ptable ∈ (G t).locks)
      (hon : (G t).phase = .on) (hdue : (G t).due = some (.sleep chan)) (hmay : May .ptable (G t).extra)
      (hscan : ∀ q, chan = .proc q → q = p ∧ ∀ r, r ∈ (G t).scan) :
      Trans May t c G s .other
        (s.setProc p fun pr => { pr with chan := some chan, state := .SLEEPING, naps := pr.naps + 1 })
        { (G t).forget with phase := .off, due := none }
  | exits {p : Slot} (ht : t = .proc p) (htab : .ptable ∈ (G t).locks) (hon : (G t).phase = .on)
      (hdue : (G t).due = none) (hmay : May .ptable (G t).extra) (hchild : (G t).child = none)
      (hinit : p ≠ initproc) (hmoved : ∀ q, q ∈ (G t).moved)
      (hwoken : ∀ q, (s.proc p).parent = some q → q ∈ (G t).woken (some (.proc q))) :
      Trans May t c G s .other
        { s.setProc p fun pr => { pr with state := .ZOMBIE } with
          exits := s.exits ++ [(s.proc p).pid] }
        { (G t).forget with phase := .off }
  -- switching
  | leave {p : Slot} (ht : t = .proc p) (hlocks : (G t).locks = {.ptable})
      (hoff : (G t).phase = .off) (hdue : (G t).due = none) (hmay : May .ptable (G t).extra) :
      Trans May t c G s .other
        ((s.setProc p fun pr => { pr with context := .sched }).goto c (.sched c))
        { (G t).forget with phase := .away }
  | land {l : Act} {p : Slot} (ht : t = .proc p) (haway : (G t).phase = .away) :
      Trans May t c G s l s { G t with phase := .on }
  | pick {p : Slot} (ht : t = .sched c) (htab : .ptable ∈ (G t).locks) (hpick : (G t).pick = none)
      (hrun : (s.proc p).state = .RUNNABLE) :
      Trans May t c G s .other
        ((s.setProc p fun pr => { pr with state := .RUNNING }).setCproc c (some p))
        { G t with pick := some (p, true) }
  | swtch {p : Slot} (ht : t = .sched c) (hlocks : (G t).locks = {.ptable})
      (hpick : (G t).pick = some (p, true)) (hdue : (G t).due = none)
      (hmay : May .ptable (G t).extra) :
      Trans May t c G s .other (s.goto c (.proc p)) { (G t).forget with pick := some (p, false) }
  | unpick {p : Slot} (ht : t = .sched c) (hpick : (G t).pick = some (p, false)) :
      Trans May t c G s .other (s.setCproc c none) { G t with pick := none }
  -- the process table
  | wake {chan : Option (Chan K)} {q : Slot} (htab : .ptable ∈ (G t).locks) :
      Trans May t c G s .other (s.setProc q (Proc.wake chan))
        { G t with woken := update (G t).woken chan (insert q ((G t).woken chan)) }
  | kill {q : Slot} {pid : BitVec 32} (htab : .ptable ∈ (G t).locks) (hdue : (G t).due = none)
      (hpid : (s.proc q).pid = pid) :
      Trans May t c G s (.kill q pid) (s.setProc q fun pr => { pr with killed := true, hit := true })
        { G t with due := some (.rouse q) }
  | rouse {q : Slot} (htab : .ptable ∈ (G t).locks) (hdue : (G t).due = some (.rouse q)) :
      Trans May t c G s .other (s.setProc q Proc.rouse) { G t with due := none }
  | alloc {p np : Slot} (ht : t = .proc p) (htab : .ptable ∈ (G t).locks)
      (hfree : (s.proc np).state = .UNUSED) :
      Trans May t c G s .alloc
        { s.setProc np fun pr => { pr with state := .EMBRYO, pid := s.nextpid, hit := false } with
          nextpid := s.nextpid + 1 }
        { G t with child := some (np, false) }
  | unalloc {np : Slot} (hchild : (G t).child = some (np, false)) :
      Trans May t c G s (.unalloc np) (s.setProc np fun pr => { pr with state := .UNUSED })
        { G t with child := none }
  | ready {np : Slot} {b : Bool} (hchild : (G t).child = some (np, b)) :
      Trans May t c G s .other (s.setProc np fun pr => { pr with context := .forkret }) (G t)
  | adopt {p np : Slot} (ht : t = .proc p) (hon : (G t).phase = .on)
      (htab : .ptable ∉ (G t).locks) (hchild : (G t).child = some (np, false)) :
      Trans May t c G s .other (s.setProc np fun pr => { pr with parent := some p })
        { G t with child := some (np, true) }
  | born {np : Slot} (htab : .ptable ∈ (G t).locks) (hchild : (G t).child = some (np, true)) :
      Trans May t c G s .other (s.setProc np fun pr => { pr with state := .RUNNABLE })
        { G t with child := none }
  | reparent {p q : Slot} (ht : t = .proc p) (htab : .ptable ∈ (G t).locks)
      (hchild : (G t).child = none) (hinit : p ≠ initproc) :
      Trans May t c G s .other (s.reparent p q) { G t with moved := insert q (G t).moved }
  | reap {p q : Slot} (ht : t = .proc p) (htab : .ptable ∈ (G t).locks)
      (hparent : (s.proc q).parent = some p) (hzombie : (s.proc q).state = .ZOMBIE)
      (hgot : (G t).got = none) :
      Trans May t c G s .other
        { s.setProc q fun pr =>
            { pr with pid := 0, parent := none, killed := false, state := .UNUSED } with
          waits := s.waits ++ [(p, s.proc q)] }
        { G t with got := some (s.proc q).pid }
  | returns {p : Slot} (ht : t = .proc p) :
      Trans May t c G s .other
        { s with rets := s.rets ++ [(p, (G t).got.elim (-1) BitVec.toInt)] }
        { G t with got := none }
  | scanned {p q : Slot} (ht : t = .proc p) (htab : .ptable ∈ (G t).locks)
      (hq : ¬ ((s.proc q).parent = some p ∧ (s.proc q).state = .ZOMBIE)) :
      Trans May t c G s .other s { G t with scan := insert q (G t).scan }
  | kin {p : Slot} (ht : t = .proc p) (htab : .ptable ∈ (G t).locks) (hon : (G t).phase = .on) :
      Trans May t c G s .other s { G t with kin := some (s.proc p).parent }
  | tidy {p : Slot} (ht : t = .proc p) (hon : (G t).phase = .on) :
      Trans May t c G s .other (s.setProc p fun pr => { pr with chan := none }) (G t)

end

variable {s s' : Kernel C L K E} {G : Thread C → Ghost L K Γ} {t : Thread C} {c : C}
  {g' : Ghost L K Γ} {pr : Proc K}

@[simp] theorem setProc_self (p : Slot) (f : Proc K → Proc K) :
    (s.setProc p f).proc p = f (s.proc p) := by
  simp [Kernel.setProc]

theorem setProc_ne {p q : Slot} (h : q ≠ p) (f : Proc K → Proc K) :
    (s.setProc p f).proc q = s.proc q := by
  simp [Kernel.setProc, h]

/-- What holds of a slot afterwards held of it before, if the change made no
    difference to it. -/
theorem of_setProc {P : Proc K → Prop} {p q : Slot} {f : Proc K → Proc K}
    (hf : P (f (s.proc p)) → P (s.proc p)) (h : P ((s.setProc p f).proc q)) : P (s.proc q) := by
  by_cases hqp : q = p
  · subst hqp
    rw [setProc_self] at h
    exact hf h
  · rw [setProc_ne hqp] at h
    exact h

theorem setProc_setProc (p : Slot) (f f' : Proc K → Proc K) :
    (s.setProc p f).setProc p f' = s.setProc p fun pr => f' (f pr) := by
  simp [Kernel.setProc]

theorem rouse_of_ne (h : pr.state ≠ .SLEEPING) : pr.rouse = pr := by
  unfold Proc.rouse
  rw [if_neg h]

theorem rouse_of_eq (h : pr.state = .SLEEPING) : pr.rouse = { pr with state := .RUNNABLE } := by
  unfold Proc.rouse
  rw [if_pos h]

section

variable [DecidableEq K] {chan : Option (Chan K)} {x : ProcState}

theorem wake_state (chan : Option (Chan K)) (pr : Proc K) :
    (pr.wake chan).state = pr.state ∨
      pr.state = .SLEEPING ∧ pr.chan = chan ∧ (pr.wake chan).state = .RUNNABLE := by
  unfold Proc.wake
  split
  case isTrue h => exact Or.inr ⟨h.1, h.2, rfl⟩
  case isFalse => exact Or.inl rfl

theorem wake_of_ne (h : pr.state ≠ .SLEEPING) : pr.wake chan = pr := by
  unfold Proc.wake
  rw [if_neg fun hs => h hs.1]

/-- A state that is not RUNNABLE has not been changed. -/
theorem wake_state_of (h : (pr.wake chan).state = x) (hx : x ≠ .RUNNABLE) : pr.state = x := by
  rcases wake_state chan pr with heq | ⟨_, _, hrun⟩
  · rw [← heq]
    exact h
  · rw [hrun] at h
    exact absurd h.symm hx

@[simp] theorem wake_parent (chan : Option (Chan K)) (pr : Proc K) :
    (pr.wake chan).parent = pr.parent := by
  unfold Proc.wake
  split <;> rfl

@[simp] theorem wake_chan (chan : Option (Chan K)) (pr : Proc K) :
    (pr.wake chan).chan = pr.chan := by
  unfold Proc.wake
  split <;> rfl

@[simp] theorem wake_pid (chan : Option (Chan K)) (pr : Proc K) :
    (pr.wake chan).pid = pr.pid := by
  unfold Proc.wake
  split <;> rfl

theorem wake_not_asleep (chan : Option (Chan K)) (pr : Proc K) :
    ¬ ((pr.wake chan).state = .SLEEPING ∧ pr.chan = chan) := by
  unfold Proc.wake
  split
  case isTrue => simp
  case isFalse h => exact h

theorem reparent_parent (p q r : Slot) : ((s.reparent p q).proc r).parent =
    if r = q ∧ (s.proc q).parent = some p then some initproc else (s.proc r).parent := by
  unfold Kernel.reparent
  split
  case isFalse h => simp [h]
  case isTrue h =>
    by_cases hr : r = q
    · subst hr
      split <;> simp [h]
    · split <;> simp [setProc_ne hr, hr]

theorem reparent_state (p q r : Slot) : ((s.reparent p q).proc r).state = (s.proc r).state ∨
    (s.proc r).state = .SLEEPING ∧ (s.proc r).chan = some (.proc initproc) ∧
      ((s.reparent p q).proc r).state = .RUNNABLE := by
  unfold Kernel.reparent
  have hset : ∀ r, ((s.setProc q fun pr => { pr with parent := some initproc }).proc r).state =
      (s.proc r).state ∧ ((s.setProc q fun pr => { pr with parent := some initproc }).proc r).chan =
      (s.proc r).chan := by
    intro r
    by_cases hr : r = q
    · subst hr
      simp
    · simp [setProc_ne hr]
  split
  case isFalse => exact Or.inl rfl
  case isTrue =>
    split
    case isFalse => exact Or.inl (hset r).1
    case isTrue =>
      rw [← (hset r).1, ← (hset r).2]
      exact wake_state _ _

/-- Nothing but the parent and the state changes. -/
theorem reparent_proc (p q r : Slot) : (s.reparent p q).proc r =
    { s.proc r with
      parent := ((s.reparent p q).proc r).parent
      state := ((s.reparent p q).proc r).state } := by
  have hwake : ∀ (chan : Option (Chan K)) (pr : Proc K),
      pr.wake chan = { pr with state := (pr.wake chan).state } := by
    intro chan pr
    unfold Proc.wake
    split <;> rfl
  unfold Kernel.reparent
  by_cases hr : r = q
  · subst hr
    split
    case isFalse => rfl
    case isTrue =>
      split
      · dsimp only
        rw [setProc_self, hwake]
      · rw [setProc_self]
  · split
    case isFalse => rfl
    case isTrue =>
      split
      · dsimp only
        rw [setProc_ne hr, hwake]
      · rw [setProc_ne hr]

theorem reparent_chan (p q r : Slot) :
    ((s.reparent p q).proc r).chan = (s.proc r).chan := by
  rw [reparent_proc]

theorem reparent_pid (p q r : Slot) : ((s.reparent p q).proc r).pid = (s.proc r).pid := by
  rw [reparent_proc]

/-- A zombie that passes to init wakes it. -/
theorem reparent_wakes {p q : Slot} (hq : (s.proc q).parent = some p)
    (hz : (s.proc q).state = .ZOMBIE) :
    ¬ (s.reparent p q).Asleep initproc (some (.proc initproc)) := by
  unfold Kernel.reparent Kernel.Asleep
  rw [if_pos hq, if_pos hz]
  simp only [wake_chan]
  exact wake_not_asleep _ _

theorem reparent_state_of {p q r : Slot} (h : ((s.reparent p q).proc r).state = x)
    (hx : x ≠ .RUNNABLE) : (s.proc r).state = x := by
  rcases reparent_state (s := s) p q r with heq | ⟨_, _, hrun⟩
  · rw [← heq]
    exact h
  · rw [hrun] at h
    exact absurd h.symm hx

end

/-- Slots that `fork` fills are not affected by a change of another slot. -/
theorem embryo_setProc {p : Slot} {f : Proc K → Proc K}
    (h : (s.proc p).state = .EMBRYO →
      (f (s.proc p)).state = .EMBRYO ∧ (f (s.proc p)).parent = (s.proc p).parent)
    (q : Slot) (hq : (s.proc q).state = .EMBRYO) :
    ((s.setProc p f).proc q).state = .EMBRYO ∧
      ((s.setProc p f).proc q).parent = (s.proc q).parent := by
  by_cases hqp : q = p
  · subst hqp
    rw [setProc_self]
    exact h hq
  · rw [setProc_ne hqp]
    exact ⟨hq, rfl⟩

/-- Only the thread that holds `ptable.lock` is active. -/
theorem Placed.only_active (h : Placed s G) (hc : s.cur c = t) (htab : .ptable ∈ (G t).locks)
    {r : Thread C} (hr : s.Active r) : r = t :=
  Active.unique hr (h.active hc htab)

variable [DecidableEq C]

/-! ## Changes of the process table -/

/-- The CPUs are where they were, and hold what they held. -/
theorem Placed.table (h : Placed s G) (hc : s.cur c = t) (hlock : s'.lock = s.lock)
    (hncli : s'.ncli = s.ncli) (hcur : s'.cur = s.cur) (hcproc : s'.cproc = s.cproc)
    (hlocks : g'.locks = (G t).locks) (hpick : g'.pick = (G t).pick)
    (hrun : ∀ q, t ≠ .proc q → ((s'.proc q).state = .RUNNING ↔ (s.proc q).state = .RUNNING))
    (hself : ∀ p, t = .proc p → ((s'.proc p).state = .RUNNING ↔ g'.phase ≠ .off))
    (hoff : g'.phase = (G t).phase ∨ .ptable ∈ (G t).locks ∧ g'.phase ≠ .away ∨
      g'.phase = .on) :
    Placed s' (update G t g') := by
  have hlk : ∀ r, (update G t g' r).locks = (G r).locks := by
    intro r
    by_cases hr : r = t
    · subst hr
      simp [hlocks]
    · rw [update_of_ne hr]
  have hpk : ∀ r, (update G t g' r).pick = (G r).pick := by
    intro r
    by_cases hr : r = t
    · subst hr
      simp [hpick]
    · rw [update_of_ne hr]
  -- a CPU that has a process in `c->proc` without executing it is in its scheduler
  have hback : ∀ d p, s.cur d = .sched d → (G (.sched d)).pick.map Prod.fst = some p →
      t ≠ .proc p := by
    intro d p hd hp ht
    subst ht
    have h1 := h.cproc_of_cur hc
    have h2 : s.cproc d = some p := by rw [h.cproc]; exact hp
    have hcd := h.uniq c d p h1 h2
    rw [hcd, hd] at hc
    cases hc
  refine ⟨fun d l => ?_, fun d => ?_, fun d => ?_, fun d => ?_, fun d p hd => ?_,
    fun d p b hd hp => ?_, fun d d' p => ?_, fun p hp => ?_, fun d p hd => ?_, fun p hp => ?_,
    fun p hp => ?_, fun p hp => ?_⟩
  · rw [hlock, hcur, hlk]
    exact h.lock d l
  · rw [hncli, hcur, hlk]
    exact h.ncli d
  · rw [hcur]
    exact h.cur d
  · rw [hcproc, hpk]
    exact h.cproc d
  · rw [hcur] at hd
    rw [hlk, hpk]
    exact h.gone d p hd
  · rw [hcur] at hd
    rw [hpk] at hp
    rw [hlk, hrun p (hback d p hd (by rw [hp]; rfl))]
    exact h.back d p b hd hp
  · rw [hcproc]
    exact h.uniq d d' p
  · rw [hcproc]
    by_cases ht : t = .proc p
    · subst ht
      exact ⟨c, h.cproc_of_cur hc⟩
    · exact h.running p ((hrun p ht).mp hp)
  · rw [hcur] at hd
    by_cases ht : t = .proc p
    · subst ht
      rw [update_self]
      exact hself p rfl
    · rw [update_of_ne (Ne.symm ht), hrun p ht]
      exact h.here d p hd
  · by_cases ht : t = .proc p
    · subst ht
      rw [update_self] at hp ⊢
      rw [hlocks]
      rcases hoff with hsame | ⟨htab, _⟩ | hon
      · exact h.holds p (by rw [← hsame]; exact hp)
      · exact htab
      · exact absurd hon hp
    · rw [update_of_ne (Ne.symm ht)] at hp ⊢
      exact h.holds p hp
  · rw [hcur] at hp
    by_cases ht : t = .proc p
    · subst ht
      exact absurd hc (hp c)
    · rw [update_of_ne (Ne.symm ht)]
      exact h.away p hp
  · rw [hlk]
    by_cases ht : t = .proc p
    · subst ht
      rw [update_self] at hp
      rcases hoff with hsame | ⟨_, hne⟩ | hon
      · exact h.only p (by rw [← hsame]; exact hp)
      · exact absurd hp hne
      · rw [hon] at hp
        cases hp
    · rw [update_of_ne (Ne.symm ht)] at hp
      exact h.only p hp

/-- What the others know survives a change of the process table. -/
theorem Tied.table (h : Tied s G) (hlock : s'.lock = s.lock) (hcur : s'.cur = s.cur)
    (hchild : ∀ np b, g'.child = some (np, b) → (s'.proc np).state = .EMBRYO ∧
      (b = true → ∃ p, t = .proc p ∧ (s'.proc np).parent = some p) ∧
      ∀ r, r ≠ t → ∀ b', (G r).child ≠ some (np, b'))
    (hchild' : ∀ r, r ≠ t → ∀ np b, (G r).child = some (np, b) → (s.proc np).state = .EMBRYO →
      (s'.proc np).state = .EMBRYO ∧
      ∀ p, r = .proc p → (s.proc np).parent = some p → (s'.proc np).parent = some p)
    (hdue : g'.due ≠ none → s.Active t)
    (hwoken : ∀ chan q, q ∈ g'.woken chan → s.Active t ∧ ¬ s'.Asleep q chan)
    (hscan : ∀ q, q ∈ g'.scan → s.Active t ∧
      ∀ p, t = .proc p → ¬ ((s'.proc q).parent = some p ∧ (s'.proc q).state = .ZOMBIE))
    (hmoved : ∀ q, q ∈ g'.moved → s.Active t ∧ ∀ p, t = .proc p → (s'.proc q).parent ≠ some p)
    (hothers : ∀ r, r ≠ t → s.Active r → (∀ chan q, s'.Asleep q chan → s.Asleep q chan) ∧
      ∀ p, r = .proc p → ∀ q, (s'.proc q).parent = some p →
        (s.proc q).parent = some p ∧ ((s'.proc q).state = .ZOMBIE → (s.proc q).state = .ZOMBIE)) :
    Tied s' (update G t g') := by
  have hact : ∀ r, s'.Active r ↔ s.Active r := by
    intro r
    unfold Kernel.Active
    rw [hlock, hcur]
  refine ⟨fun r np b hr => ?_, fun r r' np b b' hr hr' => ?_, fun r hr => ?_, fun r chan q hr => ?_,
    fun r q hr => ?_, fun r q hr => ?_⟩
  · by_cases hrt : r = t
    · subst hrt
      rw [update_self] at hr
      obtain ⟨h1, h2, _⟩ := hchild np b hr
      exact ⟨h1, h2⟩
    · rw [update_of_ne hrt] at hr
      obtain ⟨hst, hpar⟩ := h.child r np b hr
      obtain ⟨h1, h2⟩ := hchild' r hrt np b hr hst
      refine ⟨h1, fun hb => ?_⟩
      obtain ⟨p, hp, hpp⟩ := hpar hb
      exact ⟨p, hp, h2 p hp hpp⟩
  · by_cases hrt : r = t
    · by_cases hrt' : r' = t
      · rw [hrt, hrt']
      · subst hrt
        rw [update_self] at hr
        rw [update_of_ne hrt'] at hr'
        exact absurd hr' ((hchild np b hr).2.2 r' hrt' b')
    · rw [update_of_ne hrt] at hr
      by_cases hrt' : r' = t
      · subst hrt'
        rw [update_self] at hr'
        exact absurd hr ((hchild np b' hr').2.2 r hrt b)
      · rw [update_of_ne hrt'] at hr'
        exact h.child_uniq r r' np b b' hr hr'
  · rw [hact]
    by_cases hrt : r = t
    · subst hrt
      rw [update_self] at hr
      exact hdue hr
    · rw [update_of_ne hrt] at hr
      exact h.due r hr
  · rw [hact]
    by_cases hrt : r = t
    · subst hrt
      rw [update_self] at hr
      exact hwoken chan q hr
    · rw [update_of_ne hrt] at hr
      obtain ⟨ha, hna⟩ := h.woken r chan q hr
      exact ⟨ha, fun h' => hna ((hothers r hrt ha).1 chan q h')⟩
  · rw [hact]
    by_cases hrt : r = t
    · subst hrt
      rw [update_self] at hr
      exact hscan q hr
    · rw [update_of_ne hrt] at hr
      obtain ⟨ha, hna⟩ := h.scan r q hr
      refine ⟨ha, fun p hp h' => hna p hp ?_⟩
      obtain ⟨h1, h2⟩ := (hothers r hrt ha).2 p hp q h'.1
      exact ⟨h1, h2 h'.2⟩
  · rw [hact]
    by_cases hrt : r = t
    · subst hrt
      rw [update_self] at hr
      exact hmoved q hr
    · rw [update_of_ne hrt] at hr
      obtain ⟨ha, hna⟩ := h.moved r q hr
      exact ⟨ha, fun p hp h' => hna p hp ((hothers r hrt ha).2 p hp q h').1⟩

/-! ## Locks -/

/-- The CPU `c` takes or gives a lock. -/
theorem Placed.relock (h : Placed s G) (hc : s.cur c = t) (hproc : s'.proc = s.proc)
    (hcur : s'.cur = s.cur) (hcproc : s'.cproc = s.cproc)
    (hlock : ∀ l, s'.lock l = some c ↔ l ∈ g'.locks)
    (hlock' : ∀ d, d ≠ c → ∀ l, s'.lock l = some d ↔ s.lock l = some d)
    (hncli : s'.ncli c = g'.locks.card) (hncli' : ∀ d, d ≠ c → s'.ncli d = s.ncli d)
    (hon : ∀ p, t = .proc p → (G t).phase = .on) (hphase : ∀ p, t = .proc p → g'.phase = .on)
    (hpick : g'.pick = (G t).pick)
    (hkeep : ∀ d, t = .sched d → (G t).pick ≠ none → .ptable ∈ (G t).locks → .ptable ∈ g'.locks) :
    Placed s' (update G t g') := by
  have hpk : ∀ r, (update G t g' r).pick = (G r).pick := by
    intro r
    by_cases hr : r = t
    · subst hr
      simp [hpick]
    · rw [update_of_ne hr]
  have hcurne : ∀ d, d ≠ c → s.cur d ≠ t := fun d hd hdt => hd (h.cur_inj hdt hc)
  refine ⟨fun d l => ?_, fun d => ?_, fun d => ?_, fun d => ?_, fun d p hd => ?_,
    fun d p b hd hp => ?_, fun d d' p => ?_, fun p hp => ?_, fun d p hd => ?_, fun p hp => ?_,
    fun p hp => ?_, fun p hp => ?_⟩
  · rw [hcur]
    by_cases hd : d = c
    · subst hd
      rw [hc, update_self]
      exact hlock l
    · rw [update_of_ne (hcurne d hd), hlock' d hd]
      exact h.lock d l
  · rw [hcur]
    by_cases hd : d = c
    · subst hd
      rw [hc, update_self]
      exact hncli
    · rw [update_of_ne (hcurne d hd), hncli' d hd]
      exact h.ncli d
  · rw [hcur]
    exact h.cur d
  · rw [hcproc, hpk]
    exact h.cproc d
  · rw [hcur] at hd
    rw [hpk]
    have hne : Thread.sched d ≠ t := by
      rintro rfl
      rcases h.cur c with hs | ⟨q, hq⟩
      · rw [hs] at hc
        cases hc
        rw [hd] at hs
        cases hs
      · rw [hq] at hc
        cases hc
    rw [update_of_ne hne]
    exact h.gone d p hd
  · rw [hcur] at hd
    rw [hpk] at hp
    rw [hproc]
    obtain ⟨htab, hst⟩ := h.back d p b hd hp
    refine ⟨?_, hst⟩
    by_cases hr : Thread.sched d = t
    · subst hr
      rw [update_self]
      exact hkeep d rfl (by rw [hp]; simp) htab
    · rw [update_of_ne hr]
      exact htab
  · rw [hcproc]
    exact h.uniq d d' p
  · rw [hcproc]
    rw [hproc] at hp
    exact h.running p hp
  · rw [hcur] at hd
    rw [hproc]
    by_cases ht : t = .proc p
    · subst ht
      rw [update_self, hphase p rfl, h.here d p hd, hon p rfl]
    · rw [update_of_ne (Ne.symm ht)]
      exact h.here d p hd
  · by_cases ht : t = .proc p
    · subst ht
      rw [update_self] at hp
      exact absurd (hphase p rfl) hp
    · rw [update_of_ne (Ne.symm ht)] at hp ⊢
      exact h.holds p hp
  · rw [hcur] at hp
    by_cases ht : t = .proc p
    · subst ht
      exact absurd hc (hp c)
    · rw [update_of_ne (Ne.symm ht)]
      exact h.away p hp
  · by_cases ht : t = .proc p
    · subst ht
      rw [update_self, hphase p rfl] at hp
      cases hp
    · rw [update_of_ne (Ne.symm ht)] at hp ⊢
      exact h.only p hp

@[simp] theorem give_other_lock [DecidableEq L] (k : L) :
    (s.give (.other k) c).lock .ptable = s.lock .ptable := by
  simp [Kernel.give]

theorem Placed.acquire [DecidableEq L] (h : Placed s G) (hc : s.cur c = t) {l : Lock L} (hfree : s.lock l = none)
    (hon : ∀ p, t = .proc p → (G t).phase = .on) :
    Placed (s.take l c) (update G t { G t with locks := insert l (G t).locks }) := by
  have hnot : ∀ d, l ∉ (G (s.cur d)).locks := by
    intro d hd
    rw [← h.lock, hfree] at hd
    cases hd
  refine h.relock hc rfl rfl rfl (fun l' => ?_) (fun d hd l' => ?_) ?_ (fun d hd => ?_) hon hon rfl
    fun _ _ _ => Finset.mem_insert_of_mem
  · by_cases hl : l' = l
    · subst hl
      simp [Kernel.take]
    · simp only [Kernel.take, update_of_ne hl, Finset.mem_insert, hl, false_or]
      rw [h.lock, hc]
  · by_cases hl : l' = l
    · subst hl
      simp [Kernel.take, hfree, Ne.symm hd]
    · simp [Kernel.take, update_of_ne hl]
  · have := hnot c
    rw [hc] at this
    simp only [Kernel.take, update_self, Finset.card_insert_of_notMem this]
    rw [h.ncli, hc]
  · simp [Kernel.take, hd]

theorem Placed.release [DecidableEq L] (h : Placed s G) (hc : s.cur c = t) {l : Lock L} (hl : l ∈ (G t).locks)
    (hon : ∀ p, t = .proc p → (G t).phase = .on) (hlocks : g'.locks = (G t).locks.erase l)
    (hphase : ∀ p, t = .proc p → g'.phase = .on) (hpick : g'.pick = (G t).pick)
    (hkeep : l = .ptable → ∀ d, t = .sched d → (G t).pick = none) :
    Placed (s.give l c) (update G t g') := by
  have hlock := (h.lock c l).mpr (by rw [hc]; exact hl)
  refine h.relock hc rfl rfl rfl (fun l' => ?_) (fun d hd l' => ?_) ?_ (fun d hd => ?_) hon hphase
    hpick fun d hd hp htab => ?_
  · rw [hlocks]
    by_cases hl' : l' = l
    · subst hl'
      simp [Kernel.give]
    · simp only [Kernel.give, update_of_ne hl', Finset.mem_erase, ne_eq, hl',
        not_false_eq_true, true_and]
      rw [h.lock, hc]
  · by_cases hl' : l' = l
    · subst hl'
      simp [Kernel.give, hlock, Ne.symm hd]
    · simp [Kernel.give, update_of_ne hl']
  · rw [hlocks]
    simp only [Kernel.give, update_self, Finset.card_erase_of_mem hl]
    rw [h.ncli, hc]
  · simp [Kernel.give, hd]
  · rw [hlocks, Finset.mem_erase]
    refine ⟨?_, htab⟩
    rintro rfl
    exact hp (hkeep rfl d hd)

/-- What threads know survives when `ptable.lock` stays where it is. -/
theorem Tied.relock (h : Tied s G) (hproc : s'.proc = s.proc) (hcur : s'.cur = s.cur)
    (hlock : s'.lock .ptable = s.lock .ptable) (hchild : g'.child = (G t).child)
    (hdue : g'.due ≠ none → s.Active t) (hwoken : g'.woken = (G t).woken)
    (hscan : g'.scan = (G t).scan) (hmoved : g'.moved = (G t).moved) :
    Tied s' (update G t g') := by
  have hact : ∀ r, s'.Active r ↔ s.Active r := by
    intro r
    unfold Kernel.Active
    rw [hlock, hcur]
  have heq : ∀ r, (update G t g' r).child = (G r).child ∧
      (update G t g' r).woken = (G r).woken ∧
      (update G t g' r).scan = (G r).scan ∧
      (update G t g' r).moved = (G r).moved := by
    intro r
    by_cases hr : r = t
    · subst hr
      rw [update_self]
      exact ⟨hchild, hwoken, hscan, hmoved⟩
    · rw [update_of_ne hr]
      exact ⟨rfl, rfl, rfl, rfl⟩
  refine ⟨fun r np b hr => ?_, fun r r' np b b' hr hr' => ?_, fun r hr => ?_, fun r chan q hr => ?_,
    fun r q hr => ?_, fun r q hr => ?_⟩
  · rw [hproc]
    exact h.child r np b (by rw [← (heq r).1]; exact hr)
  · exact h.child_uniq r r' np b b' (by rw [← (heq r).1]; exact hr) (by rw [← (heq r').1]; exact hr')
  · rw [hact]
    by_cases hrt : r = t
    · subst hrt
      rw [update_self] at hr
      exact hdue hr
    · rw [update_of_ne hrt] at hr
      exact h.due r hr
  · rw [hact]
    unfold Kernel.Asleep
    rw [hproc]
    exact h.woken r chan q (by rw [← (heq r).2.1]; exact hr)
  · rw [hact, hproc]
    exact h.scan r q (by rw [← (heq r).2.2.1]; exact hr)
  · rw [hact, hproc]
    exact h.moved r q (by rw [← (heq r).2.2.2]; exact hr)

/-- When `ptable.lock` or the CPU that holds it changes hands, nothing is known
    about the process table. -/
theorem Tied.switch (h : Tied s G) (hact : ∀ r, s.Active r → r = t)
    (hembryo : ∀ q, (s.proc q).state = .EMBRYO →
      (s'.proc q).state = .EMBRYO ∧ (s'.proc q).parent = (s.proc q).parent)
    (hchild : g'.child = (G t).child)
    (hdue : g'.due = none) (hwoken : ∀ chan q, q ∉ g'.woken chan) (hscan : ∀ q, q ∉ g'.scan)
    (hmoved : ∀ q, q ∉ g'.moved) : Tied s' (update G t g') := by
  have hch : ∀ r, (update G t g' r).child = (G r).child := by
    intro r
    by_cases hr : r = t
    · subst hr
      rw [update_self, hchild]
    · rw [update_of_ne hr]
  -- nobody but `t` was active, and `t` has forgotten what it knew
  have hnone : ∀ r, s.Active r → ¬ r ≠ t := fun r hr hne => hne (hact r hr)
  refine ⟨fun r np b hr => ?_, fun r r' np b b' hr hr' => ?_, fun r hr => ?_, fun r chan q hr => ?_,
    fun r q hr => ?_, fun r q hr => ?_⟩
  · rw [hch] at hr
    obtain ⟨hst, hpar⟩ := h.child r np b hr
    rw [(hembryo np hst).2]
    exact ⟨(hembryo np hst).1, hpar⟩
  · rw [hch] at hr hr'
    exact h.child_uniq r r' np b b' hr hr'
  · by_cases hrt : r = t
    · subst hrt
      rw [update_self] at hr
      exact absurd hdue hr
    · rw [update_of_ne hrt] at hr
      exact absurd hrt (hnone r (h.due r hr))
  · by_cases hrt : r = t
    · subst hrt
      rw [update_self] at hr
      exact absurd hr (hwoken chan q)
    · rw [update_of_ne hrt] at hr
      exact absurd hrt (hnone r (h.woken r chan q hr).1)
  · by_cases hrt : r = t
    · subst hrt
      rw [update_self] at hr
      exact absurd hr (hscan q)
    · rw [update_of_ne hrt] at hr
      exact absurd hrt (hnone r (h.scan r q hr).1)
  · by_cases hrt : r = t
    · subst hrt
      rw [update_self] at hr
      exact absurd hr (hmoved q)
    · rw [update_of_ne hrt] at hr
      exact absurd hrt (hnone r (h.moved r q hr).1)

end Xv6.Kern
