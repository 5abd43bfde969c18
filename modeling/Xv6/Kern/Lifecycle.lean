import Xv6.Kern.ExecCpu

/-! # The life cycle of processes

    `Life` says how the process table hangs together: pids, parents, zombies
    and processes asleep in `wait`. Every step of every thread keeps it, as
    long as `nextpid` does not overflow: a process that exits has no children
    left and has woken its parent, one that goes to sleep in `wait` has seen
    that it has no zombie child, and a slot becomes free only when `wait` has
    taken its pid. `Returned` says that `wait` returns the pids it has taken.
-/

namespace Xv6.Kern

open Function

/-- A process that can still do something. -/
def ProcState.alive : ProcState → Bool
  | .SLEEPING | .RUNNABLE | .RUNNING => true
  | .UNUSED | .EMBRYO | .ZOMBIE => false

/-- The process is neither made nor buried between the two states. -/
def ProcState.Like (x y : ProcState) : Prop := x = y ∨ x.alive = true ∧ y.alive = true

theorem ProcState.Like.iff {x y z : ProcState} (h : x.Like y) (hz : z.alive = false) :
    x = z ↔ y = z := by
  rcases h with rfl | ⟨hx, hy⟩
  · rfl
  · constructor
    · rintro rfl
      rw [hx] at hz
      cases hz
    · rintro rfl
      rw [hy] at hz
      cases hz

theorem ProcState.Like.alive_eq {x y : ProcState} (h : x.Like y) : x.alive = y.alive := by
  rcases h with rfl | ⟨hx, hy⟩
  · rfl
  · rw [hx, hy]

variable {C L K E : Type}

/-- The process table hangs together. -/
structure Life (s : Kernel C L K E) (G : Thread C → Ghost L K Unit) : Prop where
  pid_inj : ∀ p q, (s.proc p).state ≠ .UNUSED → (s.proc q).state ≠ .UNUSED →
    (s.proc p).pid = (s.proc q).pid → p = q
  pid_lt : ∀ p, (s.proc p).pid.toNat < s.nextpid.toNat
  pid_pos : ∀ p, (s.proc p).state ≠ .UNUSED → (s.proc p).pid ≠ 0
  /-- The pid that is left in a free slot is nobody's. -/
  stale : ∀ p q, (s.proc p).state = .UNUSED → (s.proc q).state ≠ .UNUSED →
    (s.proc p).pid ≠ (s.proc q).pid
  unused : ∀ p, (s.proc p).state = .UNUSED → (s.proc p).parent = none
  embryo : ∀ t np, (G t).child = some (np, false) → (s.proc np).parent = none
  parent_alive : ∀ p q, (s.proc p).parent = some q → (s.proc q).state.alive = true
  has_parent : ∀ p, p ≠ initproc → (s.proc p).state ≠ .UNUSED → (s.proc p).state ≠ .EMBRYO →
    (s.proc p).parent ≠ none
  /-- Nobody sleeps in `wait` who could go on. -/
  wait_sleep : ∀ p q, s.Asleep p (some (.proc p)) → (s.proc q).parent = some p →
    (s.proc q).state ≠ .ZOMBIE
  zombie : ∀ p, (s.proc p).state = .ZOMBIE → (s.proc p).pid ∈ s.exits
  waited : ∀ w ∈ s.waits, w.2.parent = some w.1 ∧ w.2.pid ∈ s.exits
  waited_lt : ∀ w ∈ s.waits, w.2.pid.toNat < s.nextpid.toNat
  waited_gone : ∀ w ∈ s.waits, ∀ p, (s.proc p).state ≠ .UNUSED → (s.proc p).pid ≠ w.2.pid
  waited_once : (s.waits.map fun w => w.2.pid).Nodup

variable [DecidableEq C] {s s' : Kernel C L K E} {G : Thread C → Ghost L K Unit} {t : Thread C}
  {g' : Ghost L K Unit}

omit [DecidableEq C] in
theorem Life.childless (h : Life s G) {q : Slot} (hq : (s.proc q).state.alive = false)
    (r : Slot) : (s.proc r).parent ≠ some q := by
  intro hr
  rw [h.parent_alive r q hr] at hq
  cases hq

/-- Processes change their state, but none is made or buried. -/
theorem Life.kept (h : Life s G) (hpid : ∀ p, (s'.proc p).pid = (s.proc p).pid)
    (hparent : ∀ p, (s'.proc p).parent = (s.proc p).parent)
    (hstate : ∀ p, (s'.proc p).state.Like (s.proc p).state) (hnext : s'.nextpid = s.nextpid)
    (hexits : s'.exits = s.exits) (hwaits : s'.waits = s.waits)
    (hchild : ∀ np, g'.child = some (np, false) → (G t).child = some (np, false))
    (hsleep : ∀ p, s'.Asleep p (some (.proc p)) → s.Asleep p (some (.proc p)) ∨
      ∀ q, (s.proc q).parent = some p → (s.proc q).state ≠ .ZOMBIE) :
    Life s' (update G t g') := by
  have hun : ∀ p, (s'.proc p).state = .UNUSED ↔ (s.proc p).state = .UNUSED :=
    fun p => (hstate p).iff rfl
  have hem : ∀ p, (s'.proc p).state = .EMBRYO ↔ (s.proc p).state = .EMBRYO :=
    fun p => (hstate p).iff rfl
  have hzo : ∀ p, (s'.proc p).state = .ZOMBIE ↔ (s.proc p).state = .ZOMBIE :=
    fun p => (hstate p).iff rfl
  refine ⟨fun p q => ?_, fun p => ?_, fun p => ?_, fun p q => ?_, fun p => ?_, fun r np hr => ?_,
    fun p q => ?_, fun p => ?_, fun p q hp hq => ?_, fun p => ?_, ?_, ?_, ?_, ?_⟩
  · simp only [ne_eq, hun, hpid]
    exact h.pid_inj p q
  · rw [hpid, hnext]
    exact h.pid_lt p
  · simp only [ne_eq, hun, hpid]
    exact h.pid_pos p
  · simp only [ne_eq, hun, hpid]
    exact h.stale p q
  · rw [hun, hparent]
    exact h.unused p
  · rw [hparent]
    by_cases hrt : r = t
    · subst hrt
      rw [update_self] at hr
      exact h.embryo r np (hchild np hr)
    · rw [update_of_ne hrt] at hr
      exact h.embryo r np hr
  · rw [hparent, (hstate q).alive_eq]
    exact h.parent_alive p q
  · simp only [ne_eq, hun, hem, hparent]
    exact h.has_parent p
  · rw [ne_eq, hzo]
    rw [hparent] at hq
    rcases hsleep p hp with hold | hno
    · exact h.wait_sleep p q hold hq
    · exact hno q hq
  · rw [hzo, hpid, hexits]
    exact h.zombie p
  · rw [hwaits, hexits]
    exact h.waited
  · rw [hwaits, hnext]
    exact h.waited_lt
  · simp only [hwaits, ne_eq, hun, hpid]
    exact h.waited_gone
  · rw [hwaits]
    exact h.waited_once

/-- One slot changes its state. -/
theorem Life.setProc (h : Life s G) {g : Ghost L K Unit} {q : Slot} {f : Proc K → Proc K}
    (hpid : (f (s.proc q)).pid = (s.proc q).pid)
    (hparent : (f (s.proc q)).parent = (s.proc q).parent)
    (hstate : (f (s.proc q)).state.Like (s.proc q).state)
    (hchild : ∀ np, g.child = some (np, false) → (G t).child = some (np, false))
    (hsleep : (s.setProc q f).Asleep q (some (.proc q)) → s.Asleep q (some (.proc q)) ∨
      ∀ r, (s.proc r).parent = some q → (s.proc r).state ≠ .ZOMBIE) :
    Life (s.setProc q f) (update G t g) := by
  refine h.kept (fun p => ?_) (fun p => ?_) (fun p => ?_) rfl rfl rfl hchild fun p hp => ?_
  all_goals by_cases hpq : p = q
  all_goals first
    | subst hpq
      first
        | rw [setProc_self]; assumption
        | exact hsleep hp
    | skip
  · rw [setProc_ne hpq]
  · rw [setProc_ne hpq]
  · rw [setProc_ne hpq]
    exact Or.inl rfl
  · unfold Kernel.Asleep at hp ⊢
    rw [setProc_ne hpq] at hp
    exact Or.inl hp

/-! ## Processes are made and buried

    In each of these steps one slot changes; the others keep what they have.
-/

section

variable {p q np : Slot} (hne : ∀ r, r ≠ q → s'.proc r = s.proc r)
include hne

section

variable (h : Life s G)
include h

theorem Life.alloc (hself : s'.proc q =
      { s.proc q with state := .EMBRYO, pid := s.nextpid, hit := false })
    (hnext : s'.nextpid.toNat = s.nextpid.toNat + 1) (hexits : s'.exits = s.exits)
    (hwaits : s'.waits = s.waits) (hfree : (s.proc q).state = .UNUSED)
    (hchild : g'.child = some (q, false)) : Life s' (update G t g') := by
  have hdead := h.childless (q := q) (by rw [hfree]; rfl)
  obtain ⟨h1, h2, hpos, hstale, h3, h4, h5, h6, h7, h8, h9, h10, h11, h12⟩ := h
  constructor <;> grind [update, Kernel.Asleep]

theorem Life.unalloc (hself : s'.proc q = { s.proc q with state := .UNUSED })
    (hnext : s'.nextpid = s.nextpid) (hexits : s'.exits = s.exits) (hwaits : s'.waits = s.waits)
    (hemb : (s.proc q).state = .EMBRYO) (hold : (G t).child = some (q, false))
    (hchild : g'.child = none) : Life s' (update G t g') := by
  have hdead := h.childless (q := q) (by rw [hemb]; rfl)
  obtain ⟨h1, h2, hpos, hstale, h3, h4, h5, h6, h7, h8, h9, h10, h11, h12⟩ := h
  constructor <;> grind [update, Kernel.Asleep]

theorem Life.adopt (hself : s'.proc q = { s.proc q with parent := some p })
    (hnext : s'.nextpid = s.nextpid) (hexits : s'.exits = s.exits) (hwaits : s'.waits = s.waits)
    (hemb : (s.proc q).state = .EMBRYO) (hrun : (s.proc p).state = .RUNNING)
    (hsole : ∀ r b, (G r).child = some (q, b) → r = t) (hchild : g'.child = some (q, true)) :
    Life s' (update G t g') := by
  obtain ⟨h1, h2, hpos, hstale, h3, h4, h5, h6, h7, h8, h9, h10, h11, h12⟩ := h
  have halive : (s.proc p).state.alive = true := by rw [hrun]; rfl
  constructor <;> grind [update, Kernel.Asleep]

theorem Life.born (hself : s'.proc q = { s.proc q with state := .RUNNABLE })
    (hnext : s'.nextpid = s.nextpid) (hexits : s'.exits = s.exits) (hwaits : s'.waits = s.waits)
    (hemb : (s.proc q).state = .EMBRYO) (hparent : (s.proc q).parent ≠ none)
    (hchild : g'.child = none) : Life s' (update G t g') := by
  have hdead := h.childless (q := q) (by rw [hemb]; rfl)
  obtain ⟨h1, h2, hpos, hstale, h3, h4, h5, h6, h7, h8, h9, h10, h11, h12⟩ := h
  constructor <;> grind [update, Kernel.Asleep]

theorem Life.exits (hself : s'.proc q = { s.proc q with state := .ZOMBIE })
    (hnext : s'.nextpid = s.nextpid) (hexits : s'.exits = s.exits ++ [(s.proc q).pid])
    (hwaits : s'.waits = s.waits) (hrun : (s.proc q).state = .RUNNING)
    (hmoved : ∀ r, (s.proc r).parent ≠ some q)
    (hwoken : ∀ r, (s.proc q).parent = some r → ¬ s.Asleep r (some (.proc r)))
    (hchild : g'.child = none) : Life s' (update G t g') := by
  obtain ⟨h1, h2, hpos, hstale, h3, h4, h5, h6, h7, h8, h9, h10, h11, h12⟩ := h
  -- the parent of the new zombie is awake
  constructor <;> grind [update, Kernel.Asleep]

theorem Life.reap (hself : s'.proc q =
      { s.proc q with pid := 0, parent := none, killed := false, state := .UNUSED })
    (hnext : s'.nextpid = s.nextpid) (hexits : s'.exits = s.exits)
    (hwaits : s'.waits = s.waits ++ [(p, s.proc q)]) (hzombie : (s.proc q).state = .ZOMBIE)
    (hparent : (s.proc q).parent = some p) (hchild : g'.child = (G t).child) :
    Life s' (update G t g') := by
  have hdead := h.childless (q := q) (by rw [hzombie]; rfl)
  obtain ⟨h1, h2, hpos, hstale, h3, h4, h5, h6, h7, h8, h9, h10, h11, h12⟩ := h
  -- the pid was in use until now, so nobody has got it before
  have honce : (s'.waits.map fun w => w.2.pid).Nodup := by
    rw [hwaits, List.map_append, List.nodup_append]
    refine ⟨h12, by simp, ?_⟩
    grind
  constructor <;> grind [update, Kernel.Asleep]

end

end

section

variable [DecidableEq K]

omit [DecidableEq C] in
theorem reparent_like (p q r : Slot) :
    ((s.reparent p q).proc r).state.Like (s.proc r).state := by
  rcases reparent_state (s := s) p q r with heq | ⟨hsl, _, hrun⟩
  · exact Or.inl heq
  · rw [hsl, hrun]
    exact Or.inr ⟨rfl, rfl⟩

theorem Life.reparent (h : Life s G) {p q : Slot} (hfam : Family s G)
    (hchild : g'.child = (G t).child) : Life (s.reparent p q) (update G t g') := by
  have hhist : (s.reparent p q).nextpid = s.nextpid ∧ (s.reparent p q).exits = s.exits ∧
      (s.reparent p q).waits = s.waits := by
    unfold Kernel.reparent
    split
    · split <;> exact ⟨rfl, rfl, rfl⟩
    · exact ⟨rfl, rfl, rfl⟩
  by_cases hq : (s.proc q).parent = some p
  swap
  · -- not a child: nothing happens
    have hsame : s.reparent p q = s := by
      unfold Kernel.reparent
      rw [if_neg hq]
    rw [hsame]
    exact h.kept (fun _ => rfl) (fun _ => rfl) (fun _ => Or.inl rfl) rfl rfl rfl
      (fun np hnp => by rw [← hchild]; exact hnp) fun _ hp => Or.inl hp
  have hpar : ∀ r, ((s.reparent p q).proc r).parent =
      if r = q then some initproc else (s.proc r).parent := by
    intro r
    rw [reparent_parent]
    simp [hq]
  have hun : ∀ r, ((s.reparent p q).proc r).state = .UNUSED ↔ (s.proc r).state = .UNUSED :=
    fun r => (reparent_like p q r).iff rfl
  have hem : ∀ r, ((s.reparent p q).proc r).state = .EMBRYO ↔ (s.proc r).state = .EMBRYO :=
    fun r => (reparent_like p q r).iff rfl
  have hzo : ∀ r, ((s.reparent p q).proc r).state = .ZOMBIE ↔ (s.proc r).state = .ZOMBIE :=
    fun r => (reparent_like p q r).iff rfl
  have hal : ∀ r, ((s.reparent p q).proc r).state.alive = (s.proc r).state.alive :=
    fun r => (reparent_like p q r).alive_eq
  have hpid := fun r => reparent_pid (s := s) p q r
  have hinit : (s.proc initproc).state.alive = true := by
    have := hfam.init_alive
    revert this
    cases (s.proc initproc).state <;> simp [ProcState.alive]
  have hsleep : ∀ r chan, (s.reparent p q).Asleep r chan → s.Asleep r chan := by
    intro r chan hr
    exact ⟨reparent_state_of hr.1 (by simp), by rw [← reparent_chan (s := s) p q r]; exact hr.2⟩
  obtain ⟨h1, h2, hpos, hstale, h3, h4, h5, h6, h7, h8, h9, h10, h11, h12⟩ := h
  have hnew : ∀ r, (update G t g' r).child = (G r).child := by
    intro r
    by_cases hr : r = t
    · subst hr
      rw [update_self, hchild]
    · rw [update_of_ne hr]
  -- a slot that has no parent is not the one that is passed on
  have hother : ∀ r, (s.proc r).parent = none → ((s.reparent p q).proc r).parent = none := by
    intro r hr
    rw [hpar, if_neg, hr]
    rintro rfl
    rw [hr] at hq
    cases hq
  refine ⟨fun r x => ?_, fun r => ?_, fun r => ?_, fun r x => ?_,
    fun r hr => hother r (h3 r ((hun r).mp hr)),
    fun r np hr => hother np (h4 r np (by rw [← hnew]; exact hr)), fun r x hx => ?_,
    fun r hr hru hre => ?_, fun r x hr hx => ?_, fun r => ?_, ?_, ?_, ?_, ?_⟩
  · simp only [ne_eq, hun, hpid]
    exact h1 r x
  · rw [hpid, hhist.1]
    exact h2 r
  · simp only [ne_eq, hun, hpid]
    exact hpos r
  · simp only [ne_eq, hun, hpid]
    exact hstale r x
  · rw [hal]
    rw [hpar] at hx
    split at hx
    case isTrue =>
      cases hx
      exact hinit
    case isFalse => exact h5 r x hx
  · rw [hpar]
    split
    case isTrue => simp
    case isFalse => exact h6 r hr (by rw [ne_eq, ← hun]; exact hru) (by rw [ne_eq, ← hem]; exact hre)
  · rw [ne_eq, hzo]
    rw [hpar] at hx
    split at hx
    case isTrue hxq =>
      -- a zombie that passes to init has woken it
      cases hx
      intro hz
      exact reparent_wakes hq (hxq ▸ hz) hr
    case isFalse => exact h7 r x (hsleep r _ hr) hx
  · rw [hzo, hpid, hhist.2.1]
    exact h8 r
  · rw [hhist.2.2, hhist.2.1]
    exact h9
  · rw [hhist.2.2, hhist.1]
    exact h10
  · simp only [hhist.2.2, ne_eq, hun, hpid]
    exact h11
  · rw [hhist.2.2]
    exact h12

end

/-! ## What `wait` returns -/

/-- `wait` returns the pid of each process it takes from the table, once, to
    the process for which it has taken it. A process that has got a pid and is
    still on its way out of `wait` will return it next. -/
def Returned (s : Kernel C L K E) (G : Thread C → Ghost L K Unit) : Prop :=
  ∀ p v, v ≠ -1 → s.rets.count (p, v) +
      (if (G (.proc p)).got.map BitVec.toInt = some v then 1 else 0) =
    s.waits.countP fun w => w.1 = p ∧ w.2.pid.toInt = v

section

variable [DecidableEq L] [DecidableEq K] {May : Lock L → Unit → Prop} {c : C} {l : Act}

/-- Only `wait` reaps, and only then returns a pid. -/
theorem Trans.history (h : Trans May t c G s l s' g') :
    s'.waits = s.waits ∧ s'.rets = s.rets ∧ g'.got = (G t).got ∨
    (∃ p pr, t = .proc p ∧ (G t).got = none ∧ s'.waits = s.waits ++ [(p, pr)] ∧
      s'.rets = s.rets ∧ g'.got = some pr.pid) ∨
    ∃ p, t = .proc p ∧ s'.waits = s.waits ∧ g'.got = none ∧
      s'.rets = s.rets ++ [(p, (G t).got.elim (-1) BitVec.toInt)] := by
  cases h with
  | @reap p q heq htab hparent hzombie hgot =>
    exact Or.inr (Or.inl ⟨p, s.proc q, heq, hgot, rfl, rfl, rfl⟩)
  | @returns p heq => exact Or.inr (Or.inr ⟨p, heq, rfl, rfl, rfl⟩)
  | reparent =>
    refine Or.inl ⟨?_, ?_, rfl⟩ <;>
    · unfold Kernel.reparent
      dsimp only
      split_ifs <;> rfl
  | _ => exact Or.inl ⟨rfl, rfl, rfl⟩

theorem Returned.step (h : Returned s G) (htr : Trans May t c G s l s' g') :
    Returned s' (update G t g') := by
  intro p v hv
  have hp := h p v hv
  rcases htr.history with ⟨hw, hr, hg⟩ | ⟨q, pr, rfl, hnone, hw, hr, hg⟩ | ⟨q, rfl, hw, hg, hr⟩
  · have hgot : (update G t g' (.proc p)).got = (G (.proc p)).got := by
      by_cases hpt : .proc p = t
      · rw [← hpt, update_self, hg, hpt]
      · rw [update_of_ne hpt]
    rw [hw, hr, hgot]
    exact hp
  · -- the pid is taken, and is what `wait` goes on to return
    rw [hw, hr, List.countP_append]
    by_cases hpq : p = q
    · subst hpq
      rw [update_self, hg]
      simp [hnone, List.countP_cons] at hp ⊢
      omega
    · rw [update_of_ne (by simpa using hpq)]
      simpa [List.countP_cons, Ne.symm hpq] using hp
  · -- a pid that was found is returned, or -1
    rw [hw, hr, List.count_append]
    by_cases hpq : p = q
    · subst hpq
      rw [update_self, hg]
      cases hgot : (G (.proc p)).got with
      | none => simpa [hgot, List.count_cons, Ne.symm hv] using hp
      | some x => simpa [hgot, List.count_cons] using hp
    · rw [update_of_ne (by simpa using hpq)]
      simpa [List.count_cons, Ne.symm hpq] using hp

omit [DecidableEq C] [DecidableEq L] [DecidableEq K] in
/-- A pid that `wait` has returned is that of a process it has taken. -/
theorem Returned.mem (h : Returned s G) {p : Slot} {v : Int} (hr : (p, v) ∈ s.rets)
    (hv : v ≠ -1) : ∃ w ∈ s.waits, w.1 = p ∧ w.2.pid.toInt = v := by
  have hpos : 0 < s.waits.countP fun w => w.1 = p ∧ w.2.pid.toInt = v := by
    rw [← h p v hv]
    exact Nat.add_pos_left (List.count_pos_iff.mpr hr) _
  simpa using List.countP_pos_iff.mp hpos

omit [DecidableEq C] [DecidableEq L] [DecidableEq K] in
/-- If no process is taken twice, no pid is returned twice. -/
theorem Returned.nodup (h : Returned s G) (hw : (s.waits.map fun w => w.2.pid).Nodup) :
    ((s.rets.filter fun r => r.2 ≠ -1).map Prod.snd).Nodup := by
  have hsub : List.Subperm (s.rets.filter fun r => r.2 ≠ -1)
      (s.waits.map fun w => (w.1, w.2.pid.toInt)) := by
    refine List.subperm_ext_iff.mpr fun r hr => ?_
    have hv : r.2 ≠ -1 := by simpa using (List.mem_filter.mp hr).2
    rw [List.count_filter (by simpa using hv), List.count_eq_countP (l := s.waits.map _),
      List.countP_map]
    refine le_of_le_of_eq (Nat.le_add_right _ _) ((h r.1 r.2 hv).trans ?_)
    refine List.countP_congr fun w _ => ?_
    simp [Prod.ext_iff]
  obtain ⟨l, hperm, hsub'⟩ := hsub
  refine (hperm.map Prod.snd).nodup_iff.mp ((hsub'.map Prod.snd).nodup ?_)
  have := hw.map (f := BitVec.toInt) fun _ _ => BitVec.toInt_inj.mp
  rwa [List.map_map] at this ⊢

end

/-! ## Every run -/

section

variable [DecidableEq L] [DecidableEq K]

/-- `nextpid++` does not overflow. -/
def NoOverflow (s : Kernel C L K E) (_ : C) : Act → Prop
  | .alloc => s.nextpid.toNat + 1 < 2 ^ 32
  | _ => True

instance (s : Kernel C L K E) (c : C) : (l : Act) → Decidable (NoOverflow s c l)
  | .alloc => inferInstanceAs (Decidable (s.nextpid.toNat + 1 < 2 ^ 32))
  | .kill _ _ => .isTrue trivial
  | .unalloc _ => .isTrue trivial
  | .fail => .isTrue trivial
  | .other => .isTrue trivial

omit [DecidableEq L] [DecidableEq K] in
/-- Being about to sleep is not yet sleeping. -/
theorem Life.dozes (h : Life s G) (due : Option (Due K)) {x : Unit} :
    Life s (update G t { G t with due := due, extra := x }) :=
  h.kept (fun _ => rfl) (fun _ => rfl) (fun _ => Or.inl rfl) rfl rfl rfl (fun _ => id) fun _ => Or.inl

omit [DecidableEq L] [DecidableEq K] in
theorem Returned.dozes (h : Returned s G) (due : Option (Due K)) {x : Unit} :
    Returned s (update G t { G t with due := due, extra := x }) := by
  intro p v hv
  rw [← h p v hv]
  by_cases hpt : .proc p = t
  · rw [hpt, update_self]
  · rw [update_of_ne hpt]

/-- The regime for the life cycle. -/
def lifecycle : Rules C L K E Unit where
  Inv s G := Life s G ∧ Returned s G
  Cond := NoOverflow
  May _ _ := True
  rest := ()

theorem lifecycle_step {May : Lock L → Unit → Prop} {c : C} {l : Act} (h : Life s G)
    (hcoh : Coh s G) (hcur : s.cur c = t) (hcond : NoOverflow s c l)
    (htr : Trans May t c G s l s' g') :
    Life s' (update G t g') := by
  have hp := hcoh.placed
  have ht := hcoh.tied
  have hrunning : ∀ p, t = .proc p → (G t).phase = .on → (s.proc p).state = .RUNNING := by
    rintro p rfl hon
    exact (hp.here c p hcur).mpr (by rw [hon]; simp)
  -- the steps that leave the process table alone
  have hframe : ∀ {s'' : Kernel C L K E} {g'' : Ghost L K Unit}, s''.proc = s.proc →
      s''.nextpid = s.nextpid → s''.exits = s.exits → s''.waits = s.waits →
      g''.child = (G t).child → Life s'' (update G t g'') := by
    intro s'' g'' hproc hnext hexits hwaits hchild
    refine h.kept (fun p => by rw [hproc]) (fun p => by rw [hproc])
      (fun p => by rw [hproc]; exact Or.inl rfl) hnext hexits hwaits
      (fun np hnp => by rw [← hchild]; exact hnp) fun p hsl => Or.inl ?_
    unfold Kernel.Asleep at hsl
    rw [hproc] at hsl
    exact hsl
  cases htr with
  | quiet => exact hframe rfl rfl rfl rfl rfl
  | acquire hfree hon => exact hframe rfl rfl rfl rfl rfl
  | release hl hon hmay => exact hframe rfl rfl rfl rfl rfl
  | unlock hl hon hpick hdue hmay => exact hframe rfl rfl rfl rfl rfl
  | land heq haway => exact hframe rfl rfl rfl rfl rfl
  | swtch heq hlocks hpick hdue hmay => exact hframe rfl rfl rfl rfl rfl
  | unpick heq hpick => exact hframe rfl rfl rfl rfl rfl
  | scanned heq htab hq => exact hframe rfl rfl rfl rfl rfl
  | kin heq htab hon => exact hframe rfl rfl rfl rfl rfl
  | returns heq => exact hframe rfl rfl rfl rfl rfl
  | yields heq htab hon hdue hmay =>
    refine h.setProc rfl rfl (Or.inr ⟨rfl, ?_⟩) (fun _ => id) fun hsl => ?_
    · rw [hrunning _ heq hon]
      rfl
    · rw [Kernel.Asleep, setProc_self] at hsl
      cases hsl.1
  | @sleeps p chan heq htab hon hdue hmay hscan =>
    refine h.setProc rfl rfl (Or.inr ⟨rfl, ?_⟩) (fun _ => id) fun hsl => ?_
    · rw [hrunning _ heq hon]
      rfl
    · -- the process has scanned the table and found no zombie child
      rw [Kernel.Asleep, setProc_self] at hsl
      obtain ⟨_, hall⟩ := hscan p (Option.some.inj hsl.2)
      refine Or.inr fun r hr hz => (ht.scan t r (hall r)).2 p heq ⟨hr, hz⟩
  | @exits p heq htab hon hdue hmay hchild hinit hmoved hwoken =>
    refine h.exits (q := p) (fun r hr => update_of_ne hr _ _)
      (update_self _ _ _) rfl rfl rfl
      (hrunning p heq hon) (fun r => (ht.moved t r (hmoved r)).2 p heq)
      (fun r hr => (ht.woken t _ r (hwoken r hr)).2) hchild
  | @leave p heq hlocks hoff hdue hmay =>
    have hset := h.setProc (q := p) (f := fun pr => { pr with context := .sched })
      (g := { (G t).forget with phase := .away }) rfl rfl (Or.inl rfl) (fun _ => id) fun hsl =>
      Or.inl (by rw [Kernel.Asleep, setProc_self] at hsl; exact hsl)
    exact ⟨hset.pid_inj, hset.pid_lt, hset.pid_pos, hset.stale, hset.unused, hset.embryo, hset.parent_alive, hset.has_parent,
      hset.wait_sleep, hset.zombie, hset.waited, hset.waited_lt, hset.waited_gone, hset.waited_once⟩
  | @pick p heq htab hpick hrun =>
    have hset := h.setProc (q := p) (f := fun pr => { pr with state := .RUNNING })
      (g := { G t with pick := some (p, true) }) rfl rfl (Or.inr ⟨rfl, by rw [hrun]; rfl⟩)
      (fun _ => id) fun hsl => by rw [Kernel.Asleep, setProc_self] at hsl; cases hsl.1
    exact ⟨hset.pid_inj, hset.pid_lt, hset.pid_pos, hset.stale, hset.unused, hset.embryo, hset.parent_alive, hset.has_parent,
      hset.wait_sleep, hset.zombie, hset.waited, hset.waited_lt, hset.waited_gone, hset.waited_once⟩
  | @wake chan q htab =>
    refine h.setProc (wake_pid _ _) (wake_parent _ _) ?_ (fun _ => id) fun hsl => Or.inl ?_
    · rcases wake_state chan (s.proc q) with heq | ⟨hsl, _, hrun⟩
      · exact Or.inl heq
      · rw [hsl, hrun]
        exact Or.inr ⟨rfl, rfl⟩
    · rw [Kernel.Asleep, setProc_self, wake_chan] at hsl
      exact ⟨wake_state_of hsl.1 (by simp), hsl.2⟩
  | kill htab hdue hpid =>
    refine h.setProc rfl rfl (Or.inl rfl) (fun _ => id) fun hsl => Or.inl ?_
    rw [Kernel.Asleep, setProc_self] at hsl
    exact hsl
  | @rouse q htab hdue =>
    by_cases hsl : (s.proc q).state = .SLEEPING
    · refine h.setProc (by rw [rouse_of_eq hsl]) (by rw [rouse_of_eq hsl]) ?_ (fun _ => id)
        fun hsl' => ?_
      · rw [rouse_of_eq hsl, hsl]
        exact Or.inr ⟨rfl, rfl⟩
      · rw [Kernel.Asleep, setProc_self, rouse_of_eq hsl] at hsl'
        cases hsl'.1
    · refine h.setProc (by rw [rouse_of_ne hsl]) (by rw [rouse_of_ne hsl])
        (by rw [rouse_of_ne hsl]; exact Or.inl rfl) (fun _ => id) fun hsl' => ?_
      rw [Kernel.Asleep, setProc_self, rouse_of_ne hsl] at hsl'
      exact Or.inl hsl'
  | @alloc p np heq htab hfree =>
    have hadd : (s.nextpid + 1).toNat = s.nextpid.toNat + 1 := by
      have hlt : s.nextpid.toNat + 1 < 2 ^ 32 := hcond
      rw [BitVec.toNat_add]
      exact Nat.mod_eq_of_lt hlt
    exact h.alloc (q := np) (fun r hr => update_of_ne hr _ _)
      (update_self _ _ _) hadd rfl rfl hfree rfl
  | unalloc hchild =>
    exact h.unalloc (fun r hr => setProc_ne hr _) (setProc_self _ _) rfl rfl rfl
      (ht.child _ _ _ hchild).1 hchild rfl
  | ready hchild =>
    refine h.setProc rfl rfl (Or.inl rfl) (fun _ => id) fun hsl => Or.inl ?_
    rw [Kernel.Asleep, setProc_self] at hsl
    exact hsl
  | adopt heq hon htab hchild =>
    exact h.adopt (fun r hr => setProc_ne hr _) (setProc_self _ _) rfl rfl rfl
      (ht.child _ _ _ hchild).1 (hrunning _ heq hon)
      (fun r b hr => ht.child_uniq r t _ b false hr hchild) rfl
  | born htab hchild =>
    obtain ⟨hemb, hpar⟩ := ht.child _ _ _ hchild
    obtain ⟨p, _, hp'⟩ := hpar rfl
    exact h.born (fun r hr => setProc_ne hr _) (setProc_self _ _) rfl rfl rfl hemb
      (by rw [hp']; simp) rfl
  | reparent heq htab hchild hinit => exact h.reparent hcoh.family rfl
  | @reap p q heq htab hparent hzombie hgot =>
    exact h.reap (q := q) (fun r hr => update_of_ne hr _ _)
      (update_self _ _ _) rfl rfl rfl hzombie hparent rfl
  | @tidy p heq hon =>
    refine h.setProc rfl rfl (Or.inl rfl) (fun _ => id) fun hsl => ?_
    rw [Kernel.Asleep, setProc_self] at hsl
    cases hsl.2

theorem lifecycle_lawful : (lifecycle : Rules C L K E Unit).Lawful :=
  ⟨fun hat htr => ⟨lifecycle_step hat.coh.2.1 hat.coh.1 hat.cur hat.cond htr, hat.coh.2.2.step htr⟩,
    fun hat _ _ _ => ⟨hat.coh.2.1.dozes _, hat.coh.2.2.dozes _⟩, fun _ => trivial,
    fun _ _ _ => trivial⟩

end

omit [DecidableEq C] in
theorem boot_life (e : E) : Life (Kernel.boot e : Kernel C L K E) (bootGhost ()) ∧
    Returned (Kernel.boot e : Kernel C L K E) (bootGhost ()) := by
  refine ⟨?_, fun _ _ _ => by simp [Kernel.boot, bootGhost]⟩
  have hinit : (Kernel.boot e : Kernel C L K E).proc initproc =
      ⟨.RUNNABLE, 1, none, none, false, .forkret, false, 0⟩ := by
    simp [Kernel.boot]
  have hother : ∀ p, p ≠ initproc → (Kernel.boot e : Kernel C L K E).proc p = .unused := by
    intro p hp
    simp [Kernel.boot, hp]
  have hlive : ∀ p, ((Kernel.boot e : Kernel C L K E).proc p).state ≠ .UNUSED → p = initproc := by
    intro p hp
    by_contra hne
    rw [hother p hne] at hp
    exact hp rfl
  have hparent : ∀ p, ((Kernel.boot e : Kernel C L K E).proc p).parent = none := by
    intro p
    by_cases hp : p = initproc
    · rw [hp, hinit]
    · rw [hother p hp]
      rfl
  refine ⟨fun p q hp hq _ => ?_, fun p => ?_, fun p hp => ?_, fun p q hp hq => ?_,
    fun p _ => hparent p, fun _ np _ => hparent np,
    fun p q hq => ?_, fun p hp hu _ => absurd (hlive p hu) hp, fun p q _ hq => ?_, fun p hp => ?_,
    fun w hw => (List.not_mem_nil hw).elim, fun w hw => (List.not_mem_nil hw).elim,
    fun w hw => (List.not_mem_nil hw).elim, .nil⟩
  · rw [hlive p hp, hlive q hq]
  · by_cases hp : p = initproc
    · rw [hp, hinit]
      simp [Kernel.boot]
    · rw [hother p hp]
      simp [Kernel.boot, Proc.unused]
  · rw [hlive p hp, hinit]
    simp
  · rw [hlive q hq, hinit]
    by_cases hi : p = initproc
    · rw [hi, hinit] at hp
      cases hp
    · rw [hother p hi]
      simp [Proc.unused]
  · rw [hparent] at hq
    cases hq
  · rw [hparent] at hq
    cases hq
  · have hi := hlive p (by rw [hp]; simp)
    rw [hi, hinit] at hp
    cases hp

/-- What every run keeps in which `nextpid` does not overflow. -/
theorem reachable_life [DecidableEq L] [DecidableEq K] {init : E → Prop}
    {σ : Machine.Config C (Kernel C L K E) (Thread C) Act}
    (h : LTS.Reachable ((system init call trap).restrict (Meets NoOverflow)) σ) :
    ∃ G, Life σ.mem G ∧ Returned σ.mem G := by
  have hinv := lifecycle_lawful.sound (fun e _ => boot_life e)
    (fun p x => safe_call lifecycle_lawful x fun _ _ _ _ _ hat =>
      ⟨hat.coh.2.1.dozes _, hat.coh.2.2.dozes _⟩)
    (fun i _ _ hg hmay => safe_trap lifecycle_lawful hg hmay i) h
  obtain ⟨_, G, ⟨_, hlife⟩, _⟩ := hinv
  exact ⟨G, hlife⟩

/-- The life cycle of processes, in every run in which `nextpid` does not
    overflow. What `wait` returns is -1 or the pid of a child that has exited,
    and no pid is returned twice. -/
theorem process_lifecycle [DecidableEq L] [DecidableEq K] (init : E → Prop)
    (σ : Machine.Config C (Kernel C L K E) (Thread C) Act)
    (h : LTS.Reachable ((system init call trap).restrict (Meets NoOverflow)) σ) :
    (∀ p q, (σ.mem.proc p).state ≠ .UNUSED → (σ.mem.proc q).state ≠ .UNUSED →
      (σ.mem.proc p).pid = (σ.mem.proc q).pid → p = q) ∧
    (∀ p, p ≠ initproc → (σ.mem.proc p).state ∈ [.SLEEPING, .RUNNABLE, .RUNNING, .ZOMBIE] →
      ∃ q, (σ.mem.proc p).parent = some q ∧ (σ.mem.proc q).state ≠ .UNUSED ∧
        (σ.mem.proc q).state ≠ .ZOMBIE) ∧
    (∀ p q, σ.mem.Asleep p (some (.proc p)) → (σ.mem.proc q).parent = some p →
      (σ.mem.proc q).state ≠ .ZOMBIE) ∧
    (∀ p v, (p, v) ∈ σ.mem.rets → v ≠ -1 → ∃ w ∈ σ.mem.waits, w.2.pid.toInt = v ∧
      w.2.parent = some p ∧ w.2.pid ∈ σ.mem.exits) ∧
    ((σ.mem.rets.filter fun r => r.2 ≠ -1).map Prod.snd).Nodup ∧
    (∀ w ∈ σ.mem.waits, w.2.parent = some w.1 ∧ w.2.pid ∈ σ.mem.exits) ∧
    (σ.mem.waits.map fun w => w.2.pid).Nodup := by
  obtain ⟨G, hlife, hret⟩ := reachable_life h
  refine ⟨hlife.pid_inj, fun p hp hst => ?_, hlife.wait_sleep, fun p v hr hv => ?_,
    hret.nodup hlife.waited_once, hlife.waited, hlife.waited_once⟩
  swap
  · obtain ⟨w, hw, rfl, hpid⟩ := hret.mem hr hv
    exact ⟨w, hw, hpid, hlife.waited w hw⟩
  have hne := hlife.has_parent p hp (by rintro hu; rw [hu] at hst; simp at hst)
    (by rintro hu; rw [hu] at hst; simp at hst)
  obtain ⟨q, hq⟩ := Option.ne_none_iff_exists'.mp hne
  have halive := hlife.parent_alive p q hq
  refine ⟨q, hq, ?_, ?_⟩ <;> intro hst <;> rw [hst] at halive <;> cases halive

/-- The first process forks a child and waits; the child exits and is reaped. -/
def forkExitWait : List (Machine.Label (Fin 1) (Option (Call Empty Empty)) (Irq Empty)) :=
  .call 0 none :: List.replicate 6 (.step 0) ++
  .call 0 (some (.sys (.fork true true))) :: List.replicate 10 (.step 0) ++
  .call 0 (some (.sys (.wait 2))) :: List.replicate 76 (.step 0) ++
  .call 0 (some (.sys .exit)) :: List.replicate 197 (.step 0) ++
  .call 0 none :: List.replicate 9 (.step 0)

theorem process_lifecycle_one_child :
    ∃ σ : Machine.Config (Fin 1) (Kernel (Fin 1) Empty Empty Unit) (Thread (Fin 1)) Act,
      LTS.Reachable ((system (fun _ => True) call trap).restrict (Meets NoOverflow)) σ ∧
      σ.mem.lock .ptable = none ∧ σ.mem.rets = [(initproc, 2)] ∧
      ∃ w ∈ σ.mem.waits, w.2.pid.toInt = 2 ∧ w.2.parent = some initproc ∧
        w.2.pid ∈ σ.mem.exits := by
  have hrun : ((system (fun _ : Unit => True) call trap).exec
      (fun σ l => decide (Meets NoOverflow σ l))
      (boot () : Machine.Config (Fin 1) (Kernel (Fin 1) Empty Empty Unit) (Thread (Fin 1)) Act)
      forkExitWait).any (fun σ => decide (σ.mem.lock .ptable = none ∧
        σ.mem.rets = [(initproc, 2)])) = true := by
    decide +kernel
  obtain ⟨σ, hσ, hfree, hrets⟩ := LTS.exists_run_of_exec hrun
  have hreach := reachable_of_boot trivial hσ
  simp only [decide_eq_true_eq] at hreach
  exact ⟨σ, hreach, hfree, hrets, (process_lifecycle _ σ hreach).2.2.2.1 initproc 2
    (by simp [hrets]) (by simp)⟩

end Xv6.Kern
