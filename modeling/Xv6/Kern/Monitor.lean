import Xv6.Kern.ExecCpu

/-! # Waiting for a condition

    What the users of `sleep` and `wakeup` have in common. A thread relies on
    spin-locks (`Held`) while it knows something about the data they protect.
    A process waits for a channel from the moment it has decided to sleep
    until it is woken (`Waits`); no wakeup is lost if every process that waits
    has reason to, or some thread still owes the channel a wakeup (`NoLost`).

    No step of `proc.c` changes the data, what threads rely on or what they
    owe, and none makes a process wait that did not wait before. So both
    properties only depend on what the users do.
-/

namespace Xv6.Kern

open Function

variable {C L K E Γ : Type} {s s' : Kernel C L K E} {G : Thread C → Ghost L K Γ} {t : Thread C}
  {c : C} {a : Act} {g' : Ghost L K Γ} {l : Lock L} {r : Thread C}

/-- Thread `t` is executed by the CPU that holds the lock. -/
def Kernel.Holds (s : Kernel C L K E) (t : Thread C) (l : Lock L) : Prop :=
  ∃ d, s.cur d = t ∧ s.lock l = some d

theorem Kernel.Holds.unique (h : s.Holds t l) (h' : s.Holds r l) : t = r := by
  obtain ⟨d, rfl, hd⟩ := h
  obtain ⟨d', rfl, hd'⟩ := h'
  rw [hd] at hd'
  cases hd'
  rfl

theorem Placed.holds_of_mem (h : Placed s G) (hc : s.cur c = t) (hl : l ∈ (G t).locks) :
    s.Holds t l :=
  ⟨c, hc, (h.lock c l).mpr (by rw [hc]; exact hl)⟩

/-- Process `p` sleeps on `k` or is about to. -/
def Waits (s : Kernel C L K E) (G : Thread C → Ghost L K Γ) (p : Slot) (k : K) : Prop :=
  s.Asleep p (some (.other k)) ∨ (G (.proc p)).due = some (.sleep (.other k))

/-- Threads hold the locks they rely on. -/
def Held (need : Γ → Set (Lock L)) (s : Kernel C L K E) (G : Thread C → Ghost L K Γ) : Prop :=
  ∀ t l, l ∈ need (G t).extra → s.Holds t l

/-- Whoever waits for one of the channels in `S` has reason to, or some thread
    owes the channel a wakeup. -/
def NoLost (S : Set K) (Wait : K → E → Prop) (owes : Γ → Set K) (s : Kernel C L K E)
    (G : Thread C → Ghost L K Γ) : Prop :=
  ∀ k ∈ S, ∀ p, Waits s G p k → Wait k s.env ∨ ∃ t, k ∈ owes (G t).extra

/-! ## The steps of `proc.c` -/

section

variable [DecidableEq C] [DecidableEq L] [DecidableEq K] {May : Lock L → Γ → Prop}
  {chan : Option (Chan K)}

section

variable (h : Trans May t c G s a s' g')
include h

theorem Trans.extra : g'.extra = (G t).extra := by
  cases h <;> rfl

theorem Trans.extra_update (r : Thread C) : (update G t g' r).extra = (G r).extra := by
  by_cases hr : r = t
  · subst hr
    rw [update_self, h.extra]
  · rw [update_of_ne hr]

theorem Trans.env : s'.env = s.env := by
  cases h
  case reparent =>
    unfold Kernel.reparent
    dsimp only
    split <;> [split; skip] <;> rfl
  all_goals rfl

/-- What a step does to locks and CPUs: nothing; a free lock is taken, or one
    that the thread may give up is given back; or the CPU turns to another
    thread. A thread that has still something to do keeps `ptable.lock`. -/
theorem Trans.locks :
    s'.cur = s.cur ∧ s'.lock = s.lock ∨
    s'.cur = s.cur ∧ (∃ l, s.lock l = none ∧ s'.lock = update s.lock l (some c)) ∨
    s'.cur = s.cur ∧ (∃ l, l ∈ (G t).locks ∧ May l (G t).extra ∧
      (l = .ptable → (G t).due = none) ∧ s'.lock = update s.lock l none) ∨
    s'.lock = s.lock ∧ (G t).locks = {.ptable} ∧ May .ptable (G t).extra ∧ (G t).due = none ∧
      ∃ r, s'.cur = update s.cur c r := by
  cases h with
  | acquire hfree hon => exact Or.inr (Or.inl ⟨rfl, _, hfree, rfl⟩)
  | release hl hon hmay => exact Or.inr (Or.inr (Or.inl ⟨rfl, _, hl, hmay, nofun, rfl⟩))
  | unlock hl hon hpick hdue hmay =>
    exact Or.inr (Or.inr (Or.inl ⟨rfl, _, hl, hmay, fun _ => hdue, rfl⟩))
  | leave heq hlocks hoff hdue hmay =>
    exact Or.inr (Or.inr (Or.inr ⟨rfl, hlocks, hmay, hdue, _, rfl⟩))
  | swtch heq hlocks hpick hdue hmay =>
    exact Or.inr (Or.inr (Or.inr ⟨rfl, hlocks, hmay, hdue, _, rfl⟩))
  | reparent heq htab hchild hinit =>
    left
    unfold Kernel.reparent
    dsimp only
    split <;> [split; skip] <;> exact ⟨rfl, rfl⟩
  | _ => exact Or.inl ⟨rfl, rfl⟩

/-- A thread goes on holding a lock, unless it is the one that makes the step
    and may give the lock up. -/
theorem Trans.holds (hp : Placed s G) (hc : s.cur c = t) (hr : s.Holds r l) :
    s'.Holds r l ∨ r = t ∧ May l (G t).extra ∧ (l = .ptable → (G t).due = none) := by
  obtain ⟨d, hd, hlock⟩ := hr
  rcases h.locks with ⟨hcur, hsame⟩ | ⟨hcur, k, hfree, htake⟩ | ⟨hcur, k, hk, hgive, hdue, hfree⟩ |
    ⟨hsame, htab, hgive, hdue, u, hcur⟩
  · exact Or.inl ⟨d, by rw [hcur]; exact hd, by rw [hsame]; exact hlock⟩
  · have hne : l ≠ k := by
      rintro rfl
      rw [hfree] at hlock
      cases hlock
    exact Or.inl ⟨d, by rw [hcur]; exact hd, by rw [htake, update_of_ne hne]; exact hlock⟩
  · by_cases hlk : l = k
    · subst hlk
      have hown := Kernel.Holds.unique (hp.holds_of_mem hc hk) ⟨d, hd, hlock⟩
      exact Or.inr ⟨hown.symm, hgive, hdue⟩
    · exact Or.inl ⟨d, by rw [hcur]; exact hd, by rw [hfree, update_of_ne hlk]; exact hlock⟩
  · by_cases hdc : d = c
    · subst hdc
      rw [hc] at hd
      rw [hp.lock, hc, htab, Finset.mem_singleton] at hlock
      subst hlock
      exact Or.inr ⟨hd.symm, hgive, fun _ => hdue⟩
    · exact Or.inl ⟨d, by rw [hcur, update_of_ne hdc]; exact hd, by rw [hsame]; exact hlock⟩

end

/-- Locks that are relied on are not given up. -/
theorem Held.trans {need : Γ → Set (Lock L)} (h : Held need s G) (hp : Placed s G)
    (hc : s.cur c = t) (hmay : ∀ l x, May l x → l ∉ need x) (htr : Trans May t c G s a s' g') :
    Held need s' (update G t g') := by
  intro r l hl
  rw [htr.extra_update] at hl
  rcases htr.holds hp hc (h r l hl) with hold | ⟨rfl, hgive, _⟩
  · exact hold
  · exact absurd hl (hmay _ _ hgive)

omit [DecidableEq C] [DecidableEq L] [DecidableEq K] in
/-- A field that one slot keeps, all slots keep. -/
theorem field_of_update {α : Type} (field : Proc K → α) {p : Slot} {pr : Proc K}
    (hs : s'.proc = update s.proc p pr) (hf : field pr = field (s.proc p)) (q : Slot) :
    field (s'.proc q) = field (s.proc q) := by
  rw [hs]
  by_cases hq : q = p
  · subst hq
    rw [update_self]
    exact hf
  · rw [update_of_ne hq]

omit [DecidableEq C] [DecidableEq L] [DecidableEq K] in
theorem asleep_of_update {p q : Slot} {pr : Proc K} (h : s'.Asleep q chan)
    (hs : s'.proc = update s.proc p pr) (hpr : pr.state = .SLEEPING →
      (s.proc p).state = .SLEEPING ∧ pr.chan = (s.proc p).chan) : s.Asleep q chan := by
  unfold Kernel.Asleep at h ⊢
  rw [hs] at h
  by_cases hq : q = p
  · subst hq
    rw [update_self] at h
    obtain ⟨hst, hch⟩ := hpr h.1
    exact ⟨hst, hch ▸ h.2⟩
  · rw [update_of_ne hq] at h
    exact h

/-- A process that falls asleep was about to. -/
theorem Trans.asleep (h : Trans May t c G s a s' g') (hp : Placed s G) (hc : s.cur c = t) {q : Slot}
    (hq : s'.Asleep q chan) :
    s.Asleep q chan ∨ t = .proc q ∧ ∃ k, chan = some k ∧ (G t).due = some (.sleep k) := by
  cases h with
  | @sleeps p k heq htab hon hdue hmay hscan =>
    by_cases hqp : q = p
    · subst hqp
      rw [Kernel.Asleep, setProc_self] at hq
      exact Or.inr ⟨heq, k, hq.2.symm, hdue⟩
    · left
      rw [Kernel.Asleep, setProc_ne hqp] at hq
      exact hq
  | @tidy p heq hon =>
    subst heq
    have hrun : (s.proc p).state = .RUNNING := (hp.here c p hc).mpr (by rw [hon]; simp)
    exact Or.inl (asleep_of_update hq rfl (by simp [hrun]))
  | wake htab =>
    exact Or.inl (asleep_of_update hq rfl fun hst =>
      ⟨wake_state_of hst (by simp), wake_chan _ _⟩)
  | @rouse p htab hdue =>
    refine Or.inl (asleep_of_update hq rfl fun hst => ?_)
    by_cases hsl : (s.proc p).state = .SLEEPING
    · rw [rouse_of_eq hsl] at hst
      cases hst
    · rw [rouse_of_ne hsl] at hst
      exact absurd hst hsl
  | @reparent p r heq htab hchild hinit =>
    left
    rw [Kernel.Asleep, reparent_chan] at hq
    exact ⟨reparent_state_of hq.1 (by simp), hq.2⟩
  | quiet | acquire | release | unlock | land | swtch | unpick | scanned | kin | returns =>
    exact Or.inl hq
  | kill | ready | adopt | leave =>
    exact Or.inl (asleep_of_update hq rfl fun hst => ⟨hst, rfl⟩)
  | yields | exits | pick | alloc | unalloc | born | reap =>
    exact Or.inl (asleep_of_update hq rfl (by simp))

theorem Trans.due_sleep (h : Trans May t c G s a s' g') {chan : Chan K}
    (hd : g'.due = some (.sleep chan)) : (G t).due = some (.sleep chan) := by
  cases h
  case kill | rouse | sleeps => cases hd
  all_goals exact hd

/-- No step of `proc.c` makes a process wait. -/
theorem Waits.of_trans (h : Trans May t c G s a s' g') (hp : Placed s G) (hc : s.cur c = t)
    {p : Slot} {k : K} (hw : Waits s' (update G t g') p k) : Waits s G p k := by
  rcases hw with hsl | hd
  · rcases h.asleep hp hc hsl with hsl | ⟨rfl, chan, hchan, hdue⟩
    · exact Or.inl hsl
    · cases hchan
      exact Or.inr hdue
  · right
    by_cases hpt : .proc p = t
    · subst hpt
      rw [update_self] at hd
      exact h.due_sleep hd
    · rw [update_of_ne hpt] at hd
      exact hd

theorem NoLost.trans {S : Set K} {Wait : K → E → Prop} {owes : Γ → Set K}
    (h : NoLost S Wait owes s G) (hp : Placed s G) (hc : s.cur c = t)
    (htr : Trans May t c G s a s' g') : NoLost S Wait owes s' (update G t g') := by
  intro k hk p hw
  rw [htr.env]
  rcases h k hk p (Waits.of_trans htr hp hc hw) with hwait | ⟨r, hr⟩
  · exact Or.inl hwait
  · exact Or.inr ⟨r, by rw [htr.extra_update]; exact hr⟩

end

/-! ## What the users do -/

/-- When a thread has looked at all slots, nobody waits for the channel. -/
theorem Coh.nobody_waits (h : Coh s G) {k : K}
    (hwoken : ∀ q, q ∈ (G t).woken (some (.other k)))
    (hdue : (G t).due ≠ some (.sleep (.other k))) (p : Slot) : ¬ Waits s G p k := by
  rintro (hsl | hd)
  · exact (h.tied.woken t _ p (hwoken p)).2 hsl
  · have hact := h.tied.due (.proc p) (by rw [hd]; simp)
    have heq := Active.unique hact (h.tied.woken t _ p (hwoken p)).1
    rw [heq] at hd
    exact hdue hd

variable [DecidableEq C]

/-- A process that has reason to wait may. -/
theorem NoLost.doze {S : Set K} {Wait : K → E → Prop} {owes : Γ → Set K} {p : Slot}
    {chan : Chan K} (h : NoLost S Wait owes s G) (hdue : g'.due = some (.sleep chan))
    (hwait : ∀ k ∈ S, chan = .other k → Wait k s.env)
    (howes : owes (G (.proc p)).extra ⊆ owes g'.extra) :
    NoLost S Wait owes s (update G (.proc p) g') := by
  intro k hk q hw
  have howe : (∃ t, k ∈ owes (G t).extra) →
      ∃ t, k ∈ owes (update G (.proc p) g' t).extra := by
    rintro ⟨r, hr⟩
    refine ⟨r, ?_⟩
    by_cases hrp : r = .proc p
    · subst hrp
      rw [update_self]
      exact howes hr
    · rw [update_of_ne hrp]
      exact hr
  rcases hw with hsl | hd
  · exact (h k hk q (Or.inl hsl)).imp_right howe
  · by_cases hqp : q = p
    · subst hqp
      rw [update_self, hdue] at hd
      exact Or.inl (hwait k hk (Due.sleep.inj (Option.some.inj hd)))
    · rw [update_of_ne (by simpa using hqp)] at hd
      exact (h k hk q (Or.inr hd)).imp_right howe

/-- The data and what one thread owes change: for every channel, the reason to
    wait is still there, or the thread owes the channel a wakeup, or nobody
    waits for it. -/
theorem NoLost.change {S : Set K} {Wait : K → E → Prop} {owes : Γ → Set K} {e : E}
    (h : NoLost S Wait owes s G) (hdue : g'.due = (G t).due)
    (hwait : ∀ k ∈ S, Wait k s.env → Wait k e ∨ k ∈ owes g'.extra ∨ ∀ p, ¬ Waits s G p k)
    (howes : ∀ k ∈ S, k ∈ owes (G t).extra → k ∈ owes g'.extra ∨ ∀ p, ¬ Waits s G p k) :
    NoLost S Wait owes { s with env := e } (update G t g') := by
  intro k hk p hw
  have hw' : Waits s G p k := by
    rcases hw with hsl | hd
    · exact Or.inl hsl
    · right
      by_cases hpt : .proc p = t
      · subst hpt
        rw [update_self, hdue] at hd
        exact hd
      · rw [update_of_ne hpt] at hd
        exact hd
  have hself : k ∈ owes g'.extra → ∃ r, k ∈ owes (update G t g' r).extra :=
    fun hx => ⟨t, by rw [update_self]; exact hx⟩
  rcases h k hk p hw' with hwt | ⟨r, hr⟩
  · rcases hwait k hk hwt with hwt | hx | hno
    · exact Or.inl hwt
    · exact Or.inr (hself hx)
    · exact absurd hw' (hno p)
  · by_cases hrt : r = t
    · subst hrt
      rcases howes k hk hr with hx | hno
      · exact Or.inr (hself hx)
      · exact absurd hw' (hno p)
    · exact Or.inr ⟨r, by rw [update_of_ne hrt]; exact hr⟩

/-- One thread changes what it relies on, or the data change. -/
theorem Held.change {need : Γ → Set (Lock L)} {e : E} (h : Held need s G)
    (hneed : ∀ l ∈ need g'.extra, s.Holds t l) :
    Held need { s with env := e } (update G t g') := by
  intro r l hl
  by_cases hrt : r = t
  · subst hrt
    rw [update_self] at hl
    exact hneed l hl
  · rw [update_of_ne hrt] at hl
    exact h r l hl

/-! ## Rules for the users -/

section

variable {R : Rules C L K E Γ} {g : Ghost L K Γ} {α β : Type} {Q : α → Ghost L K Γ → Prop}

/-- Before an action, a thread may change what it has added to its ghost
    state. -/
theorem Safe.extra {m : KOp C L K E β} {k : β → KProg C L K E α}
    (h : ∀ c s G, R.logic.At t g a c s G →
      ∃ x, R.Inv s (update G t { g with extra := x }) ∧
        R.logic.Safe t (.act a m k) { g with extra := x } Q) : R.logic.Safe t (.act a m k) g Q := by
  refine .ghost fun c s G hat => ?_
  obtain ⟨x, hinv, hsafe⟩ := h c s G hat
  have hcoh := hat.coh.1.setExtra hat.cur (G t).due x (hat.coh.1.tied.due t)
  rw [hat.self] at hcoh
  exact ⟨_, ⟨hcoh, hinv⟩, hsafe⟩

/-- An action on the data. -/
theorem safe_env {m : KOp C L K E α}
    (hm : ∀ c s G, R.logic.At t g a c s G → m.wlp Fine (fun b s' => ∃ e x,
      s'.2 = { s with env := e } ∧
      R.Inv { s with env := e } (update G t { g with extra := x }) ∧
      Q b { g with extra := x }) (c, s)) : R.logic.Safe t (.atomic a m) g Q := by
  refine Machine.Logic.safe_atomic fun c s G hat => ?_
  apply (hm c s G hat).mono (fun _ => id)
  intro b s' hb
  obtain ⟨e, x, hs', hinv, hQ⟩ := hb
  have hcoh := hat.coh.1.setExtra hat.cur (G t).due x (hat.coh.1.tied.due t)
  rw [hat.self] at hcoh
  refine ⟨_, ⟨?_, ?_⟩, hQ⟩
  · exact hcoh.congr (by rw [hs']) (by rw [hs']) (by rw [hs']) (by rw [hs']) (by rw [hs'])
  · rw [hs']
    exact hinv

end

end Xv6.Kern
