import Xv6.Kern.Coherence

/-! # The family tree

    The first process has no parent and never goes away, no process is its own
    parent, and a process that has looked at its own parent while it holds
    `ptable.lock` knows it. With this, every step keeps the ghost states
    coherent (`Trans.coh`).
-/

namespace Xv6.Kern

open Function

variable {C L K E Γ : Type} [DecidableEq C] {s s' : Kernel C L K E} {G : Thread C → Ghost L K Γ}
  {t : Thread C} {c : C} {g' : Ghost L K Γ} {f : Proc K → Proc K} {g : Ghost L K Γ}

/-- Nothing changes in the tree but what `t` knows. -/
theorem Family.kept (h : Family s G) (hparent : ∀ p, (s'.proc p).parent = (s.proc p).parent)
    (hinit : (s'.proc initproc).state ≠ .UNUSED ∧ (s'.proc initproc).state ≠ .EMBRYO ∧
      (s'.proc initproc).state ≠ .ZOMBIE)
    (hkin : ∀ x, g'.kin = some x → (G t).kin = some x ∧ (∀ p, t = .proc p → g'.phase = .on))
    (hact : ∀ r, s.Active r → (r = t → g'.kin ≠ none) → s'.Active r) :
    Family s' (update G t g') := by
  refine ⟨by rw [hparent]; exact h.init_parent, hinit, fun p => by rw [hparent]; exact h.noself p,
    fun r x hx => ?_⟩
  by_cases hr : r = t
  · subst hr
    rw [update_self] at hx ⊢
    obtain ⟨hold, hon⟩ := hkin x hx
    obtain ⟨ha, hpar⟩ := h.kin r x hold
    refine ⟨hact _ ha fun _ => by rw [hx]; simp, fun p hp => ⟨hon p hp, ?_⟩⟩
    rw [hparent]
    exact (hpar p hp).2
  · rw [update_of_ne hr] at hx ⊢
    obtain ⟨ha, hpar⟩ := h.kin r x hx
    refine ⟨hact _ ha fun heq => absurd heq hr, fun p hp => ?_⟩
    rw [hparent]
    exact hpar p hp

/-- One slot changes; its parent is the same, and the first process stays. -/
theorem Family.setProc (h : Family s G) {q : Slot}
    (hparent : (f (s.proc q)).parent = (s.proc q).parent)
    (hinit : q = initproc → (f (s.proc q)).state ≠ .UNUSED ∧ (f (s.proc q)).state ≠ .EMBRYO ∧
      (f (s.proc q)).state ≠ .ZOMBIE)
    (hkin : ∀ x, g.kin = some x → (G t).kin = some x ∧ (∀ p, t = .proc p → g.phase = .on)) :
    Family (s.setProc q f) (update G t g) := by
  refine h.kept (fun p => ?_) ?_ hkin fun _ ha _ => ha
  · by_cases hp : p = q
    · subst hp
      rw [setProc_self]
      exact hparent
    · rw [setProc_ne hp]
  · by_cases hq : initproc = q
    · rw [← hq, setProc_self, hq]
      exact hinit hq.symm
    · rw [setProc_ne hq]
      exact h.init_alive

/-- A slot gets a new parent, or becomes free: not the slot of `t`, and not the
    first one. -/
theorem Family.reset (h : Family s G) {q : Slot} (hq : q ≠ initproc)
    (hself : (f (s.proc q)).parent ≠ some q) (hkin : g.kin = (G t).kin ∧ g.phase = (G t).phase)
    (hnot : (G (.proc q)).kin = none) : Family (s.setProc q f) (update G t g) := by
  have hkin' : ∀ r, (update G t g r).kin = (G r).kin ∧
      (update G t g r).phase = (G r).phase := by
    intro r
    by_cases hr : r = t
    · subst hr
      rw [update_self]
      exact hkin
    · rw [update_of_ne hr]
      exact ⟨rfl, rfl⟩
  refine ⟨?_, ?_, fun p => ?_, fun r x hx => ?_⟩
  · rw [setProc_ne (Ne.symm hq)]
    exact h.init_parent
  · rw [setProc_ne (Ne.symm hq)]
    exact h.init_alive
  · by_cases hp : p = q
    · subst hp
      rw [setProc_self]
      exact hself
    · rw [setProc_ne hp]
      exact h.noself p
  · rw [(hkin' r).1] at hx
    rw [(hkin' r).2]
    obtain ⟨ha, hpar⟩ := h.kin r x hx
    refine ⟨ha, fun p hp => ?_⟩
    subst hp
    have hpq : p ≠ q := by
      rintro rfl
      rw [hnot] at hx
      cases hx
    rw [setProc_ne hpq]
    exact hpar p rfl

section

variable [DecidableEq K]

theorem Family.reparent (h : Family s G) {p q : Slot} (hact : s.Active (.proc p))
    (hkin : g'.kin = (G (.proc p)).kin ∧ g'.phase = (G (.proc p)).phase) :
    Family (s.reparent p q) (update G (.proc p) g') := by
  have hframe : (s.reparent p q).lock = s.lock ∧ (s.reparent p q).cur = s.cur := by
    unfold Kernel.reparent
    split
    · split <;> exact ⟨rfl, rfl⟩
    · exact ⟨rfl, rfl⟩
  have hqi : (s.proc q).parent = some p → initproc ≠ q := by
    rintro hq rfl
    rw [h.init_parent] at hq
    cases hq
  refine ⟨?_, ?_, fun r => ?_, fun r x hx => ?_⟩
  · rw [reparent_parent, if_neg fun hr => hqi hr.2 hr.1]
    exact h.init_parent
  · rcases reparent_state (s := s) p q initproc with heq | ⟨_, _, hrun⟩
    · rw [heq]
      exact h.init_alive
    · rw [hrun]
      simp
  · rw [reparent_parent]
    split
    case isTrue hr =>
      rw [hr.1]
      intro heq
      exact hqi hr.2 (Option.some.inj heq)
    case isFalse => exact h.noself r
  · by_cases hr : r = .proc p
    · subst hr
      rw [update_self] at hx ⊢
      rw [hkin.1] at hx
      rw [hkin.2]
      obtain ⟨ha, hpar⟩ := h.kin _ x hx
      refine ⟨?_, fun r hr => ?_⟩
      · unfold Kernel.Active at ha ⊢
        rw [hframe.1, hframe.2]
        exact ha
      · -- the process is not its own parent, so it keeps its parent
        cases hr
        refine ⟨(hpar p rfl).1, ?_⟩
        rw [reparent_parent, if_neg, (hpar p rfl).2]
        rintro ⟨rfl, hself⟩
        exact h.noself p hself
    · rw [update_of_ne hr] at hx
      exact absurd (Active.unique (h.kin r x hx).1 hact) hr

end

section

variable [DecidableEq L] [DecidableEq K]
  {May : Lock L → Γ → Prop} {l : Act}

theorem Trans.family (hf : Fits s G) (h : Family s G) (hc : s.cur c = t)
    (htr : Trans May t c G s l s' g') : Family s' (update G t g') := by
  obtain ⟨hp, ht⟩ := hf
  have honly : .ptable ∈ (G t).locks → ∀ r, s.Active r → r = t :=
    fun htab r hr => hp.only_active hc htab hr
  have hold : ∀ x, (G t).kin = some x →
      (G t).kin = some x ∧ ∀ p, t = .proc p → (G t).phase = .on :=
    fun x hx => ⟨hx, fun p hp => ((h.kin t x hx).2 p hp).1⟩
  have hnone : ∀ x : Option Slot, none ≠ some x := by simp
  have hchild : ∀ np b, (G t).child = some (np, b) → np ≠ initproc := by
    rintro np b hnp rfl
    exact h.init_alive.2.1 (ht.child t _ b hnp).1
  -- what is known about a process is known while it is RUNNING
  have hrunning : ∀ p x, (G (.proc p)).kin = some x → (s.proc p).state = .RUNNING := by
    intro p x hx
    obtain ⟨⟨d, hd, _⟩, hpar⟩ := h.kin _ x hx
    exact (hp.here d p hd).mpr (by rw [(hpar p rfl).1]; simp)
  cases htr with
  | quiet =>
    rw [update_eq_self]
    exact h
  | @acquire k hfree hon =>
    refine h.kept (fun _ => rfl) h.init_alive hold fun r ha _ => ?_
    obtain ⟨d, hd, hlock⟩ := ha
    refine ⟨d, hd, ?_⟩
    have hk : .ptable ≠ k := by
      rintro rfl
      rw [hfree] at hlock
      cases hlock
    rw [← hlock]
    exact update_of_ne hk _ _
  | @release a k hl hon hmay =>
    refine h.kept (fun _ => rfl) h.init_alive hold fun r ha _ => ?_
    obtain ⟨d, hd, hlock⟩ := ha
    exact ⟨d, hd, by rw [give_other_lock]; exact hlock⟩
  | unlock hl hon hpick hdue hmay =>
    exact h.kept (fun _ => rfl) h.init_alive (fun x hx => absurd hx (hnone x))
      fun r ha hr => absurd rfl (hr (honly hl r ha))
  | yields heq htab hon hdue hmay =>
    exact h.setProc rfl (by simp) fun x hx => absurd hx (hnone x)
  | sleeps heq htab hon hdue hmay hscan =>
    exact h.setProc rfl (by simp) fun x hx => absurd hx (hnone x)
  | @exits p heq htab hon hdue hmay hchild hinit hmoved hwoken =>
    have := h.setProc (q := p) (f := fun pr => { pr with state := .ZOMBIE }) (t := t)
      (g := { (G t).forget with phase := .off }) rfl (fun heq => absurd heq hinit)
      fun x hx => absurd hx (hnone x)
    exact ⟨this.init_parent, this.init_alive, this.noself, this.kin⟩
  | @leave p heq hlocks hoff hdue hmay =>
    have := h.setProc (q := p) (f := fun pr => { pr with context := .sched }) (t := t)
      (g := { (G t).forget with phase := .away }) rfl (fun heq => heq ▸ h.init_alive)
      fun x hx => absurd hx (hnone x)
    refine h.kept ?_ this.init_alive (fun x hx => absurd hx (hnone x)) fun r ha hr =>
      absurd rfl (hr (honly (by rw [hlocks]; simp) r ha))
    intro q
    by_cases hq : q = p
    · subst hq
      simp [Kernel.goto]
    · simp [Kernel.goto, setProc_ne hq]
  | land heq haway =>
    refine h.kept (fun _ => rfl) h.init_alive (fun _ hx => ⟨hx, fun _ _ => rfl⟩) fun r ha _ => ha
  | @pick p heq htab hpick hrun =>
    have := h.setProc (q := p) (f := fun pr => { pr with state := .RUNNING }) (t := t)
      (g := { G t with pick := some (p, true) }) rfl (by simp) hold
    exact ⟨this.init_parent, this.init_alive, this.noself, this.kin⟩
  | swtch heq hlocks hpick hdue hmay =>
    exact h.kept (fun _ => rfl) h.init_alive (fun x hx => absurd hx (hnone x)) fun r ha hr =>
      absurd rfl (hr (honly (by rw [hlocks]; simp) r ha))
  | unpick heq hpick => exact h.kept (fun _ => rfl) h.init_alive hold fun _ ha _ => ha
  | @wake chan q htab =>
    refine h.setProc (wake_parent _ _) (fun hq => ?_) hold
    subst hq
    have := h.init_alive
    rcases wake_state chan (s.proc initproc) with heq | ⟨_, _, hrun⟩
    · rw [heq]
      exact this
    · rw [hrun]
      simp
  | kill htab hdue hpid => exact h.setProc rfl (fun hq => hq ▸ h.init_alive) hold
  | @rouse q htab hdue =>
    by_cases hsl : (s.proc q).state = .SLEEPING
    · exact h.setProc (by rw [rouse_of_eq hsl]) (by rw [rouse_of_eq hsl]; simp) hold
    · exact h.setProc (by rw [rouse_of_ne hsl])
        (fun hq => by rw [rouse_of_ne hsl, hq]; exact h.init_alive) hold
  | @alloc p np heq htab hfree =>
    have := h.setProc (q := np) (f := fun pr =>
        { pr with state := .EMBRYO, pid := s.nextpid, hit := false }) (t := t)
      (g := { G t with child := some (np, false) }) rfl
      (fun hq => absurd (hq ▸ hfree) h.init_alive.1) hold
    exact ⟨this.init_parent, this.init_alive, this.noself, this.kin⟩
  | unalloc hch => exact h.setProc rfl (fun hq => absurd hq (hchild _ _ hch)) hold
  | ready hch => exact h.setProc rfl (fun hq => hq ▸ h.init_alive) hold
  | @adopt p np heq hon htab hch =>
    subst heq
    have hemb := (ht.child _ _ _ hch).1
    have hrun : (s.proc p).state = .RUNNING := (hp.here c p hc).mpr (by rw [hon]; simp)
    refine h.reset (hchild _ _ hch) ?_ ⟨rfl, rfl⟩ ?_
    · rintro hnp
      cases hnp
      rw [hrun] at hemb
      cases hemb
    · by_contra hx
      obtain ⟨x, hx⟩ := Option.ne_none_iff_exists'.mp hx
      rw [hrunning np x hx] at hemb
      cases hemb
  | born htab hch => exact h.setProc rfl (fun hq => absurd hq (hchild _ _ hch)) hold
  | reparent heq htab hch hinit =>
    subst heq
    exact h.reparent (hp.active hc htab) ⟨rfl, rfl⟩
  | @reap p q heq htab hparent hzombie hgot =>
    have hq : q ≠ initproc := by
      rintro rfl
      rw [h.init_parent] at hparent
      cases hparent
    have hnot : (G (.proc q)).kin = none := by
      by_contra hx
      obtain ⟨x, hx⟩ := Option.ne_none_iff_exists'.mp hx
      rw [hrunning q x hx] at hzombie
      cases hzombie
    have := h.reset (q := q) (f := fun pr =>
        { pr with pid := 0, parent := none, killed := false, state := .UNUSED }) (t := t)
      (g := { G t with got := some (s.proc q).pid }) hq (by simp) ⟨rfl, rfl⟩ hnot
    exact ⟨this.init_parent, this.init_alive, this.noself, this.kin⟩
  | returns heq => exact h.kept (fun _ => rfl) h.init_alive hold fun _ ha _ => ha
  | scanned heq htab hq => exact h.kept (fun _ => rfl) h.init_alive hold fun _ ha _ => ha
  | @kin p heq htab hon =>
    subst heq
    refine ⟨h.init_parent, h.init_alive, h.noself, fun r x hx => ?_⟩
    by_cases hr : r = .proc p
    · subst hr
      rw [update_self] at hx ⊢
      refine ⟨hp.active hc htab, fun q hq => ⟨hon, ?_⟩⟩
      cases hq
      exact Option.some.inj hx
    · rw [update_of_ne hr] at hx ⊢
      exact h.kin r x hx
  | tidy heq hon => exact h.setProc rfl (fun hq => hq ▸ h.init_alive) hold

/-- Every step keeps the ghost states coherent. -/
theorem Trans.coh (h : Coh s G) (hc : s.cur c = t) (htr : Trans May t c G s l s' g') :
    Coh s' (update G t g') :=
  ⟨htr.fits h.toFits hc, htr.family h.toFits h.family hc⟩

end

/-- What the users of `sleep` add is up to them; a thread that holds
    `ptable.lock` may declare that it is about to sleep. -/
theorem Coh.setExtra (h : Coh s G) (hc : s.cur c = t) (due : Option (Due K)) (x : Γ)
    (hdue : due ≠ none → s.Active t) :
    Coh s (update G t { G t with due := due, extra := x }) := by
  have ⟨⟨hp, ht⟩, hf⟩ := h
  refine ⟨⟨hp.kept hc rfl rfl rfl rfl rfl rfl rfl fun _ => Iff.rfl,
    ht.relock rfl rfl rfl rfl hdue rfl rfl rfl⟩, ?_⟩
  exact hf.kept (fun _ => rfl) hf.init_alive
    (fun y hy => ⟨hy, fun p hp => ((hf.kin t y hy).2 p hp).1⟩) fun _ ha _ => ha

end Xv6.Kern
