import Xv6.Kern.Trans

/-! # The steps of kernel threads keep CPUs, locks and knowledge in order

    The steps fall into groups: the lock operations, the context switches, and
    the changes of the process table, most of which leave alone who is RUNNING
    and what threads know. `Trans.fits` puts the groups together.
-/

namespace Xv6.Kern

open Function

variable {C L K E Γ : Type} [DecidableEq C] {s s' : Kernel C L K E} {G : Thread C → Ghost L K Γ}
  {t : Thread C} {c : C} {g' : Ghost L K Γ} {f : Proc K → Proc K} {p : Slot}

/-! ## Changes that keep who is RUNNING -/

theorem Placed.kept (h : Placed s G) (hc : s.cur c = t) (hlock : s'.lock = s.lock)
    (hncli : s'.ncli = s.ncli) (hcur : s'.cur = s.cur) (hcproc : s'.cproc = s.cproc)
    (hlocks : g'.locks = (G t).locks) (hpick : g'.pick = (G t).pick)
    (hphase : g'.phase = (G t).phase)
    (hrun : ∀ q, (s'.proc q).state = .RUNNING ↔ (s.proc q).state = .RUNNING) :
    Placed s' (update G t g') := by
  apply h.table hc hlock hncli hcur hcproc hlocks hpick (fun q _ => hrun q) _ (Or.inl hphase)
  intro p ht
  subst ht
  rw [hrun, hphase]
  exact h.here c p hc

/-- One slot changes, and is RUNNING as before. -/
theorem Placed.setProc (h : Placed s G) (hc : s.cur c = t) {q : Slot}
    (hrun : (f (s.proc q)).state = .RUNNING ↔ (s.proc q).state = .RUNNING)
    (hlocks : g'.locks = (G t).locks) (hpick : g'.pick = (G t).pick)
    (hphase : g'.phase = (G t).phase) : Placed (s.setProc q f) (update G t g') := by
  refine h.kept hc rfl rfl rfl rfl hlocks hpick hphase fun r => ?_
  by_cases hr : r = q
  · subst hr
    rw [setProc_self]
    exact hrun
  · rw [setProc_ne hr]

/-- The thread stores a state other than RUNNING in its own slot. -/
theorem Placed.off (h : Placed s G) (hc : s.cur c = .proc p) (htab : .ptable ∈ (G (.proc p)).locks)
    (hf : (f (s.proc p)).state ≠ .RUNNING) (hlocks : g'.locks = (G (.proc p)).locks)
    (hpick : g'.pick = (G (.proc p)).pick) (hphase : g'.phase = .off) :
    Placed (s.setProc p f) (update G (.proc p) g') := by
  refine h.table hc rfl rfl rfl rfl hlocks hpick (fun q hq => ?_) (fun q hq => ?_)
    (Or.inr (Or.inl ⟨htab, by rw [hphase]; simp⟩))
  · rw [setProc_ne]
    rintro rfl
    exact hq rfl
  · cases hq
    rw [setProc_self, hphase]
    simp [hf]

/-! ## Changes that keep what threads know -/

theorem Tied.kept (h : Tied s G) (hlock : s'.lock = s.lock) (hcur : s'.cur = s.cur)
    (hchild : g'.child = (G t).child) (hdue : g'.due ≠ none → s.Active t)
    (hembryo : ∀ q, (s.proc q).state = .EMBRYO →
      (s'.proc q).state = .EMBRYO ∧ (s'.proc q).parent = (s.proc q).parent)
    (hwoken : ∀ chan q, q ∈ g'.woken chan →
      q ∈ (G t).woken chan ∨ s.Active t ∧ ¬ s'.Asleep q chan)
    (hscan : ∀ q, q ∈ g'.scan → q ∈ (G t).scan ∨ s.Active t ∧
      ∀ p, t = .proc p → ¬ ((s'.proc q).parent = some p ∧ (s'.proc q).state = .ZOMBIE))
    (hmoved : g'.moved = (G t).moved)
    (hsleep : ∀ chan q, s'.Asleep q chan → s.Asleep q chan)
    (hkid : ∀ p q, (s'.proc q).parent = some p →
      (s.proc q).parent = some p ∧ ((s'.proc q).state = .ZOMBIE → (s.proc q).state = .ZOMBIE)) :
    Tied s' (update G t g') := by
  refine h.table hlock hcur (fun np b hnp => ?_) (fun r _ np b hnp hst => ?_) hdue
    (fun chan q hq => ?_) (fun q hq => ?_) (fun q hq => ?_)
    (fun r _ _ => ⟨hsleep, fun p _ q hq => hkid p q hq⟩)
  · rw [hchild] at hnp
    obtain ⟨hst, hpar⟩ := h.child t np b hnp
    rw [(hembryo np hst).2]
    exact ⟨(hembryo np hst).1, hpar, fun r hr b' hr' => hr (h.child_uniq r t np b' b hr' hnp)⟩
  · rw [(hembryo np hst).2]
    exact ⟨(hembryo np hst).1, fun _ _ hp => hp⟩
  · rcases hwoken chan q hq with hq | hq
    · obtain ⟨ha, hna⟩ := h.woken t chan q hq
      exact ⟨ha, fun h' => hna (hsleep chan q h')⟩
    · exact hq
  · rcases hscan q hq with hq | hq
    · obtain ⟨ha, hna⟩ := h.scan t q hq
      refine ⟨ha, fun p hp h' => hna p hp ?_⟩
      exact ⟨(hkid p q h'.1).1, (hkid p q h'.1).2 h'.2⟩
    · exact hq
  · rw [hmoved] at hq
    obtain ⟨ha, hna⟩ := h.moved t q hq
    exact ⟨ha, fun p hp h' => hna p hp (hkid p q h').1⟩

/-- One slot changes, but stays EMBRYO if it was; nobody falls asleep or
    becomes a child or a zombie. -/
theorem Tied.setProc (h : Tied s G) {q : Slot} (hembryo : (s.proc q).state = .EMBRYO →
      (f (s.proc q)).state = .EMBRYO ∧ (f (s.proc q)).parent = (s.proc q).parent)
    (hsleep : (f (s.proc q)).state = .SLEEPING →
      (s.proc q).state = .SLEEPING ∧ (f (s.proc q)).chan = (s.proc q).chan)
    (hparent : ∀ p, (f (s.proc q)).parent = some p → (s.proc q).parent = some p)
    (hzombie : (f (s.proc q)).state = .ZOMBIE → (s.proc q).state = .ZOMBIE)
    (hchild : g'.child = (G t).child) (hdue : g'.due ≠ none → s.Active t)
    (hwoken : ∀ chan r, r ∈ g'.woken chan →
      r ∈ (G t).woken chan ∨ s.Active t ∧ ¬ (s.setProc q f).Asleep r chan)
    (hscan : g'.scan = (G t).scan) (hmoved : g'.moved = (G t).moved) :
    Tied (s.setProc q f) (update G t g') := by
  refine h.kept rfl rfl hchild hdue (fun r hr => ?_) hwoken
    (fun r hr => Or.inl (by rw [← hscan]; exact hr)) hmoved (fun chan r hr => ?_) (fun p r hr => ?_)
  · exact embryo_setProc hembryo r hr
  · refine of_setProc (P := fun pr => pr.state = .SLEEPING ∧ pr.chan = chan) (fun hr => ?_) hr
    obtain ⟨hst, hch⟩ := hsleep hr.1
    exact ⟨hst, by rw [← hch]; exact hr.2⟩
  · by_cases hrq : r = q
    · subst hrq
      rw [setProc_self] at hr ⊢
      exact ⟨hparent p hr, hzombie⟩
    · rw [setProc_ne hrq] at hr ⊢
      exact ⟨hr, id⟩

/-! ## Reparenting -/

section

variable [DecidableEq K]

theorem Tied.reparent (h : Tied s G) {p q : Slot} (hact : s.Active (.proc p))
    (hchild : (G (.proc p)).child = none) (hinit : p ≠ initproc) :
    Tied (s.reparent p q) (update G (.proc p)
      { G (.proc p) with moved := insert q (G (.proc p)).moved }) := by
  have honly : ∀ r, r ≠ .proc p → ¬ s.Active r := fun r hr ha => hr (Active.unique ha hact)
  have hpar : ∀ r, ((s.reparent p q).proc r).parent = some p →
      (s.proc r).parent = some p ∧ r ≠ q := by
    intro r hr
    rw [reparent_parent] at hr
    split at hr
    case isTrue => exact absurd (Option.some.inj hr).symm hinit
    case isFalse hn => exact ⟨hr, fun heq => hn ⟨heq, heq ▸ hr⟩⟩
  have hframe : (s.reparent p q).lock = s.lock ∧ (s.reparent p q).cur = s.cur := by
    unfold Kernel.reparent
    split
    · split <;> exact ⟨rfl, rfl⟩
    · exact ⟨rfl, rfl⟩
  refine h.table hframe.1 hframe.2 (fun np b hnp => ?_) (fun r hr np b hnp hst => ?_) (h.due _)
    (fun chan r hr => ?_) (fun r hr => ?_) (fun r hr => ?_) (fun r hr ha => absurd ha (honly r hr))
  · rw [show ({ G (.proc p) with moved := insert q (G (.proc p)).moved } : Ghost L K Γ).child =
      (G (.proc p)).child from rfl, hchild] at hnp
    cases hnp
  · constructor
    · rcases reparent_state (s := s) p q np with heq | ⟨hsl, _⟩
      · rw [heq]
        exact hst
      · rw [hst] at hsl
        cases hsl
    · intro p' hp' hpp
      rw [reparent_parent, if_neg]
      · exact hpp
      · rintro ⟨rfl, hq⟩
        rw [hpp] at hq
        cases hq
        exact hr hp'
  · obtain ⟨ha, hna⟩ := h.woken _ chan r hr
    refine ⟨ha, fun h' => hna ⟨reparent_state_of h'.1 (by simp), ?_⟩⟩
    rw [← reparent_chan (s := s) p q r]
    exact h'.2
  · obtain ⟨ha, hna⟩ := h.scan _ r hr
    refine ⟨ha, fun p' hp' h' => ?_⟩
    cases hp'
    exact hna p rfl ⟨(hpar r h'.1).1, reparent_state_of h'.2 (by simp)⟩
  · refine ⟨hact, fun p' hp' h' => ?_⟩
    cases hp'
    obtain ⟨hold, hne⟩ := hpar r h'
    rcases hr with hrq | hr
    · exact hne hrq
    · exact (h.moved _ r hr).2 p rfl hold

theorem Placed.reparent (h : Placed s G) (hc : s.cur c = t) {p q : Slot}
    (hlocks : g'.locks = (G t).locks) (hpick : g'.pick = (G t).pick)
    (hphase : g'.phase = (G t).phase) : Placed (s.reparent p q) (update G t g') := by
  have hframe : (s.reparent p q).lock = s.lock ∧ (s.reparent p q).ncli = s.ncli ∧
      (s.reparent p q).cur = s.cur ∧ (s.reparent p q).cproc = s.cproc := by
    unfold Kernel.reparent
    split
    · split <;> exact ⟨rfl, rfl, rfl, rfl⟩
    · exact ⟨rfl, rfl, rfl, rfl⟩
  refine h.kept hc hframe.1 hframe.2.1 hframe.2.2.1 hframe.2.2.2 hlocks hpick hphase fun r => ?_
  rcases reparent_state (s := s) p q r with heq | ⟨hsl, _, hrun⟩
  · rw [heq]
  · rw [hsl, hrun]
    simp

end

/-! ## Context switches -/

/-- `sched` switches to the scheduler of the CPU; the lock goes with it. -/
theorem Placed.leave (h : Placed s G) (hc : s.cur c = .proc p)
    (hlocks : (G (.proc p)).locks = {.ptable}) (hoff : (G (.proc p)).phase = .off)
    (hlocks' : g'.locks = {.ptable}) (haway : g'.phase = .away) :
    Placed ((s.setProc p fun pr => { pr with context := .sched }).goto c (.sched c))
      (update G (.proc p) g') := by
  have hgone := h.gone c p hc
  have hstate : ∀ q, (((s.setProc p fun pr => { pr with context := .sched }).goto c
      (.sched c)).proc q).state = (s.proc q).state := by
    intro q
    by_cases hq : q = p
    · subst hq
      simp [Kernel.goto]
    · simp [Kernel.goto, setProc_ne hq]
  have hne : ∀ d, d ≠ c → s.cur d ≠ .proc p := fun d hd hdp => hd (h.cur_inj hdp hc)
  have hcur : ∀ d, d ≠ c → ((s.setProc p fun pr => { pr with context := .sched }).goto c
      (.sched c)).cur d = s.cur d := fun d hd => update_of_ne hd _ _
  have hcurc : ((s.setProc p fun pr => { pr with context := .sched }).goto c
      (.sched c)).cur c = .sched c := update_self _ _ _
  refine ⟨fun d l => ?_, fun d => ?_, fun d => ?_, fun d => ?_, fun d q hd => ?_,
    fun d q b hd hq => ?_, fun d d' q => ?_, fun q hq => ?_, fun d q hd => ?_, fun q hq => ?_,
    fun q hq => ?_, fun q hq => ?_⟩
  · by_cases hd : d = c
    · subst hd
      rw [hcurc, update_of_ne (by simp), hgone.1, ← hlocks, ← hc]
      exact h.lock d l
    · rw [hcur d hd, update_of_ne (hne d hd)]
      exact h.lock d l
  · by_cases hd : d = c
    · subst hd
      rw [hcurc, update_of_ne (by simp), hgone.1, ← hlocks, ← hc]
      exact h.ncli d
    · rw [hcur d hd, update_of_ne (hne d hd)]
      exact h.ncli d
  · by_cases hd : d = c
    · subst hd
      exact Or.inl hcurc
    · rw [hcur d hd]
      exact h.cur d
  · rw [update_of_ne (by simp)]
    exact h.cproc d
  · have hdc : d ≠ c := by
      rintro rfl
      rw [hcurc] at hd
      cases hd
    rw [hcur d hdc] at hd
    rw [update_of_ne (by simp)]
    exact h.gone d q hd
  · rw [update_of_ne (by simp)] at hq ⊢
    rw [hstate]
    by_cases hdc : d = c
    · -- the process has stored another state than RUNNING
      subst hdc
      rw [hgone.2] at hq
      cases hq
      rw [hgone.1, h.here d p hc, hoff]
      simp
    · rw [hcur d hdc] at hd
      exact h.back d q b hd hq
  · exact h.uniq d d' q
  · rw [hstate] at hq
    exact h.running q hq
  · have hdc : d ≠ c := by
      rintro rfl
      rw [hcurc] at hd
      cases hd
    rw [hcur d hdc] at hd
    have hqp : q ≠ p := by
      rintro rfl
      exact hne d hdc hd
    rw [hstate, update_of_ne (by simpa using hqp)]
    exact h.here d q hd
  · by_cases hqp : q = p
    · subst hqp
      rw [update_self, hlocks']
      simp
    · rw [update_of_ne (by simpa using hqp)] at hq ⊢
      exact h.holds q hq
  · by_cases hqp : q = p
    · subst hqp
      rw [update_self, haway]
    · rw [update_of_ne (by simpa using hqp)]
      apply h.away q
      intro d hd
      by_cases hdc : d = c
      · subst hdc
        rw [hc] at hd
        cases hd
        exact hqp rfl
      · exact hq d (by rw [hcur d hdc]; exact hd)
  · by_cases hqp : q = p
    · subst hqp
      rw [update_self, hlocks']
    · rw [update_of_ne (by simpa using hqp)] at hq ⊢
      exact h.only q hq

/-- A scheduler picks a process. -/
theorem Placed.pick (h : Placed s G) (hc : s.cur c = .sched c)
    (htab : .ptable ∈ (G (.sched c)).locks) (hpick : (G (.sched c)).pick = none)
    (hrun : (s.proc p).state = .RUNNABLE) (hlocks' : g'.locks = (G (.sched c)).locks)
    (hpick' : g'.pick = some (p, true)) :
    Placed ((s.setProc p fun pr => { pr with state := .RUNNING }).setCproc c (some p))
      (update G (.sched c) g') := by
  have hself : (((s.setProc p fun pr => { pr with state := .RUNNING }).setCproc c
      (some p)).proc p).state = .RUNNING := by
    simp [Kernel.setCproc]
  have hother : ∀ q, q ≠ p → ((s.setProc p fun pr => { pr with state := .RUNNING }).setCproc c
      (some p)).proc q = s.proc q := fun q hq => update_of_ne hq _ _
  have hcp : ∀ d, d ≠ c → ((s.setProc p fun pr => { pr with state := .RUNNING }).setCproc c
      (some p)).cproc d = s.cproc d := fun d hd => update_of_ne hd _ _
  have hcpc : ((s.setProc p fun pr => { pr with state := .RUNNING }).setCproc c
      (some p)).cproc c = some p := update_self _ _ _
  have hlk : ∀ r, (update G (.sched c) g' r).locks = (G r).locks := by
    intro r
    by_cases hr : r = .sched c
    · subst hr
      simp [hlocks']
    · rw [update_of_ne hr]
  -- `p` is in no CPU's `c->proc` yet
  have hnew : ∀ d, s.cproc d ≠ some p := by
    intro d
    by_cases hd : d = c
    · subst hd
      rw [h.cproc, hpick]
      simp
    · exact h.not_cproc hc htab (by rw [hrun]; simp) hd
  refine ⟨fun d l => ?_, fun d => ?_, h.cur, fun d => ?_, fun d q hd => ?_,
    fun d q b hd hq => ?_, fun d d' q hd hd' => ?_, fun q hq => ?_, fun d q hd => ?_,
    fun q hq => ?_, fun q hq => ?_, fun q hq => ?_⟩
  · rw [hlk]
    exact h.lock d l
  · rw [hlk]
    exact h.ncli d
  · by_cases hd : d = c
    · subst hd
      rw [hcpc, update_self, hpick']
      rfl
    · rw [hcp d hd, update_of_ne (by simpa using hd)]
      exact h.cproc d
  · have hdc : d ≠ c := by
      rintro rfl
      change s.cur d = _ at hd
      rw [hc] at hd
      cases hd
    rw [hlk, update_of_ne (by simpa using hdc)]
    exact h.gone d q hd
  · rw [hlk]
    by_cases hdc : d = c
    · subst hdc
      rw [update_self, hpick'] at hq
      cases hq
      exact ⟨htab, by rw [hself]; simp⟩
    · rw [update_of_ne (by simpa using hdc)] at hq
      have hqp : q ≠ p := by
        rintro rfl
        apply hnew d
        rw [h.cproc, hq]
        rfl
      rw [hother q hqp]
      exact h.back d q b hd hq
  · by_cases hdc : d = c
    · subst hdc
      rw [hcpc] at hd
      cases hd
      by_contra hne
      rw [hcp d' (Ne.symm hne)] at hd'
      exact hnew d' hd'
    · rw [hcp d hdc] at hd
      by_cases hdc' : d' = c
      · subst hdc'
        rw [hcpc] at hd'
        cases hd'
        exact absurd hd (hnew d)
      · rw [hcp d' hdc'] at hd'
        exact h.uniq d d' q hd hd'
  · by_cases hqp : q = p
    · subst hqp
      exact ⟨c, hcpc⟩
    · rw [hother q hqp] at hq
      obtain ⟨d, hd⟩ := h.running q hq
      have hdc : d ≠ c := by
        rintro rfl
        rw [h.cproc, hpick] at hd
        cases hd
      exact ⟨d, by rw [hcp d hdc]; exact hd⟩
  · have hqp : q ≠ p := by
      rintro rfl
      exact hnew d (h.cproc_of_cur hd)
    rw [hother q hqp, update_of_ne (by simp)]
    exact h.here d q hd
  · rw [update_of_ne (by simp)] at hq ⊢
    exact h.holds q hq
  · rw [update_of_ne (by simp)]
    exact h.away q hq
  · rw [update_of_ne (by simp)] at hq ⊢
    exact h.only q hq

/-- A scheduler switches to the process it has picked; the lock goes with it. -/
theorem Placed.swtch (h : Placed s G) (hc : s.cur c = .sched c)
    (hlocks : (G (.sched c)).locks = {.ptable}) (hpick : (G (.sched c)).pick = some (p, true))
    (hlocks' : g'.locks = {.ptable}) (hpick' : g'.pick = some (p, false)) :
    Placed (s.goto c (.proc p)) (update G (.sched c) g') := by
  have hcp : s.cproc c = some p := by
    rw [h.cproc, hpick]
    rfl
  -- the process is switched away and holds the lock that the scheduler hands it
  have haway : (G (.proc p)).phase = .away := by
    apply h.away p
    intro d hd
    have hdc := h.uniq d c p (h.cproc_of_cur hd) hcp
    rw [hdc, hc] at hd
    cases hd
  have hplocks := h.only p haway
  have hne : ∀ d, d ≠ c → s.cur d ≠ .sched c := fun d hd hds => hd (h.cur_inj hds hc)
  have hcur : ∀ d, d ≠ c → (s.goto c (.proc p)).cur d = s.cur d :=
    fun d hd => update_of_ne hd _ _
  have hcurc : (s.goto c (.proc p)).cur c = .proc p := update_self _ _ _
  refine ⟨fun d l => ?_, fun d => ?_, fun d => ?_, fun d => ?_, fun d q hd => ?_,
    fun d q b hd hq => ?_, h.uniq, h.running, fun d q hd => ?_, fun q hq => ?_,
    fun q hq => ?_, fun q hq => ?_⟩
  · by_cases hd : d = c
    · subst hd
      rw [hcurc, update_of_ne (by simp), hplocks, ← hlocks, ← hc]
      exact h.lock d l
    · rw [hcur d hd, update_of_ne (hne d hd)]
      exact h.lock d l
  · by_cases hd : d = c
    · subst hd
      rw [hcurc, update_of_ne (by simp), hplocks, ← hlocks, ← hc]
      exact h.ncli d
    · rw [hcur d hd, update_of_ne (hne d hd)]
      exact h.ncli d
  · by_cases hd : d = c
    · subst hd
      exact Or.inr ⟨p, hcurc⟩
    · rw [hcur d hd]
      exact h.cur d
  · by_cases hd : d = c
    · subst hd
      rw [update_self, hpick']
      exact hcp
    · rw [update_of_ne (by simpa using hd)]
      exact h.cproc d
  · by_cases hdc : d = c
    · subst hdc
      rw [hcurc] at hd
      cases hd
      rw [update_self]
      exact ⟨hlocks', hpick'⟩
    · rw [hcur d hdc] at hd
      rw [update_of_ne (by simpa using hdc)]
      exact h.gone d q hd
  · have hdc : d ≠ c := by
      rintro rfl
      rw [hcurc] at hd
      cases hd
    rw [hcur d hdc] at hd
    rw [update_of_ne (by simpa using hdc)] at hq ⊢
    exact h.back d q b hd hq
  · rw [update_of_ne (by simp)]
    by_cases hdc : d = c
    · subst hdc
      rw [hcurc] at hd
      cases hd
      have hrun := (h.back d p true hc hpick).2
      rw [haway]
      simpa [Kernel.goto] using hrun
    · rw [hcur d hdc] at hd
      exact h.here d q hd
  · rw [update_of_ne (by simp)] at hq ⊢
    exact h.holds q hq
  · rw [update_of_ne (by simp)]
    apply h.away q
    intro d hd
    by_cases hdc : d = c
    · subst hdc
      rw [hc] at hd
      cases hd
    · exact hq d (by rw [hcur d hdc]; exact hd)
  · rw [update_of_ne (by simp)] at hq ⊢
    exact h.only q hq

/-- The process a scheduler had switched to has come back. -/
theorem Placed.unpick (h : Placed s G) (hc : s.cur c = .sched c)
    (hpick : (G (.sched c)).pick = some (p, false)) (hlocks' : g'.locks = (G (.sched c)).locks)
    (hpick' : g'.pick = none) : Placed (s.setCproc c none) (update G (.sched c) g') := by
  have hcp : ∀ d, d ≠ c → (s.setCproc c none).cproc d = s.cproc d :=
    fun d hd => update_of_ne hd _ _
  have hcpc : (s.setCproc c none).cproc c = none := update_self _ _ _
  have hlk : ∀ r, (update G (.sched c) g' r).locks = (G r).locks := by
    intro r
    by_cases hr : r = .sched c
    · subst hr
      simp [hlocks']
    · rw [update_of_ne hr]
  refine ⟨fun d l => ?_, fun d => ?_, h.cur, fun d => ?_, fun d q hd => ?_,
    fun d q b hd hq => ?_, fun d d' q hd hd' => ?_, fun q hq => ?_, fun d q hd => ?_,
    fun q hq => ?_, fun q hq => ?_, fun q hq => ?_⟩
  · rw [hlk]
    exact h.lock d l
  · rw [hlk]
    exact h.ncli d
  · by_cases hd : d = c
    · subst hd
      rw [hcpc, update_self, hpick']
      rfl
    · rw [hcp d hd, update_of_ne (by simpa using hd)]
      exact h.cproc d
  · have hdc : d ≠ c := by
      rintro rfl
      change s.cur d = _ at hd
      rw [hc] at hd
      cases hd
    rw [hlk, update_of_ne (by simpa using hdc)]
    exact h.gone d q hd
  · have hdc : d ≠ c := by
      rintro rfl
      rw [update_self, hpick'] at hq
      cases hq
    rw [update_of_ne (by simpa using hdc)] at hq ⊢
    exact h.back d q b hd hq
  · have hne : ∀ e, (s.setCproc c none).cproc e = some q → s.cproc e = some q := by
      intro e he
      by_cases hec : e = c
      · subst hec
        rw [hcpc] at he
        cases he
      · rw [hcp e hec] at he
        exact he
    exact h.uniq d d' q (hne d hd) (hne d' hd')
  · obtain ⟨d, hd⟩ := h.running q hq
    have hdc : d ≠ c := by
      rintro rfl
      have hst := (h.back d p false hc hpick).2
      rw [h.cproc, hpick] at hd
      cases hd
      exact Bool.false_ne_true (hst.mp hq)
    exact ⟨d, by rw [hcp d hdc]; exact hd⟩
  · rw [update_of_ne (by simp)]
    exact h.here d q hd
  · rw [update_of_ne (by simp)] at hq ⊢
    exact h.holds q hq
  · rw [update_of_ne (by simp)]
    exact h.away q hq
  · rw [update_of_ne (by simp)] at hq ⊢
    exact h.only q hq

/-! ## All steps -/

/-- The process table stays as it is, but a process is `fork`ed, born or
    abandoned: one EMBRYO slot of the thread changes. -/
theorem Tied.child_only (h : Tied s G) {np : Slot} {b : Bool} (hchild : (G t).child = some (np, b))
    (hnew : g'.child = none ∨ ∃ p, g'.child = some (np, true) ∧ t = .proc p ∧
      (f (s.proc np)).state = .EMBRYO ∧ (f (s.proc np)).parent = some p)
    (hsleep : (f (s.proc np)).state ≠ .SLEEPING) (hzombie : (f (s.proc np)).state ≠ .ZOMBIE)
    (hparent : (f (s.proc np)).parent = (s.proc np).parent ∨
      ¬ s.Active t ∧ ∃ p, t = .proc p ∧ (f (s.proc np)).parent = some p) (hdue : g'.due = (G t).due)
    (hwoken : g'.woken = (G t).woken) (hscan : g'.scan = (G t).scan)
    (hmoved : g'.moved = (G t).moved) : Tied (s.setProc np f) (update G t g') := by
  -- for the active thread, the children are the same as before
  have hkid : ∀ r, s.Active r → ∀ p, r = .proc p → ∀ q,
      ((s.setProc np f).proc q).parent = some p → (s.proc q).parent = some p := by
    intro r hr p hp q hq
    by_cases hqn : q = np
    · subst hqn
      rw [setProc_self] at hq
      rcases hparent with heq | ⟨hna, p', hp', hpar⟩
      · rw [← heq]
        exact hq
      · rw [hpar] at hq
        cases hq
        exact absurd (hp.trans hp'.symm ▸ hr) hna
    · rw [setProc_ne hqn] at hq
      exact hq
  have hz : ∀ q, ((s.setProc np f).proc q).state = .ZOMBIE → (s.proc q).state = .ZOMBIE :=
    fun q => of_setProc (P := fun pr => pr.state = .ZOMBIE) fun hq => absurd hq hzombie
  have hs : ∀ chan q, (s.setProc np f).Asleep q chan → s.Asleep q chan := fun chan q =>
    of_setProc (P := fun pr => pr.state = .SLEEPING ∧ pr.chan = chan) fun hq => absurd hq.1 hsleep
  refine h.table rfl rfl (fun np' b' hnp => ?_) (fun r hr np' b' hnp hst => ?_) (fun hd => ?_)
    (fun chan q hq => ?_) (fun q hq => ?_) (fun q hq => ?_)
    (fun r _ ha => ⟨hs, fun p hp q hq => ⟨hkid r ha p hp q hq, hz q⟩⟩)
  · rcases hnew with hnone | ⟨p, hsome, ht, hst, hpar⟩
    · rw [hnone] at hnp
      cases hnp
    · rw [hsome] at hnp
      cases hnp
      rw [setProc_self]
      exact ⟨hst, fun _ => ⟨p, ht, hpar⟩,
        fun r hr b' hr' => hr (h.child_uniq r t np b' b hr' hchild)⟩
  · have hne : np' ≠ np := by
      rintro rfl
      exact hr (h.child_uniq r t np' b' b hnp hchild)
    rw [setProc_ne hne]
    exact ⟨hst, fun _ _ hp => hp⟩
  · exact h.due t (by rw [← hdue]; exact hd)
  · rw [hwoken] at hq
    exact ⟨(h.woken t chan q hq).1, fun h' => (h.woken t chan q hq).2 (hs chan q h')⟩
  · rw [hscan] at hq
    obtain ⟨ha, hna⟩ := h.scan t q hq
    exact ⟨ha, fun p hp h' => hna p hp ⟨hkid t ha p hp q h'.1, hz q h'.2⟩⟩
  · rw [hmoved] at hq
    obtain ⟨ha, hna⟩ := h.moved t q hq
    exact ⟨ha, fun p hp h' => hna p hp (hkid t ha p hp q h')⟩

/-- `allocproc` takes a slot. -/
theorem Tied.alloc (h : Tied s G) {np : Slot} (hfree : (s.proc np).state = .UNUSED)
    (hf : (f (s.proc np)).state = .EMBRYO) (hfp : (f (s.proc np)).parent = (s.proc np).parent)
    (hnew : g'.child = some (np, false)) (hdue : g'.due = (G t).due)
    (hwoken : g'.woken = (G t).woken) (hscan : g'.scan = (G t).scan)
    (hmoved : g'.moved = (G t).moved) : Tied (s.setProc np f) (update G t g') := by
  -- nobody fills an UNUSED slot
  have hnone : ∀ r b, (G r).child ≠ some (np, b) := by
    intro r b hr
    have := (h.child r np b hr).1
    rw [hfree] at this
    cases this
  have hkid : ∀ p q, ((s.setProc np f).proc q).parent = some p → (s.proc q).parent = some p :=
    fun p q => of_setProc (P := fun pr => pr.parent = some p) fun hq => hfp ▸ hq
  have hz : ∀ q, ((s.setProc np f).proc q).state = .ZOMBIE → (s.proc q).state = .ZOMBIE :=
    fun q => of_setProc (P := fun pr => pr.state = .ZOMBIE) fun hq => by rw [hf] at hq; cases hq
  have hs : ∀ chan q, (s.setProc np f).Asleep q chan → s.Asleep q chan := fun chan q =>
    of_setProc (P := fun pr => pr.state = .SLEEPING ∧ pr.chan = chan) fun hq => by
      rw [hf] at hq
      cases hq.1
  refine h.table rfl rfl (fun np' b' hnp => ?_) (fun r hr np' b' hnp hemb => ?_) (fun hd => ?_)
    (fun chan q hq => ?_) (fun q hq => ?_) (fun q hq => ?_)
    (fun r _ _ => ⟨hs, fun p _ q hq => ⟨hkid p q hq, hz q⟩⟩)
  · rw [hnew] at hnp
    cases hnp
    rw [setProc_self]
    exact ⟨hf, by simp, fun r _ b => hnone r b⟩
  · have hne : np' ≠ np := by
      rintro rfl
      exact hnone r b' hnp
    rw [setProc_ne hne]
    exact ⟨hemb, fun _ _ hp => hp⟩
  · exact h.due t (by rw [← hdue]; exact hd)
  · rw [hwoken] at hq
    exact ⟨(h.woken t chan q hq).1, fun h' => (h.woken t chan q hq).2 (hs chan q h')⟩
  · rw [hscan] at hq
    obtain ⟨ha, hna⟩ := h.scan t q hq
    exact ⟨ha, fun p hp h' => hna p hp ⟨hkid p q h'.1, hz q h'.2⟩⟩
  · rw [hmoved] at hq
    obtain ⟨ha, hna⟩ := h.moved t q hq
    exact ⟨ha, fun p hp h' => hna p hp (hkid p q h')⟩

theorem Tied.acquire [DecidableEq L] (ht : Tied s G) {k : Lock L} (hfree : s.lock k = none) :
    Tied (s.take k c) (update G t { G t with locks := insert k (G t).locks }) := by
  by_cases hk : k = .ptable
  · subst hk
    -- nobody held the lock, so nobody knew anything
    have hno : ∀ r, ¬ s.Active r := by
      rintro r ⟨d, _, hd⟩
      rw [hfree] at hd
      cases hd
    have hdue : (G t).due = none := by
      by_contra hd
      exact hno t (ht.due t hd)
    exact ht.switch (fun r hr => absurd hr (hno r)) (fun q hq => ⟨hq, rfl⟩) rfl hdue
      (fun chan q hq => hno t (ht.woken t chan q hq).1) (fun q hq => hno t (ht.scan t q hq).1)
      (fun q hq => hno t (ht.moved t q hq).1)
  · have hlock : (s.take k c).lock .ptable = s.lock .ptable :=
      update_of_ne (Ne.symm hk) _ _
    exact ht.relock rfl rfl hlock rfl (ht.due t) rfl rfl rfl

/-- The process stores a new state and forgets what it knew. -/
theorem Fits.off (h : Fits s G) (hc : s.cur c = .proc p) (htab : .ptable ∈ (G (.proc p)).locks)
    (hon : (G (.proc p)).phase = .on) (hf : (f (s.proc p)).state ≠ .RUNNING)
    (hlocks : g'.locks = (G (.proc p)).locks) (hpick : g'.pick = (G (.proc p)).pick)
    (hphase : g'.phase = .off) (hchild : g'.child = (G (.proc p)).child) (hdue : g'.due = none)
    (hwoken : ∀ chan q, q ∉ g'.woken chan) (hscan : ∀ q, q ∉ g'.scan) (hmoved : ∀ q, q ∉ g'.moved) :
    Fits (s.setProc p f) (update G (.proc p) g') := by
  obtain ⟨hp, ht⟩ := h
  have hrun : (s.proc p).state = .RUNNING := (hp.here c p hc).mpr (by rw [hon]; simp)
  refine ⟨hp.off hc htab hf hlocks hpick hphase, ?_⟩
  refine ht.switch (fun r hr => hp.only_active hc htab hr) (embryo_setProc fun hemb => ?_)
    hchild hdue hwoken hscan hmoved
  rw [hrun] at hemb
  cases hemb

section

variable [DecidableEq L] [DecidableEq K]
  {May : Lock L → Γ → Prop} {l : Act}

theorem Trans.fits (h : Fits s G) (hc : s.cur c = t) (htr : Trans May t c G s l s' g') :
    Fits s' (update G t g') := by
  have ⟨hp, ht⟩ := h
  have honly : .ptable ∈ (G t).locks → ∀ r, s.Active r → r = t :=
    fun htab r hr => hp.only_active hc htab hr
  cases htr with
  | quiet =>
    rw [update_eq_self]
    exact h
  | acquire hfree hon => exact ⟨hp.acquire hc hfree hon, ht.acquire hfree⟩
  | @release a k hl hon hmay =>
    exact ⟨hp.release hc hl hon rfl hon rfl (by simp),
      ht.relock rfl rfl (give_other_lock k) rfl (ht.due t) rfl rfl rfl⟩
  | unlock hl hon hpick hdue hmay =>
    exact ⟨hp.release hc hl hon rfl hon rfl fun _ => hpick,
      ht.switch (honly hl) (fun q hq => ⟨hq, rfl⟩) rfl hdue (fun _ _ => id) (fun _ => id)
        (fun _ => id)⟩
  | yields heq htab hon hdue hmay =>
    subst heq
    exact h.off hc htab hon (by simp) rfl rfl rfl rfl hdue (fun _ _ => id) (fun _ => id)
      (fun _ => id)
  | sleeps heq htab hon hdue hmay hscan =>
    subst heq
    exact h.off hc htab hon (by simp) rfl rfl rfl rfl rfl (fun _ _ => id) (fun _ => id)
      (fun _ => id)
  | @exits p heq htab hon hdue hmay hchild hinit hmoved hwoken =>
    subst heq
    refine Fits.congr (s := s.setProc p fun pr => { pr with state := .ZOMBIE }) ?_ rfl rfl rfl rfl rfl
    exact h.off hc htab hon (by simp) rfl rfl rfl rfl hdue (fun _ _ => id) (fun _ => id)
      (fun _ => id)
  | @leave p heq hlocks hoff hdue hmay =>
    subst heq
    refine ⟨hp.leave hc hlocks hoff hlocks rfl, ?_⟩
    refine ht.switch (honly (by rw [hlocks]; simp)) ?_ rfl hdue (fun _ _ => id) (fun _ => id)
      (fun _ => id)
    exact embryo_setProc (s := s) (p := p) (f := fun pr => { pr with context := .sched })
      fun hst => ⟨hst, rfl⟩
  | @land l p heq haway =>
    subst heq
    have hrun := hp.here c p hc
    rw [haway] at hrun
    refine ⟨hp.table hc rfl rfl rfl rfl rfl rfl (fun _ _ => Iff.rfl) (fun q hq => ?_)
      (Or.inr (Or.inr rfl)), ht.relock rfl rfl rfl rfl (ht.due _) rfl rfl rfl⟩
    cases hq
    simpa using hrun
  | @pick p heq htab hpick hrun =>
    subst heq
    refine ⟨hp.pick hc htab hpick hrun rfl rfl, ?_⟩
    refine Tied.congr (s := s.setProc p fun pr => { pr with state := .RUNNING }) ?_ rfl rfl rfl
    exact ht.setProc (by simp [hrun]) (by simp) (fun _ => id) (by simp) rfl (ht.due _)
      (fun _ _ => Or.inl) rfl rfl
  | swtch heq hlocks hpick hdue hmay =>
    subst heq
    exact ⟨hp.swtch hc hlocks hpick hlocks rfl, ht.switch (honly (by rw [hlocks]; simp))
      (fun q hq => ⟨hq, rfl⟩) rfl hdue (fun _ _ => id) (fun _ => id) (fun _ => id)⟩
  | unpick heq hpick =>
    subst heq
    exact ⟨hp.unpick hc hpick rfl rfl, ht.relock rfl rfl rfl rfl (ht.due _) rfl rfl rfl⟩
  | @wake chan q htab =>
    have hne : ∀ x, x ≠ .SLEEPING → (s.proc q).state = x → (s.proc q).wake chan = s.proc q :=
      fun x hx hq => wake_of_ne (by rw [hq]; exact hx)
    refine ⟨hp.setProc hc ⟨fun hr => wake_state_of hr (by simp), fun hr => ?_⟩ rfl rfl rfl,
      ht.setProc (fun hst => ?_) (fun hst => ⟨wake_state_of hst (by simp), by simp⟩) (fun _ => ?_)
      (fun hst => wake_state_of hst (by simp)) rfl (ht.due _) (fun chan' r hr => ?_) rfl rfl⟩
    · rw [hne _ (by simp) hr]
      exact hr
    · rw [hne _ (by simp) hst]
      exact ⟨hst, rfl⟩
    · rw [wake_parent]
      exact id
    · change r ∈ update (G t).woken chan (insert q ((G t).woken chan)) chan' at hr
      by_cases hch : chan' = chan
      · subst hch
        rw [update_self] at hr
        rcases hr with hr | hr
        · subst hr
          refine Or.inr ⟨hp.active hc htab, fun h' => ?_⟩
          unfold Kernel.Asleep at h'
          rw [setProc_self, wake_chan] at h'
          exact wake_not_asleep chan' _ h'
        · exact Or.inl hr
      · rw [update_of_ne hch] at hr
        exact Or.inl hr
  | kill htab hdue hpid =>
    exact ⟨hp.setProc hc Iff.rfl rfl rfl rfl, ht.setProc (fun hst => ⟨hst, rfl⟩)
      (fun hst => ⟨hst, rfl⟩) (fun _ => id) id rfl (fun _ => hp.active hc htab) (fun _ _ => Or.inl) rfl rfl⟩
  | @rouse q htab hdue =>
    by_cases hsl : (s.proc q).state = .SLEEPING
    · refine ⟨hp.setProc hc ?_ rfl rfl rfl, ht.setProc ?_ ?_ ?_ ?_ rfl (absurd rfl)
        (fun _ _ => Or.inl) rfl rfl⟩ <;> simp [rouse_of_eq hsl, hsl]
    · refine ⟨hp.setProc hc ?_ rfl rfl rfl, ht.setProc ?_ ?_ ?_ ?_ rfl (absurd rfl)
        (fun _ _ => Or.inl) rfl rfl⟩ <;> rw [rouse_of_ne hsl] <;> simp
  | @alloc p np heq htab hfree =>
    refine Fits.congr (s := s.setProc np fun pr =>
      { pr with state := .EMBRYO, pid := s.nextpid, hit := false }) ?_ rfl rfl rfl rfl rfl
    exact ⟨hp.setProc hc (by simp [hfree]) rfl rfl rfl,
      ht.alloc hfree rfl rfl rfl rfl rfl rfl rfl⟩
  | unalloc hchild =>
    have hst := (ht.child _ _ _ hchild).1
    exact ⟨hp.setProc hc (by simp [hst]) rfl rfl rfl,
      ht.child_only hchild (Or.inl rfl) (by simp) (by simp) (Or.inl rfl) rfl rfl rfl rfl⟩
  | ready hchild =>
    exact ⟨hp.setProc hc Iff.rfl rfl rfl rfl, ht.setProc (fun hst => ⟨hst, rfl⟩)
      (fun hst => ⟨hst, rfl⟩) (fun _ => id) id rfl (ht.due _) (fun _ _ => Or.inl) rfl rfl⟩
  | @adopt p np heq hon htab hchild =>
    have hst := (ht.child _ _ _ hchild).1
    have hna : ¬ s.Active t := by
      rintro ⟨d, hd, hlock⟩
      apply htab
      rw [hp.lock, hd] at hlock
      exact hlock
    refine ⟨hp.setProc hc Iff.rfl rfl rfl rfl, ?_⟩
    exact ht.child_only hchild (Or.inr ⟨p, rfl, heq, hst, rfl⟩) (by simp [hst]) (by simp [hst])
      (Or.inr ⟨hna, p, heq, rfl⟩) rfl rfl rfl rfl
  | born htab hchild =>
    have hst := (ht.child _ _ _ hchild).1
    exact ⟨hp.setProc hc (by simp [hst]) rfl rfl rfl,
      ht.child_only hchild (Or.inl rfl) (by simp) (by simp) (Or.inl rfl) rfl rfl rfl rfl⟩
  | reparent heq htab hchild hinit =>
    subst heq
    exact ⟨hp.reparent hc rfl rfl rfl, ht.reparent (hp.active hc htab) hchild hinit⟩
  | returns heq =>
    exact Fits.congr ⟨hp.kept hc rfl rfl rfl rfl rfl rfl rfl fun _ => Iff.rfl,
      ht.relock rfl rfl rfl rfl (ht.due t) rfl rfl rfl⟩ rfl rfl rfl rfl rfl
  | @reap p q heq htab hparent hzombie hgot =>
    refine Fits.congr (s := s.setProc q fun pr =>
      { pr with pid := 0, parent := none, killed := false, state := .UNUSED }) ?_ rfl rfl rfl rfl rfl
    exact ⟨hp.setProc hc (by simp [hzombie]) rfl rfl rfl, ht.setProc (by simp [hzombie]) (by simp)
      (by simp) (by simp) rfl (ht.due _) (fun _ _ => Or.inl) rfl rfl⟩
  | @scanned p q heq htab hq =>
    subst heq
    refine ⟨hp.kept hc rfl rfl rfl rfl rfl rfl rfl fun _ => Iff.rfl, ?_⟩
    refine ht.kept rfl rfl rfl (ht.due _) (fun r hr => ⟨hr, rfl⟩) (fun _ _ => Or.inl) (fun r hr => ?_) rfl
      (fun _ _ => id) (fun _ _ hr => ⟨hr, id⟩)
    rcases hr with hr | hr
    · subst hr
      refine Or.inr ⟨hp.active hc htab, fun p' hp' => ?_⟩
      cases hp'
      exact hq
    · exact Or.inl hr
  | kin heq htab hon =>
    exact ⟨hp.kept hc rfl rfl rfl rfl rfl rfl rfl fun _ => Iff.rfl,
      ht.relock rfl rfl rfl rfl (ht.due t) rfl rfl rfl⟩
  | @tidy p heq hon =>
    subst heq
    have hrun : (s.proc p).state = .RUNNING := (hp.here c p hc).mpr (by rw [hon]; simp)
    exact ⟨hp.setProc hc Iff.rfl rfl rfl rfl, ht.setProc (by simp [hrun]) (by simp [hrun])
      (fun _ => id) id rfl (ht.due _) (fun _ _ => Or.inl) rfl rfl⟩

end

end Xv6.Kern
