import Xv6.Kern.Family

/-! # Symbolic execution of `proc.c`

    Every action of every function of `proc.c` is one of the steps listed in
    `Trans`. This is shown once, for a family of regimes: a regime (`Rules`)
    adds an invariant of its own and a condition on the steps that are taken;
    what it must satisfy (`Rules.Lawful`) is stated in terms of `Trans`. The
    users of `sleep` and `wakeup` choose a regime whose invariant is about
    their own data.
-/

namespace Xv6.Kern

open Op Prog Function

/-! ## Regimes -/

/-- A regime: an invariant and a condition on steps. -/
structure Rules (C L K E Γ : Type) where
  /-- What holds in addition to coherence. -/
  Inv : Kernel C L K E → (Thread C → Ghost L K Γ) → Prop
  /-- The steps that are taken. -/
  Cond : Kernel C L K E → C → Act → Prop
  /-- A thread with this addition to its ghost state may give up the lock. -/
  May : Lock L → Γ → Prop
  /-- What a thread adds to its ghost state between two calls. -/
  rest : Γ

/-- Two panics are left to the processes. -/
def Fine (msg : String) : Prop := msg = "init exiting" ∨ msg = "zombie exit"

variable {C L K E Γ : Type} {l : Act}

/-- The regime as an instance of the proof rule. -/
def Rules.logic (R : Rules C L K E Γ) :
    Machine.Logic C (Kernel C L K E) (Thread C) Act (Ghost L K Γ) where
  cur := Kernel.cur
  Coh s G := Coh s G ∧ R.Inv s G
  idle := .idle R.rest
  Cond := R.Cond
  Fine := Fine

/-- `myproc()` of a process is the process. -/
theorem cproc_of_at {R : Rules C L K E Γ} {g : Ghost L K Γ} {p : Slot} {c : C} {s : Kernel C L K E}
    {G : Thread C → Ghost L K Γ} (hat : R.logic.At (.proc p) g l c s G) :
    s.cproc c = some p :=
  hat.coh.1.placed.cproc_of_cur hat.cur

variable [DecidableEq C] [DecidableEq L] [DecidableEq K]

/-- What a regime has to satisfy. -/
structure Rules.Lawful (R : Rules C L K E Γ) : Prop where
  /-- The steps keep the invariant. -/
  step : ∀ {t c G s l s' g'}, R.logic.At t (G t) l c s G → Trans R.May t c G s l s' g' →
    R.Inv s' (update G t g')
  /-- A process may sleep in `wait` when it has seen that no child is a zombie. -/
  wait : ∀ {p c G s l}, R.logic.At (.proc p) (G (.proc p)) l c s G →
    (∀ q, q ∈ (G (.proc p)).scan) → (G (.proc p)).due = none → (G (.proc p)).extra = R.rest →
    R.Inv s (update G (.proc p) { G (.proc p) with due := some (.sleep (.proc p)) })
  /-- Between two calls a thread may give up every lock. -/
  may : ∀ l, R.May l R.rest
  /-- So may a thread that is interrupted. -/
  irq : ∀ {c G s}, Coh s G → R.Inv s G → interruptible s c = true →
    R.May .ptable (G (s.cur c)).extra

variable {R : Rules C L K E Γ} {t : Thread C} {g g' : Ghost L K Γ} {α : Type} {m : KOp C L K E α}
  {lk : L}

/-- One action that is a step of `Trans`. -/
theorem safe_act (hR : R.Lawful) {Q : α → Ghost L K Γ → Prop}
    (hm : ∀ c s G, R.logic.At t g l c s G →
      m.wlp Fine (fun b s' => ∃ g', Trans R.May t c G s l s'.2 g' ∧ Q b g') (c, s)) :
    R.logic.Safe t (.atomic l m) g Q := by
  refine Machine.Logic.safe_atomic fun c s G hat => ?_
  apply (hm c s G hat).mono (fun _ => id)
  intro b s' hb
  obtain ⟨g', ht, hQ⟩ := hb
  have hat' : R.logic.At t (G t) l c s G := by rw [hat.self]; exact hat
  exact ⟨g', ⟨ht.coh hat.coh.1 hat.cur, hR.step hat' ht⟩, hQ⟩

/-- An action that only reads. -/
theorem safe_read (hR : R.Lawful) {Q : α → Ghost L K Γ → Prop}
    (hm : ∀ c s G, R.logic.At t g l c s G →
      m.wlp Fine (fun b s' => s'.2 = s ∧ Q b g) (c, s)) : R.logic.Safe t (.atomic l m) g Q := by
  refine safe_act hR fun c s G hat => ?_
  apply (hm c s G hat).mono (fun _ => id)
  intro b s' hb
  obtain ⟨hs, hQ⟩ := hb
  refine ⟨g, ?_, hQ⟩
  rw [hs, ← hat.self]
  exact .quiet

theorem safe_withProc (hR : R.Lawful) {p : Slot} {m : Slot → KOp C L K E α}
    {Q : α → Ghost L K Γ → Prop} (hm : ∀ c s G, R.logic.At (.proc p) g l c s G →
      (m p).wlp Fine (fun b s' => ∃ g', Trans R.May (.proc p) c G s l s'.2 g' ∧ Q b g') (c, s)) :
    R.logic.Safe (.proc p) (.atomic l (withProc m)) g Q := by
  refine safe_act hR fun c s G hat => ?_
  unfold withProc
  simp only [wlp_bind, wlp_get, cproc_of_at hat]
  exact hm c s G hat

/-! ## Locks -/

theorem safe_acquire (hR : R.Lawful) {l : Lock L} (hl : l ∉ g.locks)
    (hon : ∀ p, t = .proc p → g.phase = .on) :
    R.logic.Safe t (acquire l) g fun _ g' => g' = { g with locks := insert l g.locks } := by
  refine safe_act hR fun c s G hat => ?_
  have hp := hat.coh.1.placed
  simp only [wlp_bind, wlp_get]
  cases hlock : s.lock l with
  | some d =>
    -- a thread does not wait for itself
    have hne : d ≠ c := by
      rintro rfl
      rw [hp.lock, show s.cur d = t from hat.cur, hat.self] at hlock
      exact hl hlock
    simp [hne]
  | none =>
    refine ⟨_, .acquire hlock (by rw [hat.self]; exact hon), ?_⟩
    rw [hat.self]

theorem safe_releases (hR : R.Lawful) {a : Act} {l : L} (hl : .other l ∈ g.locks)
    (hon : ∀ p, t = .proc p → g.phase = .on) (hmay : R.May (.other l) g.extra) :
    R.logic.Safe t (.atomic a (releases (.other l))) g fun _ g' =>
      g' = { g with locks := g.locks.erase (.other l) } := by
  refine safe_act hR fun c s G hat => ?_
  unfold releases
  have hlock : s.lock (.other l) = some c := by
    rw [hat.coh.1.placed.lock, show s.cur c = t from hat.cur, hat.self]
    exact hl
  simp only [wlp_bind, wlp_get, hlock, if_true]
  refine ⟨_, .release (by rw [hat.self]; exact hl) (by rw [hat.self]; exact hon)
    (by rw [hat.self]; exact hmay), ?_⟩
  rw [hat.self]

theorem safe_release (hR : R.Lawful) {l : L} (hl : .other l ∈ g.locks)
    (hon : ∀ p, t = .proc p → g.phase = .on) (hmay : R.May (.other l) g.extra) :
    R.logic.Safe t (release (.other l)) g fun _ g' =>
      g' = { g with locks := g.locks.erase (.other l) } :=
  safe_releases hR hl hon hmay

theorem safe_unlock (hR : R.Lawful) (hl : .ptable ∈ g.locks)
    (hon : ∀ p, t = .proc p → g.phase = .on) (hpick : ∀ d, t = .sched d → g.pick = none)
    (hdue : g.due = none) (hmay : R.May .ptable g.extra) :
    R.logic.Safe t (release .ptable) g fun _ g' =>
      g' = { g.forget with locks := g.locks.erase .ptable } := by
  refine safe_act hR fun c s G hat => ?_
  unfold releases
  have hlock : s.lock .ptable = some c := by
    rw [hat.coh.1.placed.lock, show s.cur c = t from hat.cur, hat.self]
    exact hl
  simp only [wlp_bind, wlp_get, hlock, if_true]
  refine ⟨_, .unlock (by rw [hat.self]; exact hl) (by rw [hat.self]; exact hon)
    (by rw [hat.self]; exact hpick) (by rw [hat.self]; exact hdue)
    (by rw [hat.self]; exact hmay), ?_⟩
  rw [hat.self]

/-! ## Giving up the CPU -/

theorem safe_sched (hR : R.Lawful) {p : Slot} (hlocks : g.locks = {.ptable})
    (hoff : g.phase = .off) (hdue : g.due = none) (hmay : R.May .ptable g.extra) :
    R.logic.Safe (.proc p) sched g fun _ g' => g' = { g.forget with phase := .on } := by
  unfold sched
  refine .bind (Q := fun _ g' => g' = { g.forget with phase := .away })
    (safe_withProc hR fun c s G hat => ?_) ?_
  · have hp := hat.coh.1.placed
    have hcur : s.cur c = .proc p := hat.cur
    have hlock : s.lock .ptable = some c := by
      rw [hp.lock, hcur, hat.self, hlocks]
      simp
    have hncli : s.ncli c = 1 := by
      rw [hp.ncli, hcur, hat.self, hlocks]
      rfl
    have hrun : (s.proc p).state ≠ .RUNNING := by
      rw [ne_eq, hp.here c p hcur, hat.self, hoff]
      simp
    simp only [wlp_bind, wlp_get, hlock, hncli, hrun, ne_eq, not_true_eq_false, if_false]
    refine ⟨_, .leave rfl (by rw [hat.self]; exact hlocks) (by rw [hat.self]; exact hoff)
      (by rw [hat.self]; exact hdue) (by rw [hat.self]; exact hmay), ?_⟩
    rw [hat.self]
  · intro _ g₁ hg
    refine safe_act hR fun c s G hat => ?_
    rw [wlp_pure]
    refine ⟨_, .land rfl (by rw [hat.self, hg]), ?_⟩
    rw [hat.self, hg]

theorem safe_yield (hR : R.Lawful) {p : Slot} (hlocks : g.locks = ∅) (hon : g.phase = .on)
    (hdue : g.due = none) (hmay : R.May .ptable g.extra) :
    R.logic.Safe (.proc p) yield g fun _ g' => g' = g.forget := by
  unfold yield
  refine .bind (safe_acquire hR (by simp [hlocks]) fun _ _ => hon) ?_
  rintro _ _ rfl
  refine .bind (Q := fun _ g' => g' =
    { g.forget with locks := insert .ptable g.locks, phase := .off })
    (safe_withProc hR fun c s G hat => ?_) ?_
  · refine ⟨_, .yields rfl (by rw [hat.self]; simp) (by rw [hat.self]; exact hon)
      (by rw [hat.self]; exact hdue) (by rw [hat.self]; exact hmay), ?_⟩
    rw [hat.self]
    rfl
  rintro _ _ rfl
  refine .bind (safe_sched hR (by simp [hlocks]) rfl hdue hmay) ?_
  rintro _ _ rfl
  refine .mono (safe_unlock hR (Finset.mem_insert_self _ _) (fun _ _ => rfl) nofun hdue hmay) ?_
  rintro _ _ rfl
  obtain ⟨⟩ := g
  simp_all [Ghost.forget]

/-! ## Sleep and wakeup -/

/-- The middle of `sleep`: the process sleeps until it is woken. -/
theorem safe_sleep_switch (hR : R.Lawful) {p : Slot} {chan : Chan K} (hlocks : g.locks = {.ptable})
    (hon : g.phase = .on) (hdue : g.due = some (.sleep chan)) (hmay : R.May .ptable g.extra)
    (hscan : ∀ q, chan = .proc q → q = p ∧ ∀ r, r ∈ g.scan) :
    R.logic.Safe (.proc p) (sleep_switch chan) g fun _ g' =>
      g' = { g.forget with due := none } := by
  unfold sleep_switch
  refine .bind (Q := fun _ g' => g' = { g.forget with phase := .off, due := none })
    (safe_withProc hR fun c s G hat => ?_) ?_
  · refine ⟨_, .sleeps rfl (by rw [hat.self, hlocks]; simp) (by rw [hat.self]; exact hon)
      (by rw [hat.self]; exact hdue) (by rw [hat.self]; exact hmay)
      (by rw [hat.self]; exact hscan), ?_⟩
    rw [hat.self]
  rintro _ _ rfl
  refine .bind (safe_sched hR hlocks rfl rfl hmay) ?_
  rintro _ _ rfl
  refine safe_withProc hR fun c s G hat => ?_
  refine ⟨_, .tidy rfl (by rw [hat.self]), ?_⟩
  rw [hat.self]
  obtain ⟨⟩ := g
  simp_all [Ghost.forget]

theorem safe_sleep_check (hR : R.Lawful) {p : Slot} :
    R.logic.Safe (.proc p) (step do
      let s ← Op.get
      if s.2.cproc s.1 = none then
        Op.panic "sleep"
      else
        pure ()) g fun _ g' => g' = g := by
  refine safe_read hR fun c s G hat => ?_
  simp [cproc_of_at hat]

omit [DecidableEq L] [DecidableEq K] in
/-- A process that holds `ptable.lock` declares that it is about to sleep. -/
theorem Safe.dozes {β : Type} {p : Slot} {m : KOp C L K E β} {k : β → KProg C L K E α}
    {Q : α → Ghost L K Γ → Prop} {chan : Chan K} {x : Γ} (htab : .ptable ∈ g.locks)
    (hx : ∀ c s G, R.logic.At (.proc p) g .other c s G →
      R.Inv s (update G (.proc p) { G (.proc p) with due := some (.sleep chan), extra := x }))
    (h : R.logic.Safe (.proc p) (.act .other m k) { g with due := some (.sleep chan), extra := x } Q) :
    R.logic.Safe (.proc p) (.act .other m k) g Q := by
  refine .ghost fun c s G hat => ⟨_, ?_, h⟩
  have hact := hat.coh.1.placed.active (t := .proc p) hat.cur (by rw [hat.self]; exact htab)
  have hcoh := hat.coh.1.setExtra hat.cur (some (.sleep chan)) x fun _ => hact
  have hinv := hx c s G hat
  rw [hat.self] at hcoh hinv
  exact ⟨hcoh, hinv⟩

section

variable (hR : R.Lawful)
include hR

theorem safe_sleep_unlock {p : Slot} {chan : Chan K} {x : Γ} (hlocks : g.locks = {.other lk})
    (hon : g.phase = .on) (hmay : R.May (.other lk) x)
    (hx : ∀ c s G, R.logic.At (.proc p) { g with locks := {.ptable, .other lk} } .other c s G →
      R.Inv s (update G (.proc p) { G (.proc p) with due := some (.sleep chan), extra := x })) :
    R.logic.Safe (.proc p) (sleep_unlock (.other lk)) g fun _ g' =>
      g' = { g with locks := {.ptable}, due := some (.sleep chan), extra := x } := by
  unfold sleep_unlock
  rw [if_pos (by simp)]
  refine .bind (safe_acquire hR (by simp [hlocks]) fun _ _ => hon) ?_
  rintro _ _ rfl
  rw [hlocks]
  refine Safe.dozes (Finset.mem_insert_self _ _) hx ?_
  refine .mono (safe_release hR (by simp) (fun _ _ => hon) hmay) ?_
  rintro _ _ rfl
  have herase : ({.ptable, .other lk} : Finset (Lock L)).erase (.other lk) = {.ptable} := by
    ext k
    cases k <;> simp
  simp [herase]

theorem safe_sleep_relock {p : Slot} (hlocks : g.locks = {.ptable}) (hon : g.phase = .on)
    (hdue : g.due = none) (hmay : R.May .ptable g.extra) :
    R.logic.Safe (.proc p) (sleep_relock (.other lk)) g fun _ g' =>
      g' = { g.forget with locks := {.other lk} } := by
  unfold sleep_relock
  rw [if_pos (by simp)]
  refine .bind (safe_unlock hR (by simp [hlocks]) (fun _ _ => hon) nofun hdue hmay) ?_
  rintro _ _ rfl
  refine .mono (safe_acquire hR (by simp [hlocks]) fun _ _ => hon) ?_
  rintro _ _ rfl
  simp [hlocks, Ghost.forget]

/-- `sleep` with a lock other than `ptable.lock`. Before the lock is given up,
    the process says what it sleeps for. -/
theorem safe_sleep {p : Slot} {k : K} {x : Γ} (hlocks : g.locks = {.other lk}) (hon : g.phase = .on)
    (hdue : g.due = none) (hmay : ∀ l, R.May l x)
    (hx : ∀ c s G, R.logic.At (.proc p) { g with locks := {.ptable, .other lk} } .other c s G →
      R.Inv s (update G (.proc p)
        { G (.proc p) with due := some (.sleep (.other k)), extra := x })) :
    R.logic.Safe (.proc p) (sleep (.other k) (.other lk)) g fun _ g' =>
      g' = { g.forget with extra := x } := by
  unfold sleep
  refine .bind (safe_sleep_check hR) ?_
  rintro _ _ rfl
  refine .bind (safe_sleep_unlock hR hlocks hon (hmay _) hx) ?_
  rintro _ _ rfl
  refine .bind (safe_sleep_switch hR rfl hon rfl (hmay _) (by simp)) ?_
  rintro _ _ rfl
  refine .mono (safe_sleep_relock hR rfl hon rfl (hmay _)) ?_
  rintro _ _ rfl
  simp [Ghost.forget, hlocks, hdue]

/-- `sleep` with `ptable.lock`. -/
theorem safe_sleep_ptable {g : Ghost L K Γ} {p : Slot} {chan : Chan K} {x : Γ}
    (hlocks : g.locks = {.ptable}) (hon : g.phase = .on) (hdue : g.due = none)
    (hmay : R.May .ptable x) (hx : ∀ c s G, R.logic.At (.proc p) g .other c s G →
      R.Inv s (update G (.proc p) { G (.proc p) with due := some (.sleep chan), extra := x }))
    (hscan : ∀ q, chan = .proc q → q = p ∧ ∀ r, r ∈ g.scan) :
    R.logic.Safe (.proc p) (sleep chan .ptable) g fun _ g' =>
      g' = { g.forget with extra := x } := by
  unfold sleep
  refine .bind (safe_sleep_check hR) ?_
  intro _ g₁ hg₁
  rw [hg₁]
  simp only [sleep_unlock, sleep_relock, ne_eq, not_true_eq_false, if_false, pure_bind]
  refine Safe.dozes (by simp [hlocks]) hx ?_
  refine .bind (safe_sleep_switch (g := { g with due := some (.sleep chan), extra := x }) hR hlocks hon
    rfl hmay hscan) ?_
  rintro _ _ rfl
  rw [Machine.Logic.safe_pure]
  simp [Ghost.forget, hdue]

/-- What a thread knows after it has gone through a part of the table. -/
theorem safe_wakeup1 (htab : .ptable ∈ g.locks) (chan : Option (Chan K)) (ps : List Slot) :
    R.logic.Safe t (wakeup1 chan ps) g fun _ g' =>
      g' = { g with woken := update g.woken chan ({q | q ∈ ps} ∪ g.woken chan) } := by
  induction ps generalizing g with
  | nil =>
    unfold wakeup1
    simp
  | cons q ps ih =>
    unfold wakeup1
    refine .bind (Q := fun _ g' => g' =
      { g with woken := update g.woken chan (insert q (g.woken chan)) })
      (safe_act hR fun c s G hat => ?_) ?_
    · refine ⟨_, .wake (by rw [hat.self]; exact htab), ?_⟩
      rw [hat.self]
    rintro _ _ rfl
    refine .mono (ih htab) ?_
    rintro _ _ rfl
    simp only [update_self, update_idem]
    congr 2
    ext r
    simp only [Set.mem_union, Set.mem_ofPred_eq, Set.mem_insert_iff, List.mem_cons]
    tauto

/-- `wakeup`. When it has gone through the table, the thread may change what
    the user of `wakeup` has added to its ghost state. -/
theorem safe_wakeup_extra {chan : Chan K} (x : Γ) (htab : .ptable ∉ g.locks)
    (hon : ∀ p, t = .proc p → g.phase = .on) (hpick : ∀ d, t = .sched d → g.pick = none)
    (hdue : g.due = none) (hmay : R.May .ptable x)
    (hx : ∀ c s G, R.logic.At t (G t) .other c s G → (G t).extra = g.extra →
      (G t).due = none → (∀ q, q ∈ (G t).woken (some chan)) →
      R.Inv s (update G t { G t with extra := x })) :
    R.logic.Safe t (wakeup chan) g fun _ g' => g' = { g.forget with extra := x } := by
  unfold wakeup
  refine .bind (safe_acquire hR htab hon) ?_
  rintro _ _ rfl
  refine .bind (safe_wakeup1 hR (Finset.mem_insert_self _ _) _ _) ?_
  rintro _ g₁ hg₁
  have hall : ∀ q, q ∈ g₁.woken (some chan) := by
    intro q
    rw [hg₁]
    simp
  refine .ghost fun c s G hat => ⟨{ g₁ with due := g.due, extra := x }, ?_, ?_⟩
  · have hcoh := hat.coh.1
    have hat' : R.logic.At t (G t) .other c s G := by rw [hat.self]; exact hat
    have := hx c s G hat' (by rw [hat.self, hg₁]) (by rw [hat.self, hg₁]; exact hdue)
      (by rw [hat.self]; exact hall)
    have hset := hcoh.setExtra hat.cur g.due x fun h => absurd hdue h
    have hsame : (G t).due = g.due := by rw [hat.self, hg₁]
    rw [← hat.self]
    refine ⟨hset, ?_⟩
    rw [← hsame]
    exact this
  · subst hg₁
    refine .mono (safe_unlock hR (Finset.mem_insert_self _ _) hon hpick hdue hmay) ?_
    rintro _ _ rfl
    simp [Ghost.forget, htab]

theorem safe_wakeup {chan : Chan K} (htab : .ptable ∉ g.locks)
    (hon : ∀ p, t = .proc p → g.phase = .on) (hpick : ∀ d, t = .sched d → g.pick = none)
    (hdue : g.due = none) (hmay : R.May .ptable g.extra) :
    R.logic.Safe t (wakeup chan) g fun _ g' => g' = g.forget := by
  refine .mono (safe_wakeup_extra hR g.extra htab hon hpick hdue hmay
    fun c s G hat hextra _ _ => ?_) ?_
  · rw [← hextra, update_eq_self]
    exact hat.coh.2
  · rintro _ _ rfl
    rfl

end

end Xv6.Kern
