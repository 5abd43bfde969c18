import Xv6.Kern.ExecProc

/-! # Schedulers, interrupts and the whole machine

    Symbolic execution of `scheduler` and of the interrupt handlers, the state
    after boot, and the proof rule for the machine (`Rules.Lawful.sound`).
-/

namespace Xv6.Kern

open Op Prog

variable {C L K E Γ : Type} [DecidableEq C] [DecidableEq L] [DecidableEq K]
  {R : Rules C L K E Γ} {t : Thread C} {g : Ghost L K Γ}

/-! ## Schedulers -/

theorem safe_scheduler_scan (hR : R.Lawful) {d : C} (hlocks : g.locks = {.ptable})
    (hpick : g.pick = none) (hdue : g.due = none) (hmay : R.May .ptable g.extra)
    (hclear : g.forget = g) (ps : List Slot) :
    R.logic.Safe (.sched d) (scheduler_scan ps) g fun _ g' => g' = g := by
  induction ps with
  | nil =>
    unfold scheduler_scan
    simp
  | cons p ps ih =>
    unfold scheduler_scan
    have hown : ∀ {g₁ l c s G}, R.logic.At (.sched d) g₁ l c s G → d = c := by
      intro g₁ l c s G hat
      have hcur : s.cur c = .sched d := hat.cur
      rcases hat.coh.1.placed.cur c with hs | ⟨q, hq⟩
      · rw [hs] at hcur
        cases hcur
        rfl
      · rw [hq] at hcur
        cases hcur
    refine .bind (Q := fun found g' => g' = if found then { g with pick := some (p, true) } else g)
      (safe_act hR fun c s G hat => ?_) ?_
    · have hd := hown hat
      subst hd
      simp only [wlp_bind, wlp_get]
      split
      case isTrue => exact ⟨_, .quiet, hat.self⟩
      case isFalse hrun =>
        rw [ne_eq, not_not] at hrun
        refine ⟨_, .pick rfl (by rw [hat.self, hlocks]; simp) (by rw [hat.self]; exact hpick) hrun, ?_⟩
        rw [hat.self]
        rfl
    rintro found _ rfl
    cases found with
    | false => simpa using ih
    | true =>
      refine .bind (Q := fun _ g' => g' = { g with pick := some (p, false) })
        (safe_act hR fun c s G hat => ?_) ?_
      · have hd := hown hat
        subst hd
        refine ⟨_, .swtch rfl (by rw [hat.self]; exact hlocks) (by rw [hat.self]; rfl)
          (by rw [hat.self]; exact hdue) (by rw [hat.self]; exact hmay), ?_⟩
        rw [hat.self]
        conv_rhs => rw [← hclear]
        rfl
      rintro _ _ rfl
      refine .bind (Q := fun _ g' => g' = g) (safe_act hR fun c s G hat => ?_) ?_
      · have hd := hown hat
        subst hd
        refine ⟨_, .unpick rfl (by rw [hat.self]), ?_⟩
        rw [hat.self]
        simp [← hpick]
      rintro _ _ rfl
      exact ih

theorem safe_scheduler (hR : R.Lawful) {d : C} :
    R.logic.Safe (.sched d) scheduler (.idle R.rest) fun _ g' => g' = .idle R.rest := by
  unfold scheduler
  refine .bind (safe_acquire hR (by simp [Ghost.idle]) nofun) ?_
  rintro _ _ rfl
  refine .bind (safe_scheduler_scan hR (by simp [Ghost.idle]) rfl rfl (hR.may _) rfl _) ?_
  rintro _ _ rfl
  refine .mono (safe_unlock hR (Finset.mem_insert_self _ _) nofun (fun _ _ => rfl) rfl
    (hR.may _)) ?_
  rintro _ _ rfl
  simp [Ghost.idle, Ghost.forget]

/-! ## Interrupts -/

/-- The ghost state of a thread that may be interrupted: it holds nothing and
    knows nothing. -/
structure Free (t : Thread C) (g : Ghost L K Γ) : Prop where
  locks : g.locks = ∅
  phase : ∀ p, t = .proc p → g.phase = .on
  pick : ∀ d, t = .sched d → g.pick = none
  due : g.due = none
  clear : g.forget = g

omit [DecidableEq C] [DecidableEq L] [DecidableEq K] in
theorem Coh.free {s : Kernel C L K E} {G : Thread C → Ghost L K Γ} {c : C} (h : Coh s G)
    (hon : interruptible s c = true) : Free (s.cur c) (G (s.cur c)) := by
  obtain ⟨⟨hp, ht⟩, hf⟩ := h
  have hlocks : (G (s.cur c)).locks = ∅ := by
    have hncli : s.ncli c = 0 := of_decide_eq_true hon
    rw [hp.ncli] at hncli
    exact Finset.card_eq_zero.mp hncli
  have hna : ¬ s.Active (s.cur c) := by
    rintro ⟨d, hd, hlock⟩
    rw [hp.lock, hd, hlocks] at hlock
    simp at hlock
  refine ⟨hlocks, fun p hp' => ?_, fun d hd => ?_, ?_, ?_⟩
  · by_contra hoff
    rw [hp'] at hoff hlocks
    have := hp.holds p hoff
    rw [hlocks] at this
    simp at this
  · have hdc : d = c := by
      rcases hp.cur c with hs | ⟨q, hq⟩
      · rw [hs] at hd
        cases hd
        rfl
      · rw [hq] at hd
        cases hd
    subst hdc
    by_contra hpick
    obtain ⟨⟨p, b⟩, hpick⟩ := Option.ne_none_iff_exists'.mp hpick
    rw [hd] at hpick hlocks
    have := (hp.back d p b hd hpick).1
    rw [hlocks] at this
    simp at this
  · by_contra hdue
    exact hna (ht.due _ hdue)
  · have h1 : (G (s.cur c)).woken = fun _ => ∅ := by
      funext chan
      exact Set.eq_empty_of_forall_notMem fun q hq => hna (ht.woken _ chan q hq).1
    have h2 : (G (s.cur c)).scan = ∅ :=
      Set.eq_empty_of_forall_notMem fun q hq => hna (ht.scan _ q hq).1
    have h3 : (G (s.cur c)).moved = ∅ :=
      Set.eq_empty_of_forall_notMem fun q hq => hna (ht.moved _ q hq).1
    have h4 : (G (s.cur c)).kin = none := by
      by_contra hkin
      obtain ⟨x, hx⟩ := Option.ne_none_iff_exists'.mp hkin
      exact hna (hf.kin _ x hx).1
    unfold Ghost.forget
    conv_rhs => rw [show G (s.cur c) = { G (s.cur c) with
      woken := (G (s.cur c)).woken, scan := (G (s.cur c)).scan, moved := (G (s.cur c)).moved,
      kin := (G (s.cur c)).kin } from rfl, h1, h2, h3, h4]

theorem safe_timer (hR : R.Lawful) (hg : Free t g) (hmay : R.May .ptable g.extra) :
    R.logic.Safe t timer g fun _ g' => g' = g := by
  unfold timer
  refine .bind (Q := fun run g' => g' = g ∧ (run = true → ∃ p, t = .proc p))
    (safe_read hR fun c s G hat => ?_) ?_
  · have hp := hat.coh.1.placed
    have hcur : s.cur c = t := hat.cur
    simp only [wlp_bind, wlp_get]
    cases hcp : s.cproc c with
    | none => exact ⟨rfl, trivial, by rintro ⟨⟩⟩
    | some p =>
      refine ⟨rfl, trivial, fun _ => ?_⟩
      rcases hp.cur c with hs | hproc
      · -- a scheduler that can be interrupted has no process
        rw [hs] at hcur
        rw [hp.cproc, hcur, hat.self, hg.pick c hcur.symm] at hcp
        cases hcp
      · rw [hcur] at hproc
        exact hproc
  rintro run _ ⟨rfl, hrun⟩
  split
  case isFalse => rfl
  case isTrue hr =>
    obtain ⟨p, rfl⟩ := hrun hr
    refine .mono (safe_yield hR hg.locks (hg.phase p rfl) hg.due hmay) ?_
    rintro _ _ rfl
    exact hg.clear

theorem safe_trap (hR : R.Lawful) (hg : Free t g) (hmay : R.May .ptable g.extra) (i : Irq K) :
    R.logic.Safe t (trap i) g fun _ g' => g' = g := by
  cases i with
  | timer => exact safe_timer hR hg hmay
  | wakeup k =>
    refine .mono (safe_wakeup hR (by simp [hg.locks]) hg.phase hg.pick hg.due hmay) ?_
    rintro _ _ rfl
    exact hg.clear

/-! ## The machine -/

/-- The ghost states at boot: every process is switched away. -/
def bootGhost (x : Γ) : Thread C → Ghost L K Γ
  | .proc _ => ⟨{.ptable}, .away, none, none, none, fun _ => ∅, ∅, ∅, none, none, x⟩
  | .sched _ => .idle x

omit [DecidableEq C] [DecidableEq L] [DecidableEq K] in
theorem boot_coh (e : E) (x : Γ) : Coh (Kernel.boot e : Kernel C L K E) (bootGhost x) := by
  have hna : ∀ t, ¬ (Kernel.boot e : Kernel C L K E).Active t := by
    rintro t ⟨c, _, hc⟩
    cases hc
  have hstate : ∀ p, ((Kernel.boot e : Kernel C L K E).proc p).state = .RUNNABLE ∨
      ((Kernel.boot e : Kernel C L K E).proc p).state = .UNUSED := by
    intro p
    unfold Kernel.boot
    dsimp only
    split <;> simp [Proc.unused]
  have hparent : ∀ p, ((Kernel.boot e : Kernel C L K E).proc p).parent = none := by
    intro p
    unfold Kernel.boot
    dsimp only
    split <;> rfl
  refine ⟨⟨⟨?_, ?_, ?_, ?_, ?_, ?_, ?_, ?_, ?_, ?_, ?_, ?_⟩, ⟨?_, ?_, ?_, ?_, ?_, ?_⟩⟩, ⟨?_, ?_, ?_, ?_⟩⟩
  · intro c l
    simp [Kernel.boot, bootGhost, Ghost.idle]
  · intro c
    rfl
  · intro c
    exact Or.inl rfl
  · intro c
    rfl
  · intro c p hc
    cases hc
  · intro c p b _ hp
    cases hp
  · intro c c' p hc
    cases hc
  · intro p hp
    rcases hstate p with h | h <;> rw [h] at hp <;> cases hp
  · intro c p hc
    cases hc
  · intro p _
    exact Finset.mem_singleton_self _
  · intro p _
    rfl
  · intro p _
    rfl
  · intro t np b ht
    cases t <;> cases ht
  · intro t t' np b b' ht
    cases t <;> cases ht
  · intro t ht
    cases t <;> exact absurd rfl ht
  · intro t chan p hp
    cases t <;> exact hp.elim
  · intro t p hp
    cases t <;> exact hp.elim
  · intro t p hp
    cases t <;> exact hp.elim
  · exact hparent _
  · simp [Kernel.boot]
  · intro p
    rw [hparent]
    simp
  · intro t x hx
    cases t <;> cases hx

section

variable {X I : Type} {init : E → Prop} {user : X → KProg C L K E Unit}
  {intr : I → KProg C L K E Unit} {σ : Machine.Config C (Kernel C L K E) (Thread C) Act}

omit [DecidableEq K] in
/-- A run from boot leads to a reachable configuration. -/
theorem reachable_of_boot {e : E}
    {D : Machine.Config C (Kernel C L K E) (Thread C) Act → Machine.Label C (Option X) I → Prop}
    {ls : List (Machine.Label C (Option X) I)} (he : init e)
    (h : LTS.Run ((system init user intr).restrict D) (boot e) ls σ) :
    LTS.Reachable ((system init user intr).restrict D) σ := by
  have hboot : LTS.Reachable ((system init user intr).restrict D) (boot e) := .init ⟨e, he, rfl⟩
  exact hboot.run h

/-- Every action that is performed meets the condition. -/
def Meets (P : Kernel C L K E → C → Act → Prop)
    (σ : Machine.Config C (Kernel C L K E) (Thread C) Act) :
    Machine.Label C (Option X) I → Prop
  | .step c => ∀ l, σ.label? (σ.mem.cur c) = some l → P σ.mem c l
  | _ => True

instance {P : Kernel C L K E → C → Act → Prop} [∀ s c l, Decidable (P s c l)]
    (σ : Machine.Config C (Kernel C L K E) (Thread C) Act) :
    (l : Machine.Label C (Option X) I) → Decidable (Meets P σ l)
  | .step c =>
    match h : σ.label? (σ.mem.cur c) with
    | some l => decidable_of_iff (P σ.mem c l)
      ⟨fun hP l' hl' => by rw [h] at hl'; cases hl'; exact hP, fun hP => hP l h⟩
    | none => .isTrue fun l' hl' => by rw [h] at hl'; cases hl'
  | .call _ _ => .isTrue trivial
  | .irq _ _ => .isTrue trivial

variable (hR : R.Lawful) (hinit : ∀ e, init e → R.Inv (.boot e) (bootGhost R.rest))
  (huser : ∀ p x, R.logic.Safe (.proc p) (user x) (.idle R.rest) fun _ g => g = .idle R.rest)
  (hintr : ∀ {c : C} {G : Thread C → Ghost L K Γ} {s : Kernel C L K E} i, Coh s G →
    R.Inv s G → Free (s.cur c) (G (s.cur c)) → R.May .ptable (G (s.cur c)).extra →
    R.logic.Safe (s.cur c) (intr i) (G (s.cur c)) fun _ g' => g' = G (s.cur c))
include hR hinit huser hintr

/-- The rule for the kernel: if every call of a process is safe, and every
    interrupt leaves the thread it interrupts as it was, the invariant of the
    regime holds in every configuration that permitted steps reach. -/
theorem Rules.Lawful.sound
    (h : LTS.Reachable ((system init user intr).restrict (Meets R.Cond)) σ) : R.logic.Inv σ := by
  refine Machine.Logic.sound (L := R.logic) rfl ?_ ?_ ?_ (fun σ c l hcond => hcond l) h
  · rintro σ ⟨e, he, rfl⟩
    refine ⟨nofun, bootGhost R.rest, ⟨boot_coh e R.rest, hinit e he⟩, fun t => ?_⟩
    cases t with
    | sched c => rfl
    | proc p =>
      refine .bind (Q := fun _ g' => g' =
        { (Ghost.idle R.rest : Ghost L K Γ) with locks := {.ptable} })
        (safe_act hR fun c s G hat => ?_) ?_
      · refine ⟨_, .land rfl (by rw [hat.self]; rfl), ?_⟩
        rw [hat.self]
        rfl
      · rintro _ _ rfl
        exact safe_entry hR rfl rfl rfl (hR.may _)
  · intro t x prog hprog
    cases t with
    | proc p =>
      cases x with
      | none => cases hprog
      | some x =>
        cases hprog
        exact huser p x
    | sched c =>
      cases x with
      | none =>
        cases hprog
        exact safe_scheduler hR
      | some x => cases hprog
  · intro s G c i hcoh hon
    exact hintr i hcoh.1 hcoh.2 (hcoh.1.free hon) (hR.irq hcoh.1 hcoh.2 hon)

/-- The rule without a condition on the steps. -/
theorem Rules.Lawful.sound_all (hall : ∀ s c l, R.Cond s c l)
    (h : LTS.Reachable (system init user intr) σ) : R.logic.Inv σ := by
  refine hR.sound hinit huser hintr (h.mono (fun _ => id) fun σ l σ' hnext => ?_)
  refine LTS.restrict_next.mpr ⟨?_, hnext⟩
  cases l with
  | step c => exact fun l _ => hall _ _ _
  | call c x => trivial
  | irq c i => trivial

end

/-- The calls of `proc.c`. -/
theorem safe_syscall (hR : R.Lawful) {p : Slot} (x : Syscall) :
    R.logic.Safe (.proc p) (syscall x) (.idle R.rest) fun _ g => g = .idle R.rest := by
  have hidle : ∀ {α : Type} (_ : α) (g : Ghost L K Γ), g = (Ghost.idle R.rest).forget →
      g = .idle R.rest := fun _ g hg => hg
  cases x with
  | fork kstack mem =>
    refine .bind (safe_fork hR kstack mem (by simp [Ghost.idle]) rfl rfl (hR.may _) rfl) ?_
    exact hidle
  | exit => exact .mono (safe_exit hR rfl rfl rfl (hR.may _) rfl) hidle
  | wait fuel =>
    refine .bind (safe_wait hR rfl rfl rfl rfl rfl fuel) ?_
    rintro pid _ ⟨got, rfl, rfl⟩
    refine safe_withProc hR fun c s G hat => ?_
    have hret : Trans R.May (.proc p) c G s .other _ _ := .returns rfl
    rw [hat.self] at hret
    exact ⟨_, hret, rfl⟩
  | kill pid =>
    refine .bind (safe_kill hR pid (by simp [Ghost.idle]) (fun _ _ => rfl) (by rintro _ ⟨⟩) rfl (hR.may _)) ?_
    exact hidle

/-- All calls, if processes may sleep on every channel. -/
theorem safe_call (hR : R.Lawful) {p : Slot} (x : Call L K)
    (hsleep : ∀ k l c s G, R.logic.At (.proc p)
      { (Ghost.idle R.rest : Ghost L K Γ) with locks := {.ptable, .other l} } .other c s G →
      R.Inv s (Function.update G (.proc p)
        { G (.proc p) with due := some (.sleep (.other k)), extra := R.rest })) :
    R.logic.Safe (.proc p) (call x) (.idle R.rest) fun _ g => g = .idle R.rest := by
  cases x with
  | sys x => exact safe_syscall hR x
  | sleep k l =>
    refine .bind (safe_acquire hR (by simp [Ghost.idle]) fun _ _ => rfl) ?_
    rintro _ _ rfl
    refine .bind (safe_sleep (g := { (Ghost.idle R.rest : Ghost L K Γ) with locks := {.other l} })
      hR rfl rfl rfl hR.may (hsleep k l)) ?_
    rintro _ _ rfl
    refine .mono (safe_release hR (Finset.mem_singleton_self _) (fun _ _ => rfl) (hR.may _)) ?_
    rintro _ _ rfl
    simp [Ghost.forget, Ghost.idle]
  | wakeup k =>
    exact safe_wakeup hR (by simp [Ghost.idle]) (fun _ _ => rfl) (by rintro _ ⟨⟩) rfl (hR.may _)
  | signal k l =>
    refine .bind (safe_acquire hR (by simp [Ghost.idle]) fun _ _ => rfl) ?_
    rintro _ _ rfl
    refine .bind (safe_wakeup (g := { (Ghost.idle R.rest : Ghost L K Γ) with locks := {.other l} })
      hR (by simp) (fun _ _ => rfl) (by rintro _ ⟨⟩) rfl (hR.may _)) ?_
    rintro _ _ rfl
    refine .mono (safe_release hR (Finset.mem_singleton_self _) (fun _ _ => rfl) (hR.may _)) ?_
    rintro _ _ rfl
    simp [Ghost.forget, Ghost.idle]

end Xv6.Kern
