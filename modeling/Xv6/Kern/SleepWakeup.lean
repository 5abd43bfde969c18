import Xv6.Kern.Monitor

/-! # The protocol of `sleep` and `wakeup`

    Processes wait for a condition on data that the lock `lk` protects:

        acquire(lk); while(!cond) sleep(chan, lk); ...; release(lk);

    and wakers change the data while they hold `lk`, and call `wakeup(chan)`
    before or after they release it. The lock may be any spin-lock,
    `ptable.lock` included; a waker that holds `ptable.lock` calls `wakeup1`.

    No wakeup is lost: while a process sleeps and the condition holds, some
    waker has made its change and has still to finish its `wakeup`.
-/

namespace Xv6.Kern

open Function

/-- The data, and a history: the number of wakers on each thread that have made
    their change and not yet finished their `wakeup`. A thread may be a waker
    more than once, if an interrupt handler is one too. -/
structure Shared (C V : Type) where
  val : V
  pending : Thread C → Nat

variable {C L K V : Type} [DecidableEq C] [DecidableEq L] [DecidableEq K]

section

variable (lk : Lock L) (chan : K) (cond : V → Bool)

/-- `while(!cond) sleep(chan, lk);` -/
def waiter_loop : (fuel : Nat) → KProg C L K (Shared C V) Unit
  | 0 => step Op.block
  | fuel + 1 => do
    let ok ← step do
      let s ← Op.get
      pure (cond s.2.env.val)
    if ok then
      pure ()
    else
      sleep (.other chan) lk
      waiter_loop fuel

/-- A process that waits for the condition, and then changes the data. -/
def waiter (body : V → V) (fuel : Nat) : KProg C L K (Shared C V) Unit := do
  acquire lk
  waiter_loop lk chan cond fuel
  step (mutate fun _ s => { s with env := { s.env with val := body s.env.val } })
  release lk

/-- A waker makes its change. -/
def waker_change (f : V → V) : KProg C L K (Shared C V) Unit :=
  step (mutate fun c s => { s with env := {
    val := f s.env.val
    pending := update s.env.pending (s.cur c) (s.env.pending (s.cur c) + 1) } })

/-- A waker has finished its `wakeup`. -/
def waker_done : KProg C L K (Shared C V) Unit :=
  step (mutate fun c s => { s with env := { s.env with
    pending := update s.env.pending (s.cur c) (s.env.pending (s.cur c) - 1) } })

/-- `wakeup(chan)` while holding `lk`. -/
def wakeup_holding : KProg C L K (Shared C V) Unit :=
  if lk = .ptable then
    wakeup1 (some (.other chan)) (List.finRange NPROC)
  else
    wakeup (.other chan)

/-- A waker that calls `wakeup` before it releases the lock. -/
def waker_before (f : V → V) : KProg C L K (Shared C V) Unit := do
  acquire lk
  waker_change f
  wakeup_holding lk chan
  waker_done
  release lk

/-- A waker that calls `wakeup` after it has released the lock. -/
def waker_after (f : V → V) : KProg C L K (Shared C V) Unit := do
  acquire lk
  waker_change f
  release lk
  wakeup (.other chan)
  waker_done

/-- What processes do. -/
inductive Part (V : Type) where
  | sys (x : Syscall)
  | wait (body : V → V) (fuel : Nat)
  | wake (before : Bool) (f : V → V)

/-- What interrupts do. -/
inductive Event (V : Type) where
  | timer
  | wake (before : Bool) (f : V → V)

def waker (before : Bool) (f : V → V) : KProg C L K (Shared C V) Unit :=
  if before then waker_before lk chan f else waker_after lk chan f

/-- The program of a process. -/
def participant : Part V → KProg C L K (Shared C V) Unit
  | .sys x => syscall x
  | .wait body fuel => waiter lk chan cond body fuel
  | .wake before f => waker lk chan before f

/-- The program of an interrupt. -/
def event : Event V → KProg C L K (Shared C V) Unit
  | .timer => timer
  | .wake before f => waker lk chan before f

end

/-! ## The invariant -/

/-- What a thread adds to its ghost state: the changes it has not finished, how
    many of them still need a `wakeup`, and the data if it relies on them. -/
structure Duty (V : Type) where
  pend : Nat
  owes : Nat
  knows : Option V

namespace Duty

/-- A thread that knows the data relies on the lock. -/
def need (lk : Lock L) (x : Duty V) : Set (Lock L) := {l | l = lk ∧ x.knows ≠ none}

/-- A thread that has changed the data owes a wakeup. -/
def owing (x : Duty V) : Set K := {_k | 0 < x.owes}

end Duty

structure Protocol (lk : Lock L) (chan : K) (cond : V → Bool) (s : Kernel C L K (Shared C V))
    (G : Thread C → Ghost L K (Duty V)) : Prop where
  held : Held (Duty.need lk) s G
  knows : ∀ t v, (G t).extra.knows = some v → s.env.val = v
  lost : NoLost {chan} (fun _ e => cond e.val = false) Duty.owing s G
  pending : ∀ t, s.env.pending t = (G t).extra.pend
  owed : ∀ t, (G t).extra.owes ≤ (G t).extra.pend

/-- The regime for the protocol. -/
def protocol (lk : Lock L) (chan : K) (cond : V → Bool) : Rules C L K (Shared C V) (Duty V) where
  Inv := Protocol lk chan cond
  Cond _ _ _ := True
  May l x := l ∉ x.need lk
  rest := ⟨0, 0, none⟩

variable {lk : Lock L} {chan : K} {cond : V → Bool} {s s' : Kernel C L K (Shared C V)}
  {G : Thread C → Ghost L K (Duty V)} {t : Thread C} {c : C} {g g' : Ghost L K (Duty V)} {p : Slot}
  {e : Shared C V}

theorem Protocol.trans {May : Lock L → Duty V → Prop} {a : Act} (h : Protocol lk chan cond s G)
    (hp : Placed s G) (hc : s.cur c = t) (hmay : ∀ l x, May l x → l ∉ Duty.need lk x)
    (htr : Trans May t c G s a s' g') : Protocol lk chan cond s' (update G t g') := by
  refine ⟨h.held.trans hp hc hmay htr, fun r v hv => ?_, h.lost.trans hp hc htr, fun r => ?_,
    fun r => ?_⟩
  · rw [htr.extra_update] at hv
    rw [htr.env]
    exact h.knows r v hv
  · rw [htr.extra_update, htr.env]
    exact h.pending r
  · rw [htr.extra_update]
    exact h.owed r

omit [DecidableEq L] [DecidableEq K] in
/-- One thread changes the data, or what it knows and owes. -/
theorem Protocol.change (h : Protocol lk chan cond s G) (hdue : g'.due = (G t).due)
    (hneed : g'.extra.knows ≠ none → s.Holds t lk)
    (hknows : ∀ v, g'.extra.knows = some v → e.val = v) (hval : e.val = s.env.val ∨ s.Holds t lk)
    (hpend : ∀ r, e.pending r = if r = t then g'.extra.pend else s.env.pending r)
    (howed : g'.extra.owes ≤ g'.extra.pend)
    (hlost : (cond s.env.val = false → cond e.val = false ∨ 0 < g'.extra.owes) ∧
      (G t).extra.owes ≤ g'.extra.owes ∨ ∀ p, ¬ Waits s G p chan) :
    Protocol lk chan cond { s with env := e } (update G t g') := by
  refine ⟨h.held.change fun l hl => ?_, fun r v hv => ?_, h.lost.change hdue ?_ ?_, fun r => ?_,
    fun r => ?_⟩
  · rw [hl.1]
    exact hneed hl.2
  · by_cases hr : r = t
    · subst hr
      rw [update_self] at hv
      exact hknows v hv
    · rw [update_of_ne hr] at hv
      rcases hval with hval | hown
      · exact hval.trans (h.knows r v hv)
      · -- another thread that knows the data would hold the lock too
        have hother : s.Holds r lk := h.held r lk ⟨rfl, by rw [hv]; simp⟩
        exact absurd (hother.unique hown) hr
  · rintro k rfl hwait
    rcases hlost with ⟨hlost, _⟩ | hno
    · exact (hlost hwait).imp_right Or.inl
    · exact Or.inr (Or.inr hno)
  · rintro k rfl howe
    rcases hlost with ⟨_, hle⟩ | hno
    · exact Or.inl (lt_of_lt_of_le howe hle)
    · exact Or.inr hno
  · show e.pending r = _
    rw [hpend]
    by_cases hr : r = t
    · subst hr
      rw [update_self, if_pos rfl]
    · rw [update_of_ne hr, if_neg hr]
      exact h.pending r
  · by_cases hr : r = t
    · subst hr
      rw [update_self]
      exact howed
    · rw [update_of_ne hr]
      exact h.owed r

omit [DecidableEq L] [DecidableEq K] in
/-- A process that knows that the condition does not hold may sleep. -/
theorem Protocol.doze (h : Protocol lk chan cond s G) {k : Chan K} (hdue : g'.due = some (.sleep k))
    (hpend : g'.extra.pend = (G (.proc p)).extra.pend)
    (howes : g'.extra.owes = (G (.proc p)).extra.owes) (hknows : g'.extra.knows = none)
    (hk : k = .other chan → cond s.env.val = false) :
    Protocol lk chan cond s (update G (.proc p) g') := by
  refine ⟨h.held.change (e := s.env) fun l hl => absurd hknows hl.2, fun r v hv => ?_,
    h.lost.doze hdue (fun k' hk' hchan => ?_) (fun k' hk' => ?_), fun r => ?_, fun r => ?_⟩
  · by_cases hr : r = .proc p
    · subst hr
      rw [update_self, hknows] at hv
      cases hv
    · rw [update_of_ne hr] at hv
      exact h.knows r v hv
  · cases hk'
    exact hk hchan
  · show 0 < g'.extra.owes
    rw [howes]
    exact hk'
  · by_cases hr : r = .proc p
    · subst hr
      rw [update_self, hpend]
      exact h.pending _
    · rw [update_of_ne hr]
      exact h.pending r
  · by_cases hr : r = .proc p
    · subst hr
      rw [update_self, hpend, howes]
      exact h.owed _
    · rw [update_of_ne hr]
      exact h.owed r

omit [DecidableEq C] [DecidableEq L] [DecidableEq K] in
/-- A thread that holds no lock knows nothing about the data. -/
theorem Protocol.ignorant (h : Protocol lk chan cond s G) (hp : Placed s G)
    (hlocks : (G (s.cur c)).locks = ∅) : (G (s.cur c)).extra.knows = none := by
  by_contra hknows
  obtain ⟨d, hd, hlock⟩ := h.held _ lk ⟨rfl, hknows⟩
  rw [hp.lock, hd, hlocks] at hlock
  simp at hlock

theorem protocol_lawful : (protocol lk chan cond : Rules C L K (Shared C V) (Duty V)).Lawful where
  step hat htr := hat.coh.2.trans hat.coh.1.placed hat.cur (fun _ _ => id) htr
  wait hat _ _ hrest := by
    refine hat.coh.2.doze rfl rfl rfl ?_ nofun
    rw [hrest]
    rfl
  may l := fun hl => hl.2 rfl
  irq hcoh hinv hon := fun hl => hl.2 (hinv.ignorant hcoh.placed (hcoh.free hon).locks)

/-! ## Symbolic execution -/

omit [DecidableEq L] [DecidableEq K] in
/-- A thread that holds the lock knows the data. -/
theorem Safe.knows {α β : Type} {m : KOp C L K (Shared C V) β}
    {k : β → KProg C L K (Shared C V) α} {Q : α → Ghost L K (Duty V) → Prop}
    (hlock : lk ∈ g.locks)
    (h : ∀ v, (protocol (C := C) lk chan cond).logic.Safe t (.act .other m k)
      { g with extra := { g.extra with knows := some v } } Q) :
    (protocol (C := C) lk chan cond).logic.Safe t (.act .other m k) g Q := by
  refine Safe.extra fun c s G hat => ⟨_, ?_, h s.env.val⟩
  have hinv : Protocol lk chan cond s G := hat.coh.2
  have hself := hat.self
  refine hinv.change (e := s.env) (by rw [hself])
    (fun _ => hat.coh.1.placed.holds_of_mem hat.cur (by rw [hself]; exact hlock))
    (fun v hv => Option.some.inj hv) (Or.inl rfl) (fun r => ?_) ?_ ?_
  · split
    case isTrue hr =>
      rw [hr, hinv.pending, hself]
    case isFalse => rfl
  · rw [← hself]
    exact hinv.owed t
  · refine Or.inl ⟨Or.inl, ?_⟩
    rw [hself]

omit [DecidableEq L] in
/-- Whoever knows nothing may give up every lock. -/
theorem may_of_ignorant {x : Duty V} (h : x.knows = none) (l : Lock L) : l ∉ x.need lk :=
  fun hl => hl.2 h

theorem safe_release_lock (hl : lk ∈ g.locks) (hon : ∀ p, t = .proc p → g.phase = .on)
    (hpick : ∀ d, t = .sched d → g.pick = none) (hdue : g.due = none)
    (hknows : g.extra.knows = none) (hclear : g.forget = g) :
    (protocol (C := C) lk chan cond).logic.Safe t (release lk) g fun _ g' =>
      g' = { g with locks := g.locks.erase lk } := by
  cases lk with
  | ptable =>
    refine .mono (safe_unlock protocol_lawful hl hon hpick hdue (may_of_ignorant hknows _)) ?_
    rintro _ _ rfl
    rw [hclear]
  | other l => exact safe_release protocol_lawful hl hon (may_of_ignorant hknows _)

theorem safe_sleep_lock {v : V} (hlocks : g.locks = {lk}) (hon : g.phase = .on)
    (hdue : g.due = none) (hknows : g.extra.knows = some v) (hv : cond v = false) :
    (protocol (C := C) lk chan cond).logic.Safe (.proc p) (sleep (.other chan) lk) g fun _ g' =>
      g' = { g.forget with extra := { g.extra with knows := none } } := by
  -- until the process sleeps, the data are as it has seen them
  have hx : ∀ (g₁ : Ghost L K (Duty V)) c s G,
      (protocol (C := C) lk chan cond).logic.At (.proc p) g₁ .other c s G → g₁.extra = g.extra →
      Protocol lk chan cond s (update G (.proc p) { G (.proc p) with
        due := some (.sleep (.other chan)), extra := { g.extra with knows := none } }) := by
    intro g₁ c s G hat hextra
    have hinv : Protocol lk chan cond s G := hat.coh.2
    have hself : (G (.proc p)).extra = g.extra := by rw [hat.self, hextra]
    refine hinv.doze rfl (by rw [hself]) (by rw [hself]) rfl fun _ => ?_
    rw [hinv.knows _ v (by rw [hself]; exact hknows)]
    exact hv
  cases lk with
  | ptable =>
    exact safe_sleep_ptable protocol_lawful hlocks hon hdue (may_of_ignorant rfl _)
      (fun c s G hat => hx _ c s G hat rfl) nofun
  | other l =>
    exact safe_sleep protocol_lawful hlocks hon hdue (may_of_ignorant rfl)
      fun c s G hat => hx _ c s G hat rfl

theorem safe_waiter_loop (hlocks : g.locks = {lk}) (hon : g.phase = .on) (hdue : g.due = none)
    (hknows : g.extra.knows = none) (hclear : g.forget = g) (fuel : Nat) :
    (protocol (C := C) lk chan cond).logic.Safe (.proc p) (waiter_loop lk chan cond fuel) g
      fun _ g' => ∃ v, cond v = true ∧ g' = { g with extra := { g.extra with knows := some v } } := by
  induction fuel with
  | zero => exact safe_act protocol_lawful fun c s G hat => trivial
  | succ fuel ih =>
    unfold waiter_loop
    refine Safe.knows (by rw [hlocks]; simp) fun v => ?_
    refine .bind (Q := fun ok g' => ok = cond v ∧
      g' = { g with extra := { g.extra with knows := some v } })
      (safe_read protocol_lawful fun c s G hat => ?_) ?_
    · have hinv : Protocol lk chan cond s G := hat.coh.2
      refine ⟨rfl, ?_, rfl⟩
      rw [hinv.knows (.proc p) v (by rw [hat.self])]
    rintro ok _ ⟨rfl, rfl⟩
    split
    case isTrue hv => exact ⟨v, hv, rfl⟩
    case isFalse hv =>
      refine .bind (safe_sleep_lock (v := v) hlocks hon hdue rfl (by simpa using hv)) ?_
      rintro _ g₁ hg₁
      have hback : g₁ = g := by
        rw [hg₁]
        show ({ g.forget with extra := { g.extra with knows := none } } : Ghost L K (Duty V)) = g
        rw [hclear, ← hknows]
      rw [hback]
      exact ih

theorem safe_waiter (body : V → V) (fuel : Nat) :
    (protocol (C := C) lk chan cond).logic.Safe (.proc p) (waiter lk chan cond body fuel)
      (.idle ⟨0, 0, none⟩) fun _ g' => g' = .idle ⟨0, 0, none⟩ := by
  unfold waiter
  refine .bind (safe_acquire protocol_lawful (by simp [Ghost.idle]) fun _ _ => rfl) ?_
  rintro _ _ rfl
  refine .bind (safe_waiter_loop (by simp [Ghost.idle]) rfl rfl rfl rfl fuel) ?_
  rintro _ g₁ ⟨v, hv, rfl⟩
  refine .bind (Q := fun _ g' => g' = { (Ghost.idle ⟨0, 0, none⟩ : Ghost L K (Duty V)) with
    locks := {lk} }) (safe_env fun c s G hat => ?_) ?_
  · have hinv : Protocol lk chan cond s G := hat.coh.2
    have hval : s.env.val = v := hinv.knows (.proc p) v (by rw [hat.self])
    refine ⟨_, ⟨0, 0, none⟩, rfl, ?_, rfl⟩
    refine hinv.change (by rw [hat.self]) (fun hne => absurd rfl hne) (by rintro _ ⟨⟩) (Or.inr ?_) (fun r => ?_) le_rfl (Or.inl ⟨?_, ?_⟩)
    · exact hat.coh.1.placed.holds_of_mem hat.cur (by rw [hat.self]; simp)
    · split
      case isTrue hr => rw [hr, hinv.pending, hat.self]; rfl
      case isFalse => rfl
    · -- the condition holds before the change
      rw [hval, hv]
      simp
    · rw [hat.self]
      rfl
  rintro _ _ rfl
  refine .mono (safe_release_lock (by simp) (fun _ _ => rfl) (by rintro _ ⟨⟩) rfl rfl rfl) ?_
  rintro _ _ rfl
  simp [Ghost.idle]

/-! ## Wakers -/

/-- The thread owes one more wakeup. -/
def Duty.more (x : Duty V) : Duty V := { x with pend := x.pend + 1, owes := x.owes + 1 }

/-- The thread has woken everybody. -/
def Duty.paid (x : Duty V) : Duty V := { x with pend := x.pend + 1 }

omit [DecidableEq L] [DecidableEq K] in
theorem safe_waker_change (f : V → V) (hl : lk ∈ g.locks) (hknows : g.extra.knows = none) :
    (protocol (C := C) lk chan cond).logic.Safe t (waker_change f) g fun _ g' =>
      g' = { g with extra := g.extra.more } := by
  refine safe_env fun c s G hat => ⟨_, g.extra.more, rfl, ?_, rfl⟩
  have hinv : Protocol lk chan cond s G := hat.coh.2
  have hcur : s.cur c = t := hat.cur
  refine hinv.change (by rw [hat.self]) (absurd hknows) (fun v hv => ?_) (Or.inr ?_) (fun r => ?_)
    ?_ (Or.inl ⟨fun _ => Or.inr (Nat.succ_pos _), ?_⟩)
  · rw [show g.extra.more.knows = none from hknows] at hv
    cases hv
  · exact hat.coh.1.placed.holds_of_mem hat.cur (by rw [hat.self]; exact hl)
  · show update s.env.pending (s.cur c) _ r = _
    rw [hcur]
    by_cases hr : r = t
    · subst hr
      rw [update_self, if_pos rfl, hinv.pending, hat.self]
      rfl
    · rw [update_of_ne hr, if_neg hr]
  · have := hinv.owed t
    rw [hat.self] at this
    exact Nat.succ_le_succ this
  · rw [hat.self]
    exact Nat.le_succ _

omit [DecidableEq L] [DecidableEq K] in
theorem safe_waker_done (x : Duty V) (hx : g.extra = x.paid) (hknows : x.knows = none)
    (howed : x.owes ≤ x.pend) :
    (protocol (C := C) lk chan cond).logic.Safe t waker_done g fun _ g' =>
      g' = { g with extra := x } := by
  refine safe_env fun c s G hat => ⟨_, x, rfl, ?_, rfl⟩
  have hinv : Protocol lk chan cond s G := hat.coh.2
  have hcur : s.cur c = t := hat.cur
  have hself : (G t).extra = x.paid := by rw [hat.self, hx]
  refine hinv.change (by rw [hat.self]) (absurd hknows) (fun v hv => ?_) (Or.inl rfl) (fun r => ?_)
    howed (Or.inl ⟨Or.inl, by rw [hself]; exact le_rfl⟩)
  · rw [show x.knows = none from hknows] at hv
    cases hv
  · show update s.env.pending (s.cur c) _ r = _
    rw [hcur]
    by_cases hr : r = t
    · subst hr
      rw [update_self, if_pos rfl, hinv.pending, hself]
      rfl
    · rw [update_of_ne hr, if_neg hr]

omit [DecidableEq L] [DecidableEq K] in
/-- When the whole table has been looked at, the wakeup is paid. -/
theorem Protocol.paid {x : Duty V} (h : Protocol lk chan cond s G) (hcoh : Coh s G)
    (hx : (G t).extra = x.more) (hknows : x.knows = none) (howed : x.owes ≤ x.pend)
    (hdue : (G t).due = none) (hwoken : ∀ q, q ∈ (G t).woken (some (.other chan))) :
    Protocol lk chan cond s (update G t { G t with extra := x.paid }) := by
  refine h.change (e := s.env) rfl (absurd hknows) (fun v hv => ?_) (Or.inl rfl) (fun r => ?_)
    (Nat.le_succ_of_le howed) (Or.inr ?_)
  · rw [show x.paid.knows = none from hknows] at hv
    cases hv
  · split
    case isTrue hr =>
      rw [hr, h.pending, hx]
      rfl
    case isFalse => rfl
  · exact hcoh.nobody_waits hwoken (by rw [hdue]; simp)

theorem safe_wakeup_paid (x : Duty V) (hx : g.extra = x.more) (hknows : x.knows = none)
    (howed : x.owes ≤ x.pend) (htab : .ptable ∉ g.locks) (hon : ∀ p, t = .proc p → g.phase = .on)
    (hpick : ∀ d, t = .sched d → g.pick = none) (hdue : g.due = none) :
    (protocol (C := C) lk chan cond).logic.Safe t (wakeup (.other chan)) g fun _ g' =>
      g' = { g.forget with extra := x.paid } := by
  refine safe_wakeup_extra protocol_lawful x.paid htab hon hpick hdue (may_of_ignorant hknows _)
    fun c s G hat hextra hdue hwoken => ?_
  exact Protocol.paid hat.coh.2 hat.coh.1 (hextra.trans hx) hknows howed hdue hwoken

variable (hfree : Free t g) (hknows : g.extra.knows = none) (howed : g.extra.owes ≤ g.extra.pend)

include hfree hknows howed in
theorem safe_waker_after (f : V → V) :
    (protocol (C := C) lk chan cond).logic.Safe t (waker_after lk chan f) g fun _ g' => g' = g := by
  have ⟨hlocks, hon, hpick, hdue, hclear⟩ := hfree
  unfold waker_after
  refine .bind (safe_acquire protocol_lawful (by simp [hlocks]) hon) ?_
  rintro _ _ rfl
  refine .bind (safe_waker_change f (Finset.mem_insert_self _ _) hknows) ?_
  rintro _ _ rfl
  refine .bind (safe_release_lock (Finset.mem_insert_self _ _) hon hpick hdue hknows ?_) ?_
  · exact congrArg (fun y : Ghost L K (Duty V) =>
      { y with locks := insert lk g.locks, extra := g.extra.more }) hclear
  rintro _ _ rfl
  refine .bind (safe_wakeup_paid g.extra rfl hknows howed (by simp [hlocks]) hon hpick hdue) ?_
  rintro _ _ rfl
  refine .mono (safe_waker_done g.extra rfl hknows howed) ?_
  rintro _ _ rfl
  conv_rhs => rw [← hclear]
  simp [Ghost.forget, hlocks]

include hfree hknows howed in
theorem safe_waker_before (f : V → V) :
    (protocol (C := C) lk chan cond).logic.Safe t (waker_before lk chan f) g fun _ g' => g' = g := by
  have ⟨hlocks, hon, hpick, hdue, hclear⟩ := hfree
  unfold waker_before wakeup_holding
  refine .bind (safe_acquire protocol_lawful (by simp [hlocks]) hon) ?_
  rintro _ _ rfl
  refine .bind (safe_waker_change f (Finset.mem_insert_self _ _) hknows) ?_
  rintro _ _ rfl
  by_cases htab : lk = .ptable
  · subst htab
    rw [if_pos rfl]
    refine .bind (safe_wakeup1 protocol_lawful (Finset.mem_insert_self _ _) _ _) ?_
    rintro _ g₁ hg₁
    -- the wakeup counts as done as soon as the table has been looked at
    refine Safe.extra fun c s G hat => ⟨g.extra.paid, ?_, ?_⟩
    · have := Protocol.paid (t := t) (x := g.extra) hat.coh.2 hat.coh.1 (by rw [hat.self, hg₁])
        hknows howed (by rw [hat.self, hg₁]; exact hdue) fun q => by rw [hat.self, hg₁]; simp
      rw [hat.self] at this
      exact this
    refine .bind (safe_waker_done g.extra rfl hknows howed) ?_
    rintro _ _ rfl
    refine .mono (safe_unlock protocol_lawful (by rw [hg₁]; exact Finset.mem_insert_self _ _)
      (by rw [hg₁]; exact hon) (by rw [hg₁]; exact hpick) (by rw [hg₁]; exact hdue)
      (may_of_ignorant hknows _)) ?_
    rintro _ _ rfl
    conv_rhs => rw [← hclear]
    simp [Ghost.forget, hlocks, hg₁]
  · rw [if_neg htab]
    refine .bind (safe_wakeup_paid g.extra rfl hknows howed (by simp [hlocks, Ne.symm htab]) hon hpick
      hdue) ?_
    rintro _ _ rfl
    refine .bind (safe_waker_done g.extra rfl hknows howed) ?_
    rintro _ _ rfl
    refine .mono (safe_release_lock (Finset.mem_insert_self _ _) hon hpick hdue hknows rfl) ?_
    rintro _ _ rfl
    conv_rhs => rw [← hclear]
    simp [Ghost.forget, hlocks]

include hfree hknows howed in
theorem safe_waker (before : Bool) (f : V → V) :
    (protocol (C := C) lk chan cond).logic.Safe t (waker lk chan before f) g fun _ g' => g' = g := by
  unfold waker
  split
  case isTrue => exact safe_waker_before hfree hknows howed f
  case isFalse => exact safe_waker_after hfree hknows howed f

omit [DecidableEq C] [DecidableEq L] [DecidableEq K] in
theorem boot_protocol (he : e.pending = fun _ => 0) :
    Protocol lk chan cond (.boot e) (bootGhost ⟨0, 0, none⟩) := by
  have hextra : ∀ t : Thread C, (bootGhost ⟨0, 0, none⟩ t : Ghost L K (Duty V)).extra =
      ⟨0, 0, none⟩ := by
    intro t
    cases t <;> rfl
  refine ⟨fun r l hl => ?_, fun r v hv => ?_, fun k hk p hw => ?_, fun r => ?_, fun r => ?_⟩
  · rw [hextra] at hl
    exact absurd rfl hl.2
  · rw [hextra] at hv
    cases hv
  · rcases hw with hsl | hd
    · have hst := hsl.1
      simp only [Kernel.boot] at hst
      split at hst <;> cases hst
    · cases hd
  · rw [hextra]
    exact congrFun he r
  · rw [hextra]

/-- In every state of every interleaving, if a process sleeps while the
    condition holds, some waker has made its change and has not finished its
    `wakeup`. -/
theorem no_lost_wakeup (σ : Machine.Config C (Kernel C L K (Shared C V)) (Thread C) Act)
    (h : LTS.Reachable (system (fun e => e.pending = fun _ => 0) (participant lk chan cond)
      (event lk chan)) σ)
    (p : Slot) (hsleep : σ.mem.Asleep p (some (.other chan)))
    (hcond : cond σ.mem.env.val = true) : ∃ t, 0 < σ.mem.env.pending t := by
  have hinv := protocol_lawful.sound_all (R := protocol lk chan cond)
    (fun e he => boot_protocol he) (fun p x => ?_) (fun {c G s} i hcoh hinv hfree hmay => ?_)
    (fun _ _ _ => trivial) h
  · obtain ⟨_, G, ⟨_, hprot⟩, _⟩ := hinv
    rcases hprot.lost chan rfl p (Or.inl hsleep) with hfalse | ⟨t, ht⟩
    · rw [hcond] at hfalse
      cases hfalse
    · refine ⟨t, ?_⟩
      rw [hprot.pending]
      exact lt_of_lt_of_le ht (hprot.owed t)
  · cases x with
    | sys x => exact safe_syscall protocol_lawful x
    | wait body fuel => exact safe_waiter body fuel
    | wake before f => exact safe_waker ⟨rfl, fun _ _ => rfl, nofun, rfl, rfl⟩ rfl le_rfl before f
  · have hprot : Protocol lk chan cond s G := hinv
    cases i with
    | timer => exact safe_timer protocol_lawful hfree hmay
    | wake before f =>
      exact safe_waker hfree (hprot.ignorant hcoh.placed hfree.locks) (hprot.owed _) before f

/-- The first process waits for a flag and sleeps; then an interrupt sets the
    flag and releases the lock, but has not yet called `wakeup`. -/
def wakingRun : List (Machine.Label (Fin 1) (Option (Part Bool)) (Event Bool)) :=
  .call 0 none :: List.replicate 6 (.step 0) ++
  .call 0 (some (.wait id 2)) :: List.replicate 72 (.step 0) ++
  .irq 0 (.wake false fun _ => true) :: List.replicate 3 (.step 0)

theorem no_lost_wakeup_pending :
    ∃ σ : Machine.Config (Fin 1) (Kernel (Fin 1) Unit Unit (Shared (Fin 1) Bool)) (Thread (Fin 1)) Act,
      LTS.Reachable (system (fun e => e.pending = fun _ => 0) (participant (.other ()) () id)
        (event (.other ()) ())) σ ∧
      σ.mem.Asleep initproc (some (.other ())) ∧ σ.mem.env.val = true ∧
      σ.mem.lock (.other ()) = none ∧ ∃ t, 0 < σ.mem.env.pending t := by
  have hrun : ((system (fun e : Shared (Fin 1) Bool => e.pending = fun _ => 0)
      (participant (.other ()) () id) (event (.other ()) ())).exec (fun _ _ => true)
      (boot ⟨false, fun _ => 0⟩ : Machine.Config (Fin 1) (Kernel (Fin 1) Unit Unit
        (Shared (Fin 1) Bool)) (Thread (Fin 1)) Act) wakingRun).any (fun σ => decide
          ((σ.mem.proc initproc).state = .SLEEPING ∧ (σ.mem.proc initproc).chan = some (.other ()) ∧
            σ.mem.env.val = true ∧ σ.mem.lock (.other ()) = none)) = true := by
    decide +kernel
  obtain ⟨σ, hσ, hst, hchan, hval, hfree⟩ := LTS.exists_run_of_exec hrun
  have hreach := (reachable_of_boot (by rfl) hσ).of_restrict
  exact ⟨σ, hreach, ⟨hst, hchan⟩, hval, hfree,
    no_lost_wakeup σ hreach initproc ⟨hst, hchan⟩ hval⟩

end Xv6.Kern
