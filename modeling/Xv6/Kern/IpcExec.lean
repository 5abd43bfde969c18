import Xv6.Kern.IpcRegime

/-! # Symbolic execution of the waiting loops

    Rules for the actions of `pipe.c`, `console.c` and `sysproc.c`, and from
    them what each function does to the ghost state of the thread that runs it.
    A thread that holds the lock of an object knows the object (`Safe.learn`)
    until it releases the lock.
-/

namespace Xv6.Kern

open Op Prog Function

variable {C ι : Type} [DecidableEq C] [DecidableEq ι] {strict gentle : Prop}
  {s s' : Kernel C (Obj ι) (Key ι) (Ipc ι)} {G : Thread C → Ghost (Obj ι) (Key ι) (Hold ι)}
  {t : Thread C} {c : C} {a : Act} {g g' : Ghost (Obj ι) (Key ι) (Hold ι)} {α β : Type} {o : Obj ι}
  {p : Slot} {f : Ipc ι → Ipc ι × α} {k : Key ι} {v v' : o.View}

/-! ## How the invariant is kept -/

/-- What holds of an object. -/
def Obj.Ok : (o : Obj ι) → o.View → Prop
  | .pipe _, p => p.Ok
  | _, _ => True

omit [DecidableEq C] in
theorem IpcInv.obj_ok (h : IpcInv strict gentle s G) (o : Obj ι) : o.Ok (s.env.view o) := by
  cases o with
  | pipe i => exact h.ok i
  | cons => trivial
  | ticks => trivial

/-- What a thread does without taking bytes from a pipe. -/
theorem IpcInv.tally_same (h : IpcInv strict gentle s G) {e : Ipc ι}
    (htaken : ∀ i, (e.pipe i).taken = (s.env.pipe i).taken) (hreads : e.reads = s.env.reads)
    (hbytes : g'.extra.bytes = (G t).extra.bytes) :
    e.Tally fun p => (update G t g' (.proc p)).extra.bytes := by
  refine h.tally.congr htaken hreads fun p => ?_
  by_cases hp : .proc p = t
  · rw [hp, update_self, hbytes]
  · rw [update_of_ne hp]

omit [DecidableEq ι] in
theorem bytes_update {p q : Slot} : (update G (.proc p) g' (.proc q)).extra.bytes =
    update (fun q => (G (.proc q)).extra.bytes) p g'.extra.bytes q := by
  by_cases hq : q = p
  · subst hq
    rw [update_self, update_self]
  · rw [update_of_ne (by simpa using hq), update_of_ne hq]

/-- One thread changes an object, or what it knows and owes. -/
theorem IpcInv.change (h : IpcInv strict gentle s G) {e : Ipc ι} (hdue : g'.due = (G t).due)
    (hok : ∀ o : Obj ι, o.Ok (e.view o)) (hneed : ∀ l ∈ g'.extra.need, s.Holds t l)
    (hview : ∀ o v, g'.extra.view = some ⟨o, v⟩ → e.view o = v)
    (hframe : ∀ o, e.view o = s.env.view o ∨ s.Holds t (.other o))
    (hgoing : e.going = s.env.going) (hbound : g'.extra.bound = (G t).extra.bound)
    (hgood : ∀ r ∈ e.reads, r.2.Good)
    (htally : e.Tally fun p => (update G t g' (.proc p)).extra.bytes)
    (hwait : ∀ k ∈ sure strict, k.Wait (s.env.view k.obj) →
      k.Wait (e.view k.obj) ∨ k ∈ g'.extra.owes ∨ ∀ p, ¬ Waits s G p k)
    (howes : ∀ k ∈ sure strict, k ∈ (G t).extra.owes →
      k ∈ g'.extra.owes ∨ ∀ p, ¬ Waits s G p k) :
    IpcInv strict gentle { s with env := e } (update G t g') := by
  have hsame : ∀ r, (update G t g' r).due = (G r).due ∧
      (update G t g' r).extra.bound = (G r).extra.bound := by
    intro r
    by_cases hr : r = t
    · subst hr
      rw [update_self]
      exact ⟨hdue, hbound⟩
    · rw [update_of_ne hr]
      exact ⟨rfl, rfl⟩
  have habout : ∀ p k, AboutToSleep { s with env := e } p k ↔ AboutToSleep s p k := by
    intro p k
    unfold AboutToSleep
    rw [hgoing]
  refine ⟨fun i => hok (.pipe i), hgood, htally, h.held.change hneed, fun r o v hv => ?_,
    h.lost.change hdue hwait howes, fun p k n hn => ?_, fun p k hk => ?_, fun p chan hd => ?_,
    fun hg p k hk => h.window hg p k ((habout p k).mp hk), fun hg p k hsl => ?_⟩
  · by_cases hr : r = t
    · subst hr
      rw [update_self] at hv
      exact hview o v hv
    · rw [update_of_ne hr] at hv
      rcases hframe o with hkept | hown
      · exact hkept.trans (h.view r o v hv)
      · -- another thread that knows the object would hold its lock too
        have hother : s.Holds r (.other o) := h.held r _ ⟨o, rfl, Or.inl ⟨v, hv⟩⟩
        exact absurd (hother.unique hown) hr
  · exact h.going p k n (by rw [← hgoing]; exact hn)
  · rw [(hsame _).2] at hk
    exact (habout p k).mpr (h.bound p k hk)
  · rw [(hsame _).1] at hd
    rw [(hsame _).2]
    exact ⟨(h.due p chan hd).1, fun k hk => (habout p k).mpr ((h.due p chan hd).2 k hk)⟩
  · rcases h.slept hg p k hsl with hf | ⟨r, hact, hr⟩
    · exact Or.inl hf
    · exact Or.inr ⟨r, hact, by rw [(hsame r).1]; exact hr⟩

/-- A process that has found that it is not killed decides to sleep. -/
theorem IpcInv.decide (h : IpcInv strict gentle s G) (hkilled : (s.proc p).killed = false)
    (hdue : (G (.proc p)).due = none) (hdue' : g'.due = none)
    (howes : g'.extra.owes = (G (.proc p)).extra.owes)
    (hview : g'.extra.view = (G (.proc p)).extra.view) (hbound : g'.extra.bound = some k)
    (hbytes : g'.extra.bytes = (G (.proc p)).extra.bytes) :
    IpcInv strict gentle
      { s with env := { s.env with
        going := update s.env.going p (some (k, (s.proc p).naps)) } }
      (update G (.proc p) g') := by
  have hsame : ∀ o : Obj ι, ({ s.env with
      going := update s.env.going p (some (k, (s.proc p).naps)) } : Ipc ι).view o =
      s.env.view o := by
    intro o
    cases o <;> rfl
  have hneed : g'.extra.need = (G (.proc p)).extra.need := by
    unfold Hold.need
    rw [hview, howes]
  have hother : ∀ q, q ≠ p → ∀ k', AboutToSleep { s with env := { s.env with
      going := update s.env.going p (some (k, (s.proc p).naps)) } } q k' ↔
      AboutToSleep s q k' := by
    intro q hq k'
    show update s.env.going p _ q = _ ↔ s.env.going q = _
    rw [update_of_ne hq]
  refine ⟨h.ok, h.good, h.tally_same (fun _ => rfl) rfl hbytes,
    h.held.change fun l hl => h.held _ l (by rw [← hneed]; exact hl),
    fun r o v hv => ?_, h.lost.change (by rw [hdue, hdue']) (fun k' _ hw => ?_) (fun k' _ ho => ?_),
    fun q k' n hn => ?_, fun q k' hk => ?_, fun q chan hd => ?_, fun hg q k' hk => ?_,
    fun hg q k' hsl => ?_⟩
  · rw [hsame]
    by_cases hr : r = .proc p
    · subst hr
      rw [update_self, hview] at hv
      exact h.view _ o v hv
    · rw [update_of_ne hr] at hv
      exact h.view r o v hv
  · rw [hsame]
    exact Or.inl hw
  · rw [howes]
    exact Or.inl ho
  · change update s.env.going p _ q = some (k', n) at hn
    by_cases hq : q = p
    · subst hq
      rw [update_self] at hn
      cases hn
      exact le_rfl
    · rw [update_of_ne hq] at hn
      exact h.going q k' n hn
  · by_cases hq : q = p
    · subst hq
      rw [update_self, hbound] at hk
      cases hk
      exact update_self _ _ _
    · rw [update_of_ne (by simpa using hq)] at hk
      exact (hother q hq k').mpr (h.bound q k' hk)
  · by_cases hq : q = p
    · subst hq
      rw [update_self, hdue'] at hd
      cases hd
    · rw [update_of_ne (by simpa using hq)] at hd ⊢
      exact ⟨(h.due q chan hd).1, fun k' hk => (hother q hq k').mpr ((h.due q chan hd).2 k' hk)⟩
  · by_cases hq : q = p
    · subst hq
      exact hkilled
    · exact h.window hg q k' ((hother q hq k').mp hk)
  · rcases h.slept hg q k' hsl with hf | ⟨r, hact, hr⟩
    · exact Or.inl hf
    · refine Or.inr ⟨r, hact, ?_⟩
      by_cases hrp : r = .proc p
      · subst hrp
        rw [hdue] at hr
        cases hr
      · rw [update_of_ne hrp]
        exact hr

/-- A process that has reason to sleep, and has decided to, is about to. -/
theorem IpcInv.doze {chan : Chan (Key ι)} (h : IpcInv strict gentle s G)
    (hdue : (G (.proc p)).due = none) (hdue' : g'.due = some (.sleep chan))
    (howes : g'.extra.owes = (G (.proc p)).extra.owes) (hview : g'.extra.view = none)
    (hbound : g'.extra.bound = none) (hbytes : g'.extra.bytes = (G (.proc p)).extra.bytes)
    (hchan : ∀ k, chan = .other k → (G (.proc p)).extra.bound = some k ∧
      k.Wait (s.env.view k.obj)) : IpcInv strict gentle s (update G (.proc p) g') := by
  refine ⟨h.ok, h.good, h.tally_same (fun _ => rfl) rfl hbytes,
    h.held.change (e := s.env) fun l hl => h.held _ l ?_, fun r o v hv => ?_,
    h.lost.doze hdue' (fun k _ hk => (hchan k hk).2) (by rw [howes]), h.going, fun q k hk => ?_,
    fun q chan' hd => ?_, h.window, fun hg q k hsl => ?_⟩
  · obtain ⟨o, rfl, ⟨v, hv⟩ | hk⟩ := hl
    · rw [hview] at hv
      cases hv
    · rw [howes] at hk
      exact ⟨o, rfl, Or.inr hk⟩
  · by_cases hr : r = .proc p
    · subst hr
      rw [update_self, hview] at hv
      cases hv
    · rw [update_of_ne hr] at hv
      exact h.view r o v hv
  · by_cases hq : q = p
    · subst hq
      rw [update_self, hbound] at hk
      cases hk
    · rw [update_of_ne (by simpa using hq)] at hk
      exact h.bound q k hk
  · by_cases hq : q = p
    · subst hq
      rw [update_self, hdue'] at hd
      cases hd
      rw [update_self]
      exact ⟨hbound, fun k hk => h.bound q k (hchan k hk).1⟩
    · rw [update_of_ne (by simpa using hq)] at hd ⊢
      exact h.due q chan' hd
  · rcases h.slept hg q k hsl with hf | ⟨r, hact, hr⟩
    · exact Or.inl hf
    · refine Or.inr ⟨r, hact, ?_⟩
      by_cases hrp : r = .proc p
      · subst hrp
        rw [hdue] at hr
        cases hr
      · rw [update_of_ne hrp]
        exact hr

omit [DecidableEq C] [DecidableEq ι] in
theorem rest_need : (Hold.rest : Hold ι).need = ∅ := by
  ext l
  simp [Hold.need, Hold.rest]

omit [DecidableEq C] [DecidableEq ι] in
theorem ptable_need (x : Hold ι) : .ptable ∉ x.need := by
  rintro ⟨o, ho, _⟩
  cases ho

theorem ipc_lawful : (ipc strict gentle : Rules C (Obj ι) (Key ι) (Ipc ι) (Hold ι)).Lawful where
  step hat htr := hat.coh.2.trans hat.coh.1 hat.cur hat.cond.2 (fun _ _ => id) htr
  wait hat _ hdue hrest := by
    refine hat.coh.2.doze hdue rfl rfl ?_ ?_ rfl nofun <;> rw [hrest] <;> rfl
  may l := by
    show l ∉ (Hold.rest : Hold ι).need
    rw [rest_need]
    exact id
  irq _ _ _ := ptable_need _

/-! ## Rules -/

variable (C strict gentle) in
/-- Thread `t` is safe under the regime. -/
abbrev IpcSafe (t : Thread C) (x : IProg C ι α) (g : Ghost (Obj ι) (Key ι) (Hold ι))
    (Q : α → Ghost (Obj ι) (Key ι) (Hold ι) → Prop) : Prop := (ipc strict gentle).logic.Safe t x g Q

/-- A thread that holds the lock of an object knows the object. -/
theorem Safe.learn {m : KOp C (Obj ι) (Key ι) (Ipc ι) β} {k : β → IProg C ι α}
    {Q : α → Ghost (Obj ι) (Key ι) (Hold ι) → Prop} (hl : .other o ∈ g.locks)
    (h : ∀ v, o.Ok v → IpcSafe C strict gentle t (.act a m k)
      { g with extra := { g.extra with view := some ⟨o, v⟩ } } Q) :
    IpcSafe C strict gentle t (.act a m k) g Q := by
  refine Safe.extra fun c s G hat => ⟨_, ?_, h (s.env.view o) (hat.coh.2.obj_ok o)⟩
  have hinv : IpcInv strict gentle s G := hat.coh.2
  have hself := hat.self
  have hown := hat.coh.1.placed.holds_of_mem hat.cur (by rw [hself]; exact hl)
  refine hinv.change (e := s.env) (by rw [hself]) hinv.obj_ok (fun l hl' => ?_) (fun o' v hv => ?_)
    (fun _ => Or.inl rfl) rfl (by rw [hself]) hinv.good
    (hinv.tally_same (fun _ => rfl) rfl (by rw [hself])) (fun _ _ => Or.inl)
    (fun k _ hk => Or.inl ?_)
  · obtain ⟨o', rfl, ⟨v, hv⟩ | hk⟩ := hl'
    · cases hv
      exact hown
    · exact hinv.held t _ ⟨o', rfl, Or.inr (by rw [hself]; exact hk)⟩
  · cases hv
    rfl
  · rw [hself] at hk
    exact hk

theorem safe_look {f : Ipc ι → α} {v : o.View} {x : α} (hv : g.extra.view = some ⟨o, v⟩)
    (hf : ∀ e, e.view o = v → f e = x) :
    IpcSafe C strict gentle t (look f) g fun b g' => b = x ∧ g' = g := by
  refine safe_read ipc_lawful fun c s G hat => ⟨rfl, hf _ ?_, rfl⟩
  exact hat.coh.2.view t o v (by rw [hat.self]; exact hv)

/-- A thread changes an object whose lock it holds. It owes a wakeup to every
    channel that there is no longer reason to sleep on. -/
theorem IpcInv.edit (owes : Set (Key ι)) (bytes : ι → List Byte)
    (hat : (ipc (C := C) strict gentle).logic.At t g a c s G) (hv : g.extra.view = some ⟨o, v⟩)
    (hl : .other o ∈ g.locks) (hself : ∀ e, e.view o = v → (f e).1.view o = v')
    (hframe : ∀ e o', o' ≠ o → (f e).1.view o' = e.view o') (hgoing : ∀ e, (f e).1.going = e.going)
    (hreads : ∀ e, (f e).1.reads = e.reads)
    (htally : (f s.env).1.Tally fun p => (update G t { g with
      extra := { g.extra with owes := owes, view := some ⟨o, v'⟩, bytes := bytes } }
      (.proc p)).extra.bytes) (hok : o.Ok v → o.Ok v')
    (hin : ∀ k ∈ owes, k ∈ g.extra.owes ∨ k.obj = o) (hle : g.extra.owes ⊆ owes)
    (hwait : ∀ e, e.view o = v → ∀ k, k.obj = o → k.Wait (e.view k.obj) →
      k.Wait ((f e).1.view k.obj) ∨ k ∈ owes) :
    s.env.view o = v ∧ IpcInv strict gentle { s with env := (f s.env).1 } (update G t
      { g with extra := { g.extra with owes := owes, view := some ⟨o, v'⟩, bytes := bytes } }) := by
  have hinv : IpcInv strict gentle s G := hat.coh.2
  have hg := hat.self
  have hown := hat.coh.1.placed.holds_of_mem hat.cur (by rw [hg]; exact hl)
  have hval : s.env.view o = v := hinv.view t o v (by rw [hg]; exact hv)
  refine ⟨hval, hinv.change (by rw [hg]) (fun o' => ?_) (fun l hl' => ?_) (fun o' w hw => ?_)
    (fun o' => ?_) (hgoing _) (by rw [hg]) (by rw [hreads]; exact hinv.good) htally
    (fun k _ hk => ?_) (fun k _ hk => Or.inl ?_)⟩
  · by_cases ho : o' = o
    · subst ho
      rw [hself _ hval]
      exact hok (hval ▸ hinv.obj_ok o')
    · rw [hframe _ o' ho]
      exact hinv.obj_ok o'
  · obtain ⟨o', rfl, ⟨w, hw⟩ | ⟨k, hk, hko⟩⟩ := hl'
    · cases hw
      exact hown
    · rcases hin k hk with hold | hobj
      · exact hinv.held t _ ⟨o', rfl, Or.inr ⟨k, by rw [hg]; exact hold, hko⟩⟩
      · rw [← hko, hobj]
        exact hown
  · cases hw
    exact hself _ hval
  · by_cases ho : o' = o
    · subst ho
      exact Or.inr hown
    · exact Or.inl (hframe _ o' ho)
  · by_cases hko : k.obj = o
    · exact (hwait _ hval k hko hk).imp_right Or.inl
    · rw [hframe _ _ hko]
      exact Or.inl hk
  · rw [hg] at hk
    exact hle hk

theorem safe_edit {x : α} (owes : Set (Key ι)) (hv : g.extra.view = some ⟨o, v⟩)
    (hl : .other o ∈ g.locks) (hx : ∀ e, e.view o = v → (f e).2 = x)
    (hself : ∀ e, e.view o = v → (f e).1.view o = v')
    (hframe : ∀ e o', o' ≠ o → (f e).1.view o' = e.view o') (hgoing : ∀ e, (f e).1.going = e.going)
    (hreads : ∀ e, (f e).1.reads = e.reads)
    (htaken : ∀ e i, ((f e).1.pipe i).taken = (e.pipe i).taken) (hok : o.Ok v → o.Ok v')
    (hin : ∀ k ∈ owes, k ∈ g.extra.owes ∨ k.obj = o) (hle : g.extra.owes ⊆ owes)
    (hwait : ∀ e, e.view o = v → ∀ k, k.obj = o → k.Wait (e.view k.obj) →
      k.Wait ((f e).1.view k.obj) ∨ k ∈ owes) :
    IpcSafe C strict gentle t (edit f) g fun b g' => b = x ∧
      g' = { g with extra := { g.extra with owes := owes, view := some ⟨o, v'⟩ } } := by
  refine safe_env fun c s G hat => ?_
  obtain ⟨hval, hinv⟩ := IpcInv.edit owes g.extra.bytes hat hv hl hself hframe hgoing hreads
    (hat.coh.2.tally_same (htaken _) (hreads _) (by rw [hat.self])) hok hin hle hwait
  exact ⟨(f s.env).1, _, rfl, hinv, hx _ hval, rfl⟩

/-- After `wakeup`, the wakeup is no longer owed. -/
theorem safe_wake (k : Key ι) (htab : .ptable ∉ g.locks) (hon : ∀ p, t = .proc p → g.phase = .on)
    (hpick : ∀ d, t = .sched d → g.pick = none) (hdue : g.due = none) :
    IpcSafe C strict gentle t (wakeup (.other k)) g fun _ g' =>
      g' = { g.forget with extra := { g.extra with owes := g.extra.owes \ {k} } } := by
  refine safe_wakeup_extra ipc_lawful _ htab hon hpick hdue (ptable_need _)
    fun c s G hat hextra hdue hwoken => ?_
  have hinv : IpcInv strict gentle s G := hat.coh.2
  refine hinv.change (e := s.env) rfl hinv.obj_ok (fun l hl => hinv.held t l ?_)
    (fun o v hv => hinv.view t o v (by rw [hextra]; exact hv)) (fun _ => Or.inl rfl) rfl
    (by rw [hextra]) hinv.good (hinv.tally_same (fun _ => rfl) rfl (by rw [hextra]))
    (fun _ _ => Or.inl) (fun k' _ hk' => ?_)
  · rw [hextra]
    obtain ⟨o, rfl, hv | ⟨k', hk', hko⟩⟩ := hl
    · exact ⟨o, rfl, Or.inl hv⟩
    · exact ⟨o, rfl, Or.inr ⟨k', hk'.1, hko⟩⟩
  · by_cases hk : k' = k
    · subst hk
      exact Or.inr (hat.coh.1.nobody_waits hwoken (by rw [hdue]; simp))
    · rw [hextra] at hk'
      exact Or.inl ⟨hk', hk⟩

theorem safe_killed_wait (hdue : g.due = none) :
    IpcSafe C strict gentle (.proc p) (killed_wait k) g fun quit g' =>
      g' = if quit then g else { g with extra := { g.extra with bound := some k } } := by
  refine safe_env fun c s G hat => ?_
  unfold withProc
  simp only [wlp_bind, wlp_get, cproc_of_at hat]
  split
  case isTrue =>
    refine ⟨s.env, g.extra, rfl, ?_, rfl⟩
    rw [← hat.self, update_eq_self]
    exact hat.coh.2
  case isFalse hk =>
    refine ⟨_, { g.extra with bound := some k }, rfl, ?_, rfl⟩
    exact IpcInv.decide hat.coh.2 (by simpa using hk) (by rw [hat.self]; exact hdue) hdue
      (by rw [hat.self]) (by rw [hat.self]) rfl (by rw [hat.self])

/-- The process sleeps. -/
theorem safe_pause {v : k.obj.View} (hlocks : g.locks = {.other k.obj}) (hon : g.phase = .on)
    (hdue : g.due = none) (howes : g.extra.owes = ∅) (hview : g.extra.view = some ⟨k.obj, v⟩)
    (hbound : g.extra.bound = some k) (hbytes : g.extra.bytes = fun _ => []) (hwait : k.Wait v) :
    IpcSafe C strict gentle (.proc p) (sleep (.other k) (.other k.obj)) g
      fun _ g' => g' = { g.forget with extra := .rest } := by
  refine safe_sleep ipc_lawful hlocks hon hdue (fun l => ?_) fun c s G hat => ?_
  · show l ∉ (Hold.rest : Hold ι).need
    rw [rest_need]
    exact id
  · have hinv : IpcInv strict gentle s G := hat.coh.2
    have hextra : (G (.proc p)).extra = g.extra := by rw [hat.self]
    refine hinv.doze (by rw [hat.self]; exact hdue) rfl (by rw [hextra, howes]; rfl) rfl rfl
      (by rw [hextra, hbytes]; rfl) ?_
    rintro _ ⟨⟩
    rw [hextra, hinv.view (.proc p) k.obj v (by rw [hextra]; exact hview)]
    exact ⟨hbound, hwait⟩

/-- A thread that owes nothing gives the lock back, and forgets the object. -/
theorem safe_leave {l : Act} (hl : .other o ∈ g.locks) (hon : ∀ p, t = .proc p → g.phase = .on)
    (howes : ∀ k ∈ g.extra.owes, k.obj ≠ o) :
    IpcSafe C strict gentle t (.atomic l (releases (.other o))) g fun _ g' =>
      g' = { g with
        locks := g.locks.erase (.other o), extra := { g.extra with view := none } } := by
  refine Safe.extra fun c s G hat => ⟨{ g.extra with view := none }, ?_, ?_⟩
  · have hinv : IpcInv strict gentle s G := hat.coh.2
    have hg := hat.self
    refine hinv.change (e := s.env) (by rw [hg]) hinv.obj_ok (fun l hl => hinv.held t l ?_) nofun
      (fun _ => Or.inl rfl) rfl (by rw [hg]) hinv.good
      (hinv.tally_same (fun _ => rfl) rfl (by rw [hg])) (fun _ _ => Or.inl)
      (fun k _ hk => Or.inl ?_)
    · obtain ⟨o', rfl, ⟨v, hv⟩ | hk⟩ := hl
      · cases hv
      · rw [hg]
        exact ⟨o', rfl, Or.inr hk⟩
    · rw [hg] at hk
      exact hk
  · refine .mono (safe_releases ipc_lawful hl hon ?_) ?_
    · rintro ⟨o', ho, ⟨v, hv⟩ | ⟨k, hk, hko⟩⟩
      · cases hv
      · cases ho
        exact howes k hk hko
    · rintro _ _ rfl
      rfl

end Xv6.Kern
