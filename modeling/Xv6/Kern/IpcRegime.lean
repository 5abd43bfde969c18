import Xv6.Kern.Ipc
import Xv6.Kern.Monitor

/-! # The invariant of pipes, console and clock

    One regime serves several properties. Unconditionally the pipes are in
    order (`Pipe.Ok`) and no wakeup is lost but those for `&p->nread`. If
    `strict` holds, a writer only gives up when nobody sleeps or is about to
    sleep on `&p->nread`, and then no wakeup is lost at all. If `gentle` holds,
    `kill` hits no process that is about to sleep, and then no process that is
    killed sleeps.
-/

namespace Xv6.Kern

open Function

/-! ## Marks and naps -/

section

variable {C L K E Γ : Type} [DecidableEq C] [DecidableEq L] [DecidableEq K]
  {s s' : Kernel C L K E} {G : Thread C → Ghost L K Γ} {t : Thread C} {c : C} {a : Act}
  {g' : Ghost L K Γ} {May : Lock L → Γ → Prop}

omit [DecidableEq C] [DecidableEq L] [DecidableEq K] in
theorem rouse_keeps (pr : Proc K) : pr.rouse.killed = pr.killed ∧ pr.rouse.naps = pr.naps := by
  unfold Proc.rouse
  split <;> exact ⟨rfl, rfl⟩

omit [DecidableEq C] [DecidableEq L] in
theorem wake_keeps (chan : Option (Chan K)) (pr : Proc K) :
    (pr.wake chan).killed = pr.killed ∧ (pr.wake chan).naps = pr.naps := by
  unfold Proc.wake
  split <;> exact ⟨rfl, rfl⟩

/-- A process takes a nap only when it was about to sleep. -/
theorem Trans.naps (h : Trans May t c G s a s' g') (q : Slot) :
    (s'.proc q).naps = (s.proc q).naps ∨
      t = .proc q ∧ (s'.proc q).naps = (s.proc q).naps + 1 ∧ g'.due = none ∧
        ∃ chan, (G t).due = some (.sleep chan) := by
  cases h with
  | @sleeps p chan heq htab hon hdue hmay hscan =>
    by_cases hq : q = p
    · subst hq
      rw [setProc_self]
      exact Or.inr ⟨heq, rfl, rfl, chan, hdue⟩
    · rw [setProc_ne hq]
      exact Or.inl rfl
  | @reparent p r heq htab hchild hinit =>
    left
    rw [reparent_proc]
  | wake htab => exact Or.inl (field_of_update Proc.naps rfl (wake_keeps _ _).2 q)
  | rouse htab hdue => exact Or.inl (field_of_update Proc.naps rfl (rouse_keeps _).2 q)
  | quiet | acquire | release | unlock | land | swtch | unpick | scanned | kin | returns =>
    exact Or.inl rfl
  | _ => exact Or.inl (field_of_update Proc.naps rfl (by rfl) q)

/-- Only `kill` marks a process. -/
theorem Trans.killed (h : Trans May t c G s a s' g') {q : Slot}
    (hq : (s'.proc q).killed = true) :
    (s.proc q).killed = true ∨ ∃ pid, a = .kill q pid ∧ (s.proc q).pid = pid ∧
      .ptable ∈ (G t).locks ∧ s'.cur = s.cur ∧ s'.lock = s.lock ∧ g'.due = some (.rouse q) := by
  cases h with
  | @kill p pid htab hdue hpid =>
    by_cases hqp : q = p
    · subst hqp
      exact Or.inr ⟨pid, rfl, hpid, htab, rfl, rfl, rfl⟩
    · rw [setProc_ne hqp] at hq
      exact Or.inl hq
  | @reap p r heq htab hparent hzombie hgot =>
    by_cases hqr : q = r
    · subst hqr
      rw [show ((s.setProc q fun pr =>
        { pr with pid := 0, parent := none, killed := false, state := .UNUSED }).proc q).killed =
        false by rw [setProc_self]] at hq
      cases hq
    · have := hq
      change (update s.proc r _ q).killed = true at this
      rw [update_of_ne hqr] at this
      exact Or.inl this
  | @reparent p r heq htab hchild hinit =>
    left
    rw [reparent_proc] at hq
    exact hq
  | wake htab =>
    exact Or.inl ((field_of_update Proc.killed rfl (wake_keeps _ _).1 q).symm.trans hq)
  | rouse htab hdue =>
    exact Or.inl ((field_of_update Proc.killed rfl (rouse_keeps _).1 q).symm.trans hq)
  | quiet | acquire | release | unlock | land | swtch | unpick | scanned | kin | returns =>
    exact Or.inl hq
  | _ => exact Or.inl ((field_of_update Proc.killed rfl (by rfl) q).symm.trans hq)

/-- A process that is marked is roused before anything else happens. -/
theorem Trans.due_rouse (h : Trans May t c G s a s' g') {q : Slot}
    (hd : (G t).due = some (.rouse q)) :
    g'.due = some (.rouse q) ∨ ∀ chan, ¬ s'.Asleep q chan := by
  cases h with
  | sleeps heq htab hon hdue hmay hscan =>
    rw [hd] at hdue
    cases hdue
  | kill htab hdue hpid =>
    rw [hd] at hdue
    cases hdue
  | rouse htab hdue =>
    rw [hd] at hdue
    cases hdue
    right
    intro chan hsl
    have hst := hsl.1
    rw [setProc_self] at hst
    by_cases hs : (s.proc q).state = .SLEEPING
    · rw [rouse_of_eq hs] at hst
      cases hst
    · rw [rouse_of_ne hs] at hst
      exact hs hst
  | _ => exact Or.inl hd

end

/-! ## The regime -/

variable {C ι : Type}

/-- The data that a lock protects. -/
abbrev Obj.View : Obj ι → Type
  | .pipe _ => Pipe
  | .cons => Input
  | .ticks => BitVec 32

def Ipc.view (e : Ipc ι) : (o : Obj ι) → o.View
  | .pipe i => e.pipe i
  | .cons => e.input
  | .ticks => e.ticks

/-- The object a channel belongs to. -/
def Key.obj : Key ι → Obj ι
  | .nread i => .pipe i
  | .nwrite i => .pipe i
  | .input => .cons
  | .ticks => .ticks

/-- The reason to sleep on a channel. -/
def Key.Wait : (k : Key ι) → k.obj.View → Prop
  | .nread _, p => p.empty = true ∧ p.writeopen = true
  | .nwrite _, p => p.full = true ∧ p.readopen = true
  | .input, i => i.r = i.w
  | .ticks, _ => True

/-- What a thread adds to its ghost state: the channels it owes a wakeup, the
    object it has locked and knows, the channel it has decided to sleep on,
    and the bytes it has taken from pipes in a call that has not returned. -/
structure Hold (ι : Type) where
  owes : Set (Key ι)
  view : Option (Σ o : Obj ι, o.View)
  bound : Option (Key ι)
  bytes : ι → List Byte

namespace Hold

def rest : Hold ι := ⟨∅, none, none, fun _ => []⟩

/-- The locks a thread relies on. -/
def need (x : Hold ι) : Set (Lock (Obj ι)) :=
  {l | ∃ o, l = .other o ∧ ((∃ v, x.view = some ⟨o, v⟩) ∨ ∃ k ∈ x.owes, k.obj = o)}

end Hold

/-- A writer that gives up leaves nobody behind that sleeps or is about to
    sleep on `&p->nread`. -/
def NobodyLeft (s : Kernel C (Obj ι) (Key ι) (Ipc ι)) (c : C) : Act → Prop
  | .fail => ∀ i, s.lock (.other (.pipe i)) = some c → ∀ q,
      ¬ s.Asleep q (some (.other (.nread i))) ∧ ¬ AboutToSleep s q (.nread i)
  | _ => True

/-- `kill` hits nobody who is about to sleep. -/
def Gentle (s : Kernel C (Obj ι) (Key ι) (Ipc ι)) : Act → Prop
  | .kill q pid => (s.proc q).pid = pid → ∀ k, ¬ AboutToSleep s q k
  | _ => True

/-- The channels for which no wakeup is lost. -/
def sure (strict : Prop) : Set (Key ι) := {k | strict ∨ ∀ i, k ≠ .nread i}

/-- A call of `piperead` has given up, or it returns the number of bytes it
    has copied, and 0 only at the end of the stream. -/
def PipeRead.Good (r : PipeRead ι) : Prop :=
  r.ret = -1 ∧ r.bytes = [] ∨ r.ret = r.bytes.length ∧ r.bytes.length ≤ r.n ∧
    (0 < r.n → r.ret = 0 → ∃ v, r.seen = some v ∧ v.writeopen = false ∧ v.delivered = v.stored)

section

variable [DecidableEq ι]

/-- What calls of `piperead` have returned to process `p` from pipe `i`. -/
def Ipc.returnedTo (e : Ipc ι) (p : Slot) (i : ι) : List Byte :=
  (e.reads.filter fun r => r.1 = p ∧ r.2.pipe = i).flatMap fun r => r.2.bytes

/-- A process is given the bytes that it takes from a pipe. -/
def Ipc.Tally (e : Ipc ι) (bytes : Slot → ι → List Byte) : Prop :=
  ∀ p i, (e.pipe i).takenBy p = e.returnedTo p i ++ bytes p i

/-- The part of the memory that the tally is about has not changed. -/
theorem Ipc.Tally.congr {e e' : Ipc ι} {bytes bytes' : Slot → ι → List Byte} (h : e.Tally bytes)
    (htaken : ∀ i, (e'.pipe i).taken = (e.pipe i).taken) (hreads : e'.reads = e.reads)
    (hbytes : ∀ p, bytes' p = bytes p) : e'.Tally bytes' := by
  intro p i
  unfold Pipe.takenBy Ipc.returnedTo
  rw [htaken, hreads, hbytes]
  exact h p i

theorem Pipe.takenBy_advance {v : Pipe} {p q : Slot} :
    (v.advance p).takenBy q = v.takenBy q ++ if p = q then [v.front] else [] := by
  unfold Pipe.takenBy Pipe.advance
  by_cases h : p = q <;> simp [h]

/-- Process `p` takes a byte from pipe `i`. -/
theorem Ipc.Tally.take {e : Ipc ι} {bytes : Slot → ι → List Byte} (h : e.Tally bytes) (p : Slot)
    (i : ι) : (e.setPipe i ((e.pipe i).advance p)).Tally
      (update bytes p (update (bytes p) i (bytes p i ++ [(e.pipe i).front]))) := by
  intro q k
  have hold := h q k
  simp only [Ipc.returnedTo, Ipc.setPipe] at hold ⊢
  by_cases hq : q = p <;> by_cases hk : k = i
  · subst hq hk
    simp [Pipe.takenBy_advance, hold]
  · subst hq
    simpa [hk] using hold
  · subst hk
    simpa [Pipe.takenBy_advance, hq, Ne.symm hq] using hold
  · simpa [hq, hk] using hold

/-- Process `p` returns from `piperead` with the bytes it has taken. -/
theorem Ipc.Tally.returned {e : Ipc ι} {bytes : Slot → ι → List Byte} (h : e.Tally bytes)
    {p : Slot} {r : PipeRead ι} (hp : bytes p = update (fun _ => []) r.pipe r.bytes) :
    Ipc.Tally { e with reads := e.reads ++ [(p, r)] } (update bytes p fun _ => []) := by
  intro q k
  have hold := h q k
  simp only [Ipc.returnedTo, List.filter_append, List.flatMap_append] at hold ⊢
  by_cases hq : q = p
  · subst hq
    rw [hp] at hold
    by_cases hk : k = r.pipe
    · subst hk
      simpa using hold
    · simpa [hk, Ne.symm hk] using hold
  · simpa [hq, Ne.symm hq] using hold

end

structure IpcInv [DecidableEq ι] (strict gentle : Prop) (s : Kernel C (Obj ι) (Key ι) (Ipc ι))
    (G : Thread C → Ghost (Obj ι) (Key ι) (Hold ι)) : Prop where
  ok : ∀ i, (s.env.pipe i).Ok
  good : ∀ r ∈ s.env.reads, r.2.Good
  tally : s.env.Tally fun p => (G (.proc p)).extra.bytes
  held : Held Hold.need s G
  view : ∀ t o v, (G t).extra.view = some ⟨o, v⟩ → s.env.view o = v
  lost : NoLost (sure strict) (fun k e => k.Wait (e.view k.obj)) Hold.owes s G
  going : ∀ p k n, s.env.going p = some (k, n) → n ≤ (s.proc p).naps
  bound : ∀ p k, (G (.proc p)).extra.bound = some k → AboutToSleep s p k
  due : ∀ p chan, (G (.proc p)).due = some (.sleep chan) → (G (.proc p)).extra.bound = none ∧
    ∀ k, chan = .other k → AboutToSleep s p k
  window : gentle → ∀ p k, AboutToSleep s p k → (s.proc p).killed = false
  slept : gentle → ∀ p k, s.Asleep p (some (.other k)) →
    (s.proc p).killed = false ∨ ∃ t, s.Active t ∧ (G t).due = some (.rouse p)

/-- The regime. -/
def ipc [DecidableEq ι] (strict gentle : Prop) : Rules C (Obj ι) (Key ι) (Ipc ι) (Hold ι) where
  Inv := IpcInv strict gentle
  Cond s c a := (strict → NobodyLeft s c a) ∧ (gentle → Gentle s a)
  May l x := l ∉ x.need
  rest := .rest

section

variable [DecidableEq C] [DecidableEq ι] {strict gentle : Prop}
  {s s' : Kernel C (Obj ι) (Key ι) (Ipc ι)} {G : Thread C → Ghost (Obj ι) (Key ι) (Hold ι)}
  {t : Thread C} {c : C} {a : Act} {g g' : Ghost (Obj ι) (Key ι) (Hold ι)}

theorem IpcInv.trans {May : Lock (Obj ι) → Hold ι → Prop} (h : IpcInv strict gentle s G)
    (hcoh : Coh s G) (hc : s.cur c = t) (hcond : gentle → Gentle s a)
    (hmay : ∀ l x, May l x → l ∉ Hold.need x) (htr : Trans May t c G s a s' g') :
    IpcInv strict gentle s' (update G t g') := by
  have hp := hcoh.placed
  -- a process that is about to sleep was so before
  have habout : ∀ p k, AboutToSleep s' p k → AboutToSleep s p k := by
    intro p k hk
    unfold AboutToSleep at hk ⊢
    rw [htr.env] at hk
    rcases htr.naps p with hn | ⟨_, hn, _, _⟩
    · rw [← hn]
      exact hk
    · -- it has taken a nap since
      have := h.going p k _ hk
      omega
  have habout' : ∀ p k, AboutToSleep s p k →
      (∀ chan, t = .proc p → (G t).due ≠ some (.sleep chan)) → AboutToSleep s' p k := by
    intro p k hk hno
    unfold AboutToSleep at hk ⊢
    rw [htr.env]
    rcases htr.naps p with hn | ⟨ht, _, _, chan, hd⟩
    · rw [hn]
      exact hk
    · exact absurd hd (hno chan ht)
  refine ⟨?_, ?_, ?_, h.held.trans hp hc hmay htr, fun r o v hv => ?_, h.lost.trans hp hc htr,
    fun p k n hn => ?_, fun p k hk => ?_, fun p chan hd => ?_, fun hg p k hk => ?_,
    fun hg p k hsl => ?_⟩
  · rw [htr.env]
    exact h.ok
  · rw [htr.env]
    exact h.good
  · rw [htr.env]
    exact h.tally.congr (fun _ => rfl) rfl fun p => by rw [htr.extra_update]
  · rw [htr.extra_update] at hv
    rw [htr.env]
    exact h.view r o v hv
  · rw [htr.env] at hn
    have := h.going p k n hn
    rcases htr.naps p with hn' | ⟨_, hn', _, _⟩ <;> omega
  · rw [htr.extra_update] at hk
    refine habout' p k (h.bound p k hk) fun chan ht hd => ?_
    rw [ht] at hd
    rw [(h.due p chan hd).1] at hk
    cases hk
  · -- whoever is about to sleep has not just slept
    have hold : (G (.proc p)).due = some (.sleep chan) := by
      by_cases hpt : .proc p = t
      · subst hpt
        rw [update_self] at hd
        exact htr.due_sleep hd
      · rw [update_of_ne hpt] at hd
        exact hd
    rw [htr.extra_update]
    refine ⟨(h.due p chan hold).1, fun k hk => ?_⟩
    have hwas := (h.due p chan hold).2 k hk
    unfold AboutToSleep at hwas ⊢
    rw [htr.env]
    rcases htr.naps p with hn | ⟨ht, _, hnone, _⟩
    · rw [hn]
      exact hwas
    · subst ht
      rw [update_self, hnone] at hd
      cases hd
  · have hwas := h.window hg p k (habout p k hk)
    by_contra hkilled
    rw [Bool.not_eq_false] at hkilled
    rcases htr.killed hkilled with hold | ⟨pid, rfl, hpid, _⟩
    · rw [hwas] at hold
      cases hold
    · exact hcond hg hpid k (habout p k hk)
  · by_contra hno
    rw [not_or, Bool.not_eq_false] at hno
    obtain ⟨hkilled, hno⟩ := hno
    rcases htr.killed hkilled with hold | ⟨pid, _, _, htab, hcur, hlock, hdue⟩
    · rcases htr.asleep hp hc hsl with hwas | ⟨rfl, chan, hchan, hdue⟩
      · rcases h.slept hg p k hwas with hf | ⟨r, hact, hr⟩
        · rw [hf] at hold
          cases hold
        · -- the thread that has marked the process still has to rouse it
          have hdue : (update G t g' r).due = some (.rouse p) := by
            by_cases hrt : r = t
            · subst hrt
              rw [update_self]
              rcases htr.due_rouse hr with hd | hgone
              · exact hd
              · exact absurd hsl (hgone _)
            · rw [update_of_ne hrt]
              exact hr
          rcases htr.holds hp hc hact with hact' | ⟨rfl, _, hnone⟩
          · exact hno ⟨r, hact', hdue⟩
          · rw [hnone rfl] at hr
            cases hr
      · cases hchan
        have := h.window hg p k ((h.due p _ hdue).2 k rfl)
        rw [this] at hold
        cases hold
    · refine hno ⟨t, ?_, by rw [update_self]; exact hdue⟩
      obtain ⟨d, hd, hl⟩ := hp.active hc htab
      exact ⟨d, by rw [hcur]; exact hd, by rw [hlock]; exact hl⟩

end

end Xv6.Kern
