import Mathlib.Data.Set.Card
import Xv6.Framework.LTS

/-! # Disabling interrupts (`spinlock.c`, `proc.c`)

    `pushcli` and `popcli` count, per CPU, how often interrupts have been
    disabled, and remember in `intena` whether they were enabled before the
    first time. The counter belongs to the CPU, but it is threads that push
    and pop: the kernel threads of processes, which `sched` takes off a CPU and
    `scheduler` puts on another one, and the scheduler thread of each CPU.

    A thread is a stack of activations: interrupts and system calls start a
    new one, `iret` ends it and restores the interrupt flag. An activation has
    a number of `pushcli` calls without a `popcli`, those that belong to a
    spin-lock it holds counted apart. `base` is a history variable: whether
    interrupts are enabled in this activation while it has nothing pushed.

    The steps are those of the code with one exception: what runs with
    interrupts disabled on data of its own CPU is not divided further. The two
    halves of `pushcli`, before and after `cli()`, are separate steps; in
    between the thread may be interrupted and continue on another CPU.
-/

namespace Xv6.Kern.Cli

open LTS Function

/-! ## The state -/

/-- An activation of a thread. -/
structure Frame where
  base : Bool
  /-- `FL_IF` of the flags that `iret` restores at its end. -/
  eflags : Bool
  /-- Calls of `pushcli` that have no `popcli` yet and hold no lock. -/
  clis : Nat
  /-- Spin-locks held. -/
  locks : Nat
  /-- `eflags & FL_IF` in `pushcli`, between `readeflags()` and `cli()`. -/
  read : Option Bool

/-- How often the activation has disabled interrupts. -/
def Frame.depth (f : Frame) : Nat := f.clis + f.locks

/-- A new activation. -/
def Frame.new (base eflags : Bool) : Frame := ⟨base, eflags, 0, 0, none⟩

/-- The part of `struct cpu` that matters here, with the interrupt flag of the
    CPU. -/
structure Cpu (P : Type) where
  /-- `FL_IF` -/
  iflag : Bool
  ncli : Nat
  intena : Bool
  /-- `none` stands for the scheduler thread. -/
  proc : Option P

/-- CPUs `C`, kernel threads `P` and spin-locks `L`. -/
structure Machine (C P L : Type) where
  cpu : C → Cpu P
  /-- The scheduler thread of each CPU. -/
  sched : C → List Frame
  /-- The kernel threads; one that has never run has no activation. -/
  proc : P → List Frame
  /-- `intena` of `sched()`. -/
  saved : P → Bool
  /-- `lk->cpu`, if the lock is locked. -/
  lock : L → Option C

/-- What the thread that runs on a CPU can do there. -/
inductive Act (L : Type) where
  /-- The first half of `pushcli`. -/
  | readeflags
  /-- The second half of `pushcli`. -/
  | cli
  /-- The rest of `acquire`, after `pushcli`. -/
  | xchg (l : L)
  | release (l : L)
  | popcli
  /-- An interrupt arrives. -/
  | intr
  /-- A system call, through a trap gate. -/
  | trap
  | iret
  /-- `sti()` in `scheduler`. -/
  | sti

inductive Label (C P L : Type) where
  | act (c : C) (a : Act L)
  /-- `swtch` in `sched`. -/
  | leave (c : C)
  /-- `swtch` in `scheduler`. -/
  | enter (c : C) (p : P)

variable {C P L : Type} [Fintype C] [DecidableEq C] [DecidableEq P] [DecidableEq L]

/-- `cli()` and the rest of `pushcli`; `eflags` has been read before. -/
def Cpu.pushcli (x : Cpu P) (eflags : Bool) : Cpu P :=
  { x with
    iflag := false
    intena := if x.ncli = 0 then eflags else x.intena
    ncli := x.ncli + 1 }

/-- `popcli`, if it does not panic. -/
def Cpu.popcli (x : Cpu P) : Option (Cpu P) :=
  if x.iflag = true then none
  else if x.ncli = 0 then none
  else some { x with ncli := x.ncli - 1, iflag := decide (x.ncli = 1) && x.intena }

namespace Machine

variable (s : Machine C P L)

/-- The activations of the thread that runs on `c`, the current one first. -/
def frames (c : C) : List Frame :=
  match (s.cpu c).proc with
  | none => s.sched c
  | some p => s.proc p

/-- Change CPU `c` and the activations of the thread that runs on it. -/
def put (c : C) (x : Cpu P) (fs : List Frame) : Machine C P L :=
  match (s.cpu c).proc with
  | none => { s with cpu := update s.cpu c x, sched := update s.sched c fs }
  | some p => { s with cpu := update s.cpu c x, proc := update s.proc p fs }

end Machine

/-- A new thread: it starts in `forkret`, with `ptable.lock` held, and returns
    from there to user mode. -/
def forkret (intena : Bool) : List Frame := [⟨intena, true, 0, 1, none⟩, .new true true]

/-- What the activation `f` above `fs` does on its CPU `x`: the new CPU and the
    new activations. Where the source panics, or where it does not do the step,
    there is none: an activation ends with nothing pushed, a `popcli` belongs
    to a `pushcli`, and the scheduler thread enables interrupts outside of
    interrupt handlers and without a lock. -/
def cpuStep (x : Cpu P) (f : Frame) (fs : List Frame) : Act L → Option (Cpu P × List Frame)
  | .readeflags => if f.read = none then some (x, { f with read := some x.iflag } :: fs) else none
  | .cli =>
    match f.read with
    | some eflags => some (x.pushcli eflags, { f with read := none, clis := f.clis + 1 } :: fs)
    | none => none
  | .xchg _ =>
    if f.read = none ∧ 0 < f.clis then
      some (x, { f with clis := f.clis - 1, locks := f.locks + 1 } :: fs)
    else none
  | .release _ =>
    if f.read = none then x.popcli.map fun x => (x, { f with locks := f.locks - 1 } :: fs) else none
  | .popcli =>
    if f.read = none ∧ 0 < f.clis then x.popcli.map fun x => (x, { f with clis := f.clis - 1 } :: fs)
    else none
  | .intr =>
    if x.iflag = true then some ({ x with iflag := false }, .new false true :: f :: fs) else none
  | .trap =>
    if f.read = none ∧ f.depth = 0 then some (x, .new x.iflag x.iflag :: f :: fs) else none
  | .iret =>
    match fs with
    | g :: fs =>
      if f.read = none ∧ f.depth = 0 then some ({ x with iflag := f.eflags }, g :: fs) else none
    | [] => none
  | .sti =>
    if f.read = none ∧ f.depth = 0 ∧ x.proc = none ∧ fs = [] then some ({ x with iflag := true }, [f])
    else none

/-- What it does to the locks. -/
def lockStep (lock : L → Option C) (c : C) : Act L → Option (L → Option C)
  | .xchg l => if lock l = none then some (update lock l (some c)) else none
  | .release l => if lock l = some c then some (update lock l none) else none
  | _ => some lock

variable (ptable : L)

/-- One step. `sched` checks that `ptable.lock` is held and `ncli` is 1; the
    scheduler thread switches outside of interrupt handlers, with the same
    lock as its only one. -/
def next (s : Machine C P L) : Label C P L → Option (Machine C P L)
  | .act c a =>
    match s.frames c with
    | [] => none
    | f :: fs =>
      match cpuStep (s.cpu c) f fs a, lockStep s.lock c a with
      | some (x, fs), some lock => some { s.put c x fs with lock := lock }
      | _, _ => none
  | .leave c =>
    match (s.cpu c).proc with
    | some p =>
      if s.lock ptable = some c ∧ (s.cpu c).ncli = 1 ∧ (s.cpu c).iflag = false then
        some { s with
          saved := update s.saved p (s.cpu c).intena
          cpu := update s.cpu c { s.cpu c with proc := none } }
      else none
    | none => none
  | .enter c p =>
    match (s.cpu c).proc, s.sched c with
    | none, [_] =>
      if s.lock ptable = some c ∧ (s.cpu c).ncli = 1 ∧ ∀ c', (s.cpu c').proc ≠ some p then
        match s.proc p with
        | [] =>
          some { s with
            proc := update s.proc p (forkret (s.cpu c).intena)
            cpu := update s.cpu c { s.cpu c with proc := some p } }
        | _ :: _ =>
          some { s with
            cpu := update s.cpu c { s.cpu c with proc := some p, intena := s.saved p } }
      else none
    | _, _ => none

/-- Every CPU starts in its scheduler thread, with interrupts disabled. -/
def Start (s : Machine C P L) : Prop :=
  (∀ c, (s.cpu c).iflag = false ∧ (s.cpu c).ncli = 0 ∧ (s.cpu c).proc = none ∧
    s.sched c = [.new false false]) ∧
  (∀ p, s.proc p = []) ∧ ∀ l, s.lock l = none

def system : System (Machine C P L) (Label C P L) where
  init := Start
  next := next ptable

/-! ## The invariant -/

/-- The activations of a kernel thread: each is returned to as it was left, and
    a flag that has been read still holds. -/
structure Stack (f : Frame) (fs : List Frame) : Prop where
  chain : List.IsChain (fun g h => g.eflags = h.base) (f :: fs)
  read : ∀ g ∈ f :: fs, ∀ x, g.read = some x → g.depth = 0 → x = g.base

/-- The activation `f`, above `fs`, runs on the CPU `x`, which holds the locks
    `held`; `sched` is the scheduler thread. -/
structure Runs (x : Cpu P) (sched : List Frame) (held : Set L) (f : Frame) (fs : List Frame) : Prop where
  ncli : x.ncli = f.depth
  below : ∀ g ∈ fs, g.depth = 0
  off : f.depth ≠ 0 → x.iflag = false
  held : held.encard = f.locks
  /-- In a kernel thread, the interrupt flag is as in the whole activation, or
      is going to be. -/
  flag : x.proc ≠ none → f.depth = 0 → x.iflag = f.base
  ena : x.proc ≠ none → f.depth ≠ 0 → x.intena = f.base
  stack : x.proc ≠ none → Stack f fs
  /-- Meanwhile the scheduler thread waits in `swtch`. -/
  waits : x.proc ≠ none → ∃ g, sched = [g] ∧ g.clis = 0 ∧ g.locks = 1

/-- The activation `f`, above `fs`, waits in `sched` for a CPU. -/
structure Away (saved : Bool) (f : Frame) (fs : List Frame) : Prop where
  clis : f.clis = 0
  locks : f.locks = 1
  below : ∀ g ∈ fs, g.depth = 0
  saved : saved = f.base
  stack : Stack f fs

/-- The locks that `c` holds. -/
def heldBy (lock : L → Option C) (c : C) : Set L := {l | lock l = some c}

structure Inv (s : Machine C P L) : Prop where
  cpu : ∀ c, ∃ f fs, s.frames c = f :: fs ∧ Runs (s.cpu c) (s.sched c) (heldBy s.lock c) f fs
  away : ∀ p, (∀ c, (s.cpu c).proc ≠ some p) → ∀ f fs, s.proc p = f :: fs → Away (s.saved p) f fs
  inj : ∀ c c' p, (s.cpu c).proc = some p → (s.cpu c').proc = some p → c = c'

variable {s s' : Machine C P L} {c : C} {x x' : Cpu P} {f f' : Frame}
  {fs fs' sched sched' : List Frame} {held held' : Set L} {lock lock' : L → Option C} {a : Act L}
  {fs₁ : List Frame}

/-! ## Steps of one CPU -/

section

omit [Fintype C] [DecidableEq C] [DecidableEq P] [DecidableEq L]

theorem Cpu.popcli_eq_some : x.popcli = some x' ↔ x.iflag = false ∧ x.ncli ≠ 0 ∧
    x' = { x with ncli := x.ncli - 1, iflag := decide (x.ncli = 1) && x.intena } := by
  unfold Cpu.popcli
  split_ifs with hflag hncli
  · simp [hflag]
  · simp [hncli]
  · simp [hflag, hncli, eq_comm]

/-- The current activation may change as long as `base` and `eflags` stay. -/
theorem Stack.change (h : Stack f fs) (hbase : f'.base = f.base) (heflags : f'.eflags = f.eflags)
    (hread : ∀ x, f'.read = some x → f'.depth = 0 → x = f'.base) : Stack f' fs := by
  refine ⟨?_, fun g hg => ?_⟩
  · cases fs with
    | nil => exact List.isChain_singleton _
    | cons g fs =>
      have hchain := List.isChain_cons_cons.mp h.chain
      exact List.isChain_cons_cons.mpr ⟨heflags ▸ hchain.1, hchain.2⟩
  · rcases List.mem_cons.mp hg with rfl | hg
    · exact hread
    · exact h.read g (List.mem_cons_of_mem _ hg)

/-- A `popcli` by the activation that has pushed. -/
theorem Runs.popcli (h : Runs x sched held f fs) (hpop : x.popcli = some x')
    (hdepth : f.depth = f'.depth + 1) (hbase : f'.base = f.base) (heflags : f'.eflags = f.eflags)
    (hread : f'.read = none) (hheld : held'.encard = f'.locks) : Runs x' sched held' f' fs := by
  obtain ⟨-, -, rfl⟩ := Cpu.popcli_eq_some.mp hpop
  have hncli := h.ncli
  refine ⟨?_, h.below, fun hd => ?_, hheld, fun hp hd => ?_, fun hp _ => ?_, fun hp => ?_, h.waits⟩
  · show x.ncli - 1 = f'.depth
    omega
  · show (decide (x.ncli = 1) && x.intena) = false
    rw [decide_eq_false (by omega), Bool.false_and]
  · show (decide (x.ncli = 1) && x.intena) = f'.base
    rw [decide_eq_true (by omega), Bool.true_and, h.ena hp (by omega), hbase]
  · rw [hbase]
    exact h.ena hp (by omega)
  · refine (h.stack hp).change hbase heflags fun x hx => ?_
    rw [hread] at hx
    cases hx

/-- The second half of `pushcli`. -/
theorem Runs.pushcli (h : Runs x sched held f fs) {eflags : Bool} (hread : f.read = some eflags) :
    Runs (x.pushcli eflags) sched held { f with read := none, clis := f.clis + 1 } fs := by
  have hncli := h.ncli
  have hdepth : ({ f with read := none, clis := f.clis + 1 } : Frame).depth = f.depth + 1 := by
    unfold Frame.depth
    dsimp only
    omega
  refine ⟨?_, h.below, fun _ => rfl, h.held, fun _ hd => ?_, fun hp _ => ?_, fun hp => ?_, h.waits⟩
  · rw [hdepth, ← hncli]
    rfl
  · rw [hdepth] at hd
    cases hd
  · show (if x.ncli = 0 then eflags else x.intena) = f.base
    split_ifs with h0
    · exact (h.stack hp).read f List.mem_cons_self eflags hread (by omega)
    · exact h.ena hp (by omega)
  · exact (h.stack hp).change rfl rfl fun x hx => by cases hx

/-- A new activation, for which interrupts are as `b`. -/
theorem Runs.push (h : Runs x sched held f fs) (hdepth : f.depth = 0) {b : Bool} {e : Bool}
    (he : x.proc ≠ none → e = f.base) :
    Runs { x with iflag := b } sched held (.new b e) (f :: fs) := by
  have hlocks : f.locks = 0 := by
    unfold Frame.depth at hdepth
    omega
  refine ⟨h.ncli.trans hdepth, fun g hg => ?_, fun hd => absurd rfl hd, ?_, fun _ _ => rfl,
    fun _ hd => absurd rfl hd, fun hp => ⟨?_, fun g hg => ?_⟩, h.waits⟩
  · rcases List.mem_cons.mp hg with rfl | hg
    · exact hdepth
    · exact h.below g hg
  · rw [h.held, hlocks]
    rfl
  · exact List.isChain_cons_cons.mpr ⟨he hp, (h.stack hp).chain⟩
  · rcases List.mem_cons.mp hg with rfl | hg
    · exact fun x hx => by cases hx
    · exact (h.stack hp).read g hg

/-- The end of an activation. -/
theorem Runs.pop {g : Frame} (h : Runs x sched held f (g :: fs)) (hdepth : f.depth = 0) :
    Runs { x with iflag := f.eflags } sched held g fs := by
  have hg : g.depth = 0 := h.below g List.mem_cons_self
  have hlocks : f.locks = 0 ∧ g.locks = 0 := by
    unfold Frame.depth at hdepth hg
    omega
  refine ⟨?_, fun g' hg' => h.below g' (List.mem_cons_of_mem _ hg'), fun hd => absurd hg hd, ?_,
    fun hp _ => ?_, fun _ hd => absurd hg hd, fun hp => ⟨?_, fun g' hg' => ?_⟩, h.waits⟩
  · rw [hg, ← hdepth]
    exact h.ncli
  · rw [h.held, hlocks.1, hlocks.2]
  · exact (List.isChain_cons_cons.mp (h.stack hp).chain).1
  · exact (List.isChain_cons_cons.mp (h.stack hp).chain).2
  · exact (h.stack hp).read g' (List.mem_cons_of_mem _ hg')

end

omit [Fintype C] [DecidableEq C] [DecidableEq P] in
theorem heldBy_xchg {l : L} (h : lock l = none) :
    (heldBy (update lock l (some c)) c).encard = (heldBy lock c).encard + 1 := by
  have hins : heldBy (update lock l (some c)) c = insert l (heldBy lock c) := by
    ext k
    by_cases hk : k = l
    · simp [heldBy, hk]
    · simp [heldBy, hk]
  rw [hins]
  exact Set.encard_insert_of_notMem (by simp [heldBy, h])

omit [Fintype C] [DecidableEq C] [DecidableEq P] in
theorem heldBy_release {l : L} (h : lock l = some c) :
    (heldBy (update lock l none) c).encard + 1 = (heldBy lock c).encard := by
  have hdel : heldBy (update lock l none) c = heldBy lock c \ {l} := by
    ext k
    by_cases hk : k = l
    · simp [heldBy, hk]
    · simp [heldBy, hk]
  rw [hdel]
  exact Set.encard_sdiff_singleton_add_one h

omit [Fintype C] [DecidableEq P] in
/-- Another CPU holds what it held. -/
theorem heldBy_of_ne (h : lockStep lock c a = some lock') {c' : C} (hc : c' ≠ c) :
    heldBy lock' c' = heldBy lock c' := by
  unfold lockStep at h
  split at h
  · next l =>
    split_ifs at h with hl
    cases h
    ext k
    by_cases hk : k = l
    · simp [heldBy, hk, hl, Ne.symm hc]
    · simp [heldBy, hk]
  · next l =>
    split_ifs at h with hl
    cases h
    ext k
    by_cases hk : k = l
    · simp [heldBy, hk, hl, Ne.symm hc]
    · simp [heldBy, hk]
  · cases h
    rfl

omit [Fintype C] [DecidableEq P] in
/-- A step of the thread that runs on `c`. -/
theorem Runs.step (h : Runs x sched (heldBy lock c) f fs) (hcpu : cpuStep x f fs a = some (x', fs₁))
    (hlock : lockStep lock c a = some lock') :
    x'.proc = x.proc ∧ ∃ f' fs', fs₁ = f' :: fs' ∧ Runs x' sched (heldBy lock' c) f' fs' := by
  cases a with
  | readeflags =>
    cases hlock
    simp only [cpuStep] at hcpu
    split_ifs at hcpu
    cases hcpu
    refine ⟨rfl, _, _, rfl, h.ncli, h.below, h.off, h.held, h.flag, h.ena, fun hp => ?_, h.waits⟩
    refine (h.stack hp).change rfl rfl fun y hy hd => ?_
    rw [← Option.some.inj hy]
    exact h.flag hp hd
  | cli =>
    cases hlock
    simp only [cpuStep] at hcpu
    cases hread : f.read with
    | none =>
      rw [hread] at hcpu
      cases hcpu
    | some eflags =>
      rw [hread] at hcpu
      cases hcpu
      exact ⟨rfl, _, _, rfl, h.pushcli hread⟩
  | xchg l =>
    simp only [cpuStep] at hcpu
    simp only [lockStep] at hlock
    split_ifs at hcpu hlock with hguard hfree
    cases hcpu
    cases hlock
    have hdepth : ({ f with clis := f.clis - 1, locks := f.locks + 1 } : Frame).depth = f.depth := by
      unfold Frame.depth
      dsimp only
      omega
    refine ⟨rfl, _, _, rfl, h.ncli.trans hdepth.symm, h.below, ?_, ?_, ?_, ?_, fun hp => ?_, h.waits⟩
    · rw [hdepth]
      exact h.off
    · rw [heldBy_xchg hfree, h.held]
      rfl
    · rw [hdepth]
      exact h.flag
    · rw [hdepth]
      exact h.ena
    · refine (h.stack hp).change rfl rfl fun y hy => ?_
      rw [hguard.1] at hy
      cases hy
  | release l =>
    simp only [cpuStep] at hcpu
    simp only [lockStep] at hlock
    split_ifs at hcpu hlock with hread hheld
    cases hlock
    obtain ⟨x₁, hpop, hx₁⟩ := Option.map_eq_some_iff.mp hcpu
    cases hx₁
    have hcount := heldBy_release hheld
    rw [h.held] at hcount
    have hlocks : 0 < f.locks := by
      by_contra h0
      have hz : f.locks = 0 := by omega
      rw [hz] at hcount
      simp at hcount
    refine ⟨?_, _, _, rfl, h.popcli hpop ?_ rfl rfl hread ?_⟩
    · obtain ⟨-, -, rfl⟩ := Cpu.popcli_eq_some.mp hpop
      rfl
    · unfold Frame.depth
      dsimp only
      omega
    · show _ = ((f.locks - 1 : Nat) : ℕ∞)
      obtain ⟨k, hk⟩ : ∃ k, f.locks = k + 1 := ⟨f.locks - 1, by omega⟩
      rw [hk] at hcount ⊢
      rw [Nat.add_sub_cancel]
      exact ENat.add_left_injective_of_ne_top ENat.one_ne_top hcount
  | popcli =>
    cases hlock
    simp only [cpuStep] at hcpu
    split_ifs at hcpu with hguard
    obtain ⟨x₁, hpop, hx₁⟩ := Option.map_eq_some_iff.mp hcpu
    cases hx₁
    refine ⟨?_, _, _, rfl, h.popcli hpop ?_ rfl rfl hguard.1 h.held⟩
    · obtain ⟨-, -, rfl⟩ := Cpu.popcli_eq_some.mp hpop
      rfl
    · unfold Frame.depth
      dsimp only
      omega
  | intr =>
    cases hlock
    simp only [cpuStep] at hcpu
    split_ifs at hcpu with hflag
    cases hcpu
    -- interrupts are enabled, so the activation has nothing pushed
    have hdepth : f.depth = 0 := by
      by_contra hd
      rw [h.off hd] at hflag
      cases hflag
    exact ⟨rfl, _, _, rfl, h.push hdepth fun hp => by rw [← h.flag hp hdepth, hflag]⟩
  | trap =>
    cases hlock
    simp only [cpuStep] at hcpu
    split_ifs at hcpu with hguard
    cases hcpu
    exact ⟨rfl, _, _, rfl, h.push hguard.2 fun hp => h.flag hp hguard.2⟩
  | iret =>
    cases hlock
    cases fs with
    | nil => cases hcpu
    | cons g fs =>
      simp only [cpuStep] at hcpu
      split_ifs at hcpu with hguard
      cases hcpu
      exact ⟨rfl, _, _, rfl, h.pop hguard.2⟩
  | sti =>
    cases hlock
    simp only [cpuStep] at hcpu
    split_ifs at hcpu with hguard
    cases hcpu
    obtain ⟨-, hdepth, hproc, rfl⟩ := hguard
    refine ⟨rfl, _, _, rfl, h.ncli, h.below, fun hd => absurd hdepth hd, h.held, ?_, ?_, ?_, ?_⟩
    all_goals exact fun hp => absurd hproc hp

/-! ## Steps of the machine -/

section

omit [Fintype C] [DecidableEq L]

@[simp] theorem put_cpu (s : Machine C P L) (c : C) (x : Cpu P) (fs : List Frame) :
    (s.put c x fs).cpu = update s.cpu c x := by
  unfold Machine.put
  split <;> rfl

@[simp] theorem put_saved (s : Machine C P L) (c : C) (x : Cpu P) (fs : List Frame) :
    (s.put c x fs).saved = s.saved := by
  unfold Machine.put
  split <;> rfl

theorem put_sched_ne (s : Machine C P L) (x : Cpu P) (fs : List Frame) {c c' : C} (h : c' ≠ c) :
    (s.put c x fs).sched c' = s.sched c' := by
  unfold Machine.put
  split
  · exact update_of_ne h _ _
  · rfl

theorem put_proc_ne (s : Machine C P L) (x : Cpu P) (fs : List Frame) {c : C} {p : P}
    (h : (s.cpu c).proc ≠ some p) : (s.put c x fs).proc p = s.proc p := by
  unfold Machine.put
  split
  · rfl
  · next q hq =>
    refine update_of_ne ?_ _ _
    rintro rfl
    exact h hq

theorem frames_put_self (s : Machine C P L) {x : Cpu P} (fs : List Frame) {c : C}
    (h : x.proc = (s.cpu c).proc) : (s.put c x fs).frames c = fs := by
  unfold Machine.put
  split
  · next hq => simp [Machine.frames, h, hq]
  · next q hq => simp [Machine.frames, h, hq]

theorem frames_put_ne (s : Machine C P L) (x : Cpu P) (fs : List Frame) {c c' : C} (h : c' ≠ c)
    (hinj : ∀ p, (s.cpu c').proc = some p → (s.cpu c).proc ≠ some p) :
    (s.put c x fs).frames c' = s.frames c' := by
  unfold Machine.frames
  rw [put_cpu, update_of_ne h]
  cases hq : (s.cpu c').proc with
  | none => exact put_sched_ne s x fs h
  | some p => exact put_proc_ne s x fs (hinj p hq)

end

variable {ptable} {l : Label C P L}

omit [Fintype C] in
theorem next_act [Fintype C] (hnext : next ptable s (.act c a) = some s') :
    ∃ f fs x fs₁ lock, s.frames c = f :: fs ∧ cpuStep (s.cpu c) f fs a = some (x, fs₁) ∧
      lockStep s.lock c a = some lock ∧ s' = { s.put c x fs₁ with lock := lock } := by
  simp only [next] at hnext
  split at hnext
  · cases hnext
  · next f fs hframes =>
    split at hnext
    · next x fs₁ lock hcpu hlock => exact ⟨f, fs, x, fs₁, lock, hframes, hcpu, hlock, (Option.some.inj hnext).symm⟩
    · cases hnext

theorem Inv.act (h : Inv s) (hnext : next ptable s (.act c a) = some s') : Inv s' := by
  obtain ⟨f, fs, x, fs₁, lock, hframes, hcpu, hlock, rfl⟩ := next_act hnext
  obtain ⟨g, gs, hframes', hruns⟩ := h.cpu c
  obtain ⟨rfl, rfl⟩ : f = g ∧ fs = gs := List.cons.inj (hframes.symm.trans hframes')
  obtain ⟨hproc, f', fs', rfl, hruns'⟩ := hruns.step hcpu hlock
  have hcur : ∀ c', ((s.put c x (f' :: fs')).cpu c').proc = (s.cpu c').proc := by
    intro c'
    rw [put_cpu]
    by_cases hc : c' = c
    · rw [hc, update_self, hproc]
    · rw [update_of_ne hc]
  refine ⟨fun c' => ?_, fun p hp g gs hg => ?_, fun c₁ c₂ p h₁ h₂ => ?_⟩
  · by_cases hc : c' = c
    · subst hc
      refine ⟨f', fs', frames_put_self s _ hproc, ?_⟩
      show Runs ((s.put c' x (f' :: fs')).cpu c') ((s.put c' x (f' :: fs')).sched c') _ f' fs'
      rw [put_cpu, update_self]
      -- the scheduler thread matters only when it is not the one that runs
      refine ⟨hruns'.ncli, hruns'.below, hruns'.off, hruns'.held, hruns'.flag, hruns'.ena, hruns'.stack,
        fun hp => ?_⟩
      have hsched : (s.put c' x (f' :: fs')).sched c' = s.sched c' := by
        unfold Machine.put
        split
        · next hq => exact absurd (hproc.trans hq) hp
        · rfl
      rw [hsched]
      exact hruns'.waits hp
    · obtain ⟨g, gs, hg, hr⟩ := h.cpu c'
      refine ⟨g, gs, ?_, ?_⟩
      · refine (frames_put_ne s x _ hc fun p hp hp' => hc ?_).trans hg
        exact h.inj c' c p hp hp'
      · show Runs ((s.put c x (f' :: fs')).cpu c') ((s.put c x (f' :: fs')).sched c') (heldBy lock c') g gs
        rw [put_cpu, update_of_ne hc, put_sched_ne s x _ hc, heldBy_of_ne hlock hc]
        exact hr
  · have hp' : ∀ c', (s.cpu c').proc ≠ some p := fun c' => hcur c' ▸ hp c'
    have hg' : s.proc p = g :: gs := (put_proc_ne s x _ (hp' c)).symm.trans hg
    show Away ((s.put c x (f' :: fs')).saved p) g gs
    rw [put_saved]
    exact h.away p hp' g gs hg'
  · exact h.inj c₁ c₂ p ((hcur c₁).symm.trans h₁) ((hcur c₂).symm.trans h₂)

omit [Fintype C] [DecidableEq C] [DecidableEq P] [DecidableEq L] in
/-- With `ptable.lock` held and pushed once, there is no other lock. -/
theorem Runs.only_ptable (h : Runs x sched (heldBy lock c) f fs) (hlock : lock ptable = some c)
    (hncli : x.ncli = 1) : f.clis = 0 ∧ f.locks = 1 := by
  have hpos : f.locks ≠ 0 := by
    intro h0
    have hheld := h.held
    rw [h0, Nat.cast_zero, Set.encard_eq_zero] at hheld
    have hmem : ptable ∈ heldBy lock c := hlock
    rw [hheld] at hmem
    exact hmem
  have hdepth := h.ncli
  unfold Frame.depth at hdepth
  omega

theorem Inv.leave (h : Inv s) (hnext : next ptable s (.leave c) = some s') : Inv s' := by
  simp only [next] at hnext
  cases hp : (s.cpu c).proc with
  | none =>
    rw [hp] at hnext
    cases hnext
  | some p =>
  rw [hp] at hnext
  dsimp only at hnext
  split_ifs at hnext with hguard
  cases hnext
  obtain ⟨hlock, hncli, hoff⟩ := hguard
  obtain ⟨f, fs, hframes, hruns⟩ := h.cpu c
  have hne : (s.cpu c).proc ≠ none := by rw [hp]; simp
  obtain ⟨g, hsched, hclis, hlocks⟩ := hruns.waits hne
  obtain ⟨hfclis, hflocks⟩ := hruns.only_ptable hlock hncli
  have hframes' : s.proc p = f :: fs := by
    rw [Machine.frames, hp] at hframes
    exact hframes
  refine ⟨fun c' => ?_, fun q hq k ks hk => ?_, fun c₁ c₂ q h₁ h₂ => ?_⟩
  · by_cases hc : c' = c
    · subst hc
      refine ⟨g, [], by simp [Machine.frames, hsched], ?_⟩
      dsimp only
      rw [update_self]
      refine ⟨?_, fun k hk => absurd hk List.not_mem_nil, fun _ => hoff, ?_, ?_, ?_, ?_, ?_⟩
      · show (s.cpu c').ncli = g.clis + g.locks
        omega
      · rw [hruns.held, hflocks, hlocks]
      all_goals exact fun hn => absurd rfl hn
    · obtain ⟨k, ks, hk, hr⟩ := h.cpu c'
      refine ⟨k, ks, ?_, ?_⟩
      · rw [← hk]
        simp [Machine.frames, update_of_ne hc]
      · dsimp only
        rw [update_of_ne hc]
        exact hr
  · dsimp only at hq hk ⊢
    by_cases hqp : q = p
    · subst hqp
      rw [hframes'] at hk
      cases hk
      rw [update_self]
      refine ⟨hfclis, hflocks, hruns.below, hruns.ena hne ?_, hruns.stack hne⟩
      unfold Frame.depth
      omega
    · rw [update_of_ne hqp]
      refine h.away q (fun c' hc' => ?_) k ks hk
      by_cases hc : c' = c
      · rw [hc, hp] at hc'
        exact hqp (Option.some.inj hc').symm
      · exact hq c' (by rw [update_of_ne hc]; exact hc')
  · dsimp only at h₁ h₂
    by_cases hc₁ : c₁ = c
    · rw [hc₁, update_self] at h₁
      cases h₁
    · by_cases hc₂ : c₂ = c
      · rw [hc₂, update_self] at h₂
        cases h₂
      · rw [update_of_ne hc₁] at h₁
        rw [update_of_ne hc₂] at h₂
        exact h.inj c₁ c₂ q h₁ h₂

omit [Fintype C] [DecidableEq P] [DecidableEq L] in
/-- A thread that runs nowhere is put on a CPU. -/
theorem Inv.place (h : Inv s) {p : P} (hidle : (s.cpu c).proc = none)
    (hp : ∀ c', (s.cpu c').proc ≠ some p) {proc : P → List Frame}
    (hproc : ∀ q, q ≠ p → proc q = s.proc q) (hx : x.proc = some p) (hframes : proc p = f :: fs)
    (hruns : Runs x (s.sched c) (heldBy s.lock c) f fs) :
    Inv { s with proc := proc, cpu := update s.cpu c x } := by
  refine ⟨fun c' => ?_, fun q hq k ks hk => ?_, fun c₁ c₂ q h₁ h₂ => ?_⟩
  · by_cases hc : c' = c
    · subst hc
      refine ⟨f, fs, by simp [Machine.frames, hx, hframes], ?_⟩
      dsimp only
      rw [update_self]
      exact hruns
    · obtain ⟨k, ks, hk, hr⟩ := h.cpu c'
      refine ⟨k, ks, ?_, ?_⟩
      · rw [← hk]
        simp only [Machine.frames, update_of_ne hc]
        cases hq : (s.cpu c').proc with
        | none => rfl
        | some q => exact hproc q fun heq => hp c' (heq ▸ hq)
      · dsimp only
        rw [update_of_ne hc]
        exact hr
  · dsimp only at hq hk ⊢
    have hqp : q ≠ p := by
      rintro rfl
      exact hq c (by rw [update_self, hx])
    rw [hproc q hqp] at hk
    refine h.away q (fun c' hc' => ?_) k ks hk
    by_cases hc : c' = c
    · rw [hc, hidle] at hc'
      cases hc'
    · exact hq c' (by rw [update_of_ne hc]; exact hc')
  · dsimp only at h₁ h₂
    by_cases hc₁ : c₁ = c
    · by_cases hc₂ : c₂ = c
      · rw [hc₁, hc₂]
      · rw [hc₁, update_self, hx] at h₁
        rw [update_of_ne hc₂] at h₂
        exact absurd h₂ (h₁ ▸ hp c₂)
    · by_cases hc₂ : c₂ = c
      · rw [hc₂, update_self, hx] at h₂
        rw [update_of_ne hc₁] at h₁
        exact absurd h₁ (h₂ ▸ hp c₁)
      · rw [update_of_ne hc₁] at h₁
        rw [update_of_ne hc₂] at h₂
        exact h.inj c₁ c₂ q h₁ h₂

theorem stack_forkret (b : Bool) : Stack ⟨b, true, 0, 1, none⟩ [.new true true] := by
  refine ⟨List.isChain_cons_cons.mpr ⟨rfl, List.isChain_singleton _⟩, fun g hg => ?_⟩
  rcases List.mem_cons.mp hg with rfl | hg
  · exact fun y hy => by cases hy
  · rw [List.mem_singleton.mp hg]
    exact fun y hy => by cases hy

theorem Inv.enter (h : Inv s) {p : P} (hnext : next ptable s (.enter c p) = some s') : Inv s' := by
  simp only [next] at hnext
  split at hnext
  case h_2 => cases hnext
  case h_1 g hidle hsched =>
  split_ifs at hnext with hguard
  obtain ⟨hlock, hncli, hp⟩ := hguard
  obtain ⟨f, fs, hframes, hruns⟩ := h.cpu c
  obtain ⟨rfl, rfl⟩ : f = g ∧ fs = [] := by
    rw [Machine.frames, hidle, hsched] at hframes
    cases hframes
    exact ⟨rfl, rfl⟩
  obtain ⟨hclis, hlocks⟩ := hruns.only_ptable hlock hncli
  have hoff : (s.cpu c).iflag = false := hruns.off (by unfold Frame.depth; omega)
  have hwaits : ∃ g, s.sched c = [g] ∧ g.clis = 0 ∧ g.locks = 1 := ⟨f, hsched, hclis, hlocks⟩
  have hheld : (heldBy s.lock c).encard = 1 := by
    rw [hruns.held, hlocks]
    rfl
  cases hproc : s.proc p with
  | nil =>
    rw [hproc] at hnext
    cases hnext
    refine h.place hidle hp (fun q hq => update_of_ne hq _ _) rfl (update_self _ _ _) ?_
    refine ⟨hncli, fun k hk => ?_, fun _ => hoff, hheld, fun _ hd => ?_, fun _ _ => rfl,
      fun _ => stack_forkret _, fun _ => hwaits⟩
    · rw [List.mem_singleton.mp hk]
      rfl
    · cases hd
  | cons k ks =>
    rw [hproc] at hnext
    cases hnext
    have haway := h.away p hp k ks hproc
    have hdepth : k.depth = 1 := by
      unfold Frame.depth
      rw [haway.clis, haway.locks]
    refine h.place hidle hp (fun _ _ => rfl) rfl hproc ?_
    refine ⟨hncli.trans hdepth.symm, haway.below, fun _ => hoff, ?_, fun _ hd => ?_, fun _ _ => haway.saved,
      fun _ => haway.stack, fun _ => hwaits⟩
    · rw [hheld, haway.locks]
      rfl
    · rw [hdepth] at hd
      cases hd

theorem Inv.step (h : Inv s) (hnext : next ptable s l = some s') : Inv s' := by
  cases l with
  | act c a => exact h.act hnext
  | leave c => exact h.leave hnext
  | enter c p => exact h.enter hnext

omit [Fintype C] [DecidableEq C] [DecidableEq P] [DecidableEq L] in
theorem Start.inv (h : Start s) : Inv s := by
  obtain ⟨hcpu, hproc, hlock⟩ := h
  refine ⟨fun c => ?_, fun p _ f fs hf => ?_, fun c c' p hc => ?_⟩
  · obtain ⟨hflag, hncli, hcur, hsched⟩ := hcpu c
    have hheld : heldBy s.lock c = ∅ := by
      ext l
      simp [heldBy, hlock l]
    refine ⟨.new false false, [], by rw [Machine.frames, hcur, hsched], hncli,
      fun g hg => absurd hg List.not_mem_nil, fun _ => hflag, by rw [hheld, Set.encard_empty]; rfl, ?_, ?_, ?_, ?_⟩
    all_goals exact fun hp => absurd hcur hp
  · rw [hproc p] at hf
    cases hf
  · rw [(hcpu c).2.2.1] at hc
    cases hc

theorem reachable_inv (h : Reachable (system ptable) s) : Inv s :=
  h.invariant (fun _ => Start.inv) fun _ _ _ hi hnext => hi.step hnext

/-! ## Activations over a run -/

omit [Fintype C] [DecidableEq C] [DecidableEq P] [DecidableEq L] in
/-- The current activation changes, or there is a new one above it, or it
    ends. -/
theorem cpuStep_frames (h : cpuStep x f fs a = some (x', fs₁)) :
    (∃ f', fs₁ = f' :: fs ∧ f'.base = f.base) ∨ (∃ g, fs₁ = g :: f :: fs) ∨ (a = .iret ∧ fs₁ = fs) := by
  cases a with
  | readeflags | xchg | sti =>
    simp only [cpuStep] at h
    split_ifs at h with hguard
    cases h
    first
      | exact .inl ⟨_, rfl, rfl⟩
      | exact .inl ⟨_, by rw [hguard.2.2.2], rfl⟩
  | cli =>
    simp only [cpuStep] at h
    split at h
    · cases h
      exact .inl ⟨_, rfl, rfl⟩
    · cases h
  | release | popcli =>
    simp only [cpuStep] at h
    split_ifs at h
    obtain ⟨x₁, -, hx₁⟩ := Option.map_eq_some_iff.mp h
    cases hx₁
    exact .inl ⟨_, rfl, rfl⟩
  | intr | trap =>
    simp only [cpuStep] at h
    split_ifs at h
    cases h
    exact .inr (.inl ⟨_, rfl⟩)
  | iret =>
    cases fs with
    | nil => cases h
    | cons g fs =>
      simp only [cpuStep] at h
      split_ifs at h
      cases h
      exact .inr (.inr ⟨rfl, rfl⟩)

/-- The step `l` does not end an activation of `p` with only `n` below it. -/
def Stays (p : P) (n : Nat) (s : Machine C P L) (l : Label C P L) : Prop :=
  ∀ c, l = .act c .iret → (s.cpu c).proc = some p → n < (s.proc p).length - 1

/-- The activation of `p` above `fs`, whose interrupts are as `b`, goes on. -/
def GoesOn (p : P) (b : Bool) (fs : List Frame) (s : Machine C P L) : Prop :=
  ∃ above f, s.proc p = above ++ f :: fs ∧ f.base = b

theorem GoesOn.step {p : P} {b : Bool} (h : GoesOn p b fs s) (hstays : Stays p fs.length s l)
    (hnext : next ptable s l = some s') : GoesOn p b fs s' := by
  obtain ⟨above, f, hproc, hbase⟩ := h
  have hsame : s'.proc p = s.proc p → GoesOn p b fs s' := fun heq => ⟨above, f, heq.trans hproc, hbase⟩
  cases l with
  | act c a =>
    obtain ⟨g, gs, x, fs₁, lock, hframes, hcpu, -, rfl⟩ := next_act hnext
    by_cases hp : (s.cpu c).proc = some p
    · have hput : (s.put c x fs₁).proc p = fs₁ := by
        unfold Machine.put
        rw [hp]
        exact update_self _ _ _
      rw [Machine.frames, hp] at hframes
      dsimp only at hframes
      show ∃ above f, (s.put c x fs₁).proc p = above ++ f :: fs ∧ f.base = b
      rw [hput]
      have hcons : above ++ f :: fs = g :: gs := hproc.symm.trans hframes
      rcases cpuStep_frames hcpu with ⟨g', rfl, hg'⟩ | ⟨g', rfl⟩ | ⟨rfl, rfl⟩
      · cases above with
        | nil =>
          obtain ⟨rfl, rfl⟩ := List.cons.inj hcons
          exact ⟨[], g', rfl, hg'.trans hbase⟩
        | cons k above =>
          obtain ⟨-, rfl⟩ := List.cons.inj hcons
          exact ⟨g' :: above, f, rfl, hbase⟩
      · exact ⟨g' :: above, f, by rw [← hcons, List.cons_append], hbase⟩
      · -- the activation above `fs` is not the one that ends
        have hlen := hstays c rfl hp
        rw [hproc] at hlen
        cases above with
        | nil => simp at hlen
        | cons k above =>
          obtain ⟨-, rfl⟩ := List.cons.inj hcons
          exact ⟨above, f, rfl, hbase⟩
    · exact hsame (put_proc_ne s x fs₁ hp)
  | leave c =>
    simp only [next] at hnext
    split at hnext
    · split_ifs at hnext
      cases hnext
      exact hsame rfl
    · cases hnext
  | enter c q =>
    simp only [next] at hnext
    split at hnext
    · split_ifs at hnext
      split at hnext
      · next hnil =>
        cases hnext
        refine hsame (update_of_ne ?_ _ _)
        rintro rfl
        rw [hnil] at hproc
        simp at hproc
      · cases hnext
        exact hsame rfl
    · cases hnext

/-- Where no activation ends, none does too early. -/
theorem run_stays {p : P} {n : Nat} {ls : List (Label C P L)} (h : Run (system ptable) s ls s')
    (hls : ∀ c, Label.act c .iret ∉ ls) : Run ((system ptable).restrict (Stays p n)) s ls s' := by
  induction h with
  | nil => exact .nil
  | snoc l _ hnext ih =>
    refine .snoc l (ih fun c hc => hls c (List.mem_append_left _ hc)) (restrict_next.mpr ⟨?_, hnext⟩)
    intro c hl
    exact absurd (List.mem_append_right _ (List.mem_singleton.mpr hl.symm)) (hls c)

/-- Interrupts are disabled on a CPU whose `ncli` is positive, and so on one that
    holds a spin-lock. When a kernel thread has popped in an activation as often
    as it has pushed, on whatever CPU, interrupts are enabled as before. -/
theorem interrupts_restored (ptable : L) (s : Machine C P L) (hs : Reachable (system ptable) s) :
    (∀ c, 0 < (s.cpu c).ncli ∨ (∃ l, s.lock l = some c) → (s.cpu c).iflag = false) ∧
    ∀ p c f fs, (s.cpu c).proc = some p → s.proc p = f :: fs →
      ∀ ls s', Run ((system ptable).restrict (Stays p fs.length)) s ls s' →
        ∀ c' f' fs', (s'.cpu c').proc = some p → s'.proc p = f' :: fs' → fs'.length = fs.length →
          f'.depth = f.depth → (s'.cpu c').iflag = (s.cpu c).iflag := by
  have hinv := reachable_inv hs
  -- the interrupt flag of a kernel thread is determined by its activation
  have hflag : ∀ {t : Machine C P L}, Inv t → ∀ {c p f fs}, (t.cpu c).proc = some p → t.proc p = f :: fs →
      (t.cpu c).iflag = if f.depth = 0 then f.base else false := by
    intro t ht c p f fs hp hf
    obtain ⟨g, gs, hframes, hruns⟩ := ht.cpu c
    rw [Machine.frames, hp] at hframes
    obtain ⟨rfl, rfl⟩ : f = g ∧ fs = gs := List.cons.inj (hf.symm.trans hframes)
    have hne : (t.cpu c).proc ≠ none := by rw [hp]; simp
    split_ifs with hd
    · exact hruns.flag hne hd
    · exact hruns.off hd
  refine ⟨fun c hc => ?_, fun p c f fs hp hf ls s' hrun c' f' fs' hp' hf' hlen hdepth => ?_⟩
  · obtain ⟨f, fs, -, hruns⟩ := hinv.cpu c
    refine hruns.off fun hd => ?_
    rcases hc with hncli | ⟨l, hl⟩
    · rw [hruns.ncli, hd] at hncli
      exact absurd hncli (lt_irrefl 0)
    · have hlocks : f.locks = 0 := by
        unfold Frame.depth at hd
        omega
      have hheld := hruns.held
      rw [hlocks, Nat.cast_zero, Set.encard_eq_zero] at hheld
      have hmem : l ∈ heldBy s.lock c := hl
      rw [hheld] at hmem
      exact hmem
  · have hgoes : GoesOn p f.base fs s' :=
      hrun.invariant ⟨[], f, hf, rfl⟩ fun t l t' ht hnext =>
        ht.step (restrict_next.mp hnext).1 (restrict_next.mp hnext).2
    obtain ⟨above, g, hg, hbase⟩ := hgoes
    obtain ⟨rfl, rfl⟩ : f' = g ∧ fs' = fs := by
      have hcons : f' :: fs' = above ++ g :: fs := hf'.symm.trans hg
      cases above with
      | nil => exact List.cons.inj hcons
      | cons k above =>
        have htail : fs' = above ++ g :: fs := (List.cons.inj hcons).2
        rw [htail, List.length_append, List.length_cons] at hlen
        omega
    have hinv' := reachable_inv (hs.run hrun.of_restrict)
    rw [hflag hinv hp hf, hflag hinv' hp' hf', hdepth, hbase]

/-- One CPU at boot, with one process and one lock. -/
def boot : Machine (Fin 1) (Fin 1) (Fin 1) where
  cpu := fun _ => ⟨false, 0, false, none⟩
  sched := fun _ => [.new false false]
  proc := fun _ => []
  saved := fun _ => false
  lock := fun _ => none

/-- The scheduler thread starts the process, which releases `ptable.lock`. -/
def started : List (Label (Fin 1) (Fin 1) (Fin 1)) :=
  [.act 0 .sti, .act 0 .readeflags, .act 0 .cli, .act 0 (.xchg 0), .enter 0 0, .act 0 (.release 0)]

/-- The process yields: it takes the lock, the scheduler thread runs it again,
    and it releases the lock. -/
def yields : List (Label (Fin 1) (Fin 1) (Fin 1)) :=
  [.act 0 .readeflags, .act 0 .cli, .act 0 (.xchg 0), .leave 0, .enter 0 0, .act 0 (.release 0)]

theorem interrupts_restored_yield : ∃ s s' : Machine (Fin 1) (Fin 1) (Fin 1),
    (system 0).exec (fun _ _ => true) boot started = some s ∧
    (system 0).exec (fun _ _ => true) s yields = some s' ∧
    (s.cpu 0).iflag = true ∧ (s'.cpu 0).iflag = (s.cpu 0).iflag := by
  have hboot : (system (0 : Fin 1)).init boot := ⟨fun _ => ⟨rfl, rfl, rfl, rfl⟩, fun _ => rfl, fun _ => rfl⟩
  refine ⟨_, _, rfl, rfl, by decide, ?_⟩
  refine (interrupts_restored (0 : Fin 1) _ ?_).2 0 0 _ _ rfl rfl yields _ ?_ 0 _ _ rfl rfl rfl rfl
  · have hrun : (system (0 : Fin 1)).exec (fun _ _ => true) boot started = some _ := rfl
    exact (reachable_of_exec hboot hrun).of_restrict
  · refine run_stays ?_ (by simp [yields])
    exact (run_of_exec (D := fun _ _ => true) rfl).of_restrict

end Xv6.Kern.Cli
