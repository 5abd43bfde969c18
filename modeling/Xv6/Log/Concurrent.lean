import Xv6.Param
import Xv6.Framework.LTS

/-! # The log under concurrent operations (`log.c`)

    Any number of processes run `begin_op`, `log_write` and `end_op`. Every
    critical section of `log.lock` is one step. What runs outside the lock is
    split at the places where others can get in between: the size test of
    `log_write` is a step of its own, before the locked append, and `commit`
    is a sequence of steps, one for each loop iteration and each header write.

    A process issues `log_write` only between its own `begin_op` and `end_op`;
    its position is its program counter. A panic stops the machine, and so
    does an append beyond the `LOGSIZE` entries of `log.lh.block`, which C
    leaves undefined.

    Part of the state is history that no step reads: which operation a
    process is in, what each operation has logged, and the block list of every
    commit. The statements are phrased with it.
-/

namespace Xv6.Log

open LTS Function

/-! ## State -/

/-- Where a process stands inside `commit` (or right after it, in `end_op`). -/
inductive CommitPc where
  /-- At the test `log.lh.n > 0`. -/
  | start
  | write_log (tail : Nat)
  /-- At the first `write_head`, the real commit. -/
  | write_head
  | install_trans (tail : Nat)
  /-- At the assignment `log.lh.n = 0`. -/
  | clear
  /-- At the second `write_head`. -/
  | erase
  /-- Returned from `commit`, about to clear `committing`. -/
  | done
  deriving DecidableEq

/-- Where a process stands. -/
inductive Pc where
  /-- Outside any operation. -/
  | idle
  /-- Asleep on `&log` inside `begin_op`. -/
  | asleep
  /-- Woken up, about to take `log.lock` again inside `begin_op`. -/
  | woken
  /-- Between `begin_op` and `end_op`. -/
  | op
  /-- Inside `log_write` for block `b`, past the tests and before the lock. -/
  | log_write (b : Nat)
  | commit (c : CommitPc)
  deriving DecidableEq

/-- The process is between its `begin_op` and its `end_op`. -/
def Pc.Inside : Pc → Prop
  | .op => True
  | .log_write _ => True
  | _ => False

/-- What stops the machine. -/
inductive Fault where
  | too_big_a_transaction
  | log_write_outside_of_trans
  | log_committing
  /-- `log.lh.block` indexed out of bounds. -/
  | overrun
  deriving DecidableEq

structure State (P : Type) where
  /-- `log.lh.block[0..n)`. -/
  lh : List Nat
  /-- How many FS sys calls are executing. -/
  outstanding : Nat
  /-- In commit(), please wait. -/
  committing : Bool
  pc : P → Pc
  fault : Option Fault
  /-- History: number of operations admitted so far. -/
  nextOp : Nat
  /-- History: the operation a process is in. -/
  opOf : P → Nat
  /-- History: the blocks a process's operation has passed to `log_write`. -/
  passed : P → List Nat
  /-- History: the number of the commit an operation belongs to. -/
  commitOf : Nat → Nat
  /-- History: every completed `log_write`, as operation and block. -/
  recorded : List (Nat × Nat)
  /-- History: the blocks logged since the last transaction was erased, one
      entry for each `log_write`. -/
  logged : List Nat
  /-- History: the block list of every commit, as its first `write_head`
      puts it on disk. -/
  committed : List (List Nat)

inductive Label (P : Type) where
  /-- One pass through the loop of `begin_op`. -/
  | begin_op (p : P)
  /-- The tests at the start of `log_write`. -/
  | log_write (p : P) (b : Nat)
  /-- The critical section of `log_write`. -/
  | append (p : P)
  /-- The first critical section of `end_op`. -/
  | end_op (p : P)
  /-- One step of `commit`, or the last critical section of `end_op`. -/
  | commit (p : P)
  /-- `kill` makes a sleeping process runnable. -/
  | kill (p : P)

variable {P : Type} [DecidableEq P] {s s' : State P}

/-! ## Steps -/

/-- `wakeup(&log)`. -/
def wakeup (pc : P → Pc) : P → Pc := fun q =>
  match pc q with
  | .asleep => .woken
  | c => c

def State.setPc (s : State P) (p : P) (c : Pc) : State P :=
  { s with pc := update s.pc p c }

/-- The two conditions on which `begin_op` sleeps. -/
def State.full (s : State P) : Bool :=
  s.committing || s.lh.length + (s.outstanding + 1) * MAXOPBLOCKS > LOGSIZE

/-- `begin_op` admits the process. -/
def State.enter (s : State P) (p : P) : State P :=
  { s with
    outstanding := s.outstanding + 1
    pc := update s.pc p .op
    nextOp := s.nextOp + 1
    opOf := update s.opOf p s.nextOp
    passed := update s.passed p []
    commitOf := update s.commitOf s.nextOp s.committed.length }

/-- `log_write` has passed its tests. -/
def State.test (s : State P) (p : P) (b : Nat) : State P :=
  { s with
    pc := update s.pc p (.log_write b)
    passed := update s.passed p (s.passed p ++ [b]) }

/-- The critical section of `log_write` leaves `lh` as the block list. -/
def State.log (s : State P) (p : P) (b : Nat) (lh : List Nat) : State P :=
  { s with
    lh := lh
    pc := update s.pc p .op
    recorded := s.recorded ++ [(s.opOf p, b)]
    logged := s.logged ++ [b] }

/-- One step of `commit`, for the process `p` standing at `c`. -/
def commit_step (s : State P) (p : P) : CommitPc → State P
  | .start => if s.lh.length > 0 then s.setPc p (.commit (.write_log 0))
      else s.setPc p (.commit .done)
  | .write_log tail => if tail < s.lh.length then s.setPc p (.commit (.write_log (tail + 1)))
      else s.setPc p (.commit .write_head)
  | .write_head =>
      { s.setPc p (.commit (.install_trans 0)) with committed := s.committed ++ [s.lh] }
  | .install_trans tail =>
      if tail < s.lh.length then s.setPc p (.commit (.install_trans (tail + 1)))
      else s.setPc p (.commit .clear)
  | .clear => { s.setPc p (.commit .erase) with lh := [], logged := [] }
  | .erase => s.setPc p (.commit .done)
  | .done =>
      { s with committing := false, pc := wakeup (update s.pc p .idle) }

/-- The log of `size` blocks as a transition function. -/
def next (size : Nat) (s : State P) (l : Label P) : Option (State P) :=
  if s.fault ≠ none then none
  else match l with
  | .begin_op p =>
    if s.pc p = .idle ∨ s.pc p = .woken then
      if s.full then some (s.setPc p .asleep) else some (s.enter p)
    else none
  | .log_write p b =>
    if s.pc p = .op then
      if s.lh.length ≥ LOGSIZE ∨ s.lh.length + 1 ≥ size then
        some { s with fault := some .too_big_a_transaction }
      else if s.outstanding < 1 then
        some { s with fault := some .log_write_outside_of_trans }
      else some (s.test p b)
    else none
  | .append p =>
    match s.pc p with
    | .log_write b =>
      if b ∈ s.lh then some (s.log p b s.lh)
      else if s.lh.length < LOGSIZE then some (s.log p b (s.lh ++ [b]))
      else some { s with fault := some .overrun }
    | _ => none
  | .end_op p =>
    if s.pc p = .op then
      let s := { s with outstanding := s.outstanding - 1 }
      if s.committing then some { s with fault := some .log_committing }
      else if s.outstanding = 0 then
        some { s.setPc p (.commit .start) with committing := true }
      else some { s with pc := wakeup (update s.pc p .idle) }
    else none
  | .commit p =>
    match s.pc p with
    | .commit c => some (commit_step s p c)
    | _ => none
  | .kill p => if s.pc p = .asleep then some (s.setPc p .woken) else none

/-- The log right after `initlog`: recovery has left it empty. -/
def initlog (P : Type) : State P where
  lh := []
  outstanding := 0
  committing := false
  pc := fun _ => .idle
  fault := none
  nextOp := 0
  opOf := fun _ => 0
  passed := fun _ => []
  commitOf := fun _ => 0
  recorded := []
  logged := []
  committed := []

/-- The log as a transition system. -/
def sys (P : Type) [DecidableEq P] (size : Nat) : System (State P) (Label P) where
  init := fun s => s = initlog P
  next := next size

/-! ## What a step can do -/

/-- All steps of the system, with their guards. -/
inductive Step (size : Nat) (s : State P) : Label P → State P → Prop where
  | sleep (p : P) : (s.pc p = .idle ∨ s.pc p = .woken) → s.full = true →
      Step size s (.begin_op p) (s.setPc p .asleep)
  | enter (p : P) : (s.pc p = .idle ∨ s.pc p = .woken) → s.full = false →
      Step size s (.begin_op p) (s.enter p)
  | too_big (p : P) (b : Nat) : s.pc p = .op →
      (s.lh.length ≥ LOGSIZE ∨ s.lh.length + 1 ≥ size) →
      Step size s (.log_write p b) { s with fault := some .too_big_a_transaction }
  | outside (p : P) (b : Nat) : s.pc p = .op → s.outstanding < 1 →
      Step size s (.log_write p b) { s with fault := some .log_write_outside_of_trans }
  | test (p : P) (b : Nat) : s.pc p = .op → s.lh.length < LOGSIZE → s.lh.length + 1 < size →
      1 ≤ s.outstanding → Step size s (.log_write p b) (s.test p b)
  | absorb (p : P) (b : Nat) : s.pc p = .log_write b → b ∈ s.lh →
      Step size s (.append p) (s.log p b s.lh)
  | append (p : P) (b : Nat) : s.pc p = .log_write b → b ∉ s.lh → s.lh.length < LOGSIZE →
      Step size s (.append p) (s.log p b (s.lh ++ [b]))
  | overrun (p : P) (b : Nat) : s.pc p = .log_write b → b ∉ s.lh → LOGSIZE ≤ s.lh.length →
      Step size s (.append p) { s with fault := some .overrun }
  | end_panic (p : P) : s.pc p = .op → s.committing = true →
      Step size s (.end_op p)
        { s with outstanding := s.outstanding - 1, fault := some .log_committing }
  | end_last (p : P) : s.pc p = .op → s.committing = false → s.outstanding - 1 = 0 →
      Step size s (.end_op p)
        { s with outstanding := s.outstanding - 1, committing := true,
                 pc := update s.pc p (.commit .start) }
  | end_more (p : P) : s.pc p = .op → s.committing = false → s.outstanding - 1 ≠ 0 →
      Step size s (.end_op p)
        { s with outstanding := s.outstanding - 1,
                 pc := wakeup (update s.pc p .idle) }
  | commit (p : P) (c : CommitPc) : s.pc p = .commit c →
      Step size s (.commit p) (commit_step s p c)
  | kill (p : P) : s.pc p = .asleep → Step size s (.kill p) (s.setPc p .woken)

theorem step_of_next {size : Nat} {l : Label P} (h : next size s l = some s') :
    s.fault = none ∧ Step size s l s' := by
  unfold next at h
  split at h
  · simp at h
  next hf =>
  refine ⟨by simpa using hf, ?_⟩
  cases l with
  | begin_op p =>
    simp only at h
    split at h
    · next hpc =>
      split at h <;> cases h
      · next hfull => exact .sleep p hpc hfull
      · next hfull => exact .enter p hpc (by simpa using hfull)
    · simp at h
  | log_write p b =>
    simp only at h
    split at h
    · next hpc =>
      split at h
      · next hbig => cases h; exact .too_big p b hpc hbig
      · next hbig =>
        split at h <;> cases h
        · next hout => exact .outside p b hpc hout
        · next hout => exact .test p b hpc (by omega) (by omega) (by omega)
    · simp at h
  | append p =>
    simp only at h
    split at h
    · next b hpc =>
      split at h
      · next hb => cases h; exact .absorb p b hpc hb
      · next hb =>
        split at h <;> cases h
        · next hlen => exact .append p b hpc hb hlen
        · next hlen => exact .overrun p b hpc hb (by omega)
    · simp at h
  | end_op p =>
    simp only at h
    split at h
    · next hpc =>
      split at h
      · next hc => cases h; exact .end_panic p hpc hc
      · next hc =>
        split at h <;> cases h
        · next h0 => exact .end_last p hpc (by simpa using hc) h0
        · next h0 => exact .end_more p hpc (by simpa using hc) h0
    · simp at h
  | commit p =>
    simp only at h
    split at h
    · next c hpc => cases h; exact .commit p c hpc
    · simp at h
  | kill p =>
    simp only at h
    split at h
    · next hpc => cases h; exact .kill p hpc
    · simp at h

theorem step_of_sys {size : Nat} {l : Label P} (h : (sys P size).next s l = some s') :
    s.fault = none ∧ Step size s l s' :=
  step_of_next h

/-! ### Steps of `commit` -/

/-- What no step of `commit` changes. -/
theorem commit_step_frame (s : State P) (p : P) (c : CommitPc) :
    (commit_step s p c).fault = s.fault ∧ (commit_step s p c).nextOp = s.nextOp := by
  cases c with
  | start => simp only [commit_step]; split <;> exact ⟨rfl, rfl⟩
  | write_log tail => simp only [commit_step]; split <;> exact ⟨rfl, rfl⟩
  | install_trans tail => simp only [commit_step]; split <;> exact ⟨rfl, rfl⟩
  | write_head => exact ⟨rfl, rfl⟩
  | clear => exact ⟨rfl, rfl⟩
  | erase => exact ⟨rfl, rfl⟩
  | done => exact ⟨rfl, rfl⟩

/-- The block list is kept or erased. -/
theorem commit_step_lh (s : State P) (p : P) (c : CommitPc) :
    (commit_step s p c).lh = s.lh ∨ (commit_step s p c).lh = [] := by
  cases c with
  | start => left; simp only [commit_step]; split <;> rfl
  | write_log tail => left; simp only [commit_step]; split <;> rfl
  | install_trans tail => left; simp only [commit_step]; split <;> rfl
  | write_head => left; rfl
  | clear => right; rfl
  | erase => left; rfl
  | done => left; rfl

/-- Only the committing process moves, and nobody enters `log_write`. -/
theorem commit_step_pc (s : State P) (p q : P) (c : CommitPc) {b : Nat}
    (h : (commit_step s p c).pc q = .log_write b) : s.pc q = .log_write b := by
  have hmove : ∀ d, update s.pc p (.commit d) q = .log_write b →
      s.pc q = .log_write b := by
    intro d hq
    by_cases hqp : q = p
    · simp [hqp] at hq
    · rwa [update_of_ne hqp] at hq
  cases c with
  | start => simp only [commit_step] at h; split at h <;> exact hmove _ h
  | write_log tail => simp only [commit_step] at h; split at h <;> exact hmove _ h
  | install_trans tail => simp only [commit_step] at h; split at h <;> exact hmove _ h
  | write_head => exact hmove _ h
  | clear => exact hmove _ h
  | erase => exact hmove _ h
  | done =>
    simp only [commit_step, wakeup] at h
    by_cases hqp : q = p
    · simp [hqp] at h
    · rw [update_of_ne hqp] at h
      split at h
      · simp at h
      · exact h

end Xv6.Log
