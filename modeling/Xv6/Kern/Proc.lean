import Xv6.Param
import Xv6.Framework.Machine

/-! # Processes, CPUs and the scheduler

    `proc.c` and the spin-locks it uses, as programs of kernel threads: one
    thread for each slot of the process table and one scheduler thread for
    each CPU. The atomic actions are single accesses of the process table and
    of `c->proc`, the lock operations and the context switch; the few
    assignments that one thread makes in a row to data nobody else can see
    meanwhile are one action.

    The model has parameters: `C` are the CPUs, `L` the spin-locks besides
    `ptable.lock`, `K` the channels besides those of `wait`, and `E` is the
    rest of the kernel's memory, which the users of `sleep` and `wakeup` work
    on.

    A loop that may go round for ever takes a bound, which is an argument of
    the call; a thread that exceeds it stops. Every finite run is a run for
    some bound.
-/

namespace Xv6.Kern

open Function

/-- An entry of `ptable.proc`. -/
abbrev Slot : Type := Fin NPROC

/-- `enum procstate`. -/
inductive ProcState where
  | UNUSED
  | EMBRYO
  | SLEEPING
  | RUNNABLE
  | RUNNING
  | ZOMBIE
deriving DecidableEq

/-- Kernel threads. -/
inductive Thread (C : Type) where
  | proc (p : Slot)
  | sched (c : C)
deriving DecidableEq

/-- Spin-locks. -/
inductive Lock (L : Type) where
  | ptable
  | other (l : L)
deriving DecidableEq

/-- What `sleep` waits for: the address of a `struct proc`, or another one. -/
inductive Chan (K : Type) where
  | proc (p : Slot)
  | other (k : K)
deriving DecidableEq

/-- What `p->context` leads to. -/
inductive Context where
  /-- The call of `swtch` in `sched`. -/
  | sched
  /-- The start of `forkret`, as `allocproc` arranges it. -/
  | forkret
deriving DecidableEq

/-- `struct proc`, as far as scheduling needs it. -/
structure Proc (K : Type) where
  state : ProcState
  pid : BitVec 32
  parent : Option Slot
  chan : Option (Chan K)
  killed : Bool
  context : Context
  /-- History: `kill` has been called for this process since it was made. -/
  hit : Bool
  /-- History: how often the slot has gone to sleep. -/
  naps : Nat

/-- The memory of the kernel. -/
structure Kernel (C L K E : Type) where
  /-- The CPU that holds a lock. -/
  lock : Lock L → Option C
  /-- Depth of `pushcli` nesting. -/
  ncli : C → Nat
  /-- The thread each CPU executes. -/
  cur : C → Thread C
  /-- `c->proc`. -/
  cproc : C → Option Slot
  proc : Slot → Proc K
  nextpid : BitVec 32
  /-- History: the pids of the processes that have executed `exit`. -/
  exits : List (BitVec 32)
  /-- History: whose pid `wait` has taken from the table, and for whom. -/
  waits : List (Slot × Proc K)
  /-- History: what `wait` has returned, and to whom. -/
  rets : List (Slot × Int)
  env : E

/-- What an action does, as far as conditions on runs refer to it. -/
inductive Act where
  /-- `allocproc` looks at a slot. -/
  | alloc
  /-- `allocproc` or `fork` gives a slot back. -/
  | unalloc (p : Slot)
  /-- `kill` looks at a slot. -/
  | kill (p : Slot) (pid : BitVec 32)
  /-- A call gives up. -/
  | fail
  | other
deriving DecidableEq

/-- The first process, made by `userinit`. -/
abbrev initproc : Slot := 0

variable {C L K E : Type}

/-- An action on the memory and the CPU it runs on. -/
abbrev KOp (C L K E α : Type) : Type := Op (C × Kernel C L K E) α

/-- Programs of kernel threads. -/
abbrev KProg (C L K E α : Type) : Type 1 := Prog (C × Kernel C L K E) Act α

/-- An action that no condition refers to. -/
def step {α : Type} (m : KOp C L K E α) : KProg C L K E α := .atomic .other m

/-- Change the memory. -/
def mutate (f : C → Kernel C L K E → Kernel C L K E) : KOp C L K E Unit :=
  Op.modify fun s => (s.1, f s.1 s.2)

section

variable [DecidableEq C] [DecidableEq L] [DecidableEq K]

namespace Kernel

/-- Change one slot. -/
def setProc (s : Kernel C L K E) (p : Slot) (f : Proc K → Proc K) : Kernel C L K E :=
  { s with proc := update s.proc p (f (s.proc p)) }

/-- CPU `c` takes the lock `l`. -/
def take (s : Kernel C L K E) (l : Lock L) (c : C) : Kernel C L K E :=
  { s with
    lock := update s.lock l (some c)
    ncli := update s.ncli c (s.ncli c + 1) }

/-- CPU `c` gives the lock `l` back. -/
def give (s : Kernel C L K E) (l : Lock L) (c : C) : Kernel C L K E :=
  { s with
    lock := update s.lock l none
    ncli := update s.ncli c (s.ncli c - 1) }

/-- CPU `c` goes on with thread `t`. -/
def goto (s : Kernel C L K E) (c : C) (t : Thread C) : Kernel C L K E :=
  { s with cur := update s.cur c t }

/-- `c->proc = p`. -/
def setCproc (s : Kernel C L K E) (c : C) (p : Option Slot) : Kernel C L K E :=
  { s with cproc := update s.cproc c p }

end Kernel

/-! ## `spinlock.c` -/

/-- Acquire the lock. -/
def acquire (l : Lock L) : KProg C L K E Unit := step do
  let s ← Op.get
  match s.2.lock l with
  | some c => if c = s.1 then Op.panic "acquire" else Op.block
  | none => mutate fun c s => s.take l c

/-- The action of `release`. -/
def releases (l : Lock L) : KOp C L K E Unit := do
  let s ← Op.get
  if s.2.lock l = some s.1 then
    mutate fun c s => s.give l c
  else
    Op.panic "release"

/-- Release the lock. -/
def release (l : Lock L) : KProg C L K E Unit := step (releases l)

/-! ## `proc.c`: scheduling -/

/-- Code that begins with `p = myproc()`; a null pointer traps. -/
def withProc {α : Type} (m : Slot → KOp C L K E α) : KOp C L K E α := do
  let s ← Op.get
  match s.2.cproc s.1 with
  | some p => m p
  | none => Op.panic "trap"

/-- `myproc()`. -/
def myproc : KProg C L K E Slot := step (withProc fun p => pure p)

/-- `myproc()->killed`. -/
def killed : KProg C L K E Bool := step (withProc fun p => do
  let s ← Op.get
  pure (s.2.proc p).killed)

/-- Enter scheduler. The last action is what follows `swtch`; it runs when a
    scheduler has switched back. -/
def sched : KProg C L K E Unit := do
  step (withProc fun p => do
    let s ← Op.get
    if s.2.lock .ptable ≠ some s.1 then
      Op.panic "sched ptable.lock"
    else if s.2.ncli s.1 ≠ 1 then
      Op.panic "sched locks"
    else if (s.2.proc p).state = .RUNNING then
      Op.panic "sched running"
    else
      -- swtch(&p->context, mycpu()->scheduler)
      mutate fun c s => (s.setProc p fun pr => { pr with context := .sched }).goto c (.sched c))
  step (pure ())

/-- Give up the CPU for one scheduling round. -/
def yield : KProg C L K E Unit := do
  acquire .ptable
  step (withProc fun p => mutate fun _ s => s.setProc p fun pr => { pr with state := .RUNNABLE })
  sched
  release .ptable

/-- The scan of `scheduler` through the process table. -/
def scheduler_scan : List Slot → KProg C L K E Unit
  | [] => pure ()
  | p :: ps => do
    let found ← step do
      let s ← Op.get
      if (s.2.proc p).state ≠ .RUNNABLE then
        pure false
      else
        -- c->proc = p; p->state = RUNNING;
        mutate fun c s => (s.setProc p fun pr => { pr with state := .RUNNING }).setCproc c (some p)
        pure true
    if found then
      -- swtch(&(c->scheduler), p->context)
      step (mutate fun c s => s.goto c (.proc p))
      step (mutate fun c s => s.setCproc c none)
      scheduler_scan ps
    else
      scheduler_scan ps

/-- One round of the per-CPU process scheduler. -/
def scheduler : KProg C L K E Unit := do
  acquire .ptable
  scheduler_scan (List.finRange NPROC)
  release .ptable

/-- A fork child's very first scheduling will swtch here. -/
def forkret : KProg C L K E Unit := release .ptable

/-- What happens when a scheduler switches to a thread that has exited, or has
    never run: `allocproc` has pointed it to `forkret`, or the process should
    not be running at all. -/
def entry : KProg C L K E Unit := do
  let new ← step (withProc fun p => do
    let s ← Op.get
    pure (decide ((s.2.proc p).context = .forkret)))
  if new then
    forkret
  else
    step (Op.panic "zombie exit")

/-! ## `proc.c`: sleep and wakeup -/

/-- `sleep` takes `ptable.lock` in place of the lock it was given. -/
def sleep_unlock (lk : Lock L) : KProg C L K E Unit :=
  if lk ≠ .ptable then do
    acquire .ptable
    release lk
  else
    pure ()

/-- `sleep` goes to sleep, and tidies up when it is awakened. -/
def sleep_switch (chan : Chan K) : KProg C L K E Unit := do
  step (withProc fun p => mutate fun _ s =>
    s.setProc p fun pr =>
      { pr with chan := some chan, state := .SLEEPING, naps := pr.naps + 1 })
  sched
  step (withProc fun p => mutate fun _ s => s.setProc p fun pr => { pr with chan := none })

/-- `sleep` takes its lock back. -/
def sleep_relock (lk : Lock L) : KProg C L K E Unit :=
  if lk ≠ .ptable then do
    release .ptable
    acquire lk
  else
    pure ()

/-- Atomically release lock and sleep on chan. Reacquires lock when awakened. -/
def sleep (chan : Chan K) (lk : Lock L) : KProg C L K E Unit := do
  step do
    let s ← Op.get
    if s.2.cproc s.1 = none then
      Op.panic "sleep"
    else
      pure ()
  sleep_unlock lk
  sleep_switch chan
  sleep_relock lk

/-- A process asleep on `chan` becomes runnable. -/
def Proc.wake (chan : Option (Chan K)) (pr : Proc K) : Proc K :=
  if pr.state = .SLEEPING ∧ pr.chan = chan then { pr with state := .RUNNABLE } else pr

/-- Wake up all processes sleeping on chan. The ptable lock must be held. -/
def wakeup1 (chan : Option (Chan K)) : List Slot → KProg C L K E Unit
  | [] => pure ()
  | p :: ps => do
    step (mutate fun _ s => s.setProc p (Proc.wake chan))
    wakeup1 chan ps

/-- Wake up all processes sleeping on chan. -/
def wakeup (chan : Chan K) : KProg C L K E Unit := do
  acquire .ptable
  wakeup1 (some chan) (List.finRange NPROC)
  release .ptable

/-! ## `proc.c`: kill -/

/-- Wake process from sleep if necessary. -/
def Proc.rouse (pr : Proc K) : Proc K :=
  if pr.state = .SLEEPING then { pr with state := .RUNNABLE } else pr

/-- The loop of `kill`. -/
def kill_scan (pid : BitVec 32) : List Slot → KProg C L K E Bool
  | [] => pure false
  | p :: ps => do
    let found ← .atomic (.kill p pid) do
      let s ← Op.get
      if (s.2.proc p).pid = pid then
        mutate fun _ s => s.setProc p fun pr => { pr with killed := true, hit := true }
        pure true
      else
        pure false
    if found then
      step (mutate fun _ s => s.setProc p Proc.rouse)
      pure true
    else
      kill_scan pid ps

/-- Kill the process with the given pid. -/
def kill (pid : BitVec 32) : KProg C L K E Int := do
  acquire .ptable
  let found ← kill_scan pid (List.finRange NPROC)
  release .ptable
  pure (if found then 0 else -1)

/-! ## `proc.c`: fork, exit and wait -/

/-- The search of `allocproc` for an UNUSED slot. -/
def allocproc_scan : List Slot → KProg C L K E (Option Slot)
  | [] => pure none
  | p :: ps => do
    let found ← .atomic .alloc do
      let s ← Op.get
      if (s.2.proc p).state = .UNUSED then
        mutate fun _ s => { s.setProc p fun pr =>
          { pr with state := .EMBRYO, pid := s.nextpid, hit := false } with
          nextpid := s.nextpid + 1 }
        pure true
      else
        pure false
    if found then
      pure (some p)
    else
      allocproc_scan ps

/-- Look in the process table for an UNUSED proc and prepare it; `kstack` says
    whether there is memory for the kernel stack. -/
def allocproc (kstack : Bool) : KProg C L K E (Option Slot) := do
  acquire .ptable
  match ← allocproc_scan (List.finRange NPROC) with
  | none =>
    release .ptable
    pure none
  | some p =>
    release .ptable
    if kstack then
      step (mutate fun _ s => s.setProc p fun pr => { pr with context := .forkret })
      pure (some p)
    else
      .atomic (.unalloc p) (mutate fun _ s => s.setProc p fun pr => { pr with state := .UNUSED })
      pure none

/-- Create a new process copying p as the parent; `mem` says whether there is
    memory for the copy. -/
def fork (kstack mem : Bool) : KProg C L K E (BitVec 32) := do
  match ← allocproc kstack with
  | none => pure (-1)
  | some np =>
    if mem then
      step (withProc fun p => mutate fun _ s => s.setProc np fun pr => { pr with parent := some p })
      let pid ← step do
        let s ← Op.get
        pure (s.2.proc np).pid
      acquire .ptable
      step (mutate fun _ s => s.setProc np fun pr => { pr with state := .RUNNABLE })
      release .ptable
      pure pid
    else
      .atomic (.unalloc np) (mutate fun _ s => s.setProc np fun pr => { pr with state := .UNUSED })
      pure (-1)

/-- Child `q` of `p` passes to init, which is woken if the child is a zombie. -/
def Kernel.reparent (s : Kernel C L K E) (p q : Slot) : Kernel C L K E :=
  if (s.proc q).parent = some p then
    let s' := s.setProc q fun pr => { pr with parent := some initproc }
    if (s.proc q).state = .ZOMBIE then
      { s' with proc := fun r => (s'.proc r).wake (some (.proc initproc)) }
    else
      s'
  else
    s

/-- Pass abandoned children to init. -/
def exit_reparent : List Slot → KProg C L K E Unit
  | [] => pure ()
  | q :: qs => do
    step (withProc fun p => mutate fun _ s => s.reparent p q)
    exit_reparent qs

/-- Exit the current process, after its files have been closed. -/
def exit : KProg C L K E Unit := do
  step (withProc fun p => if p = initproc then Op.panic "init exiting" else pure ())
  acquire .ptable
  let parent ← step (withProc fun p => do
    let s ← Op.get
    pure (s.2.proc p).parent)
  -- Parent might be sleeping in wait().
  wakeup1 (parent.map .proc) (List.finRange NPROC)
  exit_reparent (List.finRange NPROC)
  step (withProc fun p => mutate fun _ s =>
    { s.setProc p fun pr => { pr with state := .ZOMBIE } with
      exits := s.exits ++ [(s.proc p).pid] })
  sched
  entry

/-- What `wait` finds in a slot. -/
inductive Child where
  | none
  | alive
  | dead (pid : BitVec 32)

/-- The scan of `wait`: whether there are children, and the pid of a zombie. -/
def wait_scan : List Slot → (havekids : Bool) → KProg C L K E (Bool × Option (BitVec 32))
  | [], havekids => pure (havekids, none)
  | q :: qs, havekids => do
    let child ← step (withProc fun p => do
      let s ← Op.get
      if (s.2.proc q).parent ≠ some p then
        pure Child.none
      else if (s.2.proc q).state = .ZOMBIE then
        mutate fun _ s =>
          { s.setProc q fun pr =>
              { pr with pid := 0, parent := none, killed := false, state := .UNUSED } with
            waits := s.waits ++ [(p, s.proc q)] }
        pure (Child.dead (s.2.proc q).pid)
      else
        pure Child.alive)
    match child with
    | .none => wait_scan qs havekids
    | .alive => wait_scan qs true
    | .dead pid => pure (true, some pid)

/-- The loop of `wait`. -/
def wait_loop : (fuel : Nat) → KProg C L K E Int
  | 0 => step Op.block
  | fuel + 1 => do
    match ← wait_scan (List.finRange NPROC) false with
    | (_, some pid) =>
      release .ptable
      pure pid.toInt
    | (havekids, none) =>
      let quit ← killed
      if havekids = false ∨ quit = true then
        release .ptable
        pure (-1)
      else
        let p ← myproc
        sleep (.proc p) .ptable
        wait_loop fuel

/-- Wait for a child process to exit and return its pid. -/
def wait (fuel : Nat) : KProg C L K E Int := do
  acquire .ptable
  wait_loop fuel

/-! ## The machine -/

/-- The calls of `proc.c`. -/
inductive Syscall where
  | fork (kstack mem : Bool)
  | exit
  | wait (fuel : Nat)
  | kill (pid : BitVec 32)

/-- What a process asks the kernel for. The last three stand for the drivers
    and the file system, which use locks and channels of their own. -/
inductive Call (L K : Type) where
  | sys (x : Syscall)
  | sleep (k : K) (l : L)
  | wakeup (k : K)
  | signal (k : K) (l : L)

/-- What an interrupt does. -/
inductive Irq (K : Type) where
  | timer
  | wakeup (k : K)

/-- The program of a call of `proc.c`. -/
def syscall : Syscall → KProg C L K E Unit
  | .fork kstack mem => do
    let _ ← fork kstack mem
    pure ()
  | .exit => exit
  | .wait fuel => do
    let pid ← wait fuel
    step (withProc fun p => mutate fun _ s => { s with rets := s.rets ++ [(p, pid)] })
  | .kill pid => do
    let _ ← kill pid
    pure ()

/-- The program of a call. -/
def call : Call L K → KProg C L K E Unit
  | .sys x => syscall x
  | .sleep k l => do
    acquire (.other l)
    sleep (.other k) (.other l)
    release (.other l)
  | .wakeup k => wakeup (.other k)
  | .signal k l => do
    acquire (.other l)
    wakeup (.other k)
    release (.other l)

/-- Force process to give up CPU on clock tick. -/
def timer : KProg C L K E Unit := do
  let run ← step do
    let s ← Op.get
    match s.2.cproc s.1 with
    | some p => pure (decide ((s.2.proc p).state = .RUNNING))
    | none => pure false
  if run then
    yield
  else
    pure ()

/-- The handler of an interrupt. -/
def trap : Irq K → KProg C L K E Unit
  | .timer => timer
  | .wakeup k => wakeup (.other k)

/-- Interrupts are on while no spin-lock is held. -/
def interruptible (s : Kernel C L K E) (c : C) : Bool := decide (s.ncli c = 0)

/-- CPUs that run schedulers, processes that make calls, and interrupts. -/
def machine {X I : Type} (user : X → KProg C L K E Unit) (intr : I → KProg C L K E Unit) :
    Machine.Spec C (Kernel C L K E) (Thread C) Act (Option X) I where
  cur := Kernel.cur
  enabled := interruptible
  call
    | .proc _, some x => some (user x)
    | .sched _, none => some scheduler
    | _, _ => none
  handler _ := intr

/-! ## Boot -/

/-- An entry of the process table that has never been used. -/
def Proc.unused : Proc K := ⟨.UNUSED, 0, none, none, false, .sched, false, 0⟩

/-- The memory after `userinit`. -/
def Kernel.boot (e : E) : Kernel C L K E where
  lock _ := none
  ncli _ := 0
  cur := .sched
  cproc _ := none
  proc p := if p = initproc then ⟨.RUNNABLE, 1, none, none, false, .forkret, false, 0⟩ else .unused
  nextpid := 2
  exits := []
  waits := []
  rets := []
  env := e

/-- The CPUs are about to enter `scheduler`, the first process is runnable. -/
def boot (e : E) : Machine.Config C (Kernel C L K E) (Thread C) Act where
  mem := .boot e
  thread
    | .proc _ => do
      step (pure ())
      entry
    | .sched _ => pure ()
  fault := none

/-- The system of all CPUs, from a boot with the rest of the memory in `init`. -/
def system {X I : Type} (init : E → Prop) (user : X → KProg C L K E Unit)
    (intr : I → KProg C L K E Unit) :
    LTS.System (Machine.Config C (Kernel C L K E) (Thread C) Act)
      (Machine.Label C (Option X) I) :=
  Machine.system (fun σ => ∃ e, init e ∧ σ = boot e) (machine user intr)

end

end Xv6.Kern
