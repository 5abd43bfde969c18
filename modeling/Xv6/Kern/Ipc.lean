import Xv6.Kern.Proc
import Xv6.Kern.Pipe
import Xv6.Kern.Console

/-! # Waiting for pipes, the console and the clock

    The loops of the kernel in which a process that is killed gives up
    waiting: `piperead` and `pipewrite` of `pipe.c`, `consoleread` of
    `console.c` and `sys_sleep` of `sysproc.c`; and what ends the waiting:
    the other end of the pipe, `pipeclose`, the console and the clock
    interrupt, and `kill`.

    Reads of `killed`, the lock operations, the state changes of `sleep`,
    `wakeup` and `kill` and each access to the data of a pipe are actions of
    their own. What `consoleintr` and `consoleread` do with one character of
    `input`, which `cons.lock` protects, is one action. The inode lock that
    `consoleread` gives up, and the page of a pipe after both its ends are
    closed, are left out.
-/

namespace Xv6.Kern

/-- What is waited for; each has a spin-lock of its own. -/
inductive Obj (ι : Type) where
  | pipe (i : ι)
  | cons
  | ticks
deriving DecidableEq

/-- The channels. -/
inductive Key (ι : Type) where
  /-- `&p->nread` -/
  | nread (i : ι)
  /-- `&p->nwrite` -/
  | nwrite (i : ι)
  /-- `&input.r` -/
  | input
  /-- `&ticks` -/
  | ticks
deriving DecidableEq

/-- A call of `piperead` that has returned. -/
structure PipeRead (ι : Type) where
  pipe : ι
  n : Nat
  ret : Int
  /-- What it has stored at `addr`. -/
  bytes : List Byte
  /-- The pipe when the call had copied what it could, unless it gave up. -/
  seen : Option Pipe

/-- The data. -/
structure Ipc (ι : Type) where
  pipe : ι → Pipe
  input : Input
  ticks : BitVec 32
  /-- History: the channel a process has decided to sleep on, having found
      that it is not killed, and how often it had slept before. -/
  going : Slot → Option (Key ι × Nat)
  /-- History: the calls of `piperead` that have returned, and to whom. -/
  reads : List (Slot × PipeRead ι)

variable {C ι : Type}

/-- Programs that use the data. -/
abbrev IProg (C ι α : Type) : Type 1 := KProg C (Obj ι) (Key ι) (Ipc ι) α

/-- Process `q` has decided to sleep on `k` and does not sleep yet. -/
def AboutToSleep (s : Kernel C (Obj ι) (Key ι) (Ipc ι)) (q : Slot) (k : Key ι) : Prop :=
  s.env.going q = some (k, (s.proc q).naps)

/-- An action that reads the data. -/
def look {α : Type} (f : Ipc ι → α) : IProg C ι α := step do
  let s ← Op.get
  pure (f s.2.env)

/-- An action that changes the data. -/
def edit {α : Type} (f : Ipc ι → Ipc ι × α) : IProg C ι α := step do
  let s ← Op.get
  mutate fun _ s => { s with env := (f s.env).1 }
  pure (f s.2.env).2

/-- An action of process `p` that changes the data. -/
def edits {α : Type} (f : Slot → Ipc ι → Ipc ι × α) : IProg C ι α := step (withProc fun p => do
  let s ← Op.get
  mutate fun _ s => { s with env := (f p s.env).1 }
  pure (f p s.2.env).2)

/-- `myproc()->killed`, before the process sleeps on `k`. -/
def killed_wait (k : Key ι) : IProg C ι Bool := step (withProc fun p => do
  let s ← Op.get
  if (s.2.proc p).killed then
    pure true
  else
    mutate fun _ s => { s with env := { s.env with
      going := Function.update s.env.going p (some (k, (s.proc p).naps)) } }
    pure false)

section

variable [DecidableEq ι]

/-- Change one pipe. -/
def Ipc.setPipe (e : Ipc ι) (i : ι) (p : Pipe) : Ipc ι := { e with pipe := Function.update e.pipe i p }

variable [DecidableEq C]

/-! ## `pipe.c` -/

/-- `p->readopen == 0 || myproc()->killed` -/
def pipewrite_quit (i : ι) : IProg C ι Bool := do
  let readopen ← look fun e => (e.pipe i).readopen
  if readopen then
    killed_wait (.nwrite i)
  else
    pure true

/-- The waiting loop of `pipewrite`; `false` if the call gives up. -/
def pipewrite_wait (i : ι) : (fuel : Nat) → IProg C ι Bool
  | 0 => step Op.block
  | fuel + 1 => do
    let full ← look fun e => (e.pipe i).full
    if full then
      let quit ← pipewrite_quit i
      if quit then
        -- release(&p->lock); return -1;
        .atomic .fail (releases (.other (.pipe i)))
        pure false
      else
        wakeup (.other (.nread i))
        sleep (.other (.nwrite i)) (.other (.pipe i))
        pipewrite_wait i fuel
    else
      pure true

/-- The loop of `pipewrite` over the bytes. -/
def pipewrite_loop (i : ι) (fuel : Nat) : List Byte → IProg C ι Bool
  | [] => pure true
  | b :: bs => do
    let room ← pipewrite_wait i fuel
    if room then
      edit fun e => (e.setPipe i ((e.pipe i).store b), ())
      pipewrite_loop i fuel bs
    else
      pure false

/-- `pipewrite`, called with the bytes at `addr`. -/
def pipewrite (i : ι) (addr : List Byte) (fuel : Nat) : IProg C ι Int := do
  acquire (.other (.pipe i))
  let done ← pipewrite_loop i fuel addr
  if done then
    wakeup (.other (.nread i))
    release (.other (.pipe i))
    pure addr.length
  else
    pure (-1)

/-- The waiting loop of `piperead`; `false` if the call gives up. -/
def piperead_wait (i : ι) : (fuel : Nat) → IProg C ι Bool
  | 0 => step Op.block
  | fuel + 1 => do
    let wait ← look fun e => (e.pipe i).empty && (e.pipe i).writeopen
    if wait then
      let quit ← killed_wait (.nread i)
      if quit then
        release (.other (.pipe i))
        pure false
      else
        sleep (.other (.nread i)) (.other (.pipe i))
        piperead_wait i fuel
    else
      pure true

/-- The copying loop of `piperead`: at most `n` bytes, after `got`. -/
def piperead_copy (i : ι) : (n : Nat) → (got : List Byte) → IProg C ι (List Byte)
  | 0, got => pure got
  | n + 1, got => do
    let empty ← look fun e => (e.pipe i).empty
    if empty then
      pure got
    else
      let b ← edits fun p e => (e.setPipe i ((e.pipe i).advance p), (e.pipe i).front)
      piperead_copy i n (got ++ [b])

/-- `piperead`, called with room for `n` bytes: what it returns and stores at
    `addr`, and the pipe that it has left. -/
def piperead (i : ι) (n fuel : Nat) : IProg C ι (Int × List Byte × Option Pipe) := do
  acquire (.other (.pipe i))
  let ready ← piperead_wait i fuel
  if ready then
    let got ← piperead_copy i n []
    let seen ← look fun e => e.pipe i
    wakeup (.other (.nwrite i))
    release (.other (.pipe i))
    pure (got.length, got, some seen)
  else
    pure (-1, [], none)

/-- The end of a pipe that `pipeclose` closes. -/
def pipeclose_end (i : ι) (writable : Bool) : IProg C ι Unit :=
  if writable then do
    edit fun e => (e.setPipe i { e.pipe i with writeopen := false }, ())
    wakeup (.other (.nread i))
  else do
    edit fun e => (e.setPipe i { e.pipe i with readopen := false }, ())
    wakeup (.other (.nwrite i))

/-- `pipeclose`. -/
def pipeclose (i : ι) (writable : Bool) : IProg C ι Unit := do
  acquire (.other (.pipe i))
  pipeclose_end i writable
  let closed ← look fun e => !(e.pipe i).readopen && !(e.pipe i).writeopen
  if closed then
    release (.other (.pipe i))
    -- kfree((char*)p): nobody refers to the pipe any more
  else
    release (.other (.pipe i))

/-! ## `console.c` -/

/-- The inner loop of `consoleread`; `false` if the call gives up. -/
def consoleread_wait : (fuel : Nat) → IProg C ι Bool
  | 0 => step Op.block
  | fuel + 1 => do
    let wait ← look fun e => e.input.r == e.input.w
    if wait then
      let quit ← killed_wait .input
      if quit then
        release (.other .cons)
        pure false
      else
        sleep (.other .input) (.other .cons)
        consoleread_wait fuel
    else
      pure true

/-- The loop of `consoleread`: `n` characters are left of `target`. The result
    is what is left in the end, or `none` if the call gives up. -/
def consoleread_loop (target fuel : Nat) : (n : Nat) → IProg C ι (Option Nat)
  | 0 => pure (some 0)
  | n + 1 => do
    let ready ← consoleread_wait fuel
    if ready then
      let c ← edit fun e =>
        let (input, c) := e.input.fetch (decide (n + 1 < target))
        ({ e with input := input }, c)
      match c with
      | none => pure (some (n + 1))
      | some c =>
        if c = code '\n' then
          pure (some n)
        else
          consoleread_loop target fuel n
    else
      pure none

/-- `consoleread`. -/
def consoleread (target fuel : Nat) : IProg C ι Int := do
  acquire (.other .cons)
  match ← consoleread_loop target fuel target with
  | some n =>
    release (.other .cons)
    pure (target - n)
  | none => pure (-1)

/-- The loop of `consoleintr` over the characters it gets. -/
def consoleintr_loop : List Byte → IProg C ι Unit
  | [] => pure ()
  | c :: cs => do
    let wake ← edit fun e =>
      let (input, wake) := e.input.intr c
      ({ e with input := input }, wake)
    if wake then
      wakeup (.other .input)
      consoleintr_loop cs
    else
      consoleintr_loop cs

/-- `consoleintr`. -/
def consoleintr (cs : List Byte) : IProg C ι Unit := do
  acquire (.other .cons)
  consoleintr_loop cs
  release (.other .cons)

/-! ## `sysproc.c` and `trap.c` -/

/-- The loop of `sys_sleep`; `false` if the call gives up. -/
def sys_sleep_loop (n ticks0 : BitVec 32) : (fuel : Nat) → IProg C ι Bool
  | 0 => step Op.block
  | fuel + 1 => do
    let wait ← look fun e => (e.ticks - ticks0).ult n
    if wait then
      let quit ← killed_wait .ticks
      if quit then
        release (.other .ticks)
        pure false
      else
        sleep (.other .ticks) (.other .ticks)
        sys_sleep_loop n ticks0 fuel
    else
      pure true

/-- `sys_sleep`. -/
def sys_sleep (n : BitVec 32) (fuel : Nat) : IProg C ι Int := do
  acquire (.other .ticks)
  let ticks0 ← look fun e => e.ticks
  let done ← sys_sleep_loop n ticks0 fuel
  if done then
    release (.other .ticks)
    pure 0
  else
    pure (-1)

/-- The clock interrupt; CPU `cpu0` counts. -/
def clockintr (cpu0 : C) : IProg C ι Unit := do
  let first ← step do
    let s ← Op.get
    pure (decide (s.1 = cpu0))
  if first then
    acquire (.other .ticks)
    edit fun e => ({ e with ticks := e.ticks + 1 }, ())
    wakeup (.other .ticks)
    release (.other .ticks)
    timer
  else
    timer

/-! ## The system -/

/-- What processes ask the kernel for. -/
inductive IpcCall (ι : Type) where
  | sys (x : Syscall)
  | pipewrite (i : ι) (addr : List Byte) (fuel : Nat)
  | piperead (i : ι) (n fuel : Nat)
  | pipeclose (i : ι) (writable : Bool)
  | consoleread (n fuel : Nat)
  | sleep (n : BitVec 32) (fuel : Nat)

/-- Interrupts. -/
inductive IpcIntr where
  | clock
  | console (cs : List Byte)

/-- The program of a call. -/
def ipccall : IpcCall ι → IProg C ι Unit
  | .sys x => syscall x
  | .pipewrite i addr fuel => do
    let _ ← pipewrite i addr fuel
    pure ()
  | .piperead i n fuel => do
    let r ← piperead i n fuel
    edits fun p e => ({ e with reads := e.reads ++ [(p, ⟨i, n, r.1, r.2.1, r.2.2⟩)] }, ())
  | .pipeclose i writable => pipeclose i writable
  | .consoleread n fuel => do
    let _ ← consoleread n fuel
    pure ()
  | .sleep n fuel => do
    let _ ← sys_sleep n fuel
    pure ()

/-- The handler of an interrupt. -/
def ipcintr (cpu0 : C) : IpcIntr → IProg C ι Unit
  | .clock => clockintr cpu0
  | .console cs => consoleintr cs

/-- At the start all pipes are new, and nobody has decided to sleep. -/
def Ipc.Start (e : Ipc ι) : Prop :=
  (∀ i, ∃ data, e.pipe i = .alloc data) ∧ e.input.r = e.input.w ∧ (∀ p, e.going p = none) ∧
    e.reads = []

/-- Any number of CPUs, processes, pipes and interrupts. -/
def ipcSystem (cpu0 : C) : LTS.System
    (Machine.Config C (Kernel C (Obj ι) (Key ι) (Ipc ι)) (Thread C) Act)
    (Machine.Label C (Option (IpcCall ι)) IpcIntr) :=
  system Ipc.Start ipccall (ipcintr cpu0)

end

end Xv6.Kern
