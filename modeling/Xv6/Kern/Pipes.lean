import Xv6.Kern.IpcProg

/-! # Pipes are FIFO byte streams, and who sleeps on them

    What holds in every state of every run of any number of processes on any
    number of CPUs:

    * `pipe_fifo`: a pipe delivers what has been stored in it, in order,
      `piperead` returns to each process what has been delivered to it, and it
      returns nothing only at the end of the stream;
    * `pipe_no_lost_wakeup`: nobody sleeps at a pipe without reason, unless a
      writer has given up with bytes stored that it has not announced;
    * `killed_not_asleep`: a process that is killed does not stay asleep,
      unless the kill has come between the test of `killed` and the sleep.
-/

namespace Xv6.Kern

open Function

variable {C ι : Type}

section

variable [DecidableEq C] [DecidableEq ι] {strict gentle : Prop}
  {σ : Machine.Config C (Kernel C (Obj ι) (Key ι) (Ipc ι)) (Thread C) Act}
  {s : Kernel C (Obj ι) (Key ι) (Ipc ι)} {cpu0 c : C} {k : Bool → IProg C ι Unit} {i : ι}
  {bs : List Byte}

omit [DecidableEq C] in
theorem boot_ipc {e : Ipc ι} (he : e.Start) :
    IpcInv strict gentle (.boot e : Kernel C (Obj ι) (Key ι) (Ipc ι)) (bootGhost .rest) := by
  obtain ⟨hpipe, -, hgoing, hreads⟩ := he
  have hextra : ∀ t : Thread C,
      (bootGhost .rest t : Ghost (Obj ι) (Key ι) (Hold ι)).extra = .rest := by
    intro t
    cases t <;> rfl
  have hawake : ∀ p chan, ¬ (Kernel.boot e : Kernel C (Obj ι) (Key ι) (Ipc ι)).Asleep p chan := by
    intro p chan hsl
    have hst := hsl.1
    simp only [Kernel.boot] at hst
    split at hst <;> cases hst
  have habout : ∀ p k, ¬ AboutToSleep (.boot e : Kernel C (Obj ι) (Key ι) (Ipc ι)) p k := by
    intro p k hk
    have hk' : e.going p = some (k, _) := hk
    rw [hgoing] at hk'
    cases hk'
  refine ⟨fun i => ?_, fun r hr => ?_, fun p i => ?_, fun t l hl => ?_, fun t o v hv => ?_,
    fun k _ p hw => ?_,
    fun p k n hn => ?_, fun p k hk => ?_, fun p chan hdue => (by cases hdue),
    fun _ p k hk => absurd hk (habout p k),
    fun _ p k hsl => absurd hsl (hawake p _)⟩
  · obtain ⟨data, hdata⟩ := hpipe i
    show (e.pipe i).Ok
    rw [hdata]
    exact Pipe.ok_alloc data
  · rw [show (Kernel.boot e : Kernel C (Obj ι) (Key ι) (Ipc ι)).env.reads = [] from hreads] at hr
    cases hr
  · obtain ⟨data, hdata⟩ := hpipe i
    simp only [hextra]
    simp [Kernel.boot, Ipc.returnedTo, hreads, hdata, Pipe.takenBy, Pipe.alloc, Hold.rest]
  · rw [hextra, rest_need] at hl
    exact hl.elim
  · rw [hextra] at hv
    cases hv
  · rcases hw with hsl | hd
    · exact absurd hsl (hawake p _)
    · cases hd
  · rw [show (Kernel.boot e : Kernel C (Obj ι) (Key ι) (Ipc ι)).env.going p = none from
      hgoing p] at hn
    cases hn
  · rw [hextra] at hk
    cases hk

omit [DecidableEq C] in
/-- A thread that holds no lock knows no object and owes no wakeup. -/
theorem IpcInv.off {G : Thread C → Ghost (Obj ι) (Key ι) (Hold ι)} {c : C}
    (h : IpcInv strict gentle s G) (hp : Placed s G) (hlocks : (G (s.cur c)).locks = ∅) :
    (G (s.cur c)).extra = ⟨∅, none, (G (s.cur c)).extra.bound, (G (s.cur c)).extra.bytes⟩ := by
  have hno : ∀ l, l ∉ (G (s.cur c)).extra.need := by
    intro l hl
    obtain ⟨d, hd, hlock⟩ := h.held _ l hl
    rw [hp.lock, hd, hlocks] at hlock
    simp at hlock
  have howes : (G (s.cur c)).extra.owes = ∅ :=
    Set.eq_empty_of_forall_notMem fun k hk => hno _ ⟨k.obj, rfl, Or.inr ⟨k, hk, rfl⟩⟩
  have hview : (G (s.cur c)).extra.view = none := by
    by_contra hv
    obtain ⟨⟨o, v⟩, hv⟩ := Option.ne_none_iff_exists'.mp hv
    exact hno _ ⟨o, rfl, Or.inl ⟨v, hv⟩⟩
  rw [← howes, ← hview]

theorem safe_ipccall {p : Slot} (x : IpcCall ι) :
    IpcSafe C strict gentle (.proc p) (ipccall x) (.idle .rest) fun _ g =>
      g = .idle .rest := by
  have hfree : Free (C := C) (.proc p) (.idle .rest : Ghost (Obj ι) (Key ι) (Hold ι)) :=
    ⟨rfl, fun _ _ => rfl, nofun, rfl, rfl⟩
  cases x with
  | sys x => exact safe_syscall ipc_lawful x
  | pipewrite i addr fuel => exact .bind (safe_pipewrite hfree rfl addr fuel) fun _ _ h => h
  | piperead i n fuel =>
    refine .bind (safe_piperead hfree rfl n fuel) ?_
    rintro r _ ⟨hr, rfl⟩
    exact safe_returned hr
  | pipeclose i writable => exact safe_pipeclose hfree rfl writable
  | consoleread n fuel => exact .bind (safe_consoleread hfree rfl n fuel) fun _ _ h => h
  | sleep n fuel => exact .bind (safe_sys_sleep hfree rfl n fuel) fun _ _ h => h

/-- The invariant holds in every state that permitted steps reach, and a
    process that is not inside a call owns nothing. -/
theorem ipcInv_of_reachable {cpu0 : C}
    (h : LTS.Reachable ((ipcSystem cpu0).restrict (Meets fun s c a =>
      (strict → NobodyLeft s c a) ∧ (gentle → Gentle s a))) σ) :
    ∃ G, IpcInv strict gentle σ.mem G ∧ ∀ t, σ.label? t = none → G t = .idle .rest := by
  have hinv := ipc_lawful.sound (R := ipc strict gentle) (fun e he => boot_ipc he)
    (fun p x => safe_ipccall x) (fun {c G s} i hcoh hinv hfree _ => ?_) h
  · obtain ⟨_, G, ⟨_, hipc⟩, hsafe⟩ := hinv
    refine ⟨G, hipc, fun t ht => ?_⟩
    have hdone := hsafe t
    unfold Machine.Config.label? at ht
    cases hx : σ.thread t with
    | ret a => rwa [hx] at hdone
    | act l m k => rw [hx] at ht; cases ht
  · have hx := IpcInv.off (c := c) hinv hcoh.placed hfree.locks
    cases i with
    | clock => exact safe_clockintr cpu0 hfree hx
    | console cs => exact safe_consoleintr hfree hx cs

/-- New pipes, nothing typed, nobody about to sleep. -/
def Ipc.start : Ipc Unit :=
  ⟨fun _ => .alloc fun _ => 0, ⟨fun _ => 0, 0, 0, 0⟩, 0, fun _ => none, []⟩

theorem Ipc.start_ok : Ipc.start.Start := ⟨fun _ => ⟨_, rfl⟩, rfl, fun _ => rfl, rfl⟩

/-- The states of a computer with two CPUs and one pipe. -/
abbrev TwoCpus : Type 1 :=
  Machine.Config (Fin 2) (Kernel (Fin 2) (Obj Unit) (Key Unit) (Ipc Unit)) (Thread (Fin 2)) Act

/-- What happens on it. -/
abbrev TwoCpusRun : Type := List (Machine.Label (Fin 2) (Option (IpcCall Unit)) IpcIntr)

/-- `n` actions of a CPU. -/
def steps (c : Fin 2) (n : Nat) : TwoCpusRun := List.replicate n (.step c)

/-! ## The byte stream -/

/-- What has been delivered and what is in the buffer is what has been stored,
    and the counters never differ by more than `PIPESIZE`. A `piperead` that
    does not give up returns the number of bytes it has stored at `addr`; if it
    was asked for something and returns 0, it has found the write end closed
    and all bytes delivered. The bytes that a process has got from its calls
    are those delivered to it, except for a call that has not returned. -/
theorem pipe_fifo (cpu0 : C)
    (σ : Machine.Config C (Kernel C (Obj ι) (Key ι) (Ipc ι)) (Thread C) Act)
    (h : LTS.Reachable (ipcSystem cpu0) σ) (i : ι) :
    (σ.mem.env.pipe i).delivered ++ (σ.mem.env.pipe i).buffered = (σ.mem.env.pipe i).stored ∧
    ((σ.mem.env.pipe i).nwrite - (σ.mem.env.pipe i).nread).toNat ≤ PIPESIZE ∧
    (∀ r ∈ σ.mem.env.reads, r.2.ret = -1 ∧ r.2.bytes = [] ∨
      r.2.ret = r.2.bytes.length ∧ r.2.bytes.length ≤ r.2.n ∧ (0 < r.2.n → r.2.ret = 0 →
        ∃ v, r.2.seen = some v ∧ v.writeopen = false ∧ v.delivered = v.stored)) ∧
    ∀ p, σ.mem.env.returnedTo p i <+: (σ.mem.env.pipe i).takenBy p ∧
      (σ.label? (.proc p) = none →
        σ.mem.env.returnedTo p i = (σ.mem.env.pipe i).takenBy p) := by
  have hall : LTS.Reachable ((ipcSystem cpu0).restrict (Meets fun s c a =>
      (False → NobodyLeft s c a) ∧ (False → Gentle s a))) σ := by
    refine h.restrict fun σ l => ?_
    cases l with
    | step c => exact fun l _ => ⟨False.elim, False.elim⟩
    | _ => trivial
  obtain ⟨G, hinv, hidle⟩ := ipcInv_of_reachable hall
  have hok := hinv.ok i
  refine ⟨hok.delivered_append_buffered, ?_, hinv.good, fun p => ⟨?_, fun hp => ?_⟩⟩
  · have hsp := hok.space
    rw [hok.count]
    omega
  · rw [hinv.tally p i]
    exact List.prefix_append _ _
  · rw [hinv.tally p i]
    simp [hidle _ hp, Ghost.idle, Hold.rest]

/-- The first process stores two bytes and takes one out. -/
def streamRun : TwoCpusRun :=
  .call 0 none :: steps 0 6 ++ .call 0 (some (.pipewrite () [7, 8] 1)) :: steps 0 72 ++
  .call 0 (some (.piperead () 1 1)) :: steps 0 73

theorem pipe_fifo_two_bytes :
    ∃ σ : TwoCpus, LTS.Reachable (ipcSystem 0) σ ∧ (σ.mem.env.pipe ()).stored = [7, 8] ∧
      σ.mem.env.reads.map (fun r => (r.1, r.2.ret, r.2.bytes)) = [(initproc, 1, [7])] ∧
      (σ.mem.env.pipe ()).takenBy initproc = [7] ∧
      (σ.mem.env.pipe ()).delivered ++ (σ.mem.env.pipe ()).buffered =
        (σ.mem.env.pipe ()).stored := by
  have hrun : ((ipcSystem 0).exec (fun _ _ => true) (boot Ipc.start : TwoCpus) streamRun).any
      (fun σ => decide ((σ.mem.env.pipe ()).stored = [7, 8] ∧
        σ.mem.env.reads.map (fun r => (r.1, r.2.ret, r.2.bytes)) = [(initproc, 1, [7])] ∧
        σ.mem.env.returnedTo initproc () = [7] ∧ σ.label? (.proc initproc) = none)) = true := by
    decide +kernel
  obtain ⟨σ, hσ, hstored, hreads, hret, hidle⟩ := LTS.exists_run_of_exec hrun
  have hreach := (reachable_of_boot Ipc.start_ok hσ).of_restrict
  obtain ⟨hstream, _, _, htaken⟩ := pipe_fifo 0 σ hreach ()
  exact ⟨σ, hreach, hstored, hreads, by rw [← (htaken initproc).2 hidle, hret], hstream⟩

/-! ## Sleeping at a pipe -/

/-- If no writer gives up while somebody sleeps or is about to sleep on
    `&p->nread`, then whenever the lock of the pipe is free, whoever sleeps on
    `&p->nread` waits at an empty pipe that is open for writing, and whoever
    sleeps on `&p->nwrite` waits at a full one that is open for reading. -/
theorem pipe_no_lost_wakeup (cpu0 : C)
    (σ : Machine.Config C (Kernel C (Obj ι) (Key ι) (Ipc ι)) (Thread C) Act)
    (h : LTS.Reachable ((ipcSystem cpu0).restrict (Meets NobodyLeft)) σ) (i : ι)
    (hfree : σ.mem.lock (.other (.pipe i)) = none) (p : Slot) :
    (σ.mem.Asleep p (some (.other (.nread i))) →
      (σ.mem.env.pipe i).empty = true ∧ (σ.mem.env.pipe i).writeopen = true) ∧
    (σ.mem.Asleep p (some (.other (.nwrite i))) →
      (σ.mem.env.pipe i).full = true ∧ (σ.mem.env.pipe i).readopen = true) := by
  have hmeets : LTS.Reachable ((ipcSystem cpu0).restrict (Meets fun s c a =>
      (True → NobodyLeft s c a) ∧ (False → Gentle s a))) σ := by
    refine h.restrict_mono fun σ l hmeet => ?_
    cases l with
    | step c => exact fun l hl => ⟨fun _ => hmeet l hl, False.elim⟩
    | _ => trivial
  obtain ⟨G, hinv, _⟩ := ipcInv_of_reachable hmeets
  -- a wakeup is owed only by the holder of the lock
  have hreason : ∀ k : Key ι, k.obj = .pipe i → σ.mem.Asleep p (some (.other k)) →
      k.Wait (σ.mem.env.view k.obj) := by
    intro k hk hsl
    rcases hinv.lost k (Or.inl trivial) p (Or.inl hsl) with hwait | ⟨t, ht⟩
    · exact hwait
    · obtain ⟨d, _, hlock⟩ := hinv.held t (.other (.pipe i)) ⟨_, rfl, Or.inr ⟨k, ht, hk⟩⟩
      rw [hfree] at hlock
      cases hlock
  exact ⟨hreason (.nread i) rfl, hreason (.nwrite i) rfl⟩

/-- The first process forks a reader, process 1, and a writer, process 2. -/
def forkRun : TwoCpusRun :=
  .call 0 none :: steps 0 6 ++ .call 0 (some (.sys (.fork true true))) :: steps 0 10 ++
  .call 0 (some (.sys (.fork true true))) :: steps 0 11

/-- The reader sleeps at the empty pipe, and the writer is scheduled. -/
def readerRun : TwoCpusRun :=
  forkRun ++ .call 1 none :: steps 1 7 ++ .call 1 (some (.piperead () 1 2)) :: steps 1 14

/-- Neither `kill` marks a process nor does a writer give up. -/
def quiet (σ : TwoCpus) : Machine.Label (Fin 2) (Option (IpcCall Unit)) IpcIntr → Bool
  | .step c => (σ.label? (σ.mem.cur c)).all fun
    | .kill _ _ | .fail => false
    | _ => true
  | _ => true

theorem reachable_quiet_reader :
    ∃ σ : TwoCpus, LTS.Reachable ((ipcSystem 0).restrict fun σ l => quiet σ l = true) σ ∧
      σ.mem.lock (.other (.pipe ())) = none ∧ σ.mem.lock .ptable = none ∧
      σ.mem.Asleep 1 (some (.other (.nread ()))) := by
  have hrun : ((ipcSystem 0).exec quiet (boot Ipc.start : TwoCpus) readerRun).any
      (fun σ => decide (σ.mem.lock (.other (.pipe ())) = none ∧ σ.mem.lock .ptable = none ∧
        (σ.mem.proc 1).state = .SLEEPING ∧
        (σ.mem.proc 1).chan = some (.other (.nread ())))) = true := by
    decide +kernel
  obtain ⟨σ, hσ, hfree, hptable, hsleep⟩ := LTS.exists_run_of_exec hrun
  exact ⟨σ, reachable_of_boot Ipc.start_ok hσ, hfree, hptable, hsleep⟩

theorem quiet_mono {P : Kernel (Fin 2) (Obj Unit) (Key Unit) (Ipc Unit) → Fin 2 → Act → Prop}
    {σ : TwoCpus} (hP : ∀ s c l, (∀ p pid, l ≠ .kill p pid) → l ≠ .fail → P s c l)
    (h : LTS.Reachable ((ipcSystem 0).restrict fun σ l => quiet σ l = true) σ) :
    LTS.Reachable ((ipcSystem 0).restrict (Meets P)) σ := by
  refine h.restrict_mono fun σ l hquiet => ?_
  cases l with
  | step c =>
    intro l hl
    have hall : (σ.label? (σ.mem.cur c)).all _ = true := hquiet
    rw [hl] at hall
    refine hP _ _ _ (fun p pid hkill => ?_) (fun hfail => ?_)
    · subst hkill
      cases hall
    · subst hfail
      cases hall
  | _ => trivial

theorem pipe_no_lost_wakeup_reader :
    ∃ σ : TwoCpus, LTS.Reachable ((ipcSystem 0).restrict (Meets NobodyLeft)) σ ∧
      σ.mem.lock (.other (.pipe ())) = none ∧ σ.mem.Asleep 1 (some (.other (.nread ()))) ∧
      (σ.mem.env.pipe ()).empty = true ∧ (σ.mem.env.pipe ()).writeopen = true := by
  obtain ⟨σ, hquiet, hfree, _, hsleep⟩ := reachable_quiet_reader
  have hreach : LTS.Reachable ((ipcSystem 0).restrict (Meets NobodyLeft)) σ := by
    refine quiet_mono (fun s c l _ hfail => ?_) hquiet
    cases l with
    | fail => exact absurd rfl hfail
    | _ => trivial
  exact ⟨σ, hreach, hfree, hsleep, (pipe_no_lost_wakeup 0 σ hreach () hfree 1).1 hsleep⟩

/-! ### A writer that gives up -/

/-- One action, from a given state. -/
theorem reachable_act {β : Type} {l : Act} {m : KOp C (Obj ι) (Key ι) (Ipc ι) β}
    {k : β → IProg C ι Unit} {b : β} (h : LTS.Reachable (ipcSystem cpu0) σ)
    (hfault : σ.fault = none) (ht : σ.thread (σ.mem.cur c) = .act l m k)
    (hm : m (c, σ.mem) = .ok b (c, s)) :
    LTS.Reachable (ipcSystem cpu0)
      ⟨s, update σ.thread (σ.mem.cur c) (k b), none⟩ := by
  apply h.step (.step c)
  show Machine.Config.next (machine ipccall (ipcintr cpu0)) σ (.step c) = _
  have ht' : σ.thread ((machine ipccall (ipcintr cpu0)).cur σ.mem c) = .act l m k := ht
  simp only [Machine.Config.next, hfault, ht', hm]
  rfl

/-- A writer that finds room stores the next byte in two actions. -/
theorem reachable_store {b : Byte} (h : LTS.Reachable (ipcSystem cpu0) σ) (hfault : σ.fault = none)
    (ht : σ.thread (σ.mem.cur c) = pipewrite_loop i 1 (b :: bs) >>= k)
    (hroom : (σ.mem.env.pipe i).full = false) :
    LTS.Reachable (ipcSystem cpu0)
      ⟨{ σ.mem with env := σ.mem.env.setPipe i ((σ.mem.env.pipe i).store b) },
        update σ.thread (σ.mem.cur c) (pipewrite_loop i 1 bs >>= k), none⟩ := by
  have hlook := reachable_act h hfault ht (b := false) (s := σ.mem)
    (congrArg (Outcome.ok · (c, σ.mem)) hroom)
  have hedit := reachable_act hlook rfl (update_self _ _ _) rfl
  simp only [update_idem] at hedit
  exact hedit

/-- The pipe after the bytes have been stored. -/
def Pipe.fill (p : Pipe) (bs : List Byte) : Pipe := bs.foldl Pipe.store p

theorem reachable_fill (rest : List Byte) {n : Nat} (h : LTS.Reachable (ipcSystem cpu0) σ)
    (hfault : σ.fault = none) (ht : σ.thread (σ.mem.cur c) = pipewrite_loop i 1 (bs ++ rest) >>= k)
    (hread : (σ.mem.env.pipe i).nread = 0) (hwrite : (σ.mem.env.pipe i).nwrite = BitVec.ofNat 32 n)
    (hn : n + bs.length ≤ PIPESIZE) :
    LTS.Reachable (ipcSystem cpu0)
      ⟨{ σ.mem with env := σ.mem.env.setPipe i ((σ.mem.env.pipe i).fill bs) },
        update σ.thread (σ.mem.cur c) (pipewrite_loop i 1 rest >>= k), none⟩ := by
  induction bs generalizing σ n with
  | nil =>
    have hmem : σ.mem.env.setPipe i (σ.mem.env.pipe i) = σ.mem.env := by
      simp [Ipc.setPipe]
    have hthread : update σ.thread (σ.mem.cur c) (pipewrite_loop i 1 rest >>= k) =
        σ.thread := by
      rw [← show σ.thread (σ.mem.cur c) = pipewrite_loop i 1 rest >>= k from ht]
      exact update_eq_self _ _
    obtain ⟨mem, thread, fault⟩ := σ
    cases hfault
    show LTS.Reachable _ (Machine.Config.mk
      ({ mem with env := mem.env.setPipe i (mem.env.pipe i) } : Kernel C (Obj ι) (Key ι) (Ipc ι)) _ _)
    rw [hmem, hthread]
    exact h
  | cons b bs ih =>
    simp only [List.length_cons, PIPESIZE] at hn
    have hroom : (σ.mem.env.pipe i).full = false := by
      simp only [Pipe.full, hread, hwrite, PIPESIZE, beq_eq_false_iff_ne]
      bv_omega
    have hnext := ih (n := n + 1) (reachable_store h hfault ht hroom) rfl
      (update_self _ _ _) (by simpa [Ipc.setPipe, Pipe.store] using hread)
      (by simp [Ipc.setPipe, Pipe.store, hwrite]; bv_omega)
      (by simp only [PIPESIZE]; omega)
    simpa [Ipc.setPipe, Pipe.fill] using hnext

/-- What is left of `pipewrite` after its loop. -/
def pipewrite_rest (i : ι) (addr : List Byte) (done : Bool) : IProg C ι Unit := do
  let _ ← (if done then do
    wakeup (.other (.nread i))
    release (.other (.pipe i))
    pure (addr.length : Int)
  else
    pure (-1) : IProg C ι Int)
  pure ()

theorem ipccall_pipewrite (i : ι) (addr : List Byte) :
    (ipccall (.pipewrite i addr 1) : IProg C ι Unit) = acquire (.other (.pipe i)) >>= fun _ =>
      pipewrite_loop i 1 addr >>= pipewrite_rest i addr :=
  (Prog.bind_assoc _ _ _).trans (congrArg (Prog.bind _) (funext fun _ => Prog.bind_assoc _ _ _))

/-- A call of `pipewrite` has stored `bs` in a new pipe. -/
def Filled (σ : Machine.Config C (Kernel C (Obj ι) (Key ι) (Ipc ι)) (Thread C) Act) (c : C) (i : ι)
    (bs rest : List Byte) : Machine.Config C (Kernel C (Obj ι) (Key ι) (Ipc ι)) (Thread C) Act where
  mem := { σ.mem.take (.other (.pipe i)) c with
    env := σ.mem.env.setPipe i ((σ.mem.env.pipe i).fill bs) }
  thread := update σ.thread (σ.mem.cur c)
    (pipewrite_loop i 1 rest >>= pipewrite_rest i (bs ++ rest))
  fault := none

theorem reachable_filled {p : Slot} (bs rest : List Byte) (h : LTS.Reachable (ipcSystem cpu0) σ)
    (hfault : σ.fault = none) (hcur : σ.mem.cur c = .proc p) (hidle : σ.label? (.proc p) = none)
    (hlock : σ.mem.lock (.other (.pipe i)) = none) (hread : (σ.mem.env.pipe i).nread = 0)
    (hwrite : (σ.mem.env.pipe i).nwrite = 0) (hn : bs.length ≤ PIPESIZE) :
    LTS.Reachable (ipcSystem cpu0) (Filled σ c i bs rest) := by
  have hret : σ.thread (.proc p) = .ret () := by
    unfold Machine.Config.label? at hidle
    cases ht : σ.thread (.proc p) with
    | ret a => rfl
    | act l m k =>
      rw [ht] at hidle
      cases hidle
  have hcall : LTS.Reachable (ipcSystem cpu0)
      ⟨σ.mem, update σ.thread (σ.mem.cur c) (ipccall (.pipewrite i (bs ++ rest) 1)), none⟩ := by
    apply h.step (.call c (some (.pipewrite i (bs ++ rest) 1)))
    show Machine.Config.next (machine ipccall (ipcintr cpu0)) σ
      (.call c (some (.pipewrite i (bs ++ rest) 1))) = _
    have hcur' : (machine (ipccall (ι := ι)) (ipcintr cpu0)).cur σ.mem c = .proc p := hcur
    simp only [Machine.Config.next, hcur', hret, hfault, hcur]
    rfl
  rw [ipccall_pipewrite] at hcall
  have htake := reachable_act hcall rfl (update_self _ _ _) (b := ())
    (s := σ.mem.take (.other (.pipe i)) c) (by
      rw [Op.get_bind]
      simp only [hlock]
      rfl)
  have hfill := reachable_fill (k := pipewrite_rest i (bs ++ rest)) (n := 0) rest htake rfl
    (update_self _ _ _) hread hwrite (by simpa using hn)
  have hcur' : (σ.mem.take (.other (.pipe i)) c).cur c = σ.mem.cur c := rfl
  simp only [hcur', update_idem] at hfill
  exact hfill

/-- The state at the end of `readerRun`. -/
def readerState : TwoCpus :=
  ((ipcSystem 0).exec (fun _ _ => true) (boot Ipc.start) readerRun).getD (boot Ipc.start)

theorem reachable_readerState : LTS.Reachable (ipcSystem 0) readerState := by
  have hsome : ((ipcSystem 0).exec (fun _ _ => true) (boot Ipc.start : TwoCpus) readerRun).isSome =
      true := by
    decide +kernel
  obtain ⟨σ, hσ⟩ := Option.isSome_iff_exists.mp hsome
  have hreach := (reachable_of_boot Ipc.start_ok (LTS.run_of_exec hσ)).of_restrict
  unfold readerState
  rw [hσ]
  exact hreach

/-- While the writer has 512 bytes in the pipe and one to go, the first process
    kills it; it gives up without a wakeup. -/
def givingUpRun : TwoCpusRun := .call 0 (some (.sys (.kill 3))) :: steps 0 6 ++ steps 1 4

theorem reader_asleep_at_full_pipe :
    ∃ σ : TwoCpus, LTS.Reachable (ipcSystem 0) σ ∧ σ.mem.lock (.other (.pipe ())) = none ∧
      σ.mem.Asleep 1 (some (.other (.nread ()))) ∧ (σ.mem.env.pipe ()).full = true ∧
      (σ.mem.env.pipe ()).empty = false := by
  have hstart : readerState.fault = none ∧ readerState.mem.cur 1 = .proc 2 ∧
      readerState.label? (.proc 2) = none ∧ readerState.mem.lock (.other (.pipe ())) = none ∧
      (readerState.mem.env.pipe ()).nread = 0 ∧ (readerState.mem.env.pipe ()).nwrite = 0 := by
    decide +kernel
  obtain ⟨hfault, hcur, hidle, hlock, hread, hwrite⟩ := hstart
  have hfilled := reachable_filled (List.replicate 512 0) [0] reachable_readerState
    hfault hcur hidle hlock hread hwrite (by rw [List.length_replicate])
  have hrun : ((ipcSystem 0).exec (fun _ _ => true)
      (Filled readerState 1 () (List.replicate 512 0) [0]) givingUpRun).any
      (fun σ => decide (σ.mem.lock (.other (.pipe ())) = none ∧ (σ.mem.proc 1).state = .SLEEPING ∧
        (σ.mem.proc 1).chan = some (.other (.nread ())) ∧ (σ.mem.env.pipe ()).full = true ∧
        (σ.mem.env.pipe ()).empty = false)) = true := by
    decide +kernel
  obtain ⟨σ, hσ, hfree, hst, hchan, hfull, hempty⟩ := LTS.exists_run_of_exec hrun
  exact ⟨σ, hfilled.run hσ.of_restrict, hfree, ⟨hst, hchan⟩, hfull, hempty⟩

/-- If `kill` hits no process between its test of `killed` and its sleep, then
    whenever `ptable.lock` is free, no process that is killed sleeps in
    `piperead`, `pipewrite`, `consoleread` or `sys_sleep`. -/
theorem killed_not_asleep (cpu0 : C)
    (σ : Machine.Config C (Kernel C (Obj ι) (Key ι) (Ipc ι)) (Thread C) Act)
    (h : LTS.Reachable ((ipcSystem cpu0).restrict (Meets fun s _ a => Gentle s a)) σ)
    (hfree : σ.mem.lock .ptable = none) (p : Slot) (k : Key ι)
    (hsleep : σ.mem.Asleep p (some (.other k))) : (σ.mem.proc p).killed = false := by
  have hmeets : LTS.Reachable ((ipcSystem cpu0).restrict (Meets fun s c a =>
      (False → NobodyLeft s c a) ∧ (True → Gentle s a))) σ := by
    refine h.restrict_mono fun σ l hmeet => ?_
    cases l with
    | step c => exact fun l hl => ⟨False.elim, fun _ => hmeet l hl⟩
    | _ => trivial
  obtain ⟨G, hinv, _⟩ := ipcInv_of_reachable hmeets
  rcases hinv.slept trivial p k hsleep with hf | ⟨t, ⟨d, _, hlock⟩, _⟩
  · exact hf
  · rw [hfree] at hlock
    cases hlock

theorem killed_not_asleep_reader :
    ∃ σ : TwoCpus, LTS.Reachable ((ipcSystem 0).restrict (Meets fun s _ a => Gentle s a)) σ ∧
      σ.mem.lock .ptable = none ∧ σ.mem.Asleep 1 (some (.other (.nread ()))) ∧
      (σ.mem.proc 1).killed = false := by
  obtain ⟨σ, hquiet, _, hptable, hsleep⟩ := reachable_quiet_reader
  have hreach : LTS.Reachable ((ipcSystem 0).restrict (Meets fun s _ a => Gentle s a)) σ := by
    refine quiet_mono (fun s c l hkill _ => ?_) hquiet
    cases l with
    | kill p pid => exact absurd rfl (hkill p pid)
    | _ => trivial
  exact ⟨σ, hreach, hptable, hsleep, killed_not_asleep 0 σ hreach hptable 1 _ hsleep⟩

/-- `kill` comes after the reader has found that it is not killed, and before
    it sleeps. -/
def killRun : TwoCpusRun :=
  forkRun ++ .call 1 none :: steps 1 7 ++ .call 1 (some (.piperead () 1 2)) :: steps 1 3 ++
  .call 0 (some (.sys (.kill 2))) :: steps 0 5 ++ steps 1 11

theorem killed_reader_asleep :
    ∃ σ : TwoCpus, LTS.Reachable (ipcSystem 0) σ ∧ σ.mem.lock .ptable = none ∧
      σ.mem.lock (.other (.pipe ())) = none ∧ σ.mem.Asleep 1 (some (.other (.nread ()))) ∧
      (σ.mem.proc 1).killed = true := by
  have hrun : ((ipcSystem 0).exec (fun _ _ => true) (boot Ipc.start : TwoCpus) killRun).any
      (fun σ => decide (σ.mem.lock .ptable = none ∧ σ.mem.lock (.other (.pipe ())) = none ∧
        (σ.mem.proc 1).killed = true ∧ (σ.mem.proc 1).state = .SLEEPING ∧
        (σ.mem.proc 1).chan = some (.other (.nread ())))) = true := by
    decide +kernel
  obtain ⟨σ, hσ, hptable, hfree, hkilled, hsleep⟩ := LTS.exists_run_of_exec hrun
  exact ⟨σ, (reachable_of_boot Ipc.start_ok hσ).of_restrict, hptable, hfree, hsleep, hkilled⟩

end

end Xv6.Kern
