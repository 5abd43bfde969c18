import Xv6.Bio.Cache
import Xv6.Framework.Chain
import Xv6.Framework.Simulation

/-! # The IDE driver (`ide.c`)

    The driver keeps a queue of buffers, linked by `qnext`; the first of them
    is the one that the disk works on. `iderw` appends a buffer, starts the
    disk if it was idle, and waits; the interrupt handler completes the first
    request and starts the next one.

    The steps are the critical sections of `idelock`, the return of a call,
    and the work of the disk: it executes the command it has been given, and
    raises one interrupt. A process that is woken up early finds its request
    unfinished and goes to sleep again, so this is no step.

    `mideSystem` is the memory disk of `memide.c` with the same calls: each
    of them is one transfer, made at one point between its call and its return.
-/

namespace Xv6.Bio

open LTS Function

/-! ## The code -/

abbrev SECTOR_SIZE : Nat := 512

/-- The registers 0x1f2 to 0x1f6. -/
structure Regs where
  count : BitVec 8
  lba0 : BitVec 8
  lba1 : BitVec 8
  lba2 : BitVec 8
  drive : BitVec 8

/-- The sector that the registers name. -/
def Regs.lba (r : Regs) : Nat :=
  r.lba0.toNat + 2 ^ 8 * r.lba1.toNat + 2 ^ 16 * r.lba2.toNat + 2 ^ 24 * (r.drive &&& 0x0f).toNat

/-- The disk that they select. -/
def Regs.disk (r : Regs) : Nat := (r.drive >>> 4 &&& 1).toNat

/-- A command that the disk executes. -/
inductive Cmd where
  | read (dev sector : Nat)
  | write (dev sector : Nat) (data : Block)

/-- The disk controller. -/
structure Device where
  regs : Regs
  /-- The command that is being executed: the disk is busy. -/
  cmd : Option Cmd
  /-- What can be read from 0x1f0. -/
  buffer : Block
  /-- An interrupt has been raised and not been handled yet. -/
  irq : Bool

/-- Where a process is in `iderw`. -/
inductive IdePhase where
  | idle
  /-- Before `acquire(&idelock)`. -/
  | entered (b : BufId)
  /-- In the loop around `sleep`; the request has number `i`. -/
  | waiting (b : BufId) (i : Nat)
deriving DecidableEq

/-- The buffer that a call is about. -/
def IdePhase.buf : IdePhase → Option BufId
  | .idle => none
  | .entered b => some b
  | .waiting b _ => some b

/-- The driver, the buffers and disks, and the device. The three lists are
    histories: all requests that were queued, started and completed. -/
structure Ide where
  cache : Bcache
  idequeue : Option BufId
  qnext : BufId → Option BufId
  device : Device
  phase : Pid → IdePhase
  queued : List BufId
  started : List BufId
  completed : List BufId

/-- `(b->flags & (B_VALID|B_DIRTY)) == B_VALID` -/
def Buf.synced (x : Buf) : Bool := x.valid && !x.dirty

/-- What `idestart` writes to the registers. -/
def idestart_regs (x : Buf) : Regs :=
  let sector := x.blockno * (BSIZE / SECTOR_SIZE)
  { count := BitVec.ofNat 8 (BSIZE / SECTOR_SIZE)
    lba0 := BitVec.ofNat 8 sector
    lba1 := BitVec.ofNat 8 (sector / 2 ^ 8)
    lba2 := BitVec.ofNat 8 (sector / 2 ^ 16)
    drive := 0xe0 ||| (BitVec.ofNat 8 (x.dev % 2) <<< 4) ||| (BitVec.ofNat 8 (sector / 2 ^ 24) &&& 0x0f) }

/-- Start the request for `b`. A block is one sector, so one command moves it;
    `idewait` waits for a disk that is busy. -/
def idestart (b : BufId) : Op Ide Unit := do
  let s ← Op.get
  let x := s.cache.buf b
  if x.blockno ≥ FSSIZE then
    Op.panic "incorrect blockno"
  else if BSIZE / SECTOR_SIZE > 7 then
    Op.panic "idestart"
  else if s.device.cmd.isSome then
    Op.block
  else
    let regs := idestart_regs x
    let cmd := if x.dirty then Cmd.write regs.disk regs.lba x.data else Cmd.read regs.disk regs.lba
    Op.modify fun s =>
      { s with device := { s.device with regs := regs, cmd := some cmd }, started := s.started ++ [b] }

/-- What the interrupt handler does to the buffer: read data if needed, set
    B_VALID and clear B_DIRTY. -/
def finish (data : Block) (x : Buf) : Buf :=
  { x with data := if x.dirty then x.data else data, valid := true, dirty := false }

/-- Interrupt handler. -/
def ideintr : Op Ide Unit := do
  let s ← Op.get
  -- First queued buffer is the active request.
  match s.idequeue with
  | none => pure ()
  | some b =>
    Op.modify fun s =>
      { s with
        idequeue := s.qnext b
        cache := s.cache.setBuf b (finish s.device.buffer)
        completed := s.completed ++ [b] }
    -- Start disk on next buf in queue.
    match s.qnext b with
    | none => pure ()
    | some b' => idestart b'

/-- The critical section of `iderw` up to the loop around `sleep`. -/
def iderw_queue (p : Pid) (b : BufId) : Op Ide Unit := do
  let s ← Op.get
  -- Append b to idequeue.
  match Chain.append NBUF s.idequeue s.qnext b with
  | none => Op.block
  | some (idequeue, qnext) =>
    Op.modify fun s =>
      { s with
        idequeue := idequeue
        qnext := qnext
        phase := update s.phase p (.waiting b s.queued.length)
        queued := s.queued ++ [b] }
    -- Start disk if necessary.
    if idequeue = some b then
      idestart b
    else
      pure ()

/-! ## The two systems -/

inductive IdeLabel where
  /-- The kernel changes a buffer that no call is about. -/
  | set (b : BufId) (x : Buf)
  | call (p : Pid) (b : BufId)
  | queue (p : Pid)
  /-- The disk executes the request of `p`. -/
  | perform (p : Pid)
  | intr
  | ret (p : Pid)

/-- The checks at the start of `iderw`, for disk 1 and blocks of the file
    system. -/
def Buf.ready (x : Buf) (p : Pid) : Bool :=
  decide (x.lock = some p) && !x.synced && decide (x.dev = ROOTDEV) && decide (x.blockno < FSSIZE)

/-- The state after an operation that returns. -/
def Ide.after (f : Op Ide Unit) (s : Ide) : Option Ide :=
  match f s with
  | .ok _ s' => some s'
  | _ => none

/-- What the disk does. -/
def Cmd.perform (s : Ide) : Cmd → Ide
  | .read dev k => { s with device := { s.device with cmd := none, buffer := s.cache.disk dev k, irq := true } }
  | .write dev k data =>
    { s with
      cache := { s.cache with disk := fun d j => if d = dev ∧ j = k then data else s.cache.disk d j }
      device := { s.device with cmd := none, irq := true } }

namespace Ide

def next (s : Ide) : IdeLabel → Option Ide
  | .set b x =>
    if ∀ p, (s.phase p).buf ≠ some b then some { s with cache := s.cache.setBuf b fun _ => x } else none
  | .call p b =>
    if s.phase p = .idle ∧ (s.cache.buf b).ready p = true then
      some { s with phase := update s.phase p (.entered b) }
    else none
  | .queue p =>
    match s.phase p with
    | .entered b => s.after (iderw_queue p b)
    | _ => none
  | .perform p =>
    match s.idequeue, s.device.cmd with
    | some b, some cmd => if (s.cache.buf b).lock = some p then some (cmd.perform s) else none
    | _, _ => none
  | .intr =>
    if s.device.irq = true then
      { s with device := { s.device with irq := false } }.after ideintr
    else none
  | .ret p =>
    match s.phase p with
    | .waiting b _ =>
      if (s.cache.buf b).synced = true then some { s with phase := update s.phase p .idle } else none
    | _ => none

end Ide

/-- At boot: any buffers and disks, no request, and an idle disk. -/
def Ide.Start (s : Ide) : Prop :=
  s.idequeue = none ∧ s.device.cmd = none ∧ s.device.irq = false ∧ (∀ p, s.phase p = .idle) ∧
    s.queued = [] ∧ s.started = [] ∧ s.completed = []

def ideSystem : System Ide IdeLabel where
  init := Ide.Start
  next := Ide.next

/-- Where a process is in a call, for the memory disk. -/
inductive MemPhase where
  | idle
  | called (b : BufId)
  | done (b : BufId)
deriving DecidableEq

def MemPhase.buf : MemPhase → Option BufId
  | .idle => none
  | .called b => some b
  | .done b => some b

structure Mide where
  cache : Bcache
  phase : Pid → MemPhase

/-- The memory disk: `perform` is the call of `iderw` of `memide.c`. -/
def Mide.next (t : Mide) : IdeLabel → Option Mide
  | .set b x =>
    if ∀ p, (t.phase p).buf ≠ some b then some { t with cache := t.cache.setBuf b fun _ => x } else none
  | .call p b =>
    if t.phase p = .idle ∧ (t.cache.buf b).ready p = true then
      some { t with phase := update t.phase p (.called b) }
    else none
  | .queue p =>
    match t.phase p with
    | .called _ => some t
    | _ => none
  | .perform p =>
    match t.phase p with
    | .called b =>
      match iderw (memide FSSIZE) p b t.cache with
      | .ok _ c => some { cache := c, phase := update t.phase p (.done b) }
      | _ => none
    | _ => none
  | .intr => some t
  | .ret p =>
    match t.phase p with
    | .done _ => some { t with phase := update t.phase p .idle }
    | _ => none

def mideSystem : System Mide IdeLabel where
  init t := ∀ p, t.phase p = .idle
  next := Mide.next

/-! ## What the functions do -/

variable {s s' : Ide} {l : List BufId} {p q : Pid} {b c : BufId} {x : Buf} {i : Nat} {ph : IdePhase}

/-- The command for a buffer. -/
def Buf.command (x : Buf) : Cmd :=
  if x.dirty then .write ROOTDEV x.blockno x.data else .read ROOTDEV x.blockno

/-- The registers name the block and select disk 1. -/
theorem idestart_regs_lba (h : x.blockno < FSSIZE) : (idestart_regs x).lba = x.blockno := by
  have hblock : x.blockno * (BSIZE / SECTOR_SIZE) = x.blockno := Nat.mul_one _
  have hhigh : x.blockno / 2 ^ 24 = 0 := Nat.div_eq_of_lt (by simp only [FSSIZE] at h; omega)
  have hdrive : ((idestart_regs x).drive &&& 0x0f).toNat = 0 := by
    unfold idestart_regs
    simp only [hblock, hhigh]
    rcases Nat.mod_two_eq_zero_or_one x.dev with hdev | hdev
    · rw [hdev]
      decide
    · rw [hdev]
      decide
  unfold Regs.lba
  rw [hdrive]
  unfold idestart_regs
  simp only [hblock, BitVec.toNat_ofNat]
  simp only [FSSIZE] at h
  omega

theorem idestart_regs_disk (h : x.blockno < FSSIZE) (hdev : x.dev = ROOTDEV) :
    (idestart_regs x).disk = ROOTDEV := by
  have hblock : x.blockno * (BSIZE / SECTOR_SIZE) = x.blockno := Nat.mul_one _
  have hhigh : x.blockno / 2 ^ 24 = 0 := Nat.div_eq_of_lt (by simp only [FSSIZE] at h; omega)
  unfold Regs.disk idestart_regs
  simp only [hblock, hhigh, hdev]
  decide

/-- The request for `b` has been started. -/
def Ide.start (s : Ide) (b : BufId) : Ide :=
  { s with
    device := { s.device with regs := idestart_regs (s.cache.buf b), cmd := some (s.cache.buf b).command }
    started := s.started ++ [b] }

theorem idestart_eq (hblock : (s.cache.buf b).blockno < FSSIZE) (hdev : (s.cache.buf b).dev = ROOTDEV)
    (hcmd : s.device.cmd = none) : idestart b s = .ok () (s.start b) := by
  unfold idestart
  rw [Op.get_bind]
  rw [if_neg (Nat.not_le.mpr hblock), if_neg (by decide), hcmd, if_neg (by decide)]
  have hlba := idestart_regs_lba hblock
  have hdisk := idestart_regs_disk hblock hdev
  simp only [hlba, hdisk]
  rfl

/-! ## The invariant -/

/-- Process `p` may hand buffer `b` to the driver. -/
def Ide.Mine (s : Ide) (p : Pid) (b : BufId) : Prop :=
  (s.cache.buf b).lock = some p ∧ (s.cache.buf b).dev = ROOTDEV ∧ (s.cache.buf b).blockno < FSSIZE

/-- What holds for process `p` in a phase of its call; the buffers of the queue
    are `l`. -/
def Ide.Good (s : Ide) (l : List BufId) (p : Pid) : IdePhase → Prop
  | .idle => True
  | .entered b => s.Mine p b ∧ (s.cache.buf b).synced = false ∧ b ∉ l
  | .waiting b i => s.Mine p b ∧ s.queued[i]? = some b ∧
      ((s.cache.buf b).synced = true ↔ i < s.completed.length)

structure Ide.Inv (s : Ide) (l : List BufId) : Prop where
  leads : Chain.Leads s.qnext s.idequeue l
  queued : s.queued = s.completed ++ l
  started : s.started = s.completed ++ l.take 1
  nodup : l.Nodup
  phases : ∀ p, s.Good l p (s.phase p)
  owner : ∀ {b}, b ∈ l → ∃ p i, s.phase p = .waiting b i ∧ (s.cache.buf b).synced = false
  idle : l = [] → s.device.cmd = none ∧ s.device.irq = false
  active : ∀ {b}, l.head? = some b →
    s.device.cmd = some (s.cache.buf b).command ∧ s.device.irq = false ∨
    s.device.cmd = none ∧ s.device.irq = true

namespace Ide.Inv

theorem entered (h : s.Inv l) (hp : s.phase p = .entered b) :
    s.Mine p b ∧ (s.cache.buf b).synced = false ∧ b ∉ l := by
  have hgood := h.phases p
  rwa [hp] at hgood

theorem waiting (h : s.Inv l) (hp : s.phase p = .waiting b i) : s.Mine p b ∧
    s.queued[i]? = some b ∧ ((s.cache.buf b).synced = true ↔ i < s.completed.length) := by
  have hgood := h.phases p
  rwa [hp] at hgood

theorem mine (h : s.Inv l) (hp : (s.phase p).buf = some b) : s.Mine p b := by
  cases hphase : s.phase p with
  | idle => rw [hphase] at hp; cases hp
  | entered c => rw [hphase] at hp; cases hp; exact (h.entered hphase).1
  | waiting c i => rw [hphase] at hp; cases hp; exact (h.waiting hphase).1

/-- No two calls are about the same buffer. -/
theorem inj (h : s.Inv l) (hp : (s.phase p).buf = some b) (hq : (s.phase q).buf = some b) : p = q :=
  Option.some.inj ((h.mine hp).1.symm.trans (h.mine hq).1)

theorem length_le (h : s.Inv l) : l.length ≤ NBUF := by
  have hcard := h.nodup.length_le_card
  rwa [Fintype.card_fin] at hcard

end Ide.Inv

/-- What holds in a phase depends on the buffer of the call, the queue and the
    two histories. -/
theorem Ide.Good.congr {l' : List BufId} (h : s.Good l p ph)
    (hbuf : ∀ b, ph.buf = some b → s'.cache.buf b = s.cache.buf b)
    (hl : ∀ b, ph = .entered b → b ∉ l → b ∉ l') (hqueued : s.queued <+: s'.queued)
    (hcompleted : s'.completed = s.completed) : s'.Good l' p ph := by
  cases ph with
  | idle => trivial
  | entered b =>
    obtain ⟨hmine, hsync, hb⟩ := h
    rw [Ide.Good, Ide.Mine, hbuf b rfl]
    exact ⟨hmine, hsync, hl b rfl hb⟩
  | waiting b i =>
    obtain ⟨hmine, hi, hiff⟩ := h
    rw [Ide.Good, Ide.Mine, hbuf b rfl, hcompleted]
    obtain ⟨t, ht⟩ := hqueued
    rw [← ht, List.getElem?_append_left (List.getElem?_eq_some_iff.mp hi).1]
    exact ⟨hmine, hi, hiff⟩

theorem Ide.Start.inv (h : s.Start) : s.Inv [] := by
  obtain ⟨hqueue, hcmd, hirq, hphase, hqueued, hstarted, hcompleted⟩ := h
  refine ⟨hqueue, by rw [hqueued, hcompleted]; rfl, by rw [hstarted, hcompleted]; rfl, List.nodup_nil,
    fun p => ?_, fun hb => absurd hb List.not_mem_nil, fun _ => ⟨hcmd, hirq⟩, fun hb => by cases hb⟩
  rw [hphase p]
  trivial

/-! ## The memory disk that the driver shows -/

/-- The disk has executed the request for `b`, which has not been completed. -/
def Ide.served (s : Ide) (b : BufId) : Bool := s.device.irq && decide (s.idequeue = some b)

/-- A phase as the memory disk has it. -/
def Ide.shown (s : Ide) : IdePhase → MemPhase
  | .idle => .idle
  | .entered b => .called b
  | .waiting b _ => if (s.cache.buf b).synced || s.served b then .done b else .called b

/-- The state of the memory disk: a request is performed when the disk
    executes it. -/
def Ide.view (s : Ide) : Mide where
  cache := { s.cache with
    buf := fun b => if s.served b then finish s.device.buffer (s.cache.buf b) else s.cache.buf b }
  phase := s.shown ∘ s.phase

theorem Ide.Inv.not_served (h : s.Inv l) (hb : b ∉ l) : s.served b = false := by
  unfold Ide.served
  rw [h.leads.head]
  refine Bool.and_eq_false_iff.mpr (Or.inr (decide_eq_false fun hhead => hb ?_))
  exact List.mem_of_mem_head? hhead

theorem Ide.view_buf (s : Ide) (b : BufId) : s.view.cache.buf b =
    if s.served b then finish s.device.buffer (s.cache.buf b) else s.cache.buf b := rfl

theorem Ide.view_phase_buf (s : Ide) (p : Pid) : (s.view.phase p).buf = (s.phase p).buf := by
  show (s.shown (s.phase p)).buf = _
  cases s.phase p with
  | idle => rfl
  | entered b => rfl
  | waiting b i =>
    rw [Ide.shown]
    split_ifs
    · rfl
    · rfl

/-- One process moves on. -/
theorem Ide.view_setPhase (s : Ide) (p : Pid) (ph : IdePhase) :
    ({ s with phase := update s.phase p ph } : Ide).view =
      { s.view with phase := update s.view.phase p (s.shown ph) } :=
  congrArg (Mide.mk s.view.cache) (Function.comp_update s.shown s.phase p ph)

theorem Ide.view_eq {t : Mide} (hdisk : t.cache.disk = s.cache.disk) (hlinks : t.cache.links = s.cache.links)
    (hbuf : ∀ b, t.cache.buf b = s.view.cache.buf b) (hphase : ∀ p, t.phase p = s.view.phase p) :
    t = s.view := by
  obtain ⟨⟨buf, links, disk⟩, phase⟩ := t
  obtain rfl : buf = s.view.cache.buf := funext hbuf
  obtain rfl : phase = s.view.phase := funext hphase
  obtain rfl : disk = s.cache.disk := hdisk
  obtain rfl : links = s.cache.links := hlinks
  rfl

/-- The phase that is shown depends on whether the request has been served. -/
theorem Ide.shown_congr (hbuf : ∀ b i, ph = .waiting b i →
      ((s'.cache.buf b).synced || s'.served b) = ((s.cache.buf b).synced || s.served b)) :
    s.shown ph = s'.shown ph := by
  cases ph with
  | idle => rfl
  | entered b => rfl
  | waiting b i => rw [Ide.shown, Ide.shown, hbuf b i rfl]

/-- A step of the driver with label `lbl` keeps the invariant and is one of the
    memory disk. -/
def Ide.Follows (s : Ide) (lbl : IdeLabel) (s' : Ide) : Prop :=
  (∃ l, s'.Inv l) ∧ s.view.next lbl = some s'.view

/-! ## Steps -/

theorem Ide.Inv.set (h : s.Inv l) (hnext : s.next (.set b x) = some s') : s.Follows (.set b x) s' := by
  simp only [Ide.next] at hnext
  split_ifs at hnext with hfree
  obtain rfl := Option.some.inj hnext
  have hb : b ∉ l := by
    intro hmem
    obtain ⟨p, i, hp, -⟩ := h.owner hmem
    exact hfree p (by rw [hp]; rfl)
  have hsame : ∀ {p c}, (s.phase p).buf = some c → (s.cache.setBuf b fun _ => x).buf c = s.cache.buf c := by
    intro p c hp
    refine s.cache.setBuf_ne b _ ?_
    rintro rfl
    exact hfree p hp
  refine ⟨⟨l, h.leads, h.queued, h.started, h.nodup, fun p => (h.phases p).congr (fun _ => hsame)
    (fun _ _ => id) (List.prefix_refl _) rfl, fun hc => ?_, h.idle, fun hc => ?_⟩, ?_⟩
  · obtain ⟨p, i, hp, hsync⟩ := h.owner hc
    exact ⟨p, i, hp, by rw [hsame (by rw [hp]; rfl)]; exact hsync⟩
  · obtain ⟨p, i, hp, -⟩ := h.owner (List.mem_of_mem_head? hc)
    rw [hsame (by rw [hp]; rfl)]
    exact h.active hc
  · have hview : ∀ p, (s.view.phase p).buf ≠ some b := by
      intro p
      rw [s.view_phase_buf]
      exact hfree p
    simp only [Mide.next, if_pos hview]
    refine congrArg some (Ide.view_eq rfl rfl (fun c => ?_) fun p => ?_)
    · by_cases hc : c = b
      · subst hc
        rw [Bcache.setBuf_self, Ide.view_buf]
        show x = if s.served c then _ else (s.cache.setBuf c fun _ => x).buf c
        rw [h.not_served hb, if_neg (by decide), Bcache.setBuf_self]
      · rw [Bcache.setBuf_ne _ _ _ hc, Ide.view_buf, Ide.view_buf]
        show _ = if s.served c then finish s.device.buffer ((s.cache.setBuf b fun _ => x).buf c)
          else (s.cache.setBuf b fun _ => x).buf c
        rw [Bcache.setBuf_ne _ _ _ hc]
    · refine Ide.shown_congr fun c i hp => ?_
      show (((s.cache.setBuf b fun _ => x).buf c).synced || s.served c) = _
      rw [hsame (by rw [hp]; rfl)]

theorem Ide.Inv.call (h : s.Inv l) (hnext : s.next (.call p b) = some s') : s.Follows (.call p b) s' := by
  simp only [Ide.next] at hnext
  split_ifs at hnext with hcan
  obtain rfl := Option.some.inj hnext
  obtain ⟨hidle, hready⟩ := hcan
  have hready' := hready
  simp only [Buf.ready, Bool.and_eq_true, decide_eq_true_eq, Bool.not_eq_true'] at hready'
  obtain ⟨⟨⟨hlock, hsync⟩, hdev⟩, hblock⟩ := hready'
  -- the process holds the lock of `b`, so nobody waits for it
  have hb : b ∉ l := by
    intro hmem
    obtain ⟨q, i, hq, -⟩ := h.owner hmem
    obtain rfl := Option.some.inj (hlock.symm.trans (h.waiting hq).1.1)
    rw [hidle] at hq
    cases hq
  refine ⟨⟨l, h.leads, h.queued, h.started, h.nodup, (Function.forall_update_iff s.phase (s.Good l)).mpr
    ⟨⟨⟨hlock, hdev, hblock⟩, hsync, hb⟩, fun q _ => h.phases q⟩, fun hc => ?_, h.idle, h.active⟩, ?_⟩
  · obtain ⟨q, i, hq, hsync'⟩ := h.owner hc
    have hqp : q ≠ p := by
      rintro rfl
      rw [hidle] at hq
      cases hq
    exact ⟨q, i, (update_of_ne hqp _ _).trans hq, hsync'⟩
  · have hcan : s.view.phase p = .idle ∧ (s.view.cache.buf b).ready p = true := by
      constructor
      · show s.shown (s.phase p) = _
        rw [hidle]
        rfl
      · rw [Ide.view_buf, h.not_served hb, if_neg (by decide)]
        exact hready
    simp only [Mide.next, if_pos hcan, Ide.view_setPhase]
    rfl

theorem Ide.Inv.ret (h : s.Inv l) (hnext : s.next (.ret p) = some s') : s.Follows (.ret p) s' := by
  simp only [Ide.next] at hnext
  cases hp : s.phase p with
  | idle => simp [hp] at hnext
  | entered b => simp [hp] at hnext
  | waiting b i =>
    simp only [hp] at hnext
    split_ifs at hnext with hsync
    obtain rfl := Option.some.inj hnext
    refine ⟨⟨l, h.leads, h.queued, h.started, h.nodup, (Function.forall_update_iff s.phase (s.Good l)).mpr
      ⟨trivial, fun q _ => h.phases q⟩, fun hc => ?_, h.idle, h.active⟩, ?_⟩
    · obtain ⟨q, j, hq, hsync'⟩ := h.owner hc
      have hqp : q ≠ p := by
        rintro rfl
        obtain ⟨rfl, -⟩ := IdePhase.waiting.inj (hp.symm.trans hq)
        rw [hsync] at hsync'
        cases hsync'
      exact ⟨q, j, (update_of_ne hqp _ _).trans hq, hsync'⟩
    · have hdone : s.view.phase p = .done b := by
        show s.shown (s.phase p) = _
        simp only [hp, Ide.shown, hsync, Bool.true_or, if_true]
      simp only [Mide.next, hdone, Ide.view_setPhase]
      rfl

/-- The transfer of `memide.c` is what the disk and the interrupt handler do
    together. -/
theorem iderw_memide (h : s.Mine p b) (hsync : (s.cache.buf b).synced = false) :
    ∃ cache, iderw (memide FSSIZE) p b s.cache = .ok () cache ∧
      cache.disk = ((s.cache.buf b).command.perform s).cache.disk ∧ cache.links = s.cache.links ∧
      ∀ c, cache.buf c = if c = b then
        finish ((s.cache.buf b).command.perform s).device.buffer (s.cache.buf b) else s.cache.buf c := by
  obtain ⟨hlock, hdev, hblock⟩ := h
  have hwork : ¬((s.cache.buf b).valid = true ∧ (s.cache.buf b).dirty = false) := by
    rintro ⟨hvalid, hclean⟩
    rw [Buf.synced, hvalid, hclean] at hsync
    cases hsync
  have hrefuse : (memide FSSIZE).refuse (s.cache.buf b).dev (s.cache.buf b).blockno = none := by
    unfold memide
    dsimp only
    rw [if_neg (not_not.mpr hdev), if_neg (Nat.not_le.mpr hblock)]
  have hset : ∀ {f : Buf → Buf} {x : Buf}, f (s.cache.buf b) = x → ∀ c,
      (s.cache.setBuf b f).buf c = if c = b then x else s.cache.buf c := by
    intro f x hx c
    by_cases hc : c = b
    · rw [if_pos hc, hc, Bcache.setBuf_self, hx]
    · rw [if_neg hc, Bcache.setBuf_ne _ _ _ hc]
  unfold iderw
  rw [Op.get_bind]
  dsimp only
  rw [if_neg (not_not.mpr hlock), if_neg hwork, hrefuse, Buf.command]
  by_cases hdirty : (s.cache.buf b).dirty = true
  · rw [if_pos hdirty, if_pos hdirty, hdev]
    refine ⟨_, rfl, rfl, rfl, fun c => ?_⟩
    dsimp only
    refine hset ?_ c
    rw [finish, if_pos hdirty]
  · rw [if_neg hdirty, if_neg hdirty]
    refine ⟨_, rfl, rfl, rfl, hset ?_⟩
    rw [finish, if_neg hdirty, hdev]
    rw [Bool.not_eq_true] at hdirty
    rw [hdirty]
    rfl

theorem Ide.view_cache (h : s.device.irq = false) : s.view.cache = s.cache := by
  have hserved : ∀ c, s.served c = false := fun c => by rw [Ide.served, h, Bool.false_and]
  have hbuf : s.view.cache.buf = s.cache.buf := by
    funext c
    rw [Ide.view_buf, hserved, if_neg (by decide)]
  show { s.cache with buf := s.view.cache.buf } = s.cache
  rw [hbuf]

/-- What the disk does does not change the buffers. -/
theorem Cmd.perform_fields (cmd : Cmd) (s : Ide) :
    (cmd.perform s).cache.buf = s.cache.buf ∧ (cmd.perform s).cache.links = s.cache.links ∧
    (cmd.perform s).phase = s.phase ∧ (cmd.perform s).idequeue = s.idequeue ∧
    (cmd.perform s).device.irq = true ∧ (cmd.perform s).device.cmd = none := by
  cases cmd with
  | read dev k => exact ⟨rfl, rfl, rfl, rfl, rfl, rfl⟩
  | write dev k data => exact ⟨rfl, rfl, rfl, rfl, rfl, rfl⟩

theorem Ide.Inv.perform (h : s.Inv l) (hnext : s.next (.perform p) = some s') : s.Follows (.perform p) s' := by
  simp only [Ide.next] at hnext
  split at hnext
  · next b cmd hqueue hcmd =>
    split_ifs at hnext with hlock
    obtain rfl := Option.some.inj hnext
    have hhead : l.head? = some b := by rw [← h.leads.head, hqueue]
    obtain ⟨q, i, hq, hsync⟩ := h.owner (List.mem_of_mem_head? hhead)
    have hmine := (h.waiting hq).1
    obtain rfl : p = q := Option.some.inj (hlock.symm.trans hmine.1)
    -- it is the request of `b` that is executed
    obtain ⟨hcommand, hirq⟩ : s.device.cmd = some (s.cache.buf b).command ∧ s.device.irq = false := by
      rcases h.active hhead with hactive | ⟨hnone, -⟩
      · exact hactive
      · rw [hnone] at hcmd
        cases hcmd
    obtain rfl : cmd = (s.cache.buf b).command := Option.some.inj (hcmd.symm.trans hcommand)
    obtain ⟨hbuf, hlinks, hphase, hqueue', hirq', hcmd'⟩ := Cmd.perform_fields (s.cache.buf b).command s
    have hserved : ∀ c, s.served c = false := fun c => by rw [Ide.served, hirq, Bool.false_and]
    have hserved' : ∀ c, ((s.cache.buf b).command.perform s).served c = decide (s.idequeue = some c) := by
      intro c
      rw [Ide.served, hirq', hqueue', Bool.true_and]
    refine ⟨⟨l, ?_⟩, ?_⟩
    · generalize (s.cache.buf b).command = cmd at *
      have hgood : ∀ q, (cmd.perform s).Good l q ((cmd.perform s).phase q) := fun q => by
        rw [hphase]
        refine (h.phases q).congr (fun _ _ => by rw [hbuf]) (fun _ _ => id) ?_ ?_
        · cases cmd <;> exact List.prefix_refl _
        · cases cmd <;> rfl
      cases cmd with
      | read dev k =>
        exact ⟨h.leads, h.queued, h.started, h.nodup, hgood, h.owner,
          fun hnil => absurd (hnil ▸ hhead) nofun, fun _ => Or.inr ⟨rfl, rfl⟩⟩
      | write dev k data =>
        exact ⟨h.leads, h.queued, h.started, h.nodup, hgood, h.owner,
          fun hnil => absurd (hnil ▸ hhead) nofun, fun _ => Or.inr ⟨rfl, rfl⟩⟩
    · have hcalled : s.view.phase p = .called b := by
        show s.shown (s.phase p) = _
        rw [hq, Ide.shown, hsync, hserved]
        rfl
      obtain ⟨cache, hrun, hdisk, hlinks', hbuf'⟩ := iderw_memide hmine hsync
      simp only [Mide.next, hcalled, Ide.view_cache hirq, hrun]
      refine congrArg some (Ide.view_eq hdisk (hlinks'.trans hlinks.symm) (fun c => ?_) fun r => ?_)
      · rw [Ide.view_buf, hserved', hbuf, hqueue]
        refine (hbuf' c).trans ?_
        by_cases hc : c = b
        · rw [hc, decide_eq_true rfl, if_pos rfl, if_pos rfl]
        · rw [decide_eq_false fun he => hc (Option.some.inj he).symm, if_neg Bool.false_ne_true, if_neg hc]
      · show update s.view.phase p _ r = Ide.shown _ (Ide.phase _ r)
        rw [hphase]
        by_cases hr : r = p
        · subst hr
          rw [update_self, hq, Ide.shown, hserved', hqueue, decide_eq_true rfl, Bool.or_true, if_pos rfl]
        · rw [update_of_ne hr]
          refine Ide.shown_congr fun c j hc => ?_
          have hcb : c ≠ b := by
            rintro rfl
            exact hr (h.inj (b := c) (by rw [hc]; rfl) (by rw [hq]; rfl))
          rw [hbuf, hserved', hserved, hqueue, decide_eq_false fun he => hcb (Option.some.inj he).symm]
  · cases hnext

/-- The state after `iderw` has appended `b`. -/
def Ide.enqueue (s : Ide) (p : Pid) (b : BufId) (idequeue : Option BufId) (qnext : BufId → Option BufId) : Ide :=
  { s with
    idequeue := idequeue
    qnext := qnext
    phase := update s.phase p (.waiting b s.queued.length)
    queued := s.queued ++ [b] }

theorem Ide.Inv.queue_eq (h : s.Inv l) (hp : s.phase p = .entered b) :
    ∃ qnext, Chain.Leads qnext (l ++ [b]).head? (l ++ [b]) ∧
      iderw_queue p b s = .ok () (if l = [] then (s.enqueue p b (l ++ [b]).head? qnext).start b
        else s.enqueue p b (l ++ [b]).head? qnext) := by
  obtain ⟨⟨-, hdev, hblock⟩, hsync, hb⟩ := h.entered hp
  obtain ⟨head', qnext, happend, hleads⟩ := Chain.append_of_leads h.leads h.nodup hb h.length_le
  obtain rfl := hleads.head
  refine ⟨qnext, hleads, ?_⟩
  unfold iderw_queue
  rw [Op.get_bind, happend]
  dsimp only
  show (Op.modify (fun s : Ide => s.enqueue p b _ qnext) >>= fun _ => _) s = _
  rw [Op.bind_of_ok (m := Op.modify _) rfl]
  by_cases hl : l = []
  · subst hl
    have hhead : ([] ++ [b]).head? = some b := rfl
    rw [if_pos hhead, if_pos rfl]
    exact idestart_eq hblock hdev (h.idle rfl).1
  · have hne : (l ++ [b]).head? ≠ some b := by
      rw [List.head?_append_of_ne_nil _ hl]
      exact fun he => hb (List.mem_of_mem_head? he)
    rw [if_neg hne, if_neg hl]
    rfl

/-- The invariant once `b` has been appended; `started` is behind if the queue
    was empty. -/
theorem Ide.Inv.enqueue (h : s.Inv l) (hp : s.phase p = .entered b) {qnext : BufId → Option BufId}
    (hleads : Chain.Leads qnext (l ++ [b]).head? (l ++ [b])) :
    (if l = [] then (s.enqueue p b (l ++ [b]).head? qnext).start b
      else s.enqueue p b (l ++ [b]).head? qnext).Inv (l ++ [b]) := by
  obtain ⟨hmine, hsync, hb⟩ := h.entered hp
  generalize hhead : (l ++ [b]).head? = head at *
  have hlen : s.queued.length = s.completed.length + l.length := by rw [h.queued, List.length_append]
  have hqueued : s.queued ++ [b] = s.completed ++ (l ++ [b]) := by rw [h.queued, List.append_assoc]
  have hnodup : (l ++ [b]).Nodup := by
    rw [List.nodup_append]
    refine ⟨h.nodup, List.nodup_singleton b, fun a ha c hc => ?_⟩
    rw [List.mem_singleton.mp hc]
    exact ne_of_mem_of_not_mem ha hb
  have hphases : ∀ q, (s.enqueue p b head qnext).Good (l ++ [b]) q
      (update s.phase p (.waiting b s.queued.length) q) := by
    refine (Function.forall_update_iff s.phase ((s.enqueue p b head qnext).Good (l ++ [b]))).mpr
      ⟨⟨hmine, List.getElem?_concat_length, ?_⟩, fun q hqp => ?_⟩
    · show (s.cache.buf b).synced = true ↔ _
      rw [hsync]
      exact iff_of_false Bool.false_ne_true (by show ¬ s.queued.length < s.completed.length; omega)
    · refine (h.phases q).congr (fun _ _ => rfl) (fun c hc hcl => ?_) (List.prefix_append _ _) rfl
      rw [List.mem_append, List.mem_singleton]
      rintro (hmem | rfl)
      · exact hcl hmem
      · exact hqp (h.inj (b := c) (by rw [hc]; rfl) (by rw [hp]; rfl))
  have howner : ∀ {c}, c ∈ l ++ [b] → ∃ q i,
      update s.phase p (.waiting b s.queued.length) q = .waiting c i ∧
      (s.cache.buf c).synced = false := by
    intro c hc
    rcases List.mem_append.mp hc with hc | hc
    · obtain ⟨q, i, hq, hsync'⟩ := h.owner hc
      have hqp : q ≠ p := by
        rintro rfl
        rw [hp] at hq
        cases hq
      exact ⟨q, i, (update_of_ne hqp _ _).trans hq, hsync'⟩
    · obtain rfl := List.mem_singleton.mp hc
      exact ⟨p, _, update_self _ _ _, hsync⟩
  split_ifs with hl
  · subst hl
    obtain rfl : some b = head := hhead
    refine ⟨hleads, hqueued, ?_, hnodup, hphases, howner, fun hnil => absurd hnil nofun,
      fun {c} hc => Or.inl ⟨?_, (h.idle rfl).2⟩⟩
    · show s.started ++ [b] = s.completed ++ [b]
      rw [h.started, List.take_nil, List.append_nil]
    · obtain rfl : b = c := Option.some.inj hc
      rfl
  · refine ⟨hleads, hqueued, ?_, hnodup, hphases, howner,
      fun hnil => absurd (List.append_eq_nil_iff.mp hnil).1 hl, fun hc => ?_⟩
    · rw [List.take_append_of_le_length (List.length_pos_iff.mpr hl)]
      exact h.started
    · rw [List.head?_append_of_ne_nil _ hl] at hc
      exact h.active hc

theorem Ide.Inv.queue (h : s.Inv l) (hnext : s.next (.queue p) = some s') : s.Follows (.queue p) s' := by
  simp only [Ide.next] at hnext
  cases hp : s.phase p with
  | idle => simp [hp] at hnext
  | waiting b i => simp [hp] at hnext
  | entered b =>
    simp only [hp] at hnext
    obtain ⟨-, hsync, hb⟩ := h.entered hp
    obtain ⟨qnext, hleads, hrun⟩ := h.queue_eq hp
    rw [Ide.after, hrun] at hnext
    obtain rfl := Option.some.inj hnext
    refine ⟨⟨_, h.enqueue hp hleads⟩, ?_⟩
    have hcalled : s.view.phase p = .called b := congrArg s.shown hp
    simp only [Mide.next, hcalled]
    generalize hhead : (l ++ [b]).head? = head at *
    -- what is shown does not change: `b` is not served, and all others as before
    have hserved : ∀ c, (s.device.irq && decide (head = some c)) = s.served c := by
      intro c
      by_cases hl : l = []
      · rw [Ide.served, (h.idle hl).2, Bool.false_and, Bool.false_and]
      · rw [Ide.served, h.leads.head, ← hhead, List.head?_append_of_ne_nil _ hl]
    have hphase : ∀ q, s.view.phase q = (s.enqueue p b head qnext).view.phase q := by
      intro q
      show _ = (s.enqueue p b head qnext).shown (update s.phase p _ q)
      by_cases hqp : q = p
      · subst hqp
        have hnot : (s.enqueue q b head qnext).served b = false := (hserved b).trans (h.not_served hb)
        rw [hcalled, update_self, Ide.shown, hnot]
        show _ = if ((s.cache.buf b).synced || false) = true then _ else _
        rw [hsync, if_neg (by decide)]
      · rw [update_of_ne hqp]
        refine Ide.shown_congr fun c i _ => ?_
        show ((s.cache.buf c).synced || (s.device.irq && decide (head = some c))) = _
        rw [hserved c]
    have hbuf : ∀ c, s.view.cache.buf c = (s.enqueue p b head qnext).view.cache.buf c := by
      intro c
      rw [Ide.view_buf, Ide.view_buf, ← hserved c]
      rfl
    split_ifs
    · exact congrArg some (Ide.view_eq rfl rfl hbuf hphase)
    · exact congrArg some (Ide.view_eq rfl rfl hbuf hphase)

/-- The state after the interrupt handler has completed the request for `b`. -/
def Ide.complete (s : Ide) (b : BufId) : Ide :=
  { s with
    device := { s.device with irq := false }
    idequeue := s.qnext b
    cache := s.cache.setBuf b (finish s.device.buffer)
    completed := s.completed ++ [b] }

theorem finish_synced (data : Block) (x : Buf) : (finish data x).synced = true := rfl

/-- The first request of the queue has been started. -/
def Ide.startFirst (s : Ide) : List BufId → Ide
  | [] => s
  | c :: _ => s.start c

theorem Ide.Inv.complete (h : s.Inv (b :: l)) (hirq : s.device.irq = true) :
    { s with device := { s.device with irq := false } }.after ideintr = some ((s.complete b).startFirst l) := by
  have hqueue : s.idequeue = some b := h.leads.1
  have hleads : Chain.Leads s.qnext (s.qnext b) l := h.leads.2
  have hcmd : s.device.cmd = none := by
    rcases h.active (b := b) rfl with ⟨-, hbusy⟩ | ⟨hnone, -⟩
    · rw [hirq] at hbusy
      cases hbusy
    · exact hnone
  have hrun : ideintr { s with device := { s.device with irq := false } } =
      (match s.qnext b with | none => pure () | some c => idestart c : Op Ide Unit) (s.complete b) := by
    unfold ideintr
    rw [Op.get_bind]
    dsimp only
    rw [hqueue]
    rfl
  unfold Ide.after
  rw [hrun]
  cases l with
  | nil =>
    have hnone : s.qnext b = none := hleads
    rw [hnone]
    rfl
  | cons c l =>
    have hcb : c ≠ b := by
      rintro rfl
      exact (List.nodup_cons.mp h.nodup).1 List.mem_cons_self
    obtain ⟨p, i, hp, -⟩ := h.owner (List.mem_cons_of_mem _ List.mem_cons_self)
    obtain ⟨-, hdev, hblock⟩ := (h.waiting hp).1
    have hsame : (s.complete b).cache.buf c = s.cache.buf c := Bcache.setBuf_ne _ _ _ hcb
    have hstart : idestart c (s.complete b) = .ok () ((s.complete b).start c) :=
      idestart_eq (by rwa [hsame]) (by rwa [hsame]) hcmd
    rw [hleads.1]
    dsimp only
    rw [hstart]
    rfl

theorem Ide.startFirst_fields (s : Ide) (l : List BufId) :
    (s.startFirst l).cache = s.cache ∧ (s.startFirst l).phase = s.phase ∧ (s.startFirst l).qnext = s.qnext ∧
    (s.startFirst l).idequeue = s.idequeue ∧ (s.startFirst l).queued = s.queued ∧
    (s.startFirst l).completed = s.completed ∧ (s.startFirst l).started = s.started ++ l.take 1 ∧
    (s.startFirst l).device.irq = s.device.irq := by
  cases l with
  | nil => exact ⟨rfl, rfl, rfl, rfl, rfl, rfl, (List.append_nil _).symm, rfl⟩
  | cons c l => exact ⟨rfl, rfl, rfl, rfl, rfl, rfl, rfl, rfl⟩

theorem Ide.Inv.intr (h : s.Inv l) (hnext : s.next .intr = some s') : s.Follows .intr s' := by
  simp only [Ide.next] at hnext
  split_ifs at hnext with hirq
  cases l with
  | nil =>
    rw [(h.idle rfl).2] at hirq
    cases hirq
  | cons b l =>
    rw [h.complete hirq] at hnext
    obtain rfl := Option.some.inj hnext
    obtain ⟨hcache, hphase, hqnext, hqueue', hqueued, hcompleted, hstarted, hirq'⟩ :=
      (s.complete b).startFirst_fields l
    have hqueue : s.idequeue = some b := h.leads.1
    obtain ⟨hb, hnodup⟩ := List.nodup_cons.mp h.nodup
    have hcmd : s.device.cmd = none := by
      rcases h.active (b := b) rfl with ⟨-, hbusy⟩ | ⟨hnone, -⟩
      · rw [hirq] at hbusy
        cases hbusy
      · exact hnone
    have hsame : ∀ {c}, c ≠ b → (s.complete b).cache.buf c = s.cache.buf c :=
      fun hc => Bcache.setBuf_ne _ _ _ hc
    have hself : (s.complete b).cache.buf b = finish s.device.buffer (s.cache.buf b) := Bcache.setBuf_self _ _ _
    have hlock : ∀ c, ((s.complete b).cache.buf c).lock = (s.cache.buf c).lock ∧
        ((s.complete b).cache.buf c).dev = (s.cache.buf c).dev ∧
        ((s.complete b).cache.buf c).blockno = (s.cache.buf c).blockno := by
      intro c
      by_cases hc : c = b
      · subst hc
        rw [hself]
        exact ⟨rfl, rfl, rfl⟩
      · rw [hsame hc]
        exact ⟨rfl, rfl, rfl⟩
    have hlen : (s.completed ++ [b]).length = s.completed.length + 1 := by
      rw [List.length_append]
      rfl
    refine ⟨⟨l, ?_, ?_, ?_, hnodup, fun q => ?_, fun {c} hc => ?_, fun hnil => ?_, fun {c} hc => ?_⟩, ?_⟩
    · rw [hqnext, hqueue']
      exact h.leads.2
    · rw [hqueued, hcompleted]
      show s.queued = s.completed ++ [b] ++ l
      rw [h.queued, List.append_assoc]
      rfl
    · rw [hstarted, hcompleted]
      show s.started ++ _ = s.completed ++ [b] ++ _
      rw [h.started]
      rfl
    · rw [hphase]
      show Ide.Good _ l q (s.phase q)
      cases hq : s.phase q with
      | idle => trivial
      | entered c =>
        obtain ⟨hmine, hsync, hc⟩ := h.entered hq
        obtain ⟨hcb, hcl⟩ := not_or.mp (mt List.mem_cons.mpr hc)
        rw [Ide.Good, Ide.Mine, hcache, hsame hcb]
        exact ⟨hmine, hsync, hcl⟩
      | waiting c j =>
        obtain ⟨hmine, hj, hiff⟩ := h.waiting hq
        rw [Ide.Good, Ide.Mine, hcache, hqueued, hcompleted, (hlock c).1, (hlock c).2.1, (hlock c).2.2]
        refine ⟨hmine, hj, ?_⟩
        show _ ↔ j < (s.completed ++ [b]).length
        rw [hlen]
        -- position `s.completed.length` is the one of `b`
        have hat : s.queued[s.completed.length]? = some b := by
          rw [h.queued, List.getElem?_append_right le_rfl, Nat.sub_self]
          rfl
        by_cases hcb : c = b
        · subst hcb
          rw [hself, finish_synced]
          refine iff_of_true rfl ?_
          by_contra hge
          rw [h.queued, List.getElem?_append_right (by omega), List.getElem?_cons,
            if_neg (by omega)] at hj
          exact hb (List.mem_of_getElem? hj)
        · rw [hsame hcb, hiff]
          have hne : j ≠ s.completed.length := by
            rintro rfl
            exact hcb (Option.some.inj (hj.symm.trans hat))
          omega
    · obtain ⟨q, j, hq, hsync⟩ := h.owner (List.mem_cons_of_mem _ hc)
      rw [hphase, hcache, hsame (ne_of_mem_of_not_mem hc hb)]
      exact ⟨q, j, hq, hsync⟩
    · subst hnil
      exact ⟨hcmd, rfl⟩
    · cases l with
      | nil => cases hc
      | cons c' l =>
        obtain rfl : c' = c := Option.some.inj hc
        exact Or.inl ⟨rfl, rfl⟩
    · have hserved : ∀ c, s.served c = decide (c = b) := by
        intro c
        rw [Ide.served, hirq, hqueue, Bool.true_and]
        exact decide_eq_decide.mpr ⟨fun he => (Option.some.inj he).symm, fun he => congrArg some he.symm⟩
      have hserved' : ∀ c, ((s.complete b).startFirst l).served c = false := by
        intro c
        rw [Ide.served, hirq']
        rfl
      show some s.view = _
      refine congrArg some (Ide.view_eq ?_ ?_ (fun c => ?_) fun q => ?_)
      · rw [hcache]
        rfl
      · rw [hcache]
        rfl
      · rw [Ide.view_buf, Ide.view_buf, hserved, hserved', hcache, if_neg Bool.false_ne_true]
        by_cases hc : c = b
        · subst hc
          rw [decide_eq_true rfl, if_pos rfl, hself]
        · rw [decide_eq_false hc, if_neg Bool.false_ne_true, hsame hc]
      · show _ = Ide.shown _ (Ide.phase _ q)
        rw [hphase]
        refine Ide.shown_congr fun c j _ => ?_
        rw [hserved, hserved', hcache, Bool.or_false]
        by_cases hc : c = b
        · subst hc
          rw [hself, finish_synced, decide_eq_true rfl, Bool.or_true]
        · rw [hsame hc, decide_eq_false hc, Bool.or_false]

theorem Ide.Inv.step {lbl : IdeLabel} (h : s.Inv l) (hnext : s.next lbl = some s') : s.Follows lbl s' := by
  cases lbl with
  | set b x => exact h.set hnext
  | call p b => exact h.call hnext
  | queue p => exact h.queue hnext
  | perform p => exact h.perform hnext
  | intr => exact h.intr hnext
  | ret p => exact h.ret hnext

theorem Ide.Start.run {s₀ : Ide} {ls : List IdeLabel} (h : s₀.Start) (hrun : Run ideSystem s₀ ls s) :
    (∃ l, s.Inv l) ∧ Run mideSystem s₀.view ls s.view :=
  Run.map (I := fun s : Ide => ∃ l, s.Inv l) hrun ⟨[], h.inv⟩ fun _ _ _ ⟨_, hs⟩ hnext => hs.step hnext

/-- What can be seen of the two disks is the same: the blocks, the buffers
    that no unfinished call is about, and who is in a call. -/
structure Ide.Shows (s : Ide) (t : Mide) : Prop where
  disk : t.cache.disk = s.cache.disk
  links : t.cache.links = s.cache.links
  idle : ∀ p, t.phase p = .idle ↔ s.phase p = .idle
  buf : ∀ b, (∀ p, (s.phase p).buf ≠ some b) → t.cache.buf b = s.cache.buf b
  entered : ∀ p b, s.phase p = .entered b → t.phase p = .called b ∧ t.cache.buf b = s.cache.buf b
  done : ∀ p b i, s.phase p = .waiting b i → (s.cache.buf b).synced = true →
    t.phase p = .done b ∧ t.cache.buf b = s.cache.buf b

theorem Ide.Inv.shows (h : s.Inv l) : s.Shows s.view := by
  have hbuf : ∀ {b}, b ∉ l → s.view.cache.buf b = s.cache.buf b := by
    intro b hb
    rw [Ide.view_buf, h.not_served hb, if_neg Bool.false_ne_true]
  refine ⟨rfl, rfl, fun p => ?_, fun b hb => hbuf fun hmem => ?_, fun p b hp => ⟨congrArg s.shown hp, hbuf (h.entered hp).2.2⟩,
    fun p b i hp hsync => ⟨?_, hbuf fun hmem => ?_⟩⟩
  · show s.shown (s.phase p) = _ ↔ _
    cases s.phase p with
    | idle => exact iff_of_true rfl rfl
    | entered b => exact iff_of_false nofun nofun
    | waiting b i =>
      refine iff_of_false ?_ nofun
      rw [Ide.shown]
      split_ifs
      · exact nofun
      · exact nofun
  · obtain ⟨p, i, hp, -⟩ := h.owner hmem
    exact hb p (by rw [hp]; rfl)
  · show s.shown (s.phase p) = _
    rw [hp, Ide.shown, hsync, Bool.true_or, if_pos rfl]
  · obtain ⟨q, j, -, hfalse⟩ := h.owner hmem
    rw [hsync] at hfalse
    cases hfalse

end Xv6.Bio
