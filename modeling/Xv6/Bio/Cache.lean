import Xv6.Param
import Xv6.Framework.Circle
import Xv6.Framework.LTS
import Xv6.Framework.Op

/-! # The buffer cache

    `bio.c`, with the disk driver as a synchronous transfer and the effect of
    `log_write` on a buffer. The buffers form a doubly linked circle through
    `bcache.head`, most recently released first; the searches of `bget` follow
    its pointers.

    The functions are cut where they let go of a lock: `bget` into its critical
    section of `bcache.lock` and the wait for the buffer's sleep-lock, `brelse`
    into the release of the sleep-lock and its critical section. `bioSystem`
    interleaves the calls of all processes at these points. Its labels are the
    pieces of the calls together with what they return, so that a property of
    sequences of calls is one of sequences of labels.
-/

namespace Xv6.Bio

open Circle Function

abbrev Pid : Type := Fin NPROC
/-- Index of an entry in `bcache.buf`, that is a `struct buf *`. -/
abbrev BufId : Type := Fin NBUF
/-- A node of the list; `none` is `bcache.head`. -/
abbrev Node : Type := Option BufId

/-- `struct buf`, but for its list pointers. `flags` are the two bits
    `B_VALID` and `B_DIRTY`. -/
structure Buf where
  valid : Bool
  dirty : Bool
  dev : Nat
  blockno : Nat
  /-- The holder of the sleep-lock. -/
  lock : Option Pid
  refcnt : Nat
  data : Block

/-- `bcache`, and the disks behind it. -/
structure Bcache where
  buf : BufId → Buf
  links : Links Node
  disk : Nat → Nat → Block

namespace Bcache

/-- Change one buffer. -/
def setBuf (c : Bcache) (b : BufId) (f : Buf → Buf) : Bcache :=
  { c with buf := update c.buf b (f (c.buf b)) }

variable (c : Bcache) (b : BufId) (f : Buf → Buf)

@[simp] theorem setBuf_self : (c.setBuf b f).buf b = f (c.buf b) := by
  simp [setBuf]

theorem setBuf_ne {x : BufId} (h : x ≠ b) : (c.setBuf b f).buf x = c.buf x := by
  simp [setBuf, h]

@[simp] theorem setBuf_links : (c.setBuf b f).links = c.links := rfl

@[simp] theorem setBuf_disk : (c.setBuf b f).disk = c.disk := rfl

end Bcache

/-! ## `bio.c` -/

/-- The list of `binit`: each buffer in turn goes in behind the head. -/
def binit : Links Node :=
  (List.finRange NBUF).foldl (fun L b => L.insert none (some b)) ⟨fun _ => none, fun _ => none⟩

/-- Is the buffer a copy of this block? -/
def Bcache.holds (c : Bcache) (dev blockno : Nat) : Node → Bool
  | none => false
  | some b => decide ((c.buf b).dev = dev ∧ (c.buf b).blockno = blockno)

/-- Can the buffer be recycled? -/
def Bcache.unused (c : Bcache) : Node → Bool
  | none => false
  | some b => decide ((c.buf b).refcnt = 0 ∧ (c.buf b).dirty = false)

/-- The critical section of `bget`. -/
def bget (dev blockno : Nat) : Op Bcache BufId := do
  let c ← Op.get
  -- Is the block already cached?
  match search c.links.next (c.holds dev blockno) none (NBUF + 1) (c.links.next none) with
  | some (some b) =>
    Op.modify fun c => c.setBuf b fun x => { x with refcnt := x.refcnt + 1 }
    pure b
  | _ =>
    -- Not cached; recycle an unused buffer.
    match search c.links.prev c.unused none (NBUF + 1) (c.links.prev none) with
    | some (some b) =>
      Op.modify fun c => c.setBuf b fun x =>
        { x with dev := dev, blockno := blockno, valid := false, dirty := false, refcnt := 1 }
      pure b
    | _ => Op.panic "bget: no buffers"

/-- `acquiresleep(&b->lock)` -/
def acquiresleep (p : Pid) (b : BufId) : Op Bcache Unit := do
  let c ← Op.get
  match (c.buf b).lock with
  | none => Op.modify fun c => c.setBuf b fun x => { x with lock := some p }
  | some _ => Op.block

/-- A disk driver: it transfers the block it is asked for, or refuses with a
    panic. -/
structure Driver where
  refuse : (dev blockno : Nat) → Option String

/-- The driver of `memide.c`, for a disk of `disksize` blocks. -/
def memide (disksize : Nat) : Driver where
  refuse dev blockno :=
    if dev ≠ 1 then some "iderw: request not for disk 1"
    else if disksize ≤ blockno then some "iderw: block out of range"
    else none

variable (drv : Driver)

/-- Sync buf with disk. If B_DIRTY is set, write buf to disk, clear B_DIRTY, set
    B_VALID. Else if B_VALID is not set, read buf from disk, set B_VALID. -/
def iderw (p : Pid) (b : BufId) : Op Bcache Unit := do
  let c ← Op.get
  let x := c.buf b
  if x.lock ≠ some p then
    Op.panic "iderw: buf not locked"
  else if x.valid = true ∧ x.dirty = false then
    Op.panic "iderw: nothing to do"
  else
    match drv.refuse x.dev x.blockno with
    | some msg => Op.panic msg
    | none =>
      if x.dirty then
        Op.modify fun c => { c.setBuf b fun x => { x with dirty := false, valid := true } with
          disk := fun d k => if d = x.dev ∧ k = x.blockno then x.data else c.disk d k }
      else
        Op.modify fun c => c.setBuf b fun x =>
          { x with data := c.disk x.dev x.blockno, valid := true }

/-- `bread` once `bget` has returned. -/
def bread_fill (p : Pid) (b : BufId) : Op Bcache Unit := do
  let c ← Op.get
  if (c.buf b).valid = false then
    iderw drv p b
  else
    pure ()

/-- Write b's contents to disk. Must be locked. -/
def bwrite (p : Pid) (b : BufId) : Op Bcache Unit := do
  let c ← Op.get
  if (c.buf b).lock ≠ some p then
    Op.panic "bwrite"
  else
    Op.modify fun c => c.setBuf b fun x => { x with dirty := true }
    iderw drv p b

/-- What `log_write` does to the buffer: it prevents eviction. -/
def log_write (b : BufId) : Op Bcache Unit :=
  Op.modify fun c => c.setBuf b fun x => { x with dirty := true }

/-- The first half of `brelse`. -/
def brelse_unlock (p : Pid) (b : BufId) : Op Bcache Unit := do
  let c ← Op.get
  if (c.buf b).lock ≠ some p then
    Op.panic "brelse"
  else
    Op.modify fun c => c.setBuf b fun x => { x with lock := none }

/-- The critical section of `brelse`: the last reference moves the buffer to the
    head of the MRU list. -/
def brelse (b : BufId) : Op Bcache Unit :=
  Op.modify fun c =>
    let c := c.setBuf b fun x => { x with refcnt := x.refcnt - 1 }
    if (c.buf b).refcnt = 0 then
      { c with links := (c.links.unlink (some b)).insert none (some b) }
    else
      c

/-! ## The system -/

/-- What a process is doing. -/
inductive Pc where
  | idle
  /-- In `bget(dev, blockno)`, waiting for the lock of `b`. -/
  | waiting (b : BufId) (dev blockno : Nat)
  /-- In `brelse(b)`, between its two halves. -/
  | releasing (b : BufId)
deriving DecidableEq

/-- What the holder of a buffer has done with it. -/
inductive Phase where
  /-- `bget(dev, blockno)` has returned it. -/
  | unread (dev blockno : Nat)
  /-- Its contents are as `bread` returned them, or as they were last written. -/
  | clean
  /-- Its contents have been changed since. -/
  | changed
deriving DecidableEq

/-- The cache, the processes, and the history the properties refer to. -/
structure State where
  cache : Bcache
  pc : Pid → Pc
  phase : BufId → Phase
  /-- The buffers `bget` has ever returned. -/
  handed : BufId → Bool
  /-- How many times a reference count has gone to 0. -/
  clock : Nat
  /-- When the reference count of a buffer last went to 0; 0 is never. -/
  released : BufId → Nat

/-- A piece of a call of process `p`, with what it returns. -/
inductive Event where
  /-- `bget` has found or recycled `b`. -/
  | bget (p : Pid) (dev blockno : Nat) (b : BufId)
  /-- `bget` has got the lock and returns. -/
  | lock (p : Pid)
  /-- `bread(dev, blockno)` returns `b` with the contents `data`. -/
  | bread (p : Pid) (b : BufId) (dev blockno : Nat) (data : Block)
  /-- The contents of `b` are changed. -/
  | store (p : Pid) (b : BufId) (data : Block)
  /-- `bwrite(b)`, which is a copy of this block with these contents. -/
  | bwrite (p : Pid) (b : BufId) (dev blockno : Nat) (data : Block)
  /-- `log_write(b)`, likewise. -/
  | log_write (p : Pid) (b : BufId) (dev blockno : Nat) (data : Block)
  /-- `brelse(b)` lets go of the lock. -/
  | unlock (p : Pid) (b : BufId)
  /-- `brelse` drops the reference. -/
  | brelse (p : Pid)
deriving DecidableEq

/-- The state of the cache when `m` returns `a`. -/
def ends {α : Type} [DecidableEq α] (m : Op Bcache α) (a : α) (c : Bcache) : Option Bcache :=
  match m c with
  | .ok a' c' => if a' = a then some c' else none
  | .panic _ => none
  | .blocked => none

/-- The buffer is a copy of this block, with these contents. -/
def Bcache.shows (c : Bcache) (b : BufId) (dev blockno : Nat) (data : Block) : Bool :=
  decide ((c.buf b).dev = dev ∧ (c.buf b).blockno = blockno ∧ (c.buf b).data = data)

/-- The state after an event; `none` if the call does not return this, blocks
    or panics. A pointer to a buffer comes from `bget`. -/
def State.next (s : State) : Event → Option State
  | .bget p dev blockno b =>
    if s.pc p = .idle then
      (ends (Bio.bget dev blockno) b s.cache).map fun c => { s with
        cache := c
        pc := update s.pc p (.waiting b dev blockno)
        handed := update s.handed b true }
    else none
  | .lock p =>
    match s.pc p with
    | .waiting b dev blockno =>
      (ends (acquiresleep p b) () s.cache).map fun c => { s with
        cache := c
        pc := update s.pc p .idle
        phase := update s.phase b (.unread dev blockno) }
    | _ => none
  | .bread p b dev blockno data =>
    if s.pc p = .idle ∧ (s.cache.buf b).lock = some p ∧ s.phase b = .unread dev blockno then
      (ends (bread_fill drv p b) () s.cache).bind fun c =>
        if (c.buf b).data = data then
          some { s with cache := c, phase := update s.phase b .clean }
        else none
    else none
  | .store p b data =>
    if s.pc p = .idle ∧ s.handed b = true then
      some { s with
        cache := s.cache.setBuf b fun x => { x with data := data }
        phase := update s.phase b .changed }
    else none
  | .bwrite p b dev blockno data =>
    if s.pc p = .idle ∧ s.cache.shows b dev blockno data then
      (ends (Bio.bwrite drv p b) () s.cache).map fun c =>
        { s with cache := c, phase := update s.phase b .clean }
    else none
  | .log_write p b dev blockno data =>
    if s.pc p = .idle ∧ s.handed b = true ∧ s.cache.shows b dev blockno data then
      (ends (Bio.log_write b) () s.cache).map fun c =>
        { s with cache := c, phase := update s.phase b .clean }
    else none
  | .unlock p b =>
    if s.pc p = .idle then
      (ends (brelse_unlock p b) () s.cache).map fun c =>
        { s with cache := c, pc := update s.pc p (.releasing b) }
    else none
  | .brelse p =>
    match s.pc p with
    | .releasing b =>
      (ends (Bio.brelse b) () s.cache).map fun c =>
        if (c.buf b).refcnt = 0 then
          { s with
            cache := c
            pc := update s.pc p .idle
            clock := s.clock + 1
            released := update s.released b (s.clock + 1) }
        else
          { s with cache := c, pc := update s.pc p .idle }
    | _ => none

/-- After `binit`: all buffers are unused. -/
structure Initial (s : State) : Prop where
  links : s.cache.links = binit
  buf : ∀ b, (s.cache.buf b).valid = false ∧ (s.cache.buf b).dirty = false ∧
    (s.cache.buf b).dev = 0 ∧ (s.cache.buf b).blockno = 0 ∧ (s.cache.buf b).lock = none ∧
    (s.cache.buf b).refcnt = 0
  pc : ∀ p, s.pc p = .idle
  phase : ∀ b, s.phase b = .clean
  handed : ∀ b, s.handed b = false
  released : ∀ b, s.released b = 0

def bioSystem : LTS.System State Event where
  init := Initial
  next := State.next drv

/-! ## What the pieces do -/

variable {drv} {p : Pid} {b : BufId} {c c' : Bcache}

theorem ends_eq_some {α : Type} [DecidableEq α] {m : Op Bcache α} {a : α} {c c' : Bcache} :
    ends m a c = some c' ↔ m c = .ok a c' := by
  unfold ends
  cases m c with
  | ok a' c'' =>
    by_cases ha : a' = a
    · simp [ha]
    · simp [ha]
  | panic msg => simp
  | blocked => simp

/-- An event that needs `P` and ends with `m`. -/
theorem of_guarded_ends {α β : Type} [DecidableEq α] {P : Prop} [Decidable P] {m : Op Bcache α} {a : α}
    {f : Bcache → β} {x : β} (h : (if P then (ends m a c).map f else none) = some x) :
    P ∧ ∃ c', m c = .ok a c' ∧ f c' = x := by
  obtain ⟨hP, hmap⟩ := Option.ite_none_right_eq_some.mp h
  obtain ⟨c', hends, hx⟩ := Option.map_eq_some_iff.mp hmap
  exact ⟨hP, c', ends_eq_some.mp hends, hx⟩

/-- The driver writes a dirty buffer and reads one that is not valid. -/
theorem iderw_cases (h : iderw drv p b c = .ok () c') :
    (c.buf b).lock = some p ∧
      ((c.buf b).dirty = true ∧ c' = { c.setBuf b fun x => { x with dirty := false, valid := true } with
        disk := fun d k => if d = (c.buf b).dev ∧ k = (c.buf b).blockno then (c.buf b).data
          else c.disk d k } ∨
      (c.buf b).dirty = false ∧ (c.buf b).valid = false ∧ c' = c.setBuf b fun x =>
        { x with data := c.disk x.dev x.blockno, valid := true }) := by
  unfold iderw at h
  rw [Op.bind_of_ok (show Op.get c = .ok c c from rfl)] at h
  by_cases hlock : (c.buf b).lock = some p
  · rw [if_neg (not_not.mpr hlock)] at h
    split at h
    · cases h
    · next hdo =>
      cases hr : drv.refuse (c.buf b).dev (c.buf b).blockno with
      | some msg => rw [hr] at h; cases h
      | none =>
        rw [hr] at h
        refine ⟨hlock, ?_⟩
        cases hd : (c.buf b).dirty with
        | true =>
          rw [hd] at h
          cases h
          exact Or.inl ⟨rfl, rfl⟩
        | false =>
          rw [hd] at h
          cases h
          refine Or.inr ⟨rfl, ?_, rfl⟩
          cases hv : (c.buf b).valid with
          | false => rfl
          | true => exact absurd ⟨hv, hd⟩ hdo
  · rw [if_pos hlock] at h
    cases h

theorem bread_fill_cases (h : bread_fill drv p b c = .ok () c') :
    (c.buf b).valid = true ∧ c' = c ∨
      (c.buf b).valid = false ∧ iderw drv p b c = .ok () c' := by
  unfold bread_fill at h
  rw [Op.bind_of_ok (show Op.get c = .ok c c from rfl)] at h
  split at h
  · next hv => exact Or.inr ⟨hv, h⟩
  · next hv =>
    cases h
    exact Or.inl ⟨by simpa using hv, rfl⟩

/-- `bread` returns if the driver accepts the request. -/
theorem bread_fill_returns (hlock : (c.buf b).lock = some p)
    (hr : drv.refuse (c.buf b).dev (c.buf b).blockno = none) :
    ∃ c', bread_fill drv p b c = .ok () c' := by
  unfold bread_fill
  rw [Op.bind_of_ok (show Op.get c = .ok c c from rfl)]
  cases hv : (c.buf b).valid with
  | true => exact ⟨c, rfl⟩
  | false =>
    rw [if_pos rfl]
    unfold iderw
    rw [Op.bind_of_ok (show Op.get c = .ok c c from rfl), if_neg (not_not.mpr hlock),
      if_neg (by simp [hv]), hr]
    cases hd : (c.buf b).dirty with
    | true => exact ⟨_, rfl⟩
    | false => exact ⟨_, rfl⟩

/-- `bwrite` leaves the contents on disk. -/
theorem bwrite_cases (h : bwrite drv p b c = .ok () c') :
    (c.buf b).lock = some p ∧ c' = { c.setBuf b fun x => { x with dirty := false, valid := true } with
      disk := fun d k => if d = (c.buf b).dev ∧ k = (c.buf b).blockno then (c.buf b).data
        else c.disk d k } := by
  unfold bwrite at h
  rw [Op.bind_of_ok (show Op.get c = .ok c c from rfl)] at h
  split at h
  · cases h
  · next hlock =>
    have hrw : iderw drv p b (c.setBuf b fun x => { x with dirty := true }) = .ok () c' := h
    obtain ⟨_, hcase⟩ := iderw_cases hrw
    refine ⟨not_not.mp hlock, ?_⟩
    rcases hcase with ⟨_, heq⟩ | ⟨hd, _⟩
    · rw [heq]
      simp [Bcache.setBuf]
    · simp at hd

theorem acquiresleep_cases (h : acquiresleep p b c = .ok () c') :
    (c.buf b).lock = none ∧ c' = c.setBuf b fun x => { x with lock := some p } := by
  unfold acquiresleep at h
  rw [Op.bind_of_ok (show Op.get c = .ok c c from rfl)] at h
  cases hl : (c.buf b).lock with
  | none =>
    rw [hl] at h
    cases h
    exact ⟨rfl, rfl⟩
  | some q => rw [hl] at h; cases h

theorem brelse_unlock_cases (h : brelse_unlock p b c = .ok () c') :
    (c.buf b).lock = some p ∧ c' = c.setBuf b fun x => { x with lock := none } := by
  unfold brelse_unlock at h
  rw [Op.bind_of_ok (show Op.get c = .ok c c from rfl)] at h
  split at h
  · cases h
  · next hl =>
    cases h
    exact ⟨not_not.mp hl, rfl⟩

end Xv6.Bio
