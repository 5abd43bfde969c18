import Xv6.Framework.RingBuffer

/-! # The kernel flight recorder (`klog.c`)

    `klog_add` stamps an event with a free-running counter and writes it into
    a ring of `KLOG_SIZE` entries. `klog_getlogs` copies the most recent
    entries to user space and `klog_dump` prints all of them on the console.

    The recorder refines its history: after any number of calls, the ring is
    the tail of the list of all events ever added. The invariant `Recorded`
    ties `head`, `count` and `ticks` to the length of that list and the slots
    to its last `KLOG_SIZE` items.
-/

namespace Xv6

open RingBuffer

/-! ## State -/

/-- Number of log entries to keep. -/
def KLOG_SIZE : Nat := 128

/-- `struct logentry`. -/
structure LogEntry where
  timestamp : UInt32
  event_type : Int32
  pid : Int32
  extra : Int32
  deriving DecidableEq, Repr, Inhabited

/-- The arguments of one `klog_add` call. -/
structure Event where
  type : Int32
  pid : Int32
  extra : Int32
  deriving DecidableEq, Repr

/-- The global `klog`, less its spinlock. -/
structure Klog where
  entries : Vector LogEntry KLOG_SIZE
  /-- Next write position. -/
  head : Nat
  /-- Number of entries. -/
  count : Nat
  /-- System uptime counter. -/
  ticks : UInt32
  head_lt : head < KLOG_SIZE
  count_le : count ≤ KLOG_SIZE

/-- The array slot C's `x % KLOG_SIZE` selects. -/
def Klog.slot (x : Int) : Fin KLOG_SIZE :=
  ⟨(x.tmod KLOG_SIZE).toNat, by
    have := Int.tmod_lt_of_pos x (show (0 : Int) < KLOG_SIZE by decide)
    have : 0 < KLOG_SIZE := by decide
    omega⟩

theorem Klog.slot_natCast (n : Nat) : (Klog.slot n).val = n % KLOG_SIZE := by
  simp only [Klog.slot, ← Int.ofNat_tmod, Int.toNat_natCast]

/-! ## Operations -/

/-- `klog_init`: the entries are left as they are. -/
def klog_init (k : Klog) : Klog :=
  { k with head := 0, count := 0, ticks := 0,
           head_lt := by decide, count_le := by decide }

/-- `klog_add`, its critical section as one step. -/
def klog_add (k : Klog) (ev : Event) : Klog where
  entries := k.entries.set k.head
    { timestamp := k.ticks, event_type := ev.type, pid := ev.pid, extra := ev.extra }
    k.head_lt
  head := (k.head + 1) % KLOG_SIZE
  count := if k.count < KLOG_SIZE then k.count + 1 else k.count
  ticks := k.ticks + 1
  head_lt := Nat.mod_lt _ (by decide)
  count_le := by have := k.count_le; split <;> omega

/-- The copy loop shared by `klog_dump` and `klog_getlogs`: `n` entries
    from slot `start` on. -/
def Klog.walk (k : Klog) (start n : Int) : List LogEntry :=
  (List.range n.toNat).map fun (i : Nat) => k.entries[Klog.slot (start + i)]

/-- The entries `klog_dump` prints, in order. -/
def klog_dump_walk (k : Klog) : List LogEntry :=
  let start := ((k.head : Int) - k.count + KLOG_SIZE).tmod KLOG_SIZE
  k.walk start k.count

/-- One line of `klog_dump`; every field goes through `%d`. -/
def LogEntry.line (e : LogEntry) : String :=
  s!"[{e.timestamp.toInt32}] type={e.event_type} pid={e.pid} extra={e.extra}\n"

/-- `klog_dump`: the console output. -/
def klog_dump (k : Klog) : List String :=
  "\n=== KERNEL LOG DUMP ===\n" :: (klog_dump_walk k).map LogEntry.line

/-- What one `klog_getlogs` call does: the number of entries it settles on,
    the contents of `temp`, the length handed to `copyout`, and its result. -/
structure GetLogs where
  n : Int
  temp : List LogEntry
  len : BitVec 32
  ret : Int

/-- `klog_getlogs`. The user page table is not part of the recorder, so the
    outcome of `copyout` on the gathered entries is a parameter. -/
def klog_getlogs (copyout : List LogEntry → BitVec 32 → Int) (k : Klog) (max : Int) :
    GetLogs :=
  let n₀ : Int := if (k.count : Int) < max then k.count else max
  let n := if n₀ > 256 then 256 else n₀
  let start := ((k.head : Int) - n + KLOG_SIZE).tmod KLOG_SIZE
  let temp := k.walk start n
  let len := BitVec.ofInt 32 (n * 16)
  { n, temp, len, ret := if copyout temp len < 0 then -1 else n }

/-! ## The history and the invariant -/

/-- The entries a sequence of `klog_add` calls produces: the `i`-th call
    is stamped `i mod 2^32`. -/
def recorded (evs : List Event) : List LogEntry :=
  evs.mapIdx fun i ev =>
    { timestamp := UInt32.ofNat i, event_type := ev.type, pid := ev.pid, extra := ev.extra }

@[simp] theorem length_recorded (evs : List Event) :
    (recorded evs).length = evs.length := by
  simp [recorded]

theorem recorded_append (evs : List Event) (ev : Event) :
    recorded (evs ++ [ev]) = recorded evs ++
      [{ timestamp := UInt32.ofNat evs.length, event_type := ev.type,
         pid := ev.pid, extra := ev.extra }] := by
  simp [recorded, List.mapIdx_append]

/-- The ring is the tail of the history `evs`. -/
structure Recorded (k : Klog) (evs : List Event) : Prop where
  head_eq : k.head = evs.length % KLOG_SIZE
  count_eq : k.count = min evs.length KLOG_SIZE
  ticks_eq : k.ticks = UInt32.ofNat evs.length
  holds : Holds KLOG_SIZE (recorded evs) (fun j => k.entries[Klog.slot j])

theorem recorded_init (k : Klog) : Recorded (klog_init k) [] where
  head_eq := rfl
  count_eq := rfl
  ticks_eq := rfl
  holds := holds_nil _

variable {evs : List Event} {k : Klog}

/-- One `klog_add` extends the history by its event. -/
theorem recorded_add (h : Recorded k evs) (ev : Event) :
    Recorded (klog_add k ev) (evs ++ [ev]) where
  head_eq := by simp [klog_add, h.head_eq]
  count_eq := by
    have := h.count_eq
    simp only [klog_add, List.length_append, List.length_singleton]
    split <;> omega
  ticks_eq := by
    simp [klog_add, h.ticks_eq, UInt32.ofNat_add]
  holds := by
    rw [recorded_append]
    apply h.holds.push
    · simp only [klog_add, length_recorded, Fin.getElem_fin, Klog.slot_natCast,
        ← h.head_eq, Nat.mod_eq_of_lt k.head_lt, Vector.getElem_set_self, h.ticks_eq]
    · intro j hj hne
      rw [length_recorded, ← h.head_eq] at hne
      simp only [klog_add, Fin.getElem_fin, Klog.slot_natCast, Nat.mod_eq_of_lt hj]
      exact Vector.getElem_set_ne _ _ hne.symm

/-- The invariant holds after every sequence of `klog_add` calls. -/
theorem recorded_run (k : Klog) (evs : List Event) :
    Recorded (evs.foldl klog_add (klog_init k)) evs := by
  induction evs using List.reverseRecOn with
  | nil => exact recorded_init k
  | append_singleton evs ev ih =>
    rw [List.foldl_append]
    exact recorded_add ih ev

/-! ## Reading the recorder -/

/-- A walk over `n` entries that starts `n` before `head` returns the last
    `n` events. Both readers use it, with their own `n`. -/
theorem Klog.walk_eq_lastN (h : Recorded k evs) {n : Nat} (hn : n ≤ k.count) :
    k.walk (((k.head : Int) - n + KLOG_SIZE).tmod KLOG_SIZE) n = lastN n (recorded evs) := by
  have hcount := h.count_eq
  have hhead := h.head_eq
  have hsize : KLOG_SIZE = 128 := rfl
  obtain ⟨start, hstart⟩ : ∃ start : Nat,
      ((k.head : Int) - n + KLOG_SIZE).tmod KLOG_SIZE = start ∧
        start % KLOG_SIZE = (evs.length - n) % KLOG_SIZE := by
    refine ⟨(k.head + KLOG_SIZE - n) % KLOG_SIZE, ?_, ?_⟩
    · rw [show (k.head : Int) - n + KLOG_SIZE = ((k.head + KLOG_SIZE - n : Nat) : Int) by omega,
        ← Int.ofNat_tmod]
    · rw [hsize] at hhead ⊢; omega
  rw [hstart.1, Klog.walk, Int.toNat_natCast,
    ← h.holds.read_eq_lastN (by simp; omega) (by omega) start (by simpa using hstart.2)]
  apply List.map_congr_left
  intro i _
  simp only [← Nat.cast_add, Fin.getElem_fin, Klog.slot_natCast, Nat.mod_mod]

/-- The number of entries `klog_getlogs` settles on. -/
theorem getlogs_n (h : Recorded k evs) (copyout : List LogEntry → BitVec 32 → Int) (max : Nat) :
    (klog_getlogs copyout k max).n = (min (min evs.length KLOG_SIZE) max : Nat) := by
  have hcount := h.count_eq
  have hsize : KLOG_SIZE = 128 := rfl
  simp only [klog_getlogs]
  split <;> split <;> omega

/-- The entries `klog_getlogs` gathers. -/
theorem getlogs_temp (h : Recorded k evs) (copyout : List LogEntry → BitVec 32 → Int) (max : Nat) :
    (klog_getlogs copyout k max).temp =
      lastN (min (min evs.length KLOG_SIZE) max) (recorded evs) := by
  have hcount := h.count_eq
  rw [← Klog.walk_eq_lastN h (by omega), ← getlogs_n h copyout max]
  rfl

/-- **Flight recorder refinement.** After any sequence of `klog_add` calls,
    `klog_getlogs` gathers exactly the last `n` events, oldest first, hands
    them to `copyout` and reports `n` (or `-1` when the copy fails); the
    `i`-th event carries timestamp `i mod 2^32`; and `klog_dump` walks the
    list `klog_getlogs` gathers with `max = KLOG_SIZE`. -/
theorem flight_recorder_refines (k₀ : Klog) (evs : List Event) (max : Nat)
    (copyout : List LogEntry → BitVec 32 → Int) :
    let k := evs.foldl klog_add (klog_init k₀)
    let n := min (min evs.length KLOG_SIZE) max
    let r := klog_getlogs copyout k max
    r.temp = lastN n (recorded evs) ∧ r.temp.length = n ∧ r.n = n ∧
    r.len = BitVec.ofNat 32 (16 * n) ∧
    r.ret = (if copyout r.temp r.len < 0 then -1 else (n : Int)) ∧
    (∀ (i : Nat) (ev : Event), evs[i]? = some ev → (recorded evs)[i]? = some
      ({ timestamp := UInt32.ofNat (i % 2 ^ 32), event_type := ev.type,
         pid := ev.pid, extra := ev.extra } : LogEntry)) ∧
    klog_dump_walk k = (klog_getlogs copyout k KLOG_SIZE).temp := by
  intro k n r
  have h : Recorded k evs := recorded_run k₀ evs
  have hn : r.n = n := getlogs_n h copyout max
  have htemp : r.temp = lastN n (recorded evs) := getlogs_temp h copyout max
  have hcount := h.count_eq
  refine ⟨htemp, ?_, hn, ?_, ?_, ?_, ?_⟩
  · rw [htemp, length_lastN, length_recorded]
    omega
  · have : r.len = BitVec.ofInt 32 (r.n * 16) := rfl
    rw [this, hn, ← BitVec.ofInt_natCast]
    congr 1
    push_cast
    ring
  · have : r.ret = if copyout r.temp r.len < 0 then -1 else r.n := rfl
    rw [this, hn]
  · intro i ev hev
    simp [recorded, List.getElem?_mapIdx, hev, ← UInt32.toNat_inj]
  · rw [getlogs_temp h, klog_dump_walk, Klog.walk_eq_lastN h le_rfl]
    congr 1
    omega

/-! ## Exporting a bounded prefix -/

/-- The recorder before `klog_init`. -/
def klog_bss : Klog := ⟨Vector.replicate _ default, 0, 0, 0, by decide, by decide⟩

/-- A call exports what it has gathered: its result is a number of recorded
    entries or `-1`, and `copyout` is given the bytes of `temp` and no others. -/
def GetLogs.Bounded (r : GetLogs) (k : Klog) : Prop :=
  (r.ret = -1 ∨ 0 ≤ r.ret ∧ r.ret ≤ min k.count KLOG_SIZE) ∧
    r.len.toNat = 16 * r.temp.length

theorem getlogs_bounded_of_nonneg (h : Recorded k evs) (copyout : List LogEntry → BitVec 32 → Int)
    (max : Nat) : (klog_getlogs copyout k max).Bounded k := by
  have hn := getlogs_n h copyout max
  have hlen : (klog_getlogs copyout k max).temp.length = min (min evs.length KLOG_SIZE) max := by
    rw [getlogs_temp h, length_lastN, length_recorded]
    omega
  have hcount := h.count_eq
  have hsize : KLOG_SIZE = 128 := rfl
  have hret : (klog_getlogs copyout k max).ret = if copyout (klog_getlogs copyout k max).temp
      (klog_getlogs copyout k max).len < 0 then -1 else (klog_getlogs copyout k max).n := rfl
  refine ⟨?_, ?_⟩
  · rw [hret, hn]
    split
    · exact Or.inl rfl
    · right
      omega
  · show (BitVec.ofInt 32 ((klog_getlogs copyout k max).n * 16)).toNat = _
    rw [hn, hlen, BitVec.toNat_ofInt]
    omega

/-- With a negative `max` nothing is gathered, but `n` stays negative. -/
theorem getlogs_of_neg (k : Klog) (copyout : List LogEntry → BitVec 32 → Int) {max : Int}
    (hneg : max < 0) :
    (klog_getlogs copyout k max).temp = [] ∧
    (klog_getlogs copyout k max).len = BitVec.ofInt 32 (max * 16) ∧
    (klog_getlogs copyout k max).ret =
      if copyout [] (BitVec.ofInt 32 (max * 16)) < 0 then -1 else max := by
  have hn₀ : ¬ (k.count : Int) < max := by omega
  have hn : ¬ max > 256 := by omega
  have hwalk : ∀ start, k.walk start max = [] := by
    intro start
    simp [Klog.walk, show max.toNat = 0 by omega]
  simp only [klog_getlogs, if_neg hn₀, if_neg hn, hwalk, and_self]

/-- `klog_getlogs` exports a bounded prefix of what it has gathered exactly
    when `max` is not negative. (Copying no bytes never fails.) -/
theorem getlogs_bounded_iff (k₀ : Klog) (evs : List Event) (max : Int32)
    (copyout : List LogEntry → BitVec 32 → Int) (hcopy : ∀ temp, 0 ≤ copyout temp 0) :
    (klog_getlogs copyout (evs.foldl klog_add (klog_init k₀)) max.toInt).Bounded
      (evs.foldl klog_add (klog_init k₀)) ↔ 0 ≤ max.toInt := by
  have h := recorded_run k₀ evs
  constructor
  · intro hbounded
    by_contra hneg
    obtain ⟨htemp, hlen, hret⟩ :=
      getlogs_of_neg (evs.foldl klog_add (klog_init k₀)) copyout (not_le.mp hneg)
    have hzero := hbounded.2
    rw [htemp, List.length_nil, Nat.mul_zero] at hzero
    -- no bytes are copied: `n` is a multiple of `2^28`, and the copy succeeds
    have hzero' := BitVec.eq_of_toNat_eq (y := 0) hzero
    rw [hlen] at hzero'
    rw [hzero', if_neg (not_lt.mpr (hcopy []))] at hret
    have hmod := congrArg BitVec.toNat hzero'
    rw [BitVec.toNat_ofInt] at hmod
    change _ = 0 at hmod
    rcases hbounded.1 with hr | hr <;> omega
  · intro hnonneg
    obtain ⟨n, hn⟩ := Int.eq_ofNat_of_zero_le hnonneg
    rw [hn]
    exact getlogs_bounded_of_nonneg h copyout n

theorem getlogs_bounded_iff_one :
    (klog_getlogs (fun _ _ => 0) (klog_add (klog_init klog_bss) ⟨1, 1, 0⟩) 1).Bounded
      (klog_add (klog_init klog_bss) ⟨1, 1, 0⟩) :=
  (getlogs_bounded_iff klog_bss [⟨1, 1, 0⟩] 1 (fun _ _ => 0) fun _ => le_rfl).mpr (by decide)

/-- With `max = -1` nothing is stored into `temp`, and `copyout` is told to
    copy almost 4 GB from there. -/
theorem getlogs_unbounded_neg_one :
    (klog_getlogs (fun _ _ => -1) (klog_init klog_bss) (-1)).temp = [] ∧
    (klog_getlogs (fun _ _ => -1) (klog_init klog_bss) (-1)).len = 0xfffffff0#32 ∧
    ¬ (klog_getlogs (fun _ _ => -1) (klog_init klog_bss) (-1)).Bounded (klog_init klog_bss) := by
  have htemp : (klog_getlogs (fun _ _ => -1) (klog_init klog_bss) (-1)).temp = [] := rfl
  have hlen : (klog_getlogs (fun _ _ => -1) (klog_init klog_bss) (-1)).len = 0xfffffff0#32 := by
    decide
  refine ⟨htemp, hlen, fun hbounded => ?_⟩
  have hbytes := hbounded.2
  rw [htemp, hlen] at hbytes
  cases hbytes

end Xv6
