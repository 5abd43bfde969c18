import Xv6.Param
import Xv6.Framework.RingBuffer

/-! # The buffer of a pipe

    `struct pipe` without its lock. `nread` and `nwrite` are free-running
    32-bit counters; the buffer holds the bytes between them. Histories record
    what has been stored and what each process has taken, so `Pipe.Ok` can say
    that the counters count those bytes modulo `2^32` and that the buffer is a
    window of the history.
-/

namespace Xv6.Kern

open RingBuffer Function

/-- `PIPESIZE` of `pipe.c`. -/
abbrev PIPESIZE : Nat := 512

/-- `struct pipe`. -/
structure Pipe where
  /-- The first `PIPESIZE` entries are the buffer. -/
  data : Nat → Byte
  nread : BitVec 32
  nwrite : BitVec 32
  readopen : Bool
  writeopen : Bool
  /-- History: the bytes stored by writers. -/
  stored : List Byte
  /-- History: the bytes delivered to readers, and to whom. -/
  taken : List (Fin NPROC × Byte)

namespace Pipe

/-- The pipe after `pipealloc`; the buffer is a page that may hold anything. -/
def alloc (data : Nat → Byte) : Pipe := ⟨data, 0, 0, true, true, [], []⟩

/-- The bytes delivered to readers. -/
def delivered (p : Pipe) : List Byte := p.taken.map Prod.snd

/-- The bytes delivered to process `q`. -/
def takenBy (p : Pipe) (q : Fin NPROC) : List Byte := (p.taken.filter (·.1 = q)).map Prod.snd

/-- `p->nwrite == p->nread + PIPESIZE` -/
def full (p : Pipe) : Bool := p.nwrite == p.nread + BitVec.ofNat 32 PIPESIZE

/-- `p->nread == p->nwrite` -/
def empty (p : Pipe) : Bool := p.nread == p.nwrite

/-- `p->data[p->nwrite++ % PIPESIZE] = b` -/
def store (p : Pipe) (b : Byte) : Pipe :=
  { p with
    data := update p.data (p.nwrite.toNat % PIPESIZE) b
    nwrite := p.nwrite + 1
    stored := p.stored ++ [b] }

/-- `p->data[p->nread % PIPESIZE]` -/
def front (p : Pipe) : Byte := p.data (p.nread.toNat % PIPESIZE)

/-- `p->nread++`, process `q` having copied the byte. -/
def advance (p : Pipe) (q : Fin NPROC) : Pipe :=
  { p with
    nread := p.nread + 1
    taken := p.taken ++ [(q, p.front)] }

/-- The bytes in the buffer, oldest first. -/
def buffered (p : Pipe) : List Byte :=
  (List.range (p.nwrite - p.nread).toNat).map fun j => p.data ((p.nread.toNat + j) % PIPESIZE)

/-- The counters count, and the buffer holds what is not delivered yet. -/
structure Ok (p : Pipe) : Prop where
  nwrite : p.nwrite = BitVec.ofNat 32 p.stored.length
  nread : p.nread = BitVec.ofNat 32 p.delivered.length
  front : p.delivered <+: p.stored
  space : p.stored.length ≤ p.delivered.length + PIPESIZE
  ring : Holds PIPESIZE p.stored p.data

variable {p : Pipe} {q : Fin NPROC}

@[simp] theorem delivered_advance : (p.advance q).delivered = p.delivered ++ [p.front] := by
  simp [advance, delivered]

theorem ok_alloc (data : Nat → Byte) : (alloc data).Ok :=
  ⟨rfl, rfl, List.prefix_rfl, by simp [alloc], holds_nil data⟩

namespace Ok

/-- The number of bytes in the buffer, whether or not a counter has wrapped
    around. -/
theorem count (h : p.Ok) : (p.nwrite - p.nread).toNat = p.stored.length - p.delivered.length := by
  have hle := h.front.length_le
  have hsp := h.space
  simp only [PIPESIZE] at hsp
  rw [h.nwrite, h.nread, BitVec.toNat_sub]
  simp only [BitVec.toNat_ofNat]
  omega

theorem empty_iff (h : p.Ok) : p.empty = true ↔ p.delivered = p.stored := by
  have hle := h.front.length_le
  have hsp := h.space
  simp only [PIPESIZE] at hsp
  unfold empty
  rw [beq_iff_eq, h.nwrite, h.nread]
  constructor
  · intro heq
    have hlen := congrArg BitVec.toNat heq
    simp only [BitVec.toNat_ofNat] at hlen
    exact h.front.eq_of_length (by omega)
  · intro heq
    rw [heq]

theorem full_iff (h : p.Ok) :
    p.full = true ↔ p.stored.length = p.delivered.length + PIPESIZE := by
  have hle := h.front.length_le
  have hsp := h.space
  simp only [PIPESIZE] at hsp
  unfold full
  rw [beq_iff_eq, h.nwrite, h.nread, ← BitVec.ofNat_add]
  simp only [PIPESIZE]
  constructor
  · intro heq
    have hlen := congrArg BitVec.toNat heq
    simp only [BitVec.toNat_ofNat] at hlen
    omega
  · intro heq
    rw [heq]

/-- A counter and what it counts lead to the same place in the buffer. -/
theorem index (n : Nat) : (BitVec.ofNat 32 n).toNat % PIPESIZE = n % PIPESIZE := by
  rw [BitVec.toNat_ofNat]
  exact Nat.mod_mod_of_dvd n (by decide)

theorem store (h : p.Ok) (hfull : p.full = false) (b : Byte) : (p.store b).Ok := by
  have hne : ¬ p.stored.length = p.delivered.length + PIPESIZE := by
    rw [← h.full_iff, hfull]
    simp
  have hsp := h.space
  refine ⟨?_, h.nread, h.front.trans (List.prefix_append _ _), ?_, ?_⟩
  · show p.nwrite + 1 = _
    rw [h.nwrite, Pipe.store, List.length_append, BitVec.ofNat_add]
    rfl
  · show (p.stored ++ [b]).length ≤ p.delivered.length + PIPESIZE
    rw [List.length_append, List.length_singleton]
    omega
  · refine h.ring.push b ?_ fun j _ hj => ?_
    · show update p.data (p.nwrite.toNat % PIPESIZE) b _ = b
      rw [h.nwrite, index, update_self]
    · show update p.data (p.nwrite.toNat % PIPESIZE) b j = _
      rw [h.nwrite, index, update_of_ne hj]

/-- The byte at the front is the first that has not been delivered. -/
theorem front_eq (h : p.Ok) (hempty : p.empty = false) :
    p.stored[p.delivered.length]? = some p.front := by
  have hne : p.delivered ≠ p.stored := by
    intro heq
    rw [h.empty_iff.mpr heq] at hempty
    cases hempty
  have hlt : p.delivered.length < p.stored.length :=
    lt_of_le_of_ne h.front.length_le fun heq => hne (h.front.eq_of_length heq)
  rw [List.getElem?_eq_getElem hlt]
  have := h.ring _ _ (List.getElem?_eq_getElem hlt) h.space
  rw [← this, Pipe.front, h.nread, index]

theorem advance (h : p.Ok) (hempty : p.empty = false) (q : Fin NPROC) : (p.advance q).Ok := by
  have hfront := h.front_eq hempty
  have hsp := h.space
  refine ⟨h.nwrite, ?_, ?_, ?_, h.ring⟩
  · show p.nread + 1 = _
    rw [h.nread, delivered_advance, List.length_append, BitVec.ofNat_add]
    rfl
  · obtain ⟨rest, hrest⟩ := h.front
    rw [delivered_advance]
    show p.delivered ++ [p.front] <+: p.stored
    rw [← hrest] at hfront ⊢
    rw [List.getElem?_append_right le_rfl, Nat.sub_self] at hfront
    cases rest with
    | nil => cases hfront
    | cons b rest =>
      cases hfront
      exact ⟨rest, by simp⟩
  · rw [delivered_advance, List.length_append]
    exact hsp.trans (by simp)

/-- What has been delivered and what is in the buffer is what has been
    stored. -/
theorem delivered_append_buffered (h : p.Ok) : p.delivered ++ p.buffered = p.stored := by
  have hle := h.front.length_le
  have hsp := h.space
  have hread := h.ring.read_eq_lastN (n := p.stored.length - p.delivered.length) (by omega)
    (by simp only [PIPESIZE] at hsp ⊢; omega) p.nread.toNat (by
      rw [h.nread, index]
      congr 1
      omega)
  unfold buffered
  rw [h.count, hread, lastN]
  obtain ⟨rest, hrest⟩ := h.front
  rw [← hrest]
  have hlen : (p.delivered ++ rest).length - ((p.delivered ++ rest).length - p.delivered.length) =
      p.delivered.length := by
    simp
  rw [hlen, List.drop_left]

end Ok

end Pipe

end Xv6.Kern
