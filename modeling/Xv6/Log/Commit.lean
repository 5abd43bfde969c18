import Xv6.Param
import Xv6.Framework.WriteSeq

/-! # Commit and crash recovery of the log (`log.c`)

    `commit` copies the blocks of a transaction into the log area, writes the
    header (the commit point), copies the blocks home, and erases the header.
    `recover_from_log` redoes the last two steps from whatever the disk holds.

    The model runs these functions over the buffers (`buf b` is what `bread`
    returns for block `b`) and records every `bwrite` in issue order. A crash
    keeps a prefix of the recorded writes and loses the buffers; the next
    boot starts from the disk alone.
-/

namespace Xv6.Log

open WriteSeq BitRange Function

abbrev Disk : Type := Nat → Block

/-! ## Model -/

/-- Buffer contents and the writes issued so far. -/
structure Machine where
  buf : Nat → Block
  out : List (Nat × Block)

/-- A freshly booted machine: every `bread` goes to the disk. -/
def boot (d : Disk) : Machine := { buf := d, out := [] }

/-- Change the data of one buffer in memory. -/
def Machine.setBuf (m : Machine) (b : Nat) (data : Block) : Machine :=
  { m with buf := update m.buf b data }

/-- `bwrite`: send a buffer's data to the disk. -/
def bwrite (m : Machine) (b : Nat) : Machine :=
  { m with out := m.out ++ [(b, m.buf b)] }

/-- Copy committed blocks from log to their home location;
    `lh` is the part of `log.lh.block` from `tail` on. -/
def install_trans (start : Nat) : (tail : Nat) → (lh : List (BitVec 32)) → Machine → Machine
  | _, [], m => m
  | tail, b :: lh, m =>
    let lbuf := m.buf (start + tail + 1)
    install_trans start (tail + 1) lh (bwrite (m.setBuf b.toNat lbuf) b.toNat)

/-- Copy modified blocks from cache to log. -/
def write_log (start : Nat) : (tail : Nat) → (lh : List (BitVec 32)) → Machine → Machine
  | _, [], m => m
  | tail, b :: lh, m =>
    let src := m.buf b.toNat
    write_log start (tail + 1) lh
      (bwrite (m.setBuf (start + tail + 1) src) (start + tail + 1))

/-- The header block's entries from index `i` on replaced by `lh`. -/
def setEntries (h : Block) : (i : Nat) → (lh : List (BitVec 32)) → Block
  | _, [] => h
  | i, b :: lh => setEntries (h.setWord (i + 1) b) (i + 1) lh

/-- `struct logheader` stored over the old contents of its block. -/
def setHead (h : Block) (lh : List (BitVec 32)) : Block :=
  setEntries (h.setWord 0 (BitVec.ofNat 32 lh.length)) 0 lh

/-- The block numbers a header block lists. -/
def getHead (h : Block) : List (BitVec 32) :=
  (List.range (h.word 0).toInt.toNat).map fun i => h.word (i + 1)

/-- Read the log header from disk into the in-memory log header. -/
def read_head (start : Nat) (m : Machine) : List (BitVec 32) := getHead (m.buf start)

/-- Write in-memory log header to disk. -/
def write_head (start : Nat) (lh : List (BitVec 32)) (m : Machine) : Machine :=
  bwrite (m.setBuf start (setHead (m.buf start) lh)) start

/-- `commit`. -/
def commit (start : Nat) (lh : List (BitVec 32)) (m : Machine) : Machine :=
  if lh.length > 0 then
    let m := write_log start 0 lh m
    let m := write_head start lh m
    let m := install_trans start 0 lh m
    write_head start [] m
  else m

/-- `recover_from_log`. -/
def recover_from_log (start : Nat) (m : Machine) : Machine :=
  let lh := read_head start m
  let m := install_trans start 0 lh m
  write_head start [] m

/-- The disk `d'` after the first recovery that completes, when any number
    of recoveries before it crash after any prefix of their writes. -/
inductive Recovers (start : Nat) : Disk → Disk → Prop where
  | done (d : Disk) : Recovers start d (apply (recover_from_log start (boot d)).out d)
  | again (d d' : Disk) (k : Nat) :
      Recovers start (crash (recover_from_log start (boot d)).out k d) d' → Recovers start d d'

/-- A transaction: distinct home blocks outside the log area
    `[start, start + size)`, as many as the header and the area can hold. -/
structure Transaction (start size : Nat) where
  lh : List (BitVec 32)
  nodup : lh.Nodup
  outside : ∀ b ∈ lh, b.toNat < start ∨ start + size ≤ b.toNat
  fits_header : lh.length ≤ LOGSIZE
  fits_area : lh.length < size

/-! ## The header block -/

theorem word_setEntries (h : Block) (lh : List (BitVec 32)) (i j : Nat)
    (hfit : i + lh.length < 128) :
    (setEntries h i lh).word j =
      if hj : i < j ∧ j ≤ i + lh.length then lh.get ⟨j - i - 1, by omega⟩ else h.word j := by
  induction lh generalizing h i with
  | nil => simp [setEntries]
  | cons b lh ih =>
    simp only [List.length_cons] at hfit ⊢
    rw [setEntries, ih _ _ (by omega)]
    by_cases h1 : i + 1 < j ∧ j ≤ i + 1 + lh.length
    · rw [dif_pos h1, dif_pos (by omega)]
      obtain ⟨m, rfl⟩ : ∃ m, j = i + 2 + m := ⟨j - (i + 2), by omega⟩
      have e1 : i + 2 + m - (i + 1) - 1 = m := by omega
      have e2 : i + 2 + m - i - 1 = m + 1 := by omega
      simp [e1, e2]
    · rw [dif_neg h1]
      by_cases h2 : j = i + 1
      · subst h2
        rw [dif_pos (by omega), Block.word_setWord_self _ _ (by omega)]
        simp
      · rw [dif_neg (by omega), Block.word_setWord_ne _ _ h2]

theorem word_zero_setHead (h : Block) (lh : List (BitVec 32)) (hfit : lh.length ≤ LOGSIZE) :
    (setHead h lh).word 0 = BitVec.ofNat 32 lh.length := by
  simp only [LOGSIZE, MAXOPBLOCKS] at hfit
  rw [setHead, word_setEntries _ _ _ _ (by omega), dif_neg (by omega),
    Block.word_setWord_self _ _ (by decide)]

theorem getHead_eq_nil {h : Block} (h0 : h.word 0 = 0) : getHead h = [] := by
  simp [getHead, h0]

theorem getHead_setHead (h : Block) (lh : List (BitVec 32)) (hfit : lh.length ≤ LOGSIZE) :
    getHead (setHead h lh) = lh := by
  have h0 := word_zero_setHead h lh hfit
  simp only [LOGSIZE, MAXOPBLOCKS] at hfit
  have hn : (BitVec.ofNat 32 lh.length).toInt.toNat = lh.length := by
    have hnat : (BitVec.ofNat 32 lh.length).toNat = lh.length := by
      rw [BitVec.toNat_ofNat, Nat.mod_eq_of_lt (by omega)]
    rw [BitVec.toInt_eq_toNat_of_lt (by omega), hnat, Int.toNat_natCast]
  rw [getHead, h0, hn]
  apply List.ext_getElem?
  intro i
  by_cases hi : i < lh.length
  · rw [List.getElem?_map, List.getElem?_range hi, Option.map_some, setHead,
      word_setEntries _ _ _ _ (by omega), dif_pos (by omega), List.getElem?_eq_getElem hi]
    simp
  · rw [List.getElem?_eq_none (by simpa using hi), List.getElem?_eq_none (by omega)]

/-! ## The writes each function issues -/

/-- The home writes of a transaction with new contents `new`. -/
def homeWrites (lh : List (BitVec 32)) (new : Nat → Block) : List (Nat × Block) :=
  lh.map fun b => (b.toNat, new b.toNat)

/-- The log-area writes of a transaction, from slot `tail` on. -/
def logWrites (start : Nat) : (tail : Nat) → (lh : List (BitVec 32)) → (Nat → Block) →
    List (Nat × Block)
  | _, [], _ => []
  | tail, b :: lh, new => (start + tail + 1, new b.toNat) :: logWrites start (tail + 1) lh new

@[simp] theorem length_logWrites (start tail : Nat) (lh : List (BitVec 32))
    (new : Nat → Block) : (logWrites start tail lh new).length = lh.length := by
  induction lh generalizing tail with
  | nil => rfl
  | cons b lh ih => simp [logWrites, ih]

theorem fst_mem_logWrites {start tail : Nat} {lh : List (BitVec 32)} {new : Nat → Block}
    {w : Nat × Block} (h : w ∈ logWrites start tail lh new) :
    start + tail < w.1 ∧ w.1 ≤ start + tail + lh.length := by
  induction lh generalizing tail with
  | nil => simp [logWrites] at h
  | cons b lh ih =>
    simp only [logWrites, List.mem_cons] at h
    simp only [List.length_cons]
    rcases h with rfl | h
    · exact ⟨by simp, by simp⟩
    · have := ih h
      omega

theorem logWrites_congr {start tail : Nat} {lh : List (BitVec 32)} {f g : Nat → Block}
    (h : ∀ b ∈ lh, f b.toNat = g b.toNat) :
    logWrites start tail lh f = logWrites start tail lh g := by
  induction lh generalizing tail with
  | nil => rfl
  | cons b lh ih =>
    simp only [logWrites, h b List.mem_cons_self]
    rw [ih fun c hc => h c (List.mem_cons_of_mem _ hc)]

section Writes

variable {start size : Nat} {lh : List (BitVec 32)}

/-- The log slots hold the new contents of the blocks listed in the header,
    from slot `tail` on. -/
def SlotsHold (start tail : Nat) (lh : List (BitVec 32)) (rd new : Nat → Block) : Prop :=
  ∀ i b, lh[i]? = some b → rd (start + tail + i + 1) = new b.toNat

theorem SlotsHold.cons {tail : Nat} {b : BitVec 32} {rd new : Nat → Block}
    (h : SlotsHold start tail (b :: lh) rd new) :
    rd (start + tail + 1) = new b.toNat ∧ SlotsHold start (tail + 1) lh rd new := by
  refine ⟨h 0 b rfl, ?_⟩
  intro i c hc
  have := h (i + 1) c (by simpa using hc)
  rwa [show start + tail + (i + 1) + 1 = start + (tail + 1) + i + 1 by omega] at this

/-- A change of blocks that are no log slots keeps the slots. -/
theorem SlotsHold.congr {tail : Nat} {rd rd' new : Nat → Block}
    (h : SlotsHold start tail lh rd new)
    (heq : ∀ a, start + tail < a → a ≤ start + tail + lh.length → rd' a = rd a) :
    SlotsHold start tail lh rd' new := by
  intro i b hb
  have hi : i < lh.length := (List.getElem?_eq_some_iff.mp hb).1
  rw [heq _ (by omega) (by omega)]
  exact h i b hb

theorem install_trans_out (m : Machine) (tail : Nat) (new : Nat → Block)
    (hslots : SlotsHold start tail lh m.buf new)
    (hout : ∀ b ∈ lh, b.toNat ≤ start + tail ∨ start + tail + lh.length < b.toNat) :
    (install_trans start tail lh m).out = m.out ++ homeWrites lh new := by
  induction lh generalizing tail m with
  | nil => simp [install_trans, homeWrites]
  | cons b lh ih =>
    obtain ⟨h0, hrest⟩ := hslots.cons
    simp only [List.length_cons, List.mem_cons, forall_eq_or_imp] at hout
    unfold install_trans
    rw [ih]
    · simp [bwrite, Machine.setBuf, homeWrites, h0]
    · -- the home block just overwritten is not one of the slots still to be read
      apply hrest.congr
      intro a ha ha'
      have : a ≠ b.toNat := by omega
      simp [bwrite, Machine.setBuf, this]
    · intro c hc
      have := hout.2 c hc
      omega

theorem write_log_out (m : Machine) (tail : Nat)
    (hout : ∀ b ∈ lh, b.toNat ≤ start + tail ∨ start + tail + lh.length < b.toNat) :
    (write_log start tail lh m).out = m.out ++ logWrites start tail lh m.buf := by
  induction lh generalizing tail m with
  | nil => simp [write_log, logWrites]
  | cons b lh ih =>
    simp only [List.length_cons, List.mem_cons, forall_eq_or_imp] at hout
    unfold write_log
    rw [ih]
    · have hrest : logWrites start (tail + 1) lh
          (update m.buf (start + tail + 1) (m.buf b.toNat)) =
            logWrites start (tail + 1) lh m.buf := by
        apply logWrites_congr
        intro c hc
        have := hout.2 c hc
        exact update_of_ne (by omega) _ _
      simp [bwrite, Machine.setBuf, logWrites, hrest]
    · intro c hc
      have := hout.2 c hc
      omega

/-- After `write_log` the buffers of the log slots hold the new contents. -/
theorem write_log_slots (m : Machine) (tail : Nat)
    (hout : ∀ b ∈ lh, b.toNat ≤ start + tail ∨ start + tail + lh.length < b.toNat) :
    SlotsHold start tail lh (write_log start tail lh m).buf m.buf ∧
      ∀ a, a ≤ start + tail → (write_log start tail lh m).buf a = m.buf a := by
  induction lh generalizing tail m with
  | nil =>
    refine ⟨?_, fun a _ => rfl⟩
    intro i b hb
    simp at hb
  | cons b lh ih =>
    simp only [List.length_cons, List.mem_cons, forall_eq_or_imp] at hout
    unfold write_log
    obtain ⟨hslots, hlow⟩ := ih
      (bwrite (m.setBuf (start + tail + 1) (m.buf b.toNat)) (start + tail + 1)) (tail + 1)
      (fun c hc => by have := hout.2 c hc; omega)
    constructor
    · intro i c hc
      cases i with
      | zero =>
        simp only [List.getElem?_cons_zero, Option.some.injEq] at hc
        subst hc
        rw [hlow _ (by omega)]
        simp [bwrite, Machine.setBuf]
      | succ i =>
        simp only [List.getElem?_cons_succ] at hc
        have hmem : c ∈ lh := List.mem_of_getElem? hc
        have := hslots i c hc
        rw [show start + tail + (i + 1) + 1 = start + (tail + 1) + i + 1 by omega, this]
        have hne : c.toNat ≠ start + tail + 1 := by have := hout.2 c hmem; omega
        simp [bwrite, Machine.setBuf, hne]
    · intro a ha
      have hne : a ≠ start + tail + 1 := by omega
      rw [hlow a (by omega)]
      simp [bwrite, Machine.setBuf, hne]

end Writes

end Xv6.Log
