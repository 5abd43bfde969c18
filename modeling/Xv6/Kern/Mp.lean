import Xv6.Param
import Xv6.Framework.Op

/-! # The multiprocessor table (`mp.c`)

    `mpinit` looks for the table the BIOS has left in memory and takes from it
    the processors and the I/O APIC. The table is a header, `struct mpconf`,
    followed by entries whose first byte is their type and determines their
    size.

    The scan is a loop without an increment: each case of the switch moves `p`
    past its entry. The case for an unknown type only notes that the machine
    is unsuitable, and its `break` leaves the switch, not the loop.

    Memory is physical memory as the kernel sees it from `P2V(0)` on;
    addresses are not reduced, so a table does not wrap around.
-/

namespace Xv6.Mp

/-! ## The code -/

/-- Maximum number of CPUs. -/
abbrev NCPU : Nat := 8

/-- Table entry types. -/
def MPPROC : Byte := 0x00
def MPBUS : Byte := 0x01
def MPIOAPIC : Byte := 0x02
def MPIOINTR : Byte := 0x03
def MPLINTR : Byte := 0x04

/-- `sizeof(struct mp)`, `sizeof(struct mpconf)`, `sizeof(struct mpproc)` and
    `sizeof(struct mpioapic)`. -/
abbrev sizeofMp : Nat := 16
abbrev sizeofMpconf : Nat := 44
abbrev sizeofMpproc : Nat := 20
abbrev sizeofMpioapic : Nat := 8

/-- Physical memory. -/
abbrev Memory : Type := Nat → Byte

variable (mem : Memory)

/-- The `n` bytes at `addr`. -/
def bytesAt (addr n : Nat) : List Byte := (List.range n).map fun i => mem (addr + i)

/-- A little-endian number of `n` bytes. -/
def number (addr n : Nat) : Nat := littleEndian (bytesAt mem addr n)

/-- The sum of `len` bytes, as a `uchar`. -/
def sum (addr len : Nat) : Byte := (bytesAt mem addr len).foldl (· + ·) 0

/-- `"_MP_"` and `"PCMP"`. -/
def signatureMp : List Byte := [0x5f, 0x4d, 0x50, 0x5f]
def signaturePcmp : List Byte := [0x50, 0x43, 0x4d, 0x50]

/-- Look for an MP structure in the `len` bytes at `a`. -/
def mpsearch1 (a len : Nat) : Option Nat :=
  ((List.range ((len + sizeofMp - 1) / sizeofMp)).map fun i => a + sizeofMp * i).find? fun p =>
    bytesAt mem p 4 = signatureMp ∧ sum mem p sizeofMp = 0

/-- Search for the MP Floating Pointer Structure: in the first KB of the EBDA,
    in the last KB of system base memory, in the BIOS ROM. -/
def mpsearch : Option Nat :=
  let ebda := number mem (0x400 + 0x0E) 2 * 2 ^ 4
  let base := number mem (0x400 + 0x13) 2 * 1024
  let mp := if ebda ≠ 0 then mpsearch1 mem ebda 1024
    else mpsearch1 mem ((base + 2 ^ 32 - 1024) % 2 ^ 32) 1024
  mp.or (mpsearch1 mem 0xF0000 0x10000)

/-- `mp->physaddr` and `mp->imcrp`. -/
def physaddr (mp : Nat) : Nat := number mem (mp + 4) 4
def imcrp (mp : Nat) : Byte := mem (mp + 12)

/-- `conf->length`, `conf->version` and `conf->lapicaddr`. -/
def length (conf : Nat) : Nat := number mem (conf + 4) 2
def version (conf : Nat) : Byte := mem (conf + 6)
def lapicaddr (conf : Nat) : Nat := number mem (conf + 36) 4

/-- Search for an MP configuration table, and check it. -/
def mpconfig : Option (Nat × Nat) := do
  let mp ← mpsearch mem
  if physaddr mem mp = 0 then none else
  let conf := physaddr mem mp
  if bytesAt mem conf 4 ≠ signaturePcmp then none else
  if version mem conf ≠ 1 ∧ version mem conf ≠ 4 then none else
  if sum mem conf (length mem conf) ≠ 0 then none else
  some (mp, conf)

/-- The variables `mpinit` sets. -/
structure State where
  ncpu : Nat
  /-- `cpus[i].apicid` -/
  apicid : Nat → Byte
  ioapicid : Byte
  lapic : Nat
  /-- The interrupt mode register has been told to mask external interrupts. -/
  imcr : Bool

/-- The state of the scan. -/
structure Scan extends State where
  p : Nat
  ismp : Bool

/-- One round of the loop. -/
def scanEntry (c : Scan) : Scan :=
  if mem c.p = MPPROC then
    if c.ncpu < NCPU then
      { c with
        apicid := Function.update c.apicid c.ncpu (mem (c.p + 1))
        ncpu := c.ncpu + 1
        p := c.p + sizeofMpproc }
    else
      { c with p := c.p + sizeofMpproc }
  else if mem c.p = MPIOAPIC then
    { c with ioapicid := mem (c.p + 1), p := c.p + sizeofMpioapic }
  else if mem c.p = MPBUS ∨ mem c.p = MPIOINTR ∨ mem c.p = MPLINTR then
    { c with p := c.p + 8 }
  else
    { c with ismp := false }

/-- The loop, for at most `fuel` rounds; `e` is the end of the table. -/
def scan (e : Nat) : Nat → Scan → Scan
  | 0, c => c
  | fuel + 1, c => if c.p < e then scan e fuel (scanEntry mem c) else c

/-- The end of the table, and the start of the scan. -/
def tableEnd (conf : Nat) : Nat := conf + length mem conf

def scanStart (conf : Nat) (s : State) : Scan :=
  { s with lapic := lapicaddr mem conf, p := conf + sizeofMpconf, ismp := true }

/-- It does not end if `fuel` rounds are not enough for the loop. -/
def mpinit (fuel : Nat) : Op State Unit := do
  match mpconfig mem with
  | none => Op.panic "Expect to run on an SMP"
  | some (mp, conf) =>
    let s ← Op.get
    let c := scan mem (tableEnd mem conf) fuel (scanStart mem conf s)
    if c.p < tableEnd mem conf then
      Op.block
    else if c.ismp = false then
      Op.panic "Didn't find a suitable machine"
    else
      Op.modify fun _ => { c.toState with imcr := c.imcr || imcrp mem mp ≠ 0 }

/-! ## The entries of a table -/

/-- The size of an entry of a known type. -/
def entrySize (type : Byte) : Option Nat :=
  if type = MPPROC then some sizeofMpproc
  else if type = MPIOAPIC then some sizeofMpioapic
  else if type = MPBUS ∨ type = MPIOINTR ∨ type = MPLINTR then some 8
  else none

/-- From `p` to `e` the table consists of entries of known types. The last one
    may reach beyond `e`. -/
inductive Known (e : Nat) : Nat → Prop
  | done {p : Nat} (h : e ≤ p) : Known e p
  | entry {p n : Nat} (h : p < e) (hn : entrySize (mem p) = some n) (hrest : Known e (p + n)) : Known e p

variable {mem} {c : Scan}

/-- A round moves past an entry of a known type. -/
theorem scanEntry_known {n : Nat} (h : entrySize (mem c.p) = some n) :
    (scanEntry mem c).p = c.p + n ∧ (scanEntry mem c).ismp = c.ismp := by
  unfold entrySize at h
  unfold scanEntry
  split_ifs at h ⊢ <;> cases h <;> exact ⟨rfl, rfl⟩

/-- At an entry of another type it stays. -/
theorem scanEntry_unknown (h : entrySize (mem c.p) = none) : (scanEntry mem c).p = c.p := by
  unfold entrySize at h
  unfold scanEntry
  split_ifs at h ⊢
  rfl

theorem scanEntry_ncpu (h : c.ncpu ≤ NCPU) : (scanEntry mem c).ncpu ≤ NCPU := by
  unfold scanEntry
  split_ifs
  · exact Nat.succ_le_of_lt ‹_›
  all_goals exact h

/-! ## Runs of the loop -/

variable {e : Nat}

theorem scan_done (fuel : Nat) (h : e ≤ c.p) : scan mem e fuel c = c := by
  cases fuel with
  | zero => rfl
  | succ fuel => exact if_neg (Nat.not_lt.mpr h)

theorem scan_succ (fuel : Nat) (h : c.p < e) :
    scan mem e (fuel + 1) c = scan mem e fuel (scanEntry mem c) := if_pos h

theorem scan_ncpu (fuel : Nat) (h : c.ncpu ≤ NCPU) : (scan mem e fuel c).ncpu ≤ NCPU := by
  induction fuel generalizing c with
  | zero => exact h
  | succ fuel ih =>
    by_cases hlt : c.p < e
    · rw [scan_succ fuel hlt]
      exact ih (scanEntry_ncpu h)
    · rw [scan_done _ (Nat.not_lt.mp hlt)]
      exact h

/-- Over known entries the loop ends behind the last of them. -/
theorem scan_of_known {p : Nat} (h : Known mem e p) (c : Scan) (hc : c.p = p) :
    ∃ fuel, e ≤ (scan mem e fuel c).p ∧ (scan mem e fuel c).ismp = c.ismp := by
  induction h generalizing c with
  | done hle => exact ⟨0, hc ▸ hle, rfl⟩
  | entry hlt hn _ ih =>
    subst hc
    obtain ⟨hp, hismp⟩ := scanEntry_known hn
    obtain ⟨fuel, hle, heq⟩ := ih (scanEntry mem c) hp
    refine ⟨fuel + 1, ?_, ?_⟩
    · rwa [scan_succ fuel hlt]
    · rw [scan_succ fuel hlt, heq, hismp]

/-- When the loop has ended, it has seen known entries only. -/
theorem known_of_scan (fuel : Nat) (c : Scan) (h : e ≤ (scan mem e fuel c).p) : Known mem e c.p := by
  induction fuel generalizing c with
  | zero => exact .done h
  | succ fuel ih =>
    by_cases hlt : c.p < e
    · rw [scan_succ fuel hlt] at h
      have hrest := ih _ h
      cases hn : entrySize (mem c.p) with
      | none =>
        -- the round has left `p` where it was, so the rest is the whole
        rwa [scanEntry_unknown hn] at hrest
      | some n =>
        rw [(scanEntry_known hn).1] at hrest
        exact .entry hlt hn hrest
    · exact .done (Nat.not_lt.mp hlt)

/-! ## Whether `mpinit` ends -/

/-- The outcome of a call that has come to an end. -/
def Ended (o : Outcome State Unit) : Prop := o ≠ .blocked

theorem ended_iff {mp conf : Nat} (hconf : mpconfig mem = some (mp, conf)) (fuel : Nat) (s : State) :
    Ended (mpinit mem fuel s) ↔
      tableEnd mem conf ≤ (scan mem (tableEnd mem conf) fuel (scanStart mem conf s)).p := by
  unfold Ended mpinit
  rw [hconf]
  show (if _ then Op.block else _ : Op State Unit) s ≠ _ ↔ _
  split_ifs with hlt
  · exact iff_of_false (fun h => h rfl) (Nat.not_le.mpr hlt)
  · exact iff_of_true nofun (Nat.not_lt.mp hlt)
  · exact iff_of_true nofun (Nat.not_lt.mp hlt)

/-- For a table that `mpconfig` accepts, the loop of `mpinit` ends, with `ncpu`
    within its bound all the time, exactly if the table consists of entries of
    known types. -/
theorem mpinit_ends_iff (mem : Memory) (mp conf : Nat) (hconf : mpconfig mem = some (mp, conf))
    (s : State) (hs : s.ncpu ≤ NCPU) :
    ((∃ fuel, Ended (mpinit mem fuel s)) ∧
      ∀ fuel, (scan mem (tableEnd mem conf) fuel (scanStart mem conf s)).ncpu ≤ NCPU) ↔
    Known mem (tableEnd mem conf) (conf + sizeofMpconf) := by
  constructor
  · rintro ⟨⟨fuel, hended⟩, -⟩
    exact known_of_scan fuel _ ((ended_iff hconf fuel s).mp hended)
  · intro h
    obtain ⟨fuel, hle, -⟩ := scan_of_known h (scanStart mem conf s) rfl
    exact ⟨⟨fuel, (ended_iff hconf fuel s).mpr hle⟩, fun fuel => scan_ncpu fuel hs⟩

/-- The variables before `mpinit`. -/
def State.zero : State := { ncpu := 0, apicid := fun _ => 0, ioapicid := 0, lapic := 0, imcr := false }

/-- A memory with an MP structure at the start of the EBDA, and after it a
    table of the given length, checksum and entries. -/
def withTable (len checksum : Byte) (entries : List Byte) : Memory := fun a =>
  if a = 0x40E then 0xC0
  else if a = 0x40F then 0x9F
  else if a < 0x9FC00 then 0
  else ([0x5f, 0x4d, 0x50, 0x5f, 0x10, 0xFC, 0x09, 0, 1, 1, 0x8e, 0, 0, 0, 0, 0] ++
    [0x50, 0x43, 0x4d, 0x50, len, 0, 1, checksum] ++ List.replicate 36 0 ++ entries).getD (a - 0x9FC00) 0

/-- One processor. -/
theorem mpinit_ends_one :
    (∃ fuel, Ended (mpinit (withTable 64 0x8f (List.replicate 20 0)) fuel State.zero)) ∧
      ∀ fuel, (scan (withTable 64 0x8f (List.replicate 20 0))
        (tableEnd (withTable 64 0x8f (List.replicate 20 0)) 0x9FC10) fuel
        (scanStart (withTable 64 0x8f (List.replicate 20 0)) 0x9FC10 State.zero)).ncpu ≤ NCPU :=
  (mpinit_ends_iff (withTable 64 0x8f (List.replicate 20 0)) 0x9FC00 0x9FC10 (by decide +kernel) State.zero
    (by decide)).mpr
    (.entry (by decide +kernel) (n := sizeofMpproc) (by decide +kernel) (.done (by decide +kernel)))

/-- A table with one entry, of type 255: `mpconfig` accepts it, and `mpinit`
    does not end. -/
theorem mpinit_does_not_end :
    mpconfig (withTable 45 0xa3 [0xff]) = some (0x9FC00, 0x9FC10) ∧
    ∀ fuel, mpinit (withTable 45 0xa3 [0xff]) fuel State.zero = .blocked := by
  have hconf : mpconfig (withTable 45 0xa3 [0xff]) = some (0x9FC00, 0x9FC10) := by decide +kernel
  refine ⟨hconf, fun fuel => ?_⟩
  by_contra hended
  cases known_of_scan fuel _ ((ended_iff hconf fuel State.zero).mp hended) with
  | done h => exact absurd h (by decide +kernel)
  | entry _ hn _ =>
    have hnone : entrySize (withTable 45 0xa3 [0xff] 0x9FC3C) = none := by decide +kernel
    exact absurd (hnone.symm.trans hn) nofun

end Xv6.Mp
