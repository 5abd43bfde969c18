import Xv6.Fs.Syscall
import Xv6.Fs.Volume

/-! # What the directory functions do

    `dirlookup`, `dirlink`, `isdirempty` and the erasing of an entry, in terms
    of the byte string of the directory. They work on an entry of the inode
    cache that agrees with the disk (`Synced`).
-/

namespace Xv6.Fs

open BitRange Ownership Op

/-- The cache entry holds the inode as it is on the disk, and the inode is
    allocated. -/
structure Synced (sb : Superblock) (s : FsState) (ip : Slot) : Prop where
  mem : (s.icache ip).inum ∈ inodes sb s.disk
  copy : (s.icache ip).toDinode = dinode sb s.disk (s.icache ip).inum

/-- The byte string of the inode in entry `ip`. -/
def FsState.bytes (sb : Superblock) (s : FsState) (ip : Slot) : List Byte :=
  data sb s.disk (s.icache ip).inum

variable {sb : Superblock} {s : FsState} {E : String → Prop} {ip : Slot} {Q : Unit → FsState → Prop}
  {k : Nat} {c : List Byte} {name : Name} {src : Nat → Byte}

theorem Synced.length_bytes (h : Synced sb s ip) :
    (s.bytes sb ip).length = (s.icache ip).size.toNat := by
  unfold FsState.bytes
  rw [length_data, ← h.copy]

theorem Synced.size_le (h : Synced sb s ip)
    (him : DiskImage sb s.disk) :
    (s.icache ip).size.toNat ≤ MAXFILE * BSIZE := by
  rw [h.copy]
  exact him.size_le h.mem

/-! ## Reading entries -/

theorem toNat_ofNat_entry (h : DIRENT * k ≤ MAXFILE * BSIZE) :
    (BitVec.ofNat 32 (DIRENT * k)).toNat = DIRENT * k := by
  rw [BitVec.toNat_ofNat, Nat.mod_eq_of_lt]
  exact lt_of_le_of_lt h (by decide)

theorem wp_readDirent {Q : List Byte → FsState → Prop} {msg : String} (hs : Synced sb s ip)
    (him : DiskImage sb s.disk)
    (hE : (s.bytes sb ip).length % DIRENT ≠ 0 → E msg) (hk : DIRENT * k < (s.icache ip).size.toNat)
    (hQ : HasEntry (s.bytes sb ip) k → Q (entry (s.bytes sb ip) k) s) :
    wp (readDirent sb msg ip (DIRENT * k)) E Q s := by
  have hsize := hs.size_le him
  have hlen := hs.length_bytes
  have hoff : (BitVec.ofNat 32 (DIRENT * k)).toNat = DIRENT * k := toNat_ofNat_entry (by omega)
  have h16 : (BitVec.ofNat 32 DIRENT).toNat = DIRENT := by decide
  have hlt : MAXFILE * BSIZE + DIRENT < 2 ^ 32 := by decide
  unfold readDirent
  simp only [wp_bind]
  apply (wp_readi_blocks (D := dinode sb s.disk) him hs.mem hs.copy _ _).imp
  intro r s' hr
  obtain ⟨rfl, hr⟩ := hr
  have hread : r = some (entry (s'.bytes sb ip) k) := by
    rw [hr, hoff, h16, ← hs.copy, if_neg (by omega), hs.copy]
    rfl
  subst hread
  simp only
  by_cases hhas : HasEntry (s'.bytes sb ip) k
  · have hfull : (entry (s'.bytes sb ip) k).length = DIRENT := by
      unfold HasEntry at hhas
      unfold entry
      simp only [List.length_take, List.length_drop, DIRENT] at *
      omega
    rw [if_neg (by simp [hfull])]
    exact hQ hhas
  · have hpart : (entry (s'.bytes sb ip) k).length ≠ DIRENT := by
      unfold HasEntry at hhas
      unfold entry
      simp only [List.length_take, List.length_drop, DIRENT] at *
      omega
    rw [if_pos hpart]
    refine hE ?_
    unfold HasEntry at hhas
    rw [hlen] at hhas ⊢
    simp only [DIRENT] at *
    omega

/-- With `fuel` iterations left at entry `k` the loop reaches the end. -/
theorem fuel_step {size fuel k : Nat} (hfuel : size / DIRENT < k + (fuel + 1)) :
    size / DIRENT < k + 1 + fuel := by omega

theorem size_le_of_fuel {size k : Nat} (hfuel : size / DIRENT < k + 0) : size ≤ DIRENT * k := by
  simp only [DIRENT] at *
  omega

/-- Entry `k` is in use and has the name `name`. -/
def Names (c : List Byte) (name : Name) (k : Nat) : Prop :=
  direntInum (entry c k) ≠ 0 ∧ namecmp name (direntName (entry c k)) = 0

instance (c : List Byte) (name : Name) : DecidablePred (Names c name) :=
  fun _ => inferInstanceAs (Decidable (_ ∧ _))

/-- The first entry of this name: its inode number and its offset. -/
def search (c : List Byte) (name : Name) : Option (Nat × Nat) :=
  (firstFrom (fun k => decide (Names c name k)) (c.length / DIRENT) 0).map
    fun k => (direntInum (entry c k), DIRENT * k)

/-- The result of a lookup. -/
def LookedUp (c : List Byte) (name : Name) : Option (Nat × Nat) → Prop
  | some (n, off) => ∃ k, off = DIRENT * k ∧ Found c name n k
  | none => Absent c name

theorem hasEntry_iff : HasEntry c k ↔ k < c.length / DIRENT := by
  unfold HasEntry
  simp only [DIRENT]
  omega

theorem HasEntry.le (h : HasEntry c k) : DIRENT * k ≤ c.length := by
  unfold HasEntry at h
  simp only [DIRENT] at *
  omega

theorem search_eq_some {r : Nat × Nat} : search c name = some r ↔
    ∃ k, HasEntry c k ∧ Names c name k ∧ (∀ j, j < k → ¬Names c name j) ∧
      r = (direntInum (entry c k), DIRENT * k) := by
  unfold search
  rw [Option.map_eq_some_iff]
  constructor
  · rintro ⟨k, hk, rfl⟩
    obtain ⟨-, hlt, hname, hmin⟩ := firstFrom_eq_some.mp hk
    exact ⟨k, hasEntry_iff.mpr (by omega), of_decide_eq_true hname,
      fun j hj => of_decide_eq_false (hmin j (Nat.zero_le _) hj), rfl⟩
  · rintro ⟨k, hhas, hname, hmin, rfl⟩
    have hlt := hasEntry_iff.mp hhas
    exact ⟨k, firstFrom_eq_some.mpr ⟨Nat.zero_le _, by omega, decide_eq_true hname,
      fun j _ hj => decide_eq_false (hmin j hj)⟩, rfl⟩

theorem search_eq_none : search c name = none ↔ Absent c name := by
  unfold search
  rw [Option.map_eq_none_iff, firstFrom_eq_none]
  constructor
  · intro h k hk hlive hcmp
    have hlt := hasEntry_iff.mp hk
    exact of_decide_eq_false (h k (Nat.zero_le _) (by omega)) ⟨hlive, hcmp⟩
  · intro h k _ hlt
    refine decide_eq_false fun hname => ?_
    exact h k (hasEntry_iff.mpr (by omega)) hname.1 hname.2

theorem lookedUp_search (c : List Byte) (name : Name) : LookedUp c name (search c name) := by
  cases h : search c name with
  | none => exact search_eq_none.mp h
  | some r =>
    obtain ⟨k, hhas, hname, -, rfl⟩ := search_eq_some.mp h
    exact ⟨k, rfl, hhas, rfl, hname.1, hname.2⟩

theorem wp_dirlookup_scan {Q : Option (Nat × Nat) → FsState → Prop} (hs : Synced sb s ip)
    (him : DiskImage sb s.disk)
    (hE : (s.bytes sb ip).length % DIRENT ≠ 0 → E "dirlookup read")
    (hQ : Q (search (s.bytes sb ip) name) s) (fuel k : Nat)
    (hbefore : ∀ j, j < k → ¬Names (s.bytes sb ip) name j)
    (hfuel : (s.icache ip).size.toNat / DIRENT < k + fuel) :
    wp (dirlookup_scan sb ip name fuel (DIRENT * k)) E Q s := by
  have hlen := hs.length_bytes
  -- nothing is left to look at
  have hdone : ∀ k, (∀ j, j < k → ¬Names (s.bytes sb ip) name j) →
      (s.icache ip).size.toNat ≤ DIRENT * k → Q none s := by
    intro k hbefore hle
    have hnone : search (s.bytes sb ip) name = none := search_eq_none.mpr fun j hj hlive hcmp =>
      hbefore j (by unfold HasEntry at hj; simp only [DIRENT] at *; omega) ⟨hlive, hcmp⟩
    rw [hnone] at hQ
    exact hQ
  induction fuel generalizing k with
  | zero => exact hdone k hbefore (size_le_of_fuel hfuel)
  | succ fuel ih =>
    unfold dirlookup_scan
    simp only [wp_bind, wp_get]
    by_cases hlt : DIRENT * k < (s.icache ip).size.toNat
    · rw [if_pos hlt, wp_bind]
      refine wp_readDirent hs him hE hlt fun hhas => ?_
      -- the loop goes on when entry `k` is empty or has another name
      have hnext : ¬Names (s.bytes sb ip) name k →
          wp (dirlookup_scan sb ip name fuel (DIRENT * k + DIRENT)) E Q s := by
        intro hno
        refine ih (k + 1) (fun j hj => ?_) (fuel_step hfuel)
        by_cases hjk : j = k
        · rw [hjk]
          exact hno
        · exact hbefore j (by omega)
      by_cases h0 : direntInum (entry (s.bytes sb ip) k) = 0
      · rw [if_pos h0]
        exact hnext fun h => h.1 h0
      · rw [if_neg h0]
        by_cases hcmp : namecmp name (direntName (entry (s.bytes sb ip) k)) = 0
        · rw [if_pos hcmp, wp_pure]
          rw [search_eq_some.mpr ⟨k, hhas, ⟨h0, hcmp⟩, hbefore, rfl⟩] at hQ
          exact hQ
        · rw [if_neg hcmp]
          exact hnext fun h => hcmp h.2
    · rw [if_neg hlt, wp_pure]
      exact hdone k hbefore (by omega)

theorem wp_dirlookup_search {Q : Option (Nat × Nat) → FsState → Prop} (hs : Synced sb s ip)
    (him : DiskImage sb s.disk)
    (hE : (s.bytes sb ip).length % DIRENT ≠ 0 → E "dirlookup read")
    (hdir : (s.icache ip).type ≠ T_DIR → E "dirlookup not DIR")
    (hQ : (s.icache ip).type = T_DIR → Q (search (s.bytes sb ip) name) s) :
    wp (dirlookup_search sb ip name) E Q s := by
  unfold dirlookup_search
  simp only [wp_bind, wp_get]
  by_cases ht : (s.icache ip).type = T_DIR
  · rw [if_neg (by simp [ht])]
    exact wp_dirlookup_scan hs him hE (hQ ht) _ 0 (by omega) (by omega)
  · rw [if_pos ht]
    exact hdir ht

/-- Entry `k` is free for a new name. -/
def EmptyAt (c : List Byte) (k : Nat) : Prop :=
  HasEntry c k ∧ direntInum (entry c k) = 0 ∨ c.length = DIRENT * k

theorem EmptyAt.le (h : EmptyAt c k) : DIRENT * k ≤ c.length := by
  rcases h with ⟨hhas, _⟩ | hlen
  · unfold HasEntry at hhas
    simp only [DIRENT] at *
    omega
  · exact hlen.ge

/-- The first free entry is the `k`-th one. -/
def FirstFree (c : List Byte) (k : Nat) : Prop :=
  EmptyAt c k ∧ ∀ j, j < k → direntInum (entry c j) ≠ 0

theorem wp_dirlink_scan {Q : Nat → FsState → Prop} (hs : Synced sb s ip)
    (him : DiskImage sb s.disk)
    (hE : (s.bytes sb ip).length % DIRENT ≠ 0 → E "dirlink read")
    (hQ : ∀ k, FirstFree (s.bytes sb ip) k → Q (DIRENT * k) s)
    (fuel k : Nat) (hbefore : ∀ j, j < k → direntInum (entry (s.bytes sb ip) j) ≠ 0)
    (hk : DIRENT * k ≤ (s.icache ip).size.toNat)
    (hfuel : (s.icache ip).size.toNat / DIRENT < k + fuel) :
    wp (dirlink_scan sb ip fuel (DIRENT * k)) E Q s := by
  have hlen := hs.length_bytes
  induction fuel generalizing k with
  | zero => exact hQ k ⟨Or.inr (by have := size_le_of_fuel hfuel; omega), hbefore⟩
  | succ fuel ih =>
    unfold dirlink_scan
    simp only [wp_bind, wp_get]
    by_cases hlt : DIRENT * k < (s.icache ip).size.toNat
    · rw [if_pos hlt, wp_bind]
      refine wp_readDirent hs him hE hlt fun hhas => ?_
      by_cases h0 : direntInum (entry (s.bytes sb ip) k) = 0
      · rw [if_pos h0, wp_pure]
        exact hQ k ⟨Or.inl ⟨hhas, h0⟩, hbefore⟩
      · rw [if_neg h0]
        refine ih (k + 1) (fun j hj => ?_) (by unfold HasEntry at hhas; omega) (fuel_step hfuel)
        by_cases hjk : j = k
        · rw [hjk]
          exact h0
        · exact hbefore j (by omega)
    · rw [if_neg hlt, wp_pure]
      exact hQ k ⟨Or.inr (by omega), hbefore⟩

/-- Only "." and ".." can be live. -/
def EmptyDir (c : List Byte) : Prop := ∀ k, 2 ≤ k → HasEntry c k → direntInum (entry c k) = 0

theorem wp_isdirempty_scan {Q : Bool → FsState → Prop} (hs : Synced sb s ip)
    (him : DiskImage sb s.disk) (hE : (s.bytes sb ip).length % DIRENT ≠ 0 → E "isdirempty: readi")
    (hQ : ∀ b, (b = true → EmptyDir (s.bytes sb ip)) → Q b s) (fuel k : Nat)
    (hbefore : ∀ j, 2 ≤ j → j < k → HasEntry (s.bytes sb ip) j →
      direntInum (entry (s.bytes sb ip) j) = 0)
    (hfuel : (s.icache ip).size.toNat / DIRENT < k + fuel) :
    wp (isdirempty_scan sb ip fuel (DIRENT * k)) E Q s := by
  have hlen := hs.length_bytes
  have hdone : ∀ k, (∀ j, 2 ≤ j → j < k → HasEntry (s.bytes sb ip) j →
      direntInum (entry (s.bytes sb ip) j) = 0) →
      (s.icache ip).size.toNat ≤ DIRENT * k → EmptyDir (s.bytes sb ip) := by
    intro k hbefore hle j h2 hj
    refine hbefore j h2 ?_ hj
    unfold HasEntry at hj
    simp only [DIRENT] at *
    omega
  induction fuel generalizing k with
  | zero => exact hQ true fun _ => hdone k hbefore (size_le_of_fuel hfuel)
  | succ fuel ih =>
    unfold isdirempty_scan
    simp only [wp_bind, wp_get]
    by_cases hlt : DIRENT * k < (s.icache ip).size.toNat
    · rw [if_pos hlt, wp_bind]
      refine wp_readDirent hs him hE hlt fun hhas => ?_
      by_cases h0 : direntInum (entry (s.bytes sb ip) k) = 0
      · rw [if_neg (by simp [h0])]
        refine ih (k + 1) (fun j h2 hj hjas => ?_) (fuel_step hfuel)
        by_cases hjk : j = k
        · rw [hjk]; exact h0
        · exact hbefore j h2 (by omega) hjas
      · rw [if_pos h0, wp_pure]
        exact hQ false fun h => absurd h (by simp)
    · rw [if_neg hlt, wp_pure]
      exact hQ true fun _ => hdone k hbefore (by omega)

theorem wp_isdirempty {Q : Bool → FsState → Prop} (hs : Synced sb s ip)
    (him : DiskImage sb s.disk)
    (hE : (s.bytes sb ip).length % DIRENT ≠ 0 → E "isdirempty: readi")
    (hQ : ∀ b, (b = true → EmptyDir (s.bytes sb ip)) → Q b s) :
    wp (isdirempty sb ip) E Q s := by
  unfold isdirempty
  simp only [wp_bind, wp_get]
  rw [Nat.mul_comm 2 DIRENT]
  exact wp_isdirempty_scan hs him hE hQ _ 2 (by omega) (by omega)

/-! ## Changing an inode -/

/-- The step to `disk'` and the inode `d` changes the inode in entry `ip`: its
    fields `addrs` and `size`, and its byte string to `c`. -/
structure Rewrites (sb : Superblock) (s : FsState) (ip : Slot) (c : List Byte) (disk : Disk)
    (d : Dinode) : Prop where
  touches : Touches sb (s.icache ip).inum s.disk disk
  dinode : dinode sb disk (s.icache ip).inum = d
  fields : ∃ addrs size, d = { (s.icache ip).toDinode with addrs := addrs, size := size }
  data : data sb disk (s.icache ip).inum = c
  grows : Grows sb (s.icache ip).inum s.disk disk

/-- `writei`, seen from the whole volume. -/
theorem wp_write {Q : Option (BitVec 32) → FsState → Prop} (hs : Synced sb s ip)
    (hv : Volume sb s.disk) (hlog : Logs E s) (off n : BitVec 32)
    (hfull : (s.bytes sb ip).length < off.toNat + n.toNat →
      free sb.size (bit sb s.disk) < span off.toNat n.toNat + 1 → E "balloc: out of blocks")
    (hnames : off.toNat ≤ (s.bytes sb ip).length → (s.icache ip).type = T_DIR →
      NamesBelow sb.ninodes (splice (s.bytes sb ip) off.toNat ((List.range n.toNat).map src)))
    (hbad : (s.bytes sb ip).length < off.toNat ∨ MAXFILE * BSIZE < off.toNat + n.toNat → Q none s)
    (hgood : ∀ disk' d', off.toNat ≤ (s.bytes sb ip).length →
      Rewrites sb s ip (splice (s.bytes sb ip) off.toNat ((List.range n.toNat).map src)) disk' d' →
      Q (some n) (s.withFile ip disk' d')) : wp (writei_blocks sb ip src off n) E Q s := by
  have hlen := hs.length_bytes
  have hsize : (dinode sb s.disk (s.icache ip).inum).size.toNat = (s.bytes sb ip).length := by
    rw [hlen, hs.copy]
  refine wp_writei_blocks (D := dinode sb s.disk) hlog hv.image hs.mem hs.copy hs.mem.1 off n
    (fun _ _ bn hbn hlt => hfull (by omega)) (by rw [hsize]; exact hbad) ?_
  intro disk' D' hoff hmax hw
  rw [hsize] at hoff
  obtain ⟨ht, hself, hfields, hdata, hgrows⟩ := hv.write hs.mem hw
    fun htype => hnames hoff (by rw [hs.copy]; exact htype)
  exact hgood disk' _ hoff ⟨ht, hself, by rw [hs.copy]; exact hfields, hdata, hgrows⟩

/-- Writing one directory entry: what happened to the inode. -/
theorem wp_put_entry {Q : Option (BitVec 32) → FsState → Prop} (hs : Synced sb s ip)
    (him : DiskImage sb s.disk) (hlog : Logs E s)
    (hfull : ∀ bn, (s.bytes sb ip).length ≤ bn * BSIZE → bn * BSIZE < DIRENT * (k + 1) →
      free sb.size (bit sb s.disk) < 2 → E "balloc: out of blocks")
    (hk : DIRENT * k ≤ (s.bytes sb ip).length)
    (hbad : MAXFILE * BSIZE < DIRENT * (k + 1) → Q none s)
    (hgood : ∀ disk' D', Wrote sb (inodes sb s.disk) (s.icache ip).inum (s.icache ip).inum src (DIRENT * k)
      DIRENT s.disk disk' (dinode sb s.disk) D' →
      Q (some (BitVec.ofNat 32 DIRENT)) (s.withFile ip disk' (D' (s.icache ip).inum))) :
    wp (writei_blocks sb ip src (BitVec.ofNat 32 (DIRENT * k)) (BitVec.ofNat 32 DIRENT)) E Q s := by
  have hlen := hs.length_bytes
  have hmax := hs.size_le him
  have hsize : (dinode sb s.disk (s.icache ip).inum).size.toNat = (s.bytes sb ip).length := by
    rw [hlen, hs.copy]
  have hoff : (BitVec.ofNat 32 (DIRENT * k)).toNat = DIRENT * k := toNat_ofNat_entry (by omega)
  have h16 : (BitVec.ofNat 32 DIRENT).toNat = DIRENT := by decide
  have hspan : span (DIRENT * k) DIRENT = 1 := by
    unfold span
    rw [if_neg (by decide)]
    simp only [DIRENT, BSIZE]
    omega
  refine wp_writei_blocks (D := dinode sb s.disk) hlog him hs.mem hs.copy hs.mem.1 _ _ ?_ ?_ ?_
  · rw [hoff, h16, hspan, hsize]
    intro _ _ bn hbn hlt
    exact hfull bn hbn hlt
  · rw [hoff, h16, hsize]
    intro hlarge
    exact hbad (by simp only [DIRENT] at *; omega)
  · intro disk' D' _ _ hw
    rw [hoff, h16] at hw
    exact hgood disk' D' hw

/-- The same, seen from the whole volume. -/
theorem rewrites_of_wrote {disk' : Disk} {D' : Nat → Dinode} (hs : Synced sb s ip)
    (hv : Volume sb s.disk) (hdir : (s.icache ip).type = T_DIR)
    (hk : DIRENT * k ≤ (s.bytes sb ip).length)
    (hinum : direntInum ((List.range DIRENT).map src) < sb.ninodes)
    (hw : Wrote sb (inodes sb s.disk) (s.icache ip).inum (s.icache ip).inum src (DIRENT * k)
      DIRENT s.disk disk' (dinode sb s.disk) D') :
    Rewrites sb s ip (splice (s.bytes sb ip) (DIRENT * k) ((List.range DIRENT).map src)) disk'
      (D' (s.icache ip).inum) := by
  have htype : (dinode sb s.disk (s.icache ip).inum).type = T_DIR := by rw [← hs.copy]; exact hdir
  have hbelow := (hv.names _ hs.mem htype).splice (e := (List.range DIRENT).map src) (k := k)
    (by simp) hk hinum
  obtain ⟨ht, hself, hfields, hdata, hgrows⟩ := hv.write hs.mem hw fun _ => hbelow
  exact ⟨ht, hself, by rw [hs.copy]; exact hfields, hdata, hgrows⟩

/-- The number in an entry is cut to 16 bits. -/
theorem direntInum_direntBytes (name : Name) (inum : Nat) :
    direntInum (direntBytes name inum) = inum % 65536 := by
  have h0 : (direntBytes name inum).getD 0 0 = BitVec.ofNat 8 inum := by
    simp [direntBytes, dirent, List.getD_eq_getElem?_getD]
  have h1 : (direntBytes name inum).getD 1 0 = BitVec.ofNat 8 (inum / 256) := by
    simp [direntBytes, dirent, List.getD_eq_getElem?_getD]
  unfold direntInum
  rw [h0, h1, BitVec.toNat_ofNat, BitVec.toNat_ofNat]
  omega

/-- All entries are in use, and there is no room for another one. -/
def FullDir (c : List Byte) : Prop :=
  (∀ k, HasEntry c k → direntInum (entry c k) ≠ 0) ∧ MAXFILE * BSIZE < c.length + DIRENT

/-- All entries are in use, and so is the whole of the last block. -/
def NeedsBlock (c : List Byte) : Prop :=
  (∀ k, HasEntry c k → direntInum (entry c k) ≠ 0) ∧ c.length % BSIZE = 0

/-- A new entry that does not fit into the directory. -/
theorem FirstFree.fullDir (h : FirstFree c k) (hlarge : MAXFILE * BSIZE < DIRENT * (k + 1))
    (hsize : c.length ≤ MAXFILE * BSIZE) : FullDir c := by
  have hle := h.1.le
  refine ⟨fun j hj => h.2 j ?_, ?_⟩
  · unfold HasEntry at hj
    simp only [DIRENT] at *
    omega
  · simp only [DIRENT] at *
    omega

/-- A new entry that lies in a block past the end. -/
theorem FirstFree.needsBlock {bn : Nat} (h : FirstFree c k) (hbn : c.length ≤ bn * BSIZE)
    (hlt : bn * BSIZE < DIRENT * (k + 1)) : NeedsBlock c := by
  have hle := h.1.le
  simp only [DIRENT, BSIZE] at *
  -- both the entry and the block begin at the end of the directory
  have hend : c.length = bn * 512 := by omega
  refine ⟨fun j hj => h.2 j ?_, ?_⟩
  · unfold HasEntry at hj
    simp only [DIRENT] at hj
    omega
  · rw [hend]
    exact Nat.mul_mod_left bn 512

section

variable (hs : Synced sb s ip)
include hs

theorem wp_dirlink_put {inum : Nat} (him : DiskImage sb s.disk)
    (hlog : Logs E s) (hfull : NeedsBlock (s.bytes sb ip) →
      free sb.size (bit sb s.disk) < 2 → E "balloc: out of blocks")
    (hread : (s.bytes sb ip).length % DIRENT ≠ 0 → E "dirlink read")
    (hfail : FullDir (s.bytes sb ip) → E "dirlink")
    (hQ : ∀ k disk' D', FirstFree (s.bytes sb ip) k →
      Wrote sb (inodes sb s.disk) (s.icache ip).inum (s.icache ip).inum (dirent name inum) (DIRENT * k)
        DIRENT s.disk disk' (dinode sb s.disk) D' →
      Q () (s.withFile ip disk' (D' (s.icache ip).inum))) :
    wp (dirlink_write sb ip name inum) E Q s := by
  unfold dirlink_write
  simp only [wp_bind, wp_get]
  refine wp_dirlink_scan hs him hread (fun k hk => ?_) _ 0 (by omega) (by omega) (by omega)
  refine wp_put_entry hs him hlog (fun bn hbn hlt => hfull (hk.needsBlock hbn hlt)) hk.1.le ?_ ?_
  · intro hlarge
    rw [if_pos (by simp)]
    refine hfail (hk.fullDir hlarge ?_)
    rw [hs.length_bytes]
    exact hs.size_le him
  · intro disk' D' hw
    rw [if_neg (by simp), wp_pure]
    exact hQ k disk' D' hk hw

theorem wp_dirlink_write {inum : Nat} (hv : Volume sb s.disk) (hlog : Logs E s)
    (hfull : free sb.size (bit sb s.disk) < 2 → E "balloc: out of blocks")
    (hread : (s.bytes sb ip).length % DIRENT ≠ 0 → E "dirlink read")
    (hfail : FullDir (s.bytes sb ip) → E "dirlink") (hdir : (s.icache ip).type = T_DIR)
    (hinum : inum < sb.ninodes) (hQ : ∀ k disk' d', FirstFree (s.bytes sb ip) k →
      Rewrites sb s ip (splice (s.bytes sb ip) (DIRENT * k) (direntBytes name inum)) disk' d' →
      Q () (s.withFile ip disk' d')) : wp (dirlink_write sb ip name inum) E Q s := by
  refine wp_dirlink_put hs hv.image hlog (fun _ => hfull) hread hfail fun k disk' D' hk hw => ?_
  refine hQ k disk' _ hk (rewrites_of_wrote hs hv hdir hk.1.le ?_ hw)
  show direntInum (direntBytes name inum) < sb.ninodes
  rw [direntInum_direntBytes]
  exact lt_of_le_of_lt (Nat.mod_le _ _) hinum

theorem wp_erase_put (him : DiskImage sb s.disk) (hlog : Logs E s)
    (hk : HasEntry (s.bytes sb ip) k)
    (hQ : ∀ disk' D', Wrote sb (inodes sb s.disk) (s.icache ip).inum (s.icache ip).inum (fun _ => 0)
      (DIRENT * k) DIRENT s.disk disk' (dinode sb s.disk) D' →
      Q () (s.withFile ip disk' (D' (s.icache ip).inum))) :
    wp (erase_dirent sb ip (DIRENT * k)) E Q s := by
  unfold erase_dirent
  simp only [wp_bind]
  refine wp_put_entry hs him hlog (fun _ hbn hlt => absurd (hk.trans hbn) (not_le.mpr hlt)) hk.le ?_ ?_
  · intro hlarge
    have hsize := hs.size_le him
    rw [← hs.length_bytes] at hsize
    exact absurd (lt_of_lt_of_le hlarge (hk.trans hsize)) (lt_irrefl _)
  · intro disk' D' hw
    rw [if_neg (by simp), wp_pure]
    exact hQ disk' D' hw

theorem wp_erase_dirent (hv : Volume sb s.disk) (hlog : Logs E s)
    (hdir : (s.icache ip).type = T_DIR) (hk : HasEntry (s.bytes sb ip) k)
    (hQ : ∀ disk' d', Rewrites sb s ip (splice (s.bytes sb ip) (DIRENT * k) noEntry) disk' d' →
      Q () (s.withFile ip disk' d')) : wp (erase_dirent sb ip (DIRENT * k)) E Q s := by
  refine wp_erase_put hs hv.image hlog hk fun disk' D' hw => ?_
  refine hQ disk' _ (rewrites_of_wrote hs hv hdir hk.le ?_ hw)
  show direntInum noEntry < sb.ninodes
  exact lt_of_le_of_lt (by decide) (lt_of_le_of_lt (Nat.zero_le _) hs.mem.1)

/-- Storing new fields of the inode. -/
theorem wp_setFields {f : Dinode → Dinode} (hv : Volume sb s.disk) (hlog : Logs E s)
    (htype : ∀ d, (f d).type = d.type) (hsize : ∀ d, (f d).size = d.size)
    (haddrs : ∀ d, (f d).addrs = d.addrs)
    (hQ : ∀ disk', Touches sb (s.icache ip).inum s.disk disk' →
      dinode sb disk' (s.icache ip).inum = f (s.icache ip).toDinode →
      data sb disk' (s.icache ip).inum = s.bytes sb ip →
      Grows sb (s.icache ip).inum s.disk disk' →
      Q () (s.withFile ip disk' (f (s.icache ip).toDinode))) :
    wp (do
      Op.modify fun s => s.setCopy ip f
      iupdate sb ip) E Q s := by
  obtain ⟨ht, hdata, hgrows⟩ := hv.setFields (d := f (s.icache ip).toDinode) hs.mem
    (by rw [htype, hs.copy]) (by rw [hsize, hs.copy]) (by rw [haddrs, hs.copy])
  simp only [wp_bind, wp_modify, setCopy_eq]
  refine wp_iupdate hlog ?_
  simp only [withFile_withFile, withFile_copy, withFile_disk, withFile_inum]
  exact hQ _ ht (dinode_setDinode_self _ _) hdata hgrows

end

/-- `ialloc` takes a free inode. -/
theorem wp_ialloc {Q : Nat → FsState → Prop} {type : BitVec 16} (hlog : Logs E s)
    (hfull : E "ialloc: no inodes")
    (hQ : ∀ n, 0 < n → n < sb.ninodes → (dinode sb s.disk n).type = 0 →
      Q n { s with disk := setDinode sb s.disk n (blank type) }) :
    wp (ialloc sb type) E Q s := by
  unfold ialloc
  simp only [wp_bind, wp_get]
  cases hfind : firstFrom (fun inum => (dinode sb s.disk inum).type = 0) (sb.ninodes - 1) 1 with
  | none => exact hfull
  | some n =>
    obtain ⟨hpos, hlt, htype, _⟩ := firstFrom_eq_some.mp hfind
    simp only [decide_eq_true_eq] at htype
    simp only [wp_bind]
    refine wp_log_write hlog ?_
    exact hQ n hpos (by omega) htype

/-- `iput` frees the inode. -/
theorem wp_iput_free_disk (hs : Synced sb s ip) (hv : Volume sb s.disk) (hlog : Logs E s)
    (hQ : ∀ disk' d', Touches sb (s.icache ip).inum s.disk disk' →
      (dinode sb disk' (s.icache ip).inum).type = 0 → Q () (s.withFile ip disk' d')) :
    wp (do
      itrunc sb ip
      Op.modify fun s => s.setCopy ip fun d => { d with type := 0 }
      iupdate sb ip) E Q s := by
  simp only [wp_bind]
  refine wp_itrunc (D := dinode sb s.disk) hlog hv.image hs.mem hs.copy hs.mem.1 ?_
  intro disk' d ht
  simp only [wp_modify, setCopy_eq, withFile_withFile, withFile_copy, withFile_disk]
  refine wp_iupdate hlog ?_
  simp only [withFile_withFile, withFile_copy, withFile_disk, withFile_inum]
  exact hQ _ _ (hv.free hs.mem.1 ht rfl) (by rw [dinode_setDinode_self])

/-- The whole of `iput_free`. -/
theorem wp_iput_free (hs : Synced sb s ip) (hv : Volume sb s.disk) (hlog : Logs E s)
    (hQ : ∀ disk' d', Touches sb (s.icache ip).inum s.disk disk' →
      (dinode sb disk' (s.icache ip).inum).type = 0 →
      Q () ((s.withFile ip disk' d').setInode ip fun ino => { ino with valid := false })) :
    wp (iput_free sb ip) E Q s := by
  have h := wp_iput_free_disk (Q := fun _ s' =>
    Q () (s'.setInode ip fun ino => { ino with valid := false })) hs hv hlog hQ
  unfold iput_free
  simp only [wp_bind, wp_modify] at h ⊢
  exact h

end Xv6.Fs
