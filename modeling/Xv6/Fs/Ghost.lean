import Xv6.Fs.Alone
import Xv6.Framework.Accounts

/-! # What processes own and know

    The ghost state of a process inside a system call: the references and
    locks it owns, and what it knows of the inodes it has locked. `Coh` says
    that the ghost states of all processes fit the state of the file system.
    Its main parts are

    * the disk is a `Volume`, and the inode cache agrees with it (`Cache`);
    * every reference count is the number of references: from open files,
      current directories and running calls;
    * a sleep-lock is held by the process that thinks so;
    * what a process knows is true (`Knows`).
-/

namespace Xv6.Fs

/-! ## Ghost states -/

/-- A locked inode as its holder knows it: its number, the inode and its byte
    string. -/
structure Snap where
  n : Nat
  d : Dinode
  c : List Byte

/-- A lock that is held: where it was taken, and the inode if it is loaded. -/
structure Hold where
  site : Site
  snap : Option Snap

/-- An open file that a call works on: its descriptor, and its fields. -/
structure Using where
  fd : Fin NOFILE
  file : FileSlot
  type : FileType
  ip : Slot
  writable : Bool

/-- What a process owns and knows. -/
structure Ghost where
  /-- References in local variables. -/
  refs : Slot → Nat
  /-- The reference `iput` is about to drop; it is not used any more. -/
  drop : Option Slot
  /-- Sleep-locks. -/
  held : Slot → Option Hold
  /-- An inode referred to whose number and type are known without a lock. -/
  pin : Option (Slot × Nat × BitVec 16)
  /-- The reference of `cwd` is in a local variable (`sys_chdir`). -/
  moved : Bool
  /-- References to files in local variables. -/
  frefs : FileSlot → Nat
  /-- A file that is not initialised yet. -/
  fnew : Option FileSlot
  /-- The open file the call works on. -/
  use : Option Using
  /-- The inode number and type from `ialloc`, and the directory it is meant for. -/
  fresh : Option (Nat × BitVec 16 × Slot)
  /-- The locked inode for which `iput` has seen the reference count 1. -/
  sole : Option Slot
  /-- A directory and an inode below it, with its number. -/
  order : Option (Slot × Slot × Nat)
  /-- The directory `iunlockput` has unlocked and is about to put. -/
  window : Option Slot
  /-- Links that are counted although no directory entry stands for them, yet
      or any more. -/
  pend : Nat → Nat
  /-- A reference that will only be dropped. -/
  dead : Option Slot
  /-- An inode that has been allocated and has no name yet. -/
  making : Option Nat

namespace Ghost

/-- The ghost state of a process without locks, in the middle of a call. -/
def rest (refs : Slot → Nat) (pin : Option (Slot × Nat × BitVec 16)) (pend : Nat → Nat) : Ghost :=
  ⟨refs, none, fun _ => none, pin, false, fun _ => 0, none, none, none, none, none, none, pend,
    none, none⟩

/-- The ghost state between calls. -/
def idle : Ghost := rest 0 none 0

/-- One more reference to entry `i`. -/
def addRef (g : Ghost) (i : Slot) : Ghost := { g with refs := g.refs + Pi.single i 1 }

/-- Entry `i` is locked. -/
def lockAt (g : Ghost) (i : Slot) (site : Site) (x : Option Snap) : Ghost :=
  { g with held := Function.update g.held i (some ⟨site, x⟩) }

/-- Entry `i` is unlocked. -/
def unlock (g : Ghost) (i : Slot) : Ghost := { g with held := Function.update g.held i none }

/-- References to entry `i` in a process with current directory `cwd`. -/
def slotRefs (g : Ghost) (cwd : Option Slot) (i : Slot) : Nat :=
  g.refs i + (if g.drop = some i then 1 else 0) + if cwd = some i ∧ g.moved = false then 1 else 0

/-- References to file `f` in a process with descriptors `ofile`. -/
def fileRefs (g : Ghost) (ofile : Fin NOFILE → Option FileSlot) (f : FileSlot) : Nat :=
  g.frefs f + ∑ fd, if ofile fd = some f then 1 else 0

/-- Entry `i` is known to hold inode `n`. -/
def Numbers (g : Ghost) (i : Slot) (n : Nat) : Prop :=
  (∃ site x, g.held i = some ⟨site, some x⟩ ∧ x.n = n) ∨ (∃ t, g.pin = some (i, n, t)) ∨
    ∃ dp, g.order = some (dp, i, n)

end Ghost

/-! ## Coherence -/

/-- References to entry `i` from open files. -/
def FsState.opens (s : FsState) (i : Slot) : Nat :=
  ∑ f, if (s.ftable f).type = .FD_INODE ∧ (s.ftable f).ip = i then 1 else 0

variable (sb : Superblock)

/-- The entries of the inode cache that are in use. -/
structure Cache (s : FsState) : Prop where
  inum_lt : ∀ i, 0 < (s.icache i).ref → (s.icache i).inum < sb.ninodes
  dev : ∀ i, 0 < (s.icache i).ref → (s.icache i).dev = ROOTDEV
  inj : ∀ i j, 0 < (s.icache i).ref → 0 < (s.icache j).ref →
    (s.icache i).inum = (s.icache j).inum → i = j
  sync : ∀ i, 0 < (s.icache i).ref → (s.icache i).valid = true →
    (s.icache i).toDinode = dinode sb s.disk (s.icache i).inum ∧ (s.icache i).type ≠ 0

/-- What process `q` knows is true. -/
structure Knows (s : FsState) (q : Pid) (g : Ghost) : Prop where
  /-- A locked entry is referred to. -/
  held_ref : ∀ i, g.held i ≠ none →
    0 < g.refs i ∨ g.drop = some i ∨ ∃ u, g.use = some u ∧ u.type = .FD_INODE ∧ u.ip = i
  snap : ∀ i site x, g.held i = some ⟨site, some x⟩ → (s.icache i).valid = true ∧
    dinode sb s.disk (s.icache i).inum = x.d ∧ data sb s.disk (s.icache i).inum = x.c
  pinned : ∀ i t, g.pin = some (i, t) → 0 < g.refs i ∧ (s.icache i).valid = true ∧
    (dinode sb s.disk (s.icache i).inum).type = t.2
  used : ∀ u, g.use = some u → (s.proc q).ofile u.fd = some u.file ∧
    (s.ftable u.file).type = u.type ∧ (s.ftable u.file).ip = u.ip ∧
    (s.ftable u.file).writable = u.writable
  newfile : ∀ f, g.fnew = some f → (s.ftable f).type = .FD_NONE ∧ (s.ftable f).ref = 1 ∧
    (0 < g.frefs f ∨ ∃ fd, (s.proc q).ofile fd = some f)
  isfresh : ∀ n t dp, g.fresh = some (n, t, dp) → n < sb.ninodes ∧ t ≠ 0 ∧
    dinode sb s.disk n = blank t ∧
    ∀ j, 0 < (s.icache j).ref → (s.icache j).inum = n → (s.icache j).valid = false
  below : ∀ dp i n, g.order = some (dp, i, n) → 0 < g.refs dp ∧ 0 < g.refs i
  number : ∀ i n, g.Numbers i n → (s.icache i).inum = n

/-- The ghost states `G` fit the state `s`. -/
structure Coh (s : FsState) (G : Pid → Ghost) : Prop where
  vol : Volume sb s.disk
  root_lt : ROOTINO < sb.ninodes
  cache : Cache sb s
  /-- `ref` counts the references. -/
  iref : ∀ i, (s.icache i).ref = (s.opens i + ∑ q, (G q).slotRefs (s.proc q).cwd i : Nat)
  fref : ∀ f, (s.ftable f).ref = (∑ q, (G q).fileRefs (s.proc q).ofile f : Nat)
  lock : ∀ i q, (s.icache i).lock = some q ↔ (G q).held i ≠ none
  file_free : ∀ f, (s.ftable f).ref = 0 → (s.ftable f).type = .FD_NONE
  /-- The inode of an open file is loaded, and directories are not writable. -/
  file_inode : ∀ f, (s.ftable f).type = .FD_INODE →
    (s.icache (s.ftable f).ip).valid = true ∧ ((s.ftable f).writable = true →
      (dinode sb s.disk (s.icache (s.ftable f).ip).inum).type ≠ T_DIR)
  knows : ∀ q, Knows sb s q (G q)
  /-- Nobody else refers to a fresh inode, or has it too. -/
  fresh_refs : ∀ q n t dp, (G q).fresh = some (n, t, dp) → ∀ r, r ≠ q → ∀ j, 0 < (G r).refs j →
    (s.icache j).inum ≠ n
  fresh_ne : ∀ q n t dp, (G q).fresh = some (n, t, dp) → ∀ r, r ≠ q → ∀ t' dp',
    (G r).fresh ≠ some (n, t', dp')
  /-- Nobody else makes use of an inode whose only reference `iput` has seen. -/
  sole_held : ∀ q i, (G q).sole = some i → (G q).held i ≠ none ∧ 0 < (G q).refs i
  sole_open : ∀ q i, (G q).sole = some i → ∀ f, (s.ftable f).type = .FD_INODE →
    (s.ftable f).ip ≠ i
  sole_cwd : ∀ q i, (G q).sole = some i → ∀ r, (s.proc r).cwd = some i → (G r).moved = true
  sole_pin : ∀ q i, (G q).sole = some i → ∀ r, r ≠ q → ∀ t, (G r).pin ≠ some (i, t)

/-! ## First consequences -/

variable {sb} {s : FsState} {G : Pid → Ghost} {p q : Pid} {i : Slot}

theorem Coh.ref_of_refs (h : Coh sb s G) (hr : 0 < (G q).slotRefs (s.proc q).cwd i) :
    0 < (s.icache i).ref := by
  have hle := Accounts.le_sum (f := fun q => (G q).slotRefs (s.proc q).cwd i) q
  rw [h.iref i]
  omega

theorem Ghost.refs_le_slotRefs (g : Ghost) (cwd : Option Slot) (i : Slot) :
    g.refs i ≤ g.slotRefs cwd i := by
  unfold Ghost.slotRefs
  omega

section

variable (h : Coh sb s G)
include h

/-- An entry a process refers to is in use. -/
theorem Coh.ref_pos (hr : 0 < (G q).refs i) : 0 < (s.icache i).ref :=
  h.ref_of_refs (lt_of_lt_of_le hr (Ghost.refs_le_slotRefs _ _ _))

theorem Coh.ref_pos_of_drop (hd : (G q).drop = some i) : 0 < (s.icache i).ref := by
  refine h.ref_of_refs (q := q) ?_
  unfold Ghost.slotRefs
  rw [if_pos hd]
  omega

/-- So is the inode of an open file. -/
theorem Coh.ref_pos_of_open {f : FileSlot} (ht : (s.ftable f).type = .FD_INODE)
    (hi : (s.ftable f).ip = i) : 0 < (s.icache i).ref := by
  have hle := Accounts.le_sum
    (f := fun f => if (s.ftable f).type = .FD_INODE ∧ (s.ftable f).ip = i then 1 else 0) f
  simp only [ht, hi, and_self, if_true] at hle
  rw [h.iref i]
  unfold FsState.opens
  omega

/-- And one whose lock is held. -/
theorem Coh.ref_pos_of_held (hh : (G q).held i ≠ none) : 0 < (s.icache i).ref := by
  rcases (h.knows q).held_ref i hh with hr | hd | ⟨u, hu, ht, hi⟩
  · exact h.ref_pos hr
  · exact h.ref_pos_of_drop hd
  · obtain ⟨_, ht', hi', _⟩ := (h.knows q).used u hu
    exact h.ref_pos_of_open (ht'.trans ht) (hi'.trans hi)

/-- And a current directory. -/
theorem Coh.ref_pos_of_cwd (hc : (s.proc q).cwd = some i) (hm : (G q).moved = false) :
    0 < (s.icache i).ref := by
  refine h.ref_of_refs (q := q) ?_
  unfold Ghost.slotRefs
  rw [if_pos (show (s.proc q).cwd = some i ∧ (G q).moved = false from ⟨hc, hm⟩)]
  omega

/-- Locks exclude each other. -/
theorem Coh.held_unique (hp : (G p).held i ≠ none) (hq : (G q).held i ≠ none) : q = p := by
  have h1 := (h.lock i p).mpr hp
  have h2 := (h.lock i q).mpr hq
  rw [h1] at h2
  exact (Option.some.inj h2).symm

theorem Coh.held_none (hp : (G p).held i ≠ none) (hq : q ≠ p) : (G q).held i = none := by
  by_contra hne
  exact hq (h.held_unique hp hne)

/-- A loaded entry agrees with the disk. -/
theorem Coh.synced (hr : 0 < (s.icache i).ref) (hv : (s.icache i).valid = true) :
    Synced sb s i := by
  obtain ⟨hcopy, htype⟩ := h.cache.sync i hr hv
  exact ⟨⟨h.cache.inum_lt i hr, by rw [← hcopy]; exact htype⟩, hcopy⟩

/-- What the holder of a lock knows, as facts about the state. -/
theorem Coh.synced_of_held {site : Site} {x : Snap} (hh : (G q).held i = some ⟨site, some x⟩) :
    Synced sb s i ∧ (s.icache i).toDinode = x.d ∧ s.bytes sb i = x.c := by
  obtain ⟨hv, hd, hc⟩ := (h.knows q).snap i site x hh
  have hs := h.synced (h.ref_pos_of_held (q := q) (by simp [hh])) hv
  exact ⟨hs, by rw [hs.copy, hd], hc⟩

end

/-- The number is known of entries the process refers to or holds. -/
theorem Knows.numbers_use {g : Ghost} {n : Nat} (h : Knows sb s q g) (hn : g.Numbers i n) :
    0 < g.refs i ∨ g.held i ≠ none := by
  rcases hn with ⟨site, x, hx, _⟩ | ⟨t, ht⟩ | ⟨dp, ho⟩
  · exact Or.inr (by simp [hx])
  · exact Or.inl (h.pinned i _ ht).1
  · exact Or.inl (h.below dp i n ho).2

/-- A process's knowledge survives what does not touch it. -/
theorem Knows.mono {s' : FsState} {g : Ghost} (h : Knows sb s q g)
    (hinum : ∀ i, 0 < g.refs i ∨ g.held i ≠ none → (s'.icache i).inum = (s.icache i).inum)
    (hvalid : ∀ i, (∃ t, g.pin = some (i, t)) ∨ (∃ site x, g.held i = some ⟨site, some x⟩) →
      (s.icache i).valid = true → (s'.icache i).valid = true)
    (hsnap : ∀ i site x, g.held i = some ⟨site, some x⟩ →
      dinode sb s'.disk (s.icache i).inum = dinode sb s.disk (s.icache i).inum ∧
      data sb s'.disk (s.icache i).inum = data sb s.disk (s.icache i).inum)
    (hpin : ∀ i t, g.pin = some (i, t) → (dinode sb s'.disk (s.icache i).inum).type =
      (dinode sb s.disk (s.icache i).inum).type)
    (hofile : (s'.proc q).ofile = (s.proc q).ofile)
    (huse : ∀ u, g.use = some u → (s'.ftable u.file).type = (s.ftable u.file).type ∧
      (s'.ftable u.file).ip = (s.ftable u.file).ip ∧
      (s'.ftable u.file).writable = (s.ftable u.file).writable)
    (hnew : ∀ f, g.fnew = some f → (s'.ftable f).type = (s.ftable f).type ∧
      (s'.ftable f).ref = (s.ftable f).ref)
    (hfresh : ∀ n t dp, g.fresh = some (n, t, dp) →
      dinode sb s'.disk n = dinode sb s.disk n ∧
      ∀ j, 0 < (s'.icache j).ref → (s'.icache j).inum = n → (s'.icache j).valid = false) :
    Knows sb s' q g where
  held_ref := h.held_ref
  snap i site x hx := by
    obtain ⟨hv, hd, hc⟩ := h.snap i site x hx
    obtain ⟨hd', hc'⟩ := hsnap i site x hx
    rw [hinum i (Or.inr (by simp [hx]))]
    exact ⟨hvalid i (Or.inr ⟨site, x, hx⟩) hv, hd'.trans hd, hc'.trans hc⟩
  pinned i t ht := by
    obtain ⟨hr, hv, hd⟩ := h.pinned i t ht
    rw [hinum i (Or.inl hr)]
    exact ⟨hr, hvalid i (Or.inl ⟨t, ht⟩) hv, (hpin i t ht).trans hd⟩
  used u hu := by
    obtain ⟨hfd, h1, h2, h3⟩ := h.used u hu
    obtain ⟨e1, e2, e3⟩ := huse u hu
    rw [hofile, e1, e2, e3]
    exact ⟨hfd, h1, h2, h3⟩
  newfile f hf := by
    obtain ⟨h1, h2, h3⟩ := h.newfile f hf
    obtain ⟨e1, e2⟩ := hnew f hf
    rw [hofile, e1, e2]
    exact ⟨h1, h2, h3⟩
  isfresh n t dp hf := by
    obtain ⟨h1, h2, h3, _⟩ := h.isfresh n t dp hf
    obtain ⟨e1, e2⟩ := hfresh n t dp hf
    exact ⟨h1, h2, e1.trans h3, e2⟩
  below := h.below
  number i n hn := by
    rw [← h.number i n hn]
    exact hinum i (h.numbers_use hn)

end Xv6.Fs
