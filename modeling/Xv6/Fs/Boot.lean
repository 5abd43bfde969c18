import Xv6.Fs.Ghost

/-! # The state after boot

    `boot disk P` is the state in which the system calls begin: the disk is
    what was found, no file is open, and the processes `P` have the root
    directory as their current directory, as `userinit` sets it for the first
    process and `fork` copies it. It is coherent when the disk is a `Volume`.

    `rootImage` is the smallest disk that `mkfs` makes: a root directory with
    its two dots.
-/

namespace Xv6.Fs

open BitRange Ownership Function

/-- An entry of the inode cache that is not in use. -/
def Inode.empty : Inode :=
  { Dinode.zero with dev := 0, inum := 0, ref := 0, lock := none, valid := false }

/-- The state after boot. -/
def boot (disk : Disk) (P : Finset Pid) : FsState where
  disk := disk
  outstanding := 0
  icache i :=
    if i = 0 then { Inode.empty with dev := ROOTDEV, inum := ROOTINO, ref := P.card } else .empty
  ftable _ := ⟨.FD_NONE, 0, false, false, 0, 0⟩
  proc q := ⟨fun _ => none, if q ∈ P then some 0 else none⟩

section

variable {sb : Superblock} {disk : Disk} {P : Finset Pid}

theorem boot_icache_zero :
    (boot disk P).icache 0 = { Inode.empty with dev := ROOTDEV, inum := ROOTINO, ref := P.card } :=
  rfl

theorem boot_icache_ne {i : Slot} (h : i ≠ 0) : (boot disk P).icache i = .empty := if_neg h

theorem boot_ref {i : Slot} (h : 0 < ((boot disk P).icache i).ref) : i = 0 := by
  by_contra hne
  rw [boot_icache_ne hne] at h
  exact absurd h (by decide)

theorem boot_valid (i : Slot) : ((boot disk P).icache i).valid = false := by
  by_cases h : i = 0
  · subst h; rfl
  · rw [boot_icache_ne h]; rfl

theorem boot_lock (i : Slot) : ((boot disk P).icache i).lock = none := by
  by_cases h : i = 0
  · subst h; rfl
  · rw [boot_icache_ne h]; rfl

/-- The references are the current directories. -/
theorem boot_iref (i : Slot) :
    ((boot disk P).icache i).ref =
      ((boot disk P).opens i + ∑ q, Ghost.idle.slotRefs ((boot disk P).proc q).cwd i : Nat) := by
  have hopens : (boot disk P).opens i = 0 := by
    unfold FsState.opens
    exact Finset.sum_eq_zero fun f _ => if_neg fun h => absurd h.1 (by simp [boot])
  have hcwd : ∀ q, Ghost.idle.slotRefs ((boot disk P).proc q).cwd i =
      if q ∈ P ∧ i = 0 then 1 else 0 := fun q => by
    unfold Ghost.slotRefs
    by_cases hq : q ∈ P <;> simp [boot, hq, Ghost.idle, Ghost.rest, eq_comm]
  rw [hopens, Finset.sum_congr rfl fun q _ => hcwd q]
  by_cases hi : i = 0
  · subst hi
    simp [boot_icache_zero]
  · simp [boot_icache_ne hi, Inode.empty, hi]

/-- Nothing is known between two calls. -/
theorem knows_idle {s : FsState} {q : Pid} : Knows sb s q .idle where
  held_ref _ h := absurd rfl h
  snap _ _ _ h := by cases h
  pinned _ _ h := by cases h
  used _ h := by cases h
  newfile _ h := by cases h
  isfresh _ _ _ h := by cases h
  below _ _ _ h := by cases h
  number i n h := by
    rcases h with ⟨_, _, h, _⟩ | ⟨_, h⟩ | ⟨_, h⟩ <;> cases h

/-- After boot, nothing is going on and the counts are right. -/
theorem boot_coh (hvol : Volume sb disk) (hroot : ROOTINO < sb.ninodes) (P : Finset Pid) :
    Coh sb (boot disk P) fun _ => .idle where
  vol := hvol
  root_lt := hroot
  cache := {
    inum_lt := fun i hi => by rw [boot_ref hi]; exact hroot
    dev := fun i hi => by rw [boot_ref hi]; rfl
    inj := fun i j hi hj _ => (boot_ref hi).trans (boot_ref hj).symm
    sync := fun i _ hv => by rw [boot_valid] at hv; cases hv }
  iref := boot_iref
  fref f := by simp [boot, Ghost.fileRefs, Ghost.idle, Ghost.rest]
  lock i q := by simp [boot_lock, Ghost.idle, Ghost.rest]
  file_free _ _ := rfl
  file_inode _ h := by cases h
  knows _ := knows_idle
  fresh_refs _ _ _ _ h := by cases h
  fresh_ne _ _ _ _ h := by cases h
  sole_held _ _ h := by cases h
  sole_open _ _ h := by cases h
  sole_cwd _ _ h := by cases h
  sole_pin _ _ h := by cases h

end

/-! ## The smallest disk -/

/-- The bytes `bs` at the start of a block of zeroes. -/
def blockOf (bs : List Byte) : Block := bs.foldr (fun b acc => (acc <<< 8) ||| b.setWidth _) 0

/-- The inode of a root directory that lies in block 59. -/
def rootInode : Dinode := { Dinode.zero with type := T_DIR, nlink := 1, size := BSIZE }.setAddr 0 59

/-- The inode blocks and the free map of a disk with a root directory and
    nothing else. -/
def rootMeta : Disk :=
  update (setDinode .mkfs (fun _ => 0) ROOTINO rootInode) 58 (BitVec.ofNat _ (2 ^ 60 - 1))

/-- Such a disk; `entries` are the entries of the directory. -/
def rootDisk (entries : List (String × Nat)) : Disk :=
  update rootMeta 59 (blockOf (entries.flatMap fun e => direntBytes (bytesOf e.1) e.2))

/-- What `mkfs` makes of no files. -/
def rootImage : Disk := rootDisk [(".", ROOTINO), ("..", ROOTINO)]

section

variable (entries : List (String × Nat))

theorem dinode_rootDisk {n : Nat} (hn : n < 200) :
    dinode .mkfs (rootDisk entries) n = if n = ROOTINO then rootInode else .zero := by
  have hmeta : ∀ n < 200, dinode .mkfs rootMeta n = if n = ROOTINO then rootInode else .zero := by
    decide +kernel
  rw [← hmeta n hn]
  exact dinode_update_data _ hn (by decide)

theorem bit_rootDisk {b : Nat} (hb : b < 4096) :
    bit .mkfs (rootDisk entries) b = decide (b < 60) := by
  have hblock : Superblock.mkfs.BBLOCK b = 58 := by
    show b / 4096 + 58 = 58
    omega
  rw [show bit .mkfs (rootDisk entries) b = bit .mkfs rootMeta b from
    bit_update_data _ hb (by decide)]
  unfold bit rootMeta
  rw [hblock, update_self, BitVec.getLsbD_ofNat, Nat.testBit_two_pow_sub_one,
    Nat.mod_eq_of_lt (show b < BPB from hb), decide_eq_true (show b < 8 * BSIZE from hb),
    Bool.true_and]

theorem inodes_rootDisk : inodes .mkfs (rootDisk entries) = {ROOTINO} := by
  ext n
  constructor
  · intro h
    obtain ⟨hn, htype⟩ := h
    rw [dinode_rootDisk entries hn] at htype
    by_contra hne
    rw [if_neg (show n ≠ ROOTINO from hne)] at htype
    exact htype rfl
  · intro h
    subst h
    exact ⟨by decide, by rw [dinode_rootDisk entries (by decide)]; decide⟩

/-- The root directory owns block 59. -/
theorem own_rootDisk (κ : Nat × Nat) :
    own (rootDisk entries) (inodes .mkfs (rootDisk entries)) (dinode .mkfs (rootDisk entries)) κ =
      if κ = (ROOTINO, 0) then 59 else 0 := by
  obtain ⟨n, k⟩ := κ
  rw [inodes_rootDisk]
  by_cases h : n = ROOTINO ∧ k < NPTR
  · obtain ⟨rfl, hk⟩ := h
    rw [own_eq (Set.mem_singleton _) hk, dinode_rootDisk entries (by decide), if_pos rfl]
    have haddr : ∀ k ≤ NDIRECT, rootInode.addr k = if k = 0 then 59 else 0 := by
      decide +kernel
    by_cases hle : k ≤ NDIRECT
    · rw [ptr_of_le hle, haddr k hle]
      simp
    · rw [ptr_eq_zero (by omega) (haddr NDIRECT le_rfl), if_neg]
      intro heq
      cases heq
      exact hle (Nat.zero_le _)
  · rw [if_neg, own, if_neg (show ¬ (n ∈ ({ROOTINO} : Set Nat) ∧ k < NPTR) from h)]
    intro heq
    cases heq
    exact h ⟨rfl, by decide⟩

/-- A slot that owns a block is the first one of the root directory. -/
theorem own_rootDisk_eq {κ : Nat × Nat}
    (h : own (rootDisk entries) (inodes .mkfs (rootDisk entries))
      (dinode .mkfs (rootDisk entries)) κ ≠ 0) :
    κ = (ROOTINO, 0) ∧ own (rootDisk entries) (inodes .mkfs (rootDisk entries))
      (dinode .mkfs (rootDisk entries)) κ = 59 := by
  rw [own_rootDisk] at h ⊢
  by_cases hκ : κ = (ROOTINO, 0)
  · exact ⟨hκ, if_pos hκ⟩
  · exact absurd (if_neg hκ) h

/-- The blocks of such a disk are accounted for. -/
theorem image_rootDisk : Image .mkfs (rootDisk entries) (inodes .mkfs (rootDisk entries))
    (dinode .mkfs (rootDisk entries)) where
  owns := {
    range := fun κ h => by
      rw [(own_rootDisk_eq entries h).2]
      exact ⟨by decide, by decide⟩
    inj := fun κ l h heq => by
      have hκ := own_rootDisk_eq entries h
      exact hκ.1.trans (own_rootDisk_eq entries (heq ▸ h)).1.symm
    marked := fun κ h => by
      rw [(own_rootDisk_eq entries h).2]
      exact bit_rootDisk entries (by decide) }
  nohole n hn bn hbn := by
    rw [inodes_rootDisk] at hn
    obtain rfl : n = ROOTINO := hn
    rw [dinode_rootDisk entries (by decide), if_pos rfl] at hbn
    have h0 : bn = 0 := by
      change bn * 512 < 512 at hbn
      omega
    subst h0
    rw [own_rootDisk]
    exact ⟨by decide, by decide⟩
  meta_marked b hb := by
    change b < 59 at hb
    rw [bit_rootDisk entries (by omega)]
    exact decide_eq_true (by omega)

theorem noLeak_rootDisk : NoLeak .mkfs (rootDisk entries) (inodes .mkfs (rootDisk entries))
    (dinode .mkfs (rootDisk entries)) := by
  intro b hb
  rw [bit_rootDisk entries hb, decide_eq_true_eq]
  constructor
  · intro h
    by_cases h59 : b = 59
    · exact Or.inr ⟨(ROOTINO, 0), by rw [own_rootDisk]; decide, by rw [own_rootDisk, h59]; rfl⟩
    · exact Or.inl (show b < 59 by omega)
  · rintro (h | ⟨κ, h, rfl⟩)
    · change b < 59 at h
      omega
    · rw [(own_rootDisk_eq entries h).2]
      decide

end

theorem volume_rootImage : Volume .mkfs rootImage where
  image := image_rootDisk _
  noleak := noLeak_rootDisk _
  names n hn _ := by
    rw [show rootImage = rootDisk _ from rfl, inodes_rootDisk] at hn
    obtain rfl : n = ROOTINO := hn
    have h : ∀ k < 32, direntInum (entry (data .mkfs rootImage ROOTINO) k) < 200 := by decide +kernel
    intro k hk
    refine h k ?_
    have hlen : (data .mkfs rootImage ROOTINO).length = 512 := by
      rw [length_data, show rootImage = rootDisk _ from rfl, dinode_rootDisk _ (by decide)]
      rfl
    unfold HasEntry at hk
    rw [hlen] at hk
    simp only [DIRENT] at hk
    omega

end Xv6.Fs
