import Xv6.Fs.Boot
import Xv6.Fs.ExecCreate

/-! # System calls one at a time

    `atomicSystem` runs system calls of any number of processes one after the
    other, each without interference; its runs are among the interleavings of
    `fsSystem`. Between two calls all ghost states are idle, so a regime only
    has to say how one call keeps its invariant.
-/

namespace Xv6.Fs

open Op Prog Function

variable (sb : Superblock)

/-- Processes that make system calls one at a time. A call that panics or
    waits for ever ends the run. -/
def atomicSystem (init : FsState → Prop) : LTS.System FsState (Pid × Call) where
  init := init
  next s l :=
    match (syscall sb l.1 l.2).run s with
    | .ok _ s' => some s'
    | _ => none

variable {sb}

theorem atomicSystem_next {init : FsState → Prop} {s s' : FsState} {l : Pid × Call}
    (h : (atomicSystem sb init).next s l = some s') : ∃ r, (syscall sb l.1 l.2).run s = .ok r s' := by
  change (match (syscall sb l.1 l.2).run s with
    | .ok _ s' => some s' | _ => none) = some s' at h
  cases hrun : (syscall sb l.1 l.2).run s with
  | ok r s₁ => rw [hrun] at h; cases h; exact ⟨r, rfl⟩
  | panic msg => rw [hrun] at h; cases h
  | blocked => rw [hrun] at h; cases h

/-! ## Regimes for single calls -/

/-- Nobody but `p` is inside a call. -/
def Alone (labs : Pid → Option Act) (p : Pid) : Prop := ∀ q, q ≠ p → labs q = none

theorem alone_only (p : Pid) (l : Act) : Alone (Logic.only p l) p :=
  fun _ hq => update_of_ne hq _ _

section

variable {R : Rules} {p : Pid} {l : Act} {s : FsState} {G : Pid → Ghost}
  {labs : Pid → Option Act}

theorem others_idle (hat : (R.logic sb).At p (G p) l s G labs) (h : Alone labs p) {q : Pid}
    (hq : q ≠ p) : G q = .idle := by
  have := hat.agree q
  rw [h q hq] at this
  exact this

/-- When calls are made one at a time, nobody else holds on to anything: only
    the invariant and the two panics need an argument. -/
theorem lawful_of_alone (halone : ∀ labs s p l, R.Cond labs s p l → Alone labs p)
    (benign : ∀ msg, msg ≠ "ilock: no type" → msg ≠ "freeing free block" → R.Fine msg)
    (step : ∀ {p l s G labs s' g'}, (R.logic sb).At p (G p) l s G labs → Trans sb p G s l s' g' →
      R.Inv s' (update G p g'))
    (typed : ∀ {p s G labs i site}, (R.logic sb).At p (G p) (.acquire i site) s G labs →
      0 < (G p).refs i → (G p).fresh = none → (G p).dead = none →
      (dinode sb s.disk (s.icache i).inum).type = 0 → R.Fine "ilock: no type") :
    R.Lawful sb := by
  have hfresh : ∀ {p l s G labs}, (R.logic sb).At p (G p) l s G labs → ∀ n, NotFresh p G n := by
    intro p l s G labs hat n q hq t dp
    rw [others_idle hat (halone _ _ _ _ hat.cond) hq]
    exact fun h => by cases h
  refine ⟨benign, step, typed, fun hat => hfresh hat _, fun hat _ _ _ => hfresh hat _,
    fun hat _ _ => hfresh hat _, fun hat _ r hr j hj => ?_⟩
  rw [others_idle hat (halone _ _ _ _ hat.cond) hr] at hj
  exact absurd hj (Nat.lt_irrefl 0)

/-- One call, under a regime for single calls. -/
theorem wlp_syscall (hR : R.Lawful sb) (hcond : ∀ l s, R.Cond (Logic.only p l) s p l) (c : Call)
    (hc : R.strict → c.NoDotLink) (hcoh : Coh sb s fun _ => .idle) (hinv : R.Inv s fun _ => .idle) :
    (syscall sb p c).run.wlp R.Fine
      (fun _ s' => Coh sb s' (fun _ => .idle) ∧ R.Inv s' fun _ => .idle) s := by
  have hrun := (safe_syscall (p := p) hR c hc).run (G := fun _ => Ghost.idle) ⟨hcoh, hinv⟩ rfl
    (fun _ _ => rfl) (.of_forall _ fun l s => hcond l s)
  apply hrun.mono (fun _ => id)
  intro r s' hs
  obtain ⟨g', ⟨hcoh', hinv'⟩, hg⟩ := hs
  subst hg
  rw [show update (fun _ => Ghost.idle) p Ghost.idle = fun _ => Ghost.idle from
    update_eq_self p fun _ => Ghost.idle] at hcoh' hinv'
  exact ⟨hcoh', hinv'⟩

end

/-! ## The blocks of the files -/

/-- The regime without an invariant of its own. -/
def plainRules : Rules where
  Inv _ _ := True
  Cond labs _ p _ := Alone labs p
  Fine msg := msg ≠ "freeing free block"
  strict := False

theorem plainRules_lawful : plainRules.Lawful sb :=
  lawful_of_alone (fun _ _ _ _ h => h) (fun _ _ h => h) (fun _ _ => trivial)
    fun _ _ _ _ _ => show "ilock: no type" ≠ "freeing free block" by decide

/-- A state between two calls: the disk is a `Volume`, and the inode cache,
    the file table and the processes fit it and each other. -/
def Settled (sb : Superblock) (s : FsState) : Prop := Coh sb s fun _ => .idle

/-- A single call from a settled state. -/
theorem Settled.syscall {s : FsState} (h : Settled sb s) (p : Pid) (c : Call) :
    (syscall sb p c).run.wlp (fun msg => msg ≠ "freeing free block") (fun _ s' => Settled sb s') s := by
  have hcall := wlp_syscall plainRules_lawful (p := p) (fun l _ => alone_only p l) c
    (fun h => h.elim) h trivial
  exact hcall.mono (fun _ => id) fun _ _ h => h.1

theorem settled_of_reachable {s : FsState} (h : LTS.Reachable (atomicSystem sb (Settled sb)) s) :
    Settled sb s := by
  apply h.invariant (fun _ hs => hs)
  intro s l s' hs hnext
  obtain ⟨r, hrun⟩ := atomicSystem_next hnext
  exact (hs.syscall l.1 l.2).of_ok hrun

/-- Every block number in a pointer slot of an allocated inode is a data
    block, stands in no other slot, and the free map marks exactly the
    metadata and these blocks. -/
structure BlockOwnership (sb : Superblock) (disk : Disk) : Prop where
  range : ∀ n ∈ inodes sb disk, ∀ k < NPTR, ptr disk (dinode sb disk n) k ≠ 0 →
    sb.datastart ≤ ptr disk (dinode sb disk n) k ∧ ptr disk (dinode sb disk n) k < sb.size
  once : ∀ n ∈ inodes sb disk, ∀ m ∈ inodes sb disk, ∀ k < NPTR, ∀ l < NPTR,
    ptr disk (dinode sb disk n) k ≠ 0 →
    ptr disk (dinode sb disk n) k = ptr disk (dinode sb disk m) l → n = m ∧ k = l
  bits : ∀ b < sb.nbits, bit sb disk b = true ↔
    b < sb.datastart ∨ ∃ n ∈ inodes sb disk, ∃ k < NPTR, b = ptr disk (dinode sb disk n) k ∧ b ≠ 0

/-- Every block below the size of a file is allocated. -/
def NoHoles (sb : Superblock) (disk : Disk) : Prop :=
  ∀ n ∈ inodes sb disk, ∀ bn, bn * BSIZE < (dinode sb disk n).size.toNat →
    bn < MAXFILE ∧ ptr disk (dinode sb disk n) (slotOf bn) ≠ 0

/-- Directory entries name inode numbers that exist. -/
def NamesExist (sb : Superblock) (disk : Disk) : Prop :=
  ∀ n ∈ inodes sb disk, (dinode sb disk n).type = T_DIR → NamesBelow sb.ninodes (data sb disk n)

/-- The blocks in use, in terms of the pointer slots of the inodes. -/
theorem owned_iff {disk : Disk} {b : Nat} :
    (b < sb.datastart ∨ ∃ κ, own disk (inodes sb disk) (dinode sb disk) κ ≠ 0 ∧
      own disk (inodes sb disk) (dinode sb disk) κ = b) ↔
    b < sb.datastart ∨
      ∃ n ∈ inodes sb disk, ∃ k < NPTR, b = ptr disk (dinode sb disk n) k ∧ b ≠ 0 := by
  constructor
  · rintro (hlt | ⟨⟨n, k⟩, h0, heq⟩)
    · exact Or.inl hlt
    · obtain ⟨hn, hk⟩ := mem_of_own_ne_zero h0
      rw [own_eq hn hk] at heq
      exact Or.inr ⟨n, hn, k, hk, heq.symm, by rw [← heq, ← own_eq hn hk]; exact h0⟩
  · rintro (hlt | ⟨n, hn, k, hk, heq, h0⟩)
    · exact Or.inl hlt
    · exact Or.inr ⟨(n, k), by rw [own_eq hn hk, ← heq]; exact h0, by rw [own_eq hn hk, ← heq]⟩

/-- `Image` and `NoLeak` of all inodes, in terms of their pointer slots. -/
theorem blockOwnership_of_image {disk : Disk}
    (him : DiskImage sb disk)
    (hleak : NoLeak sb disk (inodes sb disk) (dinode sb disk)) : BlockOwnership sb disk where
  range n hn k hk h0 := by
    have := him.owns.range (n, k)
    rw [own_eq hn hk] at this
    exact this h0
  once n hn m hm k hk l hl h0 heq := by
    have := him.owns.inj (n, k) (m, l)
    rw [own_eq hn hk, own_eq hm hl] at this
    cases this h0 heq
    exact ⟨rfl, rfl⟩
  bits b hb := (hleak b hb).trans owned_iff

theorem noHoles_of_image {disk : Disk} (him : DiskImage sb disk) :
    NoHoles sb disk := fun n hn bn hbn => by
  obtain ⟨hlt, h0⟩ := him.nohole n hn bn hbn
  rw [own_eq hn (slotOf_lt hlt)] at h0
  exact ⟨hlt, h0⟩

theorem volume_of {disk : Disk} (hown : BlockOwnership sb disk) (hholes : NoHoles sb disk)
    (hnames : NamesExist sb disk) : Volume sb disk where
  image := {
    owns := {
      range := fun κ h0 => by
        obtain ⟨hn, hk⟩ := mem_of_own_ne_zero h0
        rw [own_eq hn hk] at h0 ⊢
        exact hown.range κ.1 hn κ.2 hk h0
      inj := fun κ l h0 heq => by
        obtain ⟨hn, hk⟩ := mem_of_own_ne_zero h0
        obtain ⟨hm, hl⟩ := mem_of_own_ne_zero (heq ▸ h0)
        rw [own_eq hn hk] at h0 heq
        rw [own_eq hm hl] at heq
        obtain ⟨h1, h2⟩ := hown.once κ.1 hn l.1 hm κ.2 hk l.2 hl h0 heq
        exact Prod.ext h1 h2
      marked := fun κ h0 => by
        obtain ⟨hn, hk⟩ := mem_of_own_ne_zero h0
        rw [own_eq hn hk] at h0 ⊢
        have hlt := (hown.range κ.1 hn κ.2 hk h0).2
        have := sb.size_le_nbits
        exact (hown.bits _ (by omega)).mpr (Or.inr ⟨κ.1, hn, κ.2, hk, rfl, h0⟩) }
    nohole := fun n hn bn hbn => by
      obtain ⟨hlt, h0⟩ := hholes n hn bn hbn
      exact ⟨hlt, by rw [own_eq hn (slotOf_lt hlt)]; exact h0⟩
    meta_marked := fun b hb => by
      have := sb.size_le_nbits
      have := sb.datastart_le_size
      exact (hown.bits b (by omega)).mpr (Or.inl hb) }
  noleak b hb := (hown.bits b hb).trans owned_iff.symm
  names := hnames

/-- **Block ownership.** On a disk where blocks are owned, no file has holes
    and directories name inode numbers that exist, any sequence of system
    calls leaves every block owned once and the free map exact; no call ever
    frees a free block. -/
theorem block_ownership (sb : Superblock) (disk : Disk) (P : Finset Pid)
    (hown : BlockOwnership sb disk) (hholes : NoHoles sb disk) (hnames : NamesExist sb disk)
    (hroot : ROOTINO < sb.ninodes) {s : FsState}
    (h : LTS.Reachable (atomicSystem sb fun s => s = boot disk P) s) :
    BlockOwnership sb s.disk ∧
      ∀ p c, (syscall sb p c).run s ≠ .panic "freeing free block" := by
  have hs : Settled sb s := by
    refine settled_of_reachable (h.mono (fun s₀ h₀ => ?_) fun _ _ _ => id)
    subst h₀
    exact boot_coh (volume_of hown hholes hnames) hroot P
  refine ⟨blockOwnership_of_image hs.vol.image hs.vol.noleak, fun p c hpanic => ?_⟩
  exact (hs.syscall p c).of_panic hpanic rfl

/-- On the disk that `mkfs` makes of no files, after a directory has been
    made. -/
theorem block_ownership_mkdir : ∃ s,
    LTS.Reachable (atomicSystem .mkfs fun s => s = boot rootImage {0}) s ∧
    (dinode .mkfs s.disk 2).type = T_DIR ∧ BlockOwnership .mkfs s.disk ∧
    ∀ p c, (syscall .mkfs p c).run s ≠ .panic "freeing free block" := by
  have hexec : ((atomicSystem .mkfs fun s => s = boot rootImage {0}).exec (fun _ _ => true)
      (boot rootImage {0}) [(0, .mkdir (some (bytesOf "/a")))]).any (fun s =>
        decide ((dinode .mkfs s.disk 2).type = T_DIR)) = true := by decide +kernel
  obtain ⟨s, hs, htype⟩ := (Option.any_eq_true _ _).mp hexec
  have hreach := (LTS.reachable_of_exec rfl hs).of_restrict
  have hvol := volume_rootImage
  exact ⟨s, hreach, by simpa using htype,
    block_ownership .mkfs rootImage {0} (blockOwnership_of_image hvol.image hvol.noleak)
      (noHoles_of_image hvol.image) hvol.names (by decide) hreach⟩

/-- A root directory with an entry beyond the inodes: inode 208 would lie in
    the free map. -/
def strayDisk : Disk := rootDisk [(".", ROOTINO), ("..", ROOTINO), ("x", 208)]

/-- On such a disk, removing the entry clears a bit of the free map that
    belongs to an inode block. -/
theorem block_ownership_stray_name :
    BlockOwnership .mkfs strayDisk ∧ NoHoles .mkfs strayDisk ∧ ∃ s,
      LTS.Reachable (atomicSystem .mkfs fun s => s = boot strayDisk {0}) s ∧
      ¬ BlockOwnership .mkfs s.disk := by
  have him := image_rootDisk [(".", ROOTINO), ("..", ROOTINO), ("x", 208)]
  refine ⟨blockOwnership_of_image him (noLeak_rootDisk _), noHoles_of_image him, ?_⟩
  have hexec : ((atomicSystem .mkfs fun s => s = boot strayDisk {0}).exec (fun _ _ => true)
      (boot strayDisk {0}) [(0, .unlink (some (bytesOf "/x")))]).any (fun s =>
        !(bit .mkfs s.disk 48)) = true := by decide +kernel
  obtain ⟨s, hs, hbit⟩ := (Option.any_eq_true _ _).mp hexec
  refine ⟨s, (LTS.reachable_of_exec rfl hs).of_restrict, fun h => ?_⟩
  have hset := (h.bits 48 (by decide)).mpr (Or.inl (by decide))
  rw [hset] at hbit
  cases hbit

/-! ## Between calls -/

theorem settled_of_boot {disk : Disk} {P : Finset Pid} {s : FsState} (hvol : Volume sb disk)
    (hroot : ROOTINO < sb.ninodes)
    (h : LTS.Reachable (atomicSystem sb fun s => s = boot disk P) s) : Settled sb s := by
  refine settled_of_reachable (h.mono (fun s₀ h₀ => ?_) fun _ _ _ => id)
  subst h₀
  exact boot_coh hvol hroot P

/-- A file has been made and opened once more; the entry of the root directory
    is loaded. -/
theorem reopen_run : ∃ s,
    LTS.Reachable (atomicSystem .mkfs fun s => s = boot rootImage {0}) s ∧
    ((s.ftable 0).ref = 1 ∧ (s.icache (s.ftable 0).ip).inum = 2 ∧ (s.icache (s.ftable 0).ip).ref = 2) ∧
    0 < (s.icache 0).ref ∧ (s.icache 0).valid = true := by
  have hexec : ((atomicSystem .mkfs fun s => s = boot rootImage {0}).exec (fun _ _ => true)
      (boot rootImage {0}) [(0, .open (some (bytesOf "/a")) O_CREATE), (0, .open (some (bytesOf "/a")) O_RDONLY)]).any (fun s =>
        decide (((s.ftable 0).ref = 1 ∧ (s.icache (s.ftable 0).ip).inum = 2 ∧
          (s.icache (s.ftable 0).ip).ref = 2) ∧ 0 < (s.icache 0).ref ∧
          (s.icache 0).valid = true)) = true := by decide +kernel
  obtain ⟨s, hs, hdone⟩ := LTS.exists_run_of_exec hexec
  exact ⟨s, (LTS.Reachable.init rfl).run hs.of_restrict, hdone⟩

/-- **The inode cache is write-through.** Between calls, every entry that is
    referred to and loaded holds the fields of its inode on disk, and that
    inode is allocated. -/
theorem inode_cache_write_through (sb : Superblock) (disk : Disk) (P : Finset Pid)
    (hvol : Volume sb disk) (hroot : ROOTINO < sb.ninodes) {s : FsState}
    (h : LTS.Reachable (atomicSystem sb fun s => s = boot disk P) s) {i : Slot}
    (href : 0 < (s.icache i).ref) (hvalid : (s.icache i).valid = true) :
    (s.icache i).toDinode = dinode sb s.disk (s.icache i).inum ∧
      (s.icache i).inum ∈ inodes sb s.disk := by
  have hsync := (settled_of_boot hvol hroot h).synced href hvalid
  exact ⟨hsync.copy, hsync.mem⟩

theorem inode_cache_write_through_root : ∃ s,
    LTS.Reachable (atomicSystem .mkfs fun s => s = boot rootImage {0}) s ∧
    0 < (s.icache 0).ref ∧ (s.icache 0).valid = true ∧
    (s.icache 0).toDinode = dinode .mkfs s.disk (s.icache 0).inum := by
  obtain ⟨s, hreach, -, href, hvalid⟩ := reopen_run
  exact ⟨s, hreach, href, hvalid, (inode_cache_write_through .mkfs rootImage {0} volume_rootImage
    (by decide) hreach href hvalid).1⟩

/-! ## The interleaved system -/

/-- Between two calls `fsSystem` can be where `atomicSystem` is. -/
theorem atomicSystem_interleaves {init : FsState → Prop} {s : FsState}
    (h : LTS.Reachable (atomicSystem sb init) s) :
    LTS.Reachable (fsSystem sb fun c => ∃ s₀, init s₀ ∧ c = .rest s₀) (.rest s) := by
  refine reachable_of_serial (callProg sb) (fun {s l s'} hnext => ?_) h
  obtain ⟨r, hrun⟩ := atomicSystem_next hnext
  unfold callProg
  rw [run_bind, bind_of_ok hrun]
  rfl

end Xv6.Fs
