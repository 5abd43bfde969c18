import Xv6.Fs.DirOps
import Xv6.Fs.Syscall
import Xv6.Framework.Accounts
import Xv6.Framework.RelyGuarantee

/-! # Dropping the last reference

    Several processes hold references to one inode without links and drop
    them with `iput`. One of them is to free the inode: the one that finds
    `ip->ref` to be 1. But reading the count and decrementing it are two
    critical sections, and between them `iput` holds no lock: a process that
    has decided not to free the inode still counts as a reference when the
    next one looks. Two processes can so both decide not to free it.

    `no_lost_free` says when this cannot happen: whenever a process reads the
    count, no other process stands between its decision and its decrement.
    The invariant is that more references exist than there are processes that
    have decided not to free the inode.
-/

namespace Xv6.Fs

open Op Prog Function

/-! ## The system -/

/-- Process `p` drops `n` references. -/
def drops (sb : Superblock) (p : Pid) (ip : Slot) : Nat → FsProg Unit
  | 0 => pure ()
  | n + 1 => do
    iput sb p ip .plain
    drops sb p ip n

/-- Process `p` holds `refs p` references to the inode in entry `ip`, which is
    valid and has no links, and is about to drop them. -/
structure Dropping (sb : Superblock) (ip : Slot) (refs : Pid → Nat)
    (c : Config FsState Act Pid) : Prop where
  fault : c.fault = none
  thread : ∀ p, c.thread p = drops sb p ip (refs p)
  ref : (c.mem.icache ip).ref = ∑ p, refs p
  some_ref : ∃ p, 0 < refs p
  valid : (c.mem.icache ip).valid = true
  nlink : (c.mem.icache ip).nlink = 0
  lock : (c.mem.icache ip).lock = none

/-- The processes with their `iput` calls. -/
def dropSystem (sb : Superblock) (ip : Slot) :
    LTS.System (Config FsState Act Pid) (Label Pid Empty) :=
  system (fun c => ∃ refs, Dropping sb ip refs c) fun _ c => c.elim

/-- Whoever reads the reference count does so while no other process is about
    to decrement it. -/
def Unhurried (c : Config FsState Act Pid) : Label Pid Empty → Prop
  | .call _ _ => True
  | .step p => ∀ ip, c.labels p = some (.count ip) → ∀ q, q ≠ p → c.labels q ≠ some (.drop ip)

/-! ## What freeing does to the disk -/

/-- A free inode without contents. -/
structure Erased (d : Dinode) : Prop where
  type : d.type = 0
  size : d.size = 0
  addr : ∀ k, k ≤ NDIRECT → d.addr k = 0

variable {sb : Superblock} {E : String → Prop} {s : FsState} {ip : Slot} {Q : Unit → FsState → Prop}

/-- Whatever the disk looks like, `bfree` changes nothing but the disk. -/
theorem wp_bfree_frame {b : Nat} {disk : Disk} {d : Dinode} (hE : ∀ msg, E msg)
    (hQ : ∀ disk', Q () (s.withFile ip disk' d)) : wp (bfree sb b) E Q (s.withFile ip disk d) := by
  unfold bfree
  simp only [wp_bind, wp_get]
  split
  · exact hE _
  · refine wp_log_write (fun _ => hE _) ?_
    rw [setDisk_eq _ ip, withFile_withFile, withFile_copy]
    exact hQ _

theorem wp_itrunc_direct_frame (hE : ∀ msg, E msg) :
    wp (itrunc_direct sb ip) E (fun _ s' => ∃ disk d, s' = s.withFile ip disk d ∧
      ∀ k, k < NDIRECT → d.addr k = 0) s := by
  -- the loop has cleared the first `i` addresses
  refine wp_loop_zero (fun i s' => ∃ disk d, s' = s.withFile ip disk d ∧
    ∀ k, k < i → d.addr k = 0) ?_ ?_
  · exact ⟨s.disk, _, (withFile_self s ip).symm, fun k hk => absurd hk (Nat.not_lt_zero k)⟩
  · rintro i _ hi ⟨disk, d, rfl, hlow⟩
    simp only [wp_bind, wp_get, withFile_copy]
    by_cases h0 : d.addr i = 0
    · rw [if_pos h0, wp_pure]
      refine ⟨disk, d, rfl, fun k hk => ?_⟩
      by_cases hki : k = i
      · rw [hki, h0]
      · exact hlow k (by omega)
    · rw [if_neg h0, wp_bind]
      refine wp_bfree_frame hE fun disk' => ?_
      simp only [wp_modify, setCopy_eq, withFile_withFile, withFile_copy, withFile_disk]
      refine ⟨_, _, rfl, fun k hk => ?_⟩
      by_cases hki : k = i
      · rw [hki, Dinode.addr_setAddr_self _ hi.le (by decide)]
      · rw [Dinode.addr_setAddr_ne _ _ hki, hlow k (by omega)]

theorem wp_itrunc_indirect_frame {disk : Disk} {d : Dinode} (hE : ∀ msg, E msg)
    (hlow : ∀ k, k < NDIRECT → d.addr k = 0) :
    wp (itrunc_indirect sb ip) E (fun _ s' => ∃ disk' d', s' = s.withFile ip disk' d' ∧
      ∀ k, k ≤ NDIRECT → d'.addr k = 0) (s.withFile ip disk d) := by
  unfold itrunc_indirect
  simp only [wp_bind, wp_get, withFile_copy, withFile_disk]
  by_cases h0 : d.addr NDIRECT = 0
  · rw [if_pos h0, wp_pure]
    refine ⟨disk, d, rfl, fun k hk => ?_⟩
    by_cases hk' : k = NDIRECT
    · rw [hk', h0]
    · exact hlow k (by omega)
  · rw [if_neg h0]
    simp only [wp_bind]
    refine (wp_loop_zero (fun _ s' => ∃ disk', s' = s.withFile ip disk' d) ⟨disk, rfl⟩ ?_).imp ?_
    · rintro j _ _ ⟨disk', rfl⟩
      split
      · exact ⟨disk', rfl⟩
      · exact wp_bfree_frame hE fun disk'' => ⟨disk'', rfl⟩
    · rintro _ _ ⟨disk', rfl⟩
      refine wp_bfree_frame hE fun disk'' => ?_
      simp only [wp_modify, setCopy_eq, withFile_withFile, withFile_copy, withFile_disk]
      refine ⟨_, _, rfl, fun k hk => ?_⟩
      by_cases hk' : k = NDIRECT
      · rw [hk', Dinode.addr_setAddr_self _ le_rfl (by decide)]
      · rw [Dinode.addr_setAddr_ne _ _ hk', hlow k (by omega)]

/-- `iput_free`, when it returns, has erased the inode on disk. -/
theorem wp_iput_free_erases (hE : ∀ msg, E msg)
    (hQ : ∀ disk d, Erased (dinode sb disk (s.icache ip).inum) →
      Q () ((s.withFile ip disk d).setInode ip fun ino => { ino with valid := false })) :
    wp (iput_free sb ip) E Q s := by
  unfold iput_free itrunc
  simp only [wp_bind]
  refine (wp_itrunc_direct_frame hE).imp ?_
  rintro _ _ ⟨disk, d, rfl, hlow⟩
  refine (wp_itrunc_indirect_frame hE hlow).imp ?_
  rintro _ _ ⟨disk', d', rfl, hall⟩
  simp only [wp_modify, setCopy_eq, withFile_withFile, withFile_copy, withFile_disk]
  refine wp_iupdate (fun _ => hE _) ?_
  simp only [withFile_withFile, withFile_copy, withFile_disk, withFile_inum]
  refine wp_iupdate (fun _ => hE _) ?_
  simp only [withFile_withFile, withFile_copy, withFile_disk, withFile_inum]
  refine hQ _ _ ?_
  rw [dinode_setDinode_self]
  exact ⟨rfl, rfl, hall⟩

/-! ## Ghost state -/

/-- What a process has to do with the inode. -/
structure Putter where
  /-- The references it holds. -/
  left : Nat
  /-- It holds the sleep-lock. -/
  lock : Bool
  /-- It has decided not to free the inode and has not dropped its reference. -/
  out : Bool
  /-- It knows that the inode has been freed. -/
  sure : Bool

/-- A process that does nothing but hold `n` references. -/
def Putter.rest (n : Nat) : Putter := ⟨n, false, false, false⟩

/-- The inode has been freed, or more references exist than processes that
    have decided not to free it. `V` stands for a disk that was in order. -/
structure Putting (sb : Superblock) (ip : Slot) (n : Nat) (V : Prop) (s : FsState)
    (G : Pid → Putter) : Prop where
  inum : (s.icache ip).inum = n
  ref : (s.icache ip).ref = ∑ q, (G q).left
  lock : ∀ q, (s.icache ip).lock = some q ↔ (G q).lock = true
  state : (s.icache ip).valid = false ∧ Erased (dinode sb s.disk n) ∨
    (s.icache ip).valid = true ∧ (s.icache ip).nlink = 0 ∧
      ∑ q, (G q).out.toNat < ∑ q, (G q).left
  sure : ∀ q, (G q).sure = true → (s.icache ip).valid = false ∧ Erased (dinode sb s.disk n)
  live : ∀ q, (G q).lock = true → (G q).sure = false → (s.icache ip).valid = true
  vol : V → Volume sb s.disk ∧ ((s.icache ip).valid = true → Synced sb s ip)

/-- The processes as an instance of the proof rule. -/
def putLogic (sb : Superblock) (ip : Slot) (n : Nat) (V : Prop) :
    Logic FsState Act Pid Putter where
  Coh := Putting sb ip n V
  idle := .rest 0
  Ready _ g l := g.out = true → g.lock = false → l = .drop ip
  Cond labs _ p l := ∀ i, l = .count i → ∀ q, q ≠ p → labs q ≠ some (.drop i)
  Fine _ := True

variable {n : Nat} {V : Prop} {p : Pid} {g g' : Putter} {G : Pid → Putter} {s' : FsState}

section

variable (h : Putting sb ip n V s G)
include h

/-- Steps that change the count, the lock and the ghost state of one process. -/
theorem Putting.set (hdisk : s'.disk = s.disk) (hinum : (s'.icache ip).inum = (s.icache ip).inum)
    (hcopy : (s'.icache ip).toDinode = (s.icache ip).toDinode)
    (hvalid : (s'.icache ip).valid = (s.icache ip).valid)
    (href : (s'.icache ip).ref + (G p).left = (s.icache ip).ref + g'.left)
    (hlock : ∀ q, (s'.icache ip).lock = some q ↔ (update G p g' q).lock = true)
    (hout : (s.icache ip).valid = true → ∑ q, (G q).out.toNat < ∑ q, (G q).left →
      ∑ q, (update G p g' q).out.toNat < ∑ q, (update G p g' q).left)
    (hsure : g'.sure = true → (s.icache ip).valid = false ∧ Erased (dinode sb s.disk n))
    (hlive : g'.lock = true → g'.sure = false → (s.icache ip).valid = true) :
    Putting sb ip n V s' (update G p g') := by
  have hsum := Accounts.sum_change (f := fun q => (G q).left)
    (h := fun q => (update G p g' q).left) p fun q hq => by
      rw [update_of_ne hq]
  simp only [update_self] at hsum
  have href0 := h.ref
  refine ⟨hinum.trans h.inum, by omega, hlock, ?_, fun q hq => ?_, fun q hq hs => ?_, fun hV => ?_⟩
  · rw [hvalid, hdisk, show (s'.icache ip).nlink = (s.icache ip).nlink by rw [hcopy]]
    rcases h.state with hfreed | ⟨hv, hn, hlt⟩
    · exact Or.inl hfreed
    · exact Or.inr ⟨hv, hn, hout hv hlt⟩
  · rw [hdisk, hvalid]
    by_cases hqp : q = p
    · subst hqp
      rw [update_self] at hq
      exact hsure hq
    · rw [update_of_ne hqp] at hq
      exact h.sure q hq
  · rw [hvalid]
    by_cases hqp : q = p
    · subst hqp
      rw [update_self] at hq hs
      exact hlive hq hs
    · rw [update_of_ne hqp] at hq hs
      exact h.live q hq hs
  · obtain ⟨hvol, hsync⟩ := h.vol hV
    rw [hdisk, hvalid]
    refine ⟨hvol, fun hv => ?_⟩
    obtain ⟨hmem, hc⟩ := hsync hv
    exact ⟨by rw [hinum, hdisk]; exact hmem, by rw [hcopy, hinum, hdisk]; exact hc⟩

/-- A process that holds the lock is the only one. -/
theorem Putting.lock_unique {q r : Pid} (hq : (G q).lock = true) (hr : (G r).lock = true) :
    q = r := by
  have h1 := (h.lock q).mpr hq
  have h2 := (h.lock r).mpr hr
  rw [h1] at h2
  exact Option.some.inj h2

/-- The lock after process `p` has taken or kept it. -/
theorem Putting.lock_taken (hfree : (s.icache ip).lock = none ∨ (G p).lock = true)
    (hg : g'.lock = true) (q : Pid) : some p = some q ↔ (update G p g' q).lock = true := by
  by_cases hqp : q = p
  · subst hqp
    simp [hg]
  · rw [update_of_ne hqp]
    constructor
    · intro heq
      exact absurd (Option.some.inj heq).symm hqp
    · intro hq
      rcases hfree with hnone | hp
      · have := (h.lock q).mpr hq
        rw [hnone] at this
        cases this
      · exact absurd (h.lock_unique hq hp) hqp

/-- The lock after process `p` has released it, or had not held it. -/
theorem Putting.lock_released (hp : (G p).lock = true) (hg : g'.lock = false) (q : Pid) :
    (none : Option Pid) = some q ↔ (update G p g' q).lock = true := by
  by_cases hqp : q = p
  · subst hqp
    simp [hg]
  · rw [update_of_ne hqp]
    constructor
    · intro heq
      cases heq
    · intro hq
      exact absurd (h.lock_unique hq hp) hqp

end

/-- The number of processes that have decided, after process `p` has moved. -/
theorem sum_out_update (G : Pid → Putter) (p : Pid) (g' : Putter) :
    ∑ q, (update G p g' q).out.toNat + (G p).out.toNat =
      ∑ q, (G q).out.toNat + g'.out.toNat := by
  have hsum := Accounts.sum_change (f := fun q => (G q).out.toNat)
    (h := fun q => (update G p g' q).out.toNat) p fun q hq => by
      rw [update_of_ne hq]
  simpa using hsum

theorem sum_left_update (G : Pid → Putter) (p : Pid) (g' : Putter) :
    ∑ q, (update G p g' q).left + (G p).left = ∑ q, (G q).left + g'.left := by
  have hsum := Accounts.sum_change (f := fun q => (G q).left)
    (h := fun q => (update G p g' q).left) p fun q hq => by
      rw [update_of_ne hq]
  simpa using hsum

/-! ## The steps of `iput` -/

variable {m : Nat} {c : Config FsState Act Pid}

/-- While process `p` reads the count, nobody else has decided. -/
theorem none_decided {labs : Pid → Option Act}
    (hat : (putLogic sb ip n V).At p g (.count ip) s G labs) (hlock : g.lock = true)
    (hout : g.out = false) : ∑ q, (G q).out.toNat = 0 := by
  refine Finset.sum_eq_zero fun q _ => ?_
  have hself := hat.self
  by_cases hqp : q = p
  · rw [hqp, hself, hout]
    rfl
  · cases hq : (G q).out with
    | false => rfl
    | true =>
      -- `q` does not hold the lock, so it is about to drop its reference
      have hfree : (G q).lock = false := by
        cases hl : (G q).lock with
        | false => rfl
        | true => exact absurd (hat.coh.lock_unique hl (by rw [hself]; exact hlock)) hqp
      have hagree := hat.agree q
      cases hlab : labs q with
      | none =>
        rw [hlab] at hagree
        rw [show G q = Putter.rest 0 from hagree] at hq
        cases hq
      | some l =>
        rw [hlab] at hagree
        have hl : l = .drop ip := hagree hq hfree
        exact absurd (by rw [hlab, hl]) (hat.cond ip rfl q hqp)

/-- Taking the lock. -/
theorem safe_put_lock :
    (putLogic sb ip n V).Safe p (.atomic (.acquire ip .plain) do
      acquiresleep p ip
      let s ← Op.get
      pure ((s.icache ip).valid && decide ((s.icache ip).nlink = 0))) (.rest (m + 1))
      fun b g' => g' = ⟨m + 1, true, false, !b⟩ := by
  refine Logic.safe_atomic (fun h => by cases h) fun s G labs hat => ?_
  have h : Putting sb ip n V s G := hat.coh
  have hself := hat.self
  unfold acquiresleep
  simp only [wlp_bind, wlp_get]
  cases hl : (s.icache ip).lock with
  | some q => trivial
  | none =>
    simp only [wlp_modify, wlp_pure, setInode_self]
    refine ⟨_, ?_, rfl⟩
    refine h.set rfl (by simp) (by simp) (by simp) ?_ (fun q => ?_) (fun _ hlt => ?_) (fun hsure => ?_)
      fun _ hsure => ?_
    · simp [hself, Putter.rest]
    · rw [setInode_self]
      exact h.lock_taken (Or.inl hl) rfl q
    · have h1 := sum_out_update G p ⟨m + 1, true, false,
        !((s.icache ip).valid && decide ((s.icache ip).nlink = 0))⟩
      have h2 := sum_left_update G p ⟨m + 1, true, false,
        !((s.icache ip).valid && decide ((s.icache ip).nlink = 0))⟩
      rw [hself] at h1 h2
      simp only [Putter.rest] at h1 h2
      omega
    · -- an inode that is not valid has been freed
      rcases h.state with hfreed | ⟨hv, hn, _⟩
      · exact hfreed
      · simp [hv, hn] at hsure
    · simp only [Bool.not_eq_false', Bool.and_eq_true] at hsure
      exact hsure.1

/-- Reading the count: who does not find 1 has decided not to free. -/
theorem safe_put_count :
    (putLogic sb ip n V).Safe p (.atomic (.count ip) do
      let s ← Op.get
      pure (s.icache ip).ref) ⟨m + 1, true, false, false⟩
      fun r g' => g' = ⟨m + 1, true, decide (r ≠ 1), false⟩ := by
  refine Logic.safe_atomic (fun h => by cases h) fun s G labs hat => ?_
  have h : Putting sb ip n V s G := hat.coh
  have hself := hat.self
  have hzero := none_decided hat rfl rfl
  simp only [wlp_bind, wlp_get, wlp_pure]
  refine ⟨_, ?_, rfl⟩
  refine h.set rfl rfl rfl rfl ?_ (fun q => ?_) (fun _ _ => ?_) (fun hsure => ?_)
    fun _ _ => ?_
  · simp [hself]
  · have hlock := (h.lock p).mpr (by rw [hself])
    rw [hlock]
    exact h.lock_taken (Or.inr (by rw [hself])) rfl q
  · have h1 := sum_out_update G p ⟨m + 1, true, decide ((s.icache ip).ref ≠ 1), false⟩
    have h2 := sum_left_update G p ⟨m + 1, true, decide ((s.icache ip).ref ≠ 1), false⟩
    have href := h.ref
    rw [hself] at h1 h2
    have hle : (G p).left ≤ ∑ q, (G q).left := Accounts.le_sum (f := fun q => (G q).left) p
    rw [hself] at hle
    by_cases hone : (s.icache ip).ref = 1
    · simp only [hone, ne_eq, not_true_eq_false, decide_false, Bool.toNat_false] at h1 h2 ⊢
      omega
    · -- this reference is not the only one
      simp only [ne_eq, hone, not_false_eq_true, decide_true, Bool.toNat_true,
        Bool.toNat_false] at h1 h2 ⊢
      omega
  · cases hsure
  · exact h.live p (by rw [hself]) (by rw [hself])

/-- Freeing the inode. -/
theorem safe_put_free :
    (putLogic sb ip n V).Safe p (step (iput_free sb ip)) ⟨m + 1, true, false, false⟩
      fun _ g' => g' = ⟨m + 1, true, false, true⟩ := by
  refine Logic.safe_atomic (fun h => by cases h) fun s G labs hat => ?_
  have h : Putting sb ip n V s G := hat.coh
  have hself := hat.self
  have hp : (G p).lock = true := by rw [hself]
  have hvalid := h.live p hp (by rw [hself])
  have hfree : wp (iput_free sb ip) (fun _ => True) (fun _ s' => ∃ disk d,
      s' = (s.withFile ip disk d).setInode ip (fun ino => { ino with valid := false }) ∧
      Erased (dinode sb disk n)) s := by
    refine wp_iput_free_erases (fun _ => trivial) fun disk d herased => ⟨disk, d, rfl, ?_⟩
    rw [← h.inum]
    exact herased
  have hvol : wp (iput_free sb ip) (fun _ => True) (fun _ s' => V → Volume sb s'.disk) s := by
    by_cases hV : V
    · obtain ⟨hv, hsync⟩ := h.vol hV
      exact wp_iput_free (hsync hvalid) hv (fun _ => trivial) fun disk d ht _ _ => ht.volume
    · exact hfree.imp fun _ _ _ hV' => absurd hV' hV
  refine (hfree.and hvol).wlp.mono (fun _ => id) ?_
  rintro _ _ ⟨⟨disk, d, rfl, herased⟩, hv⟩
  refine ⟨_, ?_, rfl⟩
  have hsum := sum_left_update G p ⟨m + 1, true, false, true⟩
  have hentry : ((s.withFile ip disk d).setInode ip fun ino => { ino with valid := false }).icache ip =
      { s.icache ip with toDinode := d, valid := false } := by
    simp [FsState.withFile]
  rw [hself] at hsum
  simp only at hsum
  refine ⟨?_, ?_, fun q => ?_, Or.inl ⟨?_, herased⟩, fun _ _ => ⟨?_, herased⟩, fun q hq hs => ?_,
    fun hV => ⟨hv hV, fun hval => ?_⟩⟩
  · rw [hentry]
    exact h.inum
  · rw [hentry]
    have href := h.ref
    show (s.icache ip).ref = _
    omega
  · rw [hentry]
    show (s.icache ip).lock = some q ↔ _
    rw [(h.lock p).mpr hp]
    exact h.lock_taken (Or.inr hp) rfl q
  · rw [hentry]
  · rw [hentry]
  · -- only `p` holds the lock, and it knows
    by_cases hqp : q = p
    · subst hqp
      rw [update_self] at hs
      cases hs
    · rw [update_of_ne hqp] at hq
      exact absurd (h.lock_unique hq hp) hqp
  · rw [hentry] at hval
    cases hval

/-- The part under the lock: afterwards the process has decided not to free the
    inode, or knows that it is free. -/
theorem safe_put_locked (b : Bool) :
    (putLogic sb ip n V).Safe p (iput_locked sb ip b) ⟨m + 1, true, false, !b⟩
      fun _ g' => ∃ o, g' = ⟨m + 1, true, o, !o⟩ := by
  unfold iput_locked
  cases b with
  | false => exact ⟨false, rfl⟩
  | true =>
    rw [if_pos rfl]
    refine Logic.Safe.bind safe_put_count ?_
    rintro r _ rfl
    by_cases hr : r = 1
    · rw [if_pos hr]
      simp only [hr, ne_eq, not_true_eq_false, decide_false]
      apply safe_put_free.mono
      rintro _ _ rfl
      exact ⟨false, rfl⟩
    · rw [if_neg hr]
      refine ⟨true, ?_⟩
      simp [hr]

/-- Releasing the lock. -/
theorem safe_put_release (o : Bool) :
    (putLogic sb ip n V).Safe p (step (releasesleep ip)) ⟨m + 1, true, o, !o⟩
      fun _ g' => g' = ⟨m + 1, false, o, !o⟩ := by
  refine Logic.safe_atomic (fun _ h => by cases h) fun s G labs hat => ?_
  have h : Putting sb ip n V s G := hat.coh
  have hself := hat.self
  unfold releasesleep
  rw [wlp_modify]
  refine ⟨_, ?_, rfl⟩
  refine h.set rfl (by simp) (by simp) (by simp) ?_ (fun q => ?_) (fun _ hlt => ?_)
    (fun hsure => ?_) fun hl => by cases hl
  · simp [hself]
  · rw [setInode_self]
    exact h.lock_released (by rw [hself]) rfl q
  · have h1 := sum_out_update G p ⟨m + 1, false, o, !o⟩
    have h2 := sum_left_update G p ⟨m + 1, false, o, !o⟩
    rw [hself] at h1 h2
    simp only at h1 h2
    omega
  · exact h.sure p (by rw [hself]; exact hsure)

/-- Dropping the reference. -/
theorem safe_put_drop (o : Bool) :
    (putLogic sb ip n V).Safe p (.atomic (.drop ip) (Op.modify fun s =>
      s.setInode ip fun ino => { ino with ref := ino.ref - 1 })) ⟨m + 1, false, o, !o⟩
      fun _ g' => g' = .rest m := by
  refine Logic.safe_atomic (fun _ _ => rfl) fun s G labs hat => ?_
  have h : Putting sb ip n V s G := hat.coh
  have hself := hat.self
  rw [wlp_modify]
  refine ⟨_, ?_, rfl⟩
  refine h.set rfl (by simp) (by simp) (by simp) ?_ (fun q => ?_) (fun hv hlt => ?_)
    (fun hsure => by cases hsure) fun hl => by cases hl
  · rw [setInode_self, hself]
    simp only [Putter.rest]
    push_cast
    omega
  · rw [setInode_self]
    show (s.icache ip).lock = some q ↔ _
    rw [h.lock q]
    by_cases hqp : q = p
    · subst hqp
      rw [update_self, hself]
      rfl
    · rw [update_of_ne hqp]
  · have h1 := sum_out_update G p (.rest m)
    have h2 := sum_left_update G p (.rest m)
    rw [hself] at h1 h2
    cases o with
    | true =>
      simp only [Putter.rest, Bool.toNat_true, Bool.toNat_false] at h1 h2 ⊢
      omega
    | false =>
      -- the process knows that the inode is free, so it is not loaded
      have hnot := (h.sure p (by rw [hself]; rfl)).1
      rw [hv] at hnot
      cases hnot

theorem safe_put :
    (putLogic sb ip n V).Safe p (iput sb p ip .plain) (.rest (m + 1)) fun _ g' => g' = .rest m := by
  unfold iput
  refine Logic.Safe.bind safe_put_lock ?_
  rintro b _ rfl
  refine .bind (safe_put_locked b) ?_
  rintro _ _ ⟨o, rfl⟩
  refine .bind (safe_put_release o) ?_
  rintro _ _ rfl
  exact safe_put_drop o

theorem safe_drops (m : Nat) :
    (putLogic sb ip n V).Safe p (drops sb p ip m) (.rest m) fun _ g' => g' = .rest 0 := by
  induction m with
  | zero => rfl
  | succ m ih =>
    refine Logic.Safe.bind safe_put ?_
    rintro _ _ rfl
    exact ih

/-! ## Whole runs -/

/-- The processes are at their first step. -/
theorem Dropping.inv {refs : Pid → Nat} (h : Dropping sb ip refs c) :
    (putLogic sb ip (c.mem.icache ip).inum (Volume sb c.mem.disk ∧ Synced sb c.mem ip)).Inv c := by
  obtain ⟨p, hp⟩ := h.some_ref
  have hpos : 0 < ∑ q, refs q := lt_of_lt_of_le hp (Accounts.le_sum (f := refs) p)
  have hcoh : Putting sb ip (c.mem.icache ip).inum (Volume sb c.mem.disk ∧ Synced sb c.mem ip)
      c.mem fun q => .rest (refs q) := by
    refine ⟨rfl, h.ref, fun q => ?_, Or.inr ⟨h.valid, h.nlink, ?_⟩, fun q hq => ?_, fun q hq => ?_,
      fun hV => ⟨hV.1, fun _ => hV.2⟩⟩
    · rw [h.lock]
      simp [Putter.rest]
    · simpa [Putter.rest] using hpos
    · cases hq
    · cases hq
  refine ⟨fun msg _ => trivial, _, hcoh, fun q => ?_⟩
  rw [h.thread q]
  exact safe_drops (refs q)

/-- In every run in which nobody reads the reference count while another
    process is about to decrement it, the inode is free when all references
    have been dropped, and the disk is in order if it was. -/
theorem no_lost_free (sb : Superblock) (ip : Slot) (refs : Pid → Nat)
    (c₀ c : Config FsState Act Pid) (ls : List (Label Pid Empty)) (h₀ : Dropping sb ip refs c₀)
    (hrun : LTS.Run ((dropSystem sb ip).restrict Unhurried) c₀ ls c)
    (hdone : ∀ p, c.thread p = .ret ()) :
    (c.mem.icache ip).ref = 0 ∧ Erased (dinode sb c.mem.disk (c₀.mem.icache ip).inum) ∧
      (Volume sb c₀.mem.disk → Synced sb c₀.mem ip → Volume sb c.mem.disk) := by
  have hinv := hrun.invariant h₀.inv fun c l c' hc hnext => by
    obtain ⟨hcalm, hnext⟩ := LTS.restrict_next.mp hnext
    cases l with
    | call q x => exact x.elim
    | step q =>
      have hmove : c.next (fun _ (x : Empty) => x.elim) (.step q) = some c' := hnext
      exact hc.step (fun l hl i hi r hr => hcalm i (by rw [hl, hi]) r hr) hmove
  obtain ⟨_, G, hcoh, hsafe⟩ := hinv
  have h : Putting sb ip _ _ c.mem G := hcoh
  have hidle : ∀ q, G q = .rest 0 := by
    intro q
    have hq := hsafe q
    rw [hdone q] at hq
    exact hq
  have hleft : ∑ q, (G q).left = 0 := Finset.sum_eq_zero fun q _ => by rw [hidle q]; rfl
  refine ⟨?_, ?_, fun hv hs => (h.vol ⟨hv, hs⟩).1⟩
  · rw [h.ref, hleft]
    rfl
  · -- no reference is left, so there is none that would still free the inode
    rcases h.state with hfreed | ⟨_, _, hlt⟩
    · exact hfreed.2
    · omega

/-! ## Two processes -/

instance (c : Config FsState Act Pid) : (l : Label Pid Empty) → Decidable (Unhurried c l)
  | .call _ _ => inferInstanceAs (Decidable True)
  | .step p => inferInstanceAs (Decidable (∀ ip, c.labels p = some (.count ip) →
      ∀ q, q ≠ p → c.labels q ≠ some (.drop ip)))

/-- A file of one block. -/
def oneBlock : Dinode := { Dinode.zero with type := T_FILE, size := 1 }.setAddr 0 60

/-- Inode 2, which has lost its name, is in use by two processes. -/
def twoHolders : FsState where
  disk := setBit .mkfs (setDinode .mkfs (fun _ => 0) 2 oneBlock) 60 true
  outstanding := 2
  icache i := if i = 0 then { oneBlock with dev := 1, inum := 2, ref := 2, lock := none, valid := true }
    else { Dinode.zero with dev := 0, inum := 0, ref := 0, lock := none, valid := false }
  ftable _ := ⟨.FD_NONE, 0, false, false, 0, 0⟩
  proc _ := ⟨fun _ => none, none⟩

/-- Processes 0 and 1 are about to drop their references. -/
def twoDropping : Config FsState Act Pid where
  mem := twoHolders
  thread p := drops .mkfs p 0 (if p.val < 2 then 1 else 0)
  fault := none

theorem twoDropping_dropping :
    Dropping .mkfs 0 (fun p => if p.val < 2 then 1 else 0) twoDropping :=
  ⟨rfl, fun _ => rfl, by decide +kernel, ⟨0, by decide⟩, rfl, rfl, rfl⟩

/-- All threads have finished and no reference is left. -/
def allDropped (c : Config FsState Act Pid) : Bool :=
  (List.finRange NPROC).all (fun p => (c.labels p).isNone) && decide ((c.mem.icache 0).ref = 0)

theorem allDropped_iff (h : allDropped c = true) :
    (∀ p, c.thread p = .ret ()) ∧ (c.mem.icache 0).ref = 0 := by
  simp only [allDropped, Bool.and_eq_true, List.all_eq_true, decide_eq_true_eq] at h
  refine ⟨fun p => ?_, h.2⟩
  have hp := h.1 p (List.mem_finRange p)
  unfold Config.labels at hp
  cases hx : c.thread p with
  | ret a => rfl
  | act l m k => rw [hx] at hp; cases hp

/-- Both processes read the count before either has decremented it: both find
    2, and the inode is never freed. -/
theorem lost_free : ∃ c, LTS.Run (dropSystem .mkfs 0) twoDropping
      [.step 0, .step 0, .step 0, .step 1, .step 1, .step 1, .step 0, .step 1] c ∧
    Dropping .mkfs 0 (fun p => if p.val < 2 then 1 else 0) twoDropping ∧
    (∀ p, c.thread p = .ret ()) ∧ (c.mem.icache 0).ref = 0 ∧
    dinode .mkfs c.mem.disk 2 = oneBlock ∧ oneBlock.type = T_FILE := by
  have hexec : ((dropSystem .mkfs 0).exec (fun _ _ => true) twoDropping
      [.step 0, .step 0, .step 0, .step 1, .step 1, .step 1, .step 0, .step 1]).any (fun c =>
        allDropped c && decide (dinode .mkfs c.mem.disk 2 = oneBlock)) = true := by
    decide +kernel
  obtain ⟨c, hc, hend⟩ := (Option.any_eq_true _ _).mp hexec
  simp only [Bool.and_eq_true, decide_eq_true_eq] at hend
  obtain ⟨hdone, href⟩ := allDropped_iff hend.1
  exact ⟨c, (LTS.run_of_exec hc).of_restrict, twoDropping_dropping, hdone, href, hend.2, rfl⟩

/-- One process after the other: the second finds 1 and frees the inode. -/
theorem no_lost_free_in_turn : ∃ c, LTS.Run ((dropSystem .mkfs 0).restrict Unhurried) twoDropping
      [.step 0, .step 0, .step 0, .step 0, .step 1, .step 1, .step 1, .step 1, .step 1] c ∧
    (c.mem.icache 0).ref = 0 ∧ Erased (dinode .mkfs c.mem.disk 2) := by
  have hexec : ((dropSystem .mkfs 0).exec (fun c l => decide (Unhurried c l)) twoDropping
      [.step 0, .step 0, .step 0, .step 0, .step 1, .step 1, .step 1, .step 1, .step 1]).any
        allDropped = true := by
    decide +kernel
  obtain ⟨c, hc, hend⟩ := (Option.any_eq_true _ _).mp hexec
  have hrun := LTS.run_of_exec hc
  simp only [decide_eq_true_eq] at hrun
  obtain ⟨href, herased, _⟩ :=
    no_lost_free .mkfs 0 _ _ _ _ twoDropping_dropping hrun (allDropped_iff hend).1
  exact ⟨c, hrun, href, herased⟩

end Xv6.Fs
