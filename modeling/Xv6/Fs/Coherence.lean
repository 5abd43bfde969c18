import Xv6.Fs.Trans

/-! # Steps keep the ghost states coherent

    `StepOk` lists what a step of one process has to establish so that the
    ghost states of all processes fit the new state; `Coh.step` says that this
    is enough. The rest of the file goes through the steps of `Trans`, by what
    they change: an entry of the inode cache, the disk, or the file table and
    the process table.
-/

namespace Xv6.Fs

open Function

variable {sb : Superblock} {s s' : FsState} {G : Pid → Ghost} {p : Pid} {g' : Ghost}

/-- What a step of process `p` has to establish: the parts of coherence that
    it can affect. -/
structure StepOk (sb : Superblock) (s : FsState) (G : Pid → Ghost) (p : Pid) (s' : FsState)
    (g' : Ghost) : Prop where
  vol : Volume sb s'.disk
  cache : Cache sb s'
  inum : ∀ j, 0 < (s.icache j).ref → (s'.icache j).inum = (s.icache j).inum
  iref : ∀ j, (s'.icache j).ref + ((s.opens j + (G p).slotRefs (s.proc p).cwd j : Nat) : Int) =
    (s.icache j).ref + ((s'.opens j + g'.slotRefs (s'.proc p).cwd j : Nat) : Int)
  fref : ∀ f, (s'.ftable f).ref + (((G p).fileRefs (s.proc p).ofile f : Nat) : Int) =
    (s.ftable f).ref + ((g'.fileRefs (s'.proc p).ofile f : Nat) : Int)
  proc : ∀ q, q ≠ p → s'.proc q = s.proc q
  lock : ∀ j, (s'.icache j).lock = some p ↔ g'.held j ≠ none
  lock_others : ∀ j q, q ≠ p → ((s'.icache j).lock = some q ↔ (s.icache j).lock = some q)
  file_free : ∀ f, (s'.ftable f).ref = 0 → (s'.ftable f).type = .FD_NONE
  file_inode : ∀ f, (s'.ftable f).type = .FD_INODE →
    (s'.icache (s'.ftable f).ip).valid = true ∧ ((s'.ftable f).writable = true →
      (dinode sb s'.disk (s'.icache (s'.ftable f).ip).inum).type ≠ T_DIR)
  self : Knows sb s' p g'
  others : ∀ q, q ≠ p → Knows sb s' q (G q)
  fresh : ∀ n t dp, g'.fresh = some (n, t, dp) → (G p).fresh = some (n, t, dp) ∨
    ∀ r, r ≠ p → (∀ j, 0 < (G r).refs j → (s.icache j).inum ≠ n) ∧
      ∀ t' dp', (G r).fresh ≠ some (n, t', dp')
  fresh_others : ∀ q, q ≠ p → ∀ n t dp, (G q).fresh = some (n, t, dp) →
    ∀ j, 0 < g'.refs j → (s'.icache j).inum ≠ n
  sole : ∀ i, g'.sole = some i → g'.held i ≠ none ∧ 0 < g'.refs i ∧
    (∀ f, (s'.ftable f).type = .FD_INODE → (s'.ftable f).ip ≠ i) ∧
    ((s'.proc p).cwd = some i → g'.moved = true) ∧
    ∀ r, r ≠ p → ((s.proc r).cwd = some i → (G r).moved = true) ∧ ∀ t, (G r).pin ≠ some (i, t)
  sole_others : ∀ q, q ≠ p → ∀ i, (G q).sole = some i →
    (∀ f, (s'.ftable f).type = .FD_INODE → (s'.ftable f).ip ≠ i) ∧
    ((s'.proc p).cwd = some i → g'.moved = true) ∧ ∀ t, g'.pin ≠ some (i, t)

/-- The other processes' references stay what they were. -/
theorem Coh.sum_slotRefs (h : StepOk sb s G p s' g') (j : Slot) :
    ∑ q, (update G p g' q).slotRefs (s'.proc q).cwd j + (G p).slotRefs (s.proc p).cwd j =
      ∑ q, (G q).slotRefs (s.proc q).cwd j + g'.slotRefs (s'.proc p).cwd j := by
  have hsum := Accounts.sum_change (f := fun q => (G q).slotRefs (s.proc q).cwd j)
    (h := fun q => (update G p g' q).slotRefs (s'.proc q).cwd j) p
    fun q hq => by rw [update_of_ne hq, h.proc q hq]
  simpa using hsum

theorem Coh.sum_fileRefs (h : StepOk sb s G p s' g') (f : FileSlot) :
    ∑ q, (update G p g' q).fileRefs (s'.proc q).ofile f +
        (G p).fileRefs (s.proc p).ofile f =
      ∑ q, (G q).fileRefs (s.proc q).ofile f + g'.fileRefs (s'.proc p).ofile f := by
  have hsum := Accounts.sum_change (f := fun q => (G q).fileRefs (s.proc q).ofile f)
    (h := fun q => (update G p g' q).fileRefs (s'.proc q).ofile f) p
    fun q hq => by rw [update_of_ne hq, h.proc q hq]
  simpa using hsum

/-- The rule for a step of process `p`. -/
theorem Coh.step (h : Coh sb s G) (hs : StepOk sb s G p s' g') :
    Coh sb s' (update G p g') := by
  have hself : update G p g' p = g' := update_self _ _ _
  have hne : ∀ q, q ≠ p → update G p g' q = G q := fun q hq => update_of_ne hq _ _
  refine ⟨hs.vol, h.root_lt, hs.cache, fun i => ?_, fun f => ?_, fun i q => ?_, hs.file_free,
    hs.file_inode, fun q => ?_, fun q n t dp hf r hr j hj => ?_, fun q n t dp hf r hr t' dp' => ?_,
    fun q i hq => ?_, fun q i hq => ?_, fun q i hq r hc => ?_, fun q i hq r hr t => ?_⟩
  · -- the entries' reference counts
    have hsum := Coh.sum_slotRefs hs i
    have hold := h.iref i
    have := hs.iref i
    omega
  · have hsum := Coh.sum_fileRefs hs f
    have hold := h.fref f
    have := hs.fref f
    omega
  · by_cases hq : q = p
    · subst hq; rw [hself]; exact hs.lock i
    · rw [hne q hq, hs.lock_others i q hq]; exact h.lock i q
  · by_cases hq : q = p
    · subst hq; rw [hself]; exact hs.self
    · rw [hne q hq]; exact hs.others q hq
  · by_cases hq : q = p
    · subst hq
      rw [hself] at hf
      rw [hne r hr] at hj
      rw [hs.inum j (h.ref_pos hj)]
      rcases hs.fresh n t dp hf with hold | hnew
      · exact h.fresh_refs q n t dp hold r hr j hj
      · exact (hnew r hr).1 j hj
    · rw [hne q hq] at hf
      by_cases hrp : r = p
      · subst hrp
        rw [hself] at hj
        exact hs.fresh_others q hq n t dp hf j hj
      · rw [hne r hrp] at hj
        rw [hs.inum j (h.ref_pos hj)]
        exact h.fresh_refs q n t dp hf r hr j hj
  · by_cases hq : q = p
    · subst hq
      rw [hself] at hf
      rw [hne r hr]
      rcases hs.fresh n t dp hf with hold | hnew
      · exact h.fresh_ne q n t dp hold r hr t' dp'
      · exact (hnew r hr).2 t' dp'
    · rw [hne q hq] at hf
      by_cases hrp : r = p
      · subst hrp
        rw [hself]
        intro hf'
        rcases hs.fresh n t' dp' hf' with hold | hnew
        · exact h.fresh_ne q n t dp hf r hr t' dp' hold
        · exact (hnew q hq).2 t dp hf
      · rw [hne r hrp]
        exact h.fresh_ne q n t dp hf r hr t' dp'
  · by_cases hqp : q = p
    · subst hqp
      rw [hself] at hq ⊢
      exact ⟨(hs.sole i hq).1, (hs.sole i hq).2.1⟩
    · rw [hne q hqp] at hq ⊢
      exact h.sole_held q i hq
  · by_cases hqp : q = p
    · subst hqp
      rw [hself] at hq
      exact (hs.sole i hq).2.2.1
    · rw [hne q hqp] at hq
      exact (hs.sole_others q hqp i hq).1
  · by_cases hrp : r = p
    · subst hrp
      rw [hself]
      by_cases hqp : q = r
      · subst hqp
        rw [hself] at hq
        exact (hs.sole i hq).2.2.2.1 hc
      · rw [hne q hqp] at hq
        exact (hs.sole_others q hqp i hq).2.1 hc
    · rw [hs.proc r hrp] at hc
      rw [hne r hrp]
      by_cases hqp : q = p
      · subst hqp
        rw [hself] at hq
        exact ((hs.sole i hq).2.2.2.2 r hrp).1 hc
      · rw [hne q hqp] at hq
        exact h.sole_cwd q i hq r hc
  · by_cases hqp : q = p
    · subst hqp
      rw [hself] at hq
      rw [hne r hr]
      exact ((hs.sole i hq).2.2.2.2 r hr).2 t
    · rw [hne q hqp] at hq
      by_cases hrp : r = p
      · subst hrp
        rw [hself]
        exact (hs.sole_others q hqp i hq).2.2 t
      · rw [hne r hrp]
        exact h.sole_pin q i hq r hr t

/-! ## Steps on one entry of the inode cache -/

section

variable (s : FsState) (i : Slot) (f : Inode → Inode)

@[simp] theorem setInode_opens : (s.setInode i f).opens = s.opens := rfl

end

variable {q : Pid} {g : Ghost} {i : Slot} {f : Inode → Inode} {order : Option (Slot × Slot × Nat)}
  {r : Slot → Nat} {site : Site} {dead : Option Slot} {n : Nat} {fd : Fin NOFILE} {j : Slot}
  {t : Nat × BitVec 16} {use : Option Using} {c : List Byte}

/-- The entry keeps its identity, and an inode that is loaded stays loaded. -/
def Keeps (f : Inode → Inode) (ino : Inode) : Prop :=
  0 < ino.ref → (f ino).inum = ino.inum ∧ (ino.valid = true → (f ino).valid = true)

theorem Coh.in_use (h : Coh sb s G) (q : Pid) (j : Slot)
    (hj : 0 < (G q).refs j ∨ (G q).held j ≠ none) : 0 < (s.icache j).ref :=
  hj.elim h.ref_pos h.ref_pos_of_held

theorem Knows.inode (hk : Knows sb s q g)
    (hin : ∀ j, 0 < g.refs j ∨ g.held j ≠ none → 0 < (s.icache j).ref)
    (hkeep : Keeps f (s.icache i))
    (hfresh : ∀ n t dp, g.fresh = some (n, t, dp) → 0 < (f (s.icache i)).ref →
      (f (s.icache i)).inum = n → (f (s.icache i)).valid = false) :
    Knows sb (s.setInode i f) q g := by
  refine hk.mono (fun j hj => ?_) (fun j hj hv => ?_) (fun _ _ _ _ => ⟨rfl, rfl⟩)
    (fun _ _ _ => rfl) rfl (fun _ _ => ⟨rfl, rfl, rfl⟩) (fun _ _ => ⟨rfl, rfl⟩)
    fun n t dp hf => ⟨rfl, fun j hj hn => ?_⟩
  · by_cases hji : j = i
    · subst hji; rw [setInode_self]; exact (hkeep (hin j hj)).1
    · rw [setInode_ne _ _ _ hji]
  · have hj' : 0 < g.refs j ∨ g.held j ≠ none := by
      rcases hj with ⟨t, ht⟩ | ⟨site, x, hx⟩
      · exact Or.inl (hk.pinned j t ht).1
      · exact Or.inr (by simp [hx])
    by_cases hji : j = i
    · subst hji; rw [setInode_self]; exact (hkeep (hin j hj')).2 hv
    · rw [setInode_ne _ _ _ hji]; exact hv
  · by_cases hji : j = i
    · subst hji
      rw [setInode_self] at hj hn ⊢
      exact hfresh n t dp hf hj hn
    · rw [setInode_ne _ _ _ hji] at hj hn ⊢
      exact (hk.isfresh n t dp hf).2.2.2 j hj hn

/-- The entry is in order after the step. -/
structure EntryOk (sb : Superblock) (s : FsState) (i : Slot) (ino : Inode) : Prop where
  inum_lt : ino.inum < sb.ninodes
  dev : ino.dev = ROOTDEV
  inj : ∀ j, j ≠ i → 0 < (s.icache j).ref → (s.icache j).inum ≠ ino.inum
  sync : ino.valid = true → ino.toDinode = dinode sb s.disk ino.inum ∧ ino.type ≠ 0

/-- An entry in use is in order. -/
theorem Cache.entryOk (h : Cache sb s) (hr : 0 < (s.icache i).ref) :
    EntryOk sb s i (s.icache i) where
  inum_lt := h.inum_lt i hr
  dev := h.dev i hr
  inj j hj hjr heq := hj (h.inj j i hjr hr heq)
  sync := h.sync i hr

theorem Cache.inode (h : Cache sb s)
    (hok : 0 < (f (s.icache i)).ref → EntryOk sb s i (f (s.icache i))) :
    Cache sb (s.setInode i f) := by
  refine ⟨fun j hj => ?_, fun j hj => ?_, fun j k hj hk hjk => ?_, fun j hj hv => ?_⟩
  · by_cases hji : j = i
    · subst hji; rw [setInode_self] at hj ⊢; exact (hok hj).inum_lt
    · rw [setInode_ne _ _ _ hji] at hj ⊢; exact h.inum_lt j hj
  · by_cases hji : j = i
    · subst hji; rw [setInode_self] at hj ⊢; exact (hok hj).dev
    · rw [setInode_ne _ _ _ hji] at hj ⊢; exact h.dev j hj
  · by_cases hji : j = i <;> by_cases hki : k = i
    · rw [hji, hki]
    · subst hji
      rw [setInode_self] at hj hjk
      rw [setInode_ne _ _ _ hki] at hk hjk
      exact absurd hjk.symm ((hok hj).inj k hki hk)
    · subst hki
      rw [setInode_self] at hk hjk
      rw [setInode_ne _ _ _ hji] at hj hjk
      exact absurd hjk ((hok hk).inj j hji hj)
    · rw [setInode_ne _ _ _ hji] at hj hjk
      rw [setInode_ne _ _ _ hki] at hk hjk
      exact h.inj j k hj hk hjk
  · by_cases hji : j = i
    · subst hji; rw [setInode_self] at hj hv ⊢; exact (hok hj).sync hv
    · rw [setInode_ne _ _ _ hji] at hj hv ⊢; exact h.sync j hj hv

/-- A step on one entry of the inode cache. -/
theorem StepOk.inode (h : Coh sb s G) (hkeep : Keeps f (s.icache i))
    (hok : 0 < (f (s.icache i)).ref → EntryOk sb s i (f (s.icache i)))
    (hiref : (f (s.icache i)).ref + (((G p).slotRefs (s.proc p).cwd i : Nat) : Int) =
      (s.icache i).ref + ((g'.slotRefs (s.proc p).cwd i : Nat) : Int))
    (hiref_others : ∀ j, j ≠ i →
      g'.slotRefs (s.proc p).cwd j = (G p).slotRefs (s.proc p).cwd j)
    (hfrefs : g'.frefs = (G p).frefs)
    (hlock : ∀ j, ((s.setInode i f).icache j).lock = some p ↔ g'.held j ≠ none)
    (hlock_others : ∀ q, q ≠ p →
      ((f (s.icache i)).lock = some q ↔ (s.icache i).lock = some q))
    (hself : Knows sb (s.setInode i f) p g')
    (hfresh : ∀ x, g'.fresh = some x → (G p).fresh = some x)
    (hfresh_entry : ∀ q, q ≠ p → ∀ n t dp, (G q).fresh = some (n, t, dp) →
      0 < (f (s.icache i)).ref → (f (s.icache i)).inum = n → (f (s.icache i)).valid = false)
    (hfresh_refs : ∀ q, q ≠ p → ∀ n t dp, (G q).fresh = some (n, t, dp) →
      ∀ j, 0 < g'.refs j → ((s.setInode i f).icache j).inum ≠ n)
    (hsole : ∀ j, g'.sole = some j →
      (G p).sole = some j ∧ g'.held j ≠ none ∧ 0 < g'.refs j)
    (hmoved : g'.moved = (G p).moved)
    (hpin : ∀ q, q ≠ p → ∀ j, (G q).sole = some j → ∀ t, g'.pin ≠ some (j, t)) :
    StepOk sb s G p (s.setInode i f) g' := by
  refine ⟨h.vol, h.cache.inode hok, fun j hj => ?_, fun j => ?_, fun x => ?_, fun _ _ => rfl,
    hlock, fun j q hq => ?_, h.file_free, fun x hx => ?_, hself, fun q hq => ?_,
    fun n t dp hf => Or.inl (hfresh _ hf), hfresh_refs, fun j hj => ?_, fun q hq j hj => ?_⟩
  · by_cases hji : j = i
    · subst hji; rw [setInode_self]; exact (hkeep hj).1
    · rw [setInode_ne _ _ _ hji]
  · by_cases hji : j = i
    · subst hji
      rw [setInode_self, setInode_opens, setInode_proc]
      push_cast
      omega
    · rw [setInode_ne _ _ _ hji, setInode_opens, setInode_proc, hiref_others j hji]
  · unfold Ghost.fileRefs
    rw [hfrefs]
    rfl
  · by_cases hji : j = i
    · subst hji; rw [setInode_self]; exact hlock_others q hq
    · rw [setInode_ne _ _ _ hji]
  · obtain ⟨hv, hw⟩ := h.file_inode x hx
    have hr := h.ref_pos_of_open hx rfl
    by_cases hxi : (s.ftable x).ip = i
    · simp only [setInode_ftable, setInode_disk, hxi, setInode_self] at hv hw ⊢
      rw [hxi] at hr
      rw [(hkeep hr).1]
      exact ⟨(hkeep hr).2 hv, hw⟩
    · simp only [setInode_ftable, setInode_disk]
      rw [setInode_ne _ _ _ hxi]
      exact ⟨hv, hw⟩
  · exact (h.knows q).inode (h.in_use q) hkeep (hfresh_entry q hq)
  · obtain ⟨hj', hheld, hrefs⟩ := hsole j hj
    refine ⟨hheld, hrefs, h.sole_open p j hj', fun hc => ?_, fun r hr =>
      ⟨h.sole_cwd p j hj' r, h.sole_pin p j hj' r hr⟩⟩
    rw [hmoved]
    exact h.sole_cwd p j hj' p hc
  · refine ⟨h.sole_open q j hj, fun hc => ?_, hpin q hq j hj⟩
    rw [hmoved]
    exact h.sole_cwd q j hj p hc

/-! ### References -/

/-- A change of the entry that leaves the lock alone. -/
theorem setInode_lock (hf : (f (s.icache i)).lock = (s.icache i).lock) (j : Slot) :
    ((s.setInode i f).icache j).lock = (s.icache j).lock := by
  by_cases hji : j = i
  · subst hji; rw [setInode_self, hf]
  · rw [setInode_ne _ _ _ hji]

/-- One more reference, to an inode below a known directory perhaps. -/
theorem Knows.addRef (hk : Knows sb s q g) (i : Slot) (horder : order = g.order ∨
      ∃ dp n, order = some (dp, i, n) ∧ 0 < g.refs dp ∧ (s.icache i).inum = n) :
    Knows sb s q { g.addRef i with order := order } where
  held_ref j hj := (hk.held_ref j hj).imp_left fun hr => Nat.lt_of_lt_of_le hr (Nat.le_add_right _ _)
  snap := hk.snap
  pinned j t ht := by
    obtain ⟨hr, hv, hd⟩ := hk.pinned j t ht
    exact ⟨Nat.lt_of_lt_of_le hr (Nat.le_add_right _ _), hv, hd⟩
  used := hk.used
  newfile := hk.newfile
  isfresh := hk.isfresh
  below dp j n ho := by
    have hle : ∀ j, g.refs j ≤ (g.addRef i).refs j := fun j => Nat.le_add_right _ _
    rcases horder with rfl | ⟨dp', n', rfl, hdp, _⟩
    · obtain ⟨h1, h2⟩ := hk.below dp j n ho
      exact ⟨Nat.lt_of_lt_of_le h1 (hle dp), Nat.lt_of_lt_of_le h2 (hle j)⟩
    · simp only [Option.some.injEq, Prod.mk.injEq] at ho
      obtain ⟨rfl, rfl, rfl⟩ := ho
      exact ⟨Nat.lt_of_lt_of_le hdp (hle _), by simp [Ghost.addRef]⟩
  number j n hn := by
    rcases hn with hheld | hpin | ⟨dp, ho⟩
    · exact hk.number j n (Or.inl hheld)
    · exact hk.number j n (Or.inr (Or.inl hpin))
    · rcases horder with rfl | ⟨dp', n', rfl, _, hi⟩
      · exact hk.number j n (Or.inr (Or.inr ⟨dp, ho⟩))
      · simp only [Option.some.injEq, Prod.mk.injEq] at ho
        obtain ⟨rfl, rfl, rfl⟩ := ho
        exact hi

theorem Ghost.addRef_refs_pos (h : 0 < (g.addRef i).refs j) : j = i ∨ 0 < g.refs j := by
  by_cases hji : j = i
  · exact Or.inl hji
  · right
    simpa [Ghost.addRef, hji] using h

theorem Ghost.slotRefs_addRef (g : Ghost) (i : Slot) (order : Option (Slot × Slot × Nat))
    (cwd : Option Slot) (j : Slot) :
    { g.addRef i with order := order }.slotRefs cwd j =
      g.slotRefs cwd j + if j = i then 1 else 0 := by
  unfold Ghost.slotRefs Ghost.addRef
  simp only [Pi.add_apply, Pi.single_apply]
  omega

section

variable (h : Coh sb s G)
include h

/-- `iget`. The inode is not one another process has just allocated, so that
    no process is surprised by the reference. -/
theorem StepOk.got (hn : n < sb.ninodes) (hfresh : NotFresh p G n) (hget : Got s n i s')
    (horder : order = (G p).order ∨ ∃ dp, order = some (dp, i, n) ∧ 0 < (G p).refs dp) :
    StepOk sb s G p s' { (G p).addRef i with order := order } := by
  have hinum : (s'.icache i).inum = n := by
    cases hget with
    | hit href hinum => rw [setInode_self]; exact hinum
    | miss hnone hfree => rw [setInode_self]
  have horder' : order = (G p).order ∨
      ∃ dp m, order = some (dp, i, m) ∧ 0 < (G p).refs dp ∧ (s'.icache i).inum = m :=
    horder.imp_right fun ⟨dp, ho, hdp⟩ => ⟨dp, n, ho, hdp, hinum⟩
  have hrefs : ∀ q, q ≠ p → ∀ m t dp, (G q).fresh = some (m, t, dp) →
      ∀ j, 0 < ((G p).addRef i).refs j → (j ≠ i → (s'.icache j).inum = (s.icache j).inum) →
      (s'.icache j).inum ≠ m := by
    intro q hq m t dp hf j hj hsame
    by_cases hji : j = i
    · rw [hji, hinum]
      rintro rfl
      exact hfresh q hq t dp hf
    · rw [hsame hji]
      exact h.fresh_refs q m t dp hf p hq.symm j ((Ghost.addRef_refs_pos hj).resolve_left hji)
  have hsole : ∀ j, (G p).sole = some j →
      (G p).sole = some j ∧ (G p).held j ≠ none ∧ 0 < ((G p).addRef i).refs j := by
    intro j hj
    obtain ⟨hh, hr⟩ := h.sole_held p j hj
    exact ⟨hj, hh, Nat.lt_of_lt_of_le hr (Nat.le_add_right _ _)⟩
  cases hget with
  | hit href hn' =>
    have hkeep : Keeps (fun ino => { ino with ref := ino.ref + 1 }) (s.icache i) :=
      fun _ => ⟨rfl, id⟩
    have hentry := h.cache.entryOk href
    have hfr : ∀ q n t dp, (G q).fresh = some (n, t, dp) → (s.icache i).inum = n →
        (s.icache i).valid = false :=
      fun q n t dp hf hn => ((h.knows q).isfresh n t dp hf).2.2.2 i href hn
    refine StepOk.inode h hkeep (fun _ => ⟨hentry.inum_lt, hentry.dev, hentry.inj, hentry.sync⟩)
      ?_ ?_ rfl (fun j => ?_) (fun _ _ => Iff.rfl) ?_ (fun _ => id)
      (fun q _ n t dp hf _ => hfr q n t dp hf)
      (fun q hq n t dp hf j hj => hrefs q hq n t dp hf j hj fun hji => by rw [setInode_ne _ _ _ hji])
      hsole rfl fun q hq j hj => h.sole_pin q j hj p hq.symm
    · rw [Ghost.slotRefs_addRef, if_pos rfl]
      push_cast
      omega
    · intro j hji
      rw [Ghost.slotRefs_addRef, if_neg hji, Nat.add_zero]
    · rw [setInode_lock rfl]
      exact h.lock j p
    · exact ((h.knows p).inode (h.in_use p) hkeep fun n t dp hf _ => hfr p n t dp hf).addRef i horder'
  | miss hnone hfree =>
    have hkeep : Keeps (fun ino =>
        { ino with dev := ROOTDEV, inum := n, ref := 1, valid := false }) (s.icache i) :=
      fun hr => absurd hr (by omega)
    refine StepOk.inode h hkeep
      (fun _ => ⟨hn, rfl, fun j _ hj => hnone j hj, fun hv => absurd hv (by simp)⟩)
      ?_ ?_ rfl (fun j => ?_) (fun _ _ => Iff.rfl) ?_ (fun _ => id)
      (fun _ _ _ _ _ _ _ _ => rfl)
      (fun q hq n t dp hf j hj => hrefs q hq n t dp hf j hj fun hji => by rw [setInode_ne _ _ _ hji])
      hsole rfl fun q hq j hj => h.sole_pin q j hj p hq.symm
    · rw [Ghost.slotRefs_addRef, if_pos rfl, hfree]
      push_cast
      omega
    · intro j hji
      rw [Ghost.slotRefs_addRef, if_neg hji, Nat.add_zero]
    · rw [setInode_lock rfl]
      exact h.lock j p
    · exact ((h.knows p).inode (h.in_use p) hkeep fun _ _ _ _ _ _ => rfl).addRef i horder'

/-! ### Locks -/

/-- Locks after entry `i` has been locked by `p`. -/
theorem Coh.lock_lockAt (hf : (f (s.icache i)).lock = some p) (site : Site) (x : Option Snap)
    (j : Slot) :
    ((s.setInode i f).icache j).lock = some p ↔ ((G p).lockAt i site x).held j ≠ none := by
  by_cases hji : j = i
  · subst hji
    simp [hf, Ghost.lockAt]
  · rw [setInode_ne _ _ _ hji, h.lock j p]
    simp [Ghost.lockAt, hji]

/-- Locks after entry `i` has been unlocked. -/
theorem Coh.lock_unlock (hf : (f (s.icache i)).lock = none) (j : Slot) :
    ((s.setInode i f).icache j).lock = some p ↔ ((G p).unlock i).held j ≠ none := by
  by_cases hji : j = i
  · subst hji
    simp [hf, Ghost.unlock]
  · rw [setInode_ne _ _ _ hji, h.lock j p]
    simp [Ghost.unlock, hji]

/-- Taking a lock, in general: the step loads the inode or leaves it alone. -/
theorem StepOk.lockAt {x : Option Snap} {pin : Option (Slot × Nat × BitVec 16)}
    {fresh : Option (Nat × BitVec 16 × Slot)} {window : Option Slot}
    (href : 0 < (G p).refs i ∨ ∃ u, (G p).use = some u ∧ u.type = .FD_INODE ∧ u.ip = i)
    (hfree : (s.icache i).lock = none) (hlock : (f (s.icache i)).lock = some p)
    (hsame : (f (s.icache i)).ref = (s.icache i).ref)
    (hinum : (f (s.icache i)).inum = (s.icache i).inum)
    (hdev : (f (s.icache i)).dev = (s.icache i).dev)
    (hvalid : (s.icache i).valid = true → (f (s.icache i)).valid = true)
    (hsync : (f (s.icache i)).valid = true →
      (f (s.icache i)).toDinode = dinode sb s.disk (s.icache i).inum ∧ (f (s.icache i)).type ≠ 0)
    (hx : ∀ y, x = some y → (f (s.icache i)).valid = true ∧
      dinode sb s.disk (s.icache i).inum = y.d ∧ s.bytes sb i = y.c ∧ (s.icache i).inum = y.n)
    (hpin : pin = (G p).pin ∨ pin = none ∨ ∃ y, pin = some (i, y.n, y.d.type) ∧ x = some y ∧
      0 < (G p).refs i) (horder : order = (G p).order ∨ order = none)
    (hfresh : fresh = none ∨ fresh = (G p).fresh ∧
      ((f (s.icache i)).valid = true → (s.icache i).valid = true)) :
    StepOk sb s G p (s.setInode i f)
      { (G p).lockAt i site x with pin := pin, fresh := fresh, order := order, window := window } := by
  have hr : 0 < (s.icache i).ref := by
    rcases href with hr | ⟨u, hu, ht, hi⟩
    · exact h.ref_pos hr
    · obtain ⟨_, ht', hi', _⟩ := (h.knows p).used u hu
      exact h.ref_pos_of_open (ht'.trans ht) (hi'.trans hi)
  have hkeep : Keeps f (s.icache i) := fun _ => ⟨hinum, hvalid⟩
  have hentry := h.cache.entryOk hr
  -- nobody else has just allocated this inode
  have hnot : ∀ q, q ≠ p → ∀ n t dp, (G q).fresh = some (n, t, dp) → (s.icache i).inum ≠ n := by
    intro q hq n t dp hf heq
    rcases href with hr' | ⟨u, hu, ht, hi⟩
    · exact h.fresh_refs q n t dp hf p hq.symm i hr' heq
    · obtain ⟨_, ht', hi', _⟩ := (h.knows p).used u hu
      have hv := (h.file_inode u.file (ht'.trans ht)).1
      rw [hi'.trans hi, ((h.knows q).isfresh n t dp hf).2.2.2 i hr heq] at hv
      exact absurd hv (by simp)
  -- nobody else has seen the last reference: it would hold the lock
  have hnosole : ∀ q, (G q).sole ≠ some i := by
    intro q hq
    have := (h.lock i q).mpr (h.sole_held q i hq).1
    rw [hfree] at this
    exact absurd this (by simp)
  have hknows : Knows sb (s.setInode i f) p { G p with fresh := fresh } := by
    refine Knows.inode ?_ (h.in_use p) hkeep ?_
    · have hk := h.knows p
      refine ⟨hk.held_ref, hk.snap, hk.pinned, hk.used, hk.newfile, fun n t dp hf => ?_, hk.below,
        hk.number⟩
      rcases hfresh with rfl | ⟨rfl, _⟩
      · exact absurd hf (by simp)
      · exact hk.isfresh n t dp hf
    · intro n t dp hf _ heq
      rcases hfresh with rfl | ⟨rfl, hnv⟩
      · exact absurd hf (by simp)
      · rw [hinum] at heq
        have := ((h.knows p).isfresh n t dp hf).2.2.2 i hr heq
        by_contra hv
        rw [Bool.not_eq_false] at hv
        rw [hnv hv] at this
        exact absurd this (by simp)
  refine StepOk.inode h hkeep ?_ ?_ ?_ rfl (h.lock_lockAt hlock site x) ?_ ?_ ?_ ?_ ?_ ?_ rfl ?_
  · intro _
    exact ⟨by rw [hinum]; exact hentry.inum_lt, by rw [hdev]; exact hentry.dev,
      by rw [hinum]; exact hentry.inj, fun hv => by rw [hinum]; exact hsync hv⟩
  · rw [hsame]
    rfl
  · intro j _
    rfl
  · intro q hq
    rw [hlock, hfree]
    simp [hq.symm]
  · -- what `p` knows
    refine ⟨fun j hj => ?_, fun j site' y hy => ?_, fun j t ht => ?_, hknows.used, hknows.newfile,
      hknows.isfresh, fun dp j n ho => ?_, fun j n hn => ?_⟩
    · by_cases hji : j = i
      · rw [hji]; exact href.imp_right Or.inr
      · exact (h.knows p).held_ref j (by simpa [Ghost.lockAt, hji] using hj)
    · by_cases hji : j = i
      · subst hji
        simp only [Ghost.lockAt, update_self, Option.some.injEq, Hold.mk.injEq] at hy
        obtain ⟨hv, hd, hc, _⟩ := hx y hy.2
        rw [setInode_self, hinum]
        exact ⟨hv, hd, hc⟩
      · exact hknows.snap j site' y (by simpa [Ghost.lockAt, hji] using hy)
    · rcases hpin with rfl | rfl | ⟨y, rfl, hy, hri⟩
      · exact hknows.pinned j t ht
      · exact absurd ht (by simp)
      · simp only [Option.some.injEq, Prod.mk.injEq] at ht
        obtain ⟨rfl, rfl⟩ := ht
        obtain ⟨hv, hd, _⟩ := hx y hy
        rw [setInode_self, hinum]
        exact ⟨hri, hv, congrArg Dinode.type hd⟩
    · rcases horder with rfl | rfl
      · exact hknows.below dp j n ho
      · exact absurd ho (by simp)
    · rcases hn with ⟨site', y, hy, rfl⟩ | ⟨t, ht⟩ | ⟨dp, ho⟩
      · by_cases hji : j = i
        · subst hji
          simp only [Ghost.lockAt, update_self, Option.some.injEq, Hold.mk.injEq] at hy
          rw [setInode_self, hinum]
          exact (hx y hy.2).2.2.2
        · exact hknows.number j y.n
            (Or.inl ⟨site', y, by simpa [Ghost.lockAt, hji] using hy, rfl⟩)
      · rcases hpin with rfl | rfl | ⟨y, rfl, hy, _⟩
        · exact hknows.number j n (Or.inr (Or.inl ⟨t, ht⟩))
        · exact absurd ht (by simp)
        · simp only [Option.some.injEq, Prod.mk.injEq] at ht
          obtain ⟨rfl, rfl, _⟩ := ht
          rw [setInode_self, hinum]
          exact (hx y hy).2.2.2
      · rcases horder with rfl | rfl
        · exact hknows.number j n (Or.inr (Or.inr ⟨dp, ho⟩))
        · exact absurd ho (by simp)
  · intro x hx
    rcases hfresh with rfl | ⟨rfl, _⟩
    · exact absurd hx (by simp)
    · exact hx
  · intro q hq n t dp hf _ heq
    rw [hinum] at heq
    exact absurd heq (hnot q hq n t dp hf)
  · intro q hq n t dp hf j hj
    by_cases hji : j = i
    · subst hji
      rw [setInode_self, hinum]
      exact hnot q hq n t dp hf
    · rw [setInode_ne _ _ _ hji]
      exact h.fresh_refs q n t dp hf p hq.symm j hj
  · intro j hj
    obtain ⟨hh, hrj⟩ := h.sole_held p j hj
    refine ⟨hj, ?_, hrj⟩
    by_cases hji : j = i
    · simp [Ghost.lockAt, hji]
    · simpa [Ghost.lockAt, hji] using hh
  · intro q hq j hj t
    rcases hpin with rfl | rfl | ⟨y, rfl, _, _⟩
    · exact h.sole_pin q j hj p hq.symm t
    · simp
    · intro heq
      simp only [Option.some.injEq, Prod.mk.injEq] at heq
      exact hnosole q (heq.1 ▸ hj)

/-- Giving up a lock, in general: the reference may be on its way out. -/
theorem StepOk.unlock {drop : Option Slot} {sole window dead : Option Slot}
    (hheld : (G p).held i ≠ none) (hrefs : r = (G p).refs ∧ drop = (G p).drop ∨
      (G p).refs = r + Pi.single i 1 ∧ (G p).drop = none ∧ drop = some i ∧
        (G p).order = none ∧ ∀ t, (G p).pin = some (i, t) → 0 < r i)
    (huse : use = (G p).use ∨ use = none ∧ ∀ j, j ≠ i → (G p).held j = none)
    (hsole : sole = none ∨ sole = (G p).sole ∧ (G p).sole ≠ some i) :
    StepOk sb s G p (s.setInode i fun ino => { ino with lock := none })
      { (G p).unlock i with
        refs := r, drop := drop, use := use, sole := sole, window := window, dead := dead } := by
  have hr := h.ref_pos_of_held hheld
  have hentry := h.cache.entryOk hr
  have hkeep : Keeps (fun ino => { ino with lock := none }) (s.icache i) := fun _ => ⟨rfl, id⟩
  have hk : Knows sb (s.setInode i fun ino => { ino with lock := none }) p (G p) :=
    (h.knows p).inode (h.in_use p) hkeep
      fun n t dp hf _ hn => ((h.knows p).isfresh n t dp hf).2.2.2 i hr hn
  -- references to other entries, and the sum for this one, stay
  have hother : ∀ j, j ≠ i → r j = (G p).refs j := by
    intro j hji
    rcases hrefs with ⟨rfl, _⟩ | ⟨heq, _⟩
    · rfl
    · rw [heq]; simp [hji]
  have hle : ∀ j, 0 < r j → 0 < (G p).refs j := by
    intro j hj
    rcases hrefs with ⟨rfl, _⟩ | ⟨heq, _⟩
    · exact hj
    · rw [heq]; exact Nat.lt_of_lt_of_le hj (Nat.le_add_right _ _)
  have hsum : ∀ g₁ : Ghost, g₁.refs = r → g₁.drop = drop → g₁.moved = (G p).moved →
      ∀ cwd j, g₁.slotRefs cwd j = (G p).slotRefs cwd j := by
    intro g₁ h1 h2 h3 cwd j
    unfold Ghost.slotRefs
    rw [h1, h2, h3]
    rcases hrefs with ⟨rfl, rfl⟩ | ⟨heq, hd, rfl, _⟩
    · rfl
    · simp only [heq, hd, Pi.add_apply, Pi.single_apply, Option.some.injEq]
      by_cases hji : j = i
      · subst hji; simp
      · simp [hji, Ne.symm hji]
  refine StepOk.inode h hkeep (fun _ => ⟨hentry.inum_lt, hentry.dev, hentry.inj, hentry.sync⟩)
    ?_ ?_ rfl (h.lock_unlock rfl) ?_ ?_ (fun _ => id) ?_ ?_ ?_ rfl
    fun q hq j hj => h.sole_pin q j hj p hq.symm
  · refine congrArg (fun k : Nat => (s.icache i).ref + (k : Int)) (Eq.symm ?_)
    apply hsum <;> rfl
  · intro j _
    apply hsum <;> rfl
  · intro q hq
    rw [(h.lock i p).mpr hheld]
    simp [hq.symm]
  · refine ⟨fun j hj => ?_, fun j site x hx => ?_, fun j t ht => ?_, fun u hu => ?_,
      hk.newfile, hk.isfresh, fun dp j n ho => ?_, fun j n hn => ?_⟩
    · by_cases hji : j = i
      · subst hji; simp [Ghost.unlock] at hj
      · have hj' : (G p).held j ≠ none := by simpa [Ghost.unlock, hji] using hj
        show 0 < r j ∨ drop = some j ∨ ∃ u, use = some u ∧ u.type = .FD_INODE ∧ u.ip = j
        rw [hother j hji]
        rcases huse with rfl | ⟨_, hnone⟩
        · refine ((h.knows p).held_ref j hj').imp_right (Or.imp_left fun hd => ?_)
          rcases hrefs with ⟨_, rfl⟩ | ⟨_, hnone, _⟩
          · exact hd
          · rw [hnone] at hd; cases hd
        · exact absurd (hnone j hji) hj'
    · by_cases hji : j = i
      · subst hji; simp [Ghost.unlock] at hx
      · exact hk.snap j site x (by simpa [Ghost.unlock, hji] using hx)
    · obtain ⟨hrj, hv, hd⟩ := hk.pinned j t ht
      refine ⟨?_, hv, hd⟩
      show 0 < r j
      rcases hrefs with ⟨rfl, _⟩ | ⟨_, _, _, _, hpin⟩
      · exact hrj
      · by_cases hji : j = i
        · subst hji; exact hpin t ht
        · rw [hother j hji]; exact hrj
    · rcases huse with rfl | ⟨rfl, _⟩
      · exact hk.used u hu
      · exact absurd hu (by simp)
    · show 0 < r dp ∧ 0 < r j
      rcases hrefs with ⟨rfl, _⟩ | ⟨_, _, _, hnone, _⟩
      · exact hk.below dp j n ho
      · exact absurd (hnone.symm.trans ho) (by simp)
    · rcases hn with ⟨site, x, hx, hxn⟩ | hpin | hord
      · by_cases hji : j = i
        · subst hji; simp [Ghost.unlock] at hx
        · exact hk.number j n (Or.inl ⟨site, x, by simpa [Ghost.unlock, hji] using hx, hxn⟩)
      · exact hk.number j n (Or.inr (Or.inl hpin))
      · exact hk.number j n (Or.inr (Or.inr hord))
  · intro q _ n t dp hf _ hn
    exact ((h.knows q).isfresh n t dp hf).2.2.2 i hr hn
  · intro q hq n t dp hf j hj
    have hsame : ((s.setInode i fun ino => { ino with lock := none }).icache j).inum =
        (s.icache j).inum := by
      by_cases hji : j = i
      · subst hji; rw [setInode_self]
      · rw [setInode_ne _ _ _ hji]
    rw [hsame]
    exact h.fresh_refs q n t dp hf p hq.symm j (hle j hj)
  · intro j hj
    rcases hsole with rfl | ⟨rfl, hne⟩
    · exact absurd hj (by simp)
    · obtain ⟨hh, hrj⟩ := h.sole_held p j hj
      have hji : j ≠ i := by rintro rfl; exact hne hj
      refine ⟨hj, by simpa [Ghost.unlock, hji] using hh, ?_⟩
      show 0 < r j
      rw [hother j hji]
      exact hrj

/-- The last step of `iput`. -/
theorem StepOk.dropped (hdrop : (G p).drop = some i) (hfree : (G p).held i = none) :
    StepOk sb s G p (s.setInode i fun ino => { ino with ref := ino.ref - 1 })
      { G p with drop := none } := by
  have hr : 0 < (s.icache i).ref := by
    refine h.ref_of_refs (q := p) ?_
    unfold Ghost.slotRefs
    rw [if_pos hdrop]
    omega
  have hentry := h.cache.entryOk hr
  have hkeep : Keeps (fun ino => { ino with ref := ino.ref - 1 }) (s.icache i) :=
    fun _ => ⟨rfl, id⟩
  have hfr : ∀ q n t dp, (G q).fresh = some (n, t, dp) → (s.icache i).inum = n →
      (s.icache i).valid = false :=
    fun q n t dp hf hn => ((h.knows q).isfresh n t dp hf).2.2.2 i hr hn
  have hk : Knows sb (s.setInode i fun ino => { ino with ref := ino.ref - 1 }) p (G p) :=
    (h.knows p).inode (h.in_use p) hkeep fun n t dp hf _ => hfr p n t dp hf
  refine StepOk.inode h hkeep (fun _ => ⟨hentry.inum_lt, hentry.dev, hentry.inj, hentry.sync⟩)
    ?_ ?_ rfl (fun j => ?_) (fun _ _ => Iff.rfl)
    ⟨fun j hj => ?_, hk.snap, hk.pinned, hk.used, hk.newfile, hk.isfresh, hk.below, hk.number⟩
    (fun _ => id)
    (fun q _ n t dp hf _ => hfr q n t dp hf) ?_
    (fun j hj => ⟨hj, h.sole_held p j hj⟩) rfl fun q hq j hj => h.sole_pin q j hj p hq.symm
  · unfold Ghost.slotRefs
    simp only [hdrop, if_true, reduceCtorEq, if_false]
    push_cast
    omega
  · intro j hji
    unfold Ghost.slotRefs
    simp only [hdrop, Option.some.injEq, reduceCtorEq, if_false]
    rw [if_neg (Ne.symm hji)]
  · rw [setInode_lock rfl]
    exact h.lock j p
  · refine (hk.held_ref j hj).imp_right fun hd => Or.inr (hd.resolve_left fun hd => hj ?_)
    rw [hdrop] at hd
    obtain rfl := Option.some.inj hd
    exact hfree
  · intro q hq n t dp hf j hj
    have hsame : ((s.setInode i fun ino => { ino with ref := ino.ref - 1 }).icache j).inum =
        (s.icache j).inum := by
      by_cases hji : j = i
      · subst hji; rw [setInode_self]
      · rw [setInode_ne _ _ _ hji]
    rw [hsame]
    exact h.fresh_refs q n t dp hf p hq.symm j hj

/-! ## Steps on the disk -/

/-- What a change of inode `n` does not concern. -/
theorem Touches.of_held {disk : Disk} (ht : Touches sb n s.disk disk)
    (hn : ∀ q j site x, (G q).held j = some ⟨site, some x⟩ → q ≠ p → (s.icache j).inum ≠ n)
    {q : Pid} (hq : q ≠ p) {x : Snap} (hx : (G q).held j = some ⟨site, some x⟩) :
    Fs.dinode sb disk (s.icache j).inum = Fs.dinode sb s.disk (s.icache j).inum ∧
      Fs.data sb disk (s.icache j).inum = Fs.data sb s.disk (s.icache j).inum := by
  have hmem := (h.synced_of_held hx).1.mem
  have hne := hn q j site x hx hq
  exact ⟨ht.dinode _ hmem.1 hne, ht.data _ hmem hne⟩

end

section

variable (s : FsState) (i : Slot) (disk : Disk) (d : Dinode)

@[simp] theorem withFile_ftable : (s.withFile i disk d).ftable = s.ftable := rfl

/-- All but the copy of the inode stays. -/
theorem withFile_entry (j : Slot) :
    ((s.withFile i disk d).icache j).inum = (s.icache j).inum ∧
    ((s.withFile i disk d).icache j).dev = (s.icache j).dev ∧
    ((s.withFile i disk d).icache j).ref = (s.icache j).ref ∧
    ((s.withFile i disk d).icache j).lock = (s.icache j).lock ∧
    ((s.withFile i disk d).icache j).valid = (s.icache j).valid := by
  by_cases hji : j = i
  · subst hji
    simp [FsState.withFile]
  · rw [withFile_of_ne _ _ _ _ hji]
    exact ⟨rfl, rfl, rfl, rfl, rfl⟩

end

/-- A step that changes the locked inode `i` on the disk and in the cache. -/
theorem StepOk.file (h : Coh sb s G) {x : Snap} {disk : Disk} {d : Dinode} {pend : Nat → Nat}
    {making : Option Nat} (hheld : (G p).held i = some ⟨site, some x⟩)
    (htouch : Touches sb (s.icache i).inum s.disk disk) (hd : dinode sb disk (s.icache i).inum = d)
    (hc : data sb disk (s.icache i).inum = c) (htype : d.type = x.d.type) :
    StepOk sb s G p (s.withFile i disk d)
      { (G p).lockAt i site (some ⟨x.n, d, c⟩) with
        pend := pend, dead := dead, making := making } := by
  have hheld' : (G p).held i ≠ none := by simp [hheld]
  have hr := h.ref_pos_of_held hheld'
  obtain ⟨hv, hd0, _⟩ := (h.knows p).snap i site x hheld
  have hsync := (h.synced hr hv)
  have hent := withFile_entry s i disk d
  have htype0 : (dinode sb s.disk (s.icache i).inum).type = d.type := by rw [hd0, htype]
  -- another entry in use holds another inode
  have hother : ∀ j, j ≠ i → 0 < (s.icache j).ref → (s.icache j).inum ≠ (s.icache i).inum :=
    fun j hji hj heq => hji (h.cache.inj j i hj hr heq)
  have htypes : ∀ j, 0 < (s.icache j).ref → (dinode sb disk (s.icache j).inum).type =
      (dinode sb s.disk (s.icache j).inum).type := by
    intro j hj
    by_cases hji : j = i
    · rw [hji, hd, htype0]
    · rw [htouch.dinode _ (h.cache.inum_lt j hj) (hother j hji hj)]
  have hfresh : ∀ q n t dp, (G q).fresh = some (n, t, dp) →
      dinode sb disk n = dinode sb s.disk n ∧ ∀ j, 0 < ((s.withFile i disk d).icache j).ref →
        ((s.withFile i disk d).icache j).inum = n →
        ((s.withFile i disk d).icache j).valid = false := by
    intro q n t dp hf
    obtain ⟨hlt, _, _, hall⟩ := (h.knows q).isfresh n t dp hf
    have hne : n ≠ (s.icache i).inum := by
      intro heq
      rw [hall i hr heq.symm] at hv
      exact absurd hv (by simp)
    refine ⟨htouch.dinode n hlt hne, fun j hj hn => ?_⟩
    rw [(hent j).2.2.1] at hj
    rw [(hent j).1] at hn
    rw [(hent j).2.2.2.2]
    exact hall j hj hn
  refine ⟨htouch.volume, ⟨fun j hj => ?_, fun j hj => ?_, fun j k hj hk hjk => ?_, fun j hj hv => ?_⟩,
    fun j _ => (hent j).1, fun j => ?_, fun x => ?_, fun _ _ => rfl, fun j => ?_, fun j q _ => ?_,
    h.file_free, fun x hx => ?_, ?_, fun q hq => ?_, fun n t dp hf => Or.inl hf, ?_, fun j hj => ?_,
    fun q hq j hj => ?_⟩
  · rw [(hent j).2.2.1] at hj
    rw [(hent j).1]
    exact h.cache.inum_lt j hj
  · rw [(hent j).2.2.1] at hj
    rw [(hent j).2.1]
    exact h.cache.dev j hj
  · rw [(hent j).2.2.1] at hj
    rw [(hent k).2.2.1] at hk
    rw [(hent j).1, (hent k).1] at hjk
    exact h.cache.inj j k hj hk hjk
  · rw [(hent j).2.2.1] at hj
    rw [(hent j).2.2.2.2] at hv
    by_cases hji : j = i
    · subst hji
      rw [withFile_copy, withFile_inum, withFile_disk, hd]
      refine ⟨rfl, ?_⟩
      rw [← htype0]
      exact hsync.mem.2
    · rw [withFile_of_ne _ _ _ _ hji, withFile_disk,
        htouch.dinode _ (h.cache.inum_lt j hj) (hother j hji hj)]
      exact h.cache.sync j hj hv
  · rw [(hent j).2.2.1]
    rfl
  · rfl
  · rw [(hent j).2.2.2.1, h.lock j p]
    by_cases hji : j = i
    · subst hji; simp [Ghost.lockAt, hheld]
    · simp [Ghost.lockAt, hji]
  · rw [(hent j).2.2.2.1]
  · obtain ⟨hvx, hw⟩ := h.file_inode x hx
    rw [(hent _).2.2.2.2, (hent _).1]
    refine ⟨hvx, fun hwr => ?_⟩
    rw [withFile_disk, withFile_ftable, htypes _ (h.ref_pos_of_open hx rfl)]
    exact hw hwr
  · -- `p` itself: the snapshot is the new one
    have hk := h.knows p
    refine ⟨fun j hj => ?_, fun j site' y hy => ?_, fun j t ht => ?_, hk.used, hk.newfile,
      fun n t dp hf => ?_, hk.below, fun j n hn => ?_⟩
    · refine hk.held_ref j ?_
      by_cases hji : j = i
      · subst hji; exact hheld'
      · simpa [Ghost.lockAt, hji] using hj
    · by_cases hji : j = i
      · subst hji
        simp only [Ghost.lockAt, update_self, Option.some.injEq, Hold.mk.injEq] at hy
        obtain ⟨_, rfl⟩ := hy
        rw [(hent j).2.2.2.2, (hent j).1]
        exact ⟨hv, hd, hc⟩
      · have hy' : (G p).held j = some ⟨site', some y⟩ := by simpa [Ghost.lockAt, hji] using hy
        have hrj := h.ref_pos_of_held (q := p) (i := j) (by simp [hy'])
        obtain ⟨hvj, hdj, hcj⟩ := hk.snap j site' y hy'
        have hmem := (h.synced hrj hvj).mem
        rw [(hent j).2.2.2.2, (hent j).1, withFile_disk]
        exact ⟨hvj, (htouch.dinode _ hmem.1 (hother j hji hrj)).trans hdj,
          (htouch.data _ hmem (hother j hji hrj)).trans hcj⟩
    · obtain ⟨hrj, hvj, hdj⟩ := hk.pinned j t ht
      rw [(hent j).2.2.2.2, (hent j).1, withFile_disk, htypes j (h.ref_pos hrj)]
      exact ⟨hrj, hvj, hdj⟩
    · obtain ⟨h1, h2, h3, _⟩ := hk.isfresh n t dp hf
      obtain ⟨e1, e2⟩ := hfresh p n t dp hf
      exact ⟨h1, h2, e1.trans h3, e2⟩
    · rw [(hent j).1]
      rcases hn with ⟨site', y, hy, rfl⟩ | hpin | hord
      · by_cases hji : j = i
        · subst hji
          simp only [Ghost.lockAt, update_self, Option.some.injEq, Hold.mk.injEq] at hy
          obtain ⟨_, rfl⟩ := hy
          exact hk.number j x.n (Or.inl ⟨site, x, hheld, rfl⟩)
        · exact hk.number j y.n (Or.inl ⟨site', y, by simpa [Ghost.lockAt, hji] using hy, rfl⟩)
      · exact hk.number j n (Or.inr (Or.inl hpin))
      · exact hk.number j n (Or.inr (Or.inr hord))
  · refine (h.knows q).mono (fun j _ => (hent j).1) (fun j _ hvj => ?_) (fun j site' y hy => ?_)
      (fun j t ht => ?_) rfl (fun _ _ => ⟨rfl, rfl, rfl⟩) (fun _ _ => ⟨rfl, rfl⟩)
      (hfresh q)
    · rw [(hent j).2.2.2.2]; exact hvj
    · refine htouch.of_held (p := p) h (fun q j site y hy hq heq => ?_) hq hy
      have hrj := h.ref_pos_of_held (q := q) (i := j) (by simp [hy])
      have hji := h.cache.inj j i hrj hr heq
      subst hji
      rw [h.held_none hheld' hq] at hy
      exact absurd hy (by simp)
    · exact htypes j (h.ref_pos ((h.knows q).pinned j t ht).1)
  · intro q hq n t dp hf j hj
    rw [(hent j).1]
    exact h.fresh_refs q n t dp hf p hq.symm j hj
  · obtain ⟨hh, hrj⟩ := h.sole_held p j hj
    refine ⟨?_, hrj, h.sole_open p j hj, h.sole_cwd p j hj p, fun r hr =>
      ⟨h.sole_cwd p j hj r, h.sole_pin p j hj r hr⟩⟩
    by_cases hji : j = i
    · simp [Ghost.lockAt, hji]
    · simpa [Ghost.lockAt, hji] using hh
  · exact ⟨h.sole_open q j hj, h.sole_cwd q j hj p, h.sole_pin q j hj p hq.symm⟩

/-- A step that changes an inode `n` which no entry of the cache has loaded
    afterwards: it is allocated, or freed. -/
theorem StepOk.unloaded (h : Coh sb s G) (htouch : Touches sb n s.disk s'.disk)
    (hftable : s'.ftable = s.ftable) (hproc : s'.proc = s.proc)
    (hent : ∀ j, (s'.icache j).inum = (s.icache j).inum ∧ (s'.icache j).dev = (s.icache j).dev ∧
      (s'.icache j).ref = (s.icache j).ref ∧ (s'.icache j).lock = (s.icache j).lock)
    (hsame : ∀ j, 0 < (s.icache j).ref → (s.icache j).inum ≠ n → s'.icache j = s.icache j)
    (hunl : ∀ j, 0 < (s.icache j).ref → (s.icache j).inum = n → (s'.icache j).valid = false)
    (hfile : ∀ f, (s.ftable f).type = .FD_INODE → (s.icache (s.ftable f).ip).inum ≠ n)
    (hpin : ∀ q j t, (G q).pin = some (j, t) → (s.icache j).inum ≠ n)
    (hsnap : ∀ q, q ≠ p → ∀ j site x, (G q).held j = some ⟨site, some x⟩ → (s.icache j).inum ≠ n)
    (hself : ∀ j site x, g'.held j = some ⟨site, some x⟩ →
      (G p).held j = some ⟨site, some x⟩ ∧ (s.icache j).inum ≠ n)
    (hheld : ∀ j, g'.held j ≠ none ↔ (G p).held j ≠ none)
    (hfresh : ∀ q m t dp, (G q).fresh = some (m, t, dp) → m ≠ n)
    (hnew : ∀ m t dp, g'.fresh = some (m, t, dp) → (G p).fresh = some (m, t, dp) ∨ m = n ∧ t ≠ 0 ∧
      n < sb.ninodes ∧ dinode sb s'.disk n = blank t ∧
      ∀ r, r ≠ p → ∀ j, 0 < (G r).refs j → (s.icache j).inum ≠ n)
    (hrefs : g'.refs = (G p).refs ∧ g'.drop = (G p).drop ∧ g'.sole = (G p).sole ∨
      ∃ i, (G p).refs = g'.refs + Pi.single i 1 ∧ (G p).drop = none ∧ g'.drop = some i ∧
        (∀ t, (G p).pin ≠ some (i, t)) ∧ (G p).order = none ∧ g'.sole = none)
    (hg : g'.moved = (G p).moved ∧ g'.frefs = (G p).frefs ∧ g'.pin = (G p).pin ∧
      g'.use = (G p).use ∧ g'.fnew = (G p).fnew ∧ g'.order = (G p).order) :
    StepOk sb s G p s' g' := by
  obtain ⟨gmoved, gfrefs, gpin, guse, gfnew, gorder⟩ := hg
  -- at most one reference is on its way out
  have hle : ∀ j, 0 < g'.refs j → 0 < (G p).refs j := by
    intro j hj
    rcases hrefs with ⟨heq, _⟩ | ⟨i, heq, _⟩
    · rw [← heq]; exact hj
    · rw [heq]; exact Nat.lt_of_lt_of_le hj (Nat.le_add_right _ _)
  have hkept : ∀ j, 0 < (G p).refs j → 0 < g'.refs j ∨ g'.drop = some j := by
    intro j hj
    rcases hrefs with ⟨heq, _⟩ | ⟨i, heq, _, hd, _⟩
    · rw [heq]; exact Or.inl hj
    · by_cases hji : j = i
      · rw [hji]; exact Or.inr hd
      · rw [heq] at hj
        exact Or.inl (by simpa [hji] using hj)
  have hdinode : ∀ j, 0 < (s.icache j).ref → (s.icache j).inum ≠ n →
      dinode sb s'.disk (s.icache j).inum = dinode sb s.disk (s.icache j).inum :=
    fun j hj hne => htouch.dinode _ (h.cache.inum_lt j hj) hne
  have hdata : ∀ j, 0 < (s.icache j).ref → (s.icache j).valid = true → (s.icache j).inum ≠ n →
      data sb s'.disk (s.icache j).inum = data sb s.disk (s.icache j).inum :=
    fun j hj hv hne => htouch.data _ (h.synced hj hv).mem hne
  have hslots : ∀ cwd j, g'.slotRefs cwd j = (G p).slotRefs cwd j := by
    intro cwd j
    unfold Ghost.slotRefs
    rw [gmoved]
    rcases hrefs with ⟨heq, hd, _⟩ | ⟨i, heq, hd, hd', _⟩
    · rw [heq, hd]
    · rw [heq, hd, hd']
      simp only [Pi.add_apply, Pi.single_apply, Option.some.injEq, reduceCtorEq, if_false]
      by_cases hji : j = i
      · subst hji; simp
      · simp [hji, Ne.symm hji]
  have hfiles : ∀ ofile x, g'.fileRefs ofile x = (G p).fileRefs ofile x := by
    intro ofile x
    unfold Ghost.fileRefs
    rw [gfrefs]
  have hopens : s'.opens = s.opens := by unfold FsState.opens; rw [hftable]
  have hmono : ∀ q g, Knows sb s q g → (∀ j t, g.pin = some (j, t) → (s.icache j).inum ≠ n) →
      (∀ j, 0 < g.refs j ∨ g.held j ≠ none → 0 < (s.icache j).ref) →
      (∀ j site x, g.held j = some ⟨site, some x⟩ → (s.icache j).inum ≠ n) →
      (∀ m t dp, g.fresh = some (m, t, dp) → m ≠ n) → Knows sb s' q g := by
    intro q g hk hp hin hs hf
    have hvalid : ∀ j, (∃ t, g.pin = some (j, t)) ∨ (∃ site x, g.held j = some ⟨site, some x⟩) →
        0 < (s.icache j).ref ∧ (s.icache j).inum ≠ n := by
      intro j hj
      rcases hj with ⟨t, ht⟩ | ⟨site, x, hx⟩
      · exact ⟨hin j (Or.inl (hk.pinned j t ht).1), hp j t ht⟩
      · exact ⟨hin j (Or.inr (by simp [hx])), hs j site x hx⟩
    refine hk.mono (fun j _ => (hent j).1) (fun j hj hv => ?_) (fun j site x hx => ?_)
      (fun j t ht => ?_) (by rw [hproc]) (fun _ _ => by rw [hftable]; exact ⟨rfl, rfl, rfl⟩)
      (fun _ _ => by rw [hftable]; exact ⟨rfl, rfl⟩) fun m t dp hm => ⟨?_, fun j hj hn => ?_⟩
    · rw [hsame j (hvalid j hj).1 (hvalid j hj).2]; exact hv
    · have hj := hvalid j (Or.inr ⟨site, x, hx⟩)
      exact ⟨hdinode j hj.1 hj.2, hdata j hj.1 (hk.snap j site x hx).1 hj.2⟩
    · have hj := hvalid j (Or.inl ⟨t, ht⟩)
      rw [hdinode j hj.1 hj.2]
    · exact htouch.dinode m (hk.isfresh m t dp hm).1 (hf m t dp hm)
    · rw [(hent j).2.2.1] at hj
      rw [(hent j).1] at hn
      rw [hsame j hj (by rw [hn]; exact hf m t dp hm)]
      exact (hk.isfresh m t dp hm).2.2.2 j hj hn
  refine ⟨htouch.volume, ⟨fun j hj => ?_, fun j hj => ?_, fun j k hj hk hjk => ?_, fun j hj hv => ?_⟩,
    fun j _ => (hent j).1, fun j => ?_, fun x => ?_, fun q _ => by rw [hproc], fun j => ?_,
    fun j q _ => ?_, by rw [hftable]; exact h.file_free, fun x hx => ?_, ?_, fun q hq => ?_,
    fun m t dp hf => ?_, ?_, fun j hj => ?_, fun q hq j hj => ?_⟩
  · rw [(hent j).2.2.1] at hj
    rw [(hent j).1]
    exact h.cache.inum_lt j hj
  · rw [(hent j).2.2.1] at hj
    rw [(hent j).2.1]
    exact h.cache.dev j hj
  · rw [(hent j).2.2.1] at hj
    rw [(hent k).2.2.1] at hk
    rw [(hent j).1, (hent k).1] at hjk
    exact h.cache.inj j k hj hk hjk
  · rw [(hent j).2.2.1] at hj
    by_cases hjn : (s.icache j).inum = n
    · rw [hunl j hj hjn] at hv
      exact absurd hv (by simp)
    · rw [hsame j hj hjn] at hv ⊢
      rw [hdinode j hj hjn]
      exact h.cache.sync j hj hv
  · rw [(hent j).2.2.1, hopens, hproc, hslots]
  · rw [hftable, hproc, hfiles]
  · rw [(hent j).2.2.2, h.lock j p, hheld j]
  · rw [(hent j).2.2.2]
  · rw [hftable] at hx ⊢
    have hr := h.ref_pos_of_open hx rfl
    rw [hsame _ hr (hfile x hx), hdinode _ hr (hfile x hx)]
    exact h.file_inode x hx
  · -- `p` itself: without what it knew of `n`
    have hk := h.knows p
    have hk' := hmono p { G p with held := g'.held, fresh := none } ?_ (hpin p) ?_
      (fun j site x hx => (hself j site x hx).2) (by simp)
    · refine ⟨?_, hk'.snap, ?_, ?_, ?_, fun m t dp hf => ?_, ?_, fun j m hm => ?_⟩
      · intro j hj
        rw [guse]
        rcases hk'.held_ref j hj with hr | hd | hu
        · rcases hkept j hr with hr' | hd'
          · exact Or.inl hr'
          · exact Or.inr (Or.inl hd')
        · rcases hrefs with ⟨_, heq, _⟩ | ⟨i, _, hnone, _⟩
          · exact Or.inr (Or.inl (heq.trans hd))
          · exact absurd (hnone.symm.trans hd) (by simp)
        · exact Or.inr (Or.inr hu)
      · intro j t ht
        rw [gpin] at ht
        obtain ⟨hr, hv, hd⟩ := hk'.pinned j t ht
        refine ⟨?_, hv, hd⟩
        rcases hrefs with ⟨heq, _⟩ | ⟨i, heq, _, _, hpin, _⟩
        · rw [heq]; exact hr
        · have hji : j ≠ i := by rintro rfl; exact hpin t ht
          have hr' : 0 < (G p).refs j := hr
          rw [heq] at hr'
          simpa [hji] using hr'
      · rw [guse]; exact hk'.used
      · rw [gfnew, gfrefs]; exact hk'.newfile
      · rcases hnew m t dp hf with hold | ⟨rfl, ht, hlt, hblank, _⟩
        · obtain ⟨h1, h2, h3, h4⟩ := hk.isfresh m t dp hold
          have hmn := hfresh p m t dp hold
          refine ⟨h1, h2, by rw [htouch.dinode m h1 hmn]; exact h3, fun j hj hn => ?_⟩
          rw [(hent j).2.2.1] at hj
          rw [(hent j).1] at hn
          rw [hsame j hj (by rw [hn]; exact hmn)]
          exact h4 j hj hn
        · refine ⟨hlt, ht, hblank, fun j hj hn => ?_⟩
          rw [(hent j).2.2.1] at hj
          rw [(hent j).1] at hn
          exact hunl j hj hn
      · intro dp j m ho
        rw [gorder] at ho
        rcases hrefs with ⟨heq, _⟩ | ⟨i, _, _, _, _, hnone, _⟩
        · rw [heq]; exact hk'.below dp j m ho
        · rw [hnone] at ho; cases ho
      · unfold Ghost.Numbers at hm
        rw [gpin, gorder] at hm
        exact hk'.number j m hm
    · refine ⟨fun j hj => hk.held_ref j ((hheld j).mp hj),
        fun j site x hx => hk.snap j site x (hself j site x hx).1, hk.pinned, hk.used, hk.newfile,
        by simp, hk.below, fun j m hm => ?_⟩
      rcases hm with ⟨site, x, hx, hxm⟩ | hrest
      · exact hk.number j m (Or.inl ⟨site, x, (hself j site x hx).1, hxm⟩)
      · exact hk.number j m (Or.inr hrest)
    · intro j hj
      exact h.in_use p j (hj.imp_right (hheld j).mp)
  · exact hmono q (G q) (h.knows q) (hpin q) (h.in_use q) (hsnap q hq) (hfresh q)
  · rcases hnew m t dp hf with hold | ⟨rfl, _, _, _, hrefs⟩
    · exact Or.inl hold
    · exact Or.inr fun r hr => ⟨hrefs r hr, fun t' dp' hf' => hfresh r m t' dp' hf' rfl⟩
  · intro q hq m t dp hf j hj
    rw [(hent j).1]
    exact h.fresh_refs q m t dp hf p hq.symm j (hle j hj)
  · rcases hrefs with ⟨grefs, _, heq⟩ | ⟨_, _, _, _, _, _, heq⟩
    · rw [heq] at hj
      obtain ⟨hh, hrj⟩ := h.sole_held p j hj
      rw [hheld, grefs, hftable, hproc, gmoved]
      exact ⟨hh, hrj, h.sole_open p j hj, h.sole_cwd p j hj p, fun r hr =>
        ⟨h.sole_cwd p j hj r, h.sole_pin p j hj r hr⟩⟩
    · rw [heq] at hj
      exact absurd hj (by simp)
  · rw [hftable, hproc, gmoved, gpin]
    exact ⟨h.sole_open q j hj, h.sole_cwd q j hj p, h.sole_pin q j hj p hq.symm⟩

theorem StepOk.free (h : Coh sb s G) {x : Snap} {disk : Disk} {d : Dinode}
    (hsole : (G p).sole = some i) (hheld : (G p).held i = some ⟨site, some x⟩)
    (hr : (G p).refs = r + Pi.single i 1) (hdrop : (G p).drop = none)
    (hpin : ∀ t, (G p).pin ≠ some (i, t)) (horder : (G p).order = none)
    (htouch : Touches sb (s.icache i).inum s.disk disk) :
    StepOk sb s G p ((s.withFile i disk d).setInode i fun ino => { ino with valid := false })
      { (G p).lockAt i site none with refs := r, drop := some i, sole := none } := by
  have hheld' : (G p).held i ≠ none := by simp [hheld]
  have hri := h.ref_pos_of_held hheld'
  have hv := ((h.knows p).snap i site x hheld).1
  have hent := withFile_entry s i disk d
  -- an entry in use that holds this inode is `i` itself
  have hi : ∀ j, 0 < (s.icache j).ref → (s.icache j).inum = (s.icache i).inum → j = i :=
    fun j hj heq => h.cache.inj j i hj hri heq
  refine StepOk.unloaded h (n := (s.icache i).inum) htouch rfl rfl (fun j => ?_) (fun j hj hne => ?_)
    (fun j hj heq => ?_) (fun x hx heq => ?_) (fun q j t ht heq => ?_)
    (fun q hq j site' y hy heq => ?_) (fun j site' y hy => ?_) (fun j => ?_)
    (fun q m t dp hf => ?_) (fun _ _ _ hf => Or.inl hf)
    (Or.inr ⟨i, hr, hdrop, rfl, hpin, horder, rfl⟩) ⟨rfl, rfl, rfl, rfl, rfl, rfl⟩
  · by_cases hji : j = i
    · subst hji
      rw [setInode_self]
      exact ⟨(hent j).1, (hent j).2.1, (hent j).2.2.1, (hent j).2.2.2.1⟩
    · rw [setInode_ne _ _ _ hji, withFile_of_ne _ _ _ _ hji]
      exact ⟨rfl, rfl, rfl, rfl⟩
  · have hji : j ≠ i := by rintro rfl; exact hne rfl
    rw [setInode_ne _ _ _ hji, withFile_of_ne _ _ _ _ hji]
  · rw [hi j hj heq, setInode_self]
  · exact h.sole_open p i hsole x hx (hi _ (h.ref_pos_of_open hx rfl) heq)
  · have hji := hi j (h.ref_pos ((h.knows q).pinned j t ht).1) heq
    subst hji
    by_cases hq : q = p
    · subst hq; exact hpin t ht
    · exact h.sole_pin p j hsole q hq t ht
  · have hji := hi j (h.ref_pos_of_held (q := q) (by simp [hy])) heq
    subst hji
    rw [h.held_none hheld' hq] at hy
    exact absurd hy (by simp)
  · by_cases hji : j = i
    · subst hji
      simp [Ghost.lockAt] at hy
    · have hy' : (G p).held j = some ⟨site', some y⟩ := by simpa [Ghost.lockAt, hji] using hy
      exact ⟨hy', fun heq => hji (hi j (h.ref_pos_of_held (q := p) (by simp [hy'])) heq)⟩
  · by_cases hji : j = i
    · subst hji; simp [Ghost.lockAt, hheld]
    · simp [Ghost.lockAt, hji]
  · rintro rfl
    rw [((h.knows q).isfresh _ t dp hf).2.2.2 i hri rfl] at hv
    exact absurd hv (by simp)

theorem StepOk.ialloc (h : Coh sb s G) {dp : Slot} {t : BitVec 16} (hn : n < sb.ninodes)
    (hfree : (dinode sb s.disk n).type = 0) (ht : t ≠ 0)
    (hunused : ∀ r, r ≠ p → ∀ j, 0 < (G r).refs j → (s.icache j).inum ≠ n) :
    StepOk sb s G p { s with disk := setDinode sb s.disk n (blank t) }
      { G p with fresh := some (n, t, dp), making := some n } := by
  -- a loaded inode is allocated, so it is not `n`
  have hloaded : ∀ j, 0 < (s.icache j).ref → (s.icache j).valid = true → (s.icache j).inum ≠ n := by
    intro j hj hv heq
    have hmem := (h.synced hj hv).mem
    rw [heq] at hmem
    exact hmem.2 hfree
  refine StepOk.unloaded h (n := n) (h.vol.ialloc hn hfree ht).1 rfl rfl
    (fun _ => ⟨rfl, rfl, rfl, rfl⟩) (fun _ _ _ => rfl) (fun j hj heq => ?_) (fun x hx => ?_)
    (fun q j t' ht' => ?_) (fun q _ j site y hy => ?_) (fun j site y hy => ⟨hy, ?_⟩)
    (fun _ => Iff.rfl) (fun q m t' dp' hf => ?_) (fun m t' dp' hf => ?_)
    (Or.inl ⟨rfl, rfl, rfl⟩) ⟨rfl, rfl, rfl, rfl, rfl, rfl⟩
  · by_contra hv
    exact hloaded j hj (by simpa using hv) heq
  · exact hloaded _ (h.ref_pos_of_open hx rfl) (h.file_inode x hx).1
  · obtain ⟨hr, hv, _⟩ := (h.knows q).pinned j t' ht'
    exact hloaded j (h.ref_pos hr) hv
  · exact hloaded j (h.ref_pos_of_held (q := q) (by simp [hy])) ((h.knows q).snap j site y hy).1
  · exact hloaded j (h.ref_pos_of_held (q := p) (by rw [hy]; simp)) ((h.knows p).snap j site y hy).1
  · rintro rfl
    obtain ⟨_, ht', hblank, _⟩ := (h.knows q).isfresh _ t' dp' hf
    rw [hblank] at hfree
    exact ht' hfree
  · simp only [Option.some.injEq, Prod.mk.injEq] at hf
    obtain ⟨rfl, rfl, rfl⟩ := hf
    exact Or.inr ⟨rfl, ht, hn, dinode_setDinode_self _ _, hunused⟩

/-! ## Steps on the file table and on processes -/

/-- A step that leaves the disk and the inode cache alone. -/
theorem StepOk.table (h : Coh sb s G) (hdisk : s'.disk = s.disk) (hicache : s'.icache = s.icache)
    (hiref : ∀ j, s.opens j + (G p).slotRefs (s.proc p).cwd j =
      s'.opens j + g'.slotRefs (s'.proc p).cwd j)
    (hfref : ∀ f, (s'.ftable f).ref + (((G p).fileRefs (s.proc p).ofile f : Nat) : Int) =
      (s.ftable f).ref + ((g'.fileRefs (s'.proc p).ofile f : Nat) : Int))
    (hproc : ∀ q, q ≠ p → s'.proc q = s.proc q) (hheld : g'.held = (G p).held)
    (hfree : ∀ f, (s'.ftable f).ref = 0 → (s'.ftable f).type = .FD_NONE)
    (hinode : ∀ f, (s'.ftable f).type = .FD_INODE →
      (s.icache (s'.ftable f).ip).valid = true ∧ ((s'.ftable f).writable = true →
        (dinode sb s.disk (s.icache (s'.ftable f).ip).inum).type ≠ T_DIR))
    (hself : Knows sb s' p g')
    (huse : ∀ q, q ≠ p → ∀ u, (G q).use = some u →
      (s'.ftable u.file).type = (s.ftable u.file).type ∧
      (s'.ftable u.file).ip = (s.ftable u.file).ip ∧
      (s'.ftable u.file).writable = (s.ftable u.file).writable)
    (hnew : ∀ q, q ≠ p → ∀ f, (G q).fnew = some f →
      (s'.ftable f).type = (s.ftable f).type ∧ (s'.ftable f).ref = (s.ftable f).ref)
    (hfresh : g'.fresh = (G p).fresh)
    (hrefs : ∀ q, q ≠ p → ∀ n t dp, (G q).fresh = some (n, t, dp) → ∀ j, 0 < g'.refs j →
      0 < (G p).refs j ∨ (s.icache j).inum ≠ n)
    (hsole : ∀ i, g'.sole = some i → 0 < g'.refs i ∧
      ((G p).sole = some i ∨ (G p).held i ≠ none ∧
        (∀ f, (s.ftable f).type = .FD_INODE → (s.ftable f).ip ≠ i) ∧
        ∀ r, ((s.proc r).cwd = some i → (G r).moved = true) ∧
          (r ≠ p → ∀ t, (G r).pin ≠ some (i, t))))
    (hopen : ∀ f i, (s'.ftable f).type = .FD_INODE → (s'.ftable f).ip = i →
      (s.ftable f).type = .FD_INODE ∧ (s.ftable f).ip = i ∨
      (∀ q, q ≠ p → (G q).sole ≠ some i) ∧ (G p).held i = none)
    (hcwd : ∀ i, (s'.proc p).cwd = some i → g'.moved = true ∨
      (s.proc p).cwd = some i ∧ (G p).moved = false ∨
      (∀ q, q ≠ p → (G q).sole ≠ some i) ∧ (G p).held i = none)
    (hpin : ∀ x, g'.pin = some x → (G p).pin = some x) :
    StepOk sb s G p s' g' := by
  -- entries that were seen with one reference keep it to themselves
  have hsole' : ∀ i, g'.sole = some i → (G p).held i ≠ none ∧
      (∀ f, (s.ftable f).type = .FD_INODE → (s.ftable f).ip ≠ i) ∧
      ∀ r, ((s.proc r).cwd = some i → (G r).moved = true) ∧
        (r ≠ p → ∀ t, (G r).pin ≠ some (i, t)) := by
    intro i hi
    rcases (hsole i hi).2 with hold | hnew
    · exact ⟨(h.sole_held p i hold).1, h.sole_open p i hold, fun r =>
        ⟨h.sole_cwd p i hold r, fun hr => h.sole_pin p i hold r hr⟩⟩
    · exact hnew
  refine ⟨by rw [hdisk]; exact h.vol, ?_, fun j _ => by rw [hicache], fun j => ?_, hfref, hproc,
    fun j => ?_, fun j q _ => by rw [hicache], hfree, ?_, hself, fun q hq => ?_,
    fun n t dp hf => Or.inl (hfresh ▸ hf), ?_, fun i hi => ?_, fun q hq i hi => ?_⟩
  · refine ⟨?_, ?_, ?_, ?_⟩
    · rw [hicache]; exact h.cache.inum_lt
    · rw [hicache]; exact h.cache.dev
    · rw [hicache]; exact h.cache.inj
    · rw [hicache, hdisk]; exact h.cache.sync
  · rw [hicache, hiref j]
  · rw [hicache, hheld]
    exact h.lock j p
  · rw [hicache, hdisk]
    exact hinode
  · refine (h.knows q).mono (fun _ _ => by rw [hicache]) (fun _ _ hv => by rw [hicache]; exact hv)
      (fun _ _ _ _ => by rw [hdisk]; exact ⟨rfl, rfl⟩) (fun _ _ _ => by rw [hdisk])
      (by rw [hproc q hq]) (huse q hq) (hnew q hq) fun n t dp hf => ?_
    rw [hdisk, hicache]
    exact ⟨rfl, ((h.knows q).isfresh n t dp hf).2.2.2⟩
  · intro q hq n t dp hf j hj
    rw [hicache]
    rcases hrefs q hq n t dp hf j hj with hold | hne
    · exact h.fresh_refs q n t dp hf p hq.symm j hold
    · exact hne
  · obtain ⟨hh, ho, hr⟩ := hsole' i hi
    refine ⟨by rw [hheld]; exact hh, (hsole i hi).1, fun x hx hix => ?_, fun hc => ?_,
      fun r hrp => ⟨(hr r).1, (hr r).2 hrp⟩⟩
    · rcases hopen x i hx hix with hold | ⟨_, hnone⟩
      · exact ho x hold.1 hold.2
      · exact hh hnone
    · rcases hcwd i hc with hm | ⟨hold, hm⟩ | ⟨_, hnone⟩
      · exact hm
      · rw [(hr p).1 hold] at hm
        exact absurd hm (by simp)
      · exact absurd hnone hh
  · refine ⟨fun x hx hix => ?_, fun hc => ?_, fun t ht => ?_⟩
    · rcases hopen x i hx hix with hold | ⟨hno, _⟩
      · exact h.sole_open q i hi x hold.1 hold.2
      · exact hno q hq hi
    · rcases hcwd i hc with hm | ⟨hold, hm⟩ | ⟨hno, _⟩
      · exact hm
      · rw [h.sole_cwd q i hi p hold] at hm
        exact absurd hm (by simp)
      · exact absurd hi (hno q hq)
    · exact h.sole_pin q i hi p hq.symm t (hpin _ ht)

/-- The current directory is the old one. -/
theorem Coh.cwd_same (G : Pid → Ghost) (p : Pid) {cwd : Option Slot} {moved : Bool}
    (hm : moved = (G p).moved) (i : Slot) (hc : cwd = some i) :
    moved = true ∨ cwd = some i ∧ (G p).moved = false ∨
      (∀ q, q ≠ p → (G q).sole ≠ some i) ∧ (G p).held i = none := by
  cases hb : (G p).moved with
  | true => exact Or.inl (hm.trans hb)
  | false => exact Or.inr (Or.inl ⟨hc, rfl⟩)

/-- Steps without effect on coherence. -/
theorem StepOk.quiet (h : Coh sb s G) (hdisk : s'.disk = s.disk) (hicache : s'.icache = s.icache)
    (hproc : s'.proc = s.proc)
    (hfile : ∀ f, (s'.ftable f).type = (s.ftable f).type ∧ (s'.ftable f).ref = (s.ftable f).ref ∧
      (s'.ftable f).ip = (s.ftable f).ip ∧ (s'.ftable f).writable = (s.ftable f).writable)
    (huse : use = (G p).use ∨ use = none ∧ ∀ i, (G p).held i = none) :
    StepOk sb s G p s' { G p with use := use } := by
  have hopens : s'.opens = s.opens := by
    unfold FsState.opens
    funext i
    refine Finset.sum_congr rfl fun f _ => ?_
    rw [(hfile f).1, (hfile f).2.2.1]
  have hk : Knows sb s' p (G p) := by
    refine (h.knows p).mono (fun _ _ => by rw [hicache]) (fun _ _ hv => by rw [hicache]; exact hv)
      (fun _ _ _ _ => by rw [hdisk]; exact ⟨rfl, rfl⟩) (fun _ _ _ => by rw [hdisk])
      (by rw [hproc]) (fun u _ => ⟨(hfile u.file).1, (hfile u.file).2.2.1, (hfile u.file).2.2.2⟩)
      (fun f _ => ⟨(hfile f).1, (hfile f).2.1⟩) fun n t dp hf => ?_
    rw [hdisk, hicache]
    exact ⟨rfl, ((h.knows p).isfresh n t dp hf).2.2.2⟩
  refine StepOk.table h hdisk hicache (fun j => ?_) (fun f => ?_) (fun q _ => by rw [hproc]) rfl
    (fun f => ?_) (fun f hf => ?_) ?_
    (fun _ _ u _ => ⟨(hfile u.file).1, (hfile u.file).2.2.1, (hfile u.file).2.2.2⟩)
    (fun _ _ f _ => ⟨(hfile f).1, (hfile f).2.1⟩) rfl (fun _ _ _ _ _ _ _ hj => Or.inl hj)
    (fun i hi => ⟨(h.sole_held p i hi).2, Or.inl hi⟩) (fun f i ht hi => Or.inl ?_) (fun i hc => ?_)
    fun _ => id
  · rw [hopens, hproc]; rfl
  · rw [hproc, (hfile f).2.1]; rfl
  · rw [(hfile f).1, (hfile f).2.1]; exact h.file_free f
  · rw [(hfile f).1] at hf
    rw [(hfile f).2.2.1, (hfile f).2.2.2]
    exact h.file_inode f hf
  · refine ⟨fun j hj => ?_, hk.snap, hk.pinned, fun u hu => ?_, hk.newfile, hk.isfresh,
      hk.below, hk.number⟩
    · rcases huse with rfl | ⟨_, hnone⟩
      · exact hk.held_ref j hj
      · exact absurd (hnone j) hj
    · rcases huse with rfl | ⟨rfl, _⟩
      · exact hk.used u hu
      · exact absurd hu (by simp)
  · rw [(hfile f).1] at ht
    rw [(hfile f).2.2.1] at hi
    exact ⟨ht, hi⟩
  · rw [hproc] at hc
    exact Coh.cwd_same G p rfl i hc

/-- `iput` has seen the reference count 1: nobody else refers to the entry. -/
theorem StepOk.alone (h : Coh sb s G) (hheld : (G p).held i ≠ none) (href : 0 < (G p).refs i)
    (hone : (s.icache i).ref = 1) : StepOk sb s G p s { G p with sole := some i } := by
  have hsum := h.iref i
  rw [hone] at hsum
  have hp := Accounts.le_sum (f := fun q => (G q).slotRefs (s.proc q).cwd i) p
  have hpr := Ghost.refs_le_slotRefs (G p) (s.proc p).cwd i
  have hopens : s.opens i = 0 := by omega
  have hothers : ∀ r, r ≠ p → (G r).slotRefs (s.proc r).cwd i = 0 := by
    intro r hr
    have := Accounts.add_le_sum (f := fun q => (G q).slotRefs (s.proc q).cwd i) hr.symm
    omega
  have hcwd : ∀ r, (s.proc r).cwd = some i → (G r).moved = true := by
    intro r hc
    by_contra hm
    have hm' : (G r).moved = false := by simpa using hm
    have h1 : (G r).refs i + 1 ≤ (G r).slotRefs (s.proc r).cwd i := by
      unfold Ghost.slotRefs
      rw [if_pos (show (s.proc r).cwd = some i ∧ (G r).moved = false from ⟨hc, hm'⟩)]
      omega
    by_cases hr : r = p
    · subst hr
      omega
    · have := hothers r hr
      omega
  have hk := h.knows p
  refine StepOk.table h rfl rfl (fun _ => rfl) (fun _ => rfl) (fun _ _ => rfl) rfl h.file_free
    h.file_inode
    ⟨hk.held_ref, hk.snap, hk.pinned, hk.used, hk.newfile, hk.isfresh, hk.below, hk.number⟩
    (fun _ _ _ _ => ⟨rfl, rfl, rfl⟩) (fun _ _ _ _ => ⟨rfl, rfl⟩) rfl
    (fun _ _ _ _ _ _ _ hj => Or.inl hj) (fun j hj => ?_) (fun f i ht hi => Or.inl ⟨ht, hi⟩)
    (fun j hc => Coh.cwd_same G p rfl j hc) fun _ => id
  obtain rfl : i = j := Option.some.inj hj
  refine ⟨href, Or.inr ⟨hheld, fun f ht hi => ?_, fun r => ⟨hcwd r, fun hr t ht => ?_⟩⟩⟩
  · have := Accounts.le_sum
      (f := fun f => if (s.ftable f).type = .FD_INODE ∧ (s.ftable f).ip = i then 1 else 0) f
    simp only [ht, hi, and_self, if_true] at this
    unfold FsState.opens at hopens
    omega
  · have := ((h.knows r).pinned i t ht).1
    have := Ghost.refs_le_slotRefs (G r) (s.proc r).cwd i
    have := hothers r hr
    omega

/-- Without a file in use, locked entries are referred to by the call itself. -/
theorem Knows.held_without_use (hk : Knows sb s q g) (huse : g.use = none) (hj : g.held j ≠ none) :
    0 < g.refs j ∨ g.drop = some j := by
  rcases hk.held_ref j hj with hr | hd | ⟨u, hu, _⟩
  · exact Or.inl hr
  · exact Or.inr hd
  · rw [huse] at hu; cases hu

/-- A descriptor keeps its file open while a call works on it. -/
theorem StepOk.useFile (h : Coh sb s G) {f : FileSlot} (hfd : (s.proc p).ofile fd = some f)
    (huse : (G p).use = none) :
    StepOk sb s G p s
      { G p with
        use := some ⟨fd, f, (s.ftable f).type, (s.ftable f).ip, (s.ftable f).writable⟩ } := by
  have hk := h.knows p
  refine StepOk.table h rfl rfl (fun _ => rfl) (fun _ => rfl) (fun _ _ => rfl) rfl h.file_free
    h.file_inode ⟨fun j hj => (hk.held_without_use huse hj).imp_right Or.inl, hk.snap, hk.pinned,
      fun u hu => ?_, hk.newfile, hk.isfresh, hk.below, hk.number⟩
    (fun _ _ _ _ => ⟨rfl, rfl, rfl⟩) (fun _ _ _ _ => ⟨rfl, rfl⟩) rfl
    (fun _ _ _ _ _ _ _ hj => Or.inl hj) (fun i hi => ⟨(h.sole_held p i hi).2, Or.inl hi⟩)
    (fun f i ht hi => Or.inl ⟨ht, hi⟩) (fun j hc => Coh.cwd_same G p rfl j hc) fun _ => id
  obtain rfl := Option.some.inj hu
  exact ⟨hfd, rfl, rfl, rfl⟩

/-- `sys_chdir` takes over the reference of the current directory. -/
theorem StepOk.takeCwd (h : Coh sb s G) (hcwd : (s.proc p).cwd = some i)
    (hmoved : (G p).moved = false) (hfresh : NotFresh p G (s.icache i).inum) :
    StepOk sb s G p s { (G p).addRef i with moved := true } := by
  have hk := (h.knows p).addRef i (Or.inl rfl)
  refine StepOk.table h rfl rfl (fun j => ?_) (fun _ => rfl) (fun _ _ => rfl) rfl h.file_free
    h.file_inode
    ⟨hk.held_ref, hk.snap, hk.pinned, hk.used, hk.newfile, hk.isfresh, hk.below, hk.number⟩
    (fun _ _ _ _ => ⟨rfl, rfl, rfl⟩) (fun _ _ _ _ => ⟨rfl, rfl⟩) rfl
    (fun q hq n t dp hf j hj => ?_)
    (fun j hj => ⟨Nat.lt_of_lt_of_le (h.sole_held p j hj).2 (Nat.le_add_right _ _), Or.inl hj⟩)
    (fun f i ht hi => Or.inl ⟨ht, hi⟩) (fun j hc => Or.inl rfl) fun _ => id
  · unfold Ghost.slotRefs Ghost.addRef
    simp only [Pi.add_apply, Pi.single_apply, hcwd, hmoved, Option.some.injEq, and_true,
      Bool.true_eq_false, and_false, if_false]
    by_cases hji : j = i
    · subst hji; simp only [if_true]; omega
    · rw [if_neg hji, if_neg (Ne.symm hji)]; omega
  · rcases Ghost.addRef_refs_pos hj with rfl | hold
    · right
      rintro rfl
      exact hfresh q hq t dp hf
    · exact Or.inl hold

section

variable (s : FsState) (q : Pid) (pf : Proc → Proc)

@[simp] theorem setProc_self : (s.setProc q pf).proc q = pf (s.proc q) := by
  simp [FsState.setProc]

theorem setProc_ne {r : Pid} (h : r ≠ q) : (s.setProc q pf).proc r = s.proc r := by
  simp [FsState.setProc, h]

variable (x : FileSlot) (ff : File → File)

@[simp] theorem setFile_self : (s.setFile x ff).ftable x = ff (s.ftable x) := by
  simp [FsState.setFile]

theorem setFile_ne {y : FileSlot} (h : y ≠ x) : (s.setFile x ff).ftable y = s.ftable y := by
  simp [FsState.setFile, h]

end

/-- Without locks, pin and order no number is known. -/
theorem Ghost.Numbers.absurd (hn : g.Numbers j n) (hheld : ∀ j, g.held j = none)
    (hpin : g.pin = none) (ho : g.order = none) : False := by
  rcases hn with ⟨_, _, hx, _⟩ | ⟨_, ht⟩ | ⟨_, hd⟩
  · rw [hheld j] at hx
    cases hx
  · rw [hpin] at ht
    cases ht
  · rw [ho] at hd
    cases hd

/-- The end of `sys_chdir`. -/
theorem StepOk.setCwd (h : Coh sb s G) (hpin : (G p).pin = some (i, t))
    (hr : (G p).refs = r + Pi.single i 1) (hmoved : (G p).moved = true)
    (hheld : ∀ j, (G p).held j = none) (horder : (G p).order = none) :
    StepOk sb s G p (s.setProc p fun pr => { pr with cwd := some i })
      { G p with refs := r, pin := none, moved := false } := by
  have hk := h.knows p
  refine StepOk.table h rfl rfl (fun j => ?_) (fun _ => ?_) (fun q hq => setProc_ne _ _ _ hq) rfl
    h.file_free h.file_inode ⟨fun j hj => absurd (hheld j) hj,
      fun j _ _ hx => absurd (hheld j) (by rw [hx]; simp), by simp, ?_, ?_, hk.isfresh,
      fun _ _ _ ho => absurd (horder.symm.trans ho) (by simp), fun j n hn => ?_⟩
    (fun _ _ _ _ => ⟨rfl, rfl, rfl⟩) (fun _ _ _ _ => ⟨rfl, rfl⟩) rfl
    (fun q hq n t dp hf j hj => Or.inl ?_)
    (fun j hj => absurd (hheld j) (h.sole_held p j hj).1)
    (fun f i ht hi => Or.inl ⟨ht, hi⟩) (fun j hc => ?_) (by simp)
  · unfold Ghost.slotRefs
    rw [setProc_self]
    simp only [hr, Pi.add_apply, Pi.single_apply, hmoved, Option.some.injEq, and_true,
      Bool.true_eq_false, and_false, if_false]
    show s.opens j + _ = s.opens j + _
    by_cases hji : j = i
    · subst hji; simp only [if_true]; omega
    · rw [if_neg hji, if_neg (Ne.symm hji)]; omega
  · rw [setProc_self]; rfl
  · rw [setProc_self]; exact hk.used
  · rw [setProc_self]; exact hk.newfile
  · exact (hn.absurd hheld rfl horder).elim
  · rw [hr]
    exact Nat.lt_of_lt_of_le hj (Nat.le_add_right _ _)
  · rw [setProc_self] at hc
    obtain rfl : i = j := Option.some.inj hc
    refine Or.inr (Or.inr ⟨fun q hq hs => ?_, hheld i⟩)
    exact h.sole_pin q i hs p hq.symm t hpin

/-! ### The file table -/

variable {fs : FileSlot} {ofile : Fin NOFILE → Option FileSlot} {l : Act}

/-- A process that refers to file `fs`, if it is not the only one. -/
theorem Coh.two_le_ref (h : Coh sb s G) (hqp : q ≠ p)
    (hq : 0 < (G q).fileRefs (s.proc q).ofile fs) (hp : 0 < (G p).fileRefs (s.proc p).ofile fs) :
    2 ≤ (s.ftable fs).ref := by
  have := Accounts.add_le_sum (f := fun q => (G q).fileRefs (s.proc q).ofile fs) hqp
  rw [h.fref fs]
  omega

theorem Coh.fileRef_pos (h : Coh sb s G) (hq : 0 < (G q).fileRefs (s.proc q).ofile fs) :
    0 < (s.ftable fs).ref := by
  have := Accounts.le_sum (f := fun q => (G q).fileRefs (s.proc q).ofile fs) q
  rw [h.fref fs]
  omega

theorem Ghost.fileRefs_pos_of_frefs (h : 0 < g.frefs fs) : 0 < g.fileRefs ofile fs := by
  unfold Ghost.fileRefs
  omega

theorem Ghost.fileRefs_pos_of_fd (g : Ghost) (h : ofile fd = some fs) :
    0 < g.fileRefs ofile fs := by
  have hle := Accounts.le_sum (f := fun fd => if ofile fd = some fs then 1 else 0) fd
  simp only [h, if_true] at hle
  unfold Ghost.fileRefs
  omega

/-- A process that works on a file, or initialises it, refers to it. -/
theorem Knows.fileRefs_of_use (hk : Knows sb s q g) {u : Using} (hu : g.use = some u) :
    0 < g.fileRefs (s.proc q).ofile u.file :=
  g.fileRefs_pos_of_fd (hk.used u hu).1

theorem Knows.fileRefs_of_fnew (hk : Knows sb s q g) (hf : g.fnew = some fs) :
    0 < g.fileRefs (s.proc q).ofile fs := by
  obtain ⟨_, _, hr | ⟨fd, hfd⟩⟩ := hk.newfile fs hf
  · exact Ghost.fileRefs_pos_of_frefs hr
  · exact g.fileRefs_pos_of_fd hfd

theorem Ghost.fileRefs_eq {g₁ : Ghost} {fr : FileSlot → Nat} (hg : g₁.frefs = fr)
    (ofile : Fin NOFILE → Option FileSlot) (f : FileSlot) :
    g₁.fileRefs ofile f = fr f + ∑ fd, if ofile fd = some f then 1 else 0 := by
  unfold Ghost.fileRefs
  rw [hg]

/-- Descriptors after one of them has changed. -/
theorem sum_ofile (ofile : Fin NOFILE → Option FileSlot) (fd : Fin NOFILE) (v : Option FileSlot)
    (f : FileSlot) :
    (∑ fd', if update ofile fd v fd' = some f then 1 else 0) +
        (if ofile fd = some f then 1 else 0) =
      (∑ fd', if ofile fd' = some f then 1 else 0) + if v = some f then 1 else 0 := by
  have hsum := Accounts.sum_change (f := fun fd' => if ofile fd' = some f then 1 else 0)
    (h := fun fd' => if update ofile fd v fd' = some f then 1 else 0) fd
    fun fd' hne => by rw [update_of_ne hne]
  simpa using hsum

/-- References from open files after one file has changed. -/
theorem opens_setFile (s : FsState) (fs : FileSlot) (ff : File → File) (j : Slot) :
    (s.setFile fs ff).opens j +
        (if (s.ftable fs).type = .FD_INODE ∧ (s.ftable fs).ip = j then 1 else 0) =
      s.opens j +
        if (ff (s.ftable fs)).type = .FD_INODE ∧ (ff (s.ftable fs)).ip = j then 1 else 0 := by
  have hsum := Accounts.sum_change
    (f := fun f => if (s.ftable f).type = .FD_INODE ∧ (s.ftable f).ip = j then 1 else 0)
    (h := fun f => if ((s.setFile fs ff).ftable f).type = .FD_INODE ∧
      ((s.setFile fs ff).ftable f).ip = j then 1 else 0) fs
    fun f hne => by rw [setFile_ne _ _ _ hne]
  rw [setFile_self] at hsum
  exact hsum

/-- A step on file `fs`, when the other processes neither work on it nor
    initialise it. -/
theorem StepOk.setFile (h : Coh sb s G) {ff : File → File} {fr : FileSlot → Nat}
    (hiref : ∀ j, (if (s.ftable fs).type = .FD_INODE ∧ (s.ftable fs).ip = j then 1 else 0) +
        (G p).refs j =
      (if (ff (s.ftable fs)).type = .FD_INODE ∧ (ff (s.ftable fs)).ip = j then 1 else 0) +
        g'.refs j)
    (hdrop : g'.drop = (G p).drop) (hmoved : g'.moved = (G p).moved)
    (hfr : g'.frefs = fr)
    (hfref : (ff (s.ftable fs)).ref + ((G p).frefs fs : Int) = (s.ftable fs).ref + (fr fs : Int))
    (hfr_others : ∀ f, f ≠ fs → fr f = (G p).frefs f) (hheld : g'.held = (G p).held)
    (hfree : (ff (s.ftable fs)).ref = 0 → (ff (s.ftable fs)).type = .FD_NONE)
    (hinode : (ff (s.ftable fs)).type = .FD_INODE →
      (s.icache (ff (s.ftable fs)).ip).valid = true ∧ ((ff (s.ftable fs)).writable = true →
        (dinode sb s.disk (s.icache (ff (s.ftable fs)).ip).inum).type ≠ T_DIR))
    (hself : Knows sb (s.setFile fs ff) p g')
    (huse : ∀ q, q ≠ p → ∀ u, (G q).use = some u → u.file = fs →
      (ff (s.ftable fs)).type = (s.ftable fs).type ∧ (ff (s.ftable fs)).ip = (s.ftable fs).ip ∧
      (ff (s.ftable fs)).writable = (s.ftable fs).writable)
    (hnew : ∀ q, q ≠ p → (G q).fnew ≠ some fs) (hfresh : g'.fresh = (G p).fresh)
    (hrefs : ∀ j, 0 < g'.refs j → 0 < (G p).refs j ∨
      (s.ftable fs).type = .FD_INODE ∧ (s.ftable fs).ip = j)
    (hsole : ∀ i, g'.sole = some i → (G p).sole = some i ∧ 0 < g'.refs i)
    (hopen : (ff (s.ftable fs)).type = .FD_INODE →
      (s.ftable fs).type = .FD_INODE ∧ (s.ftable fs).ip = (ff (s.ftable fs)).ip ∨
      (∀ q, q ≠ p → (G q).sole ≠ some (ff (s.ftable fs)).ip) ∧
        (G p).held (ff (s.ftable fs)).ip = none)
    (hpin : ∀ x, g'.pin = some x → (G p).pin = some x) :
    StepOk sb s G p (s.setFile fs ff) g' := by
  refine StepOk.table h rfl rfl (fun j => ?_) (fun f => ?_) (fun _ _ => rfl) hheld (fun f => ?_)
    (fun f => ?_) hself (fun q hq u hu => ?_) (fun q hq f hf => ?_) hfresh
    (fun q hq n t dp hf j hj => ?_)
    (fun i hi => ⟨(hsole i hi).2, Or.inl (hsole i hi).1⟩)
    (fun f i ht hi => ?_) (fun i hc => Coh.cwd_same G p hmoved i hc) hpin
  · have hsum := opens_setFile s fs ff j
    have hj := hiref j
    unfold Ghost.slotRefs
    rw [hdrop, hmoved, show (s.setFile fs ff).proc = s.proc from rfl]
    omega
  · rw [Ghost.fileRefs_eq hfr, Ghost.fileRefs_eq (rfl : (G p).frefs = _)]
    show ((s.setFile fs ff).ftable f).ref + ((_ : Nat) : Int) =
      (s.ftable f).ref + ((fr f + ∑ fd, if (s.proc p).ofile fd = some f then 1 else 0 : Nat) : Int)
    by_cases hf : f = fs
    · subst hf
      rw [setFile_self]
      push_cast
      omega
    · rw [setFile_ne _ _ _ hf, hfr_others f hf]
  · by_cases hf : f = fs
    · subst hf; rw [setFile_self]; exact hfree
    · rw [setFile_ne _ _ _ hf]; exact h.file_free f
  · by_cases hf : f = fs
    · subst hf; rw [setFile_self]; exact hinode
    · rw [setFile_ne _ _ _ hf]; exact h.file_inode f
  · by_cases hf : u.file = fs
    · rw [hf, setFile_self]; exact huse q hq u hu hf
    · rw [setFile_ne _ _ _ hf]; exact ⟨rfl, rfl, rfl⟩
  · by_cases hfs : f = fs
    · subst hfs; exact absurd hf (hnew q hq)
    · rw [setFile_ne _ _ _ hfs]; exact ⟨rfl, rfl⟩
  · rcases hrefs j hj with hold | ⟨ht, hi⟩
    · exact Or.inl hold
    · -- the inode of an open file is loaded, a fresh one is not
      right
      intro heq
      have hv := (h.file_inode fs ht).1
      rw [hi, ((h.knows q).isfresh n t dp hf).2.2.2 j (h.ref_pos_of_open ht hi) heq] at hv
      exact absurd hv (by simp)
  · by_cases hf : f = fs
    · subst hf
      rw [setFile_self] at ht hi
      subst hi
      exact hopen ht
    · rw [setFile_ne _ _ _ hf] at ht hi
      exact Or.inl ⟨ht, hi⟩

theorem StepOk.filealloc (h : Coh sb s G) (hfree : (s.ftable fs).ref = 0) :
    StepOk sb s G p (s.setFile fs fun file => { file with ref := 1 })
      { G p with frefs := (G p).frefs + Pi.single fs 1, fnew := some fs } := by
  have hnone := h.file_free fs hfree
  have hk := h.knows p
  have hno : (s.ftable fs).type ≠ .FD_INODE := by rw [hnone]; simp
  refine StepOk.setFile h (fun j => ?_) rfl rfl rfl ?_ (fun f hf => by simp [hf]) rfl (by simp)
    (fun ht => absurd ht hno) ?_ (fun _ _ _ _ _ => ⟨rfl, rfl, rfl⟩) (fun q hq hf => ?_) rfl
    (fun _ hj => Or.inl hj) (fun i hi => ⟨hi, (h.sole_held p i hi).2⟩) (fun ht => absurd ht hno)
    fun _ => id
  · rfl
  · rw [hfree]
    simp only [Pi.add_apply, Pi.single_eq_same]
    push_cast
    omega
  · refine ⟨hk.held_ref, hk.snap, hk.pinned, fun u hu => ?_, fun f hf => ?_, hk.isfresh,
      hk.below, hk.number⟩
    · have hne : u.file ≠ fs := by
        rintro rfl
        have := h.fileRef_pos (hk.fileRefs_of_use hu)
        omega
      rw [setFile_ne _ _ _ hne]
      exact hk.used u hu
    · obtain rfl : fs = f := Option.some.inj hf
      rw [setFile_self]
      refine ⟨hnone, rfl, Or.inl ?_⟩
      simp
  · have := ((h.knows q).newfile fs hf).2.1
    omega

theorem StepOk.fileinit (h : Coh sb s G) {file : File} (hnew : (G p).fnew = some fs)
    (hpin : (G p).pin = some (i, t)) (hr : (G p).refs = r + Pi.single i 1) (huse : (G p).use = none)
    (hheld : ∀ j, (G p).held j = none) (horder : (G p).order = none) (htype : file.type = .FD_INODE)
    (hip : file.ip = i) (href : file.ref = (s.ftable fs).ref)
    (hw : file.writable = true → t.2 ≠ T_DIR) :
    StepOk sb s G p (s.setFile fs fun _ => file)
      { G p with refs := r, pin := none, fnew := none } := by
  have hk := h.knows p
  obtain ⟨hnone, hone, _⟩ := hk.newfile fs hnew
  obtain ⟨_, hv, hd⟩ := hk.pinned i t hpin
  have hmine := hk.fileRefs_of_fnew hnew
  refine StepOk.setFile h (fun j => ?_) rfl rfl rfl (by rw [href]) (fun _ _ => rfl) rfl ?_
    (fun _ => by rw [hip, hd]; exact ⟨hv, hw⟩) ?_ (fun q hq u hu hfs => ?_) (fun q hq hf => ?_) rfl
    (fun j hj => Or.inl ?_) (fun j hj => absurd (hheld j) (h.sole_held p j hj).1)
    (fun _ => Or.inr ⟨fun q hq hs => ?_, hheld _⟩) (by simp)
  · simp only [hnone, htype, hip, hr, Pi.add_apply, Pi.single_apply, reduceCtorEq, false_and,
      if_false, true_and]
    by_cases hji : j = i
    · subst hji; simp only [if_true]; omega
    · rw [if_neg hji, if_neg (Ne.symm hji)]; omega
  · intro h0
    rw [href, hone] at h0
    exact absurd h0 (by simp)
  · refine ⟨fun j hj => absurd (hheld j) hj, fun j _ _ hx => absurd (hheld j) (by rw [hx]; simp),
      by simp, fun u hu => ?_, by simp, hk.isfresh,
      fun _ _ _ ho => absurd (horder.symm.trans ho) (by simp),
      fun j n hn => (hn.absurd hheld rfl horder).elim⟩
    rw [show ({ G p with refs := r, pin := none, fnew := none } : Ghost).use = none from huse] at hu
    exact absurd hu (by simp)
  · have := h.two_le_ref hq (hfs ▸ (h.knows q).fileRefs_of_use hu) hmine
    omega
  · have := h.two_le_ref hq ((h.knows q).fileRefs_of_fnew hf) hmine
    omega
  · rw [hr]
    exact Nat.lt_of_lt_of_le hj (Nat.le_add_right _ _)
  · rw [hip] at hs
    exact h.sole_pin q i hs p hq.symm t hpin

theorem StepOk.closeDec (h : Coh sb s G) {fr : FileSlot → Nat}
    (hfr : (G p).frefs = fr + Pi.single fs 1) (hmore : 1 < (s.ftable fs).ref)
    (hnew : (G p).fnew = none) :
    StepOk sb s G p (s.setFile fs fun file => { file with ref := file.ref - 1 })
      { G p with frefs := fr } := by
  have hk := h.knows p
  refine StepOk.setFile h (fun _ => rfl) rfl rfl rfl ?_ (fun f hf => by rw [hfr]; simp [hf]) rfl
    (fun h0 => ?_) (h.file_inode fs) ?_ (fun _ _ _ _ _ => ⟨rfl, rfl, rfl⟩) (fun q hq hf => ?_) rfl
    (fun _ hj => Or.inl hj) (fun i hi => ⟨hi, (h.sole_held p i hi).2⟩)
    (fun ht => Or.inl ⟨ht, rfl⟩) fun _ => id
  · rw [hfr]
    simp only [Pi.add_apply, Pi.single_eq_same]
    push_cast
    omega
  · simp only at h0
    omega
  · refine ⟨hk.held_ref, hk.snap, hk.pinned, fun u hu => ?_, fun f hf => ?_, hk.isfresh,
      hk.below, hk.number⟩
    · by_cases hfs : u.file = fs
      · rw [hfs, setFile_self, ← hfs]; exact hk.used u hu
      · rw [setFile_ne _ _ _ hfs]; exact hk.used u hu
    · rw [show ({ G p with frefs := fr } : Ghost).fnew = none from hnew] at hf
      exact absurd hf (by simp)
  · have := ((h.knows q).newfile fs hf).2.1
    omega

theorem StepOk.closeLast (h : Coh sb s G) {fr : FileSlot → Nat} {refs : Slot → Nat}
    (hfr : (G p).frefs = fr + Pi.single fs 1) (hlast : (s.ftable fs).ref = 1)
    (huse : (G p).use = none)
    (hrefs : (s.ftable fs).type = .FD_INODE ∧ refs = (G p).refs + Pi.single (s.ftable fs).ip 1 ∨
      (s.ftable fs).type ≠ .FD_INODE ∧ refs = (G p).refs) :
    StepOk sb s G p (s.setFile fs fun file => { file with ref := 0, type := .FD_NONE })
      { G p with frefs := fr, refs := refs, dead := dead, fnew := none } := by
  have hk := h.knows p
  have hmine : 0 < (G p).fileRefs (s.proc p).ofile fs := by
    refine Ghost.fileRefs_pos_of_frefs ?_
    rw [hfr]
    simp
  have hle : ∀ j, (G p).refs j ≤ refs j := by
    intro j
    rcases hrefs with ⟨_, rfl⟩ | ⟨_, rfl⟩
    · exact Nat.le_add_right _ _
    · exact le_rfl
  refine StepOk.setFile h (fun j => ?_) rfl rfl rfl ?_ (fun f hf => by rw [hfr]; simp [hf]) rfl
    (fun _ => rfl) (fun ht => absurd ht (by simp)) ?_ (fun q hq u hu hfs => ?_) (fun q hq hf => ?_) rfl
    (fun j hj => ?_) (fun j hj => ⟨hj, Nat.lt_of_lt_of_le (h.sole_held p j hj).2 (hle j)⟩)
    (fun ht => absurd ht (by simp)) fun _ => id
  · simp only [reduceCtorEq, false_and, if_false]
    rcases hrefs with ⟨ht, rfl⟩ | ⟨ht, rfl⟩
    · simp only [ht, true_and, Pi.add_apply, Pi.single_apply, eq_comm (a := j)]
      omega
    · simp [ht]
  · rw [hfr, hlast]
    simp only [Pi.add_apply, Pi.single_eq_same]
    push_cast
    omega
  · refine ⟨fun j hj => ?_, hk.snap, fun j t ht => ?_, fun u hu => ?_, by simp, hk.isfresh,
      fun dp j n ho => ?_, hk.number⟩
    · exact (hk.held_ref j hj).imp_left fun hr => Nat.lt_of_lt_of_le hr (hle j)
    · obtain ⟨h1, h2, h3⟩ := hk.pinned j t ht
      exact ⟨Nat.lt_of_lt_of_le h1 (hle j), h2, h3⟩
    · rw [show ({ G p with frefs := fr, refs := refs, dead := dead, fnew := none } : Ghost).use = none
        from huse] at hu
      exact absurd hu (by simp)
    · obtain ⟨h1, h2⟩ := hk.below dp j n ho
      exact ⟨Nat.lt_of_lt_of_le h1 (hle dp), Nat.lt_of_lt_of_le h2 (hle j)⟩
  · have := h.two_le_ref hq (hfs ▸ (h.knows q).fileRefs_of_use hu) hmine
    omega
  · have := h.two_le_ref hq ((h.knows q).fileRefs_of_fnew hf) hmine
    omega
  · rcases hrefs with ⟨ht, rfl⟩ | ⟨_, rfl⟩
    · by_cases hji : j = (s.ftable fs).ip
      · exact Or.inr ⟨ht, hji.symm⟩
      · exact Or.inl (by simpa [hji] using hj)
    · exact Or.inl hj

/-- A descriptor of `p` changes, and with it a reference in a local variable. -/
theorem StepOk.setFd (h : Coh sb s G) {v : Option FileSlot} {fr : FileSlot → Nat}
    (hfr : ∀ f, fr f + (if v = some f then 1 else 0) =
      (G p).frefs f + if (s.proc p).ofile fd = some f then 1 else 0)
    (hheld : ∀ j, (G p).held j ≠ none → 0 < (G p).refs j ∨ (G p).drop = some j)
    (hnew : ∀ f, (G p).fnew = some f → v = some f) :
    StepOk sb s G p (s.setProc p fun pr => { pr with ofile := update pr.ofile fd v })
      { G p with frefs := fr, use := none } := by
  have hk := h.knows p
  refine StepOk.table h rfl rfl (fun j => ?_) (fun f => ?_) (fun q hq => setProc_ne _ _ _ hq) rfl
    h.file_free h.file_inode ⟨fun j hj => (hheld j hj).imp_right Or.inl, hk.snap, hk.pinned, by simp,
      fun f hf => ?_, hk.isfresh, hk.below, hk.number⟩
    (fun _ _ _ _ => ⟨rfl, rfl, rfl⟩) (fun _ _ _ _ => ⟨rfl, rfl⟩) rfl
    (fun _ _ _ _ _ _ _ hj => Or.inl hj) (fun i hi => ⟨(h.sole_held p i hi).2, Or.inl hi⟩)
    (fun f i ht hi => Or.inl ⟨ht, hi⟩) (fun j hc => ?_) fun _ => id
  · rw [setProc_self]; rfl
  · rw [setProc_self, Ghost.fileRefs_eq (rfl : (G p).frefs = _)]
    have hsum := sum_ofile (s.proc p).ofile fd v f
    have := hfr f
    show (s.ftable f).ref + ((_ : Nat) : Int) = (s.ftable f).ref +
      ((fr f + ∑ fd', if update (s.proc p).ofile fd v fd' = some f then 1 else 0 : Nat) : Int)
    omega
  · obtain ⟨h1, h2, _⟩ := hk.newfile f hf
    refine ⟨h1, h2, Or.inr ⟨fd, ?_⟩⟩
    rw [setProc_self]
    show update (s.proc p).ofile fd v fd = some f
    rw [update_self]
    exact hnew f hf
  · rw [setProc_self] at hc
    exact Coh.cwd_same G p rfl j hc

/-! ## All steps -/

/-- Writing does not change the type. -/
theorem Rewrites.type_eq {disk : Disk} {d d₀ : Dinode} (hw : Rewrites sb s i c disk d)
    (hd₀ : (s.icache i).toDinode = d₀) : d.type = d₀.type := by
  obtain ⟨addrs, size, rfl⟩ := hw.fields
  rw [← hd₀]

theorem Relink.type_eq {x : Snap} {d : Dinode} {δ : Nat → Nat} (h : Relink g i x l d δ dead) :
    d.type = x.d.type := by
  cases h <;> rfl

/-- Every step establishes what coherence needs. -/
theorem Trans.stepOk (ht : Trans sb p G s l s' g') (h : Coh sb s G) : StepOk sb s G p s' g' := by
  cases ht with
  | quiet hdisk hicache hproc hfile huse => exact .quiet h hdisk hicache hproc hfile huse
  | root hfresh hget => exact .got h h.root_lt hfresh hget (Or.inl rfl)
  | found hheld hdir hfound hfresh _ _ hget horder =>
    obtain ⟨hs, hd, hc⟩ := h.synced_of_held hheld
    have hn := h.vol.names _ hs.mem (by rw [← hs.copy, hd]; exact hdir)
    have hlt := hn _ (by rw [show data sb s.disk _ = _ from hc]; exact hfound.has)
    rw [show data sb s.disk _ = _ from hc, hfound.inum] at hlt
    exact .got h hlt hfresh hget (horder.imp_right fun ho => ⟨_, ho.1, ho.2.1⟩)
  | getFresh hfresh hdp hget =>
    refine .got h ((h.knows p).isfresh _ _ _ hfresh).1 (fun q hq t' dp' hf => ?_) hget
      (Or.inr ⟨_, rfl, hdp⟩)
    exact h.fresh_ne p _ _ _ hfresh q hq t' dp' hf
  | dupCwd hcwd hmoved hfresh =>
    have hr := h.ref_pos_of_cwd hcwd hmoved
    exact .got h (h.cache.inum_lt _ hr) hfresh (.hit hr rfl) (Or.inl rfl)
  | ilock hfree href hfresh hn hd hc ht hpin =>
    refine .lockAt h href hfree rfl rfl rfl rfl (fun _ => rfl) (fun _ => ⟨hd.symm, ht⟩) ?_ ?_
      (Or.inl rfl) (Or.inl hfresh)
    · rintro y ⟨rfl⟩
      exact ⟨rfl, hd, hc, hn⟩
    · exact hpin.imp_right fun hp => Or.inr ⟨_, hp.1, rfl, hp.2⟩
  | ilockFresh hfree href hfresh hinum =>
    obtain ⟨_, hne, hblank, _⟩ := (h.knows p).isfresh _ _ _ hfresh
    rw [← hinum] at hblank
    refine .lockAt h (Or.inl href) hfree rfl rfl rfl rfl (fun _ => rfl)
      (fun _ => ⟨hblank.symm, hne⟩) ?_ (Or.inr (Or.inr ⟨_, rfl, rfl, href⟩)) (Or.inl rfl)
      (Or.inl rfl)
    rintro y ⟨rfl⟩
    refine ⟨rfl, hblank, ?_, hinum⟩
    unfold FsState.bytes data
    rw [hblank]
    rfl
  | iunlock hheld huse hwindow hsole =>
    exact .unlock h hheld (Or.inl ⟨rfl, rfl⟩) huse (Or.inl hsole)
  | putLock hfree href hpin =>
    have hr := h.ref_pos href
    refine .lockAt h (Or.inl href) hfree rfl rfl rfl rfl id (h.cache.sync _ hr) (fun y hy => ?_)
      (hpin.imp_right Or.inl) (Or.inr rfl) (Or.inr ⟨rfl, id⟩)
    unfold FsState.snap? at hy
    split at hy
    · next hv =>
      obtain rfl := Option.some.inj hy
      exact ⟨hv, rfl, rfl, rfl⟩
    · exact absurd hy (by simp)
  | alone hheld href hone _ => exact .alone h (by simp [hheld]) href hone
  | free hsole hheld hnlink hr hr0 hdrop hpin horder htouch hfreed =>
    exact .free h hsole hheld hr hdrop hpin horder htouch
  | release dead hheld hr hpin horder hfresh hdead =>
    refine .unlock h hheld ?_ (Or.inl rfl) (Or.inl rfl)
    rcases hr with ⟨hr, hdrop⟩ | ⟨hr, hdrop⟩
    · exact Or.inr ⟨hr, hdrop, rfl, horder, hpin⟩
    · exact Or.inl ⟨hr.symm, hdrop.symm⟩
  | dropped hdrop hfree => exact .dropped h hdrop hfree
  | write hheld hfile _ hw =>
    exact .file h hheld hw.touches hw.dinode hw.data (hw.type_eq (h.synced_of_held hheld).2.1)
  | link hheld hdir habsent hempty hn _ hfor hw =>
    exact .file h hheld hw.touches hw.dinode hw.data (hw.type_eq (h.synced_of_held hheld).2.1)
  | erase hheld hdir hchild hne hname hfound hi _ hempty hw =>
    exact .file h hheld hw.touches hw.dinode hw.data (hw.type_eq (h.synced_of_held hheld).2.1)
  | relink hheld hδ _ htouch hd hc _ => exact .file h hheld htouch hd hc hδ.type_eq
  | ialloc hpos hn hfree ht hfresh _ hheld hdir hunused => exact .ialloc h hn hfree ht hunused
  | filealloc hfree => exact .filealloc h hfree
  | fdalloc hnew hfd hfr huse =>
    refine .setFd h (fun f => ?_) (fun j hj => ?_) (fun f hf => by rw [← hnew, hf])
    · rw [hfd, hfr]
      simp [Pi.single_apply, eq_comm]
    · exact (h.knows p).held_without_use huse hj
  | fileinit hnew hpin hr huse hheld horder hfresh htype hip href hw =>
    exact .fileinit h hnew hpin hr huse hheld horder htype hip href hw
  | closeFd huse hheld hnew =>
    refine .setFd h (fun f => ?_) (fun j hj => absurd (hheld j) hj)
      (fun f hf => by rw [hnew] at hf; exact absurd hf (by simp))
    rw [((h.knows p).used _ huse).1]
    simp [Pi.single_apply, eq_comm]
  | closeDec hfr hmore hnew => exact .closeDec h hfr hmore hnew
  | closeLast hfr hlast huse hrefs =>
    exact .closeLast h hfr hlast huse
      (hrefs.imp (fun hi => ⟨hi.1, hi.2.1⟩) fun hn => ⟨hn.1, hn.2.1⟩)
  | useFile hfd huse => exact .useFile h hfd huse
  | takeCwd hcwd hmoved hfresh => exact .takeCwd h hcwd hmoved hfresh
  | setCwd hpin hdir hr hmoved hheld horder hfresh => exact .setCwd h hpin hr hmoved hheld horder

/-- Every step keeps the ghost states coherent. -/
theorem Trans.coh (ht : Trans sb p G s l s' g') (h : Coh sb s G) :
    Coh sb s' (update G p g') :=
  h.step (ht.stepOk h)

end Xv6.Fs
