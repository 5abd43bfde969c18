import Xv6.Fs.DirOps

/-! # Functions that run alone

    When no other process moves, the functions on references and locks
    (`iget`, `ilock`, `iunlock`, `iput`) change reference counts and locks and
    nothing else. `Beside sb s e l s'` says so: `s'` is `s` with `e i` more
    references to entry `i` of the inode cache and with the locks `l`. Each of
    the functions, and `dirlookup`, has one rule in these terms.
-/

namespace Xv6.Fs

open Op Function

variable {sb : Superblock} {p : Pid} {s : FsState} {E : String → Prop} {Q : Unit → FsState → Prop}
  {site : Site} {n : Nat} {α β : Type}

/-- The rule for sequences of programs. -/
theorem wp_run_bind (x : FsProg α) (g : α → FsProg β) {Q : β → FsState → Prop} :
    wp (x >>= g).run E Q s ↔ wp x.run E (fun a s' => wp (g a).run E Q s') s := by
  rw [← wp_bind]
  unfold wp
  rw [Prog.run_bind]

theorem wlp_run_bind (x : FsProg α) (g : α → FsProg β) {Q : β → FsState → Prop} :
    wlp (x >>= g).run E Q s ↔ wlp x.run E (fun a s' => wlp (g a).run E Q s') s := by
  rw [← wlp_bind]
  unfold wlp
  rw [Prog.run_bind]

theorem wp_run_step {α : Type} (m : Op FsState α) {Q : α → FsState → Prop} :
    wp (step m).run E Q s ↔ wp m E Q s := by
  unfold step
  rw [Prog.run_atomic]

/-- `ilock` on an inode that nobody has locked. -/
theorem wp_ilock {ip : Slot} {d : Dinode} (href : 1 ≤ (s.icache ip).ref)
    (hfree : (s.icache ip).lock = none) (hd : (if (s.icache ip).valid then (s.icache ip).toDinode
      else dinode sb s.disk (s.icache ip).inum) = d)
    (htype : (s.icache ip).valid = false → d.type = 0 → E "ilock: no type")
    (hQ : ((s.icache ip).valid = false → d.type ≠ 0) → Q () (s.setInode ip fun ino =>
      { ino with toDinode := d, valid := true, lock := some p })) :
    wp (ilock sb p ip site).run E Q s := by
  unfold ilock
  rw [Prog.run_atomic]
  simp only [wp_bind, wp_get]
  rw [if_neg (by omega)]
  unfold acquiresleep ilock_load
  simp only [wp_bind, wp_get, hfree, wp_modify, setInode_self, setInode_disk]
  by_cases hv : (s.icache ip).valid = true
  · rw [if_pos hv] at hd ⊢
    rw [wp_pure]
    convert hQ (by simp [hv]) using 1
    unfold FsState.setInode
    congr 2
    subst hd
    generalize s.icache ip = ino at hv
    cases ino
    cases hv
    rfl
  · rw [if_neg hv] at hd ⊢
    simp only [wp_bind, wp_modify, hd]
    by_cases h0 : d.type = 0
    · rw [if_pos h0]
      exact htype (by simpa using hv) h0
    rw [if_neg h0, wp_pure]
    convert hQ (fun _ => h0) using 1
    unfold FsState.setInode
    simp [update_idem]

/-- `iget` returned entry `i` for inode `n`. -/
inductive Got (s : FsState) (n : Nat) (i : Slot) : FsState → Prop where
  | hit (href : 0 < (s.icache i).ref) (hinum : (s.icache i).inum = n) :
      Got s n i (s.setInode i fun ino => { ino with ref := ino.ref + 1 })
  | miss (hnone : ∀ j, 0 < (s.icache j).ref → (s.icache j).inum ≠ n) (hfree : (s.icache i).ref = 0) :
      Got s n i (s.setInode i fun ino =>
        { ino with dev := ROOTDEV, inum := n, ref := 1, valid := false })

/-- An entry in use keeps its inode. -/
theorem Got.inum_kept {i j : Slot} {s' : FsState} (h : Got s n i s') (hj : 0 < (s.icache j).ref) :
    (s'.icache j).inum = (s.icache j).inum := by
  by_cases hji : j = i
  · subst hji
    cases h with
    | hit _ _ => rw [setInode_self]
    | miss _ hfree => omega
  · cases h with
    | hit _ _ => rw [setInode_ne _ _ _ hji]
    | miss _ _ => rw [setInode_ne _ _ _ hji]

/-- Inode `n` is not in the cache, and there is no room for it. -/
def NoRoom (s : FsState) (n : Nat) : Prop :=
  (∀ j, 0 < (s.icache j).ref → (s.icache j).inum ≠ n) ∧ ∀ j, (s.icache j).ref ≠ 0

/-- `iget` finds the entry of the inode, or takes a free one. -/
theorem wp_iget {Q : Slot → FsState → Prop}
    (hdev : ∀ i, 0 < (s.icache i).ref → (s.icache i).dev = ROOTDEV)
    (hE : NoRoom s n → E "iget: no inodes") (hQ : ∀ i s', Got s n i s' → Q i s') :
    wp (iget ROOTDEV n) E Q s := by
  unfold iget
  simp only [wp_bind, wp_get]
  cases hfind : (List.finRange NINODE).find? fun ip => decide (0 < (s.icache ip).ref ∧
      (s.icache ip).dev = ROOTDEV ∧ (s.icache ip).inum = n) with
  | some i =>
    have hi := List.find?_some hfind
    simp only [decide_eq_true_eq] at hi
    simp only [wp_bind, wp_modify, wp_pure]
    exact hQ i _ (.hit hi.1 hi.2.2)
  | none =>
    have hnone : ∀ j, 0 < (s.icache j).ref → (s.icache j).inum ≠ n := by
      intro j hj heq
      have := List.find?_eq_none.mp hfind j (List.mem_finRange j)
      simp only [decide_eq_true_eq, not_and] at this
      exact this hj (hdev j hj) heq
    simp only
    cases hfree : (List.finRange NINODE).find? fun ip => decide ((s.icache ip).ref = 0) with
    | some i =>
      have hi := List.find?_some hfree
      simp only [decide_eq_true_eq] at hi
      simp only [wp_bind, wp_modify, wp_pure]
      exact hQ i _ (.miss hnone hi)
    | none =>
      refine hE ⟨hnone, fun j hj => ?_⟩
      have := List.find?_eq_none.mp hfree j (List.mem_finRange j)
      simp only [decide_eq_true_eq] at this
      exact this hj

theorem wp_iget_beside {dp : Slot} {Q : Slot → FsState → Prop}
    (hdev : ∀ i, 0 < (s.icache i).ref → (s.icache i).dev = ROOTDEV) (hdp : 0 < (s.icache dp).ref)
    (hE : NoRoom s n → E "iget: no inodes") (hQ : ∀ i s', Got s n i s' → Q i s') :
    wp (iget_beside dp n) E Q s := by
  unfold iget_beside
  simp only [wp_bind, wp_get, hdev dp hdp]
  exact wp_iget hdev hE hQ

/-! ## References and locks -/

/-- `s'` is `s` with `e i` more references to entry `i` and the locks `l`. -/
structure Beside (sb : Superblock) (s : FsState) (e : Slot → Nat) (l : Slot → Option Pid)
    (s' : FsState) : Prop where
  disk : s'.disk = s.disk
  outstanding : s'.outstanding = s.outstanding
  ftable : s'.ftable = s.ftable
  proc : s'.proc = s.proc
  ref : ∀ i, (s'.icache i).ref = (s.icache i).ref + e i
  kept : ∀ i, 0 < (s.icache i).ref → (s'.icache i).inum = (s.icache i).inum
  loaded : ∀ i, 0 < (s.icache i).ref → (s.icache i).valid = true → (s'.icache i).valid = true
  lock : ∀ i, (s'.icache i).lock = l i
  dev : ∀ i, 0 < (s'.icache i).ref → (s'.icache i).dev = ROOTDEV
  inj : ∀ i j, 0 < (s'.icache i).ref → 0 < (s'.icache j).ref →
    (s'.icache i).inum = (s'.icache j).inum → i = j
  sync : ∀ i, 0 < (s'.icache i).ref → (s'.icache i).valid = true →
    (s'.icache i).toDinode = dinode sb s.disk (s'.icache i).inum ∧ (s'.icache i).type ≠ 0

variable {e e' : Slot → Nat} {l l' : Slot → Option Pid} {s' : FsState} {i ip : Slot}

section

variable (h : Beside sb s e l s')
include h

/-- Entry `i` keeps its inode. -/
theorem Beside.set {f : Inode → Inode} (hinum : (f (s'.icache i)).inum = (s'.icache i).inum)
    (hdev : (f (s'.icache i)).dev = (s'.icache i).dev)
    (hvalid : (s'.icache i).valid = true → (f (s'.icache i)).valid = true)
    (hpos : 0 < (f (s'.icache i)).ref → 0 < (s'.icache i).ref)
    (hsync : 0 < (f (s'.icache i)).ref → (f (s'.icache i)).valid = true →
      (f (s'.icache i)).toDinode = dinode sb s.disk (s'.icache i).inum ∧ (f (s'.icache i)).type ≠ 0)
    (href : (f (s'.icache i)).ref = (s.icache i).ref + e' i) (he : ∀ j, j ≠ i → e' j = e j)
    (hlock : (f (s'.icache i)).lock = l' i) (hl : ∀ j, j ≠ i → l' j = l j) :
    Beside sb s e' l' (s'.setInode i f) := by
  have hwas : ∀ j, 0 < ((s'.setInode i f).icache j).ref → 0 < (s'.icache j).ref := by
    intro j hj
    by_cases hji : j = i
    · subst hji
      rw [setInode_self] at hj
      exact hpos hj
    · rwa [setInode_ne _ _ _ hji] at hj
  have hnum : ∀ j, ((s'.setInode i f).icache j).inum = (s'.icache j).inum := by
    intro j
    by_cases hji : j = i
    · subst hji
      rw [setInode_self, hinum]
    · rw [setInode_ne _ _ _ hji]
  refine ⟨h.disk, h.outstanding, h.ftable, h.proc, fun j => ?_, fun j hj => ?_, fun j hj hv => ?_,
    fun j => ?_, fun j hj => ?_, fun j k hj hk heq => ?_, fun j hj hv => ?_⟩
  · by_cases hji : j = i
    · subst hji
      rw [setInode_self, href]
    · rw [setInode_ne _ _ _ hji, he j hji, h.ref j]
  · rw [hnum, h.kept j hj]
  · have hold := h.loaded j hj hv
    by_cases hji : j = i
    · subst hji
      rw [setInode_self]
      exact hvalid hold
    · rw [setInode_ne _ _ _ hji, hold]
  · by_cases hji : j = i
    · subst hji
      rw [setInode_self, hlock]
    · rw [setInode_ne _ _ _ hji, hl j hji, h.lock j]
  · have hold := h.dev j (hwas j hj)
    by_cases hji : j = i
    · subst hji
      rw [setInode_self, hdev, hold]
    · rw [setInode_ne _ _ _ hji, hold]
  · rw [hnum, hnum] at heq
    exact h.inj j k (hwas j hj) (hwas k hk) heq
  · rw [hnum]
    by_cases hji : j = i
    · subst hji
      rw [setInode_self] at hj hv ⊢
      exact hsync hj hv
    · rw [setInode_ne _ _ _ hji] at hj hv ⊢
      exact h.sync j hj hv

/-- A free entry is taken for an inode that is not in the cache. -/
theorem Beside.take (hnone : ∀ j, 0 < (s'.icache j).ref → (s'.icache j).inum ≠ n)
    (hfree : (s'.icache i).ref = 0) :
    Beside sb s (e + Pi.single i 1) l (s'.setInode i fun ino =>
      { ino with dev := ROOTDEV, inum := n, ref := 1, valid := false }) := by
  have href := h.ref i
  have hother : ∀ j, j ≠ i → (e + Pi.single i 1 : Slot → Nat) j = e j := fun j hj => by simp [hj]
  refine ⟨h.disk, h.outstanding, h.ftable, h.proc, fun j => ?_, fun j hj => ?_, fun j hj hv => ?_,
    fun j => ?_, fun j hj => ?_, fun j k hj hk heq => ?_, fun j hj hv => ?_⟩
  · by_cases hji : j = i
    · subst hji
      rw [setInode_self]
      simp only [Pi.add_apply, Pi.single_eq_same, Nat.cast_add]
      omega
    · rw [setInode_ne _ _ _ hji, hother j hji, h.ref j]
  · have hji : j ≠ i := by
      rintro rfl
      omega
    rw [setInode_ne _ _ _ hji, h.kept j hj]
  · have hji : j ≠ i := by
      rintro rfl
      omega
    rw [setInode_ne _ _ _ hji, h.loaded j hj hv]
  · by_cases hji : j = i
    · subst hji
      rw [setInode_self]
      exact h.lock j
    · rw [setInode_ne _ _ _ hji, h.lock j]
  · by_cases hji : j = i
    · subst hji
      rw [setInode_self]
    · rw [setInode_ne _ _ _ hji] at hj ⊢
      exact h.dev j hj
  · by_cases hji : j = i
    · by_cases hki : k = i
      · rw [hji, hki]
      · subst hji
        rw [setInode_ne _ _ _ hki] at hk heq
        rw [setInode_self] at heq
        exact absurd heq.symm (hnone k hk)
    · rw [setInode_ne _ _ _ hji] at hj heq
      by_cases hki : k = i
      · subst hki
        rw [setInode_self] at heq
        exact absurd heq (hnone j hj)
      · rw [setInode_ne _ _ _ hki] at hk heq
        exact h.inj j k hj hk heq
  · by_cases hji : j = i
    · subst hji
      rw [setInode_self] at hv
      cases hv
    · rw [setInode_ne _ _ _ hji] at hj hv ⊢
      exact h.sync j hj hv

theorem Beside.got {s'' : FsState} (hgot : Got s' n i s'') :
    Beside sb s (e + Pi.single i 1) l s'' ∧ (s''.icache i).inum = n := by
  cases hgot with
  | hit href hinum =>
    refine ⟨h.set rfl rfl id (fun _ => href) (fun _ hv => h.sync i href hv) ?_ (fun j hj => by simp [hj])
      (h.lock i) fun _ _ => rfl, ?_⟩
    · simp only [Pi.add_apply, Pi.single_eq_same, h.ref i]
      push_cast
      omega
    · rw [setInode_self]
      exact hinum
  | miss hnone hfree =>
    refine ⟨h.take hnone hfree, ?_⟩
    rw [setInode_self]

/-- `ilock` on an entry that is not locked. -/
theorem Beside.wp_ilock (href : 0 < (s'.icache ip).ref) (hfree : l ip = none)
    (htype : (dinode sb s.disk (s'.icache ip).inum).type = 0 → E "ilock: no type")
    (hQ : ∀ s'', Beside sb s e (update l ip (some p)) s'' →
      (∀ j, (s''.icache j).inum = (s'.icache j).inum) → (s''.icache ip).valid = true →
      (s''.icache ip).toDinode = dinode sb s.disk (s'.icache ip).inum →
      (dinode sb s.disk (s'.icache ip).inum).type ≠ 0 → Q () s'') :
    wp (ilock sb p ip site).run E Q s' := by
  have hd : (if (s'.icache ip).valid then (s'.icache ip).toDinode
      else dinode sb s'.disk (s'.icache ip).inum) = dinode sb s.disk (s'.icache ip).inum := by
    rw [h.disk]
    split
    · next hv => exact (h.sync ip href hv).1
    · rfl
  refine Fs.wp_ilock (by omega) (by rw [h.lock, hfree]) hd (fun _ => htype) fun hnew => ?_
  have h0 : (dinode sb s.disk (s'.icache ip).inum).type ≠ 0 := by
    by_cases hv : (s'.icache ip).valid = true
    · obtain ⟨hcopy, h0⟩ := h.sync ip href hv
      rw [← hcopy]
      exact h0
    · exact hnew (by simpa using hv)
  refine hQ _ (h.set rfl rfl (fun _ => rfl) (fun _ => href) (fun _ _ => ⟨rfl, h0⟩) (h.ref ip) (fun _ _ => rfl)
    (by simp) fun j hj => by simp [hj]) (fun j => ?_) ?_ ?_ h0
  · by_cases hj : j = ip
    · subst hj
      rw [setInode_self]
    · rw [setInode_ne _ _ _ hj]
  · rw [setInode_self]
  · rw [setInode_self]

theorem Beside.wp_iunlock (href : 0 < (s'.icache ip).ref) (hheld : l ip = some p)
    (hQ : ∀ s'', Beside sb s e (update l ip none) s'' →
      (∀ j, (s''.icache j).inum = (s'.icache j).inum) → Q () s'') :
    wp (iunlock p ip).run E Q s' := by
  unfold iunlock
  rw [wp_run_step]
  simp only [wp_bind, wp_get]
  have hlock : (s'.icache ip).lock = some p := by rw [h.lock, hheld]
  have hok : ¬((s'.icache ip).lock ≠ some p ∨ (s'.icache ip).ref < 1) := by
    rintro (h | h)
    · exact h hlock
    · omega
  rw [if_neg hok]
  unfold releasesleep
  rw [wp_modify]
  refine hQ _ (h.set rfl rfl id id (h.sync ip) (h.ref ip) (fun _ _ => rfl) (by simp)
    fun j hj => by simp [hj]) fun j => ?_
  by_cases hj : j = ip
  · subst hj
    rw [setInode_self]
  · rw [setInode_ne _ _ _ hj]

end

/-- `iput` on an entry that is not locked, when it does not free the inode. -/
theorem Beside.wp_iput (h : Beside sb s (e + Pi.single ip 1) l s') (hfree : l ip = none)
    (hpos : 0 ≤ (s.icache ip).ref)
    (hlinks : (s'.icache ip).valid = true → (dinode sb s.disk (s'.icache ip).inum).nlink = 0 →
      (s'.icache ip).ref ≠ 1)
    (hQ : ∀ s'', Beside sb s e l s'' → (∀ j, (s''.icache j).inum = (s'.icache j).inum) → Q () s'') :
    wp (iput sb p ip site).run E Q s' := by
  have href := h.ref ip
  simp only [Pi.add_apply, Pi.single_eq_same] at href
  push_cast at href
  have hlock : (s'.icache ip).lock = none := by rw [h.lock, hfree]
  -- the lock is taken and given back, and one reference is dropped
  have hend : ∀ s₁ : FsState, s₁ = s'.setInode ip (fun ino => { ino with lock := some p }) →
      wp (do
        step (releasesleep ip)
        Prog.atomic (.drop ip) (Op.modify fun s => s.setInode ip fun ino =>
          { ino with ref := ino.ref - 1 }) : FsProg Unit).run E Q s₁ := by
    rintro s₁ rfl
    rw [wp_run_bind, wp_run_step]
    unfold releasesleep
    rw [wp_modify, Prog.run_atomic, wp_modify]
    have hset : ((s'.setInode ip fun ino => { ino with lock := some p }).setInode ip
        fun ino => { ino with lock := none }).setInode ip (fun ino => { ino with ref := ino.ref - 1 }) =
        s'.setInode ip fun ino => { ino with lock := none, ref := ino.ref - 1 } := by
      unfold FsState.setInode
      simp [update_idem]
    rw [hset]
    refine hQ _ (h.set rfl rfl id (fun _ => by omega) (fun _ hv => h.sync ip (by omega) hv) ?_
      (fun j hj => by simp [hj]) (by rw [hfree]) fun _ _ => rfl) fun j => ?_
    · show (s'.icache ip).ref - 1 = _
      omega
    · by_cases hj : j = ip
      · subst hj
        rw [setInode_self]
      · rw [setInode_ne _ _ _ hj]
  unfold iput
  rw [wp_run_bind, Prog.run_atomic]
  unfold acquiresleep
  simp only [wp_bind, wp_get, hlock, wp_modify, wp_pure]
  rw [wp_run_bind]
  unfold iput_locked
  simp only [setInode_self]
  by_cases hun : ((s'.icache ip).valid && decide ((s'.icache ip).nlink = 0)) = true
  · -- without links, but somebody else refers to it
    rw [if_pos hun, wp_run_bind, Prog.run_atomic]
    simp only [wp_bind, wp_get, wp_pure, setInode_self]
    simp only [Bool.and_eq_true, decide_eq_true_eq] at hun
    obtain ⟨hcopy, -⟩ := h.sync ip (by omega) hun.1
    rw [if_neg (hlinks hun.1 (by rw [← hcopy]; exact hun.2))]
    exact hend _ rfl
  · rw [if_neg hun]
    exact hend _ rfl

/-- `iput` waits for a lock that is held. -/
theorem Beside.iput_blocked (h : Beside sb s e l s') (hheld : l ip ≠ none) :
    (iput sb p ip site).run s' = .blocked := by
  obtain ⟨q, hq⟩ := Option.ne_none_iff_exists'.mp hheld
  have hlock : (s'.icache ip).lock = some q := by rw [h.lock, hq]
  refine wlp.blocks ?_
  unfold iput
  rw [wlp_run_bind, Prog.run_atomic]
  unfold acquiresleep
  simp only [wlp_bind, wlp_get, hlock, wlp_block]

theorem Beside.wp_iunlockput (h : Beside sb s (e + Pi.single ip 1) l s') (hheld : l ip = some p)
    (hpos : 0 ≤ (s.icache ip).ref)
    (hlinks : (dinode sb s.disk (s'.icache ip).inum).nlink = 0 → (s'.icache ip).ref ≠ 1)
    (hQ : ∀ s'', Beside sb s e (update l ip none) s'' →
      (∀ j, (s''.icache j).inum = (s'.icache j).inum) → Q () s'') :
    wp (iunlockput sb p ip site).run E Q s' := by
  have href := h.ref ip
  simp only [Pi.add_apply, Pi.single_eq_same] at href
  push_cast at href
  unfold iunlockput
  rw [wp_run_bind]
  refine h.wp_iunlock (by omega) hheld fun s₁ h₁ hinum => ?_
  have href₁ := h₁.ref ip
  rw [← h.ref ip] at href₁
  refine h₁.wp_iput (by simp) hpos (fun _ => by rw [hinum, href₁]; exact hlinks) fun s₂ h₂ hinum₂ => ?_
  exact hQ s₂ h₂ fun j => by rw [hinum₂, hinum]

/-- The fields of a locked inode. -/
theorem wp_inode {Q : Inode → FsState → Prop} (hQ : Q (s.icache ip) s) : wp (inode ip).run E Q s := by
  unfold inode
  rw [wp_run_step]
  simp only [wp_bind, wp_get, wp_pure]
  exact hQ

/-- `dirlookup` in a locked directory: the reference to what it finds is the
    only thing that changes. -/
theorem Beside.wp_dirlookup (h : Beside sb s e l s')
    (him : DiskImage sb s.disk) {dp : Slot} {name : Name}
    (href : 0 < (s'.icache dp).ref) (hs : Synced sb s' dp) (hdir : (s'.icache dp).type = T_DIR)
    (hread : (s'.bytes sb dp).length % DIRENT ≠ 0 → E "dirlookup read")
    (hroom : ∀ n off, search (s'.bytes sb dp) name = some (n, off) → NoRoom s' n → E "iget: no inodes")
    {Q : Option (Slot × Nat) → FsState → Prop}
    (hnone : search (s'.bytes sb dp) name = none → Q none s')
    (hsome : ∀ n off i s'', search (s'.bytes sb dp) name = some (n, off) → Got s' n i s'' →
      ¬NoRoom s' n → Beside sb s (e + Pi.single i 1) l s'' → (s''.icache i).inum = n →
      Q (some (i, off)) s'') :
    wp (dirlookup sb dp name).run E Q s' := by
  unfold dirlookup
  rw [Prog.run_atomic, wp_bind]
  refine wp_dirlookup_search hs (by rw [h.disk]; exact him) hread (absurd hdir) fun _ => ?_
  cases hfind : search (s'.bytes sb dp) name with
  | none => exact hnone hfind
  | some r =>
    obtain ⟨n, off⟩ := r
    dsimp only
    rw [wp_bind]
    refine wp_iget_beside h.dev href (hroom n off hfind) fun i s'' hgot => ?_
    have hok : ¬NoRoom s' n := by
      rintro ⟨hall, hused⟩
      cases hgot with
      | hit hpos hinum => exact hall i hpos hinum
      | miss _ hfree => exact hused i hfree
    obtain ⟨h', hinum⟩ := h.got hgot
    exact hsome n off i s'' hfind hgot hok h' hinum

end Xv6.Fs
