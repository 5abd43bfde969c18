import Xv6.Fs.Walk
import Xv6.Mkfs.Layout

/-! # Calls that fail

    A call on names that returns -1 has taken references and locks, and given
    them back. `sys_link` has also raised a link count, and taken that back.
    The rules here are about what a function leaves if it returns: it may also
    panic, or wait for a lock for ever.
-/

namespace Xv6.Fs

open Op Function

variable {sb : Superblock} {p : Pid} {s s' : FsState} {e : Slot → Nat} {l : Slot → Option Pid}
  {ip dp : Slot} {n : Nat} {Q : Unit → FsState → Prop} {site : Site} {α : Type} {names : List Name}

/-! ## Functions that return -/

/-- If `x` returns from `s`, then with `Q`. -/
def Leaves {α : Type} (x : FsProg α) (Q : α → FsState → Prop) (s : FsState) : Prop :=
  wlp x.run (fun _ => True) Q s

theorem Leaves.of_wp {x : FsProg α} {Q : α → FsState → Prop} (h : wp x.run (fun _ => True) Q s) :
    Leaves x Q s := h.wlp

theorem leaves_bind {α β : Type} {x : FsProg α} {g : α → FsProg β} {Q : β → FsState → Prop} :
    Leaves (x >>= g) Q s ↔ Leaves x (fun a s' => Leaves (g a) Q s') s := wlp_run_bind x g

theorem leaves_pure {a : α} {Q : α → FsState → Prop} (h : Q a s) : Leaves (pure a) Q s := h

theorem leaves_any (x : FsProg α) {Q : α → FsState → Prop} (h : ∀ a s', Q a s') : Leaves x Q s := by
  unfold Leaves wlp
  split
  · exact h _ _
  · trivial
  · trivial

/-- What `x` does is of no importance. -/
theorem leaves_seq {α β : Type} (x : FsProg α) {g : α → FsProg β} {Q : β → FsState → Prop}
    (h : ∀ a s', Leaves (g a) Q s') : Leaves (x >>= g) Q s := by
  rw [leaves_bind]
  exact leaves_any x h

/-! ## References and locks -/

theorem Beside.leaves_ilock (h : Beside sb s e l s') (href : 0 < (s'.icache ip).ref)
    (hQ : ∀ s'', l ip = none → Beside sb s e (update l ip (some p)) s'' →
      (∀ j, (s''.icache j).inum = (s'.icache j).inum) → (s''.icache ip).valid = true →
      (s''.icache ip).toDinode = dinode sb s.disk (s'.icache ip).inum →
      (dinode sb s.disk (s'.icache ip).inum).type ≠ 0 → Q () s'') :
    Leaves (ilock sb p ip site) Q s' := by
  by_cases hfree : l ip = none
  · exact .of_wp (h.wp_ilock href hfree (fun _ => trivial) fun s'' => hQ s'' hfree)
  · -- it waits for the lock
    obtain ⟨q, hq⟩ := Option.ne_none_iff_exists'.mp hfree
    have hlock : (s'.icache ip).lock = some q := by rw [h.lock, hq]
    unfold Leaves ilock
    rw [Prog.run_atomic]
    simp only [wlp_bind, wlp_get]
    rw [if_neg (by omega)]
    unfold acquiresleep
    simp only [wlp_bind, wlp_get, hlock, wlp_block]

/-- In a calm state an inode that a function gives up is not freed. -/
theorem Calm.kept (hc : Calm sb s) (h : Beside sb s (e + Pi.single ip 1) l s')
    (hmem : (s'.icache ip).inum ∈ inodes sb s.disk)
    (h0 : (dinode sb s.disk (s'.icache ip).inum).nlink = 0) : (s'.icache ip).ref ≠ 1 := by
  obtain ⟨j, hj, hinum⟩ := hc.links _ hmem h0
  have href := h.ref ip
  have hrefj := h.ref j
  have hpos := hc.ref ip
  simp only [Pi.add_apply, Pi.single_eq_same] at href
  push_cast at href
  have hji : j = ip := h.inj j ip (by omega) (by omega) (by rw [h.kept j hj, hinum])
  subst hji
  omega

theorem Calm.leaves_iput (hc : Calm sb s) (h : Beside sb s (e + Pi.single ip 1) l s')
    (hlt : (s'.icache ip).inum < sb.ninodes)
    (hQ : ∀ s'', Beside sb s e l s'' → (∀ j, (s''.icache j).inum = (s'.icache j).inum) → Q () s'') :
    Leaves (iput sb p ip site) Q s' := by
  by_cases hfree : l ip = none
  · refine .of_wp (h.wp_iput hfree (hc.ref ip) (fun hv h0 => ?_) hQ)
    have href := h.ref ip
    have hpos := hc.ref ip
    simp only [Pi.add_apply, Pi.single_eq_same] at href
    push_cast at href
    obtain ⟨hcopy, htype⟩ := h.sync ip (by omega) hv
    exact hc.kept h ⟨hlt, by rw [← hcopy]; exact htype⟩ h0
  · unfold Leaves wlp
    rw [h.iput_blocked hfree]
    trivial

theorem Calm.leaves_iunlockput (hc : Calm sb s) (h : Beside sb s (e + Pi.single ip 1) l s')
    (hheld : l ip = some p) (hmem : (s'.icache ip).inum ∈ inodes sb s.disk)
    (hQ : ∀ s'', Beside sb s e (update l ip none) s'' →
      (∀ j, (s''.icache j).inum = (s'.icache j).inum) → Q () s'') :
    Leaves (iunlockput sb p ip site) Q s' :=
  .of_wp (h.wp_iunlockput hheld (hc.ref ip) (hc.kept h hmem) hQ)

/-- Two stretches, one after the other. -/
theorem Beside.trans {e' : Slot → Nat} {l' : Slot → Option Pid} {s'' : FsState} (h : Beside sb s e l s')
    (h' : Beside sb s' e' l' s'') : Beside sb s (e + e') l' s'' where
  disk := h'.disk.trans h.disk
  outstanding := h'.outstanding.trans h.outstanding
  ftable := h'.ftable.trans h.ftable
  proc := h'.proc.trans h.proc
  ref i := by
    rw [h'.ref i, h.ref i, Pi.add_apply]
    push_cast
    omega
  kept i hi := by
    have href := h.ref i
    rw [h'.kept i (by omega), h.kept i hi]
  loaded i hi hv := by
    have href := h.ref i
    exact h'.loaded i (by omega) (h.loaded i hi hv)
  lock := h'.lock
  dev := h'.dev
  inj := h'.inj
  sync i hi hv := by
    rw [← h.disk]
    exact h'.sync i hi hv

/-! ## Path names -/

theorem Calm.walk_lt (hc : Calm sb s) {n m : Nat} (hn : n < sb.ninodes)
    (h : walk sb s.disk n names = some m) : m < sb.ninodes := by
  induction names generalizing n with
  | nil =>
    cases h
    exact hn
  | cons name names ih =>
    unfold walk at h
    rw [List.foldlM_cons] at h
    obtain ⟨k, hk, hrest⟩ := Option.bind_eq_some_iff.mp h
    refine ih (hc.child_lt ?_ hk) hrest
    refine ⟨hn, fun h0 => ?_⟩
    rw [child_eq_none (by rw [h0]; decide)] at hk
    cases hk

/-- The inode a path leads to exists; as a parent it is a directory. -/
theorem Calm.target_spec (hc : Calm sb s) {parent : Bool} {m : Nat} {name : Name}
    (hn : n < sb.ninodes) (h : target sb s.disk parent n names = some (m, name)) :
    m < sb.ninodes ∧ (parent = true → (dinode sb s.disk m).type = T_DIR) := by
  unfold target at h
  cases parent with
  | false =>
    obtain ⟨k, hk, heq⟩ := Option.map_eq_some_iff.mp h
    cases heq
    exact ⟨hc.walk_lt hn hk, fun h => by cases h⟩
  | true =>
    obtain ⟨last, -, hlast⟩ := Option.bind_eq_some_iff.mp h
    obtain ⟨d, hd, hif⟩ := Option.bind_eq_some_iff.mp hlast
    split at hif
    · next hdir =>
      cases hif
      exact ⟨hc.walk_lt hn hd, fun _ => hdir⟩
    · cases hif

theorem Calm.start_lt (hc : Calm sb s) {path : Name} (hroot : ROOTINO < sb.ninodes)
    (hcwd : ∀ i, (s.proc p).cwd = some i → 0 < (s.icache i).ref) (h : start s p path = some n) :
    n < sb.ninodes := by
  unfold start at h
  split at h
  · cases h
    exact hroot
  · obtain ⟨i, hi, rfl⟩ := Option.map_eq_some_iff.mp h
    exact hc.cache.inum_lt i (hcwd i hi)

/-- What a process needs to resolve paths. -/
structure Ready (sb : Superblock) (p : Pid) (s : FsState) : Prop extends Calm sb s where
  root_lt : ROOTINO < sb.ninodes
  cwd : ∀ i, (s.proc p).cwd = some i → 0 < (s.icache i).ref

theorem Ready.leaves_namex (h : Ready sb p s) {parent : Bool} {path : Name}
    {Q : Option (Slot × Name) → FsState → Prop}
    (hnone : ∀ s', Beside sb s 0 (fun _ => none) s' → Q none s')
    (hsome : ∀ ip name s', Beside sb s (Pi.single ip 1) (fun _ => none) s' →
      (start s p path).bind (fun n => target sb s.disk parent n (runs path)) =
        some ((s'.icache ip).inum, name) →
      (s'.icache ip).inum < sb.ninodes →
      (parent = true → (dinode sb s.disk (s'.icache ip).inum).type = T_DIR) → Q (some (ip, name)) s') :
    Leaves (namex sb p path parent) Q s := by
  refine .of_wp ((wp_namex h.toCalm (fun _ _ _ _ _ _ => trivial) (fun _ _ _ _ => trivial) h.root_lt h.cwd
    (fun _ => trivial) (fun _ _ _ => trivial) fun _ => trivial).imp ?_)
  rintro r s' ⟨-, hres⟩
  match r, hres with
  | none, ⟨_, hb⟩ => exact hnone s' hb
  | some (ip, name), ⟨ht, hb⟩ =>
    obtain ⟨n, hn, htn⟩ := Option.bind_eq_some_iff.mp ht
    obtain ⟨hlt, hdir⟩ := h.target_spec (h.start_lt h.root_lt h.cwd hn) htn
    exact hsome ip name s' hb ht hlt hdir

theorem Ready.leaves_namei (h : Ready sb p s) {path : Name} {Q : Option Slot → FsState → Prop}
    (hnone : ∀ s', Beside sb s 0 (fun _ => none) s' → Q none s')
    (hsome : ∀ ip s', Beside sb s (Pi.single ip 1) (fun _ => none) s' →
      (s'.icache ip).inum < sb.ninodes → Q (some ip) s') :
    Leaves (namei sb p path) Q s := by
  unfold namei
  rw [leaves_bind]
  refine h.leaves_namex (fun s' hb => leaves_pure (hnone s' hb)) fun ip name s' hb _ hlt _ => ?_
  exact leaves_pure (hsome ip s' hb hlt)

/-- The lock that has been taken is given back. -/
theorem update_back (ip : Slot) (x : Option Pid) :
    update (update (fun _ : Slot => (none : Option Pid)) ip x) ip none = fun _ => none :=
  update_again rfl x

/-- The inode a path leads to is locked. -/
theorem Ready.leaves_lock (h : Ready sb p s) (hb : Beside sb s (Pi.single ip 1) (fun _ => none) s')
    (hlt : (s'.icache ip).inum < sb.ninodes)
    (hQ : ∀ s'', Beside sb s (Pi.single ip 1) (update (fun _ => none) ip (some p)) s'' →
      0 < (s''.icache ip).ref → (s''.icache ip).inum = (s'.icache ip).inum →
      (s''.icache ip).toDinode = dinode sb s.disk (s'.icache ip).inum →
      (s'.icache ip).inum ∈ inodes sb s.disk → Q () s'') : Leaves (ilock sb p ip site) Q s' := by
  have hpos := h.ref ip
  have href := hb.ref ip
  rw [Pi.single_eq_same] at href
  refine hb.leaves_ilock (by omega) fun s'' _ h'' hinum _ hcopy htype => ?_
  have href'' := h''.ref ip
  rw [Pi.single_eq_same] at href''
  exact hQ s'' h'' (by omega) (hinum ip) hcopy ⟨hlt, htype⟩

/-- It is unlocked and given up. -/
theorem Ready.leaves_back (h : Ready sb p s)
    (hb : Beside sb s (Pi.single ip 1) (update (fun _ => none) ip (some p)) s')
    (hmem : (s'.icache ip).inum ∈ inodes sb s.disk)
    (hQ : ∀ s'', Beside sb s 0 (fun _ => none) s'' → Q () s'') :
    Leaves (iunlockput sb p ip site) Q s' := by
  refine h.leaves_iunlockput (e := 0) (by rwa [zero_add]) (update_self _ _ _) hmem fun s'' h'' _ => hQ s'' ?_
  rwa [update_back] at h''

/-! ## The calls -/

/-- The disk, the file table and the processes are the same. -/
structure Unchanged (s s' : FsState) : Prop where
  disk : s'.disk = s.disk
  ftable : s'.ftable = s.ftable
  proc : s'.proc = s.proc

/-- A call that returns -1 has changed nothing. -/
def Harmless (s : FsState) (r : Int) (s' : FsState) : Prop := r = -1 → Unchanged s s'

theorem harmless_of_ne {r : Int} (h : r ≠ -1) : Harmless s r s' := fun hr => absurd hr h

/-- A state in a transaction. -/
def began (s : FsState) : FsState := { s with outstanding := s.outstanding + 1 }

theorem Ready.of_began (h : Ready sb p s) : Ready sb p (began s) where
  image := h.image
  names := h.names
  cache := ⟨h.cache.inum_lt, h.cache.dev, h.cache.inj, h.cache.sync⟩
  ref := h.ref
  free := h.free
  links := h.links
  root_lt := h.root_lt
  cwd := h.cwd

theorem leaves_begin_op (h : Q () (began s)) : Leaves begin_op Q s := by
  unfold Leaves begin_op step
  rw [Prog.run_atomic]
  exact h

/-- The end of a call that fails. -/
theorem Beside.leaves_fail (h : Beside sb (began s) e l s') :
    Leaves (do end_op; pure (-1) : FsProg Int) (Harmless s) s' := by
  unfold Leaves end_op step
  rw [wlp_run_bind, Prog.run_atomic]
  exact fun _ => ⟨h.disk, h.ftable, h.proc⟩

theorem leaves_inode {Q : Inode → FsState → Prop} (h : Q (s.icache ip) s) : Leaves (inode ip) Q s :=
  .of_wp (wp_inode h)

theorem Ready.leaves_chdir (h : Ready sb p s) (path : Option Name) :
    Leaves (sys_chdir sb p path) (Harmless s) s := by
  unfold sys_chdir
  rw [leaves_bind]
  refine leaves_begin_op ?_
  have hb := h.of_began
  cases path with
  | none => exact hb.beside.leaves_fail
  | some path =>
    rw [leaves_bind]
    refine hb.leaves_namei (fun s₁ h₁ => h₁.leaves_fail) fun ip s₁ h₁ hlt => ?_
    dsimp only
    rw [leaves_bind]
    refine hb.leaves_lock h₁ hlt fun s₂ h₂ _ hinum _ hmem => ?_
    rw [leaves_bind]
    refine leaves_inode ?_
    by_cases hdir : (s₂.icache ip).type ≠ T_DIR
    · rw [if_pos hdir, leaves_bind]
      exact hb.leaves_back h₂ (by rw [hinum]; exact hmem) fun s₃ h₃ => h₃.leaves_fail
    · rw [if_neg hdir]
      refine leaves_seq _ fun _ _ => leaves_seq _ fun _ _ => leaves_seq _ fun _ _ => leaves_seq _ fun _ _ =>
        leaves_seq _ fun _ _ => leaves_pure (harmless_of_ne (by decide))

/-- `dirlookup` in a directory that is locked. -/
theorem Beside.leaves_dirlookup (h : Beside sb s e l s') (hc : Calm sb s) {name : Name}
    (href : 0 < (s'.icache dp).ref) (hmem : (s'.icache dp).inum ∈ inodes sb s.disk)
    (hcopy : (s'.icache dp).toDinode = dinode sb s.disk (s'.icache dp).inum)
    {Q : Option (Slot × Nat) → FsState → Prop}
    (hnone : child sb s.disk (s'.icache dp).inum name = none → Q none s')
    (hsome : ∀ i off s'', child sb s.disk (s'.icache dp).inum name = some (s''.icache i).inum →
      Beside sb s (e + Pi.single i 1) l s'' → (s''.icache i).inum < sb.ninodes →
      (s''.icache dp).inum = (s'.icache dp).inum → Q (some (i, off)) s'') :
    Leaves (dirlookup sb dp name) Q s' := by
  have hs : Synced sb s' dp := by
    refine ⟨?_, ?_⟩
    · rw [h.disk]
      exact hmem
    · rw [h.disk]
      exact hcopy
  by_cases hdir : (s'.icache dp).type = T_DIR
  · have hchild : child sb s.disk (s'.icache dp).inum name =
        (search (s'.bytes sb dp) name).map Prod.fst := by
      rw [child_of_dir (by rw [← hcopy]; exact hdir)]
      unfold FsState.bytes
      rw [h.disk]
    refine .of_wp (h.wp_dirlookup hc.image href hs hdir (fun _ => trivial) (fun _ _ _ _ => trivial) ?_ ?_)
    · intro hfind
      rw [hfind] at hchild
      exact hnone hchild
    · intro n off i s'' hfind hgot _ hb hinum
      rw [hfind] at hchild
      have hn : child sb s.disk (s'.icache dp).inum name = some n := hchild
      have hlt := hc.child_lt hmem hn
      rw [← hinum] at hn hlt
      exact hsome i off s'' hn hb hlt (hgot.inum_kept href)
  · -- it panics
    unfold Leaves dirlookup dirlookup_search
    rw [Prog.run_atomic]
    simp only [wlp_bind, wlp_get]
    rw [if_pos hdir]
    trivial

theorem Ready.leaves_unlink (h : Ready sb p s) (path : Option Name) :
    Leaves (sys_unlink sb p path) (Harmless s) s := by
  unfold sys_unlink
  cases path with
  | none => exact leaves_pure fun _ => ⟨rfl, rfl, rfl⟩
  | some path =>
    dsimp only
    rw [leaves_bind]
    refine leaves_begin_op ?_
    have hb := h.of_began
    rw [leaves_bind]
    refine hb.leaves_namex (fun s₁ h₁ => h₁.leaves_fail) fun dp name s₁ h₁ _ hlt hdir => ?_
    dsimp only
    rw [leaves_bind]
    refine hb.leaves_lock h₁ hlt fun s₂ h₂ href₂ hinum hcopy hmem => ?_
    -- the exit for errors, from any state in which only `dp` is held
    have hbad : ∀ s₃, Beside sb (began s) (Pi.single dp 1) (update (fun _ => none) dp (some p)) s₃ →
        (s₃.icache dp).inum = (s₁.icache dp).inum → Leaves (sys_unlink_bad sb p dp) (Harmless s) s₃ := by
      intro s₃ h₃ hinum₃
      unfold sys_unlink_bad
      rw [leaves_bind]
      exact hb.leaves_back h₃ (by rw [hinum₃]; exact hmem) fun s₄ h₄ => h₄.leaves_fail
    split_ifs with hdots
    · exact hbad s₂ h₂ hinum
    · rw [leaves_bind]
      refine h₂.leaves_dirlookup hb.toCalm href₂ (by rw [hinum]; exact hmem) (by rw [hinum]; exact hcopy)
        (fun _ => hbad s₂ h₂ hinum) fun ip off s₃ _ h₃ hlt₃ hdp₃ => ?_
      have href₃ := h₃.ref ip
      have hpos₃ := hb.ref ip
      simp only [Pi.add_apply, Pi.single_eq_same] at href₃
      push_cast at href₃
      dsimp only
      rw [leaves_bind]
      refine h₃.leaves_ilock (by omega) fun s₄ hfree h₄ hinum₄ _ hcopy₄ htype₄ => ?_
      have hne : ip ≠ dp := by
        rintro rfl
        simp at hfree
      rw [leaves_bind]
      refine leaves_inode ?_
      rw [leaves_bind]
      have hmem₄ : (s₃.icache ip).inum ∈ inodes sb (began s).disk := ⟨hlt₃, htype₄⟩
      have hs₄ : Synced sb s₄ ip := by
        refine ⟨?_, ?_⟩
        · rw [h₄.disk, hinum₄]
          exact hmem₄
        · rw [h₄.disk, hinum₄]
          exact hcopy₄
      -- the test reads the directory only
      have hread : ∀ {Q : Bool → FsState → Prop}, (∀ b, Q b s₄) → Leaves (step do
          if (s₄.icache ip).nlink.toInt < 1 then
            Op.panic "unlink: nlink < 1"
          else if (s₄.icache ip).type = T_DIR then
            isdirempty sb ip
          else
            pure true) Q s₄ := by
        intro Q hQ
        unfold Leaves step
        rw [Prog.run_atomic]
        split_ifs
        · trivial
        · exact (wp_isdirempty hs₄ (by rw [h₄.disk]; exact hb.image) (fun _ => trivial) fun b _ => hQ b).wlp
        · exact hQ true
      refine hread fun b => ?_
      split_ifs with hb'
      · rw [leaves_bind]
        refine hb.leaves_iunlockput h₄ (by simp) (by rw [hinum₄]; exact hmem₄) fun s₅ h₅ hinum₅ => ?_
        refine hbad s₅ ?_ ?_
        · rwa [update_again (by simp [hne])] at h₅
        · rw [hinum₅, hinum₄, hdp₃, hinum]
      · exact leaves_seq _ fun _ _ => leaves_seq _ fun _ _ => leaves_seq _ fun _ _ => leaves_seq _ fun _ _ =>
          leaves_seq _ fun _ _ => leaves_seq _ fun _ _ => leaves_pure (harmless_of_ne (by decide))

/-! ## `create` -/

/-- The path leads to a directory that has no entry of the last name. -/
def NewName (sb : Superblock) (s : FsState) (p : Pid) (path : Name) : Prop :=
  ∃ d name, (start s p path).bind (fun n => walkParent sb s.disk n (runs path)) = some (d, name) ∧
    child sb s.disk d name = none

/-- What `create` leaves, unless it makes a new inode. -/
def Obtained (sb : Superblock) (p : Pid) (s : FsState) : Option Slot → FsState → Prop
  | none, s' => Beside sb s 0 (fun _ => none) s'
  | some ip, s' => Beside sb s (Pi.single ip 1) (update (fun _ => none) ip (some p)) s' ∧
      (s'.icache ip).inum ∈ inodes sb s.disk

theorem Ready.leaves_create (h : Ready sb p s) {path : Name} {type major minor : BitVec 16}
    {Q : Option Slot → FsState → Prop}
    (hnew : ∀ dp name s', NewName sb s p path → s'.ftable = s.ftable → s'.proc = s.proc →
      Leaves (create_new sb p dp name type major minor) (fun ip s'' => Q (some ip) s'') s')
    (hQ : ∀ r s', Obtained sb p s r s' → (r ≠ none → type = T_FILE) → Q r s') :
    Leaves (create sb p path type major minor) Q s := by
  unfold create nameiparent
  rw [leaves_bind]
  refine h.leaves_namex (fun s₁ h₁ => leaves_pure (hQ none s₁ h₁ (by simp)))
    fun dp name s₁ h₁ hpath hlt hdir => ?_
  dsimp only
  rw [leaves_bind]
  refine h.leaves_lock h₁ hlt fun s₂ h₂ href₂ hinum hcopy hmem => ?_
  rw [leaves_bind]
  refine h₂.leaves_dirlookup h.toCalm href₂ (by rw [hinum]; exact hmem) (by rw [hinum]; exact hcopy)
    (fun hnone => ?_) fun ip off s₃ _ h₃ hlt₃ hdp₃ => ?_
  · -- the name is new
    rw [hinum] at hnone
    dsimp only
    rw [leaves_bind]
    exact hnew dp name s₂ ⟨_, name, hpath, hnone⟩ h₂.ftable h₂.proc
  · dsimp only
    have hswap : Beside sb s (Pi.single ip 1 + Pi.single dp 1)
        (update (fun _ => none) dp (some p)) s₃ := by rwa [add_comm]
    rw [leaves_bind]
    refine h.leaves_iunlockput hswap (by simp) (by rw [hdp₃, hinum]; exact hmem) fun s₄ h₄ hinum₄ => ?_
    rw [update_back] at h₄
    rw [leaves_bind]
    refine h.leaves_lock h₄ (by rw [hinum₄]; exact hlt₃) fun s₅ h₅ _ hinum₅ _ hmem₅ => ?_
    rw [← hinum₅] at hmem₅
    rw [leaves_bind]
    refine leaves_inode ?_
    split_ifs with hfile
    · exact leaves_pure (hQ (some ip) s₅ ⟨h₅, hmem₅⟩ fun _ => hfile.1)
    · rw [leaves_bind]
      exact h.leaves_back h₅ hmem₅ fun s₆ h₆ => leaves_pure (hQ none s₆ h₆ (by simp))

/-- `mkdir` and `mknod`. -/
theorem Ready.leaves_make (h : Ready sb p s) (path : Option Name) {type : BitVec 16} (major minor : BitVec 16)
    (htype : type ≠ T_FILE) : Leaves (sys_make sb p path type major minor) (Harmless s) s := by
  have htail : ∀ ip s', Leaves (do iunlockput sb p ip .plain; end_op; pure 0 : FsProg Int) (Harmless s) s' :=
    fun _ _ => leaves_seq _ fun _ _ => leaves_seq _ fun _ _ => leaves_pure (harmless_of_ne (by decide))
  unfold sys_make
  rw [leaves_bind]
  refine leaves_begin_op ?_
  have hb := h.of_began
  cases path with
  | none => exact hb.beside.leaves_fail
  | some path =>
    dsimp only
    rw [leaves_bind]
    refine hb.leaves_create (fun dp name s' _ _ _ => leaves_any _ fun ip s'' => htail ip s'') fun r s' hr hne => ?_
    cases r with
    | none => exact hr.leaves_fail
    | some ip => exact absurd (hne (by simp)) htype

/-! ## `sys_link` -/

/-- A new copy of the inode in entry `ip` is stored on the disk. -/
theorem leaves_store (a : Act) {f : Dinode → Dinode}
    (h : Q () (s.withFile ip (setDinode sb s.disk (s.icache ip).inum (f (s.icache ip).toDinode))
      (f (s.icache ip).toDinode))) :
    Leaves (Prog.atomic a do
      Op.modify fun s => s.setCopy ip f
      iupdate sb ip) Q s := by
  refine .of_wp ?_
  rw [Prog.run_atomic]
  simp only [wp_bind, wp_modify, setCopy_eq]
  refine wp_iupdate (fun _ => trivial) ?_
  simpa using h

/-- Inode `n` is `d` on the disk. -/
def stored (sb : Superblock) (s : FsState) (n : Nat) (d : Dinode) : FsState :=
  { s with disk := setDinode sb s.disk n d }

theorem stored_back (s : FsState) (n : Nat) (d : Dinode) :
    stored sb (stored sb s n d) n (dinode sb s.disk n) = s := by
  unfold stored
  rw [setDinode_setDinode, setDinode_dinode]

/-- The same on both sides. -/
theorem Beside.store (h : Beside sb s e l s') (href : 0 < (s'.icache ip).ref) (hinum : (s'.icache ip).inum = n)
    {d : Dinode} (htype : d.type ≠ 0) :
    Beside sb (stored sb s n d) e l (s'.withFile ip (setDinode sb s'.disk n d) d) := by
  have hentry := withFile_entry s' ip (setDinode sb s'.disk n d) d
  refine ⟨?_, h.outstanding, h.ftable, h.proc, fun i => ?_, fun i hi => ?_, fun i hi hv => ?_, fun i => ?_,
    fun i hi => ?_, fun i j hi hj heq => ?_, fun i hi hv => ?_⟩
  · rw [withFile_disk, h.disk]
    rfl
  · rw [(hentry i).2.2.1]
    exact h.ref i
  · rw [(hentry i).1]
    exact h.kept i hi
  · rw [(hentry i).2.2.2.2]
    exact h.loaded i hi hv
  · rw [(hentry i).2.2.2.1]
    exact h.lock i
  · rw [(hentry i).2.2.1] at hi
    rw [(hentry i).2.1]
    exact h.dev i hi
  · rw [(hentry i).2.2.1] at hi
    rw [(hentry j).2.2.1] at hj
    rw [(hentry i).1, (hentry j).1] at heq
    exact h.inj i j hi hj heq
  · rw [(hentry i).2.2.1] at hi
    rw [(hentry i).2.2.2.2] at hv
    rw [(hentry i).1]
    by_cases hj : i = ip
    · subst hj
      rw [withFile_copy, hinum]
      exact ⟨(dinode_setDinode_self _ _).symm, htype⟩
    · rw [withFile_of_ne _ _ _ _ hj, stored]
      have hne : (s'.icache i).inum ≠ n := by
        rw [← hinum]
        exact fun heq => hj (h.inj i ip hi href heq)
      rw [dinode_setDinode_ne _ hne]
      exact h.sync i hi hv

/-- After `sys_link` has counted the link it is about to make, it can resolve
    the second path. -/
theorem Ready.counted (h : Ready sb p s) (hvol : Volume sb s.disk) {d : Dinode}
    (hmem : n ∈ inodes sb s.disk) (hd : d = { dinode sb s.disk n with nlink := d.nlink })
    (hb : Beside sb (stored sb s n d) (Pi.single ip 1) (fun _ => none) s')
    (hinum : (s'.icache ip).inum = n) : Ready sb p s' := by
  obtain ⟨htouch, -, -⟩ := hvol.setFields (d := d) hmem (by rw [hd]) (by rw [hd]) (by rw [hd])
  have hdisk : s'.disk = setDinode sb s.disk n d := hb.disk
  have href : ∀ i, (s'.icache i).ref = (s.icache i).ref + ((Pi.single ip 1 : Slot → Nat) i : Nat) := hb.ref
  have hkept : ∀ i, 0 < (s.icache i).ref → 0 < (s'.icache i).ref ∧ (s'.icache i).inum = (s.icache i).inum :=
    fun i hi => ⟨by rw [href]; omega, hb.kept i hi⟩
  -- an entry in use was in use before, or it is that of the file
  have hold : ∀ i, 0 < (s'.icache i).ref → 0 < (s.icache i).ref ∨ i = ip := fun i hi => by
    by_cases hip : i = ip
    · exact Or.inr hip
    · rw [href, Pi.single_eq_of_ne hip] at hi
      exact Or.inl (by simpa using hi)
  have hself : 0 < (s'.icache ip).ref := by
    have := h.ref ip
    rw [href, Pi.single_eq_same]
    omega
  refine ⟨⟨by rw [hdisk]; exact htouch.volume.image, by rw [hdisk]; exact htouch.volume.names,
    ⟨fun i hi => ?_, hb.dev, hb.inj, fun i hi hv => by rw [hdisk]; exact hb.sync i hi hv⟩,
    fun i => by rw [href]; have := h.ref i; omega, hb.lock, fun m hm h0 => ?_⟩, h.root_lt, fun i hi => ?_⟩
  · rcases hold i hi with hi' | rfl
    · rw [(hkept i hi').2]
      exact h.cache.inum_lt i hi'
    · rw [hinum]
      exact hmem.1
  · rw [hdisk] at hm h0
    by_cases hmn : m = n
    · exact ⟨ip, hself, by rw [hinum, hmn]⟩
    · have htype := hm.2
      rw [dinode_setDinode_ne _ hmn] at h0 htype
      obtain ⟨i, hi, him⟩ := h.links m ⟨hm.1, htype⟩ h0
      exact ⟨i, (hkept i hi).1, by rw [(hkept i hi).2, him]⟩
  · rw [hb.proc] at hi
    exact (hkept i (h.cwd i hi)).1

/-- One more link, and one less. -/
def Dinode.up (d : Dinode) : Dinode := { d with nlink := d.nlink + 1 }

def Dinode.down (d : Dinode) : Dinode := { d with nlink := d.nlink - 1 }

theorem Dinode.down_up (d : Dinode) : d.up.down = d := by
  unfold Dinode.up Dinode.down
  dsimp only
  rw [BitVec.add_sub_cancel]

/-- `sys_link` takes back the link it has counted. -/
theorem Ready.leaves_link_bad (h : Ready sb p (began s)) (hmem : n ∈ inodes sb s.disk)
    (hb : Beside sb (stored sb (began s) n (dinode sb s.disk n).up) (Pi.single ip 1) (fun _ => none) s')
    (hinum : (s'.icache ip).inum = n) : Leaves (sys_link_bad sb p ip) (Harmless s) s' := by
  have href := hb.ref ip
  have hpos : 0 ≤ (s.icache ip).ref := h.ref ip
  rw [Pi.single_eq_same] at href
  change (s'.icache ip).ref = (s.icache ip).ref + _ at href
  unfold sys_link_bad
  rw [leaves_bind]
  refine hb.leaves_ilock (by omega) fun s₁ _ h₁ hinum₁ _ hcopy _ => ?_
  have href₁ := h₁.ref ip
  rw [Pi.single_eq_same] at href₁
  change (s₁.icache ip).ref = (s.icache ip).ref + _ at href₁
  rw [leaves_bind]
  refine leaves_store (f := Dinode.down) _ ?_
  have hcopy' : (s₁.icache ip).toDinode = (dinode sb s.disk n).up := by
    rw [hcopy, hinum]
    exact dinode_setDinode_self _ _
  rw [hinum₁, hinum, hcopy', Dinode.down_up]
  have h₂ := h₁.store (d := dinode sb s.disk n) (show 0 < (s₁.icache ip).ref by omega)
    ((hinum₁ ip).trans hinum) hmem.2
  rw [show stored sb (stored sb (began s) n (dinode sb s.disk n).up) n (dinode sb s.disk n) = began s from
    stored_back (began s) n _] at h₂
  rw [leaves_bind]
  refine h.leaves_back h₂ ?_ fun s₃ h₃ => h₃.leaves_fail
  rw [(withFile_entry _ _ _ _ ip).1, hinum₁, hinum]
  exact hmem

theorem Ready.leaves_link (h : Ready sb p s) (hvol : Volume sb s.disk) (old new : Option Name) :
    Leaves (sys_link sb p old new) (Harmless s) s := by
  have hsame : Harmless s (-1) s := fun _ => ⟨rfl, rfl, rfl⟩
  unfold sys_link
  match old, new with
  | none, _ => exact leaves_pure hsame
  | some _, none => exact leaves_pure hsame
  | some old, some new =>
    dsimp only
    rw [leaves_bind]
    refine leaves_begin_op ?_
    have hb := h.of_began
    rw [leaves_bind]
    refine hb.leaves_namei (fun s₁ h₁ => h₁.leaves_fail) fun ip s₁ h₁ hlt => ?_
    dsimp only
    rw [leaves_bind]
    refine hb.leaves_lock h₁ hlt fun s₂ h₂ href₂ hinum hcopy hmem => ?_
    rw [leaves_bind]
    refine leaves_inode ?_
    split_ifs with hdir
    · rw [leaves_bind]
      exact hb.leaves_back h₂ (by rw [hinum]; exact hmem) fun s₃ h₃ => h₃.leaves_fail
    · -- the link is counted
      rw [leaves_bind]
      refine leaves_store (f := Dinode.up) _ ?_
      rw [hinum, hcopy]
      have h₃ := h₂.store (d := (dinode sb s.disk (s₁.icache ip).inum).up) href₂ hinum hmem.2
      rw [leaves_bind]
      refine .of_wp (h₃.wp_iunlock (by rw [(withFile_entry _ _ _ _ ip).2.2.1]; exact href₂) (by simp)
        fun s₄ h₄ hinum₄ => ?_)
      rw [update_back] at h₄
      have hip : (s₄.icache ip).inum = (s₁.icache ip).inum := by
        rw [hinum₄, (withFile_entry _ _ _ _ ip).1, hinum]
      have hready : Ready sb p s₄ := hb.counted hvol hmem rfl h₄ hip
      have href₄ := h₄.ref ip
      have hpos : 0 ≤ (s.icache ip).ref := hb.ref ip
      rw [Pi.single_eq_same] at href₄
      change _ = (s.icache ip).ref + _ at href₄
      have hbad : ∀ s₅, Beside sb s₄ 0 (fun _ => none) s₅ → Leaves (sys_link_bad sb p ip) (Harmless s) s₅ :=
        fun s₅ h₅ => hb.leaves_link_bad hmem (h₄.trans h₅) ((h₅.kept ip (by omega)).trans hip)
      rw [leaves_bind]
      refine hready.leaves_namex hbad fun dp name s₅ h₅ _ hlt₅ _ => ?_
      dsimp only
      rw [leaves_bind]
      refine hready.leaves_lock h₅ hlt₅ fun s₆ h₆ href₆ hinum₆ hcopy₆ hmem₆ => ?_
      have hdone : ∀ s₇, Beside sb s₄ (Pi.single dp 1) (update (fun _ => none) dp (some p)) s₇ →
          (s₇.icache dp).inum = (s₅.icache dp).inum →
          Leaves (sys_link_done sb p ip dp false) (Harmless s) s₇ := by
        intro s₇ h₇ hinum₇
        unfold sys_link_done
        rw [if_neg (by decide), leaves_bind]
        exact hready.leaves_back h₇ (by rw [hinum₇]; exact hmem₆) hbad
      rw [leaves_bind]
      refine leaves_inode ?_
      split_ifs with hdev
      · exact hdone s₆ h₆ hinum₆
      · rw [leaves_bind]
        unfold dirlink
        rw [leaves_bind]
        refine h₆.leaves_dirlookup hready.toCalm href₆ (by rw [hinum₆]; exact hmem₆)
          (by rw [hinum₆]; exact hcopy₆) (fun _ => ?_) fun i off s₇ _ h₇ hlt₇ hdp₇ => ?_
        · refine leaves_seq _ fun _ _ => leaves_pure ?_
          unfold sys_link_done
          rw [if_pos rfl]
          exact leaves_seq _ fun _ _ => leaves_seq _ fun _ _ => leaves_seq _ fun _ _ =>
            leaves_pure (harmless_of_ne (by decide))
        · dsimp only
          rw [leaves_bind]
          refine hready.leaves_iput h₇ hlt₇ fun s₈ h₈ hinum₈ => leaves_pure (hdone s₈ h₈ ?_)
          rw [hinum₈, hdp₇, hinum₆]

/-! ## `sys_open` -/

/-- What `sys_open` finds, unless it makes a new file. -/
theorem Ready.leaves_open_inode (h : Ready sb p s) {path : Name} {omode : BitVec 32}
    (hnew : omode &&& O_CREATE ≠ 0 → ¬ NewName sb s p path) {Q : Option Slot → FsState → Prop}
    (hQ : ∀ r s', Obtained sb p s r s' → Q r s') : Leaves (sys_open_inode sb p path omode) Q s := by
  unfold sys_open_inode
  split_ifs with hcreate
  · exact h.leaves_create (fun dp name s' hname _ _ => absurd hname (hnew hcreate)) fun r s' hr _ => hQ r s' hr
  · rw [leaves_bind]
    refine h.leaves_namei (fun s₁ h₁ => leaves_pure (hQ none s₁ h₁)) fun ip s₁ h₁ hlt => ?_
    dsimp only
    rw [leaves_bind]
    refine h.leaves_lock h₁ hlt fun s₂ h₂ _ hinum _ hmem => ?_
    rw [← hinum] at hmem
    rw [leaves_bind]
    refine leaves_inode ?_
    split_ifs with hdir
    · rw [leaves_bind]
      exact h.leaves_back h₂ hmem fun s₃ h₃ => leaves_pure (hQ none s₃ h₃)
    · exact leaves_pure (hQ (some ip) s₂ ⟨h₂, hmem⟩)

/-- Without room in the file table. -/
theorem leaves_filealloc {Q : Option FileSlot → FsState → Prop} (hnone : Q none s)
    (hsome : ∀ f, (s.ftable f).ref = 0 → Q (some f) (s.setFile f fun file => { file with ref := 1 })) :
    Leaves filealloc Q s := by
  unfold filealloc Leaves step
  rw [Prog.run_atomic]
  simp only [wlp_bind, wlp_get]
  split
  · next f hf => exact hsome f (by simpa using List.find?_some hf)
  · exact hnone

/-- `fileclose` gives the file back that `filealloc` has just taken. -/
theorem leaves_fileclose_new {f : FileSlot} (href : (s.ftable f).ref = 0)
    (htype : (s.ftable f).type = .FD_NONE) (hQ : Q () s) :
    Leaves (fileclose sb p f) Q (s.setFile f fun file => { file with ref := 1 }) := by
  have hback : (s.setFile f fun file => { file with ref := 1 }).setFile f
      (fun file => { file with ref := 0, type := .FD_NONE }) = s := by
    unfold FsState.setFile
    dsimp only
    rw [update_idem, update_self]
    rw [show ({ s.ftable f with ref := 0, type := .FD_NONE } : File) = s.ftable f by
      rw [← href, ← htype], update_eq_self]
  unfold fileclose
  rw [leaves_bind]
  unfold Leaves fileclose_drop
  rw [Prog.run_atomic]
  have hone : ((s.setFile f fun file => { file with ref := 1 }).ftable f) = { s.ftable f with ref := 1 } := by
    simp [FsState.setFile]
  simp only [wlp_bind, wlp_get, hone]
  rw [if_neg (by decide), if_neg (by decide)]
  simp only [wlp_bind, wlp_modify, wlp_pure, hback, htype]
  rw [if_neg (by decide)]
  exact hQ

theorem Ready.leaves_open (h : Ready sb p s) (hfiles : ∀ f, (s.ftable f).ref = 0 → (s.ftable f).type = .FD_NONE)
    (path : Option Name) (omode : BitVec 32)
    (hnew : ∀ name, path = some name → omode &&& O_CREATE ≠ 0 → ¬ NewName sb s p name) :
    Leaves (sys_open sb p path omode) (Harmless s) s := by
  unfold sys_open
  cases path with
  | none => exact leaves_pure fun _ => ⟨rfl, rfl, rfl⟩
  | some path =>
    dsimp only
    rw [leaves_bind]
    refine leaves_begin_op ?_
    have hb := h.of_began
    rw [leaves_bind]
    refine hb.leaves_open_inode (hnew path rfl) fun r s₁ hr => ?_
    match r, hr with
    | none, h₁ => exact h₁.leaves_fail
    | some ip, ⟨h₁, hmem⟩ =>
      dsimp only
      have hbad : Leaves (do iunlockput sb p ip .plain; end_op; pure (-1) : FsProg Int) (Harmless s) s₁ := by
        rw [leaves_bind]
        exact hb.leaves_back h₁ hmem fun s₂ h₂ => h₂.leaves_fail
      rw [leaves_bind]
      refine leaves_filealloc hbad fun f hf => ?_
      dsimp only
      rw [leaves_bind]
      unfold fdalloc Leaves step
      rw [Prog.run_atomic]
      simp only [wlp_bind, wlp_get]
      split
      · simp only [wlp_bind, wlp_modify, wlp_pure]
        refine leaves_seq _ fun _ _ => leaves_seq _ fun _ _ => leaves_seq _ fun _ _ =>
          leaves_pure (harmless_of_ne ?_)
        omega
      · rw [wlp_pure]
        change Leaves _ _ _
        dsimp only
        rw [leaves_bind]
        have hft : s₁.ftable = s.ftable := h₁.ftable
        refine leaves_fileclose_new hf ?_ hbad
        rw [hft] at hf ⊢
        exact hfiles f hf

/-! ## Reachable states -/

/-- The calls that work on names. -/
def Call.onNames : Call → Prop
  | .link _ _ | .unlink _ | .mkdir _ | .mknod _ _ _ | .chdir _ => True
  | _ => False

/-- Inodes without links are still in use. -/
def Unlinked (sb : Superblock) (s : FsState) : Prop :=
  ∀ n ∈ inodes sb s.disk, (dinode sb s.disk n).nlink = 0 → Cached s n

theorem Settled.ready (h : Settled sb s) (hlinks : Unlinked sb s) (p : Pid) : Ready sb p s where
  image := h.vol.image
  names := h.vol.names
  cache := h.cache
  ref i := by rw [h.iref i]; exact Int.natCast_nonneg _
  free i := by
    by_contra hne
    obtain ⟨q, hq⟩ := Option.ne_none_iff_exists'.mp hne
    exact (h.lock i q).mp hq rfl
  links := hlinks
  root_lt := h.root_lt
  cwd i hi := h.ref_pos_of_cwd hi rfl

/-- **Failed calls change nothing.** When `link`, `unlink`, `mkdir`, `mknod` or
    `chdir` returns -1, the disk, the open files and the processes are as
    before, if the disk had no holes and every inode without links is still in
    use. -/
theorem failed_name_call_changes_nothing (sb : Superblock) (disk : Disk) (P : Finset Pid)
    (hvol : Volume sb disk) (hroot : ROOTINO < sb.ninodes) {s s' : FsState}
    (h : LTS.Reachable (atomicSystem sb fun s => s = boot disk P) s) (hlinks : Unlinked sb s)
    (p : Pid) (c : Call) (hc : c.onNames) (hrun : (syscall sb p c).run s = .ok (-1) s') :
    Unchanged s s' := by
  have hs := settled_of_boot hvol hroot h
  have hr := hs.ready hlinks p
  have hleaves : Leaves (syscall sb p c) (Harmless s) s := by
    match c, hc with
    | .link old new, _ => exact hr.leaves_link hs.vol old new
    | .unlink path, _ => exact hr.leaves_unlink path
    | .mkdir path, _ => exact hr.leaves_make path 0 0 (by decide)
    | .mknod path major minor, _ => exact hr.leaves_make path major minor (by decide)
    | .chdir path, _ => exact hr.leaves_chdir path
  exact hleaves.of_ok hrun rfl

theorem unlinked_rootImage : Unlinked .mkfs (boot rootImage {0}) := by
  intro n hn h0
  rw [show (boot rootImage {0}).disk = rootDisk _ from rfl, inodes_rootDisk] at hn
  obtain rfl := hn
  rw [show (boot rootImage {0}).disk = rootDisk _ from rfl, dinode_rootDisk _ (by decide)] at h0
  exact absurd h0 (by decide)

theorem failed_chdir_changes_nothing : ∃ s',
    (syscall .mkfs 0 (.chdir (some (bytesOf "/x")))).run (boot rootImage {0}) = .ok (-1) s' ∧
    Unchanged (boot rootImage {0}) s' := by
  have hexec : ((syscall .mkfs 0 (.chdir (some (bytesOf "/x")))).run (boot rootImage {0})).returns
      (fun r _ => decide (r = -1)) = true := by decide +kernel
  obtain ⟨r, s', hrun, hr⟩ := Outcome.of_returns hexec
  rw [of_decide_eq_true hr] at hrun
  exact ⟨s', hrun, failed_name_call_changes_nothing .mkfs rootImage {0} volume_rootImage (by decide)
    (.init rfl) unlinked_rootImage 0 (.chdir (some (bytesOf "/x"))) trivial hrun⟩

/-- On the disk that `mkfs` makes of thirty files, the root directory has a
    hole: looking for a name that is not there allocates a block. -/
theorem failed_chdir_allocates : ∃ img s' b, Mkfs.main Mkfs.thirtyFiles = some img ∧
    (syscall .mkfs 0 (.chdir (some (bytesOf "/none")))).run (boot img.disk {0}) = .ok (-1) s' ∧
    bit .mkfs s'.disk b ≠ bit .mkfs img.disk b := by
  have hexec : (Mkfs.main Mkfs.thirtyFiles).any (fun img =>
      ((syscall .mkfs 0 (.chdir (some (bytesOf "/none")))).run (boot img.disk {0})).returns fun r s' =>
        decide (r = -1) && (List.range 100).any fun b => bit .mkfs s'.disk b != bit .mkfs img.disk b) =
      true := by decide +kernel
  obtain ⟨img, himg, hexec⟩ := (Option.any_eq_true _ _).mp hexec
  obtain ⟨r, s', hrun, hexec⟩ := Outcome.of_returns hexec
  obtain ⟨hr, hbit⟩ := Bool.and_eq_true_iff.mp hexec
  obtain ⟨b, -, hb⟩ := List.any_eq_true.mp hbit
  rw [of_decide_eq_true hr] at hrun
  exact ⟨img, s', b, himg, hrun, by simpa using hb⟩

/-- **A failed `open` changes nothing**, under the same conditions, if it has
    not made a new file. -/
theorem failed_open_changes_nothing (sb : Superblock) (disk : Disk) (P : Finset Pid)
    (hvol : Volume sb disk) (hroot : ROOTINO < sb.ninodes) {s s' : FsState}
    (h : LTS.Reachable (atomicSystem sb fun s => s = boot disk P) s) (hlinks : Unlinked sb s)
    (p : Pid) (path : Option Name) (omode : BitVec 32)
    (hnew : ∀ name, path = some name → omode &&& O_CREATE ≠ 0 → ¬ NewName sb s p name)
    (hrun : (syscall sb p (.open path omode)).run s = .ok (-1) s') : Unchanged s s' := by
  have hs := settled_of_boot hvol hroot h
  exact ((hs.ready hlinks p).leaves_open hs.file_free path omode hnew).of_ok hrun rfl

theorem failed_open_nosuch : ∃ s',
    (syscall .mkfs 0 (.open (some (bytesOf "/x")) O_RDWR)).run (boot rootImage {0}) = .ok (-1) s' ∧
    Unchanged (boot rootImage {0}) s' := by
  have hexec : ((syscall .mkfs 0 (.open (some (bytesOf "/x")) O_RDWR)).run (boot rootImage {0})).returns
      (fun r _ => decide (r = -1)) = true := by decide +kernel
  obtain ⟨r, s', hrun, hr⟩ := Outcome.of_returns hexec
  rw [of_decide_eq_true hr] at hrun
  exact ⟨s', hrun, failed_open_changes_nothing .mkfs rootImage {0} volume_rootImage (by decide)
    (.init rfl) unlinked_rootImage 0 _ _ (fun _ _ h => absurd h (by decide)) hrun⟩

/-- A process that has all its descriptors in use creates a file with an `open`
    that fails. -/
theorem failed_open_creates : ∃ s s',
    LTS.Reachable (atomicSystem .mkfs fun s => s = boot rootImage {0}) s ∧
    (syscall .mkfs 0 (.open (some (bytesOf "/x")) O_CREATE)).run s = .ok (-1) s' ∧
    (dinode .mkfs s.disk 2).type = 0 ∧ (dinode .mkfs s'.disk 2).type = T_FILE := by
  have hexec : ((atomicSystem .mkfs fun s => s = boot rootImage {0}).exec (fun _ _ => true)
      (boot rootImage {0}) (List.replicate NOFILE (0, .open (some (bytesOf "/")) O_RDONLY))).any (fun s =>
        ((syscall .mkfs 0 (.open (some (bytesOf "/x")) O_CREATE)).run s).returns fun r s' =>
          decide (r = -1 ∧ (dinode .mkfs s.disk 2).type = 0 ∧ (dinode .mkfs s'.disk 2).type = T_FILE)) =
      true := by decide +kernel
  obtain ⟨s, hs, hlast⟩ := (Option.any_eq_true _ _).mp hexec
  obtain ⟨r, s', hrun, hlast⟩ := Outcome.of_returns hlast
  obtain ⟨hr, htypes⟩ := of_decide_eq_true hlast
  rw [hr] at hrun
  exact ⟨s, s', (LTS.reachable_of_exec rfl hs).of_restrict, hrun, htypes⟩

end Xv6.Fs
