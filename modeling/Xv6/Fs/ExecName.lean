import Xv6.Fs.ExecFile

/-! # Symbolic execution: names

    The calls that look up, make and remove names: `open`, `link`, `unlink`,
    `mkdir`, `mknod`, `chdir` and the file-system part of `exec`. With the
    calls on open files this covers every system call (`safe_call`).
-/

namespace Xv6.Fs

open Op Prog Function

variable {R : Rules} {sb : Superblock} {p : Pid} {g : Ghost} {ip dp : Slot}
  {π : Option (Slot × Nat × BitVec 16)} {δ : Nat → Nat} {site : Site} {t : BitVec 16}

section

variable (hR : R.Lawful sb)
include hR

/-- Storing new fields of a locked inode: a change of its link count. -/
theorem safe_relink {f : Dinode → Dinode} {x : Snap} {l : Act} {δ : Nat → Nat} {dead : Option Slot}
    (hready : R.strict → LockOrder g l) (hheld : g.held ip = some ⟨site, some x⟩)
    (hsole : g.sole = none) (htype : ∀ d, (f d).type = d.type) (hsize : ∀ d, (f d).size = d.size)
    (haddrs : ∀ d, (f d).addrs = d.addrs) (hδ : Relink g ip x l (f x.d) δ dead) :
    (R.logic sb).Safe p (.atomic l do
      Op.modify fun s => s.setCopy ip f
      iupdate sb ip) g fun _ g' => g' = { g.lockAt ip site (some ⟨x.n, f x.d, x.c⟩) with
        pend := δ, dead := dead } := by
  refine safe_act hR hready fun s G labs hat hcoh hg => ?_
  subst hg
  obtain ⟨hs, hd, hc⟩ := hcoh.synced_of_held hheld
  refine (wp_setFields hs hcoh.vol (hR.logs s) htype hsize haddrs
    fun disk ht hdisk hdata hgrows => ?_).wlp
  rw [hd] at hdisk ⊢
  exact ⟨_, .relink hheld hδ hsole ht hdisk (hdata.trans hc) hgrows, rfl⟩

/-- `iunlockput` of the only inode that is locked, when it is the last thing
    the call does with it. -/
theorem safe_iunlockput_last {x : Option Snap} {dead : Option Slot}
    (hdead : dead = none ∨ dead = some ip) :
    (R.logic sb).Safe p (iunlockput sb p ip .plain)
      { (Ghost.rest (0 + Pi.single ip 1) π δ).lockAt ip site x with dead := dead }
      fun _ g' => g' = .rest 0 none δ := by
  have hun : ({ (Ghost.rest (0 + Pi.single ip 1) π δ).lockAt ip site x with dead := dead }).unlock ip =
      { Ghost.rest (0 + Pi.single ip 1) π δ with dead := dead } := by
    simp only [Ghost.unlock, Ghost.lockAt, Ghost.rest, Ghost.held_again]
  refine (safe_iunlockput hR (r := 0) none none (fun _ => ?_) rfl (Or.inl rfl) ?_ rfl rfl rfl rfl
    (Or.inr rfl) (by simp) none ?_).mono ?_
  · rw [hun]
    exact ⟨fun _ => rfl, rfl⟩
  · simp [Ghost.lockAt]
  · rcases hdead with rfl | rfl <;> simp
  · intro _ g' hg
    rw [hg, hun]
    rfl

/-- The same, with the end of the operation. -/
theorem safe_finish {x : Option Snap} {dead : Option Slot} (hdead : dead = none ∨ dead = some ip)
    (res : Int) :
    (R.logic sb).Safe p (do
      iunlockput sb p ip .plain
      end_op
      pure res : FsProg Int)
      { (Ghost.rest (0 + Pi.single ip 1) π 0).lockAt ip site x with dead := dead }
      fun _ g' => g' = .idle := by
  refine .bind (safe_iunlockput_last hR hdead) ?_
  intro _ g' hg
  subst hg
  refine .bind (safe_end_op hR rfl) ?_
  intro _ g' hg
  exact hg

/-- `ilock` of the inode a path led to; its number and type are remembered. -/
theorem safe_ilock_pin :
    (R.logic sb).Safe p (ilock sb p ip .plain) (.rest (0 + Pi.single ip 1) none δ) fun _ g' =>
      ∃ x : Snap, g' = (Ghost.rest (0 + Pi.single ip 1) (some (ip, x.n, x.d.type)) δ).lockAt ip
        .plain (some x) := by
  have hpos : 0 < (Ghost.rest (0 + Pi.single ip 1) none δ).refs ip := by simp [Ghost.rest]
  have hlock : (R.logic sb).Safe p (ilock sb p ip .plain) (.rest (0 + Pi.single ip 1) none δ) _ :=
    safe_ilock hR true (fun _ => ⟨fun _ => rfl, rfl⟩) (Or.inl hpos) rfl rfl fun _ => hpos
  apply hlock.mono
  intro _ g' hx
  obtain ⟨x, _, rfl⟩ := hx
  exact ⟨x, rfl⟩

/-! ## `exec` and `chdir` -/

theorem safe_exec_reads (ho : g.Open) (href : g.Reaches ip) (con : Option (List Byte))
    (reads : List (BitVec 32 × BitVec 32)) {x : Snap} :
    (R.logic sb).Safe p (exec_reads sb p con ip reads) (g.lockAt ip .plain (some x)) fun _ g' =>
      ∃ x', g' = g.lockAt ip .plain (some x') := by
  induction reads generalizing x with
  | nil => exact ⟨x, rfl⟩
  | cons r reads ih =>
    refine .bind (safe_readi hR ho href con r.1 r.2) ?_
    intro _ g' hx
    obtain ⟨x', rfl⟩ := hx
    exact ih

theorem safe_sys_exec (path : Option Name) (reads : List (BitVec 32 × BitVec 32))
    (con : Option (List Byte)) :
    (R.logic sb).Safe p (sys_exec sb p path reads con) .idle fun _ g' => g' = .idle := by
  unfold sys_exec
  cases path with
  | none => exact rfl
  | some path =>
    refine .bind (safe_begin_op hR rfl) ?_
    intro _ g' hg
    subst hg
    refine .bind (safe_namei hR path (r := 0) (π := none) (δ := 0) (by simp)) ?_
    intro res g' hres
    match res, hres with
    | none, hg =>
      subst hg
      refine .bind (safe_end_op hR rfl) ?_
      intro _ g' hg
      exact hg
    | some ip, hg =>
      subst hg
      refine .bind (safe_ilock hR false (fun _ => ⟨fun _ => rfl, rfl⟩)
        (Or.inl (by simp [Ghost.rest])) rfl rfl (by simp)) ?_
      intro _ g' hx
      obtain ⟨x, _, rfl⟩ := hx
      refine .bind (safe_exec_reads hR (Ghost.open_rest (0 + Pi.single ip 1) none 0)
        (Or.inl (by simp [Ghost.rest])) con reads) ?_
      intro _ g' hx
      obtain ⟨x', rfl⟩ := hx
      exact safe_finish hR (Or.inl rfl) 0

theorem safe_sys_chdir (path : Option Name) :
    (R.logic sb).Safe p (sys_chdir sb p path) .idle fun _ g' => g' = .idle := by
  unfold sys_chdir
  refine .bind (safe_begin_op hR rfl) ?_
  intro _ g' hg
  subst hg
  cases path with
  | none =>
    refine .bind (safe_end_op hR rfl) ?_
    intro _ g' hg
    exact hg
  | some path =>
    refine .bind (safe_namei hR path (r := 0) (π := none) (δ := 0) (by simp)) ?_
    intro res g' hres
    match res, hres with
    | none, hg =>
      subst hg
      refine .bind (safe_end_op hR rfl) ?_
      intro _ g' hg
      exact hg
    | some ip, hg =>
      subst hg
      refine .bind (safe_ilock_pin hR) ?_
      intro _ g' hx
      obtain ⟨x, rfl⟩ := hx
      refine .bind (safe_inode hR rfl (Ghost.held_lockAt _ _ _ _)) ?_
      intro ino g' hino
      obtain ⟨rfl, hd, _⟩ := hino
      by_cases htype : ino.type ≠ T_DIR
      · rw [if_pos htype]
        exact safe_finish hR (Or.inl rfl) (-1)
      · rw [if_neg htype]
        have hdir : x.d.type = T_DIR := by rw [← hd]; exact not_not.mp htype
        refine .bind (safe_iunlock hR none none rfl (by simp [Ghost.lockAt])
          (Or.inl rfl) (Or.inl rfl) rfl) ?_
        intro _ g' hg
        rw [Ghost.unlock_lockAt rfl] at hg
        subst hg
        -- the old directory becomes a reference of the call
        refine .bind (Q := fun old g' => g'.window = none ∧ ∀ i, old = some i → g' =
          { Ghost.rest (0 + Pi.single ip 1 + Pi.single i 1) (some (ip, x.n, x.d.type)) 0 with
            moved := true }) (safe_act hR (fun _ => rfl) fun s G labs hat _ hg => ?_) ?_
        · simp only [wlp_bind, wlp_get, wlp_pure]
          cases hcwd : (s.proc p).cwd with
          | none =>
            have ha := Alike.refl s
            exact ⟨{ G p with use := (G p).use },
              .quiet ha.disk ha.icache ha.proc ha.file (Or.inl rfl), by rw [hg], by simp⟩
          | some i =>
            have hm : (G p).moved = false := by rw [hg]; rfl
            refine ⟨_, .takeCwd hcwd hm (hR.cwd_fresh (hg ▸ hat) hcwd hm), by rw [hg]; rfl,
              fun j hj => ?_⟩
            obtain rfl := Option.some.inj hj
            rw [hg]
            rfl
        · intro old g' hold
          obtain ⟨hwin, hold⟩ := hold
          unfold iput_cwd
          cases old with
          | none =>
            refine .bind (Q := fun _ _ => False) ?_ fun _ _ h => h.elim
            exact safe_panic hR hwin (by decide) (by decide)
          | some i =>
            rw [hold i rfl]
            refine .bind (safe_iput hR (r := 0 + Pi.single ip 1)
              (some (ip, x.n, x.d.type)) (fun _ => ⟨fun _ => rfl, rfl⟩) rfl rfl rfl rfl rfl
              (Or.inl rfl) (fun t ht => ?_) (Or.inl rfl)) ?_
            · simp only [Option.some.injEq, Prod.mk.injEq] at ht
              rw [← ht.1]
              simp
            · intro _ g' hg
              subst hg
              refine .bind (safe_end_op hR rfl) ?_
              intro _ g' hg
              subst hg
              refine .bind (Q := fun _ g' => g' = .idle)
                (safe_act hR (fun _ => rfl) fun s G labs hat _ hg => ?_) ?_
              · refine ⟨_, .setCwd (i := ip) (n := x.n) (t := x.d.type) (r := 0) (by rw [hg]) hdir
                  (by rw [hg]) (by rw [hg]) (by rw [hg]; exact fun _ => rfl) (by rw [hg])
                  (by rw [hg]; rfl), ?_⟩
                rw [hg]
                rfl
              · intro _ g' hg
                exact hg

/-! ## `link` -/

/-- The exit of `sys_link` that takes the link back. -/
theorem safe_sys_link_bad {n : Nat} :
    (R.logic sb).Safe p (sys_link_bad sb p ip)
      (.rest (0 + Pi.single ip 1) (some (ip, n, t)) (Pi.single n 1)) fun _ g' => g' = .idle := by
  unfold sys_link_bad
  refine .bind (safe_ilock hR false (fun _ => ⟨fun _ => rfl, rfl⟩)
    (Or.inl (by simp [Ghost.rest])) rfl rfl (by simp)) ?_
  intro _ g' hx
  obtain ⟨x, hlocked, rfl⟩ := hx
  obtain rfl : x.n = n := hlocked.number n (Or.inr (Or.inl ⟨t, rfl⟩))
  refine .bind (safe_relink hR (f := fun d => { d with nlink := d.nlink - 1 })
    (fun _ => rfl) (Ghost.held_lockAt _ ip .plain (some x)) rfl (fun _ => rfl) (fun _ => rfl)
    (fun _ => rfl) (.down (zero_add _).symm (Or.inr rfl))) ?_
  intro _ g' hg
  -- the link is taken back, so the count fits the entries again
  have hstate : g' = { (Ghost.rest (0 + Pi.single ip 1) (some (ip, x.n, t)) 0).lockAt ip .plain
      (some ⟨x.n, { x.d with nlink := x.d.nlink - 1 }, x.c⟩) with dead := some ip } := by
    rw [hg]
    simp [Ghost.lockAt, Ghost.rest, pinned]
  rw [hstate]
  exact safe_finish hR (Or.inr rfl) (-1)

/-- The end of `sys_link`. -/
theorem safe_sys_link_done {n : Nat} {x : Option Snap} (linked : Bool) :
    (R.logic sb).Safe p (sys_link_done sb p ip dp linked)
      ((Ghost.rest (0 + Pi.single ip 1 + Pi.single dp 1) (some (ip, n, t))
        (if linked then 0 else Pi.single n 1)).lockAt dp site x) fun _ g' => g' = .idle := by
  have hkeep : ∀ (i : Slot) (t' : Nat × BitVec 16), some (ip, n, t) = some (i, t') →
      0 < (0 + Pi.single ip 1 : Slot → Nat) i := by
    intro i t' heq
    simp only [Option.some.injEq, Prod.mk.injEq] at heq
    rw [← heq.1]
    simp
  unfold sys_link_done
  cases linked with
  | true =>
    refine .bind (safe_iunlockput_rest hR rfl hkeep) ?_
    intro _ g' hg
    subst hg
    refine .bind (safe_iput hR (r := 0) none (fun _ => ⟨fun _ => rfl, rfl⟩) rfl rfl rfl rfl
      rfl (Or.inr rfl) (by simp) (Or.inl rfl)) ?_
    intro _ g' hg
    subst hg
    refine .bind (safe_end_op hR rfl) ?_
    intro _ g' hg
    exact hg
  | false =>
    refine .bind (safe_iunlockput_rest hR rfl hkeep) ?_
    intro _ g' hg
    subst hg
    exact safe_sys_link_bad hR

theorem safe_sys_link (old new : Option Name)
    (hnew : R.strict → ∀ path name, new = some path → LastElem path name → ¬ IsDot name) :
    (R.logic sb).Safe p (sys_link sb p old new) .idle fun _ g' => g' = .idle := by
  unfold sys_link
  rcases old with _ | old
  · exact rfl
  rcases new with _ | new
  · exact rfl
  · refine .bind (safe_begin_op hR rfl) ?_
    intro _ g' hg
    subst hg
    refine .bind (safe_namei hR old (r := 0) (π := none) (δ := 0) (by simp)) ?_
    intro res g' hres
    rcases res with _ | ip
    · obtain rfl := hres
      refine .bind (safe_end_op hR rfl) ?_
      intro _ g' hg
      exact hg
    · obtain rfl := hres
      refine .bind (safe_ilock_pin hR) ?_
      intro _ g' hx
      obtain ⟨x, rfl⟩ := hx
      refine .bind (safe_inode hR rfl (Ghost.held_lockAt _ _ _ _)) ?_
      intro ino g' hino
      obtain ⟨rfl, hd, hinum, hdev⟩ := hino
      by_cases htype : ino.type = T_DIR
      · rw [if_pos htype]
        exact safe_finish hR (Or.inl rfl) (-1)
      · rw [if_neg htype]
        have hdir : x.d.type ≠ T_DIR := by rw [← hd]; exact htype
        refine .bind (safe_relink hR (f := fun d => { d with nlink := d.nlink + 1 })
          (fun _ => rfl) (Ghost.held_lockAt _ ip .plain (some x)) rfl (fun _ => rfl) (fun _ => rfl)
          (fun _ => rfl) .up) ?_
        intro _ g' hg
        have hstate : g' = (Ghost.rest (0 + Pi.single ip 1) (some (ip, x.n, x.d.type))
            (Pi.single x.n 1)).lockAt ip .plain
            (some ⟨x.n, { x.d with nlink := x.d.nlink + 1 }, x.c⟩) := by
          rw [hg]
          simp [Ghost.lockAt, Ghost.rest]
        rw [hstate]
        refine .bind (safe_iunlock hR none none rfl (by simp [Ghost.lockAt])
          (Or.inl rfl) (Or.inl rfl) rfl) ?_
        intro _ g' hg
        rw [Ghost.unlock_lockAt rfl] at hg
        subst hg
        have hkeep : ∀ (i : Slot) (t : Nat × BitVec 16), some (ip, x.n, x.d.type) = some (i, t) →
            0 < (0 + Pi.single ip 1 : Slot → Nat) i := by
          intro i t heq
          simp only [Option.some.injEq, Prod.mk.injEq] at heq
          rw [← heq.1]
          simp
        refine .bind (safe_namex hR new true hkeep) ?_
        intro res g' hres
        rcases res with _ | ⟨dp, name⟩
        · obtain rfl := hres
          exact safe_sys_link_bad hR
        · obtain ⟨rfl, hlast⟩ := hres
          refine .bind (safe_ilock hR false (fun _ => ⟨fun _ => rfl, rfl⟩)
            (Or.inl (by simp [Ghost.rest])) rfl rfl (by simp)) ?_
          intro _ g' hy
          obtain ⟨y, _, rfl⟩ := hy
          refine .bind (safe_inode hR rfl (Ghost.held_lockAt _ _ _ _)) ?_
          intro dino g' hdino
          obtain ⟨rfl, _, _, hddev⟩ := hdino
          rw [if_neg (by rw [hdev, hddev]; simp), hinum]
          refine .bind (safe_dirlink hR 0 rfl
            (Ghost.held_lockAt _ dp .parent (some y)) ⟨ip, Or.inr (Or.inl ⟨x.d.type, rfl⟩)⟩
            (.file rfl hdir (zero_add _).symm)
            (fun hs => hnew hs new name rfl (hlast rfl)) (fun j hj => ?_)
            (by simp [Ghost.lockAt, Ghost.rest]) rfl rfl rfl rfl rfl rfl (fun i t ht => ?_)) ?_
          · by_contra hne
            exact hj (by simp [Ghost.lockAt, Ghost.rest, hne])
          · exact Nat.lt_of_lt_of_le (hkeep i t ht) (Nat.le_add_right _ _)
          · intro b g' hb
            rcases hb with ⟨rfl, k, d, _, _, hg⟩ | ⟨rfl, hg, _⟩
            · have hstate : g' = (Ghost.rest (0 + Pi.single ip 1 + Pi.single dp 1)
                  (some (ip, x.n, x.d.type)) (if true then 0 else Pi.single x.n 1)).lockAt dp .parent
                  (some ⟨y.n, d, splice y.c (DIRENT * k) (direntBytes name x.n)⟩) := by
                rw [hg]
                simp [Ghost.lockAt, Ghost.rest, pinned]
              rw [hstate]
              exact safe_sys_link_done hR true
            · rw [hg]
              exact safe_sys_link_done hR (x := some y) false

end

/-! ## `unlink` -/

/-- The ghost state while a directory `dp` and an inode `ip` below it, number
    `n`, are locked. -/
def Ghost.both (dp : Slot) (x : Snap) (ip : Slot) (y : Snap) (n : Nat)
    (π : Option (Slot × Nat × BitVec 16)) (δ : Nat → Nat) (dead : Option Slot)
    (making : Option Nat) : Ghost :=
  { ((Ghost.rest (0 + Pi.single dp 1 + Pi.single ip 1) π δ).lockAt dp .parent (some x)).lockAt ip
      .child (some y) with
    order := some (dp, ip, n)
    dead := dead
    making := making }

section

variable {x y : Snap} {n : Nat} {dead : Option Slot} {making : Option Nat}

theorem Ghost.both_child :
    (Ghost.both dp x ip y n π δ dead making).held ip = some ⟨.child, some y⟩ := by
  simp [Ghost.both, Ghost.lockAt]

theorem Ghost.both_parent (hne : dp ≠ ip) :
    (Ghost.both dp x ip y n π δ dead making).held dp = some ⟨.parent, some x⟩ := by
  simp [Ghost.both, Ghost.lockAt, hne]

theorem Ghost.both_lockAt_child (y' : Snap) (δ' : Nat → Nat) (dead' : Option Slot)
    (making' : Option Nat) :
    { (Ghost.both dp x ip y n π δ dead making).lockAt ip .child (some y') with
      pend := δ', dead := dead', making := making' } =
      Ghost.both dp x ip y' n π δ' dead' making' := by
  simp [Ghost.both, Ghost.lockAt, Ghost.rest]

theorem Ghost.both_lockAt_parent (hne : dp ≠ ip) (x' : Snap) (δ' : Nat → Nat)
    (dead' : Option Slot) (making' : Option Nat) :
    { (Ghost.both dp x ip y n π δ dead making).lockAt dp .parent (some x') with
      pend := δ', dead := dead', making := making' } =
      Ghost.both dp x' ip y n π δ' dead' making' := by
  simp only [Ghost.both, Ghost.lockAt, Ghost.rest, Ghost.mk.injEq, true_and, and_true]
  rw [update_comm hne, update_idem]
  exact update_comm hne.symm _ _ _

/-- The inode below is put first. -/
theorem safe_put_child (hR : R.Lawful sb) (hne : dp ≠ ip) :
    (R.logic sb).Safe p (iunlockput sb p ip .child) (Ghost.both dp x ip y n none δ none none)
      fun _ g' => g' = (Ghost.rest (0 + Pi.single dp 1) none δ).lockAt dp .parent (some x) := by
  have hun : ((Ghost.both dp x ip y n none δ none none).unlock ip).held =
      ((Ghost.rest (0 + Pi.single dp 1) none δ).lockAt dp .parent (some x)).held := by
    funext j
    by_cases hj : j = ip
    · subst hj
      simp [Ghost.unlock, Ghost.lockAt, Ghost.rest, hne.symm]
    · simp [Ghost.unlock, Ghost.both, Ghost.lockAt, Ghost.rest, hj]
  refine (safe_iunlockput hR (r := 0 + Pi.single dp 1) none none (fun _ => ?_) rfl (Or.inl rfl)
    (by rw [Ghost.both_child]; simp) rfl rfl rfl rfl (Or.inl rfl) (by simp) none
    (by simp [Ghost.both])).mono ?_
  · refine ⟨⟨dp, n, some x, rfl, ?_, fun j hj => ?_⟩, rfl⟩
    · show ((Ghost.both dp x ip y n none δ none none).unlock ip).held dp = _
      rw [hun]
      exact Ghost.held_lockAt _ _ _ _
    · replace hj : ((Ghost.both dp x ip y n none δ none none).unlock ip).held j ≠ none := hj
      rw [hun] at hj
      by_contra hjd
      exact hj (by simp [Ghost.lockAt, Ghost.rest, hjd])
  · intro _ g' hg
    rw [hg]
    show (⟨_, _, ((Ghost.both dp x ip y n none δ none none).unlock ip).held, _, _, _, _, _, _, _, _,
      _, _, _, _⟩ : Ghost) = _
    rw [hun]
    rfl

/-- The directory is put while the inode below is locked. -/
theorem safe_put_parent (hR : R.Lawful sb) (hne : dp ≠ ip)
    (hkeep : ∀ t, π = some (dp, t) → False) (hdead : dead ≠ some dp) :
    (R.logic sb).Safe p (iunlockput sb p dp .window) (Ghost.both dp x ip y n π δ dead none)
      fun _ g' => g' =
        { (Ghost.rest (0 + Pi.single ip 1) π δ).lockAt ip .child (some y) with dead := dead } := by
  have hun : ((Ghost.both dp x ip y n π δ dead none).unlock dp).held =
      ((Ghost.rest (0 + Pi.single ip 1) π δ).lockAt ip .child (some y)).held := by
    funext j
    by_cases hj : j = dp
    · subst hj
      simp [Ghost.unlock, Ghost.lockAt, Ghost.rest, hne]
    · simp [Ghost.unlock, Ghost.both, Ghost.lockAt, Ghost.rest, hj, update_apply]
  refine (safe_iunlockput hR (r := 0 + Pi.single ip 1) π (some dp) (fun _ => ?_) rfl (Or.inr rfl)
    (by rw [Ghost.both_parent hne]; simp) (add_right_comm _ _ _) rfl rfl rfl (Or.inl rfl)
    (fun t ht => (hkeep t ht).elim) dead (if_neg hdead).symm).mono ?_
  · refine ⟨⟨ip, n, some y, rfl, ?_, fun j hj => ?_⟩, rfl⟩
    · show ((Ghost.both dp x ip y n π δ dead none).unlock dp).held ip = _
      rw [hun]
      exact Ghost.held_lockAt _ _ _ _
    · replace hj : ((Ghost.both dp x ip y n π δ dead none).unlock dp).held j ≠ none := hj
      rw [hun] at hj
      by_contra hji
      exact hj (by simp [Ghost.lockAt, Ghost.rest, hji])
  · intro _ g' hg
    rw [hg]
    show (⟨_, _, ((Ghost.both dp x ip y n π δ dead none).unlock dp).held, _, _, _, _, _, _, _, _, _,
      _, _, _⟩ : Ghost) = _
    rw [hun]
    rfl

end

theorem safe_sys_unlink_bad (hR : R.Lawful sb) {x : Option Snap} :
    (R.logic sb).Safe p (sys_unlink_bad sb p dp)
      ((Ghost.rest (0 + Pi.single dp 1) none 0).lockAt dp site x) fun _ g' => g' = .idle :=
  safe_finish hR (Or.inl rfl) (-1)

/-- The directory gives up the link of the ".." that is gone. -/
theorem safe_sys_unlink_parent (hR : R.Lawful sb) (hne : dp ≠ ip) {x y : Snap} {n : Nat} :
    (R.logic sb).Safe p (sys_unlink_parent sb dp (decide (y.d.type = T_DIR)))
      (Ghost.both dp x ip y n none
        (Pi.single y.n 1 + if y.d.type = T_DIR then Pi.single x.n 1 else 0) (some ip) none)
      fun _ g' => ∃ x', g' = Ghost.both dp x' ip y n none (Pi.single y.n 1) (some ip) none := by
  unfold sys_unlink_parent
  by_cases hdir : y.d.type = T_DIR
  · rw [if_pos (by simpa using hdir), if_pos hdir]
    refine (safe_relink hR (f := fun d => { d with nlink := d.nlink - 1 }) (l := .other)
      (fun _ => by rfl) (Ghost.both_parent hne) rfl (fun _ => rfl) (fun _ => rfl) (fun _ => rfl)
      (.down rfl (Or.inl rfl))).mono ?_
    intro _ g' hg
    refine ⟨⟨x.n, { x.d with nlink := x.d.nlink - 1 }, x.c⟩, ?_⟩
    rw [hg]
    exact Ghost.both_lockAt_parent hne _ _ _ _
  · rw [if_neg (by simpa using hdir), if_neg hdir, add_zero]
    exact ⟨x, rfl⟩

/-- The last part of `sys_unlink`: the inode loses its link. -/
theorem safe_sys_unlink_last (hR : R.Lawful sb) {y : Snap} :
    (R.logic sb).Safe p (do
      step do
        Op.modify fun s => s.setCopy ip fun d => { d with nlink := d.nlink - 1 }
        iupdate sb ip
      iunlockput sb p ip .plain
      end_op
      pure 0 : FsProg Int)
      { (Ghost.rest (0 + Pi.single ip 1) none (Pi.single y.n 1)).lockAt ip .child (some y) with
        dead := some ip }
      fun _ g' => g' = .idle := by
  refine .bind (safe_relink hR (f := fun d => { d with nlink := d.nlink - 1 })
    (fun _ => rfl) (Ghost.held_lockAt (Ghost.rest _ none _) ip .child (some y)) rfl (fun _ => rfl)
    (fun _ => rfl) (fun _ => rfl) (.down (zero_add _).symm (Or.inr rfl))) ?_
  intro _ g' hg
  have hstate : g' = { (Ghost.rest (0 + Pi.single ip 1) none 0).lockAt ip .child
      (some ⟨y.n, { y.d with nlink := y.d.nlink - 1 }, y.c⟩) with dead := some ip } := by
    rw [hg]
    simp [Ghost.lockAt, Ghost.rest]
  rw [hstate]
  exact safe_finish hR (Or.inr rfl) 0

theorem safe_sys_unlink (hR : R.Lawful sb) (path : Option Name) :
    (R.logic sb).Safe p (sys_unlink sb p path) .idle fun _ g' => g' = .idle := by
  unfold sys_unlink
  cases path with
  | none => exact rfl
  | some path =>
    refine .bind (safe_begin_op hR rfl) ?_
    intro _ g' hg
    subst hg
    refine .bind (safe_namex hR path true (r := 0) (π := none) (δ := 0) (by simp)) ?_
    intro res g' hres
    rcases res with _ | ⟨dp, name⟩
    · obtain rfl := hres
      refine .bind (safe_end_op hR rfl) ?_
      intro _ g' hg
      exact hg
    · obtain ⟨rfl, _⟩ := hres
      refine .bind (safe_ilock hR false (fun _ => ⟨fun _ => rfl, rfl⟩)
        (Or.inl (by simp [Ghost.rest])) rfl rfl (by simp)) ?_
      intro _ g' hx
      obtain ⟨x, _, rfl⟩ := hx
      by_cases hdot : namecmp name (bytesOf ".") = 0 ∨ namecmp name (bytesOf "..") = 0
      · rw [if_pos hdot]
        exact safe_sys_unlink_bad hR
      · rw [if_neg hdot]
        refine .bind (safe_dirlookup hR true rfl (Ghost.held_lockAt _ _ _ _)
          (fun _ => ⟨by simp [Ghost.lockAt, Ghost.rest], hdot⟩) fun _ => ⟨rfl, rfl⟩) ?_
        intro res g' hlook
        rcases res with _ | ⟨ip, off⟩
        · obtain ⟨rfl, _⟩ := hlook
          exact safe_sys_unlink_bad hR
        · obtain ⟨hdir, n, k, rfl, hfound, rfl⟩ := hlook
          refine .bind (safe_ilock hR false (fun _ => ?_)
            (Or.inl (by simp [Ghost.lockAt, Ghost.rest, Ghost.addRef])) rfl rfl (by simp)) ?_
          · refine ⟨⟨dp, n, some x, rfl, Ghost.held_lockAt _ _ _ _, fun j hj => ?_⟩, rfl⟩
            by_contra hne
            exact hj (by simp [Ghost.addRef, Ghost.lockAt, Ghost.rest, hne])
          intro _ g' hy
          obtain ⟨y, hlocked, rfl⟩ := hy
          have hne : dp ≠ ip := by
            rintro rfl
            exact absurd hlocked.free (by simp [Ghost.addRef, Ghost.lockAt])
          have hn : y.n = n := hlocked.number n (Or.inr (Or.inr ⟨dp, rfl⟩))
          subst hn
          show (R.logic sb).Safe p _ (Ghost.both dp x ip y y.n none 0 none none) _
          refine .bind (safe_inode hR rfl Ghost.both_child) ?_
          intro ino g' hino
          obtain ⟨rfl, hd, _⟩ := hino
          -- is it a directory with entries?
          refine .bind (Q := fun b g' => g' = Ghost.both dp x ip y y.n none 0 none none ∧
            (b = true → y.d.type = T_DIR → EmptyDir y.c)) (safe_quiet hR rfl fun s G labs hat => ?_) ?_
          · have hcoh := coh_of_at hat
            obtain ⟨hs, _, hc⟩ := hcoh.synced_of_held
              (show (G p).held ip = _ by rw [hat.self]; exact Ghost.both_child)
            split
            · exact hR.benign _ (by decide) (by decide)
            · split
              · refine (wp_isdirempty hs hcoh.vol.image (fun _ => hR.benign _ (by decide) (by decide))
                  fun b hb => ?_).wlp
                rw [hc] at hb
                exact ⟨.refl s, rfl, fun h _ => hb h⟩
              · next htype =>
                refine ⟨.refl s, rfl, fun _ h => absurd ?_ htype⟩
                rw [hd]
                exact h
          · intro b g' hb
            obtain ⟨rfl, hempty⟩ := hb
            by_cases hb : b = false
            · rw [if_pos hb]
              refine .bind (safe_put_child hR hne) ?_
              intro _ g' hg
              subst hg
              exact safe_sys_unlink_bad hR
            · rw [if_neg hb]
              rw [Bool.not_eq_false] at hb
              refine .bind (Q := fun _ g' => ∃ x', x'.n = x.n ∧ g' = Ghost.both dp x' ip y
                y.n none (Pi.single y.n 1 + if y.d.type = T_DIR then Pi.single x.n 1 else 0)
                (some ip) none) (safe_act hR (fun _ => rfl) fun s G labs hat hcoh hg => ?_) ?_
              · have hpar : (G p).held dp = some ⟨.parent, some x⟩ := by
                  rw [hg]; exact Ghost.both_parent hne
                have hch : (G p).held ip = some ⟨.child, some y⟩ := by
                  rw [hg]; exact Ghost.both_child
                obtain ⟨hs, hdd, hc⟩ := hcoh.synced_of_held hpar
                refine (wp_erase_dirent hs hcoh.vol (hR.logs s) (by rw [hdd]; exact hdir)
                  (by rw [hc]; exact hfound.has) fun disk d hrw => ?_).wlp
                rw [hc] at hrw
                refine ⟨_, .erase hpar hdir hch hne hdot hfound rfl (by rw [hg]; rfl) (hempty hb) hrw,
                  ⟨x.n, d, splice x.c (DIRENT * k) noEntry⟩, rfl, ?_⟩
                rw [hg]
                refine (Ghost.both_lockAt_parent hne _ _ _ _).trans ?_
                rw [show (Ghost.both dp x ip y y.n none 0 none none).pend = 0 from rfl, zero_add]
                rfl
              · intro _ g' hx'
                obtain ⟨x', hxn, rfl⟩ := hx'
                rw [show ino.type = y.d.type by rw [← hd], ← hxn]
                refine .bind (safe_sys_unlink_parent hR hne) ?_
                intro _ g' hx'
                obtain ⟨x'', rfl⟩ := hx'
                refine .bind (safe_put_parent hR hne (by simp) (by simpa using hne.symm)) ?_
                intro _ g' hg
                subst hg
                exact safe_sys_unlink_last hR

end Xv6.Fs
