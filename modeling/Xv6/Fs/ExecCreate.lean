import Xv6.Fs.ExecName

/-! # Symbolic execution: new inodes

    `create`, and the calls that use it: `open`, `mkdir` and `mknod`. At the
    end, every system call leads from the idle ghost state back to it.
-/

namespace Xv6.Fs

open Op Prog

variable {R : Rules} {sb : Superblock} {p : Pid} {g : Ghost} {ip dp : Slot}
  {π : Option (Slot × Nat × BitVec 16)} {δ : Nat → Nat} {name : Name}

/-! ## The first entries of a directory -/

/-- The name in an entry, padded with NULs. -/
theorem direntName_direntBytes (name : Name) (n : Nat) :
    direntName (direntBytes name n) =
      (List.range DIRSIZ).map fun i => (name.take DIRSIZ).getD i 0 := by
  unfold direntName direntBytes
  rw [show DIRENT = 2 + DIRSIZ from rfl, List.range_add, List.map_append,
    List.drop_left' (by simp), List.map_map]
  refine List.map_congr_left fun i _ => ?_
  show dirent name n (2 + i) = _
  unfold dirent
  rw [if_neg (by omega), if_neg (by omega), Nat.add_sub_cancel_left]

/-- A directory that has one entry only. -/
theorem absent_of_single {e : List Byte} (he : e.length = DIRENT)
    (hne : namecmp name (direntName e) ≠ 0) : Absent (splice [] (DIRENT * 0) e) name := by
  have hlen := length_splice_entry (c := []) (k := 0) he (by simp)
  intro k hk _
  unfold HasEntry at hk
  rw [hlen] at hk
  obtain rfl : k = 0 := by
    simp only [DIRENT, List.length_nil] at hk
    omega
  rw [entry_splice_self he (by simp)]
  exact hne

theorem absent_nil (name : Name) : Absent [] name := by
  intro k hk
  unfold HasEntry at hk
  simp at hk

theorem emptyAt_nil {k : Nat} (h : EmptyAt [] k) : k = 0 := by
  have := h.le
  simp only [DIRENT, List.length_nil] at this
  omega

/-- The first entry of a directory. -/
theorem splice_nil (e : List Byte) : splice [] (DIRENT * 0) e = e := by
  simp [splice]

/-- The entry after a "." that is in use. -/
theorem emptyAt_dot {n k : Nat} (hpos : 0 < n) (hlt : n < 65536)
    (h : EmptyAt (direntBytes (bytesOf ".") n) k) : k = 1 := by
  have hlen := length_direntBytes (bytesOf ".") n
  rcases h with ⟨hhas, hzero⟩ | hk
  · -- the only entry is "." itself
    unfold HasEntry at hhas
    obtain rfl : k = 0 := by
      simp only [DIRENT] at *
      omega
    have hself : entry (direntBytes (bytesOf ".") n) 0 = direntBytes (bytesOf ".") n := by
      unfold entry
      rw [Nat.mul_zero, List.drop_zero, List.take_of_length_le hlen.le]
    rw [hself, direntInum_direntBytes] at hzero
    omega
  · simp only [DIRENT] at *
    omega

theorem splice_dot (n m : Nat) :
    splice (direntBytes (bytesOf ".") n) (DIRENT * 1) (direntBytes (bytesOf "..") m) = dots n m := by
  have hlen := length_direntBytes (bytesOf ".") n
  unfold splice dots
  rw [Nat.mul_one, List.take_of_length_le hlen.le, List.drop_of_length_le (by rw [hlen]; omega),
    List.append_nil]

/-! ## `create` -/

variable {x y : Snap} {n : Nat} {t : BitVec 16} {dead : Option Slot} {making : Option Nat}

theorem Ghost.both_numbers (hn : y.n = n) : (Ghost.both dp x ip y n π δ dead making).Numbers ip n :=
  Or.inl ⟨.child, y, Ghost.both_child, hn⟩

/-- A new entry in the inode below. -/
theorem safe_dirlink_child (hR : R.Lawful sb) {m : Nat} (habs : Absent y.c name)
    (hnum : ∃ i, (Ghost.both dp x ip y n π δ dead making).Numbers i m)
    (hfor : LinkFor (Ghost.both dp x ip y n π δ dead making) ip y name m δ making) :
    (R.logic sb).Safe p (dirlink sb p ip name m) (Ghost.both dp x ip y n π δ dead making)
      fun b g' => b = true ∧ ∃ k d, EmptyAt y.c k ∧ d.type = T_DIR ∧ g' =
        Ghost.both dp x ip ⟨y.n, d, splice y.c (DIRENT * k) (direntBytes name m)⟩ n π δ dead
          making := by
  refine (safe_dirlink_absent hR δ making rfl Ghost.both_child habs hnum rfl hfor).mono ?_
  intro b g' hb
  obtain ⟨rfl, k, d, hk, hd, rfl⟩ := hb
  exact ⟨rfl, k, d, hk, hd, Ghost.both_lockAt_child _ _ _ _⟩

/-- The entries "." and ".." of a new directory. -/
theorem safe_create_dots (hR : R.Lawful sb) (hne : dp ≠ ip) (hn : y.n = n) (hc : y.c = [])
    (ht : y.d.type = t) (hpos : 0 < n) :
    (R.logic sb).Safe p (create_dots sb p dp ip n (decide (t = T_DIR)))
      (Ghost.both dp x ip y n π δ none (some n)) fun _ g' => ∃ x' y', x'.n = x.n ∧ x'.c = x.c ∧
        y'.n = n ∧ y'.d.type = t ∧ (t = T_DIR → n < 65536 → y'.c = dots n x.n) ∧
        g' = Ghost.both dp x' ip y' n π (δ + if t = T_DIR then Pi.single x.n 1 else 0) none
          (some n) := by
  unfold create_dots
  by_cases hdir : t = T_DIR
  · rw [if_pos (by simpa using hdir), if_pos hdir]
    -- the new ".." counts before it is written
    refine .bind (safe_relink hR (f := fun d => { d with nlink := d.nlink + 1 })
      (fun _ => rfl) (Ghost.both_parent hne) rfl (fun _ => rfl) (fun _ => rfl) (fun _ => rfl) .up) ?_
    intro _ g' hg
    have hstate : g' = Ghost.both dp ⟨x.n, { x.d with nlink := x.d.nlink + 1 }, x.c⟩ ip y n π
        (δ + Pi.single x.n 1) none (some n) := hg.trans (Ghost.both_lockAt_parent hne _ _ _ _)
    rw [hstate]
    refine .bind (safe_inode hR rfl (Ghost.both_parent hne)) ?_
    intro dino g' hdino
    obtain ⟨rfl, _, hinum, _⟩ := hdino
    refine .bind (safe_dirlink_child hR (by rw [hc]; exact absent_nil _)
      ⟨ip, Ghost.both_numbers hn⟩ (.dot (by rw [hn]; rfl) hc rfl hn.symm)) ?_
    intro b g' hb
    obtain ⟨rfl, k, d, hk, hd, rfl⟩ := hb
    rw [hc] at hk
    obtain rfl := emptyAt_nil hk
    show (R.logic sb).Safe p (do
      let dotdot ← dirlink sb p ip (bytesOf "..") dino.inum
      demand dotdot "create dots") _ _
    rw [hinum, hc, splice_nil, hn]
    have habs : Absent (direntBytes (bytesOf ".") n) (bytesOf "..") := by
      rw [← splice_nil (direntBytes _ n)]
      refine absent_of_single (length_direntBytes _ _) ?_
      rw [direntName_direntBytes]
      decide
    refine .bind (safe_dirlink_child hR habs
      ⟨dp, Or.inl ⟨.parent, _, Ghost.both_parent hne, rfl⟩⟩
      (.dotdot rfl rfl rfl (Ghost.both_parent hne) rfl)) ?_
    intro b g' hb
    obtain ⟨rfl, k', d', hk', hd', rfl⟩ := hb
    refine ⟨⟨x.n, { x.d with nlink := x.d.nlink + 1 }, x.c⟩,
      ⟨n, d', splice (direntBytes (bytesOf ".") n) (DIRENT * k') (direntBytes (bytesOf "..") x.n)⟩,
      rfl, rfl, rfl, hd'.trans hdir.symm, fun _ hlt => ?_, rfl⟩
    obtain rfl := emptyAt_dot hpos hlt hk'
    exact splice_dot n x.n
  · rw [if_neg (by simpa using hdir), if_neg hdir, add_zero]
    exact ⟨x, y, rfl, rfl, hn, ht, fun h => absurd h hdir, rfl⟩

/-- The inode `ip` is referred to and locked, and its number and type are known. -/
def Ghost.got (ip : Slot) (site : Site) (y : Snap) : Ghost :=
  (Ghost.rest (0 + Pi.single ip 1) (some (ip, y.n, y.d.type)) 0).lockAt ip site (some y)

theorem safe_create_new (hR : R.Lawful sb) {major minor : BitVec 16} (ht : t ≠ 0)
    (hdir : x.d.type = T_DIR) (habs : Absent x.c name) :
    (R.logic sb).Safe p (create_new sb p dp name t major minor)
      ((Ghost.rest (0 + Pi.single dp 1) none 0).lockAt dp .parent (some x)) fun ip g' =>
        ∃ y, y.d.type = t ∧ g' = Ghost.got ip .child y := by
  unfold create_new
  have hheld := Ghost.held_lockAt (.rest (0 + Pi.single dp 1) none 0) dp .parent (some x)
  refine .bind (Q := fun n g' => 0 < n ∧ g' =
    { (Ghost.rest (0 + Pi.single dp 1) none 0).lockAt dp .parent (some x) with
      fresh := some (n, t, dp), making := some n })
    (safe_act hR (fun _ => rfl) fun s G labs hat _ hg => ?_) ?_
  · refine (wp_ialloc (hR.logs s) (hR.benign _ (by decide) (by decide)) fun n hpos hn hfree => ?_).wlp
    refine ⟨_, .ialloc hpos hn hfree ht (by rw [hg]; rfl) (by rw [hg]; rfl) (by rw [hg]; exact hheld)
      hdir (hR.unused (hg ▸ hat) hfree), hpos, ?_⟩
    rw [hg]
  intro n g' hg
  obtain ⟨hpos, rfl⟩ := hg
  refine .bind (Q := fun ip g' => g' =
    { (Ghost.rest (0 + Pi.single dp 1 + Pi.single ip 1) none 0).lockAt dp .parent (some x) with
      fresh := some (n, t, dp), order := some (dp, ip, n), making := some n })
    (safe_act hR (fun _ => rfl) fun s G labs hat hcoh hg => ?_) ?_
  · have hr := hcoh.ref_pos_of_held (q := p) (i := dp) (by rw [hg]; simp [Ghost.lockAt])
    refine (wp_iget_beside hcoh.cache.dev hr (fun _ => hR.benign _ (by decide) (by decide)) fun i s' hget => ?_).wlp
    refine ⟨_, .getFresh (by rw [hg]) (by rw [hg]; simp [Ghost.lockAt, Ghost.rest]) hget, ?_⟩
    rw [hg]
    rfl
  intro ip g' hg
  subst hg
  refine .bind (safe_ilock_fresh hR (fun _ => ?_)
    (by simp [Ghost.lockAt, Ghost.rest]) rfl rfl) ?_
  · refine ⟨⟨dp, n, some x, rfl, hheld, fun j hj => ?_⟩, rfl⟩
    by_contra hne
    exact hj (by simp [Ghost.lockAt, Ghost.rest, hne])
  intro _ g' hg
  obtain ⟨hfree, rfl⟩ := hg
  have hne : dp ≠ ip := by
    rintro rfl
    simp [Ghost.lockAt] at hfree
  show (R.logic sb).Safe p _
    (Ghost.both dp x ip ⟨n, blank t, []⟩ n (some (ip, n, t)) 0 none (some n)) _
  refine .bind (safe_relink hR
    (f := fun d => { d with major := major, minor := minor, nlink := 1 }) (fun _ => rfl)
    Ghost.both_child rfl (fun _ => rfl) (fun _ => rfl) (fun _ => rfl) (.init rfl rfl)) ?_
  intro _ g' hg
  have hstate : g' = Ghost.both dp x ip
      ⟨n, { blank t with major := major, minor := minor, nlink := 1 }, []⟩ n (some (ip, n, t))
      (0 + Pi.single n 1) none (some n) := hg.trans (Ghost.both_lockAt_child _ _ _ _)
  rw [hstate]
  refine .bind (safe_create_dots hR hne rfl rfl rfl hpos) ?_
  intro _ g' hg
  obtain ⟨x', y, hxn, hxc, hyn, hyt, hdots, rfl⟩ := hg
  refine .bind (safe_dirlink_absent hR 0 none rfl (Ghost.both_parent hne) (hxc ▸ habs)
    ⟨ip, Ghost.both_numbers hyn⟩ rfl (.child rfl Ghost.both_child rfl ?_ ?_)) ?_
  · rw [hyt, hxn]
    exact hdots
  · rw [hyt, hxn]
    rfl
  intro b g' hb
  obtain ⟨rfl, k, d, _, _, hg⟩ := hb
  have hstate : g' = _ := hg.trans (Ghost.both_lockAt_parent hne _ 0 none none)
  rw [hstate]
  show (R.logic sb).Safe p (do
    iunlockput sb p dp .window
    pure ip) _ _
  refine .bind (safe_put_parent hR hne (fun t' heq => ?_) (by simp)) ?_
  · simp only [Option.some.injEq, Prod.mk.injEq] at heq
    exact hne heq.1.symm
  intro _ g' hg
  refine ⟨y, hyt, ?_⟩
  rw [hg, ← hyn, ← hyt]
  rfl

/-- The result of `create`. -/
def Created (t : BitVec 16) : Option Slot → Ghost → Prop
  | none, g => g = .idle
  | some ip, g => ∃ site y, (t = T_FILE → y.d.type = T_FILE) ∧ g = Ghost.got ip site y

section

variable (hR : R.Lawful sb)
include hR

theorem safe_create (path : Name) (major minor : BitVec 16) (ht : t ≠ 0) :
    (R.logic sb).Safe p (create sb p path t major minor) .idle (Created t) := by
  unfold create
  refine .bind (safe_namex hR path true (r := 0) (π := none) (δ := 0) (by simp)) ?_
  intro res g' hres
  rcases res with _ | ⟨dp, name⟩
  · exact hres
  · obtain ⟨rfl, _⟩ := hres
    refine .bind (safe_ilock hR false (fun _ => ⟨fun _ => rfl, rfl⟩)
      (Or.inl (by simp [Ghost.rest])) rfl rfl (by simp)) ?_
    intro _ g' hx
    obtain ⟨x, _, rfl⟩ := hx
    refine .bind (safe_dirlookup hR false rfl (Ghost.held_lockAt _ _ _ _) (by simp)
      fun _ => ⟨rfl, rfl⟩) ?_
    intro res g' hlook
    rcases res with _ | ⟨ip, off⟩
    · obtain ⟨rfl, hdir, habs⟩ := hlook
      refine .bind (safe_create_new hR ht hdir habs) ?_
      intro ip g' hy
      obtain ⟨y, hyt, rfl⟩ := hy
      exact ⟨.child, y, fun h => hyt.trans h, rfl⟩
    · obtain ⟨_, n, k, _, _, rfl⟩ := hlook
      refine .bind (safe_iunlockput_rest hR (r := 0 + Pi.single ip 1) (π := none)
        (add_right_comm _ _ _) (by simp)) ?_
      intro _ g' hg
      subst hg
      refine .bind (safe_ilock_pin hR) ?_
      intro _ g' hy
      obtain ⟨y, rfl⟩ := hy
      refine .bind (safe_inode hR rfl (Ghost.held_lockAt _ _ _ _)) ?_
      intro ino g' hino
      obtain ⟨rfl, hd, _⟩ := hino
      by_cases hfile : t = T_FILE ∧ ino.type = T_FILE
      · rw [if_pos hfile]
        refine ⟨.plain, y, fun _ => ?_, rfl⟩
        rw [← hd]
        exact hfile.2
      · rw [if_neg hfile]
        refine .bind (safe_iunlockput_last hR (Or.inl rfl)) ?_
        intro _ g' hg
        exact hg

/-! ## `open`, `mkdir` and `mknod` -/

theorem safe_sys_open_inode (path : Name) (omode : BitVec 32) :
    (R.logic sb).Safe p (sys_open_inode sb p path omode) .idle fun res g' =>
      match res with
      | none => g' = .idle
      | some ip => ∃ site y, (y.d.type = T_DIR → omode = O_RDONLY) ∧ g' = Ghost.got ip site y := by
  unfold sys_open_inode
  by_cases hcreate : omode &&& O_CREATE ≠ 0
  · rw [if_pos hcreate]
    refine (safe_create hR path 0 0 (by decide)).mono ?_
    intro res g' hres
    match res, hres with
    | none, hg => exact hg
    | some ip, ⟨site, y, hy, hg⟩ =>
      refine ⟨site, y, fun hdir => ?_, hg⟩
      rw [hy rfl] at hdir
      exact absurd hdir (by decide)
  · rw [if_neg hcreate]
    refine .bind (safe_namei hR path (r := 0) (π := none) (δ := 0) (by simp)) ?_
    intro res g' hres
    match res, hres with
    | none, hg => exact hg
    | some ip, hg =>
      subst hg
      refine .bind (safe_ilock_pin hR) ?_
      intro _ g' hy
      obtain ⟨y, rfl⟩ := hy
      refine .bind (safe_inode hR rfl (Ghost.held_lockAt _ _ _ _)) ?_
      intro ino g' hino
      obtain ⟨rfl, hd, _⟩ := hino
      by_cases hdir : ino.type = T_DIR ∧ omode ≠ O_RDONLY
      · rw [if_pos hdir]
        refine .bind (safe_iunlockput_last hR (Or.inl rfl)) ?_
        intro _ g' hg
        exact hg
      · rw [if_neg hdir]
        refine ⟨.plain, y, fun hy => ?_, rfl⟩
        by_contra hmode
        exact hdir ⟨by rw [hd]; exact hy, hmode⟩

theorem safe_filealloc (hw : g.window = none) :
    (R.logic sb).Safe p filealloc g fun res g' =>
      match res with
      | none => g' = g
      | some f => g' = { g with frefs := g.frefs + Pi.single f 1, fnew := some f } := by
  refine safe_act hR (fun _ => hw) fun s G labs hat _ hg => ?_
  subst hg
  simp only [wlp_bind, wlp_get]
  cases hfind : (List.finRange NFILE).find? fun f => decide ((s.ftable f).ref = 0) with
  | none =>
    have ha := Alike.refl s
    exact ⟨{ G p with use := (G p).use }, .quiet ha.disk ha.icache ha.proc ha.file (Or.inl rfl), rfl⟩
  | some f =>
    have hf := List.find?_some hfind
    simp only [decide_eq_true_eq] at hf
    exact ⟨_, .filealloc hf, rfl⟩

theorem safe_fdalloc {f : FileSlot} (fr : FileSlot → Nat) (hw : g.window = none)
    (hnew : g.fnew = some f) (hfr : g.frefs = fr + Pi.single f 1) (huse : g.use = none) :
    (R.logic sb).Safe p (fdalloc p f) g fun res g' =>
      match res with
      | none => g' = g
      | some _ => g' = { g with frefs := fr, use := none } := by
  refine safe_act hR (fun _ => hw) fun s G labs hat _ hg => ?_
  subst hg
  simp only [wlp_bind, wlp_get]
  cases hfind : (List.finRange NOFILE).find? fun fd => ((s.proc p).ofile fd).isNone with
  | none =>
    have ha := Alike.refl s
    exact ⟨{ G p with use := (G p).use }, .quiet ha.disk ha.icache ha.proc ha.file (Or.inl rfl), rfl⟩
  | some fd =>
    have hfd := List.find?_some hfind
    rw [Option.isNone_iff_eq_none] at hfd
    exact ⟨_, .fdalloc hnew hfd hfr huse, rfl⟩

theorem safe_sys_open (path : Option Name) (omode : BitVec 32) :
    (R.logic sb).Safe p (sys_open sb p path omode) .idle fun _ g' => g' = .idle := by
  unfold sys_open
  cases path with
  | none => exact rfl
  | some path =>
    refine .bind (safe_begin_op hR rfl) ?_
    intro _ g' hg
    subst hg
    refine .bind (safe_sys_open_inode hR path omode) ?_
    intro res g' hres
    match res, hres with
    | none, hg =>
      subst hg
      refine .bind (safe_end_op hR rfl) ?_
      intro _ g' hg
      exact hg
    | some ip, ⟨site, y, hmode, hg⟩ =>
      subst hg
      refine .bind (safe_filealloc hR rfl) ?_
      intro res g' hres
      match res, hres with
      | none, hg =>
        subst hg
        exact safe_finish hR (Or.inl rfl) (-1)
      | some f, hg =>
        subst hg
        refine .bind (safe_fdalloc hR 0 rfl rfl rfl rfl) ?_
        intro res g' hres
        match res, hres with
        | none, hg =>
          subst hg
          -- the file was never initialised, so closing it does nothing else
          refine .bind (Q := fun _ g' => g' = Ghost.got ip site y) ?_ ?_
          · unfold fileclose
            refine .bind (safe_fileclose_drop hR 0 rfl rfl rfl (Or.inr rfl)) ?_
            intro res g' hres
            match res, hres with
            | none, ⟨hnone, _⟩ => exact absurd hnone (by simp)
            | some ff, ⟨hff, hor⟩ =>
              have hnone := hff rfl
              show (R.logic sb).Safe p (if ff.type = .FD_INODE then _ else _) _ _
              rw [if_neg (by rw [hnone]; simp)]
              rcases hor with ⟨ht, _⟩ | ⟨_, hg⟩
              · rw [hnone] at ht
                cases ht
              · exact hg
          · intro _ g' hg
            subst hg
            exact safe_finish hR (Or.inl rfl) (-1)
        | some fd, hg =>
          subst hg
          refine .bind (safe_iunlock hR none none rfl (by simp [Ghost.got, Ghost.lockAt])
            (Or.inl rfl) (Or.inl rfl) rfl) ?_
          intro _ g' hg
          have hstate : g' = { Ghost.rest (0 + Pi.single ip 1) (some (ip, y.n, y.d.type)) 0 with
              fnew := some f } := by
            rw [hg]
            simp only [Ghost.got, Ghost.unlock, Ghost.lockAt, Ghost.rest, Ghost.held_again]
            rfl
          rw [hstate]
          refine .bind (safe_end_op hR rfl) ?_
          intro _ g' hg
          subst hg
          refine .bind (Q := fun _ g' => g' = .idle)
            (safe_act hR (fun _ => rfl) fun s G labs hat _ hg => ?_) ?_
          · refine ⟨_, .fileinit (i := ip) (n := y.n) (t := y.d.type) (r := 0) (by rw [hg])
              (by rw [hg]; rfl) (by rw [hg]; rfl) (by rw [hg]; rfl) (by rw [hg]; exact fun _ => rfl)
              (by rw [hg]; rfl) (by rw [hg]; rfl) rfl rfl rfl (fun hw hdir => ?_), ?_⟩
            · -- directories are only opened for reading
              rw [hmode hdir] at hw
              simp at hw
            · rw [hg]
              rfl
          · intro _ g' hg
            exact hg

theorem safe_sys_make (path : Option Name) (major minor : BitVec 16) (ht : t ≠ 0) :
    (R.logic sb).Safe p (sys_make sb p path t major minor) .idle fun _ g' => g' = .idle := by
  unfold sys_make
  refine .bind (safe_begin_op hR rfl) ?_
  intro _ g' hg
  subst hg
  cases path with
  | none =>
    refine .bind (safe_end_op hR rfl) ?_
    intro _ g' hg
    exact hg
  | some path =>
    refine .bind (safe_create hR path major minor ht) ?_
    intro res g' hres
    match res, hres with
    | none, hg =>
      subst hg
      refine .bind (safe_end_op hR rfl) ?_
      intro _ g' hg
      exact hg
    | some ip, ⟨site, y, _, hg⟩ =>
      subst hg
      exact safe_finish hR (Or.inl rfl) 0

end

/-! ## All calls -/

/-- The call does not link to a path that ends in "." or "..". -/
def Call.NoDotLink : Call → Prop
  | .link _ (some path) => ∀ name, LastElem path name → ¬ IsDot name
  | _ => True

/-- Every system call leads from the idle ghost state back to it. -/
theorem safe_syscall (hR : R.Lawful sb) (c : Call) (hc : R.strict → c.NoDotLink) :
    (R.logic sb).Safe p (syscall sb p c) .idle fun _ g' => g' = .idle := by
  cases c with
  | read fd n con => exact safe_sys_read hR fd n con
  | write fd n src => exact safe_sys_write hR fd n src
  | close fd => exact safe_sys_close hR fd
  | link old new =>
    refine safe_sys_link hR old new fun hs path name hnew hlast => ?_
    subst hnew
    exact hc hs name hlast
  | unlink path => exact safe_sys_unlink hR path
  | «open» path omode => exact safe_sys_open hR path omode
  | mkdir path => exact safe_sys_make hR path 0 0 (by decide)
  | mknod path major minor => exact safe_sys_make hR path major minor (by decide)
  | chdir path => exact safe_sys_chdir hR path
  | exec path reads con => exact safe_sys_exec hR path reads con

end Xv6.Fs
