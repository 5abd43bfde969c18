import Xv6.Fs.ExecPath

/-! # Symbolic execution: open files

    `read`, `write` and `close`. A call that works on an open file relies on
    its descriptor to keep the file, and through it the inode, in use; the
    ghost state names that file (`Using`) until the last lock is released.
-/

namespace Xv6.Fs

open Op Prog

variable {R : Rules} {sb : Superblock} {p : Pid} {g : Ghost} {ip : Slot} {u : Using} {x : Snap}

/-! ## Contents -/

/-- The process holds no lock and is not about to give an inode up. -/
structure Ghost.Open (g : Ghost) : Prop where
  held : g.held = fun _ => none
  window : g.window = none
  sole : g.sole = none
  fresh : g.fresh = none
  dead : g.dead = none

theorem Ghost.open_rest (r : Slot → Nat) (π : Option (Slot × Nat × BitVec 16)) (δ : Nat → Nat) :
    (Ghost.rest r π δ).Open := ⟨rfl, rfl, rfl, rfl, rfl⟩

/-- The process refers to entry `ip`, or works on an open file with this inode. -/
def Ghost.Reaches (g : Ghost) (ip : Slot) : Prop :=
  0 < g.refs ip ∨ ∃ u, g.use = some u ∧ u.type = .FD_INODE ∧ u.ip = ip

theorem Ghost.unlock_lockAt (hheld : g.held = fun _ => none) (site : Site) (x : Option Snap) :
    (g.lockAt ip site x).unlock ip = g := by
  cases g
  simp only at hheld
  subst hheld
  simp only [Ghost.lockAt, Ghost.unlock, Ghost.held_again]

section

variable (hR : R.Lawful sb)
include hR

/-- The console driver releases the inode while it waits. -/
theorem safe_console (ho : g.Open) (href : g.Reaches ip) {α : Type} (a : α) :
    (R.logic sb).Safe p (do
      iunlock p ip
      ilock sb p ip .plain
      pure a : FsProg α) (g.lockAt ip .plain (some x)) fun b g' =>
        b = a ∧ ∃ x', Locked g ip x' ∧ g' = g.lockAt ip .plain (some x') := by
  refine .bind (safe_iunlock hR (g.lockAt ip .plain (some x)).use none ho.window
    (by simp [Ghost.lockAt]) (Or.inl rfl) (Or.inl ho.window.symm) ho.sole) ?_
  intro _ g' hg
  rw [Ghost.unlock_lockAt ho.held] at hg
  have hg' : g' = g := by
    rw [hg, ← ho.window]
    rfl
  subst hg'
  refine .bind (safe_ilock hR false (fun _ => ⟨fun j => by rw [ho.held], ho.window⟩)
    href ho.fresh ho.dead (by simp)) ?_
  intro _ g'' hx
  obtain ⟨x', hlocked, rfl⟩ := hx
  exact ⟨rfl, x', hlocked, rfl⟩

/-- `readi` of a locked inode. -/
theorem safe_readi (ho : g.Open) (href : g.Reaches ip) (con : Option (List Byte))
    (off n : BitVec 32) :
    (R.logic sb).Safe p (readi sb p con ip off n) (g.lockAt ip .plain (some x)) fun _ g' =>
      ∃ x', g' = g.lockAt ip .plain (some x') := by
  unfold readi
  have hheld : (g.lockAt ip .plain (some x)).held ip = some ⟨.plain, some x⟩ := by
    simp [Ghost.lockAt]
  refine .bind (safe_inode (g := g.lockAt ip .plain (some x)) hR ho.window hheld) ?_
  intro ino g' hino
  obtain ⟨rfl, _⟩ := hino
  by_cases hdev : ino.type = T_DEV
  · rw [if_pos hdev]
    split
    · exact ⟨x, rfl⟩
    · refine (safe_console hR ho href con).mono ?_
      intro _ g' hx
      obtain ⟨_, x', _, hg⟩ := hx
      exact ⟨x', hg⟩
  · rw [if_neg hdev]
    refine safe_quiet hR ho.window fun s G labs hat => ?_
    have hcoh := coh_of_at hat
    have hs := (hcoh.synced_of_held (show (G p).held ip = _ by rw [hat.self]; exact hheld)).1
    refine ((wp_readi_blocks (D := dinode sb s.disk) hcoh.vol.image hs.mem hs.copy off n).imp
      fun r s' hr => ?_).wlp
    obtain ⟨rfl, _⟩ := hr
    exact ⟨.refl _, x, rfl⟩

/-- `writei` of a locked inode that is not a directory. -/
theorem safe_writei (ho : g.Open) (href : g.Reaches ip) (hdir : x.d.type ≠ T_DIR) (src : Nat → Byte)
    (off n : BitVec 32) :
    (R.logic sb).Safe p (writei sb p ip src off n) (g.lockAt ip .plain (some x)) fun _ g' =>
      ∃ x', g' = g.lockAt ip .plain (some x') := by
  unfold writei
  have hheld : (g.lockAt ip .plain (some x)).held ip = some ⟨.plain, some x⟩ := by
    simp [Ghost.lockAt]
  refine .bind (safe_inode (g := g.lockAt ip .plain (some x)) hR ho.window hheld) ?_
  intro ino g' hino
  obtain ⟨rfl, _⟩ := hino
  by_cases hdev : ino.type = T_DEV
  · rw [if_pos hdev]
    split
    · exact ⟨x, rfl⟩
    · refine (safe_console hR ho href (some n)).mono ?_
      intro _ g' hx
      obtain ⟨_, x', _, hg⟩ := hx
      exact ⟨x', hg⟩
  · rw [if_neg hdev]
    refine safe_act hR (fun _ => ho.window) fun s G labs hat hcoh hg => ?_
    have hheld' : (G p).held ip = some ⟨.plain, some x⟩ := by rw [hg]; exact hheld
    obtain ⟨hs, hd, _⟩ := hcoh.synced_of_held hheld'
    refine (wp_write hs hcoh.vol (hR.logs s) off n (fun _ _ => hR.benign _ (by decide) (by decide))
      (fun _ ht => absurd (by rw [← hd]; exact ht) hdir) ?_ fun disk d _ hrw => ?_).wlp
    · -- nothing was written
      intro _
      have ha := Alike.refl s
      refine ⟨{ G p with use := (G p).use },
        .quiet ha.disk ha.icache ha.proc ha.file (Or.inl rfl), x, hg⟩
    · refine ⟨_, .write hheld' hdir (by rw [hg]; exact ho.sole) hrw,
        ⟨x.n, d, splice (s.bytes sb ip) off.toNat ((List.range n.toNat).map src)⟩, ?_⟩
      rw [hg]
      simp [Ghost.lockAt]

/-! ## `file.c` -/

theorem safe_panic {α : Type} {msg : String} {Q : α → Ghost → Prop} (hw : g.window = none)
    (h1 : msg ≠ "ilock: no type") (h2 : msg ≠ "freeing free block") :
    (R.logic sb).Safe p (step (Op.panic msg)) g Q :=
  safe_quiet hR hw fun _ _ _ _ => hR.benign msg h1 h2

/-- `argfd`; with `keep` the call goes on to work on the file. -/
theorem safe_argfd (fd : Int) (keep : Bool) (hw : g.window = none) (huse : g.use = none) :
    (R.logic sb).Safe p (argfd p fd) g fun res g' =>
      match res with
      | none => g' = g
      | some (i, f) => if keep then ∃ u : Using, u.fd = i ∧ u.file = f ∧ g' = { g with use := some u }
          else g' = g := by
  refine safe_act hR (fun _ => hw) fun s G labs hat _ hg => ?_
  have ha := Alike.refl s
  have hquiet : Trans sb p G s .argfd s { G p with use := (G p).use } :=
    .quiet ha.disk ha.icache ha.proc ha.file (Or.inl rfl)
  simp only [wlp_bind, wlp_get]
  split
  · next hfd =>
    rw [wlp_pure]
    cases hf : (s.proc p).ofile ⟨fd.toNat, by omega⟩ with
    | none => exact ⟨G p, hquiet, hg⟩
    | some f =>
      cases keep with
      | false => exact ⟨G p, hquiet, hg⟩
      | true =>
        refine ⟨_, .useFile hf (by rw [hg]; exact huse),
          ⟨_, f, (s.ftable f).type, (s.ftable f).ip, (s.ftable f).writable⟩, rfl, rfl, ?_⟩
        rw [hg]
  · exact ⟨G p, hquiet, hg⟩

/-- Reading the fields of the open file; the call stops working on it unless
    `keep` says otherwise. -/
theorem safe_file (huse : g.use = some u) (hw : g.window = none) (keep : File → Bool)
    (hdrop : ∀ ff, keep ff = false → ∀ j, g.held j = none) :
    (R.logic sb).Safe p (file u.file) g fun ff g' => ff.type = u.type ∧ ff.ip = u.ip ∧
      ff.writable = u.writable ∧ g' = { g with use := if keep ff then some u else none } := by
  refine safe_act hR (fun _ => hw) fun s G labs hat hcoh hg => ?_
  have ha := Alike.refl s
  obtain ⟨_, ht, hi, hwr⟩ := (hcoh.knows p).used u (by rw [hg]; exact huse)
  simp only [wlp_bind, wlp_get, wlp_pure]
  refine ⟨{ G p with use := if keep (s.ftable u.file) then some u else none },
    .quiet ha.disk ha.icache ha.proc ha.file ?_, ht, hi, hwr, by rw [hg]⟩
  cases hk : keep (s.ftable u.file) with
  | true => exact Or.inl (by rw [hg]; exact huse.symm)
  | false => exact Or.inr ⟨rfl, by rw [hg]; exact hdrop _ hk⟩

/-- `f->off` changes. -/
theorem safe_file_advance (hw : g.window = none) (f : FileSlot) (k : Option (BitVec 32)) :
    (R.logic sb).Safe p (file_advance f k) g fun _ g' => g' = g := by
  unfold file_advance
  cases k with
  | none => exact rfl
  | some k =>
    refine safe_quiet hR hw fun s G labs _ => ⟨⟨rfl, rfl, rfl, fun f' => ?_⟩, rfl⟩
    by_cases hf : f' = f
    · subst hf
      rw [setFile_self]
      exact ⟨rfl, rfl, rfl, rfl⟩
    · rw [setFile_ne _ _ _ hf]
      exact ⟨rfl, rfl, rfl, rfl⟩

end

/-- A call that works on the file `u`. -/
def Ghost.using (u : Using) : Ghost := { Ghost.idle with use := some u }

theorem Ghost.open_using (u : Using) : (Ghost.using u).Open := ⟨rfl, rfl, rfl, rfl, rfl⟩

section

variable (hR : R.Lawful sb)
include hR

/-- The lock of the inode is given back, and with it possibly the file. -/
theorem safe_iunlock_using {x : Option Snap} (keep : Bool) :
    (R.logic sb).Safe p (iunlock p ip) ((Ghost.using u).lockAt ip .plain x) fun _ g' =>
      g' = if keep then Ghost.using u else Ghost.idle := by
  refine (safe_iunlock hR (if keep then some u else none) none rfl (by simp [Ghost.lockAt]) ?_
    (Or.inl rfl) rfl).mono ?_
  · cases keep with
    | true => exact Or.inl rfl
    | false => exact Or.inr ⟨rfl, fun j hj => by simp [Ghost.lockAt, hj, Ghost.using, Ghost.idle,
        Ghost.rest]⟩
  · intro _ g' hg
    rw [hg, Ghost.unlock_lockAt (Ghost.open_using u).held]
    cases keep with
    | true => rfl
    | false => rfl

theorem safe_fileread (con : Option (List Byte)) (u : Using) (n : BitVec 32) :
    (R.logic sb).Safe p (fileread sb p con u.file n) (.using u) fun _ g' => g' = .idle := by
  unfold fileread
  refine .bind (safe_file hR (u := u) rfl rfl
    (fun ff => ff.readable && decide (ff.type = .FD_INODE)) (fun _ _ _ => rfl)) ?_
  intro ff g' hff
  obtain ⟨ht, hi, _, rfl⟩ := hff
  by_cases hr : ff.readable = false
  · rw [if_pos hr]
    simp only [hr, Bool.false_and]
    exact rfl
  · rw [if_neg hr]
    by_cases hpipe : ff.type = .FD_PIPE
    · rw [if_pos hpipe]
      simp only [hpipe, reduceCtorEq, decide_false, Bool.and_false]
      exact rfl
    · rw [if_neg hpipe]
      by_cases hinode : ff.type = .FD_INODE
      · rw [if_pos hinode]
        have hreach : (Ghost.using u).Reaches ff.ip := Or.inr ⟨u, rfl, ht ▸ hinode, hi.symm⟩
        simp only [hr, hinode, decide_true, Bool.and_true, Bool.not_eq_false] at hr ⊢
        rw [if_pos hr]
        refine .bind (safe_ilock hR false (fun _ => ⟨fun _ => rfl, rfl⟩) hreach rfl rfl
          (by simp)) ?_
        intro _ g' hx
        obtain ⟨x, _, rfl⟩ := hx
        refine .bind (safe_file hR (u := u) rfl rfl (fun _ => true) (by simp)) ?_
        intro ff' g' hff'
        obtain ⟨_, _, _, rfl⟩ := hff'
        refine .bind (safe_readi hR (Ghost.open_using u) hreach (x := x) con _ n) ?_
        intro r g' hx
        obtain ⟨x', rfl⟩ := hx
        refine .bind (safe_file_advance hR rfl _ _) ?_
        intro _ g' hg
        subst hg
        refine .bind (safe_iunlock_using hR false) ?_
        intro _ g' hg
        exact hg
      · rw [if_neg hinode]
        exact safe_panic hR rfl (by decide) (by decide)

/-- The loop of `filewrite`; it stops working on the file when it is done. -/
theorem safe_filewrite_loop (ht : u.type = .FD_INODE) (hw : u.writable = true) (src : Nat → Byte)
    (n : Nat) {fuel i : Nat} (hfuel : n ≤ i + fuel) :
    (R.logic sb).Safe p (filewrite_loop sb p u.file u.ip src n fuel i)
      (if i < n then .using u else .idle) fun _ g' => g' = .idle := by
  induction fuel generalizing i with
  | zero =>
    rw [if_neg (by omega)]
    exact rfl
  | succ fuel ih =>
    unfold filewrite_loop
    by_cases hlt : i < n
    · rw [if_pos hlt, if_pos hlt]
      have hreach : (Ghost.using u).Reaches u.ip := Or.inr ⟨u, rfl, ht, rfl⟩
      refine .bind (safe_begin_op hR rfl) ?_
      intro _ g' hg
      subst hg
      refine .bind (safe_ilock hR false (fun _ => ⟨fun _ => rfl, rfl⟩) hreach rfl rfl
        (by simp)) ?_
      intro _ g' hx
      obtain ⟨x, hlocked, rfl⟩ := hx
      have hdir := hlocked.writable u rfl ht rfl hw
      refine .bind (safe_file hR (u := u) rfl rfl (fun _ => true) (by simp)) ?_
      intro ff g' hff
      obtain ⟨_, _, _, rfl⟩ := hff
      refine .bind (safe_writei hR (Ghost.open_using u) hreach hdir _ _ _) ?_
      intro res g' hx
      obtain ⟨x', rfl⟩ := hx
      refine .bind (safe_file_advance hR rfl _ _) ?_
      intro _ g' hg
      subst hg
      -- whether another round follows is known before the lock is given back
      refine .bind (safe_iunlock_using hR
        (res.any fun k => decide (i + k.toNat < n))) ?_
      intro _ g' hg
      subst hg
      refine .bind (safe_end_op hR (by split <;> rfl)) ?_
      intro _ g' hg
      subst hg
      cases res with
      | none => exact rfl
      | some k =>
        simp only [Option.any_some, decide_eq_true_eq]
        by_cases hk : k ≠ BitVec.ofNat 32 (min (n - i) CHUNK)
        · rw [if_pos hk]
          exact safe_panic hR (by split <;> rfl) (by decide) (by decide)
        · rw [if_neg hk]
          have hk' : k.toNat = min (n - i) CHUNK := by
            rw [not_not.mp hk, BitVec.toNat_ofNat, Nat.mod_eq_of_lt]
            exact lt_of_le_of_lt (min_le_right _ _) (by decide)
          refine ih ?_
          have hpos : 0 < CHUNK := by decide
          omega
    · rw [if_neg hlt, if_neg hlt]
      exact rfl

theorem safe_filewrite (u : Using) (src : Nat → Byte) (n : Nat) :
    (R.logic sb).Safe p (filewrite sb p u.file src n) (.using u) fun _ g' => g' = .idle := by
  unfold filewrite
  refine .bind (safe_file hR (u := u) rfl rfl
    (fun ff => ff.writable && decide (ff.type = .FD_INODE) && decide (0 < n)) (fun _ _ _ => rfl)) ?_
  intro ff g' hff
  obtain ⟨ht, hi, hwr, rfl⟩ := hff
  by_cases hw : ff.writable = false
  · rw [if_pos hw]
    simp only [hw, Bool.false_and]
    exact rfl
  · rw [if_neg hw]
    by_cases hpipe : ff.type = .FD_PIPE
    · rw [if_pos hpipe]
      simp only [hpipe, reduceCtorEq, decide_false, Bool.and_false, Bool.false_and]
      exact rfl
    · rw [if_neg hpipe]
      rw [Bool.not_eq_false] at hw
      by_cases hinode : ff.type = .FD_INODE
      · rw [if_pos hinode, hi]
        simp only [hw, hinode, decide_true, Bool.and_true, Bool.true_and, decide_eq_true_eq]
        have hloop := safe_filewrite_loop (p := p) hR (ht ▸ hinode) (hwr ▸ hw) src n
          (show n ≤ 0 + n by omega)
        refine .bind (Q := fun _ g' => g' = .idle) ?_ ?_
        · by_cases hn : 0 < n
          · rw [if_pos hn] at hloop ⊢
            exact hloop
          · rw [if_neg hn] at hloop ⊢
            exact hloop
        · intro _ g' hg
          exact hg
      · rw [if_neg hinode]
        exact safe_panic hR rfl (by decide) (by decide)

/-- The critical section of `fileclose`. -/
theorem safe_fileclose_drop {f : FileSlot} (fr : FileSlot → Nat) (hw : g.window = none)
    (hfr : g.frefs = fr + Pi.single f 1) (huse : g.use = none)
    (hnew : g.fnew = none ∨ g.fnew = some f) :
    (R.logic sb).Safe p (fileclose_drop f) g fun res g' =>
      match res with
      | none => g.fnew = none ∧ g' = { g with frefs := fr }
      | some ff => (g.fnew = some f → ff.type = .FD_NONE) ∧
          (ff.type = .FD_INODE ∧ g' = { g with
            frefs := fr, fnew := none, refs := g.refs + Pi.single ff.ip 1, dead := some ff.ip } ∨
          ff.type ≠ .FD_INODE ∧ g' = { g with frefs := fr, fnew := none }) := by
  refine safe_act hR (fun _ => hw) fun s G labs hat hcoh hg => ?_
  subst hg
  simp only [wlp_bind, wlp_get]
  split
  · exact hR.benign _ (by decide) (by decide)
  · split
    · next h1 h2 =>
      have hnone : (G p).fnew = none := by
        rcases hnew with h | h
        · exact h
        · have := ((hcoh.knows p).newfile f h).2.1
          omega
      exact ⟨_, .closeDec hfr (by omega) hnone, hnone, rfl⟩
    · next h1 h2 =>
      have hlast : (s.ftable f).ref = 1 := by omega
      have hfile : (G p).fnew = some f → (s.ftable f).type = .FD_NONE :=
        fun h => ((hcoh.knows p).newfile f h).1
      by_cases ht : (s.ftable f).type = .FD_INODE
      · exact ⟨_, .closeLast hfr hlast huse (Or.inl ⟨ht, rfl, rfl⟩), hfile, Or.inl ⟨ht, rfl⟩⟩
      · exact ⟨_, .closeLast hfr hlast huse (Or.inr ⟨ht, rfl, rfl⟩), hfile, Or.inr ⟨ht, rfl⟩⟩

/-! ## `sysfile.c` -/

theorem safe_sys_read (fd : Int) (n : Option (BitVec 32)) (con : Option (List Byte)) :
    (R.logic sb).Safe p (sys_read sb p fd n con) .idle fun _ g' => g' = .idle := by
  unfold sys_read
  refine .bind (safe_argfd hR fd n.isSome rfl rfl) ?_
  intro res g' hres
  match res, n, hres with
  | none, _, hg => exact hg
  | some (i, f), none, hg => exact hg
  | some (i, f), some n, ⟨u, _, hf, hg⟩ =>
    subst hf hg
    refine .bind (safe_fileread hR con u n) ?_
    intro r g' hg
    cases r with
    | none => exact hg
    | some bs => exact hg

theorem safe_sys_write (fd : Int) (n : Option Nat) (src : Nat → Byte) :
    (R.logic sb).Safe p (sys_write sb p fd n src) .idle fun _ g' => g' = .idle := by
  unfold sys_write
  refine .bind (safe_argfd hR fd n.isSome rfl rfl) ?_
  intro res g' hres
  match res, n, hres with
  | none, _, hg => exact hg
  | some (i, f), none, hg => exact hg
  | some (i, f), some n, ⟨u, _, hf, hg⟩ =>
    subst hf hg
    refine .bind (safe_filewrite hR u src n) ?_
    intro r g' hg
    cases r with
    | none => exact hg
    | some bs => exact hg

/-- `fileclose` of a file the process still refers to. -/
theorem safe_fileclose (f : FileSlot) :
    (R.logic sb).Safe p (fileclose sb p f) { Ghost.idle with frefs := Pi.single f 1 }
      fun _ g' => g' = .idle := by
  unfold fileclose
  refine .bind (safe_fileclose_drop hR 0 rfl (zero_add _).symm rfl (Or.inl rfl)) ?_
  intro res g' hres
  match res, hres with
  | none, ⟨_, hg⟩ => exact hg
  | some ff, ⟨_, Or.inr ⟨ht, hg⟩⟩ =>
    subst hg
    show (R.logic sb).Safe p (if ff.type = .FD_INODE then _ else _) _ _
    rw [if_neg ht]
    exact rfl
  | some ff, ⟨_, Or.inl ⟨ht, hg⟩⟩ =>
    subst hg
    show (R.logic sb).Safe p (if ff.type = .FD_INODE then _ else _) _ _
    rw [if_pos ht]
    refine .bind (safe_begin_op hR rfl) ?_
    intro _ g' hg
    subst hg
    refine .bind (safe_iput hR (r := 0) none (fun _ => ⟨fun _ => rfl, rfl⟩) rfl rfl rfl rfl
      rfl (Or.inl rfl) (by simp) (Or.inr rfl)) ?_
    intro _ g' hg
    subst hg
    exact safe_end_op hR rfl

theorem safe_sys_close (fd : Int) :
    (R.logic sb).Safe p (sys_close sb p fd) .idle fun _ g' => g' = .idle := by
  unfold sys_close
  refine .bind (safe_argfd hR fd true rfl rfl) ?_
  intro res g' hres
  match res, hres with
  | none, hg => exact hg
  | some (i, f), ⟨u, hi, hf, hg⟩ =>
    subst hi hf hg
    refine .bind (Q := fun _ g' => g' = { Ghost.idle with frefs := Pi.single u.file 1 })
      (safe_act hR (fun _ => rfl) fun s G labs hat _ hg => ?_) ?_
    · refine ⟨_, .closeFd (u := u) (by rw [hg]) (by rw [hg]; exact fun _ => rfl) (by rw [hg]; rfl), ?_⟩
      rw [hg]
      show { Ghost.idle with frefs := 0 + Pi.single u.file 1, use := none } = _
      rw [zero_add]
      rfl
    · intro _ g' hg
      subst hg
      refine .bind (safe_fileclose hR u.file) ?_
      intro _ g' hg
      exact hg

end

end Xv6.Fs
