import Xv6.Fs.Exec

/-! # Symbolic execution: path names

    `namex` walks along a path. Between two steps of the walk the process
    holds no lock and exactly one reference more than at the start, to the
    directory it has reached.
-/

namespace Xv6.Fs

open Op Prog Function

variable {R : Rules} {sb : Superblock} {p : Pid}

/-- `name` is the last element of `path`. -/
inductive LastElem : (path name : Name) → Prop where
  | here {path name : Name} (h : skipelem path = some (name, [])) : LastElem path name
  | there {path elem rest name : Name} (h : skipelem path = some (elem, rest))
      (hlast : LastElem rest name) : LastElem path name

/-- The result of a walk that started with the references `r`. -/
def Walked (parent : Bool) (path : Name) (r : Slot → Nat) (π : Option (Slot × Nat × BitVec 16))
    (δ : Nat → Nat) : Option (Slot × Name) → Ghost → Prop
  | none, g => g = .rest r π δ
  | some (ip, name), g => g = .rest (r + Pi.single ip 1) π δ ∧
      (parent = true → LastElem path name)

theorem Walked.there {parent : Bool} {path elem rest : Name} {r : Slot → Nat}
    {π : Option (Slot × Nat × BitVec 16)} {δ : Nat → Nat} {res : Option (Slot × Name)} {g : Ghost}
    (h : skipelem path = some (elem, rest)) (hw : Walked parent rest r π δ res g) :
    Walked parent path r π δ res g := by
  match res, hw with
  | none, hg => exact hg
  | some (ip, name), ⟨hg, hlast⟩ => exact ⟨hg, fun hp => .there h (hlast hp)⟩

variable {r : Slot → Nat} {π : Option (Slot × Nat × BitVec 16)} {δ : Nat → Nat} {ip : Slot}

/-- Taking a lock and giving it back. -/
theorem Ghost.held_again (ip : Slot) (h : Option Hold) :
    update (update (fun _ : Slot => (none : Option Hold)) ip h) ip none =
      fun _ => none := by
  rw [update_idem]
  exact update_eq_self ip _

/-- `iunlockput` of the only inode that is locked. -/
theorem safe_iunlockput_rest (hR : R.Lawful sb) {site : Site} {x : Option Snap}
    {r' : Slot → Nat} (hr : r' = r + Pi.single ip 1)
    (hkeep : ∀ i t, π = some (i, t) → 0 < r i) :
    (R.logic sb).Safe p (iunlockput sb p ip .plain) ((Ghost.rest r' π δ).lockAt ip site x)
      fun _ g' => g' = .rest r π δ := by
  have hun : ((Ghost.rest r' π δ).lockAt ip site x).unlock ip = .rest r' π δ := by
    simp only [Ghost.unlock, Ghost.lockAt, Ghost.rest, Ghost.held_again]
  refine (safe_iunlockput hR π none (fun _ => ?_) rfl (Or.inl rfl) ?_ hr rfl rfl rfl (Or.inl rfl)
    (fun t ht => hkeep ip t ht) none (by simp [Ghost.lockAt, Ghost.rest])).mono ?_
  · rw [hun]
    exact ⟨fun _ => rfl, rfl⟩
  · simp [Ghost.lockAt]
  · intro _ g' hg
    rw [hg, hun]
    rfl

theorem safe_iput_rest (hR : R.Lawful sb) (hkeep : ∀ i t, π = some (i, t) → 0 < r i) :
    (R.logic sb).Safe p (iput sb p ip .plain) (.rest (r + Pi.single ip 1) π δ)
      fun _ g' => g' = .rest r π δ :=
  safe_iput hR π (fun _ => ⟨fun _ => rfl, rfl⟩) rfl rfl rfl rfl rfl (Or.inl rfl)
    (fun t ht => hkeep ip t ht) (Or.inl rfl)

theorem safe_namex_loop (hR : R.Lawful sb) (parent : Bool) {fuel : Nat} {path : Name}
    (hfuel : path.length < fuel) (hkeep : ∀ i t, π = some (i, t) → 0 < r i) :
    (R.logic sb).Safe p (namex_loop sb p parent fuel ip path) (.rest (r + Pi.single ip 1) π δ)
      (Walked parent path r π δ) := by
  induction fuel generalizing ip path with
  | zero => omega
  | succ fuel ih =>
    unfold namex_loop
    cases hskip : skipelem path with
    | none =>
      -- no element is left
      cases parent with
      | true =>
        refine .bind (safe_iput_rest hR hkeep) ?_
        intro _ g' hg
        exact hg
      | false => exact ⟨rfl, by simp⟩
    | some e =>
      obtain ⟨name, rest⟩ := e
      have hshort := length_skipelem hskip
      refine .bind (safe_ilock hR false (fun _ => ⟨fun _ => rfl, rfl⟩)
        (Or.inl (by simp [Ghost.rest])) rfl rfl (by simp)) ?_
      intro _ g' hx
      obtain ⟨x, _, rfl⟩ := hx
      have hheld : ((Ghost.rest (r + Pi.single ip 1) π δ).lockAt ip .plain (some x)).held ip =
          some ⟨.plain, some x⟩ := by simp [Ghost.lockAt]
      refine .bind (safe_inode hR rfl hheld) ?_
      intro ino g' hino
      obtain ⟨rfl, _⟩ := hino
      by_cases htype : ino.type ≠ T_DIR
      · rw [if_pos htype]
        refine .bind (safe_iunlockput_rest hR rfl hkeep) ?_
        intro _ g' hg
        exact hg
      · rw [if_neg htype]
        by_cases hstop : parent = true ∧ rest = []
        · -- stop one level early
          rw [if_pos hstop]
          refine .bind (safe_iunlock hR none none rfl (by simp [Ghost.lockAt])
            (Or.inl rfl) (Or.inl rfl) rfl) ?_
          intro _ g' hg
          refine ⟨?_, fun _ => .here (hstop.2 ▸ hskip)⟩
          rw [hg]
          simp only [Ghost.unlock, Ghost.lockAt, Ghost.rest, Ghost.held_again]
          rfl
        · rw [if_neg hstop]
          refine .bind (safe_dirlookup hR false rfl hheld (by simp) fun _ => ⟨rfl, rfl⟩) ?_
          intro res g' hlook
          rcases res with _ | ⟨next, off⟩
          · obtain ⟨rfl, _⟩ := hlook
            refine .bind (safe_iunlockput_rest hR rfl hkeep) ?_
            intro _ g' hg
            exact hg
          · obtain ⟨_, n, k, _, _, rfl⟩ := hlook
            refine .bind (safe_iunlockput_rest hR (r := r + Pi.single next 1)
              (add_right_comm _ _ _) fun i t ht => ?_) ?_
            · exact Nat.lt_of_lt_of_le (hkeep i t ht) (Nat.le_add_right _ _)
            · intro _ g' hg
              subst hg
              refine (ih (by omega)).mono ?_
              intro res g' hw
              exact hw.there hskip

theorem safe_namex (hR : R.Lawful sb) (path : Name) (parent : Bool)
    (hkeep : ∀ i t, π = some (i, t) → 0 < r i) :
    (R.logic sb).Safe p (namex sb p path parent) (.rest r π δ) (Walked parent path r π δ) := by
  unfold namex
  by_cases hroot : path.head? = some SLASH
  · rw [if_pos hroot]
    refine .bind (Q := fun ip g' => g' = .rest (r + Pi.single ip 1) π δ)
      (safe_act hR (fun _ => rfl) fun s G labs hat hcoh hg => ?_) ?_
    · refine (wp_iget hcoh.cache.dev (fun _ => hR.benign _ (by decide) (by decide)) fun i s' hget => ?_).wlp
      refine ⟨_, .root (hR.root_fresh (hg ▸ hat)) hget, ?_⟩
      rw [hg]
      rfl
    · intro ip g' hg
      subst hg
      exact safe_namex_loop hR parent (Nat.lt_succ_self _) hkeep
  · rw [if_neg hroot]
    refine .bind (Q := fun ip g' => g' = .rest (r + Pi.single ip 1) π δ)
      (safe_act hR (fun _ => rfl) fun s G labs hat _ hg => ?_) ?_
    · simp only [wlp_bind, wlp_get]
      cases hcwd : (s.proc p).cwd with
      | none => exact hR.benign _ (by decide) (by decide)
      | some i =>
        have hm : (G p).moved = false := by rw [hg]; rfl
        refine ⟨_, .dupCwd hcwd hm (hR.cwd_fresh (hg ▸ hat) hcwd hm), ?_⟩
        rw [hg]
        rfl
    · intro ip g' hg
      subst hg
      exact safe_namex_loop hR parent (Nat.lt_succ_self _) hkeep

/-- The result of `namei`. -/
def Reached (r : Slot → Nat) (π : Option (Slot × Nat × BitVec 16)) (δ : Nat → Nat) :
    Option Slot → Ghost → Prop
  | none, g => g = .rest r π δ
  | some ip, g => g = .rest (r + Pi.single ip 1) π δ

theorem safe_namei (hR : R.Lawful sb) (path : Name) (hkeep : ∀ i t, π = some (i, t) → 0 < r i) :
    (R.logic sb).Safe p (namei sb p path) (.rest r π δ) (Reached r π δ) := by
  unfold namei
  refine .bind (safe_namex hR path false hkeep) ?_
  intro res g' hw
  match res, hw with
  | none, hg => exact hg
  | some (ip, _), ⟨hg, _⟩ => exact hg

end Xv6.Fs
