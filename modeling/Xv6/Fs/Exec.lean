import Xv6.Fs.Coherence
import Xv6.Framework.RelyGuarantee

/-! # Symbolic execution of the system calls

    Every action of every system call is one of the steps listed in `Trans`,
    and at the end of a call the process owns nothing any more. This is shown
    once, for a family of regimes: a regime (`Rules`) adds an invariant of its
    own, a condition on the steps that are taken, and says which panics are
    permitted. What it must satisfy (`Rules.Lawful`) is stated in terms of
    `Trans` alone.
-/

namespace Xv6.Fs

open Op Prog Function

/-! ## Regimes -/

/-- A regime: an invariant and a condition on steps. -/
structure Rules where
  /-- What holds in addition to coherence. -/
  Inv : FsState → (Pid → Ghost) → Prop
  /-- The steps that are taken. -/
  Cond : (Pid → Option Act) → FsState → Pid → Act → Prop
  /-- The panics that are permitted. -/
  Fine : String → Prop
  /-- The order in which locks are taken matters. -/
  strict : Prop

/-- What a process holds when it takes a lock. -/
def LockOrder (g : Ghost) : Act → Prop
  | .acquire _ .plain => (∀ j, g.held j = none) ∧ g.window = none
  | .acquire _ .parent => (∀ j, g.held j = none) ∧ g.window = none
  | .acquire i .child => (∃ dp n x, g.order = some (dp, i, n) ∧ g.held dp = some ⟨.parent, x⟩ ∧
      ∀ j, g.held j ≠ none → j = dp) ∧ g.window = none
  | .acquire i .window => (∃ c n x, g.order = some (i, c, n) ∧ g.held c = some ⟨.child, x⟩ ∧
      ∀ j, g.held j ≠ none → j = c) ∧ g.window = some i
  | _ => g.window = none

/-- The regime as an instance of the proof rule. -/
def Rules.logic (R : Rules) (sb : Superblock) : Logic FsState Act Pid Ghost where
  Coh s G := Coh sb s G ∧ R.Inv s G
  idle := .idle
  Ready _ g l := R.strict → LockOrder g l
  Cond := R.Cond
  Fine := R.Fine

/-- What a regime has to satisfy. -/
structure Rules.Lawful (R : Rules) (sb : Superblock) : Prop where
  /-- Only two panics need an argument. -/
  benign : ∀ msg, msg ≠ "ilock: no type" → msg ≠ "freeing free block" → R.Fine msg
  /-- The steps keep the invariant. -/
  step : ∀ {p l s G labs s' g'}, (R.logic sb).At p (G p) l s G labs → Trans sb p G s l s' g' →
    R.Inv s' (update G p g')
  /-- An inode that is locked through a reference is allocated. -/
  typed : ∀ {p s G labs i site}, (R.logic sb).At p (G p) (.acquire i site) s G labs →
    0 < (G p).refs i → (G p).fresh = none → (G p).dead = none →
    (dinode sb s.disk (s.icache i).inum).type = 0 → R.Fine "ilock: no type"
  /-- Names do not lead to inodes that other processes have just allocated. -/
  root_fresh : ∀ {p s G labs}, (R.logic sb).At p (G p) .root s G labs → NotFresh p G ROOTINO
  found_fresh : ∀ {p s G labs dp name site x n k},
    (R.logic sb).At p (G p) (.lookup dp name) s G labs → (G p).held dp = some ⟨site, some x⟩ →
    x.d.type = T_DIR → Found x.c name n k → NotFresh p G n
  cwd_fresh : ∀ {p l s G labs i}, (R.logic sb).At p (G p) l s G labs →
    (s.proc p).cwd = some i → (G p).moved = false → NotFresh p G (s.icache i).inum
  /-- Nobody refers to a free inode. -/
  unused : ∀ {p l s G labs n}, (R.logic sb).At p (G p) l s G labs →
    (dinode sb s.disk n).type = 0 → ∀ r, r ≠ p → ∀ j, 0 < (G r).refs j → (s.icache j).inum ≠ n

variable {R : Rules} {sb : Superblock} {p : Pid} {g : Ghost} {α : Type} {site : Site} {ip : Slot}
  {G : Pid → Ghost} {r : Slot → Nat} {s : FsState} {name : Name} {x : Snap} {dp : Slot}
  {Q : Unit → FsState → Prop} {n : Nat} {E : String → Prop} {m : Op FsState α}

/-- One action that is a step of `Trans`. -/
theorem safe_act (hR : R.Lawful sb) {l : Act} {Q : α → Ghost → Prop}
    (hready : R.strict → LockOrder g l) (hm : ∀ s G labs, (R.logic sb).At p g l s G labs →
      Coh sb s G → G p = g →
      m.wlp R.Fine (fun b s' => ∃ g', Trans sb p G s l s' g' ∧ Q b g') s) :
    (R.logic sb).Safe p (.atomic l m) g Q := by
  refine Logic.safe_atomic hready fun s G labs hat => ?_
  apply (hm s G labs hat hat.coh.1 hat.self).mono (fun _ => id)
  intro b s' hb
  obtain ⟨g', ht, hQ⟩ := hb
  have hat' : (R.logic sb).At p (G p) l s G labs := by rw [hat.self]; exact hat
  exact ⟨g', ⟨ht.coh hat.coh.1, hR.step hat' ht⟩, hQ⟩

/-- The states differ in nothing that matters: in the log, or in the offset of
    a file. -/
structure Alike (s s' : FsState) : Prop where
  disk : s'.disk = s.disk
  icache : s'.icache = s.icache
  proc : s'.proc = s.proc
  file : ∀ f, (s'.ftable f).type = (s.ftable f).type ∧ (s'.ftable f).ref = (s.ftable f).ref ∧
    (s'.ftable f).ip = (s.ftable f).ip ∧ (s'.ftable f).writable = (s.ftable f).writable

theorem Alike.refl (s : FsState) : Alike s s :=
  ⟨.refl _, .refl _, .refl _, fun _ => ⟨.refl _, .refl _, .refl _, .refl _⟩⟩

/-- An action that reads, or changes nothing that matters. -/
theorem safe_quiet (hR : R.Lawful sb) {Q : α → Ghost → Prop} (hw : g.window = none)
    (hm : ∀ s G labs, (R.logic sb).At p g .other s G labs →
      m.wlp R.Fine (fun b s' => Alike s s' ∧ Q b g) s) : (R.logic sb).Safe p (step m) g Q := by
  refine safe_act hR (fun _ => hw) fun s G labs hat _ _ => ?_
  apply (hm s G labs hat).mono (fun _ => id)
  intro b s' hb
  obtain ⟨h, hQ⟩ := hb
  refine ⟨g, ?_, hQ⟩
  have ht : Trans sb p G s .other s' { G p with use := (G p).use } :=
    .quiet h.disk h.icache h.proc h.file (Or.inl rfl)
  rw [← hat.self]
  exact ht

/-- What is known when `p` acts. -/
theorem coh_of_at {l : Act} {labs : Pid → Option Act} (hat : (R.logic sb).At p g l s G labs) :
    Coh sb s G := hat.coh.1

/-! ## References and locks -/

theorem safe_begin_op (hR : R.Lawful sb) (hw : g.window = none) :
    (R.logic sb).Safe p begin_op g fun _ g' => g' = g :=
  safe_quiet hR hw fun _ _ _ _ => ⟨⟨rfl, rfl, rfl, fun _ => ⟨rfl, rfl, rfl, rfl⟩⟩, rfl⟩

theorem safe_end_op (hR : R.Lawful sb) (hw : g.window = none) :
    (R.logic sb).Safe p end_op g fun _ g' => g' = g :=
  safe_quiet hR hw fun _ _ _ _ => ⟨⟨rfl, rfl, rfl, fun _ => ⟨rfl, rfl, rfl, rfl⟩⟩, rfl⟩

/-- Reading the fields of a locked inode. -/
theorem safe_inode (hR : R.Lawful sb) (hw : g.window = none)
    (hheld : g.held ip = some ⟨site, some x⟩) :
    (R.logic sb).Safe p (inode ip) g fun ino g' =>
      g' = g ∧ ino.toDinode = x.d ∧ ino.inum = x.n ∧ ino.dev = ROOTDEV := by
  refine safe_quiet hR hw fun s G labs hat => ?_
  have hcoh := coh_of_at hat
  have hheld' : (G p).held ip = some ⟨site, some x⟩ := by rw [hat.self]; exact hheld
  simp only [wlp_bind, wlp_get, wlp_pure]
  refine ⟨.refl s, trivial, (hcoh.synced_of_held hheld').2.1,
    (hcoh.knows p).number ip x.n (Or.inl ⟨site, x, hheld', rfl⟩),
    hcoh.cache.dev ip (hcoh.ref_pos_of_held (q := p) (by simp [hheld']))⟩

/-- `acquiresleep` waits, or takes the lock. -/
theorem wlp_acquiresleep
    (hQ : (s.icache ip).lock = none → Q () (s.setInode ip fun ino => { ino with lock := some p })) :
    (acquiresleep p ip).wlp E Q s := by
  unfold acquiresleep
  simp only [wlp_bind, wlp_get]
  cases hl : (s.icache ip).lock with
  | none => exact hQ hl
  | some q => trivial

/-- The pin after a lock has been taken. -/
def pinned (b : Bool) (g : Ghost) (ip : Slot) (x : Snap) : Option (Slot × Nat × BitVec 16) :=
  if b then some (ip, x.n, x.d.type) else g.pin

/-- `ilock` returns with the inode loaded, when it returns. -/
theorem wlp_ilock (h : Coh sb s G) (hE : E "ilock") (htype : (s.icache ip).valid = false →
      (dinode sb s.disk (s.icache ip).inum).type = 0 → E "ilock: no type")
    (hQ : 0 < (s.icache ip).ref → (s.icache ip).lock = none →
      (dinode sb s.disk (s.icache ip).inum).type ≠ 0 →
      Q () (s.setInode ip fun ino =>
        { ino with toDinode := dinode sb s.disk ino.inum, lock := some p, valid := true })) :
    (do
      let s ← Op.get
      if (s.icache ip).ref < 1 then
        Op.panic "ilock"
      else
        acquiresleep p ip
        ilock_load sb ip : Op FsState Unit).wlp E Q s := by
  simp only [wlp_bind, wlp_get]
  by_cases href : (s.icache ip).ref < 1
  · rw [if_pos href]
    exact hE
  · rw [if_neg href, wlp_bind]
    have hr : 0 < (s.icache ip).ref := by omega
    refine wlp_acquiresleep fun hfree => ?_
    unfold ilock_load
    simp only [wlp_bind, wlp_get, setInode_self, setInode_disk]
    cases hv : (s.icache ip).valid with
    | true =>
      -- a loaded entry already agrees with the disk
      obtain ⟨hcopy, ht⟩ := h.cache.sync ip hr hv
      rw [if_pos rfl, wlp_pure]
      have hres := hQ hr hfree (by rw [← hcopy]; exact ht)
      have heq : (s.setInode ip fun ino => { ino with lock := some p }) = s.setInode ip fun ino =>
          { ino with toDinode := dinode sb s.disk ino.inum, lock := some p, valid := true } := by
        simp only [FsState.setInode, ← hcopy, hv]
      rw [heq]
      exact hres
    | false =>
      rw [if_neg (by simp)]
      simp only [wlp_bind, wlp_modify]
      by_cases h0 : (dinode sb s.disk (s.icache ip).inum).type = 0
      · rw [if_pos h0]
        exact htype hv h0
      · rw [if_neg h0, wlp_pure]
        have hres := hQ hr hfree h0
        simpa [FsState.setInode] using hres

theorem Ghost.held_lockAt (g : Ghost) (ip : Slot) (site : Site) (x : Option Snap) :
    (g.lockAt ip site x).held ip = some ⟨site, x⟩ := by
  simp [Ghost.lockAt]

/-- What is learnt when entry `ip` is locked and turns out to be `x`. -/
structure Locked (g : Ghost) (ip : Slot) (x : Snap) : Prop where
  typed : x.d.type ≠ 0
  free : g.held ip = none
  number : ∀ n, g.Numbers ip n → x.n = n
  pinned : ∀ n t, g.pin = some (ip, n, t) → x.d.type = t
  writable : ∀ u, g.use = some u → u.type = .FD_INODE → u.ip = ip → u.writable = true →
    x.d.type ≠ T_DIR

/-- An entry whose lock is free is not held. -/
theorem Coh.held_none_of_free (h : Coh sb s G) (hfree : (s.icache ip).lock = none) (q : Pid) :
    (G q).held ip = none := by
  by_contra hne
  have hlock := (h.lock ip q).mpr hne
  rw [hfree] at hlock
  cases hlock

theorem Coh.locked (h : Coh sb s G) (hfree : (s.icache ip).lock = none)
    (hn : (s.icache ip).inum = x.n) (hd : dinode sb s.disk (s.icache ip).inum = x.d)
    (ht : x.d.type ≠ 0) :
    Locked (G p) ip x where
  typed := ht
  free := h.held_none_of_free hfree p
  number n hnum := by rw [← hn]; exact (h.knows p).number ip n hnum
  pinned n t hpin := by rw [← hd]; exact ((h.knows p).pinned ip _ hpin).2.2
  writable u hu htu hi hw := by
    obtain ⟨_, ht', hi', hw'⟩ := (h.knows p).used u hu
    have hnot := (h.file_inode u.file (ht'.trans htu)).2 (hw'.trans hw)
    rw [hi'.trans hi, hd] at hnot
    exact hnot

theorem safe_ilock (hR : R.Lawful sb) (b : Bool)
    (hready : R.strict → LockOrder g (.acquire ip site))
    (href : 0 < g.refs ip ∨ ∃ u, g.use = some u ∧ u.type = .FD_INODE ∧ u.ip = ip)
    (hfresh : g.fresh = none) (hdead : g.dead = none) (hb : b = true → 0 < g.refs ip) :
    (R.logic sb).Safe p (ilock sb p ip site) g fun _ g' => ∃ x : Snap, Locked g ip x ∧
      g' = { g.lockAt ip site (some x) with pin := pinned b g ip x } := by
  refine safe_act hR hready fun s G labs hat hcoh hg => ?_
  subst hg
  refine wlp_ilock hcoh (hR.benign _ (by decide) (by decide)) (fun hv h0 => ?_)
    fun _ hfree h0 => ?_
  · rcases href with hr | ⟨u, hu, ht, hi⟩
    · exact hR.typed hat hr hfresh hdead h0
    · -- the inode of an open file is loaded
      obtain ⟨_, ht', hi', _⟩ := (hcoh.knows p).used u hu
      have := (hcoh.file_inode u.file (ht'.trans ht)).1
      rw [hi'.trans hi, hv] at this
      exact absurd this (by simp)
  · refine ⟨_, Trans.ilock (x := ⟨(s.icache ip).inum, dinode sb s.disk (s.icache ip).inum,
      s.bytes sb ip⟩) hfree href hfresh rfl rfl rfl h0 ?_, _, hcoh.locked hfree rfl rfl h0, rfl⟩
    show pinned b (G p) ip _ = _ ∨ pinned b (G p) ip _ = _ ∧ _
    unfold pinned
    cases b with
    | true => exact Or.inr ⟨rfl, hb rfl⟩
    | false => exact Or.inl rfl

/-- `ilock` of the inode that `create` has just allocated. -/
theorem safe_ilock_fresh (hR : R.Lawful sb) {dp ip : Slot} {t : BitVec 16}
    (hready : R.strict → LockOrder g (.acquire ip site)) (href : 0 < g.refs ip)
    (hfresh : g.fresh = some (n, t, dp)) (horder : g.order = some (dp, ip, n)) :
    (R.logic sb).Safe p (ilock sb p ip site) g fun _ g' => g.held ip = none ∧
      g' = { g.lockAt ip site (some ⟨n, blank t, []⟩) with
        fresh := none, pin := some (ip, n, t) } := by
  refine safe_act hR hready fun s G labs hat hcoh hg => ?_
  subst hg
  obtain ⟨_, hne, hblank, _⟩ := (hcoh.knows p).isfresh n t dp hfresh
  have hinum := (hcoh.knows p).number ip n (Or.inr (Or.inr ⟨dp, horder⟩))
  refine wlp_ilock hcoh (hR.benign _ (by decide) (by decide)) (fun _ h0 => ?_) fun _ hfree _ => ?_
  · rw [hinum, hblank] at h0
    exact absurd h0 hne
  · refine ⟨_, ?_, hcoh.held_none_of_free hfree p, rfl⟩
    have ht : Trans sb p G s (.acquire ip site) _ _ := .ilockFresh hfree href hfresh hinum
    have heq : (s.setInode ip fun ino =>
        { ino with toDinode := dinode sb s.disk ino.inum, lock := some p, valid := true }) =
        s.setInode ip fun ino => { ino with toDinode := blank t, lock := some p, valid := true } := by
      simp only [FsState.setInode, hinum, hblank]
    rw [heq]
    exact ht

theorem safe_iunlock (hR : R.Lawful sb) (use : Option Using) (window : Option Slot)
    (hw : g.window = none) (hheld : g.held ip ≠ none)
    (huse : use = g.use ∨ use = none ∧ ∀ j, j ≠ ip → g.held j = none)
    (hwindow : window = g.window ∨ window = some ip) (hsole : g.sole = none) :
    (R.logic sb).Safe p (iunlock p ip) g fun _ g' =>
      g' = { g.unlock ip with use := use, window := window } := by
  refine safe_act hR (fun _ => hw) fun s G labs hat _ hg => ?_
  subst hg
  simp only [wlp_bind, wlp_get]
  split
  · exact hR.benign _ (by decide) (by decide)
  · exact ⟨_, .iunlock hheld huse hwindow hsole, rfl⟩

theorem Rules.Lawful.logs (hR : R.Lawful sb) (s : FsState) : Logs R.Fine s :=
  fun _ => hR.benign _ (by decide) (by decide)

/-- The ghost state while `iput` holds the lock. -/
def Ghost.putting (g : Ghost) (ip : Slot) (site : Site) (x : Option Snap)
    (pin : Option (Slot × Nat × BitVec 16)) : Ghost :=
  { g.lockAt ip site x with pin := pin, order := none, window := none }

theorem safe_iput_locked (hR : R.Lawful sb) {pin : Option (Slot × Nat × BitVec 16)}
    {x : Option Snap} {unlinked : Bool} (hr : g.refs = r + Pi.single ip 1) (hdrop : g.drop = none)
    (hsole : g.sole = none) (hpin : ∀ t, pin = some (ip, t) → 0 < r ip)
    (hx : unlinked = true → ∃ y, x = some y ∧ y.d.nlink = 0) :
    (R.logic sb).Safe p (iput_locked sb ip unlinked) (g.putting ip site x pin) fun _ g' =>
      (∃ x', g' = g.putting ip site x' pin) ∨
        g' = { g.putting ip site none pin with refs := r, drop := some ip } := by
  unfold iput_locked
  cases unlinked with
  | false => exact Or.inl ⟨x, rfl⟩
  | true =>
    obtain ⟨y, rfl, hy⟩ := hx rfl
    rw [if_pos rfl]
    have hself : (g.putting ip site (some y) pin).held ip = some ⟨site, some y⟩ := by
      simp [Ghost.putting, Ghost.lockAt]
    -- reading the reference count: if it is 1, nobody else refers to the inode
    refine .bind (Q := fun k g' =>
      k = 1 ∧ g' = { g.putting ip site (some y) pin with sole := some ip } ∧ r ip = 0 ∨
      k ≠ 1 ∧ g' = g.putting ip site (some y) pin) (safe_act hR (fun _ => rfl) ?_) ?_
    · intro s G labs hat hcoh hg
      simp only [wlp_bind, wlp_get, wlp_pure]
      have hrefs : (G p).refs ip = r ip + 1 := by
        rw [hg]
        show g.refs ip = _
        rw [hr]
        simp
      by_cases hone : (s.icache ip).ref = 1
      · refine ⟨{ G p with sole := some ip }, .alone (by rw [hg]; exact hself) (by omega) hone hy,
          Or.inl ⟨hone, by rw [hg], ?_⟩⟩
        have h1 := hcoh.iref ip
        have h2 := Accounts.le_sum (f := fun q => (G q).slotRefs (s.proc q).cwd ip) p
        have h3 := Ghost.refs_le_slotRefs (G p) (s.proc p).cwd ip
        omega
      · refine ⟨{ G p with use := (G p).use }, ?_, Or.inr ⟨hone, hg⟩⟩
        have ha := Alike.refl s
        exact .quiet ha.disk ha.icache ha.proc ha.file (Or.inl rfl)
    · intro k g' hk
      rcases hk with ⟨rfl, rfl, hr0⟩ | ⟨hk, rfl⟩
      · rw [if_pos rfl]
        refine safe_act hR (fun _ => rfl) fun s G labs hat hcoh hg => ?_
        have hheld : (G p).held ip = some ⟨site, some y⟩ := by rw [hg]; exact hself
        refine (wp_iput_free (hcoh.synced_of_held hheld).1 hcoh.vol (hR.logs s) ?_).wlp
        intro disk d ht h0
        refine ⟨_, .free (by rw [hg]) hheld hy (by rw [hg]; exact hr) hr0 (by rw [hg]; exact hdrop)
          (fun t htp => ?_) (by rw [hg]; rfl) ht h0, Or.inr ?_⟩
        · rw [hg] at htp
          have := hpin t htp
          omega
        · rw [hg]
          simp [Ghost.putting, Ghost.lockAt, hsole]
      · rw [if_neg hk]
        exact Or.inl ⟨some y, rfl⟩

/-- `iput` gives up a reference. -/
theorem safe_iput_at (hR : R.Lawful sb) (pin : Option (Slot × Nat × BitVec 16)) (dead : Option Slot)
    (hready : R.strict → LockOrder g (.acquire ip site)) (hr : g.refs = r + Pi.single ip 1)
    (hheld : g.held ip = none) (hdrop : g.drop = none) (hfresh : g.fresh = none)
    (hsole : g.sole = none) (hpin : pin = g.pin ∨ pin = none)
    (hkeep : ∀ t, pin = some (ip, t) → 0 < r ip)
    (hdead : dead = if g.dead = some ip then none else g.dead) :
    (R.logic sb).Safe p (iput sb p ip site) g fun _ g' =>
      g' = { g with refs := r, pin := pin, order := none, window := none, dead := dead } := by
  have href : 0 < g.refs ip := by rw [hr]; simp
  unfold iput
  refine .bind (Q := fun b g' => ∃ x, g' = g.putting ip site x pin ∧
    (b = true → ∃ y, x = some y ∧ y.d.nlink = 0)) (safe_act hR hready ?_) ?_
  · intro s G labs hat hcoh hg
    rw [wlp_bind]
    refine wlp_acquiresleep fun hfree => ?_
    simp only [wlp_bind, wlp_get, wlp_pure]
    refine ⟨_, .putLock hfree (by rw [hg]; exact href) (by rw [hg]; exact hpin), s.snap? sb ip,
      by rw [hg]; rfl, fun hb => ?_⟩
    simp only [setInode_self, Bool.and_eq_true, decide_eq_true_eq] at hb
    unfold FsState.snap?
    rw [if_pos hb.1]
    refine ⟨_, rfl, ?_⟩
    rw [← (hcoh.synced (hcoh.ref_pos (q := p) (by rw [hg]; exact href)) hb.1).copy]
    exact hb.2
  · rintro b g' ⟨x, rfl, hx⟩
    refine .bind (safe_iput_locked hR hr hdrop hsole hkeep hx) ?_
    intro _ g' hput
    refine .bind (Q := fun _ g' => g' =
      { g with
        refs := r, pin := pin, order := none, window := none, dead := dead, drop := some ip })
      (safe_act hR (fun _ => by rcases hput with ⟨x', rfl⟩ | rfl <;> rfl) ?_) ?_
    · -- the lock is given up, whether or not the inode has been freed
      intro s G labs hat _ hg
      rcases hput with ⟨x', rfl⟩ | rfl
      · refine ⟨_, .release (i := ip) (r := r) dead ?_ (Or.inl ⟨?_, ?_⟩) ?_ ?_ ?_ ?_, ?_⟩
        · rw [hg]; simp [Ghost.putting, Ghost.lockAt]
        · rw [hg]; exact hr
        · rw [hg]; exact hdrop
        · rw [hg]; exact hkeep
        · rw [hg]; rfl
        · rw [hg]; exact hfresh
        · rw [hg]; exact hdead
        · rw [hg]
          simp [Ghost.putting, Ghost.lockAt, Ghost.unlock, hsole, update_eq_self_iff, hheld]
      · refine ⟨_, .release (i := ip) (r := r) dead ?_ (Or.inr ⟨?_, ?_⟩) ?_ ?_ ?_ ?_, ?_⟩
        · rw [hg]; simp [Ghost.putting, Ghost.lockAt]
        · rw [hg]
        · rw [hg]
        · rw [hg]; exact hkeep
        · rw [hg]; rfl
        · rw [hg]; exact hfresh
        · rw [hg]; exact hdead
        · rw [hg]
          simp [Ghost.putting, Ghost.lockAt, Ghost.unlock, hsole, update_eq_self_iff, hheld]
    · rintro _ g' rfl
      refine safe_act hR (fun _ => rfl) fun s G labs hat _ hg => ?_
      refine ⟨_, .dropped (i := ip) (by rw [hg]) (by rw [hg]; exact hheld), ?_⟩
      rw [hg]
      simp [hdrop]

/-- `iput` when no other reference is waiting to be dropped. -/
theorem safe_iput (hR : R.Lawful sb) (pin : Option (Slot × Nat × BitVec 16))
    (hready : R.strict → LockOrder g (.acquire ip site)) (hr : g.refs = r + Pi.single ip 1)
    (hheld : g.held ip = none) (hdrop : g.drop = none) (hfresh : g.fresh = none)
    (hsole : g.sole = none) (hpin : pin = g.pin ∨ pin = none)
    (hkeep : ∀ t, pin = some (ip, t) → 0 < r ip) (hdead : g.dead = none ∨ g.dead = some ip) :
    (R.logic sb).Safe p (iput sb p ip site) g fun _ g' =>
      g' = { g with refs := r, pin := pin, order := none, window := none, dead := none } := by
  refine safe_iput_at hR pin none hready hr hheld hdrop hfresh hsole hpin hkeep ?_
  rcases hdead with h | h <;> simp [h]

/-- A process that holds the lock waits for itself for ever. -/
theorem safe_iput_blocked (hR : R.Lawful sb) {Q : Unit → Ghost → Prop}
    (hready : R.strict → LockOrder g (.acquire ip site)) (hheld : g.held ip ≠ none) :
    (R.logic sb).Safe p (iput sb p ip site) g Q := by
  unfold iput
  refine .bind (Q := fun _ _ => False) (safe_act hR hready fun s G labs hat _ _ => ?_)
    fun _ _ h => h.elim
  have hlock := ((coh_of_at hat).lock ip p).mpr (by rw [hat.self]; exact hheld)
  rw [wlp_bind]
  refine wlp_acquiresleep fun hfree => ?_
  rw [hfree] at hlock
  exact absurd hlock (by simp)

theorem Ghost.settle (g : Ghost) (ho : g.order = none) (hw : g.window = none)
    (hd : g.dead = none) : { g with order := none, window := none, dead := none } = g := by
  cases g
  simp only at ho hw hd
  simp only [ho, hw, hd]

/-- `iunlockput`, `w` being the directory to be put while its child is locked. -/
theorem safe_iunlockput (hR : R.Lawful sb) (pin : Option (Slot × Nat × BitVec 16)) (w : Option Slot)
    (hready : R.strict → LockOrder { g.unlock ip with window := w } (.acquire ip site))
    (hw : g.window = none) (hww : w = none ∨ w = some ip) (hheld : g.held ip ≠ none)
    (hr : g.refs = r + Pi.single ip 1) (hdrop : g.drop = none) (hfresh : g.fresh = none)
    (hsole : g.sole = none) (hpin : pin = g.pin ∨ pin = none)
    (hkeep : ∀ t, pin = some (ip, t) → 0 < r ip) (dead : Option Slot)
    (hdead : dead = if g.dead = some ip then none else g.dead) :
    (R.logic sb).Safe p (iunlockput sb p ip site) g fun _ g' =>
      g' = { g.unlock ip with
        refs := r, pin := pin, order := none, window := none, dead := dead } := by
  unfold iunlockput
  refine .bind (safe_iunlock hR g.use w hw hheld (Or.inl rfl)
    (hww.imp_left fun h => h.trans hw.symm) hsole) ?_
  rintro _ g' rfl
  refine (safe_iput_at hR (g := { g.unlock ip with use := g.use, window := w }) pin dead hready hr
    (by simp [Ghost.unlock]) hdrop hfresh hsole hpin hkeep hdead).mono ?_
  rintro _ g' rfl
  rfl

/-! ## Directories -/

/-- The result of `dirlookup` in the directory `x`; with `b` the ghost state
    remembers that the inode is below `dp`. -/
def DirLooked (g : Ghost) (dp : Slot) (x : Snap) (name : Name) (b : Bool) :
    Option (Slot × Nat) → Ghost → Prop
  | none, g' => g' = g ∧ x.d.type = T_DIR ∧ Absent x.c name
  | some (ip, off), g' => x.d.type = T_DIR ∧ ∃ n k, off = DIRENT * k ∧ Found x.c name n k ∧
      g' = { g.addRef ip with order := if b then some (dp, ip, n) else g.order }

theorem Found.not_absent {c : List Byte} {n k : Nat} (h : Found c name n k) :
    ¬ Absent c name :=
  fun habs => absurd h.match_ (habs k h.has (by rw [h.inum]; exact h.live))

theorem safe_dirlookup (hR : R.Lawful sb) (b : Bool) (hw : g.window = none)
    (hheld : g.held dp = some ⟨site, some x⟩) (hb : b = true → 0 < g.refs dp ∧ ¬ IsDot name)
    (hfind : ¬ Absent x.c name → g.dead = none ∧ g.making = none) :
    (R.logic sb).Safe p (dirlookup sb dp name) g (DirLooked g dp x name b) := by
  refine safe_act hR (fun _ => hw) fun s G labs hat hcoh hg => ?_
  subst hg
  obtain ⟨hs, hd, hc⟩ := hcoh.synced_of_held hheld
  have hr := hcoh.ref_pos_of_held (q := p) (i := dp) (by simp [hheld])
  rw [wlp_bind]
  refine (wp_dirlookup_search hs hcoh.vol.image (fun _ => hR.benign _ (by decide) (by decide))
    (fun _ => hR.benign _ (by decide) (by decide)) fun hdir => ?_).wlp
  rw [hd] at hdir
  have hlook := lookedUp_search x.c name
  rw [hc]
  generalize search x.c name = r at hlook ⊢
  match r, hlook with
  | none, habs =>
    refine ⟨{ G p with use := (G p).use }, ?_, rfl, hdir, habs⟩
    have ha := Alike.refl s
    exact .quiet ha.disk ha.icache ha.proc ha.file (Or.inl rfl)
  | some (n, off), ⟨k, hoff, hfound⟩ =>
    show wlp (iget_beside dp n >>= fun ip => pure (some (ip, off))) _ _ s
    rw [wlp_bind]
    refine (wp_iget_beside hcoh.cache.dev hr (fun _ => hR.benign _ (by decide) (by decide)) ?_).wlp
    intro i s' hget
    obtain ⟨hdead, hmaking⟩ := hfind hfound.not_absent
    refine ⟨_, .found hheld hdir hfound (hR.found_fresh hat hheld hdir hfound) hdead hmaking hget ?_,
      hdir, n, k, hoff, hfound, rfl⟩
    cases b with
    | true => exact Or.inr ⟨rfl, hb rfl⟩
    | false => exact Or.inl rfl

/-- Writing the new entry. -/
theorem safe_dirlink_write (hR : R.Lawful sb) {pend : Nat → Nat} {making : Option Nat}
    (hw : g.window = none) (hheld : g.held dp = some ⟨site, some x⟩) (hdir : x.d.type = T_DIR)
    (habs : Absent x.c name) (hnum : ∃ i, g.Numbers i n) (hsole : g.sole = none)
    (hfor : LinkFor g dp x name n pend making) :
    (R.logic sb).Safe p (step (dirlink_write sb dp name n)) g fun _ g' => ∃ k d, EmptyAt x.c k ∧
      d.type = T_DIR ∧ g' = { g.lockAt dp site
        (some ⟨x.n, d, splice x.c (DIRENT * k) (direntBytes name n)⟩) with
          pend := pend, making := making } := by
  refine safe_act hR (fun _ => hw) fun s G labs hat hcoh hg => ?_
  subst hg
  obtain ⟨hs, hd, hc⟩ := hcoh.synced_of_held hheld
  obtain ⟨i, hi⟩ := hnum
  have hlt := hcoh.cache.inum_lt i (hcoh.in_use p i ((hcoh.knows p).numbers_use hi))
  rw [(hcoh.knows p).number i n hi] at hlt
  refine (wp_dirlink_write hs hcoh.vol (hR.logs s) (fun _ => hR.benign _ (by decide) (by decide))
    (fun _ => hR.benign _ (by decide) (by decide)) (fun _ => hR.benign _ (by decide) (by decide))
    (by rw [hd]; exact hdir) hlt ?_).wlp
  intro k disk d hfirst hrw
  rw [hc] at hfirst hrw
  have hempty := hfirst.1
  refine ⟨_, .link hheld hdir habs hempty hlt hsole hfor hrw, k, d, hempty, ?_, rfl⟩
  rw [hrw.type_eq hd]
  exact hdir

/-- The result of `dirlink`: it succeeds, or finds an entry of this name. -/
def DirLinked (g : Ghost) (dp : Slot) (site : Site) (x : Snap) (name : Name) (n : Nat)
    (pend : Nat → Nat) (b : Bool) (g' : Ghost) : Prop :=
  b = true ∧ (∃ k d, EmptyAt x.c k ∧ d.type = T_DIR ∧ g' = { g.lockAt dp site
    (some ⟨x.n, d, splice x.c (DIRENT * k) (direntBytes name n)⟩) with pend := pend }) ∨
  b = false ∧ g' = g ∧ ¬ Absent x.c name

/-- `dirlink` when there is no entry of this name. -/
theorem safe_dirlink_absent (hR : R.Lawful sb) (pend : Nat → Nat) (making : Option Nat)
    (hw : g.window = none) (hheld : g.held dp = some ⟨site, some x⟩) (habs : Absent x.c name)
    (hnum : ∃ i, g.Numbers i n) (hsole : g.sole = none) (hfor : LinkFor g dp x name n pend making) :
    (R.logic sb).Safe p (dirlink sb p dp name n) g fun b g' => b = true ∧ ∃ k d, EmptyAt x.c k ∧
      d.type = T_DIR ∧ g' = { g.lockAt dp site
        (some ⟨x.n, d, splice x.c (DIRENT * k) (direntBytes name n)⟩) with
          pend := pend, making := making } := by
  unfold dirlink
  refine .bind (safe_dirlookup hR false hw hheld (by simp) (absurd habs)) ?_
  intro r g' hlook
  match r, hlook with
  | none, ⟨hg, hdir, _⟩ =>
    subst hg
    refine .bind (safe_dirlink_write hR hw hheld hdir habs hnum hsole hfor) ?_
    intro _ g'' hlinked
    exact ⟨rfl, hlinked⟩
  | some (ip, off), ⟨_, m, k, _, hfound, _⟩ => exact absurd habs hfound.not_absent

/-- `dirlink` in `sys_link`, where an entry of this name may be found; then the
    inode it names is put while `dp` is locked. -/
theorem safe_dirlink (hR : R.Lawful sb) (pend : Nat → Nat) (hw : g.window = none)
    (hheld : g.held dp = some ⟨.parent, some x⟩) (hnum : ∃ i, g.Numbers i n)
    (hfor : LinkFor g dp x name n pend g.making) (hname : R.strict → ¬ IsDot name)
    (honly : ∀ j, g.held j ≠ none → j = dp) (hdp : 0 < g.refs dp) (horder : g.order = none)
    (hdrop : g.drop = none) (hfresh : g.fresh = none) (hsole : g.sole = none)
    (hdead : g.dead = none) (hmaking : g.making = none)
    (hpin : ∀ i t, g.pin = some (i, t) → 0 < g.refs i) :
    (R.logic sb).Safe p (dirlink sb p dp name n) g (DirLinked g dp .parent x name n pend) := by
  classical
  unfold dirlink
  refine .bind (safe_dirlookup hR (decide (¬ IsDot name)) hw hheld
    (fun hb => ⟨hdp, by simpa using hb⟩) fun _ => ⟨hdead, hmaking⟩) ?_
  intro r g' hlook
  match r, hlook with
  | none, ⟨hg, hdir, habs⟩ =>
    subst hg
    refine .bind (safe_dirlink_write hR hw hheld hdir habs hnum hsole hfor) ?_
    intro _ g'' hlinked
    exact Or.inl ⟨rfl, hlinked⟩
  | some (ip, off), ⟨_, m, k, _, hfound, hg⟩ =>
    subst hg
    -- the inode found is put; if it were `dp` itself this would wait for ever
    by_cases hip : g.held ip = none
    · refine .bind (safe_iput hR (r := g.refs) g.pin (fun hs => ?_) rfl hip hdrop hfresh hsole
        (Or.inl rfl) (fun t ht => hpin ip t ht) (Or.inl hdead)) ?_
      · refine ⟨⟨dp, m, some x, ?_, hheld, honly⟩, hw⟩
        simp [hname hs]
      · rintro _ g' rfl
        exact Or.inr ⟨rfl, g.settle horder hw hdead, hfound.not_absent⟩
    · refine .bind (Q := fun _ _ => False)
        (safe_iput_blocked hR (fun hs => ?_) hip) fun _ _ h => h.elim
      refine ⟨⟨dp, m, some x, ?_, hheld, honly⟩, hw⟩
      simp [hname hs]

end Xv6.Fs
