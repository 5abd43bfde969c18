import Xv6.Log.Commit

/-! # Crash atomicity of `commit` and `recover_from_log`

    The disk goes through three phases: `Clean` (header empty, nothing
    changed outside the log area), `Committed` (header and log slots hold the
    transaction, each home block is old or new) and `Installed` (header empty
    again, home blocks new). A crash of `commit` leaves the disk in one of
    them, and every prefix of the writes of a recovery moves along them and
    never back. Running `install_trans` twice is harmless because it reads
    only log slots and writes only home blocks.
-/

namespace Xv6.Log

open WriteSeq Function

variable {start size : Nat}

/-! ## Phases of the disk -/

/-- Block `a` is outside the log area and not part of the transaction. -/
def Untouched (t : Transaction start size) (a : Nat) : Prop :=
  (a < start ∨ start + size ≤ a) ∧ ∀ b ∈ t.lh, b.toNat ≠ a

/-- Nothing is committed: the header is empty and every block outside the
    log area is as in `d₀`. -/
structure Clean (t : Transaction start size) (d₀ d : Disk) : Prop where
  header : (d start).word 0 = 0
  same : ∀ a, (a < start ∨ start + size ≤ a) → d a = d₀ a

/-- The transaction is committed and not yet erased from the log. -/
structure Committed (t : Transaction start size) (new : Nat → Block) (d₀ d : Disk) : Prop where
  header : getHead (d start) = t.lh
  slots : SlotsHold start 0 t.lh d new
  home : ∀ b ∈ t.lh, d b.toNat = d₀ b.toNat ∨ d b.toNat = new b.toNat
  same : ∀ a, Untouched t a → d a = d₀ a

/-- The transaction is installed and erased from the log. -/
structure Installed (t : Transaction start size) (new : Nat → Block) (d₀ d : Disk) : Prop where
  header : (d start).word 0 = 0
  home : ∀ b ∈ t.lh, d b.toNat = new b.toNat
  same : ∀ a, Untouched t a → d a = d₀ a

/-! ## How writes move the phases -/

section Phases

variable {t : Transaction start size} {new : Nat → Block} {d₀ d : Disk} {ws : List (Nat × Block)}

theorem Transaction.slot_lt (t : Transaction start size) {b : BitVec 32} (hb : b ∈ t.lh) :
    b.toNat < start ∨ start + t.lh.length < b.toNat := by
  have h1 := t.outside b hb
  have h2 := t.fits_area
  omega

theorem nodup_homeWrites (t : Transaction start size) (new : Nat → Block) :
    ((homeWrites t.lh new).map Prod.fst).Nodup := by
  simp only [homeWrites, List.map_map]
  apply t.nodup.map
  intro a b h
  exact BitVec.eq_of_toNat_eq h

/-- A change of the header block alone, with an empty list. -/
theorem Clean.erase (h : Clean t d₀ d) (hb : Block) :
    Clean t d₀ (apply [(start, setHead hb [])] d) where
  header := by
    rw [apply_cons, apply_nil, update_self]
    exact word_zero_setHead _ [] (by simp)
  same := by
    intro a ha
    rw [apply_cons, apply_nil, update_of_ne (by have := t.fits_area; simp; omega)]
    exact h.same a ha

theorem Installed.erase (h : Installed t new d₀ d) (hb : Block) :
    Installed t new d₀ (apply [(start, setHead hb [])] d) where
  header := by
    rw [apply_cons, apply_nil, update_self]
    exact word_zero_setHead _ [] (by simp)
  home := by
    intro b hb
    have := t.outside b hb
    rw [apply_cons, apply_nil, update_of_ne (by have := t.fits_area; simp; omega)]
    exact h.home b hb
  same := by
    intro a ha
    have := ha.1
    rw [apply_cons, apply_nil, update_of_ne (by have := t.fits_area; simp; omega)]
    exact h.same a ha

/-- Writing log slots changes nothing that the `Clean` phase speaks of. -/
theorem Clean.log (h : Clean t d₀ d) (hws : ∀ w ∈ ws, start < w.1 ∧ w.1 < start + size) :
    Clean t d₀ (apply ws d) where
  header := by
    rw [apply_of_not_mem (fun w hw => by have := hws w hw; omega)]
    exact h.header
  same := by
    intro a ha
    rw [apply_of_not_mem (fun w hw => by have := hws w hw; omega)]
    exact h.same a ha

theorem mem_logWrites_area {w : Nat × Block} (h : w ∈ logWrites start 0 t.lh new) :
    start < w.1 ∧ w.1 < start + size := by
  have h1 := fst_mem_logWrites h
  have h2 := t.fits_area
  omega

theorem slotsHold_logWrites (lh : List (BitVec 32)) (tail : Nat) (new : Nat → Block) (d : Disk) :
    SlotsHold start tail lh (apply (logWrites start tail lh new) d) new := by
  induction lh generalizing tail d with
  | nil =>
    intro i b hb
    simp at hb
  | cons b lh ih =>
    intro i c hc
    unfold logWrites
    rw [apply_cons]
    cases i with
    | zero =>
      simp only [List.getElem?_cons_zero, Option.some.injEq] at hc
      subst hc
      -- the later slots are all further on
      rw [apply_of_not_mem (fun w hw => by have := fst_mem_logWrites hw; omega)]
      exact update_self _ _ _
    | succ i =>
      simp only [List.getElem?_cons_succ] at hc
      have := ih (tail + 1) (update d (start + tail + 1) (new b.toNat)) i c hc
      rwa [show start + (tail + 1) + i + 1 = start + tail + (i + 1) + 1 by omega] at this

/-- Writing the header over complete log slots is the commit point. -/
theorem Clean.commit (h : Clean t d₀ d) (hslots : SlotsHold start 0 t.lh d new) (hb : Block)
    : Committed t new d₀ (apply [(start, setHead hb t.lh)] d) where
  header := by
    rw [apply_cons, apply_nil, update_self]
    exact getHead_setHead _ _ t.fits_header
  slots := by
    apply hslots.congr
    intro a ha _
    exact update_of_ne (by have := t.fits_area; simp; omega) _ _
  home := by
    intro b hb
    have hout := t.outside b hb
    left
    rw [apply_cons, apply_nil, update_of_ne (by have := t.fits_area; simp; omega)]
    exact h.same _ hout
  same := by
    intro a ha
    have := ha.1
    rw [apply_cons, apply_nil, update_of_ne (by have := t.fits_area; simp; omega)]
    exact h.same a ha.1

/-- Any of the home writes may already have happened. -/
theorem Committed.install (h : Committed t new d₀ d) (hws : ws.Sublist (homeWrites t.lh new)) :
    Committed t new d₀ (apply ws d) := by
  have hnd := hws.map Prod.fst |>.nodup (nodup_homeWrites t new)
  have hmem : ∀ w ∈ ws, ∃ b ∈ t.lh, w = (b.toNat, new b.toNat) := by
    intro w hw
    obtain ⟨b, hb, rfl⟩ := List.mem_map.mp (hws.subset hw)
    exact ⟨b, hb, rfl⟩
  have hkeep : ∀ a, start ≤ a → a ≤ start + t.lh.length → apply ws d a = d a := by
    intro a h1 h2
    apply apply_of_not_mem
    intro w hw
    obtain ⟨b, hb, rfl⟩ := hmem w hw
    have := t.slot_lt hb
    simp only
    omega
  refine ⟨?_, ?_, ?_, ?_⟩
  · rw [hkeep start le_rfl (by omega)]
    exact h.header
  · apply h.slots.congr
    intro a h1 h2
    exact hkeep a (by omega) (by omega)
  · intro b hb
    by_cases hin : (b.toNat, new b.toNat) ∈ ws
    · exact Or.inr (apply_of_mem hnd hin d)
    · rw [apply_of_not_mem]
      · exact h.home b hb
      · intro w hw heq
        obtain ⟨c, hc, rfl⟩ := hmem w hw
        simp only at heq
        exact hin (heq ▸ hw)
  · intro a ha
    rw [apply_of_not_mem]
    · exact h.same a ha
    · intro w hw
      obtain ⟨b, hb, rfl⟩ := hmem w hw
      exact ha.2 b hb

/-- All home writes and then the erased header finish the transaction. -/
theorem Committed.finish (h : Committed t new d₀ d) (hb : Block) :
    Installed t new d₀
      (apply [(start, setHead hb [])] (apply (homeWrites t.lh new) d)) := by
  have hc := h.install (List.Sublist.refl _)
  refine ⟨?_, ?_, ?_⟩
  · rw [apply_cons, apply_nil, update_self]
    exact word_zero_setHead _ [] (by simp)
  · intro b hb
    have := t.outside b hb
    rw [apply_cons, apply_nil, update_of_ne (by have := t.fits_area; simp; omega)]
    exact apply_of_mem (nodup_homeWrites t new) (List.mem_map_of_mem hb) d
  · intro a ha
    have := ha.1
    rw [apply_cons, apply_nil, update_of_ne (by have := t.fits_area; simp; omega)]
    exact hc.same a ha

end Phases

/-! ## Crashes of `commit` -/

/-- The writes `commit` issues for a non-empty transaction. -/
theorem commit_out (t : Transaction start size) (buf : Nat → Block) (hne : t.lh ≠ []) :
    ∃ h₁ h₂, (commit start t.lh { buf, out := [] }).out =
      logWrites start 0 t.lh buf ++ ([(start, setHead h₁ t.lh)] ++
        (homeWrites t.lh buf ++ [(start, setHead h₂ [])])) := by
  have hpos : t.lh.length > 0 := List.length_pos_iff.mpr hne
  have hout : ∀ b ∈ t.lh, b.toNat ≤ start + 0 ∨ start + 0 + t.lh.length < b.toNat := by
    intro b hb
    have := t.slot_lt hb
    omega
  let m₁ := write_log start 0 t.lh { buf, out := [] }
  let m₂ := write_head start t.lh m₁
  have hslots : SlotsHold start 0 t.lh m₂.buf buf := by
    apply (write_log_slots { buf, out := [] } 0 hout).1.congr
    intro a ha _
    exact update_of_ne (by omega) _ _
  refine ⟨m₁.buf start, (install_trans start 0 t.lh m₂).buf start, ?_⟩
  have h1 : m₁.out = logWrites start 0 t.lh buf := by
    simpa using write_log_out { buf, out := [] } 0 hout
  have h2 : m₂.out = m₁.out ++ [(start, setHead (m₁.buf start) t.lh)] := by
    simp [m₂, write_head, bwrite, Machine.setBuf]
  have h3 := install_trans_out m₂ 0 buf hslots hout
  simp only [commit, if_pos hpos]
  change (write_head start [] (install_trans start 0 t.lh m₂)).out = _
  simp [write_head, bwrite, Machine.setBuf, h3, h2, h1]

/-- A crash of `commit` leaves the disk in one of the three phases, and past
    `Clean` once the first header write is through. -/
theorem commit_crash (t : Transaction start size) (buf : Nat → Block) (d : Disk) (k : Nat)
    (hclean : (d start).word 0 = 0) :
    let dk := crash (commit start t.lh { buf, out := [] }).out k d
    (Clean t d dk ∧ (k ≤ t.lh.length ∨ t.lh = [])) ∨
      Committed t buf d dk ∨ Installed t buf d dk := by
  intro dk
  have h0 : Clean t d d := ⟨hclean, fun _ _ => rfl⟩
  by_cases hne : t.lh = []
  · left
    have : dk = d := by simp [dk, commit, hne, crash]
    rw [this]
    exact ⟨h0, Or.inr hne⟩
  · obtain ⟨h₁, h₂, hw⟩ := commit_out t buf hne
    have hdk : dk = crash (logWrites start 0 t.lh buf ++ ([(start, setHead h₁ t.lh)] ++
        (homeWrites t.lh buf ++ [(start, setHead h₂ [])]))) k d := by
      simp only [dk, hw]
    rw [crash_append, length_logWrites] at hdk
    by_cases hk : k ≤ t.lh.length
    · -- the log is still being written
      left
      rw [if_pos hk] at hdk
      rw [hdk]
      refine ⟨h0.log ?_, Or.inl hk⟩
      intro w hw
      exact mem_logWrites_area (List.mem_of_mem_take hw)
    · right
      -- the header has been written: the transaction is committed
      have hclean1 : Clean t d (apply (logWrites start 0 t.lh buf) d) :=
        h0.log fun w hw => mem_logWrites_area hw
      have hcomm := hclean1.commit (slotsHold_logWrites t.lh 0 buf d) h₁
      rw [if_neg hk, crash_append] at hdk
      by_cases hk1 : k - t.lh.length ≤ [(start, setHead h₁ t.lh)].length
      · left
        rw [if_pos hk1, crash_singleton, if_neg (by omega)] at hdk
        exact hdk ▸ hcomm
      · rw [if_neg hk1, crash_append] at hdk
        split at hdk
        · left
          rw [hdk]
          exact hcomm.install (List.take_sublist _ _)
        · right
          rw [crash_singleton, if_neg (by omega)] at hdk
          exact hdk ▸ hcomm.finish h₂

/-! ## Crashes of recovery -/

/-- From an empty header, recovery only rewrites the header. -/
theorem recover_out_empty {d : Disk} (h : (d start).word 0 = 0) :
    ∃ hb, (recover_from_log start (boot d)).out = [(start, setHead hb [])] := by
  refine ⟨d start, ?_⟩
  have hread : read_head start (boot d) = [] := getHead_eq_nil h
  unfold recover_from_log
  rw [hread]
  simp [install_trans, write_head, bwrite, Machine.setBuf, boot]

/-- From a committed log, recovery writes the home blocks and the header. -/
theorem recover_out_committed {t : Transaction start size} {new : Nat → Block} {d₀ d : Disk}
    (h : Committed t new d₀ d) :
    ∃ hb, (recover_from_log start (boot d)).out =
      homeWrites t.lh new ++ [(start, setHead hb [])] := by
  refine ⟨(install_trans start 0 t.lh (boot d)).buf start, ?_⟩
  have hread : read_head start (boot d) = t.lh := h.header
  have hinst := install_trans_out (boot d) 0 new h.slots (fun b hb => by
    have := t.slot_lt hb
    omega)
  unfold recover_from_log
  rw [hread]
  simp only [write_head, bwrite, Machine.setBuf, hinst, update_self]
  rfl

/-- A disk with nothing committed stays so through any recoveries. -/
theorem recovers_clean {t : Transaction start size} {d₀ d d' : Disk}
    (hrec : Recovers start d d') (h : Clean t d₀ d) : Clean t d₀ d' := by
  induction hrec with
  | done d =>
    obtain ⟨hb, hout⟩ := recover_out_empty h.header
    rw [hout]
    exact h.erase hb
  | again d d' k _ ih =>
    apply ih
    obtain ⟨hb, hout⟩ := recover_out_empty h.header
    rw [hout, crash_singleton]
    split
    · exact h
    · exact h.erase hb

/-- An installed transaction stays installed. -/
theorem recovers_installed {t : Transaction start size} {new : Nat → Block} {d₀ d d' : Disk}
    (hrec : Recovers start d d') (h : Installed t new d₀ d) :
    Installed t new d₀ d' := by
  induction hrec with
  | done d =>
    obtain ⟨hb, hout⟩ := recover_out_empty h.header
    rw [hout]
    exact h.erase hb
  | again d d' k _ ih =>
    apply ih
    obtain ⟨hb, hout⟩ := recover_out_empty h.header
    rw [hout, crash_singleton]
    split
    · exact h
    · exact h.erase hb

/-- A committed transaction ends up installed. -/
theorem recovers_committed {t : Transaction start size} {new : Nat → Block} {d₀ d d' : Disk}
    (hrec : Recovers start d d') (h : Committed t new d₀ d) :
    Installed t new d₀ d' := by
  induction hrec with
  | done d =>
    obtain ⟨hb, hout⟩ := recover_out_committed h
    rw [hout, apply_append]
    exact h.finish hb
  | again d d' k hrec ih =>
    obtain ⟨hb, hout⟩ := recover_out_committed h
    rw [hout, crash_append] at ih hrec
    split at ih
    · -- crashed among the home writes: still committed
      exact ih (h.install (List.take_sublist _ _))
    · next hk =>
      -- crashed after the last write: already installed
      rw [if_neg hk, crash_singleton, if_neg (by omega)] at hrec
      exact recovers_installed hrec (h.finish hb)

/-! ## The theorem -/

/-- **Crash atomicity.** Take a disk whose log header is empty, a transaction
    and any buffer contents. Let `commit` crash after any prefix of its writes
    and let recovery run, itself crashing any number of times. After the first
    recovery that completes, the home blocks are all old or all new, all new
    if the first header write got through, every block outside the transaction
    and the log area is unchanged, and the header is empty. -/
theorem commit_crash_atomic (t : Transaction start size) (d d' : Disk) (buf : Nat → Block)
    (k : Nat) (hclean : (d start).word 0 = 0)
    (hrec : Recovers start (crash (commit start t.lh { buf, out := [] }).out k d) d') :
    ((∀ b ∈ t.lh, d' b.toNat = d b.toNat) ∨ (∀ b ∈ t.lh, d' b.toNat = buf b.toNat)) ∧
    (t.lh.length < k → ∀ b ∈ t.lh, d' b.toNat = buf b.toNat) ∧
    (∀ a, Untouched t a → d' a = d a) ∧
    (d' start).word 0 = 0 := by
  have hend : Clean t d d' ∧ (k ≤ t.lh.length ∨ t.lh = []) ∨ Installed t buf d d' := by
    rcases commit_crash t buf d k hclean with ⟨h, hk⟩ | h | h
    · exact Or.inl ⟨recovers_clean hrec h, hk⟩
    · exact Or.inr (recovers_committed hrec h)
    · exact Or.inr (recovers_installed hrec h)
  rcases hend with ⟨h, hk⟩ | h
  · refine ⟨Or.inl ?_, ?_, ?_, h.header⟩
    · intro b hb
      exact h.same _ (t.outside b hb)
    · intro hlt b hb
      rcases hk with hk | hk
      · omega
      · simp [hk] at hb
    · intro a ha
      exact h.same a ha.1
  · exact ⟨Or.inr h.home, fun _ => h.home, h.same, h.header⟩

/-- A transaction on the blocks 40 and 41 of a disk with the log at 2. -/
def pairTransaction : Transaction 2 30 where
  lh := [40, 41]
  nodup := by decide
  outside := by simp
  fits_header := by decide
  fits_area := by decide

/-- The commit of the pair crashes right after its header write, the first
    recovery crashes after one home write and the second one completes. -/
theorem commit_crash_atomic_pair :
    ∃ d' : Disk,
      Recovers 2 (crash (commit 2 pairTransaction.lh { buf := fun _ => 1, out := [] }).out 3
        (fun _ => 0)) d' ∧
      ((fun _ => 0 : Disk) 2).word 0 = 0 ∧ d' 40 = 1 ∧ d' 41 = 1 ∧ d' 59 = 0 := by
  have hrec : Recovers 2 (crash (commit 2 pairTransaction.lh
      { buf := fun _ => 1, out := [] }).out 3 (fun _ => 0)) _ :=
    Recovers.again _ _ 1 (Recovers.done _)
  have h0 : ((fun _ => 0 : Disk) 2).word 0 = 0 := Block.word_zero 0
  obtain ⟨_, hnew, hsame, _⟩ :=
    commit_crash_atomic pairTransaction (fun _ => 0) _ (fun _ => 1) 3 h0 hrec
  refine ⟨_, hrec, h0, hnew (by decide) 40 (by decide), hnew (by decide) 41 (by decide),
    hsame 59 ⟨by decide, by simp [pairTransaction]⟩⟩

end Xv6.Log
