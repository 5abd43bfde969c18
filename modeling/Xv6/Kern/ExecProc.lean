import Xv6.Kern.Exec

/-! # Symbolic execution of `kill`, `fork`, `exit` and `wait`

    A process that exits has woken its parent and given away its children
    before it becomes a zombie; a process that sleeps in `wait` has seen that
    it has no zombie child.
-/

namespace Xv6.Kern

open Op Prog

variable {C L K E Γ : Type} [DecidableEq C] [DecidableEq L] [DecidableEq K] {R : Rules C L K E Γ}
  {t : Thread C} {g : Ghost L K Γ} {p : Slot}

/-! ## Kill -/

section

variable (hR : R.Lawful)
include hR

theorem safe_kill_scan (htab : .ptable ∈ g.locks) (hdue : g.due = none) (pid : BitVec 32)
    (ps : List Slot) : R.logic.Safe t (kill_scan pid ps) g fun _ g' => g' = g := by
  induction ps with
  | nil =>
    unfold kill_scan
    simp
  | cons q ps ih =>
    unfold kill_scan
    refine .bind (Q := fun found g' => g' = if found then { g with due := some (.rouse q) } else g)
      (safe_act hR fun c s G hat => ?_) ?_
    · simp only [wlp_bind, wlp_get]
      split
      case isTrue hpid =>
        refine ⟨_, .kill (by rw [hat.self]; exact htab) (by rw [hat.self]; exact hdue) hpid, ?_⟩
        rw [hat.self]
        rfl
      case isFalse => exact ⟨_, .quiet, hat.self⟩
    rintro found _ rfl
    cases found with
    | false => simpa using ih
    | true =>
      refine .bind (Q := fun _ g' => g' = g) (safe_act hR fun c s G hat => ?_) fun _ _ h => h
      refine ⟨_, .rouse (by rw [hat.self]; exact htab) (by rw [hat.self]; rfl), ?_⟩
      rw [hat.self, ← hdue]
      rfl

theorem safe_kill (pid : BitVec 32) (htab : .ptable ∉ g.locks)
    (hon : ∀ p, t = .proc p → g.phase = .on) (hpick : ∀ d, t = .sched d → g.pick = none)
    (hdue : g.due = none) (hmay : R.May .ptable g.extra) :
    R.logic.Safe t (kill pid) g fun _ g' => g' = g.forget := by
  unfold kill
  refine .bind (safe_acquire hR htab hon) ?_
  rintro _ _ rfl
  refine .bind (safe_kill_scan (g := { g with locks := insert .ptable g.locks }) hR
    (Finset.mem_insert_self _ _) hdue _ _) ?_
  rintro _ _ rfl
  refine .bind (safe_unlock hR (Finset.mem_insert_self _ _) hon hpick hdue hmay) ?_
  rintro _ _ rfl
  rw [Machine.Logic.safe_pure]
  simp [Ghost.forget, htab]

/-! ## Fork -/

theorem safe_allocproc_scan (htab : .ptable ∈ g.locks) (hchild : g.child = none) (ps : List Slot) :
    R.logic.Safe (.proc p) (allocproc_scan ps) g fun r g' =>
      g' = { g with child := r.map fun np => (np, false) } := by
  induction ps with
  | nil =>
    unfold allocproc_scan
    rw [Machine.Logic.safe_pure]
    simp [← hchild]
  | cons q ps ih =>
    unfold allocproc_scan
    refine .bind (Q := fun found g' => g' = if found then { g with child := some (q, false) } else g)
      (safe_act hR fun c s G hat => ?_) ?_
    · simp only [wlp_bind, wlp_get]
      split
      case isTrue hfree =>
        refine ⟨_, .alloc rfl (by rw [hat.self]; exact htab) hfree, ?_⟩
        rw [hat.self]
        rfl
      case isFalse => exact ⟨_, .quiet, hat.self⟩
    rintro found _ rfl
    cases found with
    | true => simp
    | false => simpa using ih

theorem safe_allocproc (kstack : Bool) (htab : .ptable ∉ g.locks) (hon : g.phase = .on)
    (hdue : g.due = none) (hmay : R.May .ptable g.extra) (hchild : g.child = none) :
    R.logic.Safe (.proc p) (allocproc kstack) g fun r g' =>
      g' = { g.forget with child := r.map fun np => (np, false) } := by
  unfold allocproc
  refine .bind (safe_acquire hR htab fun _ _ => hon) ?_
  rintro _ _ rfl
  refine .bind (safe_allocproc_scan (g := { g with locks := insert .ptable g.locks }) hR
    (Finset.mem_insert_self _ _) hchild _) ?_
  rintro found _ rfl
  cases found with
  | none =>
    refine .bind (safe_unlock hR (Finset.mem_insert_self _ _) (fun _ _ => hon) (by rintro _ ⟨⟩) hdue hmay) ?_
    rintro _ _ rfl
    rw [Machine.Logic.safe_pure]
    simp [Ghost.forget, htab]
  | some np =>
    refine .bind (safe_unlock hR (Finset.mem_insert_self _ _) (fun _ _ => hon) (by rintro _ ⟨⟩) hdue hmay) ?_
    intro _ g₁ hg₁
    have hg : g₁ = { g.forget with child := some (np, false) } := by
      rw [hg₁]
      simp [Ghost.forget, htab]
    subst hg
    split
    case isTrue =>
      refine .bind (Q := fun _ g' => g' = { g.forget with child := some (np, false) })
        (safe_act hR fun c s G hat => ?_) ?_
      · exact ⟨_, .ready (by rw [hat.self]), hat.self⟩
      · rintro _ _ rfl
        rfl
    case isFalse =>
      refine .bind (Q := fun _ g' => g' = { g.forget with child := none })
        (safe_act hR fun c s G hat => ?_) ?_
      · refine ⟨_, .unalloc (by rw [hat.self]), ?_⟩
        rw [hat.self]
      · rintro _ _ rfl
        rfl

theorem safe_fork (kstack mem : Bool) (htab : .ptable ∉ g.locks) (hon : g.phase = .on)
    (hdue : g.due = none) (hmay : R.May .ptable g.extra) (hchild : g.child = none) :
    R.logic.Safe (.proc p) (fork kstack mem) g fun _ g' => g' = g.forget := by
  unfold fork
  refine .bind (safe_allocproc hR kstack htab hon hdue hmay hchild) ?_
  rintro found _ rfl
  cases found with
  | none =>
    rw [Machine.Logic.safe_pure]
    simp [Ghost.forget, hchild]
  | some np =>
    cases mem with
    | false =>
      refine .bind (Q := fun _ g' => g' = g.forget) (safe_act hR fun c s G hat => ?_) fun _ _ h => h
      refine ⟨_, .unalloc (by rw [hat.self]; rfl), ?_⟩
      rw [hat.self]
      simp [Ghost.forget, hchild]
    | true =>
      refine .bind (Q := fun _ g' => g' = { g.forget with child := some (np, true) })
        (safe_withProc hR fun c s G hat => ?_) ?_
      · refine ⟨_, .adopt rfl (by rw [hat.self]; exact hon) (by rw [hat.self]; exact htab)
          (by rw [hat.self]; rfl), ?_⟩
        rw [hat.self]
      rintro _ _ rfl
      refine .bind (Q := fun _ g' => g' = { g.forget with child := some (np, true) })
        (safe_read hR fun c s G hat => ⟨rfl, rfl⟩) ?_
      rintro pid _ rfl
      refine .bind (safe_acquire hR htab fun _ _ => hon) ?_
      rintro _ _ rfl
      refine .bind (Q := fun _ g' => g' = { g.forget with locks := insert .ptable g.locks })
        (safe_act hR fun c s G hat => ?_) ?_
      · refine ⟨_, .born (by rw [hat.self]; exact Finset.mem_insert_self _ _)
          (by rw [hat.self]), ?_⟩
        rw [hat.self]
        simp [Ghost.forget, hchild]
      rintro _ _ rfl
      refine .bind (safe_unlock hR (Finset.mem_insert_self _ _) (fun _ _ => hon) (by rintro _ ⟨⟩) hdue hmay) ?_
      rintro _ _ rfl
      rw [Machine.Logic.safe_pure]
      simp [Ghost.forget, htab]

/-! ## Exit -/

/-- A thread that is switched to for the first time holds `ptable.lock`. -/
theorem safe_entry (hlocks : g.locks = {.ptable}) (hon : g.phase = .on) (hdue : g.due = none)
    (hmay : R.May .ptable g.extra) :
    R.logic.Safe (.proc p) entry g fun _ g' => g' = { g.forget with locks := ∅ } := by
  unfold entry
  refine .bind (Q := fun _ g' => g' = g)
    (safe_withProc hR fun c s G hat => ⟨_, .quiet, hat.self⟩) ?_
  rintro new _ rfl
  split
  case isTrue =>
    refine .mono (safe_unlock hR (by simp [hlocks]) (fun _ _ => hon) (by rintro _ ⟨⟩) hdue hmay) ?_
    rintro _ _ rfl
    simp [hlocks]
  case isFalse => exact safe_act hR fun c s G hat => Or.inr rfl

theorem safe_exit_reparent (htab : .ptable ∈ g.locks) (hchild : g.child = none)
    (hinit : p ≠ initproc) (qs : List Slot) :
    R.logic.Safe (.proc p) (exit_reparent qs) g fun _ g' =>
      g' = { g with moved := {q | q ∈ qs} ∪ g.moved } := by
  induction qs generalizing g with
  | nil =>
    unfold exit_reparent
    simp
  | cons q qs ih =>
    unfold exit_reparent
    refine .bind (Q := fun _ g' => g' = { g with moved := insert q g.moved })
      (safe_withProc hR fun c s G hat => ?_) ?_
    · refine ⟨_, .reparent rfl (by rw [hat.self]; exact htab) (by rw [hat.self]; exact hchild)
        hinit, ?_⟩
      rw [hat.self]
    rintro _ _ rfl
    refine .mono (ih htab hchild) ?_
    rintro _ _ rfl
    congr 1
    ext r
    simp only [Set.mem_union, Set.mem_ofPred_eq, Set.mem_insert_iff, List.mem_cons]
    tauto

theorem safe_exit (hlocks : g.locks = ∅) (hon : g.phase = .on) (hdue : g.due = none)
    (hmay : R.May .ptable g.extra) (hchild : g.child = none) :
    R.logic.Safe (.proc p) exit g fun _ g' => g' = g.forget := by
  unfold exit
  refine .bind (Q := fun _ g' => g' = g ∧ p ≠ initproc) (safe_withProc hR fun c s G hat => ?_) ?_
  · split
    case isTrue => exact Or.inl rfl
    case isFalse hne => exact ⟨_, .quiet, hat.self, hne⟩
  rintro _ g₀ ⟨hg₀, hinit⟩
  rw [hg₀]
  refine .bind (safe_acquire hR (by simp [hlocks]) fun _ _ => hon) ?_
  rintro _ _ rfl
  refine .bind (Q := fun parent g' => g' =
    { g with locks := insert .ptable g.locks, kin := some parent })
    (safe_withProc hR fun c s G hat => ?_) ?_
  · refine ⟨_, .kin rfl (by rw [hat.self]; exact Finset.mem_insert_self _ _)
      (by rw [hat.self]; exact hon), ?_⟩
    rw [hat.self]
  rintro parent _ rfl
  refine .bind (safe_wakeup1 hR (Finset.mem_insert_self _ _) _ _) ?_
  rintro _ _ rfl
  refine .bind (safe_exit_reparent (g := { g with
      locks := insert .ptable g.locks
      kin := some parent
      woken := Function.update g.woken (parent.map .proc)
        ({q | q ∈ List.finRange NPROC} ∪ g.woken (parent.map .proc)) }) hR
    (Finset.mem_insert_self _ _) hchild hinit _) ?_
  rintro _ g₁ hg₁
  refine .bind (Q := fun _ g' => g' = { g.forget with locks := {.ptable}, phase := .off })
    (safe_withProc hR fun c s G hat => ?_) ?_
  · -- the parent is the one that has been woken
    have hkin := (hat.coh.1.family.kin (.proc p) parent (by rw [hat.self, hg₁])).2 p rfl
    refine ⟨_, .exits rfl (by rw [hat.self, hg₁]; exact Finset.mem_insert_self _ _)
      (by rw [hat.self, hg₁]; exact hon) (by rw [hat.self, hg₁]; exact hdue)
      (by rw [hat.self, hg₁]; exact hmay) (by rw [hat.self, hg₁]; exact hchild) hinit (fun q => ?_) (fun q hq => ?_), ?_⟩
    · rw [hat.self, hg₁]
      simp
    · rw [hkin.2] at hq
      rw [hat.self, hg₁, hq]
      simp
    · rw [hat.self, hg₁]
      simp [Ghost.forget, hlocks]
  rintro _ _ rfl
  refine .bind (safe_sched hR rfl rfl hdue hmay) ?_
  rintro _ _ rfl
  refine .mono (safe_entry hR rfl rfl hdue hmay) ?_
  rintro _ _ rfl
  simp [Ghost.forget, hlocks, hon]

end

/-! ## Wait -/

/-- What the scan has learned when it found the child in the slot `q`. -/
def Child.seen (q : Slot) (g : Ghost L K Γ) : Child → Ghost L K Γ
  | .dead pid => { g with got := some pid }
  | .alive => { g with scan := insert q g.scan }
  | .none => { g with scan := insert q g.scan }

theorem safe_wait_scan (hR : R.Lawful) (htab : .ptable ∈ g.locks) (hgot : g.got = none)
    (qs : List Slot) (havekids : Bool) :
    R.logic.Safe (.proc p) (wait_scan qs havekids) g fun r g' =>
      ∃ scan, g' = { g with scan := scan, got := r.2 } ∧
        (r.2 = none → scan = {q | q ∈ qs} ∪ g.scan) := by
  induction qs generalizing g havekids with
  | nil =>
    unfold wait_scan
    exact ⟨g.scan, by rw [← hgot], fun _ => by simp⟩
  | cons q qs ih =>
    -- the rest of the scan, when this slot holds no zombie child
    have hrest : ∀ b, R.logic.Safe (.proc p) (wait_scan qs b)
        { g with scan := insert q g.scan } fun r g' =>
        ∃ scan, g' = { g with scan := scan, got := r.2 } ∧
          (r.2 = none → scan = {r | r ∈ q :: qs} ∪ g.scan) := by
      intro b
      refine .mono (ih (g := { g with scan := insert q g.scan }) htab hgot b) ?_
      rintro r g' ⟨scan, rfl, hscan⟩
      refine ⟨scan, rfl, fun hr => ?_⟩
      rw [hscan hr]
      ext r
      simp only [Set.mem_union, Set.mem_ofPred_eq, Set.mem_insert_iff, List.mem_cons]
      tauto
    unfold wait_scan
    refine .bind (Q := fun child g' => g' = child.seen q g) (safe_withProc hR fun c s G hat => ?_) ?_
    · simp only [wlp_bind, wlp_get]
      split
      case isTrue hne =>
        refine ⟨_, .scanned rfl (by rw [hat.self]; exact htab) fun h => hne h.1, ?_⟩
        rw [hat.self]
        rfl
      case isFalse heq =>
        rw [ne_eq, not_not] at heq
        split
        case isTrue hz =>
          refine ⟨_, .reap rfl (by rw [hat.self]; exact htab) heq hz (by rw [hat.self]; exact hgot), ?_⟩
          rw [hat.self]
          rfl
        case isFalse hz =>
          refine ⟨_, .scanned rfl (by rw [hat.self]; exact htab) fun h => hz h.2, ?_⟩
          rw [hat.self]
          rfl
    rintro child _ rfl
    cases child with
    | none => exact hrest havekids
    | alive => exact hrest true
    | dead pid => exact ⟨g.scan, rfl, fun h => by cases h⟩

theorem safe_wait_loop (hR : R.Lawful) (hlocks : g.locks = {.ptable}) (hon : g.phase = .on)
    (hdue : g.due = none) (hrest : g.extra = R.rest) (hgot : g.got = none) (fuel : Nat) :
    R.logic.Safe (.proc p) (wait_loop fuel) g fun pid g' => ∃ got,
      g' = { g.forget with locks := ∅, got := got } ∧ pid = got.elim (-1) BitVec.toInt := by
  have hmay : ∀ {x : Γ}, x = R.rest → R.May .ptable x := fun hx => hx ▸ hR.may _
  induction fuel generalizing g with
  | zero => exact safe_act hR fun c s G hat => trivial
  | succ fuel ih =>
    unfold wait_loop
    refine .bind (safe_wait_scan hR (by simp [hlocks]) hgot _ _) ?_
    rintro ⟨havekids, r⟩ g₁ ⟨scan, rfl, hscan⟩
    cases r with
    | some pid =>
      refine .bind (safe_unlock hR (by simp [hlocks]) (fun _ _ => hon) (by rintro _ ⟨⟩) hdue (hmay hrest)) ?_
      rintro _ _ rfl
      exact ⟨some pid, by simp [Ghost.forget, hlocks], rfl⟩
    | none =>
      refine .bind (Q := fun _ g' => g' = { g with scan := scan, got := none })
        (safe_withProc hR fun c s G hat => ⟨_, .quiet, hat.self⟩) ?_
      rintro quit _ rfl
      split
      case isTrue =>
        refine .bind (safe_unlock hR (by simp [hlocks]) (fun _ _ => hon) (by rintro _ ⟨⟩) hdue (hmay hrest)) ?_
        rintro _ _ rfl
        exact ⟨none, by simp [Ghost.forget, hlocks], rfl⟩
      case isFalse =>
        have hall : ∀ q, q ∈ scan := by
          intro q
          rw [hscan rfl]
          simp
        refine .bind (Q := fun q g' => q = p ∧ g' = { g with scan := scan, got := none })
          (safe_withProc hR fun c s G hat => ⟨_, .quiet, rfl, hat.self⟩) ?_
        rintro q _ ⟨rfl, rfl⟩
        refine .bind (safe_sleep_ptable (x := g.extra) hR hlocks hon hdue (hmay hrest) (fun c s G hat => ?_)
          fun r hr => ⟨(Chan.proc.inj hr).symm, hall⟩) ?_
        · have hat' : R.logic.At (.proc q) (G (.proc q)) .other c s G := by
            rw [hat.self]
            exact hat
          have hinv := hR.wait hat' (by rw [hat.self]; exact hall)
            (by rw [hat.self]; exact hdue) (by rw [hat.self]; exact hrest)
          rw [hat.self] at hinv ⊢
          exact hinv
        rintro _ _ rfl
        exact ih hlocks hon hdue hrest rfl

theorem safe_wait (hR : R.Lawful) (hlocks : g.locks = ∅) (hon : g.phase = .on) (hdue : g.due = none)
    (hrest : g.extra = R.rest) (hgot : g.got = none) (fuel : Nat) :
    R.logic.Safe (.proc p) (wait fuel) g fun pid g' => ∃ got,
      g' = { g.forget with got := got } ∧ pid = got.elim (-1) BitVec.toInt := by
  unfold wait
  refine .bind (safe_acquire hR (by simp [hlocks]) fun _ _ => hon) ?_
  rintro _ _ rfl
  refine .mono (safe_wait_loop (g := { g with locks := insert .ptable g.locks }) hR
    (by simp [hlocks]) hon hdue hrest hgot fuel) ?_
  rintro pid _ ⟨got, rfl, hpid⟩
  exact ⟨got, by simp [Ghost.forget, hlocks], hpid⟩

end Xv6.Kern
