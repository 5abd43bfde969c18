import Mathlib.Tactic

/-! # Labelled transition systems

    The systems here are deterministic for a given label: `next s l` is the
    state after the step `l`, or `none` when `l` is not enabled in `s`. All
    nondeterminism (who moves, with which arguments) is in the choice of
    labels.

    * `Reachable`: states reached from an initial one.
    * `Run`: a sequence of labels together with its first and last state.
    * `restrict`: the same system with every step subject to a condition; its
      runs are the runs all of whose steps meet the condition.
-/

namespace LTS

universe u v

/-- A labelled transition system. -/
structure System (State : Type u) (Label : Type v) where
  init : State → Prop
  next : State → Label → Option State

variable {State : Type u} {Label : Type v}

/-- Reachable states. -/
inductive Reachable (sys : System State Label) : State → Prop where
  | init {s : State} : sys.init s → Reachable sys s
  | step {s s' : State} (l : Label) : Reachable sys s → sys.next s l = some s' → Reachable sys s'

/-- `Run sys s ls s'`: the labels `ls`, in order, lead from `s` to `s'`. -/
inductive Run (sys : System State Label) (s : State) : List Label → State → Prop where
  | nil : Run sys s [] s
  | snoc {ls : List Label} {s' s'' : State} (l : Label) :
      Run sys s ls s' → sys.next s' l = some s'' → Run sys s (ls ++ [l]) s''

open Classical in
/-- Only steps that meet the condition `C` are taken. -/
noncomputable def System.restrict (sys : System State Label) (C : State → Label → Prop) :
    System State Label where
  init := sys.init
  next := fun s l => if C s l then sys.next s l else none

variable {sys : System State Label} {C : State → Label → Prop} {ls : List Label} {s s' : State}
  {D : State → Label → Bool} {l : Label} {I : State → Prop}

theorem restrict_next : (sys.restrict C).next s l = some s' ↔ C s l ∧ sys.next s l = some s' := by
  unfold System.restrict
  by_cases h : C s l <;> simp [h]

/-- The invariant rule: a predicate that holds initially and is kept by
    every step holds in every reachable state. -/
theorem Reachable.invariant {s : State} (h : Reachable sys s) (hinit : ∀ s, sys.init s → I s)
    (hstep : ∀ s l s', I s → sys.next s l = some s' → I s') : I s := by
  induction h with
  | init hi => exact hinit _ hi
  | step l _ hnext ih => exact hstep _ l _ ih hnext

/-- A state the restricted system reaches is reached by the full one. -/
theorem Reachable.of_restrict {s : State} (h : Reachable (sys.restrict C) s) :
    Reachable sys s := by
  induction h with
  | init hi => exact .init hi
  | step l _ hnext ih => exact .step l ih (restrict_next.mp hnext).2

/-- A system that can do more reaches more. -/
theorem Reachable.mono {sys' : System State Label} {s : State} (h : Reachable sys s)
    (hinit : ∀ s, sys.init s → sys'.init s)
    (hstep : ∀ s l s', sys.next s l = some s' → sys'.next s l = some s') : Reachable sys' s := by
  induction h with
  | init hi => exact .init (hinit _ hi)
  | step l _ hnext ih => exact .step l ih (hstep _ l _ hnext)

theorem Reachable.restrict_mono {D : State → Label → Prop} {s : State}
    (h : Reachable (sys.restrict C) s) (hD : ∀ s l, C s l → D s l) :
    Reachable (sys.restrict D) s :=
  h.mono (fun _ => id) fun s l _ hnext =>
    restrict_next.mpr ⟨hD s l (restrict_next.mp hnext).1, (restrict_next.mp hnext).2⟩

/-- A condition that every step meets restricts nothing. -/
theorem Reachable.restrict {s : State} (h : Reachable sys s) (hC : ∀ s l, C s l) :
    Reachable (sys.restrict C) s :=
  h.mono (fun _ => id) fun s l _ hnext => restrict_next.mpr ⟨hC s l, hnext⟩

theorem Reachable.run (h : Reachable sys s) (hrun : Run sys s ls s') : Reachable sys s' := by
  induction hrun with
  | nil => exact h
  | snoc l _ hnext ih => exact .step l ih hnext

theorem Run.cons {s s₁ s' : State} (h : Run sys s₁ ls s') (hnext : sys.next s l = some s₁) :
    Run sys s (l :: ls) s' := by
  induction h with
  | nil => exact .snoc l .nil hnext
  | snoc l' _ hnext' ih => exact .snoc l' ih hnext'

/-- The last step of a run. -/
theorem Run.last (h : Run sys s (ls ++ [l]) s') :
    ∃ s₁, Run sys s ls s₁ ∧ sys.next s₁ l = some s' := by
  generalize hls : ls ++ [l] = ls' at h
  cases h with
  | nil => simp at hls
  | snoc l' hrun hnext =>
    obtain ⟨rfl, hl⟩ := List.append_inj' hls rfl
    simp only [List.cons.injEq, and_true] at hl
    subst hl
    exact ⟨_, hrun, hnext⟩

/-- The labels of a run determine where it ends. -/
theorem Run.unique {s s₁ s₂ : State} (h₁ : Run sys s ls s₁) (h₂ : Run sys s ls s₂) : s₁ = s₂ := by
  induction h₁ generalizing s₂ with
  | nil =>
    generalize hls : ([] : List Label) = ls' at h₂
    cases h₂ with
    | nil => rfl
    | snoc l _ _ => simp at hls
  | snoc l _ hnext ih =>
    obtain ⟨s₃, hrun, hnext'⟩ := h₂.last
    rw [ih hrun, hnext'] at hnext
    exact (Option.some.inj hnext).symm

/-- The invariant rule for runs from a given state. -/
theorem Run.invariant (h : Run sys s ls s') (hs : I s)
    (hstep : ∀ s l s', I s → sys.next s l = some s' → I s') : I s' := by
  induction h with
  | nil => exact hs
  | snoc l _ hnext ih => exact hstep _ l _ ih hnext

theorem Run.of_restrict (h : Run (sys.restrict C) s ls s') : Run sys s ls s' := by
  induction h with
  | nil => exact .nil
  | snoc l _ hnext ih => exact .snoc l ih (restrict_next.mp hnext).2

/-! ## Executing a list of labels -/

/-- Take the steps `ls` one after the other, as long as they are enabled and
    meet the (decidable) condition `C`. -/
def System.exec (sys : System State Label) (C : State → Label → Bool) :
    State → List Label → Option State
  | s, [] => some s
  | s, l :: ls =>
    if C s l then
      match sys.next s l with
      | some s' => sys.exec C s' ls
      | none => none
    else none

theorem run_of_exec (hex : sys.exec D s ls = some s') :
    Run (sys.restrict fun s l => D s l = true) s ls s' := by
  induction ls generalizing s with
  | nil =>
    simp only [System.exec, Option.some.injEq] at hex
    exact hex ▸ .nil
  | cons l ls ih =>
    unfold System.exec at hex
    split at hex
    · next hD =>
      split at hex
      · next s₁ hnext => exact (ih hex).cons (restrict_next.mpr ⟨hD, hnext⟩)
      · simp at hex
    · simp at hex

/-- A computed run, and what has been computed of its end. -/
theorem exists_run_of_exec {P : State → Prop} [DecidablePred P]
    (hex : (sys.exec D s ls).any (fun s => decide (P s)) = true) :
    ∃ s', Run (sys.restrict fun s l => D s l = true) s ls s' ∧ P s' := by
  obtain ⟨s', hs, hP⟩ := (Option.any_eq_true _ _).mp hex
  exact ⟨s', run_of_exec hs, of_decide_eq_true hP⟩

/-- A list of labels executed from an initial state ends in a reachable one. -/
theorem reachable_of_exec (h0 : sys.init s) (hex : sys.exec D s ls = some s') :
    Reachable (sys.restrict fun s l => D s l = true) s' := by
  have hs : Reachable (sys.restrict fun s l => D s l = true) s := .init h0
  exact hs.run (run_of_exec hex)

end LTS
