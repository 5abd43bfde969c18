import Xv6.Framework.LTS

/-! # Systems that run in step

    Two systems with the same labels run in step under a relation between
    their states when, from related states, each label is enabled in both or
    in neither, and leads to related states. Then they have the same runs.
-/

namespace LTS

variable {State State' Label : Type}

/-- Related states have the same steps, to related states. -/
def InStep (sys : System State Label) (sys' : System State' Label) (R : State → State' → Prop) : Prop :=
  ∀ s t l, R s t → Option.Rel R (sys.next s l) (sys'.next t l)

variable {sys : System State Label} {sys' : System State' Label} {R : State → State' → Prop}
  {ls : List Label} {s s' : State}

theorem InStep.run (h : InStep sys sys' R) {t : State'} (hrun : Run sys s ls s') (hR : R s t) :
    ∃ t', Run sys' t ls t' ∧ R s' t' := by
  induction hrun with
  | nil => exact ⟨t, .nil, hR⟩
  | snoc l _ hnext ih =>
    obtain ⟨t₁, hrun₁, hR₁⟩ := ih
    have hrel := h _ _ l hR₁
    rw [hnext] at hrel
    generalize ht : sys'.next t₁ l = o at hrel
    cases hrel with
    | some hR' => exact ⟨_, .snoc l hrun₁ ht, hR'⟩

/-- The other way round. -/
theorem InStep.symm (h : InStep sys sys' R) : InStep sys' sys (fun t s => R s t) := by
  intro t s l hR
  have hrel := h s t l hR
  generalize sys.next s l = o at hrel
  generalize sys'.next t l = o' at hrel
  cases hrel with
  | none => exact .none
  | some hR' => exact .some hR'

/-- A refinement mapping: when, under an invariant, each step is mapped to a
    step with the same label, runs are mapped to runs. -/
theorem Run.map {f : State → State'} {I : State → Prop} (h : Run sys s ls s') (hs : I s)
    (hstep : ∀ s l s', I s → sys.next s l = some s' → I s' ∧ sys'.next (f s) l = some (f s')) :
    I s' ∧ Run sys' (f s) ls (f s') := by
  induction h with
  | nil => exact ⟨hs, .nil⟩
  | snoc l _ hnext ih =>
    obtain ⟨hI, hrun⟩ := ih
    obtain ⟨hI', hnext'⟩ := hstep _ l _ hI hnext
    exact ⟨hI', .snoc l hrun hnext'⟩

end LTS
