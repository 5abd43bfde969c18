import Mathlib.Tactic

/-! # Searching loops

    `firstFrom p n i` is the loop `for (j = i; j < i + n; j++) if (p(j)) break;`
    that allocators and table lookups are made of: the least `j` from `i` on,
    among `n` candidates, for which `p` holds.
-/

/-- The first of `i`, `i + 1`, …, `i + n - 1` that satisfies `p`. -/
def firstFrom (p : Nat → Bool) : (n i : Nat) → Option Nat
  | 0, _ => none
  | n + 1, i => if p i then some i else firstFrom p n (i + 1)

variable {p : Nat → Bool} {n i j : Nat}

theorem firstFrom_eq_none :
    firstFrom p n i = none ↔ ∀ j, i ≤ j → j < i + n → p j = false := by
  induction n generalizing i with
  | zero => simp only [firstFrom, true_iff]; omega
  | succ n ih =>
    unfold firstFrom
    by_cases hp : p i = true
    · simp only [hp, if_true, reduceCtorEq, false_iff]
      intro h
      simpa [hp] using h i le_rfl (by omega)
    · rw [if_neg hp, ih]
      constructor
      · intro h j hij hj
        by_cases hji : j = i
        · subst hji; simpa using hp
        · exact h j (by omega) (by omega)
      · intro h j hij hj
        exact h j (by omega) (by omega)

theorem firstFrom_eq_some :
    firstFrom p n i = some j ↔
      i ≤ j ∧ j < i + n ∧ p j = true ∧ ∀ k, i ≤ k → k < j → p k = false := by
  induction n generalizing i with
  | zero => simp only [firstFrom, reduceCtorEq, false_iff]; omega
  | succ n ih =>
    unfold firstFrom
    by_cases hp : p i = true
    · rw [if_pos hp, Option.some.injEq]
      constructor
      · rintro rfl
        exact ⟨le_rfl, by omega, hp, fun k _ _ => by omega⟩
      · rintro ⟨hij, -, -, hmin⟩
        by_contra hne
        simpa [hp] using hmin i le_rfl (by omega)
    · rw [if_neg hp, ih]
      have hpi : p i = false := by simpa using hp
      constructor
      · rintro ⟨hij, hj, hpj, hmin⟩
        refine ⟨by omega, by omega, hpj, fun k hk hkj => ?_⟩
        by_cases hki : k = i
        · exact hki ▸ hpi
        · exact hmin k (by omega) hkj
      · rintro ⟨hij, hj, hpj, hmin⟩
        have hne : j ≠ i := by
          rintro rfl
          simp [hpi] at hpj
        exact ⟨by omega, by omega, hpj, fun k hk hkj => hmin k (by omega) hkj⟩

