import Mathlib.Tactic

/-! # Tables of slots as finite maps

    A table is a list of slots, each empty or holding a key and a value. A
    search takes the first slot with the key. As long as no key is held twice,
    the table is a finite map, filling an empty slot is an insertion, and
    emptying a slot is a removal, wherever the slots are.
-/

namespace SlotMap

variable {K V : Type} [DecidableEq K]

/-- The value of the first slot that holds the key `k`. -/
def find (t : List (Option (K × V))) (k : K) : Option V :=
  t.findSome? fun slot => slot.bind fun e => if e.1 = k then some e.2 else none

/-- No key is held twice. -/
def Unique (t : List (Option (K × V))) : Prop :=
  ∀ (i j : Nat) k v w, t[i]? = some (some (k, v)) → t[j]? = some (some (k, w)) → i = j

/-- `t'` is `t` with slot `i` set to `x`. -/
structure Sets (t : List (Option (K × V))) (i : Nat) (x : Option (K × V)) (t' : List (Option (K × V))) :
    Prop where
  self : t'[i]? = some x
  other : ∀ j, j ≠ i → t'[j]? = t[j]?

variable {t t' : List (Option (K × V))} {k : K} {v : V} {i : Nat}

theorem find_eq_none : find t k = none ↔ ∀ (i : Nat) v, t[i]? ≠ some (some (k, v)) := by
  unfold find
  rw [List.findSome?_eq_none_iff]
  constructor
  · intro h i v hi
    have hnone := h _ (List.mem_of_getElem? hi)
    simp at hnone
  · intro h slot hslot
    obtain ⟨i, hi⟩ := List.mem_iff_getElem?.mp hslot
    match slot, hi with
    | none, _ => rfl
    | some (k', v), hi =>
      rw [Option.bind_some, if_neg]
      intro hk
      subst hk
      exact h i v hi

theorem exists_of_find (h : find t k = some v) : ∃ i : Nat, t[i]? = some (some (k, v)) := by
  unfold find at h
  obtain ⟨slot, hslot, hv⟩ := List.exists_of_findSome?_eq_some h
  obtain ⟨i, hi⟩ := List.mem_iff_getElem?.mp hslot
  match slot, hi, hv with
  | some (k', v'), hi, hv =>
    rw [Option.bind_some] at hv
    split at hv
    · next hk =>
      simp only at hk hv
      rw [hk, Option.some.inj hv] at hi
      exact ⟨i, hi⟩
    · cases hv

/-- A slot that holds the key is the one that is found. -/
theorem Unique.find_eq (h : Unique t) (hi : t[i]? = some (some (k, v))) : find t k = some v := by
  cases hf : find t k with
  | none => exact absurd hi (find_eq_none.mp hf i v)
  | some w =>
    obtain ⟨j, hj⟩ := exists_of_find hf
    obtain rfl := h j i k w v hj hi
    rw [hj] at hi
    cases hi
    rfl

/-- Filling an empty slot with a key that is not held. -/
theorem Sets.unique_insert (hs : Sets t i (some (k, v)) t') (hu : Unique t) (hk : find t k = none) :
    Unique t' := by
  have habsent := find_eq_none.mp hk
  intro a b k' v' w' ha hb
  by_cases hai : a = i
  · by_cases hbi : b = i
    · rw [hai, hbi]
    · -- slot `b` of the old table cannot hold the new key
      rw [hai, hs.self] at ha
      cases ha
      rw [hs.other b hbi] at hb
      exact absurd hb (habsent b w')
  · rw [hs.other a hai] at ha
    by_cases hbi : b = i
    · rw [hbi, hs.self] at hb
      cases hb
      exact absurd ha (habsent a v')
    · rw [hs.other b hbi] at hb
      exact hu a b k' v' w' ha hb

omit [DecidableEq K] in
theorem Sets.unique_erase (hs : Sets t i none t') (hu : Unique t) : Unique t' := by
  intro a b k' v' w' ha hb
  have hne : ∀ {c : Nat} {x : K × V}, t'[c]? = some (some x) → c ≠ i := by
    rintro c x hc rfl
    rw [hs.self] at hc
    cases hc
  rw [hs.other a (hne ha)] at ha
  rw [hs.other b (hne hb)] at hb
  exact hu a b k' v' w' ha hb

/-- Filling an empty slot inserts the key and changes nothing else. -/
theorem Sets.find_insert (hs : Sets t i (some (k, v)) t') (hu : Unique t) (hk : find t k = none)
    (hi : t[i]? = none ∨ t[i]? = some none) (k' : K) :
    find t' k' = if k' = k then some v else find t k' := by
  have hu' := hs.unique_insert hu hk
  by_cases hkk : k' = k
  · rw [if_pos hkk, hkk]
    exact hu'.find_eq hs.self
  · rw [if_neg hkk]
    cases hf : find t k' with
    | none =>
      refine find_eq_none.mpr fun j w hj => ?_
      by_cases hji : j = i
      · rw [hji, hs.self] at hj
        cases hj
        exact hkk rfl
      · rw [hs.other j hji] at hj
        exact find_eq_none.mp hf j w hj
    | some w =>
      obtain ⟨j, hj⟩ := exists_of_find hf
      have hji : j ≠ i := by
        rintro rfl
        rcases hi with h | h <;> rw [h] at hj <;> cases hj
      rw [← hs.other j hji] at hj
      exact hu'.find_eq hj

/-- Emptying a slot removes its key and changes nothing else. -/
theorem Sets.find_erase (hs : Sets t i none t') (hu : Unique t) (hi : t[i]? = some (some (k, v)))
    (k' : K) : find t' k' = if k' = k then none else find t k' := by
  by_cases hkk : k' = k
  · rw [if_pos hkk, hkk]
    refine find_eq_none.mpr fun j w hj => ?_
    have hji : j ≠ i := by
      rintro rfl
      rw [hs.self] at hj
      cases hj
    rw [hs.other j hji] at hj
    exact hji (hu j i k w v hj hi)
  · rw [if_neg hkk]
    cases hf : find t k' with
    | none =>
      refine find_eq_none.mpr fun j w hj => ?_
      by_cases hji : j = i
      · rw [hji, hs.self] at hj
        cases hj
      · rw [hs.other j hji] at hj
        exact find_eq_none.mp hf j w hj
    | some w =>
      obtain ⟨j, hj⟩ := exists_of_find hf
      have hji : j ≠ i := by
        rintro rfl
        rw [hi] at hj
        cases hj
        exact hkk rfl
      rw [← hs.other j hji] at hj
      exact (hs.unique_erase hu).find_eq hj

end SlotMap
