import Mathlib.Tactic

/-! # Resources, an allocation bitmap and their owners

    Resources are numbered. A bitmap says which are in use, and a table
    `own : K → Nat` says which resource each slot refers to, 0 standing for
    none. The managed resources are those in `lo … hi - 1`; what lies below
    `lo` is in use for ever.

    * `Owns`: every slot refers to a managed resource that is marked in use,
      and no resource is referred to by two slots.
    * `Exact`: no managed resource is marked in use without an owner.

    `alloc` and `free` are the two moves of an allocator; each keeps both.
-/

namespace Ownership

open Function

variable {K : Type*} {lo hi n : Nat} {bit bit' : Nat → Bool} {own own' : K → Nat} {b : Nat}

/-- Every slot refers to a resource of its own, marked in use. -/
structure Owns (lo hi : Nat) (bit : Nat → Bool) (own : K → Nat) : Prop where
  range : ∀ k, own k ≠ 0 → lo ≤ own k ∧ own k < hi
  inj : ∀ k l, own k ≠ 0 → own k = own l → k = l
  marked : ∀ k, own k ≠ 0 → bit (own k) = true

/-- Of the first `n` resources exactly those below `lo` and the owned ones
    are marked. -/
def Exact (lo n : Nat) (bit : Nat → Bool) (own : K → Nat) : Prop :=
  ∀ b, b < n → (bit b = true ↔ b < lo ∨ ∃ k, own k ≠ 0 ∧ own k = b)

theorem Owns.congr (h : Owns lo hi bit own) (hown : ∀ k, own' k = own k)
    (hbit : ∀ b, b < hi → bit' b = bit b) : Owns lo hi bit' own' := by
  obtain rfl : own' = own := funext hown
  refine ⟨h.range, h.inj, fun k hk => ?_⟩
  rw [hbit _ (h.range k hk).2]
  exact h.marked k hk

theorem Exact.congr (h : Exact lo n bit own) (hown : ∀ k, own' k = own k)
    (hbit : ∀ b, b < n → bit' b = bit b) : Exact lo n bit' own' := by
  obtain rfl : own' = own := funext hown
  intro b hb
  rw [hbit b hb]
  exact h b hb

/-! ## Allocation -/

/-- An unmarked resource is not owned. -/
theorem Owns.ne_of_unmarked (h : Owns lo hi bit own) (hb : bit b = false) (k : K) :
    own k ≠ 0 → own k ≠ b := by
  rintro hk rfl
  simp [h.marked k hk] at hb

variable [DecidableEq K]

theorem Owns.alloc (h : Owns lo hi bit own) {a : K} (hlo : lo ≤ b) (hhi : b < hi)
    (hb : bit b = false) (hbit : ∀ c, c < hi → bit' c = if c = b then true else bit c)
    (hown : own' = update own a b) : Owns lo hi bit' own' := by
  subst hown
  have hne := h.ne_of_unmarked hb
  refine ⟨fun k hk => ?_, fun k l hk hkl => ?_, fun k hk => ?_⟩
  · by_cases hka : k = a
    · subst hka; simpa using ⟨hlo, hhi⟩
    · rw [update_of_ne hka] at hk ⊢
      exact h.range k hk
  · -- the new resource is nobody else's: it was unmarked
    by_cases hka : k = a <;> by_cases hla : l = a
    · rw [hka, hla]
    · subst hka
      rw [update_self] at hk
      rw [update_self, update_of_ne hla] at hkl
      exact absurd hkl.symm (hne l (hkl ▸ hk))
    · subst hla
      rw [update_of_ne hka] at hk
      rw [update_self, update_of_ne hka] at hkl
      exact absurd hkl (hne k hk)
    · rw [update_of_ne hka] at hk
      rw [update_of_ne hka, update_of_ne hla] at hkl
      exact h.inj k l hk hkl
  · by_cases hka : k = a
    · subst hka
      rw [update_self, hbit b hhi, if_pos rfl]
    · rw [update_of_ne hka] at hk ⊢
      rw [hbit _ (h.range k hk).2, if_neg (hne k hk)]
      exact h.marked k hk

theorem Exact.alloc (h : Exact lo n bit own) {a : K} (h0 : b ≠ 0) (ha : own a = 0)
    (hbit : ∀ c, c < n → bit' c = if c = b then true else bit c) (hown : own' = update own a b) :
    Exact lo n bit' own' := by
  subst hown
  intro c hc
  rw [hbit c hc]
  by_cases hcb : c = b
  · subst hcb
    rw [if_pos rfl]
    exact iff_of_true rfl (Or.inr ⟨a, by simpa using h0, by simp⟩)
  · rw [if_neg hcb, h c hc]
    refine or_congr_right ⟨?_, ?_⟩
    · rintro ⟨k, hk, rfl⟩
      have hka : k ≠ a := by rintro rfl; exact hk ha
      exact ⟨k, by rwa [update_of_ne hka], by rw [update_of_ne hka]⟩
    · rintro ⟨k, hk, hkc⟩
      have hka : k ≠ a := by
        rintro rfl
        rw [update_self] at hkc
        exact hcb hkc.symm
      rw [update_of_ne hka] at hk hkc
      exact ⟨k, hk, hkc⟩

/-! ## Release -/

theorem Owns.free (h : Owns lo hi bit own) {a : K} (ha : own a ≠ 0)
    (hbit : ∀ c, c < hi → bit' c = if c = own a then false else bit c)
    (hown : own' = update own a 0) : Owns lo hi bit' own' := by
  subst hown
  have hka : ∀ k, update own a 0 k ≠ 0 → k ≠ a := by
    rintro k hk rfl
    simp at hk
  refine ⟨fun k hk => ?_, fun k l hk hkl => ?_, fun k hk => ?_⟩
  · have := hka k hk
    rw [update_of_ne this] at hk ⊢
    exact h.range k hk
  · have hne := hka k hk
    have hla := hka l (hkl ▸ hk)
    rw [update_of_ne hne] at hk hkl
    rw [update_of_ne hla] at hkl
    exact h.inj k l hk hkl
  · have hne := hka k hk
    rw [update_of_ne hne] at hk ⊢
    -- another slot's resource is another resource
    rw [hbit _ (h.range k hk).2, if_neg fun heq => hne (h.inj k a hk heq)]
    exact h.marked k hk

theorem Exact.free (h : Exact lo n bit own) (ho : Owns lo hi bit own) {a : K} (ha : own a ≠ 0)
    (hbit : ∀ c, c < n → bit' c = if c = own a then false else bit c)
    (hown : own' = update own a 0) : Exact lo n bit' own' := by
  subst hown
  intro c hc
  rw [hbit c hc]
  by_cases hca : c = own a
  · rw [if_pos hca]
    refine iff_of_false (by simp) ?_
    rintro (hlo | ⟨k, hk, hkc⟩)
    · have := (ho.range a ha).1
      omega
    · by_cases hka : k = a
      · subst hka; simp at hk
      · rw [update_of_ne hka] at hk hkc
        exact hka (ho.inj k a hk (hkc.trans hca))
  · rw [if_neg hca, h c hc]
    refine or_congr_right ⟨?_, ?_⟩
    · rintro ⟨k, hk, rfl⟩
      have hka : k ≠ a := by rintro rfl; exact hca rfl
      exact ⟨k, by rwa [update_of_ne hka], by rw [update_of_ne hka]⟩
    · rintro ⟨k, hk, hkc⟩
      have hka : k ≠ a := by rintro rfl; simp at hk
      rw [update_of_ne hka] at hk hkc
      exact ⟨k, hk, hkc⟩

/-! ## Counting what is left -/

/-- The number of unmarked resources below `hi`. -/
def free (hi : Nat) (bit : Nat → Bool) : Nat :=
  ((Finset.range hi).filter fun b => bit b = false).card

theorem free_alloc (hhi : b < hi) (hb : bit b = false)
    (hbit : ∀ c, c < hi → bit' c = if c = b then true else bit c) :
    free hi bit = free hi bit' + 1 := by
  have hset : (Finset.range hi).filter (fun c => bit' c = false) =
      ((Finset.range hi).filter fun c => bit c = false).erase b := by
    ext c
    simp only [Finset.mem_filter, Finset.mem_range, Finset.mem_erase]
    constructor
    · rintro ⟨hc, hc'⟩
      rw [hbit c hc] at hc'
      split at hc'
      · simp at hc'
      · next hne => exact ⟨hne, hc, hc'⟩
    · rintro ⟨hne, hc, hc'⟩
      exact ⟨hc, by rw [hbit c hc, if_neg hne]; exact hc'⟩
  have hmem : b ∈ (Finset.range hi).filter fun c => bit c = false := by simp [hhi, hb]
  unfold free
  rw [hset, Finset.card_erase_of_mem hmem]
  have := Finset.card_pos.mpr ⟨b, hmem⟩
  omega

/-- With something left, some resource is unmarked. -/
theorem exists_of_free_pos (h : 0 < free hi bit) : ∃ b, b < hi ∧ bit b = false := by
  obtain ⟨b, hb⟩ := Finset.card_pos.mp h
  simp only [Finset.mem_filter, Finset.mem_range] at hb
  exact ⟨b, hb⟩

end Ownership
