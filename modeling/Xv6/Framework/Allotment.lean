import Mathlib.Tactic

/-! # Resources between owners and a pool

    Resources `α` are handed out from a pool, the list `free`, and given back
    to it. `own a` is the resource that the owner `a` has, if it has one.
    `Allotment A own free` says that each of the resources `A` is either in
    the pool, once, or belongs to exactly one owner, and that there are no
    others.

    Owners take resources from the pool and give them back; each move keeps
    the allotment. Resources that have left the pool and have no owner yet
    are counted as pool.
-/

variable {α κ : Type}

structure Allotment (A : Set α) (own : κ → Option α) (free : List α) : Prop where
  inj : ∀ {a b : κ} {f : α}, own a = some f → own b = some f → a = b
  apart : ∀ {a : κ} {f : α}, own a = some f → f ∉ free
  nodup : free.Nodup
  total : ∀ f, f ∈ A ↔ f ∈ free ∨ ∃ a, own a = some f

namespace Allotment

open Function

variable {A : Set α} {own : κ → Option α} {free free' : List α} {a b : κ} {f g : α}

section

variable (h : Allotment A own free)
include h

theorem mem_of_own (ha : own a = some f) : f ∈ A :=
  (h.total f).mpr (Or.inr ⟨a, ha⟩)

theorem mem_of_free (hf : f ∈ free) : f ∈ A :=
  (h.total f).mpr (Or.inl hf)

theorem ne_of_own (ha : own a = some f) (hb : own b = some g) (hab : a ≠ b) : f ≠ g := by
  rintro rfl
  exact hab (h.inj ha hb)

theorem ne_of_free (ha : own a = some f) (hg : g ∈ free) : f ≠ g := by
  rintro rfl
  exact h.apart ha hg

/-- The order of the pool does not matter. -/
theorem perm (hp : free.Perm free') : Allotment A own free' where
  inj := h.inj
  apart ha hf := h.apart ha (hp.mem_iff.mpr hf)
  nodup := hp.nodup_iff.mp h.nodup
  total f := by rw [h.total f, hp.mem_iff]

/-- Owners may be renamed, and owners without a resource added. -/
theorem reindex {κ' : Type} {own' : κ' → Option α} (e : κ' → κ → Prop)
    (hinj : ∀ {x x' y}, e x y → e x' y → x = x')
    (hto : ∀ x f, own' x = some f → ∃ y, e x y ∧ own y = some f)
    (hfrom : ∀ y f, own y = some f → ∃ x, e x y ∧ own' x = some f) : Allotment A own' free where
  inj {x x' f} hx hx' := by
    obtain ⟨y, hxy, hy⟩ := hto x f hx
    obtain ⟨y', hxy', hy'⟩ := hto x' f hx'
    cases h.inj hy hy'
    exact hinj hxy hxy'
  apart {x f} hx := by
    obtain ⟨y, _, hy⟩ := hto x f hx
    exact h.apart hy
  nodup := h.nodup
  total f := by
    rw [h.total f]
    constructor
    · rintro (hf | ⟨y, hy⟩)
      · exact Or.inl hf
      · obtain ⟨x, _, hx⟩ := hfrom y f hy
        exact Or.inr ⟨x, hx⟩
    · rintro (hf | ⟨x, hx⟩)
      · exact Or.inl hf
      · obtain ⟨y, _, hy⟩ := hto x f hx
        exact Or.inr ⟨y, hy⟩

end

section

variable [DecidableEq κ]

/-- An owner takes a resource from the pool. -/
theorem take (h : Allotment A own (f :: free)) (ha : own a = none) :
    Allotment A (update own a (some f)) free := by
  have hother : ∀ {b g}, update own a (some f) b = some g → b ≠ a → own b = some g := by
    intro b g hb hne
    rwa [update_of_ne hne] at hb
  have hf : f ∉ free := (List.nodup_cons.mp h.nodup).1
  refine ⟨?_, ?_, (List.nodup_cons.mp h.nodup).2, ?_⟩
  · intro x y g hx hy
    by_cases hxa : x = a <;> by_cases hya : y = a
    · rw [hxa, hya]
    · rw [hxa, update_self] at hx
      cases hx
      exact absurd (List.mem_cons_self ..) (h.apart (hother hy hya))
    · rw [hya, update_self] at hy
      cases hy
      exact absurd (List.mem_cons_self ..) (h.apart (hother hx hxa))
    · exact h.inj (hother hx hxa) (hother hy hya)
  · intro x g hx
    by_cases hxa : x = a
    · rw [hxa, update_self] at hx
      cases hx
      exact hf
    · exact fun hg => h.apart (hother hx hxa) (List.mem_cons_of_mem _ hg)
  · intro g
    rw [h.total g, List.mem_cons]
    constructor
    · rintro ((rfl | hg) | ⟨x, hx⟩)
      · exact Or.inr ⟨a, update_self ..⟩
      · exact Or.inl hg
      · have hxa : x ≠ a := by
          rintro rfl
          rw [ha] at hx
          cases hx
        exact Or.inr ⟨x, by rwa [update_of_ne hxa]⟩
    · rintro (hg | ⟨x, hx⟩)
      · exact Or.inl (Or.inr hg)
      · by_cases hxa : x = a
        · rw [hxa, update_self] at hx
          cases hx
          exact Or.inl (Or.inl rfl)
        · exact Or.inr ⟨x, hother hx hxa⟩

/-- An owner gives its resource back. -/
theorem give (h : Allotment A own free) (ha : own a = some f) :
    Allotment A (update own a none) (f :: free) := by
  have hother : ∀ {b g}, update own a none b = some g → b ≠ a ∧ own b = some g := by
    intro b g hb
    by_cases hba : b = a
    · rw [hba, update_self] at hb
      cases hb
    · exact ⟨hba, by rwa [update_of_ne hba] at hb⟩
  refine ⟨?_, ?_, List.nodup_cons.mpr ⟨h.apart ha, h.nodup⟩, ?_⟩
  · intro x y g hx hy
    exact h.inj (hother hx).2 (hother hy).2
  · intro x g hx hg
    obtain ⟨hxa, hx⟩ := hother hx
    rcases List.mem_cons.mp hg with rfl | hg
    · exact hxa (h.inj hx ha)
    · exact h.apart hx hg
  · intro g
    rw [h.total g, List.mem_cons]
    constructor
    · rintro (hg | ⟨x, hx⟩)
      · exact Or.inl (Or.inr hg)
      · by_cases hxa : x = a
        · rw [hxa, ha] at hx
          cases hx
          exact Or.inl (Or.inl rfl)
        · exact Or.inr ⟨x, by rwa [update_of_ne hxa]⟩
    · rintro ((rfl | hg) | ⟨x, hx⟩)
      · exact Or.inr ⟨a, ha⟩
      · exact Or.inl hg
      · exact Or.inr ⟨x, (hother hx).2⟩

end

end Allotment
