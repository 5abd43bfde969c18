import Mathlib.Tactic

/-! # Sums with one changed summand

    Reference counts are sums over the places that hold references. A step
    changes one place, so one summand; these rules say what that does to the
    sum without taking it apart.
-/

namespace Accounts

open Finset

variable {X : Type*} [Fintype X] [DecidableEq X] {f h : X → Nat}

theorem sum_change (a : X) (hne : ∀ x, x ≠ a → h x = f x) :
    ∑ x, h x + f a = ∑ x, f x + h a := by
  have hrest : ∑ x ∈ univ.erase a, h x = ∑ x ∈ univ.erase a, f x :=
    sum_congr rfl fun x hx => hne x (ne_of_mem_erase hx)
  rw [← add_sum_erase univ h (mem_univ a), ← add_sum_erase univ f (mem_univ a), hrest]
  omega

omit [DecidableEq X] in
theorem le_sum (a : X) : f a ≤ ∑ x, f x :=
  single_le_sum (fun _ _ => Nat.zero_le _) (mem_univ a)

theorem add_le_sum {a b : X} (hab : a ≠ b) : f a + f b ≤ ∑ x, f x := by
  have hb : b ∈ univ.erase a := mem_erase.mpr ⟨hab.symm, mem_univ b⟩
  rw [← add_sum_erase univ f (mem_univ a)]
  exact Nat.add_le_add_left (single_le_sum (f := f) (fun _ _ => Nat.zero_le _) hb) _

end Accounts
