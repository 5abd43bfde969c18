import Mathlib.Tactic

/-! # Singly linked circles

    Nodes with one pointer each. `Seg next z l` says that the nodes `l` are
    linked one to the next, and the last one to `z`; a circle from `z` is a
    segment that starts with `z` and leads back to it. A search that follows
    the pointers from any node of a circle comes to every node.
-/

namespace Ring

variable {N : Type}

/-- Where a segment that ends at `z` starts. -/
def first (z : N) : List N → N
  | [] => z
  | a :: _ => a

/-- The nodes are linked one to the next, and the last one to `z`. -/
def Seg (next : N → N) (z : N) : List N → Prop
  | [] => True
  | a :: l => next a = first z l ∧ Seg next z l

variable {next next' : N → N} {z : N} {l l' : List N}

theorem first_append : first z (l ++ l') = first (first z l') l := by
  cases l with
  | nil => rfl
  | cons a l => rfl

theorem seg_append : Seg next z (l ++ l') ↔ Seg next (first z l') l ∧ Seg next z l' := by
  induction l with
  | nil => exact (and_iff_right trivial).symm
  | cons a l ih =>
    show next a = first z (l ++ l') ∧ Seg next z (l ++ l') ↔
      (next a = first (first z l') l ∧ Seg next (first z l') l) ∧ Seg next z l'
    rw [ih, first_append, and_assoc]

/-- Only the pointers of the nodes matter. -/
theorem Seg.congr (h : Seg next z l) (hnext : ∀ a ∈ l, next' a = next a) : Seg next' z l := by
  induction l with
  | nil => trivial
  | cons a l ih =>
    refine ⟨?_, ih h.2 fun b hb => hnext b (List.mem_cons_of_mem _ hb)⟩
    rw [hnext a List.mem_cons_self]
    exact h.1

/-! ## Searching -/

/-- `while (!P(x)) x = next(x);`, at most `fuel` times. -/
def find (next : N → N) (P : N → Bool) : (fuel : Nat) → (x : N) → Option N
  | 0, _ => none
  | fuel + 1, x => if P x then some x else find next P fuel (next x)

variable {P : N → Bool}

theorem find_seg_mem (h : Seg next z l) {a : N} (ha : a ∈ l) (hP : P a = true)
    (hunique : ∀ b ∈ l, P b = true → b = a) {fuel : Nat} (hfuel : l.length ≤ fuel) :
    find next P fuel (first z l) = some a := by
  induction l generalizing fuel with
  | nil => exact absurd ha List.not_mem_nil
  | cons b l ih =>
    obtain ⟨fuel, rfl⟩ : ∃ k, fuel = k + 1 := ⟨fuel - 1, by simp at hfuel; omega⟩
    show (if P b then some b else find next P fuel (next b)) = _
    by_cases hb : P b = true
    · rw [if_pos hb, hunique b List.mem_cons_self hb]
    · rw [if_neg hb, h.1]
      have hab : a ≠ b := fun he => hb (he ▸ hP)
      exact ih h.2 (List.mem_of_ne_of_mem hab ha) (fun c hc => hunique c (List.mem_cons_of_mem _ hc))
        (by simpa using hfuel)

/-- The nodes of a circle as they are met from the node `f` on. -/
theorem Seg.rotate {A B : List N} {f : N} (h : Seg next z (A ++ f :: B)) (hz : first f A = z) :
    Seg next f (f :: B ++ A) := by
  obtain ⟨hA, hB⟩ := seg_append.mp h
  refine seg_append.mpr ⟨?_, hA⟩
  rw [hz]
  exact hB

/-- From any node of a circle, a search finds the one node it looks for. -/
theorem find_circle (h : Seg next z (z :: l)) {f a : N} (hf : f ∈ z :: l) (ha : a ∈ z :: l) (hP : P a = true)
    (hunique : ∀ b ∈ z :: l, P b = true → b = a) {fuel : Nat} (hfuel : (z :: l).length ≤ fuel) :
    find next P fuel f = some a := by
  obtain ⟨A, B, hsplit⟩ := List.append_of_mem hf
  rw [hsplit] at h ha hunique hfuel
  have hz : first f A = z := by
    cases A with
    | nil => exact (List.cons.inj hsplit).1.symm
    | cons b A => exact (List.cons.inj hsplit).1.symm
  have hmem : ∀ b, b ∈ f :: B ++ A ↔ b ∈ A ++ f :: B := fun b => by
    rw [List.mem_append, List.mem_append, or_comm]
  refine find_seg_mem (h.rotate hz) ((hmem a).mpr ha) hP (fun b hb => hunique b ((hmem b).mp hb)) ?_
  rw [List.length_append, Nat.add_comm, ← List.length_append]
  exact hfuel

end Ring
