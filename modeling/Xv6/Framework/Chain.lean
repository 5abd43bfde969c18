import Mathlib.Tactic

/-! # Singly linked queues

    A queue is a pointer to its first node, and each node has a pointer to the
    next one. `Leads next p l` says that from the pointer `p` on the nodes are
    `l`. A node is appended by following the pointers to the end of the queue,
    as in `for(pp = &head; *pp; pp = &(*pp)->next) ; *pp = x;`.
-/

namespace Chain

open Function

variable {N : Type}

/-- From the pointer `p` on, the nodes are these. -/
def Leads (next : N → Option N) : (p : Option N) → List N → Prop
  | p, [] => p = none
  | p, a :: l => p = some a ∧ Leads next (next a) l

variable {next next' : N → Option N} {p : Option N} {l : List N}

theorem Leads.head (h : Leads next p l) : p = l.head? := by
  cases l with
  | nil => exact h
  | cons a l => exact h.1

/-- Only the pointers of the nodes matter. -/
theorem Leads.congr (h : Leads next p l) (hnext : ∀ a ∈ l, next' a = next a) : Leads next' p l := by
  induction l generalizing p with
  | nil => exact h
  | cons a l ih =>
    refine ⟨h.1, ?_⟩
    rw [hnext a List.mem_cons_self]
    exact ih h.2 fun b hb => hnext b (List.mem_cons_of_mem _ hb)

variable [DecidableEq N]

/-- Setting the pointer at the end. -/
theorem Leads.snoc {z x : N} (h : Leads next p (l ++ [z])) (hz : z ∉ l) (hx : next x = none) (hxz : x ≠ z) :
    Leads (update next z (some x)) p (l ++ [z, x]) := by
  induction l generalizing p with
  | nil =>
    refine ⟨h.1, update_self _ _ _, ?_⟩
    rw [update_of_ne hxz]
    exact hx
  | cons a l ih =>
    obtain ⟨haz, hz'⟩ := not_or.mp (mt List.mem_cons.mpr hz)
    refine ⟨h.1, ?_⟩
    rw [update_of_ne (Ne.symm haz)]
    exact ih h.2 hz'

/-- The last node from `a` on, if it is found within `fuel` steps. -/
def last (next : N → Option N) : (fuel : Nat) → (a : N) → Option N
  | 0, _ => none
  | fuel + 1, a =>
    match next a with
    | none => some a
    | some b => last next fuel b

omit [DecidableEq N] in
theorem last_of_leads {a : N} {fuel : Nat} (h : Leads next (some a) l) (hfuel : l.length ≤ fuel) :
    last next fuel a = l.getLast? := by
  induction fuel generalizing a l with
  | zero =>
    obtain rfl : l = [] := List.eq_nil_of_length_eq_zero (by omega)
    cases h
  | succ fuel ih =>
    cases l with
    | nil => cases h
    | cons b l =>
      obtain rfl : a = b := Option.some.inj h.1
      unfold last
      cases l with
      | nil =>
        rw [show next a = none from h.2]
        rfl
      | cons c l =>
        rw [h.2.1]
        rw [List.length_cons] at hfuel
        rw [List.getLast?_cons_cons]
        exact ih ⟨rfl, h.2.2⟩ (by omega)

/-- Append `x` to the queue that starts at `head`. -/
def append (fuel : Nat) (head : Option N) (next : N → Option N) (x : N) :
    Option (Option N × (N → Option N)) :=
  let next := update next x none
  match head with
  | none => some (some x, next)
  | some a => (last next fuel a).map fun z => (some a, update next z (some x))

theorem append_of_leads {head : Option N} {x : N} {fuel : Nat} (h : Leads next head l) (hnd : l.Nodup)
    (hx : x ∉ l) (hfuel : l.length ≤ fuel) :
    ∃ head' next', append fuel head next x = some (head', next') ∧ Leads next' head' (l ++ [x]) := by
  have hleads : Leads (update next x none) head l :=
    h.congr fun a ha => update_of_ne (ne_of_mem_of_not_mem ha hx) _ _
  have hself : update next x none x = none := update_self _ _ _
  unfold append
  cases head with
  | none =>
    obtain rfl : l = [] := by
      cases l with
      | nil => rfl
      | cons a l => cases h.1
    exact ⟨_, _, rfl, rfl, hself⟩
  | some a =>
    dsimp only
    rw [last_of_leads hleads hfuel]
    rcases List.eq_nil_or_concat l with rfl | ⟨l₀, z, rfl⟩
    · cases h
    · rw [List.concat_eq_append] at *
      rw [List.getLast?_append, List.getLast?_singleton]
      refine ⟨_, _, rfl, ?_⟩
      rw [List.append_assoc]
      have hz : z ∉ l₀ := fun hz => (List.nodup_append.mp hnd).2.2 z hz z (List.mem_singleton_self z) rfl
      have hxz : x ≠ z := fun he => hx (List.mem_append_right _ (List.mem_singleton.mpr he))
      exact hleads.snoc hz hself hxz

end Chain
