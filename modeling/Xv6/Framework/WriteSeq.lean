import Mathlib.Data.List.Basic
import Mathlib.Tactic

/-! # Sequences of block writes and crashes

    A store maps addresses to blocks and a sequence of writes is a list of
    address/block pairs, applied in issue order. A crash keeps a prefix of the
    writes issued so far; single writes are atomic.
-/

namespace WriteSeq

open Function

variable {α β : Type*} [DecidableEq α] {ws : List (α × β)}

/-- The store after the writes `ws`, in order. -/
def apply (ws : List (α × β)) (d : α → β) : α → β :=
  ws.foldl (fun d w => update d w.1 w.2) d

/-- The store after a crash that let the first `k` writes through. -/
def crash (ws : List (α × β)) (k : Nat) (d : α → β) : α → β := apply (ws.take k) d

@[simp] theorem apply_nil (d : α → β) : apply [] d = d := rfl

@[simp] theorem apply_cons (w : α × β) (ws : List (α × β)) (d : α → β) :
    apply (w :: ws) d = apply ws (update d w.1 w.2) := rfl

theorem apply_append (ws vs : List (α × β)) (d : α → β) :
    apply (ws ++ vs) d = apply vs (apply ws d) := by
  simp [apply, List.foldl_append]

/-- An address that no write names keeps its block. -/
theorem apply_of_not_mem {a : α} (h : ∀ w ∈ ws, w.1 ≠ a) (d : α → β) : apply ws d a = d a := by
  induction ws generalizing d with
  | nil => rfl
  | cons w ws ih =>
    rw [apply_cons, ih (fun v hv => h v (List.mem_cons_of_mem _ hv))]
    exact update_of_ne (h w List.mem_cons_self).symm _ _

/-- When no address is written twice, a written address holds its block. -/
theorem apply_of_mem (hnd : (ws.map Prod.fst).Nodup) {a : α} {b : β} (h : (a, b) ∈ ws) (d : α → β) :
    apply ws d a = b := by
  induction ws generalizing d with
  | nil => simp at h
  | cons w ws ih =>
    rw [List.map_cons, List.nodup_cons] at hnd
    rw [apply_cons]
    rcases List.mem_cons.mp h with rfl | h
    · rw [apply_of_not_mem]
      · exact update_self _ _ _
      · intro v hv heq
        exact hnd.1 (List.mem_map.mpr ⟨v, hv, heq⟩)
    · exact ih hnd.2 h _

/-- A crash point of two consecutive write sequences falls into the first
    or, with the first complete, into the second. -/
theorem crash_append (ws vs : List (α × β)) (k : Nat) (d : α → β) :
    crash (ws ++ vs) k d =
      if k ≤ ws.length then crash ws k d else crash vs (k - ws.length) (apply ws d) := by
  unfold crash
  split
  · next h => rw [List.take_append_of_le_length h]
  · next h => rw [List.take_append, List.take_of_length_le (by omega), apply_append]

theorem crash_singleton (w : α × β) (k : Nat) (d : α → β) :
    crash [w] k d = if k = 0 then d else apply [w] d := by
  unfold crash
  cases k <;> simp

end WriteSeq
