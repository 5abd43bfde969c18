import Mathlib.Data.List.Basic
import Mathlib.Tactic

/-! # Ring buffers

    A ring of `N` slots is written one slot after the other, wrapping around
    at the end. The item pushed `i`-th (counting from `0`) goes to slot
    `i % N`, so at any time the ring holds the last `N` items of its history.

    * `Holds N hist slot`: the invariant relating the slots to the history.
    * `Holds.push`: one more item is written at position `hist.length % N`.
    * `lastN`: the tail of the history that a reader is entitled to.
    * `Holds.read_eq_lastN`: reading `n` slots from `n` before the write
      position yields the last `n` items, oldest first.
-/

namespace RingBuffer

variable {α : Type*} {N : Nat} {hist : List α}

/-- Slot `i % N` holds the `i`-th item of the history, for each of the
    last `N` items. -/
def Holds (N : Nat) (hist : List α) (slot : Nat → α) : Prop :=
  ∀ i x, hist[i]? = some x → hist.length ≤ i + N → slot (i % N) = x

/-- The last `n` items of a history, oldest first. -/
def lastN (n : Nat) (hist : List α) : List α := hist.drop (hist.length - n)

@[simp] theorem length_lastN (n : Nat) (hist : List α) :
    (lastN n hist).length = min n hist.length := by
  simp only [lastN, List.length_drop]
  omega

theorem getElem?_lastN (n : Nat) (hist : List α) (i : Nat) :
    (lastN n hist)[i]? = hist[hist.length - n + i]? := by
  simp [lastN, List.getElem?_drop]

theorem holds_nil (slot : Nat → α) : Holds N [] slot := by
  intro i x hi
  simp at hi

/-- Writing the next item into slot `hist.length % N` keeps the invariant:
    the item it overwrites has just left the window of the last `N`. -/
theorem Holds.push {slot slot' : Nat → α} (h : Holds N hist slot) (x : α)
    (hnew : slot' (hist.length % N) = x)
    (hold : ∀ j, j < N → j ≠ hist.length % N → slot' j = slot j) : Holds N (hist ++ [x]) slot' := by
  intro i y hi hwin
  simp only [List.length_append, List.length_singleton] at hwin
  by_cases hlast : i = hist.length
  · subst hlast
    simp at hi
    rw [hnew, hi]
  · have hlt : i < hist.length := by
      have := (List.getElem?_eq_some_iff.mp hi).1
      simp only [List.length_append, List.length_singleton] at this
      omega
    have hi' : hist[i]? = some y := by
      rwa [List.getElem?_append_left hlt] at hi
    have hpos : 0 < N := by omega
    -- two positions less than `N` apart never share a slot
    have hne : i % N ≠ hist.length % N := by
      intro heq
      have hdvd : N ∣ hist.length - i := (Nat.modEq_iff_dvd' hlt.le).mp heq
      have := Nat.le_of_dvd (by omega) hdvd
      omega
    rw [hold _ (Nat.mod_lt _ hpos) hne]
    exact h i y hi' (by omega)

/-- A reader that starts `n` slots before the write position and walks
    forward sees exactly the last `n` items. -/
theorem Holds.read_eq_lastN {slot : Nat → α} (h : Holds N hist slot) {n : Nat}
    (hn : n ≤ hist.length) (hN : n ≤ N) (start : Nat) (hstart : start % N = (hist.length - n) % N) :
    (List.range n).map (fun i => slot ((start + i) % N)) = lastN n hist := by
  apply List.ext_getElem?
  intro i
  rw [getElem?_lastN]
  by_cases hi : i < n
  · have hlt : hist.length - n + i < hist.length := by omega
    have hslot : (start + i) % N = (hist.length - n + i) % N := by
      rw [Nat.add_mod, hstart, ← Nat.add_mod]
    rw [List.getElem?_map, List.getElem?_range hi, Option.map_some, hslot,
      List.getElem?_eq_getElem hlt]
    congr 1
    exact h _ _ (List.getElem?_eq_getElem hlt) (by omega)
  · rw [List.getElem?_eq_none (by simpa using hi), List.getElem?_eq_none (by omega)]

end RingBuffer
