import Mathlib.Tactic

/-! # Doubly linked circles

    Nodes linked by `next` and `prev` pointers. `IsCircle L a l` says that from
    the node `a` the `next` pointers lead through the nodes `l`, in this
    order, and back to `a`, that the `prev` pointers lead back the same way,
    and that no node is visited twice. Taking a node out of the circle and
    putting a node in behind `a` are the usual pointer assignments, in the
    usual order; on the list of nodes they are removal and `cons`.
-/

namespace Circle

open Function

/-- The pointers of all nodes. -/
structure Links (N : Type) where
  next : N → N
  prev : N → N

variable {N : Type}

/-- `x` and `y` are neighbours. -/
def Links.Adj (L : Links N) (x y : N) : Prop := L.next x = y ∧ L.prev y = x

/-- From `a`, the circle goes through `l` and back to `a`. -/
structure IsCircle (L : Links N) (a : N) (l : List N) : Prop where
  chain : List.IsChain L.Adj (a :: l ++ [a])
  nodup : (a :: l).Nodup

/-- Following `f` from `a` visits `l` and then arrives at `b`. -/
def Walk (f : N → N) (a : N) : List N → N → Prop
  | [], b => f a = b
  | x :: l, b => f a = x ∧ Walk f x l b

theorem walk_append {f : N → N} {a x b : N} {l m : List N} :
    Walk f a (l ++ x :: m) b ↔ Walk f a l x ∧ Walk f x m b := by
  induction l generalizing a with
  | nil => exact Iff.rfl
  | cons y l ih =>
    show f a = y ∧ Walk f y (l ++ x :: m) b ↔ (f a = y ∧ Walk f y l x) ∧ Walk f x m b
    rw [ih, and_assoc]

theorem walk_next {L : Links N} {a b : N} {l : List N}
    (h : List.IsChain L.Adj (a :: l ++ [b])) : Walk L.next a l b := by
  induction l generalizing a with
  | nil =>
    simp only [List.cons_append, List.nil_append, List.isChain_cons_cons] at h
    exact h.1.1
  | cons x l ih =>
    simp only [List.cons_append, List.isChain_cons_cons] at h
    exact ⟨h.1.1, ih h.2⟩

theorem walk_prev {L : Links N} {a b : N} {l : List N}
    (h : List.IsChain L.Adj (a :: l ++ [b])) : Walk L.prev b l.reverse a := by
  induction l generalizing a with
  | nil =>
    simp only [List.cons_append, List.nil_append, List.isChain_cons_cons] at h
    exact h.1.2
  | cons x l ih =>
    simp only [List.cons_append, List.isChain_cons_cons] at h
    rw [List.reverse_cons, walk_append]
    exact ⟨ih h.2, h.1.2⟩

/-- The circle, forwards. -/
theorem IsCircle.forward {L : Links N} {a : N} {l : List N} (h : IsCircle L a l) :
    Walk L.next a l a := walk_next h.chain

/-- The circle, backwards. -/
theorem IsCircle.backward {L : Links N} {a : N} {l : List N} (h : IsCircle L a l) :
    Walk L.prev a l.reverse a := walk_prev h.chain

/-! ## Searching -/

/-- `for (x = f(a); x != end; x = f(x)) if (P(x)) break;`, at most `fuel` times. -/
def search (f : N → N) (P : N → Bool) [DecidableEq N] (stop : N) : (fuel : Nat) → (x : N) → Option N
  | 0, _ => none
  | fuel + 1, x =>
    if x = stop then none
    else if P x then some x
    else search f P stop fuel (f x)

/-- A search along a walk finds the first node on it. -/
theorem search_walk [DecidableEq N] {f : N → N} {P : N → Bool} {a b : N} {l : List N}
    (h : Walk f a l b) (hb : b ∉ l) {fuel : Nat} (hfuel : l.length < fuel) :
    search f P b fuel (f a) = l.find? P := by
  induction l generalizing a fuel with
  | nil =>
    obtain ⟨fuel, rfl⟩ : ∃ k, fuel = k + 1 := ⟨fuel - 1, by simp at hfuel; omega⟩
    rw [show f a = b from h]
    simp [search]
  | cons x l ih =>
    obtain ⟨fuel, rfl⟩ : ∃ k, fuel = k + 1 := ⟨fuel - 1, by simp at hfuel; omega⟩
    obtain ⟨hx, hl⟩ := h
    have hxb : x ≠ b := fun heq => hb (by rw [heq]; exact List.mem_cons_self)
    rw [hx]
    unfold search
    rw [if_neg hxb, List.find?_cons]
    cases hP : P x with
    | true => rfl
    | false => exact ih hl (fun hm => hb (List.mem_cons_of_mem x hm)) (by simpa using hfuel)

/-! ## Changing the circle -/

/-- Pointers that agree on the nodes of a chain leave it a chain. -/
theorem isChain_congr {L L' : Links N} {l : List N} (h : List.IsChain L.Adj l)
    (hnext : ∀ x ∈ l.dropLast, L'.next x = L.next x) (hprev : ∀ y ∈ l.tail, L'.prev y = L.prev y) :
    List.IsChain L'.Adj l := by
  induction l with
  | nil => exact .nil
  | cons x l ih =>
    cases l with
    | nil => exact .singleton x
    | cons y l =>
      rw [List.isChain_cons_cons] at h ⊢
      refine ⟨⟨?_, ?_⟩, ih h.2 (fun z hz => hnext z ?_) fun z hz => hprev z ?_⟩
      · rw [hnext x (by simp)]; exact h.1.1
      · rw [hprev y (by simp)]; exact h.1.2
      · rw [List.dropLast_cons_of_ne_nil (by simp)]
        exact List.mem_cons_of_mem x hz
      · exact List.mem_cons_of_mem y hz

section

variable [DecidableEq N]

/-- `b->next->prev = b->prev; b->prev->next = b->next;` -/
def Links.unlink (L : Links N) (b : N) : Links N :=
  let L := { L with prev := update L.prev (L.next b) (L.prev b) }
  { L with next := update L.next (L.prev b) (L.next b) }

/-- `b->next = a->next; b->prev = a; a->next->prev = b; a->next = b;` -/
def Links.insert (L : Links N) (a b : N) : Links N :=
  let L := { L with next := update L.next b (L.next a) }
  let L := { L with prev := update L.prev b a }
  let L := { L with prev := update L.prev (L.next a) b }
  { L with next := update L.next a b }

variable {L : Links N} {a b : N} {l : List N}

/-- The pointers after an insertion. -/
theorem insert_next (hab : a ≠ b) (x : N) :
    (L.insert a b).next x = if x = a then b else if x = b then L.next a else L.next x := by
  unfold Links.insert
  by_cases hxa : x = a
  · simp [hxa]
  · by_cases hxb : x = b
    · simp [hxb, hab.symm]
    · simp [hxa, hxb]

theorem insert_prev (hab : a ≠ b) (x : N) :
    (L.insert a b).prev x = if x = L.next a then b else if x = b then a else L.prev x := by
  unfold Links.insert
  simp only [update_of_ne hab]
  by_cases hxa : x = L.next a
  · simp [hxa]
  · by_cases hxb : x = b
    · subst hxb
      simp [hxa]
    · simp [hxa, hxb]

/-- A new node goes in behind `a`. -/
theorem IsCircle.insert (h : IsCircle L a l) (hb : b ∉ a :: l) :
    IsCircle (L.insert a b) a (b :: l) := by
  simp only [List.mem_cons, not_or] at hb
  obtain ⟨hba, hbl⟩ := hb
  have hab : a ≠ b := fun heq => hba heq.symm
  have hnodup := h.nodup
  rw [List.nodup_cons] at hnodup
  refine ⟨?_, ?_⟩
  · -- `c` is the node that used to follow `a`
    obtain ⟨c, m, hcm⟩ : ∃ c m, l ++ [a] = c :: m := by
      cases l with
      | nil => exact ⟨a, [], rfl⟩
      | cons c l => exact ⟨c, l ++ [a], rfl⟩
    have hchain := h.chain
    rw [List.cons_append, hcm, List.isChain_cons_cons] at hchain
    have hca : L.next a = c := hchain.1.1
    have hcb : c ≠ b := by
      intro heq
      have hmem : c ∈ l ++ [a] := by rw [hcm]; exact List.mem_cons_self
      rw [heq, List.mem_append, List.mem_singleton] at hmem
      exact hmem.elim hbl hba
    have hnodup' : (c :: m).Nodup := by
      rw [← hcm]
      exact List.nodup_append.mpr ⟨hnodup.2, List.nodup_singleton a, by
        intro x hx y hy hxy
        rw [List.mem_singleton] at hy
        exact hnodup.1 (by rw [← hy, ← hxy]; exact hx)⟩
    rw [List.cons_append, List.cons_append, hcm, List.isChain_cons_cons, List.isChain_cons_cons]
    refine ⟨⟨?_, ?_⟩, ⟨?_, ?_⟩, isChain_congr hchain.2 (fun x hx => ?_) fun y hy => ?_⟩
    · rw [insert_next hab, if_pos rfl]
    · rw [insert_prev hab, if_neg (by rw [hca]; exact fun heq => hcb heq.symm), if_pos rfl]
    · rw [insert_next hab, if_neg hba, if_pos rfl, hca]
    · rw [insert_prev hab, if_pos hca.symm]
    · -- neither `a` nor `b` is left again on the rest of the circle
      rw [← hcm, List.dropLast_concat] at hx
      rw [insert_next hab, if_neg (fun heq : x = a => hnodup.1 (heq ▸ hx)),
        if_neg (fun heq : x = b => hbl (heq ▸ hx))]
    · have hyc : y ≠ c := fun heq => (List.nodup_cons.mp hnodup').1 (heq ▸ hy)
      have hyb : y ≠ b := by
        intro heq
        have hmem : y ∈ l ++ [a] := by rw [hcm]; exact List.mem_cons_of_mem c hy
        rw [heq, List.mem_append, List.mem_singleton] at hmem
        exact hmem.elim hbl hba
      rw [insert_prev hab, if_neg (by rw [hca]; exact hyc), if_neg hyb]
  · rw [List.nodup_cons, List.nodup_cons, List.mem_cons, not_or]
    exact ⟨⟨hab, hnodup.1⟩, hbl, hnodup.2⟩

/-- A node is taken out. -/
theorem IsCircle.unlink {l₁ l₂ : List N} (h : IsCircle L a (l₁ ++ b :: l₂)) :
    IsCircle (L.unlink b) a (l₁ ++ l₂) := by
  have hnodup := h.nodup
  rw [List.nodup_cons, List.mem_append, List.mem_cons, not_or, not_or, List.nodup_append,
    List.nodup_cons] at hnodup
  obtain ⟨⟨ha₁, hab, ha₂⟩, hn₁, ⟨hb₂, hn₂⟩, hdisj⟩ := hnodup
  -- `x` is the node before `b` and `y` the one after it
  obtain ⟨u, x, hux⟩ : ∃ u x, a :: l₁ = u ++ [x] :=
    ⟨(a :: l₁).dropLast, (a :: l₁).getLast (by simp), (List.dropLast_concat_getLast _).symm⟩
  obtain ⟨y, v, hyv⟩ : ∃ y v, l₂ ++ [a] = y :: v := by
    cases l₂ with
    | nil => exact ⟨a, [], rfl⟩
    | cons c l => exact ⟨c, l ++ [a], rfl⟩
  have hxm : x ∈ a :: l₁ := by rw [hux]; simp
  have hym : y ∈ l₂ ++ [a] := by rw [hyv]; exact List.mem_cons_self
  have hchain : List.IsChain L.Adj (u ++ x :: b :: y :: v) := by
    have hall := h.chain
    rw [show a :: (l₁ ++ b :: l₂) ++ [a] = (a :: l₁) ++ b :: (l₂ ++ [a]) by simp, hux, hyv] at hall
    simpa using hall
  obtain ⟨hleft, hright⟩ := List.isChain_split.mp hchain
  rw [List.isChain_cons_cons, List.isChain_cons_cons] at hright
  obtain ⟨⟨hxb, hbx⟩, ⟨hby, hyb⟩, hright⟩ := hright
  have hyb' : y ≠ b := by
    intro heq
    rw [heq, List.mem_append, List.mem_singleton] at hym
    exact hym.elim hb₂ fun hba => hab hba.symm
  -- the two assignments make `x` and `y` neighbours
  have hprev : ∀ z, (L.unlink b).prev z = if z = y then x else L.prev z := by
    intro z
    unfold Links.unlink
    simp only [hby, hbx]
    by_cases hz : z = y
    · simp [hz]
    · simp [hz]
  have hnext : ∀ z, (L.unlink b).next z = if z = x then y else L.next z := by
    intro z
    unfold Links.unlink
    simp only [hby, hbx, update_of_ne hyb'.symm]
    by_cases hz : z = x
    · simp [hz]
    · simp [hz]
  have hnu : (u ++ [x]).Nodup := by rw [← hux]; exact List.nodup_cons.mpr ⟨ha₁, hn₁⟩
  have hnv : (y :: v).Nodup := by
    rw [← hyv]
    refine List.nodup_append.mpr ⟨hn₂, List.nodup_singleton a, fun z hz w hw hzw => ?_⟩
    rw [List.mem_singleton] at hw
    exact ha₂ (by rw [← hw, ← hzw]; exact hz)
  refine ⟨?_, ?_⟩
  · rw [show a :: (l₁ ++ l₂) ++ [a] = (a :: l₁) ++ (l₂ ++ [a]) by simp, hux, hyv,
      List.append_assoc, List.singleton_append]
    refine List.isChain_split.mpr ⟨isChain_congr hleft (fun z hz => ?_) fun z hz => ?_, ?_⟩
    · -- before `x`
      rw [List.dropLast_concat] at hz
      have hzx : z ≠ x := by
        intro heq
        rw [List.nodup_append] at hnu
        exact hnu.2.2 z hz x (List.mem_singleton.mpr rfl) heq
      rw [hnext, if_neg hzx]
    · rw [← hux, List.tail_cons] at hz
      have hzy : z ≠ y := by
        intro heq
        rw [← heq, List.mem_append, List.mem_singleton] at hym
        rcases hym with hm | rfl
        · exact hdisj z hz z (List.mem_cons_of_mem b hm) rfl
        · exact ha₁ hz
      rw [hprev, if_neg hzy]
    · rw [List.isChain_cons_cons]
      refine ⟨⟨by rw [hnext, if_pos rfl], by rw [hprev, if_pos rfl]⟩,
        isChain_congr hright (fun z hz => ?_) fun z hz => ?_⟩
      · -- after `y`
        rw [← hyv, List.dropLast_concat] at hz
        have hzx : z ≠ x := by
          intro heq
          rw [← heq, List.mem_cons] at hxm
          rcases hxm with rfl | hm
          · exact ha₂ hz
          · exact hdisj z hm z (List.mem_cons_of_mem b hz) rfl
        rw [hnext, if_neg hzx]
      · have hzy : z ≠ y := fun heq => (List.nodup_cons.mp hnv).1 (heq ▸ hz)
        rw [hprev, if_neg hzy]
  · rw [List.nodup_cons, List.mem_append, not_or, List.nodup_append]
    exact ⟨⟨ha₁, ha₂⟩, hn₁, hn₂, fun z hz w hw => hdisj z hz w (List.mem_cons_of_mem b hw)⟩

end

end Circle
