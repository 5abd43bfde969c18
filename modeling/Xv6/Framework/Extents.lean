import Mathlib

/-! # Lists of extents

    Extents of memory in ascending order with space between them, as a free
    list keeps them. Putting an extent in joins it with its neighbours where
    they touch; taking one out cuts it off at the end of one of them. Both
    keep the order and the space, and move exactly the given bytes.
-/

namespace Extents

/-- From an address up to, but not including, another one. -/
abbrev Extent : Type := Nat × Nat

def bytes (b : Extent) : Set Nat := Set.Ico b.1 b.2

/-- The bytes of all of them. -/
def covered (l : List Extent) : Set Nat := {x | ∃ b ∈ l, x ∈ bytes b}

def total (l : List Extent) : Nat := (l.map fun b => b.2 - b.1).sum

/-- In ascending order, with space between any two of them. -/
def Gapped (l : List Extent) : Prop := l.Pairwise fun a b => a.2 < b.1

variable {l pre post : List Extent} {p q b : Extent} {m : Nat}

@[simp] theorem covered_nil : covered [] = ∅ := by
  ext x
  simp [covered]

@[simp] theorem covered_cons : covered (b :: l) = bytes b ∪ covered l := by
  ext x
  simp [covered]

@[simp] theorem covered_append : covered (pre ++ post) = covered pre ∪ covered post := by
  ext x
  simp [covered, or_and_right, exists_or]

@[simp] theorem total_nil : total [] = 0 := rfl

@[simp] theorem total_cons : total (b :: l) = (b.2 - b.1) + total l := by
  simp [total]

@[simp] theorem total_append : total (pre ++ post) = total pre + total post := by
  simp [total]

theorem bytes_subset_covered (h : b ∈ l) : bytes b ⊆ covered l := fun _ hx => ⟨b, h, hx⟩

/-- Extents that touch make one. -/
theorem bytes_union (hb : b.1 ≤ b.2) (hq : q.1 ≤ q.2) (h : b.2 = q.1) : bytes b ∪ bytes q = bytes (b.1, q.2) := by
  unfold bytes
  rw [h]
  exact Set.Ico_union_Ico_eq_Ico (h ▸ hb) hq

/-- The place of an address in the list. -/
theorem Gapped.split {a : Extent} {x : Nat} (h : Gapped (a :: l)) (hle : ∀ q ∈ l, q.1 ≤ q.2) (ha : a.1 < x) :
    ∃ pre p post, a :: l = pre ++ p :: post ∧ p.1 < x ∧ ∀ q ∈ post, x ≤ q.1 := by
  induction l generalizing a with
  | nil => exact ⟨[], a, [], rfl, ha, fun q hq => absurd hq List.not_mem_nil⟩
  | cons c l ih =>
    have hcl := (List.pairwise_cons.mp h).2
    by_cases hc : c.1 < x
    · obtain ⟨pre, p, post, heq, hp, hpost⟩ := ih hcl (fun q hq => hle q (List.mem_cons_of_mem _ hq)) hc
      exact ⟨a :: pre, p, post, by rw [heq]; rfl, hp, hpost⟩
    · refine ⟨[], a, c :: l, rfl, ha, fun q hq => ?_⟩
      rcases List.mem_cons.mp hq with rfl | hq
      · exact Nat.not_lt.mp hc
      · have := (List.pairwise_cons.mp hcl).1 q hq
        have := hle c List.mem_cons_self
        omega

/-! ## Putting one in -/

/-- Put `b` in front, joined with the next one if they touch. -/
def join (b : Extent) : List Extent → List Extent
  | [] => [b]
  | q :: l => if b.2 = q.1 then (b.1, q.2) :: l else b :: q :: l

theorem join_cons : join b (q :: l) = if b.2 = q.1 then (b.1, q.2) :: l else b :: q :: l := rfl

theorem covered_join (hb : b.1 ≤ b.2) (hl : ∀ q ∈ l, q.1 ≤ q.2) : covered (join b l) = bytes b ∪ covered l := by
  cases l with
  | nil => exact covered_cons
  | cons q l =>
    rw [join_cons]
    split_ifs with h
    · rw [covered_cons, covered_cons, ← bytes_union hb (hl q List.mem_cons_self) h, Set.union_assoc]
    · exact covered_cons

theorem total_join (hb : b.1 ≤ b.2) (hl : ∀ q ∈ l, q.1 ≤ q.2) : total (join b l) = (b.2 - b.1) + total l := by
  cases l with
  | nil => rfl
  | cons q l =>
    have hq := hl q List.mem_cons_self
    rw [join_cons]
    split_ifs with h
    · rw [total_cons, total_cons]
      dsimp only
      omega
    · rfl

/-- What is there afterwards starts no earlier than `b`, and is one of the
    extents of before, or `b`, or both of them joined. -/
theorem mem_join (h : q ∈ join b l) : q = b ∨ q ∈ l ∨ ∃ q' ∈ l, b.2 = q'.1 ∧ q = (b.1, q'.2) := by
  cases l with
  | nil => exact Or.inl (List.mem_singleton.mp h)
  | cons r l =>
    rw [join_cons] at h
    split_ifs at h with hr
    · rcases List.mem_cons.mp h with rfl | hq
      · exact Or.inr (Or.inr ⟨r, List.mem_cons_self, hr, rfl⟩)
      · exact Or.inr (Or.inl (List.mem_cons_of_mem _ hq))
    · rcases List.mem_cons.mp h with rfl | hq
      · exact Or.inl rfl
      · exact Or.inr (Or.inl hq)

/-- An extent of before is within one of afterwards. -/
theorem exists_mem_join (hb : b.1 ≤ b.2) (hl : ∀ r ∈ l, r.1 ≤ r.2) (h : q ∈ b :: l) :
    ∃ c ∈ join b l, c.1 ≤ q.1 ∧ q.2 ≤ c.2 := by
  cases l with
  | nil => exact ⟨q, h, le_rfl, le_rfl⟩
  | cons r l =>
    have hr := hl r List.mem_cons_self
    rw [join_cons]
    split_ifs with hbr
    · rcases List.mem_cons.mp h with rfl | h
      · exact ⟨_, List.mem_cons_self, le_rfl, show q.2 ≤ r.2 by omega⟩
      · rcases List.mem_cons.mp h with rfl | h
        · exact ⟨_, List.mem_cons_self, show b.1 ≤ q.1 by omega, le_rfl⟩
        · exact ⟨q, List.mem_cons_of_mem _ h, le_rfl, le_rfl⟩
    · exact ⟨q, h, le_rfl, le_rfl⟩

theorem join_le (hb : b.1 ≤ b.2) (hl : ∀ q ∈ l, q.1 ≤ q.2) : ∀ q ∈ join b l, q.1 ≤ q.2 := by
  intro q hq
  rcases mem_join hq with rfl | hq | ⟨r, hr, hbr, rfl⟩
  · exact hb
  · exact hl q hq
  · have := hl r hr
    dsimp only
    omega

theorem le_join (hb : b.1 ≤ b.2) (hl : ∀ q ∈ l, b.2 ≤ q.1) : ∀ q ∈ join b l, b.1 ≤ q.1 := by
  intro q hq
  rcases mem_join hq with rfl | hq | ⟨r, hr, hbr, rfl⟩
  · exact le_rfl
  · exact hb.trans (hl q hq)
  · exact le_rfl

theorem gapped_join (h : Gapped l) (hl : ∀ q ∈ l, q.1 ≤ q.2) (hb : ∀ q ∈ l, b.2 ≤ q.1) : Gapped (join b l) := by
  cases l with
  | nil => exact List.pairwise_singleton _ _
  | cons q l =>
    obtain ⟨hq, hgap⟩ := List.pairwise_cons.mp h
    rw [join_cons]
    split_ifs with heq
    · exact List.pairwise_cons.mpr ⟨hq, hgap⟩
    · have hbq := hb q List.mem_cons_self
      refine List.pairwise_cons.mpr ⟨fun r hr => ?_, h⟩
      rcases List.mem_cons.mp hr with rfl | hr
      · omega
      · have := hq r hr
        have := hl q List.mem_cons_self
        omega

/-- `b` goes in between `p` and what follows. -/
theorem gapped_release (h : Gapped (pre ++ p :: post)) (hle : ∀ a ∈ pre ++ p :: post, a.1 ≤ a.2)
    (hp : p.2 ≤ b.1) (hb : b.1 ≤ b.2) (hpost : ∀ q ∈ post, b.2 ≤ q.1) :
    Gapped (pre ++ join p (join b post)) := by
  obtain ⟨hpre, hrest, hcross⟩ := List.pairwise_append.mp h
  obtain ⟨hlep, hlepost⟩ := List.forall_mem_cons.mp (List.forall_mem_append.mp hle).2
  have hge : ∀ q ∈ join b post, p.2 ≤ q.1 := fun q hq => hp.trans (le_join hb hpost q hq)
  refine List.pairwise_append.mpr ⟨hpre, ?_, fun a ha q hq => ?_⟩
  · exact gapped_join (gapped_join (List.pairwise_cons.mp hrest).2 hlepost hpost) (join_le hb hlepost) hge
  · exact lt_of_lt_of_le (hcross a ha p List.mem_cons_self) (le_join hlep hge q hq)

theorem covered_release (hle : ∀ a ∈ pre ++ p :: post, a.1 ≤ a.2) (hb : b.1 ≤ b.2) :
    covered (pre ++ join p (join b post)) = bytes b ∪ covered (pre ++ p :: post) := by
  obtain ⟨hlep, hlepost⟩ := List.forall_mem_cons.mp (List.forall_mem_append.mp hle).2
  rw [covered_append, covered_append, covered_join hlep (join_le hb hlepost), covered_join hb hlepost, covered_cons]
  ac_rfl

theorem total_release (hle : ∀ a ∈ pre ++ p :: post, a.1 ≤ a.2) (hb : b.1 ≤ b.2) :
    total (pre ++ join p (join b post)) = (b.2 - b.1) + total (pre ++ p :: post) := by
  obtain ⟨hlep, hlepost⟩ := List.forall_mem_cons.mp (List.forall_mem_append.mp hle).2
  rw [total_append, total_append, total_join hlep (join_le hb hlepost), total_join hb hlepost, total_cons]
  omega

/-! ## Taking one out -/

/-- What is left of `q` when it is cut at `m`. -/
def carve (m : Nat) (q : Extent) : List Extent := if m = q.1 then [] else [(q.1, m)]

theorem mem_carve (h : b ∈ carve m q) : b = (q.1, m) ∧ m ≠ q.1 := by
  unfold carve at h
  split_ifs at h with hm
  · cases h
  · exact ⟨List.mem_singleton.mp h, hm⟩

theorem covered_carve : covered (carve m q) = bytes (q.1, m) := by
  unfold carve
  split_ifs with h
  · rw [covered_nil, bytes, h, Set.Ico_self]
  · rw [covered_cons, covered_nil, Set.union_empty]

theorem total_carve : total (carve m q) = m - q.1 := by
  unfold carve
  split_ifs with h
  · rw [total_nil, h, Nat.sub_self]
  · rw [total_cons, total_nil, Nat.add_zero]

theorem gapped_carve (h : Gapped (pre ++ q :: post)) (hm : m ≤ q.2) : Gapped (pre ++ carve m q ++ post) := by
  obtain ⟨hpre, hrest, hcross⟩ := List.pairwise_append.mp h
  obtain ⟨hq, hpost⟩ := List.pairwise_cons.mp hrest
  rw [List.append_assoc]
  refine List.pairwise_append.mpr ⟨hpre, List.pairwise_append.mpr ⟨?_, hpost, fun a ha r hr => ?_⟩, fun a ha r hr => ?_⟩
  · unfold carve
    split_ifs
    · exact List.Pairwise.nil
    · exact List.pairwise_singleton _ _
  · obtain ⟨rfl, -⟩ := mem_carve ha
    exact lt_of_le_of_lt hm (hq r hr)
  · rcases List.mem_append.mp hr with hr | hr
    · obtain ⟨rfl, -⟩ := mem_carve hr
      exact hcross a ha q List.mem_cons_self
    · exact hcross a ha r (List.mem_cons_of_mem _ hr)

theorem covered_split (h₁ : q.1 ≤ m) (h₂ : m ≤ q.2) :
    covered (pre ++ q :: post) = bytes (m, q.2) ∪ covered (pre ++ carve m q ++ post) := by
  have hq : bytes q = bytes (q.1, m) ∪ bytes (m, q.2) := (bytes_union (b := (q.1, m)) (q := (m, q.2)) h₁ h₂ rfl).symm
  rw [covered_append, covered_cons, covered_append, covered_append, covered_carve, hq]
  ac_rfl

theorem total_split (h₁ : q.1 ≤ m) (h₂ : m ≤ q.2) :
    total (pre ++ q :: post) = (q.2 - m) + total (pre ++ carve m q ++ post) := by
  rw [total_append, total_cons, total_append, total_append, total_carve]
  omega

/-- What is cut off is not left. -/
theorem disjoint_carve (h : Gapped (pre ++ q :: post)) (hm : q.1 ≤ m) :
    Disjoint (bytes (m, q.2)) (covered (pre ++ carve m q ++ post)) := by
  obtain ⟨-, hrest, hcross⟩ := List.pairwise_append.mp h
  obtain ⟨hq, -⟩ := List.pairwise_cons.mp hrest
  rw [covered_append, covered_append, covered_carve, Set.disjoint_union_right, Set.disjoint_union_right]
  refine ⟨⟨Set.disjoint_left.mpr ?_, Set.disjoint_left.mpr ?_⟩, Set.disjoint_left.mpr ?_⟩
  · rintro x ⟨hx, -⟩ ⟨a, ha, -, hxa⟩
    have := hcross a ha q List.mem_cons_self
    dsimp only at hx
    omega
  · rintro x ⟨hx, -⟩ ⟨-, hxm⟩
    exact absurd hx (Nat.not_le.mpr hxm)
  · rintro x ⟨-, hx⟩ ⟨r, hr, hxr, -⟩
    have := hq r hr
    dsimp only at hx
    omega

end Extents
