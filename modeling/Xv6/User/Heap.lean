import Xv6.User.Umalloc

/-! # Programs that call `malloc` and `free`

    What `malloc` does to the circle, and the invariant of all runs of a
    program that frees only what it got from `malloc` and has not freed yet.
-/

namespace Xv6.User.Umalloc

open Ring Extents LTS Function
open Xv6.Vm (KERNBASE PGROUNDUP)

variable {base sz nunits cut fuel nbytes : Nat} {N L pre post : List Extent} {p q b : Extent} {s s' : Heap}

/-! ## Taking units out of the circle -/

/-- The header of the block that is cut off is not one of the others. -/
theorem Core.cut_ne (h : Core base s (pre ++ q :: post) L) (hq : Sized base s.sz q) (hcut : q.1 ≤ cut ∧ cut + 8 ≤ q.2) :
    ∀ a ∈ pre ++ carve cut q ++ post, a.1 ≠ cut := by
  obtain ⟨hbase, -, -⟩ := hq
  intro a ha heq
  have hsized : a.1 ∈ bytes a ∨ a.1 = base := by
    rcases List.mem_append.mp ha with ha | ha
    · rcases List.mem_append.mp ha with ha | ha
      · rcases h.nodes a (List.mem_append_left _ ha) with rfl | ⟨-, ha, -⟩
        · exact Or.inr rfl
        · exact Or.inl ⟨le_rfl, by omega⟩
      · obtain ⟨rfl, hne⟩ := mem_carve ha
        exact Or.inl ⟨le_rfl, show q.1 < cut by omega⟩
    · rcases h.nodes a (List.mem_append_right _ (List.mem_cons_of_mem _ ha)) with rfl | ⟨-, ha, -⟩
      · exact Or.inr rfl
      · exact Or.inl ⟨le_rfl, by omega⟩
  rcases hsized with hmem | hmem
  · refine Set.disjoint_left.mp (disjoint_carve h.gapped hcut.1) ?_ (bytes_subset_covered ha hmem)
    exact ⟨by dsimp only; omega, by dsimp only; omega⟩
  · omega

/-- The end of a block goes over to the blocks that are not in the circle. -/
theorem Core.carve (h : Core base s (pre ++ q :: post) L) (hpre : pre ≠ []) (hq : Sized base s.sz q)
    (hcut : q.1 ≤ cut ∧ cut + 8 ≤ q.2) (hsz : s'.sz = s.sz) (hfreep : s'.freep ∈ pre.map Prod.fst)
    (hholds : Holds s'.mem base (pre ++ carve cut q ++ post)) (hsize : q.2 = cut + 8 * (s'.mem cut).size)
    (hblocks : ∀ c ∈ L, s'.mem c.1 = s.mem c.1) :
    Core base s' (pre ++ Extents.carve cut q ++ post) ((cut, q.2) :: L) := by
  have hqN : q ∈ pre ++ q :: post := List.mem_append_right _ List.mem_cons_self
  obtain ⟨hbase, -, hqsz⟩ := hq
  have hbytes : bytes (cut, q.2) ⊆ bytes q := fun x hx => ⟨hcut.1.trans hx.1, hx.2⟩
  have hothers : Disjoint (bytes (cut, q.2)) (covered L) :=
    h.disjoint.mono_left (hbytes.trans (bytes_subset_covered hqN))
  refine ⟨h.pos, ?_, hholds, gapped_carve h.gapped (by omega), ?_, fun a ha => ?_, fun c hc => ?_, ?_, ?_, hsz ▸ h.top⟩
  · have hhead := h.head
    cases pre with
    | nil => exact absurd rfl hpre
    | cons a pre => exact hhead
  · rw [List.append_assoc, List.map_append]
    exact List.mem_append_left _ hfreep
  · rw [hsz]
    rcases List.mem_append.mp ha with ha | ha
    · rcases List.mem_append.mp ha with ha | ha
      · exact h.nodes a (List.mem_append_left _ ha)
      · obtain ⟨rfl, hne⟩ := mem_carve ha
        refine Or.inr ⟨hbase, ?_, by dsimp only; omega⟩
        -- the units that are left are whole ones
        have := hholds.2 _ (List.mem_append_left _ (List.mem_append_right _ ha))
        dsimp only at this ⊢
        omega
    · exact h.nodes a (List.mem_append_right _ (List.mem_cons_of_mem _ ha))
  · rw [hsz]
    rcases List.mem_cons.mp hc with rfl | hc
    · exact ⟨⟨by dsimp only; omega, hcut.2, hqsz⟩, hsize⟩
    · rw [hblocks c hc]
      exact h.blocks c hc
  · refine List.pairwise_cons.mpr ⟨fun c hc => ?_, h.apart⟩
    exact hothers.mono_right (bytes_subset_covered hc)
  · rw [covered_cons, Set.disjoint_union_right]
    refine ⟨(disjoint_carve h.gapped hcut.1).symm, h.disjoint.mono_left ?_⟩
    rw [covered_split hcut.1 (show cut ≤ q.2 by omega)]
    exact Set.subset_union_right

/-- The circle with another rest behind `p`. -/
theorem Holds.relink {m m' : Nat → Header} {z : Nat} {l l' : List Extent} (h : Holds m z (pre ++ p :: l))
    (hl' : Holds m' z l') (hpre : ∀ a ∈ pre, m' a.1 = m a.1) (hptr : (m' p.1).ptr = start z l')
    (hsize : (m' p.1).size = (m p.1).size) : Holds m' z (pre ++ p :: l') := by
  obtain ⟨hpre', hp⟩ := holds_append.mp h
  refine holds_append.mpr ⟨Holds.congr hpre' hpre, holds_cons.mpr ⟨hptr, ?_, hl'⟩⟩
  rw [hsize]
  exact (holds_cons.mp hp).2.1

section

variable (h : Core base s (pre ++ p :: q :: post) L)
include h

/-- `malloc_take` takes a block that has as many units as needed. -/
theorem Core.take_all (hq : Sized base s.sz q) (hexact : (s.mem q.1).size = nunits) :
    ∃ s', malloc_take nunits p.1 q.1 s = .ok (q.1 + 8) s' ∧
      Core base s' (pre ++ [p] ++ Extents.carve q.1 q ++ post) ((q.1, q.2) :: L) ∧
      s'.sz = s.sz ∧ s'.regions = s.regions ∧ s'.live = s.live := by
  have hsplit := List.append_cons pre p (q :: post)
  have hpN : p ∈ pre ++ p :: q :: post := by simp
  have hqN : q ∈ pre ++ p :: q :: post := by simp
  have hqlt : q.2 < 2 ^ 32 := (h.lt q hqN).trans (by decide)
  have hqsize : q.2 = q.1 + 8 * (s.mem q.1).size := h.holds.2 q hqN
  obtain ⟨hqptr, -, hpost⟩ := holds_cons.mp (holds_cons.mp (holds_append.mp h.holds).2).2.2
  have hne := h.ne_of_mem
  set m' := update s.mem p.1 ⟨(s.mem q.1).ptr, (s.mem p.1).size⟩ with hm'
  have hkeep : ∀ a, a ≠ p.1 → m' a = s.mem a := fun a ha => update_of_ne ha _ _
  have hself : m' p.1 = ⟨(s.mem q.1).ptr, (s.mem p.1).size⟩ := update_self _ _ _
  have hholds : Holds m' base (pre ++ p :: post) := by
    refine Holds.relink h.holds (hpost.congr fun a ha => ?_) (fun a ha => ?_) ?_ ?_
    · exact hkeep a.1 (hne a (List.mem_append_right _ (List.mem_cons_of_mem _ ha)))
    · exact hkeep a.1 (hne a (List.mem_append_left _ ha))
    · rw [hself]
      exact hqptr
    · rw [hself]
  have hblocks : ∀ c ∈ L, m' c.1 = s.mem c.1 := fun c hc => hkeep c.1 (h.block_ne hpN c hc)
  have hqp : q.1 ≠ p.1 := hne q (List.mem_append_right _ List.mem_cons_self)
  rw [hsplit] at h
  refine ⟨{ s with mem := m', freep := p.1 }, ?_, h.carve (by simp) hq ⟨le_rfl, hq.2.1⟩ rfl ?_ ?_ ?_ hblocks,
    rfl, rfl, rfl⟩
  · unfold malloc_take
    rw [Op.get_bind, if_pos hexact]
    show Outcome.ok (uint (q.1 + 8)) _ = _
    rw [uint, Nat.mod_eq_of_lt (by have := hq.2.1; omega)]
  · exact List.mem_map_of_mem (List.mem_append_right _ List.mem_cons_self)
  · rw [show Extents.carve q.1 q = [] from if_pos rfl, List.append_nil, List.append_assoc]
    exact hholds
  · show q.2 = q.1 + 8 * (m' q.1).size
    rw [hkeep q.1 hqp]
    exact hqsize

/-- `malloc_take` cuts off the end of a block that has more. -/
theorem Core.take_end (hq : Sized base s.sz q) (hn : 0 < nunits) (hmore : nunits < (s.mem q.1).size)
    (hcut : q.2 = cut + 8 * nunits) :
    ∃ s', malloc_take nunits p.1 q.1 s = .ok (cut + 8) s' ∧
      Core base s' (pre ++ [p] ++ Extents.carve cut q ++ post) ((cut, q.2) :: L) ∧
      s'.sz = s.sz ∧ s'.regions = s.regions ∧ s'.live = s.live := by
  have hsplit := List.append_cons pre p (q :: post)
  have hpN : p ∈ pre ++ p :: q :: post := by simp
  have hqN : q ∈ pre ++ p :: q :: post := by simp
  have hqlt : q.2 < 2 ^ 32 := (h.lt q hqN).trans (by decide)
  have hqsize : q.2 = q.1 + 8 * (s.mem q.1).size := h.holds.2 q hqN
  have hrange : q.1 ≤ cut ∧ cut + 8 ≤ q.2 := ⟨by omega, by omega⟩
  have hcarve : Extents.carve cut q = [(q.1, cut)] := if_neg (by omega)
  have hholds := h.holds
  obtain ⟨hpptr, -, hqholds⟩ := holds_cons.mp (holds_append.mp h.holds).2
  obtain ⟨hqptr, -, hpost⟩ := holds_cons.mp hqholds
  have hblockq := h.block_ne hqN
  have hblockcut : ∀ c ∈ L, c.1 ≠ cut := by
    intro c hc heq
    obtain ⟨⟨-, hcsize, -⟩, -⟩ := h.blocks c hc
    exact Set.disjoint_left.mp h.disjoint (bytes_subset_covered hqN ⟨by omega, by omega⟩)
      (bytes_subset_covered hc (show cut ∈ bytes c from ⟨by omega, by omega⟩))
  rw [hsplit] at h
  have hneq := h.ne_of_mem
  have hnecut := h.cut_ne hq hrange
  rw [hcarve] at hnecut
  set size := (s.mem q.1).size - nunits with hsize
  set m₁ := update s.mem q.1 ⟨(s.mem q.1).ptr, size⟩ with hm₁
  set m₂ := update m₁ cut ⟨(m₁ cut).ptr, nunits⟩ with hm₂
  have hkeep : ∀ a, a ≠ q.1 → a ≠ cut → m₂ a = s.mem a := fun a haq hac => by
    rw [hm₂, update_of_ne hac, hm₁, update_of_ne haq]
  have hq₂ : m₂ q.1 = ⟨(s.mem q.1).ptr, size⟩ := by
    rw [hm₂, update_of_ne (by omega), hm₁, update_self]
  have hcut₂ : m₂ cut = ⟨(m₁ cut).ptr, nunits⟩ := update_self _ _ _
  have hnode : ∀ a ∈ pre ++ [p] ++ post, m₂ a.1 = s.mem a.1 := fun a ha =>
    hkeep a.1 (hneq a ha) (hnecut a (by
      rcases List.mem_append.mp ha with ha | ha
      · exact List.mem_append_left _ (List.mem_append_left _ ha)
      · exact List.mem_append_right _ ha))
  have hpmem : p ∈ pre ++ [p] ++ post :=
    List.mem_append_left _ (List.mem_append_right _ List.mem_cons_self)
  have hholds₂ : Holds m₂ base (pre ++ p :: (q.1, cut) :: post) := by
    refine Holds.relink hholds (holds_cons.mpr ⟨?_, ?_, hpost.congr fun a ha => ?_⟩) (fun a ha => ?_) ?_ ?_
    · rw [hq₂]
      exact hqptr
    · rw [hq₂]
      show cut = q.1 + 8 * size
      omega
    · exact hnode a (List.mem_append_right _ ha)
    · exact hnode a (List.mem_append_left _ (List.mem_append_left _ ha))
    · rw [hnode p hpmem]
      exact hpptr
    · rw [hnode p hpmem]
  refine ⟨{ s with mem := m₂, freep := p.1 }, ?_, h.carve (by simp) hq hrange rfl ?_ ?_ ?_ fun c hc => ?_, rfl, rfl, rfl⟩
  · have htail : uint (q.1 + 8 * size) = cut := by
      rw [uint, Nat.mod_eq_of_lt (by omega)]
      omega
    unfold malloc_take
    rw [Op.get_bind, if_neg (by omega)]
    rw [← hsize, htail]
    show Outcome.ok (uint (cut + 8)) _ = _
    rw [uint, Nat.mod_eq_of_lt (by omega)]
  · exact List.mem_map_of_mem (List.mem_append_right _ List.mem_cons_self)
  · rw [hcarve, List.append_assoc, List.append_assoc]
    exact hholds₂
  · show q.2 = cut + 8 * (m₂ cut).size
    rw [hcut₂]
    exact hcut
  · exact hkeep c.1 (hblockq c hc) (hblockcut c hc)

/-- `malloc_take` takes `nunits` units off the end of `q`. -/
theorem Core.take (hn : 0 < nunits) (hsize : nunits ≤ (s.mem q.1).size) :
    ∃ s' N' cut, malloc_take nunits p.1 q.1 s = .ok (cut + 8) s' ∧ Core base s' N' ((cut, q.2) :: L) ∧
      q.2 = cut + 8 * nunits ∧ covered (pre ++ p :: q :: post) = bytes (cut, q.2) ∪ covered N' ∧
      total (pre ++ p :: q :: post) = (q.2 - cut) + total N' ∧
      s'.sz = s.sz ∧ s'.regions = s.regions ∧ s'.live = s.live := by
  have hsplit := List.append_cons pre p (q :: post)
  have hqN : q ∈ pre ++ p :: q :: post := by simp
  have hqsize : q.2 = q.1 + 8 * (s.mem q.1).size := h.holds.2 q hqN
  have hq : Sized base s.sz q := by
    rcases h.nodes q hqN with rfl | hq
    · dsimp only at hqsize hsize
      omega
    · exact hq
  obtain ⟨cut, hcut⟩ : ∃ cut, q.2 = cut + 8 * nunits := ⟨q.2 - 8 * nunits, by omega⟩
  have hcut₁ : q.1 ≤ cut := by omega
  have hcut₂ : cut ≤ q.2 := by omega
  have htake : ∃ s', malloc_take nunits p.1 q.1 s = .ok (cut + 8) s' ∧
      Core base s' (pre ++ [p] ++ Extents.carve cut q ++ post) ((cut, q.2) :: L) ∧
      s'.sz = s.sz ∧ s'.regions = s.regions ∧ s'.live = s.live := by
    rcases Nat.eq_or_lt_of_le hsize with hexact | hmore
    · obtain rfl : cut = q.1 := by omega
      exact h.take_all hq hexact.symm
    · exact h.take_end hq hn hmore hcut
  obtain ⟨s', hrun, hcore, hsame⟩ := htake
  refine ⟨s', _, cut, hrun, hcore, hcut, ?_, ?_, hsame⟩
  · rw [hsplit]
    exact covered_split hcut₁ hcut₂
  · rw [hsplit]
    exact total_split hcut₁ hcut₂

end

/-! ## The invariant of whole runs -/

/-- The blocks that the program has are `L`, and the bytes in the circle and
    in these are those that `sbrk` has given. -/
structure Inv (base : Nat) (s : Heap) (N L : List Extent) : Prop extends Core base s N L where
  live : L.map Prod.fst = s.live
  account : covered N ∪ covered L = covered s.regions
  total : total N + total L = total s.regions

/-- The size of the process and the headers outside of all blocks do not
    matter. -/
theorem Core.grow (h : Core base s N L) (hsz : s.sz ≤ s'.sz) (htop : s'.sz < KERNBASE) (hfreep : s'.freep = s.freep)
    (hmem : ∀ a, a < s.sz → s'.mem a = s.mem a) : Core base s' N L := by
  have hnode : ∀ b ∈ N, b.1 < s.sz := fun b hb => by
    have := h.top
    rcases h.nodes b hb with rfl | ⟨-, hb, hb'⟩
    · dsimp only
      omega
    · omega
  refine ⟨h.pos, h.head, h.holds.congr fun b hb => hmem b.1 (hnode b hb), h.gapped, hfreep ▸ h.freep, fun b hb => ?_,
    fun b hb => ?_, h.apart, h.disjoint, ⟨h.top.1.trans hsz, htop⟩⟩
  · exact (h.nodes b hb).imp_right fun hb => hb.mono hsz
  · obtain ⟨hsized, hsize⟩ := h.blocks b hb
    refine ⟨hsized.mono hsz, ?_⟩
    rw [hmem b.1 (by have := hsized.2; omega)]
    exact hsize

theorem Core.freep_ne (h : Core base s N L) : s.freep ≠ 0 := by
  obtain ⟨b, hb, hbf⟩ := List.mem_map.mp h.freep
  have := h.base_le b hb
  have := h.pos
  omega

/-- `live` is a history. -/
theorem Core.withLive (h : Core base s N L) (live : List Nat) : Core base { s with live := live } N L :=
  ⟨h.pos, h.head, h.holds, h.gapped, h.freep, h.nodes, h.blocks, h.apart, h.disjoint, h.top⟩

/-- Everything lies below the end of the process. -/
theorem Core.covered_lt (h : Core base s N L) : ∀ x ∈ covered N ∪ covered L, x < s.sz := by
  rintro x (⟨b, hb, hx⟩ | ⟨b, hb, hx⟩)
  · have := h.top
    rcases h.nodes b hb with rfl | ⟨-, -, hb⟩
    · exact absurd hx.1 (Nat.not_le.mpr hx.2)
    · exact lt_of_lt_of_le hx.2 hb
  · exact lt_of_lt_of_le hx.2 (h.blocks b hb).1.2.2

/-- The units that `morecore` asks for. -/
def atLeast (nu : Nat) : Nat := if nu < 4096 then 4096 else nu

theorem le_atLeast {nu : Nat} (h : 8 * nu < 2 ^ 31) :
    nu ≤ atLeast nu ∧ 4096 ≤ atLeast nu ∧ 8 * atLeast nu < 2 ^ 31 := by
  unfold atLeast
  split_ifs
  · omega
  · omega

theorem morecore_eq (ok : Bool) (nunits : Nat) (s : Heap) : morecore ok nunits s =
    (sbrk ok (uint (atLeast nunits * 8)) >>= fun p =>
      if p = FAILED then pure 0
      else Op.get >>= fun s =>
        if PGROUNDUP s.sz < p + 8 then Op.panic "page fault"
        else Op.modify (fun s => { s with mem := update s.mem p ⟨(s.mem p).ptr, atLeast nunits⟩ }) >>= fun _ =>
          free (p + 8) >>= fun _ => Op.get >>= fun s => pure s.freep) s := rfl

theorem le_PGROUNDUP (h : sz < KERNBASE) : sz ≤ PGROUNDUP sz := by
  unfold PGROUNDUP
  simp only [KERNBASE, Vm.PGSIZE] at h ⊢
  omega

/-- `morecore` changes nothing, or puts a new region into the circle. -/
theorem Inv.morecore (h : Inv base s N L) (ok : Bool) (hsmall : 8 * nunits < 2 ^ 31) :
    Umalloc.morecore ok nunits s = .ok 0 s ∨
    ∃ s' N', Umalloc.morecore ok nunits s = .ok s'.freep s' ∧ s'.freep ≠ 0 ∧ Inv base s' N' L ∧
      (∃ c ∈ N', 8 * nunits ≤ c.2 - c.1) ∧ s'.live = s.live := by
  obtain ⟨hnu, hmin, hint⟩ := le_atLeast hsmall
  have hbytes : uint (atLeast nunits * 8) = 8 * atLeast nunits := by
    rw [uint, Nat.mod_eq_of_lt (by omega), Nat.mul_comm]
  set n := 8 * atLeast nunits with hn
  have hmore := morecore_eq ok nunits s
  rw [hbytes] at hmore
  have hsbrk : sbrk ok n s = if ok = true ∧ s.sz + n < KERNBASE then
      .ok s.sz { s with sz := s.sz + n, regions := (s.sz, s.sz + n) :: s.regions } else .ok FAILED s := by
    unfold sbrk
    rw [Op.get_bind, if_neg (by omega), if_pos hint]
    split_ifs
    · rfl
    · rfl
  by_cases hok : ok = true ∧ s.sz + n < KERNBASE
  · rw [if_pos hok] at hsbrk
    right
    -- the header of the new region
    set s₁ : Heap := { s with
      mem := update s.mem s.sz ⟨(s.mem s.sz).ptr, atLeast nunits⟩
      sz := s.sz + n
      regions := (s.sz, s.sz + n) :: s.regions } with hs₁
    have hcore : Core base s₁ N L :=
      h.toCore.grow (Nat.le_add_right _ _) hok.2 rfl fun a ha => update_of_ne (Nat.ne_of_lt ha) _ _
    have hfresh : Disjoint (bytes (s.sz, s.sz + n)) (covered N ∪ covered L) :=
      Set.disjoint_left.mpr fun x hx hmem => absurd hx.1 (Nat.not_le.mpr (h.covered_lt x hmem))
    have hdet : Detached base s₁ N L (s.sz, s.sz + n) := by
      refine ⟨⟨h.top.1, show s.sz + 8 ≤ s.sz + n by omega, le_rfl⟩, ?_, ?_, ?_⟩
      · show s.sz + n = s.sz + 8 * (update s.mem s.sz _ s.sz).size
        rw [update_self]
      · exact (Set.disjoint_union_right.mp hfresh).1
      · exact (Set.disjoint_union_right.mp hfresh).2
    obtain ⟨s', N', hfree, hcore', hcovered, htotal, ⟨c, hc, hc₁, hc₂⟩, hsz, hregions, hlive⟩ := hcore.free hdet
    dsimp only at hc₁ hc₂ hcovered htotal
    refine ⟨s', N', ?_, hcore'.freep_ne, ⟨hcore', ?_, ?_, ?_⟩, ⟨c, hc, by omega⟩, hlive⟩
    · rw [hmore, Op.bind_of_ok hsbrk]
      have htop := h.top
      have hfailed : s.sz ≠ FAILED := by
        intro heq
        rw [heq] at htop
        exact absurd htop.2 (by decide)
      have hpage : ¬ PGROUNDUP (s.sz + n) < s.sz + 8 := by
        have := le_PGROUNDUP hok.2
        omega
      rw [if_neg hfailed, Op.get_bind, if_neg hpage]
      show (Umalloc.free (s.sz + 8) >>= fun _ => Op.get >>= fun s => pure s.freep) s₁ = _
      rw [Op.bind_of_ok hfree]
      rfl
    · rw [hlive]
      exact h.live
    · rw [hcovered, hregions, Set.union_assoc, h.account, covered_cons]
    · rw [htotal, hregions, total_cons, Nat.add_assoc, h.total]
  · left
    rw [if_neg hok] at hsbrk
    rw [hmore, Op.bind_of_ok hsbrk, if_pos rfl]
    rfl

/-! ## `malloc` -/

/-- The node after `prevp` has units, so it is not `base`. -/
theorem Core.next_split (h : Core base s N L) {prevp : Nat} (hprev : prevp ∈ N.map Prod.fst)
    (hsize : 0 < (s.mem (s.mem prevp).ptr).size) :
    ∃ pre p q post, N = pre ++ p :: q :: post ∧ p.1 = prevp ∧ q.1 = (s.mem prevp).ptr := by
  obtain ⟨p, hp, rfl⟩ := List.mem_map.mp hprev
  obtain ⟨pre, rest, rfl⟩ := List.append_of_mem hp
  have hptr := h.ptr
  cases rest with
  | nil =>
    have hbase : (base, base).2 = (base, base).1 + 8 * (s.mem (base, base).1).size :=
      h.holds.2 _ (by rw [h.cons]; exact List.mem_cons_self)
    have hptr' : (s.mem p.1).ptr = base := hptr
    rw [hptr'] at hsize
    dsimp only at hbase
    omega
  | cons q post => exact ⟨pre, p, q, post, rfl, rfl, hptr.symm⟩

/-- `malloc` has taken `nunits` units out of the circle. -/
def Took (base nunits : Nat) (L : List Extent) (s' : Heap) (r : Nat) : Prop :=
  ∃ N' cut, r = cut + 8 ∧ Inv base { s' with live := cut :: s'.live } N' ((cut, cut + 8 * nunits) :: L)

section

variable (h : Inv base s N L)
include h

theorem Inv.take (hn : 0 < nunits) {prevp : Nat} (hprev : prevp ∈ N.map Prod.fst)
    (hsize : nunits ≤ (s.mem (s.mem prevp).ptr).size) :
    ∃ r s', malloc_take nunits prevp (s.mem prevp).ptr s = .ok r s' ∧ Took base nunits L s' r ∧ s'.live = s.live := by
  obtain ⟨pre, p, q, post, rfl, rfl, hq⟩ := h.next_split hprev (by omega)
  rw [← hq] at hsize ⊢
  obtain ⟨s', N', cut, hrun, hcore, hcut, hcovered, htotal, hsz, hregions, hlive⟩ := h.toCore.take hn hsize
  rw [hcut] at hcore hcovered htotal
  refine ⟨_, s', hrun, ⟨N', cut, rfl, ⟨hcore.withLive _, ?_, ?_, ?_⟩⟩, hlive⟩
  · rw [List.map_cons, h.live, ← hlive]
  · show _ = covered s'.regions
    rw [hregions, ← h.account, hcovered, covered_cons]
    ac_rfl
  · show _ = Extents.total s'.regions
    rw [hregions, ← h.total, htotal, total_cons]
    dsimp only
    omega

/-- The node after `prevp` has enough units. -/
theorem Inv.loop_take (ok : Bool) (hn : 0 < nunits) {prevp : Nat} (hprev : prevp ∈ N.map Prod.fst)
    (hsize : nunits ≤ (s.mem (s.mem prevp).ptr).size) (fuel : Nat) :
    ∃ r s', malloc_loop ok nunits (fuel + 1) prevp (s.mem prevp).ptr s = .ok r s' ∧
      Took base nunits L s' r ∧ s'.live = s.live := by
  obtain ⟨r, s', hrun, htook⟩ := h.take hn hprev hsize
  refine ⟨r, s', ?_, htook⟩
  unfold malloc_loop
  rw [Op.get_bind, if_pos hsize]
  exact hrun

/-- The search of `malloc` from the node after `prevp` on, through `l` and up
    to `freep`: it finds a block, or there is none. -/
theorem Inv.search (ok : Bool) (hn : 0 < nunits) {prevp : Nat} {l : List Nat}
    (hmem : ∀ a ∈ prevp :: l, a ∈ N.map Prod.fst)
    (hseg : Seg (fun a => (s.mem a).ptr) s.freep (prevp :: l)) (hout : s.freep ∉ l) (fuel : Nat) :
    (∃ r s', malloc_loop ok nunits (l.length + 1 + fuel) prevp (s.mem prevp).ptr s = .ok r s' ∧
      Took base nunits L s' r ∧ s'.live = s.live) ∨
    (∀ a ∈ s.freep :: l, (s.mem a).size < nunits) ∧
      malloc_loop ok nunits (l.length + 1 + fuel) prevp (s.mem prevp).ptr s =
        (Umalloc.morecore ok nunits >>= fun p => if p = 0 then pure 0
          else Op.get >>= fun s => malloc_loop ok nunits fuel p (s.mem p).ptr) s := by
  induction l generalizing prevp with
  | nil =>
    obtain ⟨hptr, -⟩ := hseg
    have hptr' : (s.mem prevp).ptr = s.freep := hptr
    rw [show ([] : List Nat).length + 1 + fuel = fuel + 1 by rw [List.length_nil]; omega]
    by_cases hsize : nunits ≤ (s.mem (s.mem prevp).ptr).size
    · exact Or.inl (h.loop_take ok hn (hmem prevp List.mem_cons_self) hsize _)
    · right
      refine ⟨fun a ha => ?_, ?_⟩
      · obtain rfl := List.mem_singleton.mp ha
        rw [hptr'] at hsize
        omega
      · conv_lhs => unfold malloc_loop
        rw [Op.get_bind, if_neg hsize, if_pos hptr']
  | cons a l ih =>
    obtain ⟨hptr, hseg⟩ := hseg
    have hptr' : (s.mem prevp).ptr = a := hptr
    obtain ⟨hne, hout⟩ := not_or.mp (mt List.mem_cons.mpr hout)
    rw [show (a :: l).length + 1 + fuel = (l.length + 1 + fuel) + 1 by rw [List.length_cons]; omega]
    by_cases hsize : nunits ≤ (s.mem (s.mem prevp).ptr).size
    · exact Or.inl (h.loop_take ok hn (hmem prevp List.mem_cons_self) hsize _)
    · have hstep : malloc_loop ok nunits (l.length + 1 + fuel + 1) prevp (s.mem prevp).ptr s =
          malloc_loop ok nunits (l.length + 1 + fuel) a (s.mem a).ptr s := by
        conv_lhs => unfold malloc_loop
        rw [Op.get_bind, if_neg hsize, if_neg (hptr' ▸ Ne.symm hne), hptr']
      rw [hstep]
      refine (ih (fun b hb => hmem b (List.mem_cons_of_mem _ hb)) hseg hout).imp_right fun ⟨hall, hrun⟩ => ⟨?_, hrun⟩
      intro b hb
      rcases List.mem_cons.mp hb with rfl | hb
      · exact hall _ List.mem_cons_self
      · rcases List.mem_cons.mp hb with rfl | hb
        · rw [hptr'] at hsize
          omega
        · exact hall b (List.mem_cons_of_mem _ hb)

/-- The same all around the circle. -/
theorem Inv.search_all (ok : Bool) (hn : 0 < nunits) (hfuel : KERNBASE ≤ fuel) :
    (∃ r s', malloc_loop ok nunits fuel s.freep (s.mem s.freep).ptr s = .ok r s' ∧
      Took base nunits L s' r ∧ s'.live = s.live) ∨
    (∀ a ∈ N.map Prod.fst, (s.mem a).size < nunits) ∧ ∃ fuel', fuel ≤ fuel' + KERNBASE ∧
      malloc_loop ok nunits fuel s.freep (s.mem s.freep).ptr s =
        (Umalloc.morecore ok nunits >>= fun p => if p = 0 then pure 0
          else Op.get >>= fun s => malloc_loop ok nunits fuel' p (s.mem p).ptr) s := by
  obtain ⟨A, B, hsplit⟩ := List.append_of_mem h.freep
  have hlen := h.length_lt
  rw [← show (N.map Prod.fst).length = N.length from List.length_map _, hsplit, List.length_append, List.length_cons] at hlen
  have hseg := h.holds.1
  have hnodup : (N.map Prod.fst).Nodup := h.sorted.imp fun hab => Nat.ne_of_lt hab
  have hhead : first s.freep A = base := by
    have hcons := h.map_fst
    rw [hsplit] at hcons
    cases A with
    | nil => exact (List.cons.inj hcons).1
    | cons a A => exact (List.cons.inj hcons).1
  have hmem : ∀ a, a ∈ s.freep :: (B ++ A) ↔ a ∈ N.map Prod.fst := fun a => by
    rw [hsplit, ← List.cons_append, List.mem_append, List.mem_append, or_comm]
  have hout : s.freep ∉ B ++ A := by
    rw [hsplit] at hnodup
    have hperm : (s.freep :: (B ++ A)).Nodup := by
      rw [← List.cons_append]
      exact (List.perm_append_comm.nodup_iff).mp hnodup
    exact (List.nodup_cons.mp hperm).1
  rw [hsplit] at hseg
  have hsearch := h.search ok hn (fun a ha => (hmem a).mp ha) (hseg.rotate hhead) hout
    (fuel - ((B ++ A).length + 1))
  rw [List.length_append] at hsearch
  rw [show B.length + A.length + 1 + (fuel - (B.length + A.length + 1)) = fuel by omega] at hsearch
  refine hsearch.imp_right fun ⟨hall, hrun⟩ => ⟨fun a ha => hall a ((hmem a).mpr ha), _, ?_, hrun⟩
  omega

/-- `malloc` returns 0 and changes nothing, or takes units out of the circle. -/
theorem Inv.malloc_loop (ok : Bool) (hn : 0 < nunits) (hsmall : 8 * nunits < 2 ^ 31) :
    ∃ r s', Umalloc.malloc_loop ok nunits rounds s.freep (s.mem s.freep).ptr s = .ok r s' ∧ s'.live = s.live ∧
      (r = 0 ∧ s' = s ∨ Took base nunits L s' r) := by
  rcases h.search_all ok hn (show KERNBASE ≤ rounds by decide) with
    ⟨r, s', hrun, htook, hlive⟩ | ⟨-, fuel, hfuel, hrun⟩
  · exact ⟨r, s', hrun, hlive, Or.inr htook⟩
  · rw [hrun]
    rcases h.morecore ok hsmall with hmore | ⟨s₁, N₁, hmore, hne, hinv, ⟨c, hc, hbig⟩, hlive⟩
    · refine ⟨0, s, ?_, rfl, Or.inl ⟨rfl, rfl⟩⟩
      rw [Op.bind_of_ok hmore, if_pos rfl]
      rfl
    · rw [Op.bind_of_ok hmore, if_neg hne, Op.get_bind]
      have hfuel' : KERNBASE ≤ fuel := by
        unfold rounds at hfuel
        omega
      -- the new region is in the circle, so there is a block now
      rcases hinv.search_all ok hn hfuel' with ⟨r, s', hrun', htook, hlive'⟩ | ⟨hall, -⟩
      · exact ⟨r, s', hrun', hlive'.trans hlive, Or.inr htook⟩
      · have hsize := hinv.holds.2 c hc
        have := hall c.1 (List.mem_map_of_mem hc)
        omega

end

theorem units_pos (nbytes : Nat) : 0 < units nbytes := Nat.succ_pos _

/-- `malloc` before and after the first call. -/
def Sound (base : Nat) (s : Heap) : Prop := s.Start base ∨ ∃ N L, Inv base s N L

/-- `base` alone makes a circle. -/
theorem Heap.Start.init (h : s.Start base) : Inv base (s.init base) [(base, base)] [] := by
  obtain ⟨hfreep, hregions, hlive, hpos, hbase, htop⟩ := h
  have hinit : s.init base = { s with mem := update s.mem base ⟨base, 0⟩, freep := base } := if_pos hfreep
  rw [hinit]
  refine ⟨⟨hpos, rfl, ⟨⟨?_, trivial⟩, fun b hb => ?_⟩, List.pairwise_singleton _ _, List.mem_cons_self, fun b hb => ?_,
    fun b hb => absurd hb List.not_mem_nil, List.Pairwise.nil, ?_, hbase, htop⟩, hlive.symm, ?_, ?_⟩
  · show (update s.mem base _ base).ptr = base
    rw [update_self]
  · obtain rfl := List.mem_singleton.mp hb
    show base = base + 8 * (update s.mem base _ base).size
    rw [update_self]
    rfl
  · exact Or.inl (List.mem_singleton.mp hb)
  · rw [covered_nil]
    exact Set.disjoint_empty _
  · show covered [(base, base)] ∪ covered [] = covered s.regions
    rw [hregions, covered_cons, covered_nil, bytes, Set.Ico_self, Set.union_empty, Set.union_empty]
  · show Extents.total [(base, base)] + Extents.total [] = Extents.total s.regions
    rw [hregions, total_cons, Nat.sub_self]
    rfl

/-- The first thing that `malloc` does. -/
theorem Sound.init (h : Sound base s) : (∃ N L, Inv base (s.init base) N L) ∧ (s.init base).live = s.live := by
  rcases h with h | ⟨N, L, h⟩
  · refine ⟨⟨_, _, h.init⟩, ?_⟩
    rw [Heap.init, if_pos h.1]
  · have hinit : s.init base = s := if_neg h.freep_ne
    rw [hinit]
    exact ⟨⟨N, L, h⟩, rfl⟩

theorem Sound.malloc (h : Sound base s) (ok : Bool) (hsmall : 8 * units nbytes < 2 ^ 31) :
    ∃ r s', Umalloc.malloc base ok nbytes s = .ok r s' ∧ s'.live = s.live ∧
      (r = 0 ∧ Sound base s' ∨ ∃ L, L.map Prod.fst = s.live ∧ Took base (units nbytes) L s' r) := by
  obtain ⟨⟨N, L, hinv⟩, hlive⟩ := h.init
  obtain ⟨r, s', hrun, hlive', hcases⟩ := hinv.malloc_loop ok (units_pos nbytes) hsmall
  refine ⟨r, s', hrun, hlive'.trans hlive, ?_⟩
  rcases hcases with ⟨rfl, rfl⟩ | htook
  · exact Or.inl ⟨rfl, Or.inr ⟨N, L, hinv⟩⟩
  · exact Or.inr ⟨L, hinv.live.trans hlive, htook⟩

theorem units_of_le (h : nbytes + 7 < 2 ^ 32) : units nbytes = (nbytes + 7) / 8 + 1 := by
  unfold units uint
  rw [Nat.mod_eq_of_lt (by omega)]
  rfl

theorem Small.units (h : Small nbytes) : Umalloc.units nbytes = (nbytes + 7) / 8 + 1 ∧
    8 * Umalloc.units nbytes < 2 ^ 31 := by
  unfold Small at h
  have hunits := units_of_le (show nbytes + 7 < 2 ^ 32 by omega)
  exact ⟨hunits, by omega⟩

/-! ## The steps -/

/-- A block that the program has, and the others. -/
theorem Inv.detach (h : Inv base s N L) {a : Nat} (ha : a ∈ s.live) :
    ∃ L₁ L₂ b, L = L₁ ++ b :: L₂ ∧ b.1 = a ∧ Core base s N (L₁ ++ L₂) ∧ Detached base s N (L₁ ++ L₂) b ∧
      s.live.erase a = (L₁ ++ L₂).map Prod.fst := by
  rw [← h.live] at ha
  obtain ⟨b, hb, rfl⟩ := List.mem_map.mp ha
  obtain ⟨L₁, L₂, rfl⟩ := List.append_of_mem hb
  have hsub : (L₁ ++ L₂).Sublist (L₁ ++ b :: L₂) := List.Sublist.append_left (List.sublist_cons_self _ _) _
  have hmem : ∀ c ∈ L₁ ++ L₂, c ∈ L₁ ++ b :: L₂ := fun c hc => hsub.subset hc
  obtain ⟨hsized, hsize⟩ := h.blocks b hb
  have hcovered : covered (L₁ ++ b :: L₂) = bytes b ∪ covered (L₁ ++ L₂) := by
    rw [covered_append, covered_cons, covered_append]
    ac_rfl
  have hdisj := h.disjoint
  rw [hcovered, Set.disjoint_union_right] at hdisj
  have hapart : ∀ c ∈ L₁ ++ L₂, Disjoint (bytes b) (bytes c) := by
    have hpw := h.apart
    obtain ⟨-, hrest, hcross⟩ := List.pairwise_append.mp hpw
    intro c hc
    rcases List.mem_append.mp hc with hc | hc
    · exact (hcross c hc b List.mem_cons_self).symm
    · exact (List.pairwise_cons.mp hrest).1 c hc
  refine ⟨L₁, L₂, b, rfl, rfl, ⟨h.pos, h.head, h.holds, h.gapped, h.freep, h.nodes, fun c hc => h.blocks c (hmem c hc),
    h.apart.sublist hsub, hdisj.2, h.top⟩, ⟨hsized, hsize, hdisj.1.symm, ?_⟩, ?_⟩
  · refine Set.disjoint_left.mpr ?_
    rintro x hx ⟨c, hc, hxc⟩
    exact Set.disjoint_left.mp (hapart c hc) hx hxc
  · have hnot : b.1 ∉ L₁.map Prod.fst := by
      intro hmem'
      obtain ⟨c, hc, hcb⟩ := List.mem_map.mp hmem'
      have hc' : c ∈ L₁ ++ L₂ := List.mem_append_left _ hc
      exact hsized.ne (h.blocks c (hmem c hc')).1 (hapart c hc') hcb
    rw [← h.live, List.map_append, List.map_cons, List.erase_append_right _ hnot, List.erase_cons_head, List.map_append]

theorem Inv.free (h : Inv base s N L) {a : Nat} (ha : a ∈ s.live) :
    ∃ s' N' L', Umalloc.free (a + 8) s = .ok () s' ∧ Inv base { s' with live := s'.live.erase a } N' L' := by
  obtain ⟨L₁, L₂, b, rfl, rfl, hcore, hdet, herase⟩ := h.detach ha
  obtain ⟨s', N', hrun, hcore', hcovered, htotal, -, hsz, hregions, hlive⟩ := hcore.free hdet
  refine ⟨s', N', L₁ ++ L₂, hrun, ⟨hcore'.withLive _, ?_, ?_, ?_⟩⟩
  · show _ = s'.live.erase b.1
    rw [hlive, herase]
  · show _ = covered s'.regions
    rw [hregions, ← h.account, hcovered, covered_append, covered_append, covered_cons]
    ac_rfl
  · show _ = Extents.total s'.regions
    rw [hregions, ← h.total, htotal, total_append, total_append, total_cons]
    omega

/-- A byte that is stored in a block of the program is not one of a header. -/
theorem Inv.store (h : Inv base s N L) {a x : Nat} {junk : Nat → Header} (ha : a ∈ s.live)
    (hx : a + 8 ≤ x ∧ x < (s.extent a).2) :
    Inv base { s with mem := fun a => if a ≤ x ∧ x < a + 8 then junk a else s.mem a } N L := by
  obtain ⟨L₁, L₂, b, rfl, rfl, -, hdet, -⟩ := h.detach ha
  have hb : b ∈ L₁ ++ b :: L₂ := List.mem_append_right _ List.mem_cons_self
  obtain ⟨hsized, hsize⟩ := h.blocks b hb
  have hxb : x ∈ bytes b := ⟨by omega, by rw [hsize]; exact hx.2⟩
  have hnode : ∀ c ∈ N, ¬ (c.1 ≤ x ∧ x < c.1 + 8) := by
    rintro c hc ⟨hcx, hxc⟩
    rcases h.nodes c hc with rfl | ⟨-, hcsize, -⟩
    · have := hsized.1
      dsimp only at hxc
      omega
    · exact Set.disjoint_left.mp h.disjoint (bytes_subset_covered hc ⟨hcx, by omega⟩) (bytes_subset_covered hb hxb)
  have hblock : ∀ c ∈ L₁ ++ b :: L₂, ¬ (c.1 ≤ x ∧ x < c.1 + 8) := by
    rintro c hc ⟨hcx, hxc⟩
    obtain ⟨⟨-, hcsize, -⟩, -⟩ := h.blocks c hc
    have hxc' : x ∈ bytes c := ⟨hcx, by omega⟩
    rcases List.mem_append.mp hc with hc | hc
    · exact Set.disjoint_left.mp hdet.others hxb (bytes_subset_covered (List.mem_append_left _ hc) hxc')
    · rcases List.mem_cons.mp hc with rfl | hc
      · omega
      · exact Set.disjoint_left.mp hdet.others hxb (bytes_subset_covered (List.mem_append_right _ hc) hxc')
  refine ⟨⟨h.pos, h.head, h.holds.congr fun c hc => if_neg (hnode c hc), h.gapped, h.freep, h.nodes, fun c hc => ?_,
    h.apart, h.disjoint, h.top⟩, h.live, h.account, h.total⟩
  obtain ⟨hcsized, hcsize⟩ := h.blocks c hc
  refine ⟨hcsized, ?_⟩
  show c.2 = c.1 + 8 * (if c.1 ≤ x ∧ x < c.1 + 8 then junk c.1 else s.mem c.1).size
  rw [if_neg (hblock c hc)]
  exact hcsize

theorem Sound.step (h : Sound base s) {lbl : HeapLabel} (hnext : s.next base lbl = some s') : Sound base s' := by
  cases lbl with
  | malloc ok nbytes =>
    simp only [Heap.next] at hnext
    split_ifs at hnext with hsmall
    obtain ⟨r, s₁, hrun, hlive, hcases⟩ := h.malloc ok hsmall.units.2
    rw [hrun] at hnext
    obtain rfl := Option.some.inj hnext
    rcases hcases with ⟨rfl, hsound⟩ | ⟨L, hL, N', cut, rfl, hinv⟩
    · exact hsound
    · exact Or.inr ⟨N', _, hinv⟩
  | free ap =>
    simp only [Heap.next] at hnext
    split_ifs at hnext with hap
    rcases h with ⟨-, -, hlive, -⟩ | ⟨N, L, h⟩
    · rw [hlive] at hap
      exact absurd hap.2 List.not_mem_nil
    · obtain ⟨s₁, N', L', hrun, hinv⟩ := h.free hap.2
      rw [Nat.sub_add_cancel hap.1] at hrun
      rw [hrun] at hnext
      obtain rfl := Option.some.inj hnext
      exact Or.inr ⟨N', L', hinv⟩
  | store x junk =>
    simp only [Heap.next] at hnext
    split_ifs at hnext with hx
    obtain rfl := Option.some.inj hnext
    obtain ⟨a, ha, hax⟩ := hx
    rcases h with ⟨-, -, hlive, -⟩ | ⟨N, L, h⟩
    · rw [hlive] at ha
      exact absurd ha List.not_mem_nil
    · exact Or.inr ⟨N, L, h.store ha hax⟩
  | grow n =>
    simp only [Heap.next] at hnext
    split_ifs at hnext with hn
    obtain rfl := Option.some.inj hnext
    rcases h with ⟨hfreep, hregions, hlive, hpos, hbase, -⟩ | ⟨N, L, h⟩
    · exact Or.inl ⟨hfreep, hregions, hlive, hpos, Nat.le_add_right_of_le hbase, hn⟩
    · exact Or.inr ⟨N, L, h.toCore.grow (Nat.le_add_right _ _) hn rfl fun _ _ => rfl, h.live, h.account, h.total⟩

/-! ## Integrity of the heap -/

/-- The free list is the circle through `base` and `free`. -/
structure Heap.FreeList (base : Nat) (s : Heap) (free : List Nat) : Prop where
  circle : Seg (fun a => (s.mem a).ptr) base (base :: free)
  freep : s.freep ∈ base :: free
  sorted : (base :: free).Pairwise (· < ·)
  /-- Blocks that touch have been joined. -/
  coalesced : free.Pairwise fun a b => (s.extent a).2 < b
  disjoint : (free ++ s.live).Pairwise fun a b => Disjoint (bytes (s.extent a)) (bytes (s.extent b))
  account : covered ((free ++ s.live).map s.extent) = covered s.regions
  units : total ((free ++ s.live).map s.extent) = total s.regions

/-- `r` is a block with room for `nbytes`, in memory obtained from `sbrk` and
    apart from the blocks that the program has already. -/
structure Serves (s s' : Heap) (nbytes r : Nat) : Prop where
  header : 8 ≤ r
  room : nbytes + 8 ≤ 8 * (s'.mem (r - 8)).size
  inside : bytes (s'.extent (r - 8)) ⊆ covered s'.regions
  apart : ∀ a ∈ s.live, Disjoint (bytes (s'.extent (r - 8))) (bytes (s'.extent a))

theorem Core.map_extent_tail (h : Core base s N L) : (N.tail.map Prod.fst).map s.extent = N.tail := by
  rw [List.map_map]
  refine (List.map_congr_left fun b hb => ?_).trans (List.map_id _)
  have hb' : b ∈ N := by
    rw [h.cons]
    exact List.mem_cons_of_mem _ hb
  exact Prod.ext rfl (h.holds.2 b hb').symm

theorem Inv.map_extent_live (h : Inv base s N L) : s.live.map s.extent = L := by
  rw [← h.live, List.map_map]
  refine (List.map_congr_left fun b hb => ?_).trans (List.map_id _)
  exact Prod.ext rfl (h.blocks b hb).2.symm

theorem Inv.freeList (h : Inv base s N L) : s.FreeList base (N.tail.map Prod.fst) := by
  have hcons := h.map_fst
  have hmap : (N.tail.map Prod.fst ++ s.live).map s.extent = N.tail ++ L := by
    rw [List.map_append, h.map_extent_tail, h.map_extent_live]
  have hgap : Gapped N.tail := by
    have := h.gapped
    rw [h.cons] at this
    exact (List.pairwise_cons.mp this).2
  have hcovered : covered N.tail = covered N := by
    conv_rhs => rw [h.cons, covered_cons, bytes, Set.Ico_self, Set.empty_union]
  have htotal : Extents.total N.tail = Extents.total N := by
    conv_rhs => rw [h.cons, total_cons, Nat.sub_self, Nat.zero_add]
  refine ⟨hcons ▸ h.holds.1, hcons ▸ h.freep, hcons ▸ h.sorted, ?_, ?_, ?_, ?_⟩
  · refine (List.pairwise_map (f := s.extent) (R := fun a b => a.2 < b.1)).mp ?_
    rw [h.map_extent_tail]
    exact hgap
  · refine (List.pairwise_map (f := s.extent) (R := fun a b => Disjoint (bytes a) (bytes b))).mp ?_
    rw [hmap]
    refine List.pairwise_append.mpr ⟨hgap.imp fun {a b} hab => ?_, h.apart, fun a ha b hb => ?_⟩
    · exact Set.disjoint_left.mpr fun x hx hx' => by
        have := hx.2
        have := hx'.1
        omega
    · exact h.disjoint.mono (hcovered ▸ bytes_subset_covered ha) (bytes_subset_covered hb)
  · rw [hmap, covered_append, hcovered]
    exact h.account
  · rw [hmap, total_append, htotal]
    exact h.total

/-- A request that does not leave the range of `int`. -/
theorem Sound.serves (h : Sound base s) (hunits : units nbytes = (nbytes + 7) / 8 + 1)
    (hsmall : 8 * units nbytes < 2 ^ 31) (ok : Bool) :
    ∃ r s', Umalloc.malloc base ok nbytes s = .ok r s' ∧ (r = 0 ∨ Serves s s' nbytes r) := by
  obtain ⟨r, s', hrun, hlive, hcases⟩ := h.malloc ok hsmall
  refine ⟨r, s', hrun, hcases.imp And.left ?_⟩
  rintro ⟨L, hL, N', cut, rfl, hinv⟩
  have hmem : (cut, cut + 8 * units nbytes) ∈ (cut, cut + 8 * units nbytes) :: L := List.mem_cons_self
  have hsize : cut + 8 * units nbytes = cut + 8 * (s'.mem cut).size := (hinv.blocks _ hmem).2
  have hextent : s'.extent cut = (cut, cut + 8 * units nbytes) := Prod.ext rfl hsize.symm
  refine ⟨Nat.le_add_left _ _, ?_, ?_, fun a ha => ?_⟩
  · rw [Nat.add_sub_cancel]
    omega
  · rw [Nat.add_sub_cancel, hextent]
    show _ ⊆ covered s'.regions
    rw [← show _ = covered s'.regions from hinv.account]
    exact (bytes_subset_covered hmem).trans Set.subset_union_right
  · rw [← hL] at ha
    obtain ⟨b, hb, rfl⟩ := List.mem_map.mp ha
    rw [Nat.add_sub_cancel, hextent, show s'.extent b.1 = b from
      Prod.ext rfl (hinv.blocks b (List.mem_cons_of_mem _ hb)).2.symm]
    exact (List.pairwise_cons.mp hinv.apart).1 b hb

/-- For every program that frees only blocks it has, at every point of its
    run: the free list is one circle in ascending order through `base`, its
    blocks are disjoint from each other and from those that the program has,
    blocks that touch have been joined, and together they are exactly what
    `sbrk` has given. `malloc` returns, with 0 or a block that has room and
    overlaps no other; `free` returns. -/
theorem heap_integrity {s₀ : Heap} {ls : List HeapLabel} (hstart : s₀.Start base)
    (hrun : Run (heapSystem base) s₀ ls s) :
    (s.freep = 0 ∧ s.live = [] ∧ s.regions = [] ∨ ∃ free, s.FreeList base free) ∧
    (∀ ok nbytes, Small nbytes →
      ∃ r s', malloc base ok nbytes s = .ok r s' ∧ (r = 0 ∨ Serves s s' nbytes r)) ∧
    (∀ a ∈ s.live, ∃ s', free (a + 8) s = .ok () s') := by
  have hsound : Sound base s := hrun.invariant (Or.inl hstart) fun _ _ _ h hnext => h.step hnext
  refine ⟨?_, fun ok nbytes hsmall => hsound.serves hsmall.units.1 hsmall.units.2 ok, fun a ha => ?_⟩
  · rcases hsound with ⟨hfreep, hregions, hlive, -⟩ | ⟨N, L, h⟩
    · exact Or.inl ⟨hfreep, hlive, hregions⟩
    · exact Or.inr ⟨_, h.freeList⟩
  · rcases hsound with ⟨-, -, hlive, -⟩ | ⟨N, L, h⟩
    · rw [hlive] at ha
      exact absurd ha List.not_mem_nil
    · obtain ⟨s', -, -, hrun, -⟩ := h.free ha
      exact ⟨s', hrun⟩

/-- A process of `sz` bytes that has not called `malloc` yet. -/
def newProcess (sz : Nat) : Heap where
  mem _ := ⟨0, 0⟩
  freep := 0
  sz := sz
  regions := []
  live := []

/-- Two blocks are taken and the first of them is given back. -/
theorem heap_integrity_two : ∃ s ls, Run (heapSystem 16) (newProcess 16384) ls s ∧ s.live.length = 1 ∧
    ∃ free, s.FreeList 16 free := by
  have hexec : ((heapSystem 16).exec (fun _ _ => true) (newProcess 16384)
      [.malloc true 100, .malloc true 200, .free 49048]).any (fun s => decide (s.live.length = 1)) = true := by
    decide +kernel
  obtain ⟨s, hs, hlen⟩ := exists_run_of_exec hexec
  have hrun := hs.of_restrict
  refine ⟨s, _, hrun, hlen, ?_⟩
  rcases (heap_integrity ⟨rfl, rfl, rfl, by decide, by decide, by decide⟩ hrun).1 with ⟨-, hnil, -⟩ | hfree
  · rw [hnil] at hlen
    cases hlen
  · exact hfree

/-! ## Requests of every size -/

/-- `malloc` returns 0 or a block that serves the request, whenever it is called. -/
def Safe (nbytes : Nat) : Prop :=
  ∀ base s₀ s ls ok, s₀.Start base → Run (heapSystem base) s₀ ls s →
    ∃ r s', malloc base ok nbytes s = .ok r s' ∧ (r = 0 ∨ Serves s s' nbytes r)

/-- The number of units depends on `nbytes` only through `units`. -/
theorem malloc_congr {ok : Bool} {nbytes' : Nat} (h : units nbytes = units nbytes') :
    malloc base ok nbytes = malloc base ok nbytes' := by
  unfold malloc
  rw [h]

/-- A request that wraps around gets a block of one unit, that is of no bytes. -/
theorem units_of_wrap (h : 2 ^ 32 ≤ nbytes + 7) (hlt : nbytes < 2 ^ 32) : units nbytes = 1 := by
  unfold units uint
  omega

/-- With an argument that is negative or 0, `sbrk` gives no memory: the header
    that `morecore` then writes is outside of the process. -/
theorem sbrk_outside (ok : Bool) (hn : 2 ^ 31 ≤ 8 * nunits) (hn' : 8 * nunits ≤ 2 ^ 32) (hsz : s.sz < KERNBASE)
    (hpage : s.sz % 4096 = 0) (hne : s.sz + 8 * nunits ≠ 2 ^ 32) :
    ∃ s', sbrk ok (uint (8 * nunits)) s = .ok s.sz s' ∧ PGROUNDUP s'.sz < s.sz + 8 := by
  have hround : ∀ sz, sz ≤ s.sz → PGROUNDUP sz < s.sz + 8 := by
    intro sz hle
    unfold PGROUNDUP
    simp only [KERNBASE, Vm.PGSIZE] at hsz ⊢
    omega
  simp only [KERNBASE] at hsz
  unfold sbrk uint
  rw [Op.get_bind]
  by_cases hzero : 8 * nunits = 2 ^ 32
  · rw [hzero, if_pos (by decide)]
    exact ⟨s, rfl, hround s.sz le_rfl⟩
  · have hmod : 8 * nunits % 2 ^ 32 = 8 * nunits := Nat.mod_eq_of_lt (by omega)
    rw [hmod, if_neg (by omega), if_neg (by omega)]
    split_ifs with hge hnew
    · exact ⟨s, rfl, hround s.sz le_rfl⟩
    · omega
    · exact ⟨_, rfl, hround _ (by dsimp only; omega)⟩

theorem morecore_fault (ok : Bool) (hn : 2 ^ 31 ≤ 8 * nunits) (hn' : 8 * nunits ≤ 2 ^ 32) (hsz : s.sz < KERNBASE)
    (hpage : s.sz % 4096 = 0) (hne : s.sz + 8 * nunits ≠ 2 ^ 32) :
    Umalloc.morecore ok nunits s = .panic "page fault" := by
  obtain ⟨s', hrun, hout⟩ := sbrk_outside ok hn hn' hsz hpage hne
  have hfailed : s.sz ≠ FAILED := by
    intro heq
    rw [heq] at hsz
    exact absurd hsz (by decide)
  have hnu : atLeast nunits = nunits := if_neg (by omega)
  rw [morecore_eq, hnu, Nat.mul_comm, Op.bind_of_ok hrun, if_neg hfailed, Op.get_bind, if_pos hout]
  rfl

theorem malloc_fault (h : s.Start base) (ok : Bool) (hn : 2 ^ 31 ≤ 8 * units nbytes) (hn' : 8 * units nbytes ≤ 2 ^ 32)
    (hpage : s.sz % 4096 = 0) (hne : s.sz + 8 * units nbytes ≠ 2 ^ 32) :
    malloc base ok nbytes s = .panic "page fault" := by
  have hinit : s.init base = { s with mem := update s.mem base ⟨base, 0⟩, freep := base } := if_pos h.1
  have hbase : (s.init base).mem base = ⟨base, 0⟩ := by
    rw [hinit]
    exact update_self _ _ _
  have hfreep : (s.init base).freep = base := by rw [hinit]
  have hsz : (s.init base).sz = s.sz := by rw [hinit]
  have hfault := morecore_fault (s := s.init base) ok hn hn' (by rw [hsz]; exact h.2.2.2.2.2)
    (by rw [hsz]; exact hpage) (by rw [hsz]; exact hne)
  show Umalloc.malloc_loop ok (units nbytes) rounds (s.init base).freep ((s.init base).mem (s.init base).freep).ptr
    (s.init base) = _
  rw [hfreep, hbase, show rounds = (rounds - 1) + 1 from rfl]
  unfold Umalloc.malloc_loop
  rw [Op.get_bind, if_neg (by rw [hbase]; exact Nat.not_le.mpr (units_pos nbytes)), if_pos hfreep.symm]
  exact Op.bind_of_panic hfault

/-- `malloc` is safe for exactly the requests whose size in bytes, with the
    header, is in the range of `int`. -/
theorem malloc_safe_iff (nbytes : Nat) (h : nbytes < 2 ^ 32) : Safe nbytes ↔ nbytes ≤ 2 ^ 31 - 16 := by
  constructor
  · intro hsafe
    by_contra hlarge
    by_cases hwrap : 2 ^ 32 ≤ nbytes + 7
    · -- a block of one unit
      obtain ⟨r, s', hrun, hr⟩ := hsafe 16 (newProcess 16384) _ [] true
        ⟨rfl, rfl, rfl, by decide, by decide, by decide⟩ .nil
      have hunits : units nbytes = units 0 := units_of_wrap hwrap h
      rw [malloc_congr hunits] at hrun
      have hone : (malloc 16 true 0 (newProcess 16384)).returns
          (fun r s' => decide (r ≠ 0 ∧ (s'.mem (r - 8)).size = 1)) = true := by
        decide +kernel
      rw [hrun] at hone
      obtain ⟨hne, hsize⟩ := of_decide_eq_true hone
      rcases hr with rfl | hserves
      · exact hne rfl
      · have := hserves.room
        omega
    · -- a page fault, for a process of four or five pages
      have hunits := units_of_le (show nbytes + 7 < 2 ^ 32 by omega)
      obtain ⟨sz, hpage, hlow, htop, hne⟩ : ∃ sz, sz % 4096 = 0 ∧ 16384 ≤ sz ∧ sz < KERNBASE ∧
          sz + 8 * units nbytes ≠ 2 ^ 32 := by
        by_cases heq : 16384 + 8 * units nbytes = 2 ^ 32
        · exact ⟨20480, by decide, by decide, by decide, by omega⟩
        · exact ⟨16384, by decide, by decide, by decide, heq⟩
      have hstart : (newProcess sz).Start 16 :=
        ⟨rfl, rfl, rfl, by decide, show 16 + 8 ≤ sz by omega, htop⟩
      obtain ⟨r, s', hrun, -⟩ := hsafe 16 (newProcess sz) _ [] true hstart .nil
      rw [malloc_fault hstart true (by omega) (by omega) hpage hne] at hrun
      cases hrun
  · intro hle base s₀ s ls ok hstart hrun
    have hsound : Sound base s := hrun.invariant (Or.inl hstart) fun _ _ _ h hnext => h.step hnext
    have hunits := units_of_le (show nbytes + 7 < 2 ^ 32 by omega)
    exact hsound.serves hunits (by omega) ok

theorem malloc_safe_hundred : Safe 100 := (malloc_safe_iff 100 (by decide)).mpr (by decide)

/-- A request for all of memory succeeds: the block has its header and nothing else. -/
theorem malloc_minus_one : ∃ r s', malloc 16 true (2 ^ 32 - 1) (newProcess 16384) = .ok r s' ∧ r ≠ 0 ∧
    (s'.mem (r - 8)).size = 1 := by
  have hone : (malloc 16 true (2 ^ 32 - 1) (newProcess 16384)).returns
      (fun r s' => decide (r ≠ 0 ∧ (s'.mem (r - 8)).size = 1)) = true := by
    decide +kernel
  obtain ⟨r, s', hrun, hsize⟩ := Outcome.of_returns hone
  exact ⟨r, s', hrun, of_decide_eq_true hsize⟩

end Xv6.User.Umalloc
