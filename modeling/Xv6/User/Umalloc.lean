import Xv6.Vm.Memory
import Xv6.Framework.Extents
import Xv6.Framework.LTS
import Xv6.Framework.Op
import Xv6.Framework.Ring

/-! # The user-level allocator (`umalloc.c`)

    Free blocks form a circle in ascending order of their addresses, with
    `base`, a block of no units, in front. `freep` is any node of the circle;
    the searches start there.

    Memory is seen through the headers: `mem a` is what a header at address
    `a` reads as, whether there is one or not. A byte that the program stores
    changes what any header that overlaps it reads as.
-/

namespace Xv6.User.Umalloc

open Ring Extents LTS Function
open Xv6.Vm (KERNBASE PGROUNDUP)

/-! ## The code -/

/-- Arithmetic of `uint` and of pointers. -/
def uint (n : Nat) : Nat := n % 2 ^ 32

/-- `union header`, of 8 bytes. -/
structure Header where
  ptr : Nat
  size : Nat
deriving DecidableEq

/-- The memory of the process and the variable `freep`. -/
structure Heap where
  mem : Nat → Header
  freep : Nat
  /-- The size of the process. -/
  sz : Nat
  /-- History: what `morecore` got from `sbrk`. -/
  regions : List Extent
  /-- History: the headers of the blocks that `malloc` has returned and that
      have not been freed. -/
  live : List Nat

/-- More often than that, no loop goes round. -/
abbrev rounds : Nat := 2 * KERNBASE

/-- The loop of `free` stops at `p`: `bp` is between `p` and the next block,
    or `p` is the last block of the circle and `bp` is outside of it. -/
def stops (m : Nat → Header) (bp p : Nat) : Bool :=
  decide (p < bp ∧ bp < (m p).ptr) || decide ((m p).ptr ≤ p ∧ (p < bp ∨ bp < (m p).ptr))

/-- Make `y` the block after `x`, or join them if they touch:
    `if(x + x->s.size == y){ x->s.size += y->s.size; x->s.ptr = y->s.ptr; } else x->s.ptr = y;` -/
def link (m : Nat → Header) (x y : Nat) : Nat → Header :=
  if uint (x + 8 * (m x).size) = y then
    update m x ⟨(m y).ptr, uint ((m x).size + (m y).size)⟩
  else update m x ⟨y, (m x).size⟩

def free (ap : Nat) : Op Heap Unit := do
  let s ← Op.get
  let bp := ap - 8
  match find (fun a => (s.mem a).ptr) (stops s.mem bp) rounds s.freep with
  | none => Op.block
  | some p => Op.modify fun s => { s with mem := link (link s.mem bp (s.mem p).ptr) p bp, freep := p }

/-- `(char*)-1` -/
abbrev FAILED : Nat := 2 ^ 32 - 1

/-- `sys_sbrk` with `growproc`. The argument is an `int`; `ok` says whether
    the kernel has the pages that are needed to grow. -/
def sbrk (ok : Bool) (n : Nat) : Op Heap Nat := do
  let s ← Op.get
  let addr := s.sz
  if n = 0 then
    return addr
  else if n < 2 ^ 31 then
    -- allocuvm
    if ok = true ∧ addr + n < KERNBASE then
      Op.modify fun s => { s with sz := addr + n, regions := (addr, addr + n) :: s.regions }
      return addr
    else
      return FAILED
  else
    -- deallocuvm
    let newsz := uint (addr + n)
    if newsz ≥ addr then
      return addr
    else if newsz = 0 then
      return FAILED
    else
      Op.modify fun s => { s with sz := newsz }
      return addr

def morecore (ok : Bool) (nu : Nat) : Op Heap Nat := do
  let nu := if nu < 4096 then 4096 else nu
  let p ← sbrk ok (uint (nu * 8))
  if p = FAILED then
    return 0
  else
    let s ← Op.get
    -- hp->s.size = nu;
    if PGROUNDUP s.sz < p + 8 then
      Op.panic "page fault"
    else
      Op.modify fun s => { s with mem := update s.mem p ⟨(s.mem p).ptr, nu⟩ }
      free (p + 8)
      let s ← Op.get
      return s.freep

/-- `p`, which comes after `prevp`, has enough units: take it, or its tail. -/
def malloc_take (nunits prevp p : Nat) : Op Heap Nat := do
  let s ← Op.get
  if (s.mem p).size = nunits then
    Op.modify fun s =>
      { s with mem := update s.mem prevp ⟨(s.mem p).ptr, (s.mem prevp).size⟩, freep := prevp }
    return uint (p + 8)
  else
    let size := (s.mem p).size - nunits
    let tail := uint (p + 8 * size)
    Op.modify fun s =>
      let m := update s.mem p ⟨(s.mem p).ptr, size⟩
      { s with mem := update m tail ⟨(m tail).ptr, nunits⟩, freep := prevp }
    return uint (tail + 8)

def malloc_loop (ok : Bool) (nunits : Nat) : (fuel prevp p : Nat) → Op Heap Nat
  | 0, _, _ => Op.block
  | fuel + 1, prevp, p => do
    let s ← Op.get
    if (s.mem p).size ≥ nunits then
      malloc_take nunits prevp p
    else if p = s.freep then
      let p ← morecore ok nunits
      if p = 0 then
        return 0
      else
        let s ← Op.get
        malloc_loop ok nunits fuel p (s.mem p).ptr
    else
      malloc_loop ok nunits fuel p (s.mem p).ptr

/-- `base.s.ptr = freep = prevp = &base; base.s.size = 0;` -/
def Heap.init (base : Nat) (s : Heap) : Heap :=
  if s.freep = 0 then { s with mem := update s.mem base ⟨base, 0⟩, freep := base } else s

def units (nbytes : Nat) : Nat := uint (nbytes + 8 - 1) / 8 + 1

def malloc (base : Nat) (ok : Bool) (nbytes : Nat) : Op Heap Nat := do
  let nunits := units nbytes
  Op.modify (Heap.init base)
  let s ← Op.get
  malloc_loop ok nunits rounds s.freep (s.mem s.freep).ptr

/-! ## Programs that use it -/

/-- The extent of the block with its header at `a`. -/
def Heap.extent (s : Heap) (a : Nat) : Extent := (a, a + 8 * (s.mem a).size)

inductive HeapLabel where
  | malloc (ok : Bool) (nbytes : Nat)
  | free (ap : Nat)
  /-- The program stores a byte in a block that it has; headers that overlap
      the byte then read as `junk`. -/
  | store (x : Nat) (junk : Nat → Header)
  /-- The program gets memory with a call of `sbrk` of its own. -/
  | grow (n : Nat)

/-- The requests that do not leave the range of `int`. -/
def Small (nbytes : Nat) : Prop := 8 * (nbytes / 8 + 2) < 2 ^ 31

instance (nbytes : Nat) : Decidable (Small nbytes) := inferInstanceAs (Decidable (_ < _))

def Heap.next (base : Nat) (s : Heap) : HeapLabel → Option Heap
  | .malloc ok nbytes =>
    if Small nbytes then
      match malloc base ok nbytes s with
      | .ok r s' => some (if r = 0 then s' else { s' with live := (r - 8) :: s'.live })
      | _ => none
    else none
  | .free ap =>
    if 8 ≤ ap ∧ ap - 8 ∈ s.live then
      match free ap s with
      | .ok _ s' => some { s' with live := s'.live.erase (ap - 8) }
      | _ => none
    else none
  | .store x junk =>
    if ∃ a ∈ s.live, a + 8 ≤ x ∧ x < (s.extent a).2 then
      some { s with mem := fun a => if a ≤ x ∧ x < a + 8 then junk a else s.mem a }
    else none
  | .grow n => if s.sz + n < KERNBASE then some { s with sz := s.sz + n } else none

/-- A program that has not called `malloc` yet; `base` is among its data. -/
def Heap.Start (base : Nat) (s : Heap) : Prop :=
  s.freep = 0 ∧ s.regions = [] ∧ s.live = [] ∧ 0 < base ∧ base + 8 ≤ s.sz ∧ s.sz < KERNBASE

def heapSystem (base : Nat) : System Heap HeapLabel where
  init := Heap.Start base
  next := Heap.next base

/-! ## Blocks in memory -/

/-- The extents are blocks with headers, each linked to the next one, and the
    last one to `z`. -/
def Holds (m : Nat → Header) (z : Nat) (l : List Extent) : Prop :=
  Seg (fun a => (m a).ptr) z (l.map Prod.fst) ∧ ∀ b ∈ l, b.2 = b.1 + 8 * (m b.1).size

/-- Where they start. -/
def start (z : Nat) (l : List Extent) : Nat := first z (l.map Prod.fst)

variable {m m' : Nat → Header} {z x y a base nunits : Nat} {l l' N L pre post : List Extent} {p q b : Extent}
  {s s' : Heap}

theorem holds_append : Holds m z (l ++ l') ↔ Holds m (start z l') l ∧ Holds m z l' := by
  unfold Holds start
  rw [List.map_append, seg_append, List.forall_mem_append]
  exact and_and_and_comm

theorem holds_cons : Holds m z (b :: l) ↔
    (m b.1).ptr = start z l ∧ b.2 = b.1 + 8 * (m b.1).size ∧ Holds m z l := by
  unfold Holds start
  rw [List.map_cons, List.forall_mem_cons]
  exact and_and_and_comm.trans and_assoc

theorem Holds.congr (h : Holds m z l) (hm : ∀ b ∈ l, m' b.1 = m b.1) : Holds m' z l := by
  refine ⟨h.1.congr fun a ha => ?_, fun b hb => ?_⟩
  · obtain ⟨b, hb, rfl⟩ := List.mem_map.mp ha
    show (m' b.1).ptr = (m b.1).ptr
    rw [hm b hb]
  · rw [hm b hb]
    exact h.2 b hb

theorem link_ne (h : a ≠ x) : link m x y a = m a := by
  unfold link
  split_ifs
  · exact update_of_ne h _ _
  · exact update_of_ne h _ _

theorem join_eq_cons (b : Extent) (l : List Extent) : ∃ c l', join b l = c :: l' ∧ c.1 = b.1 := by
  cases l with
  | nil => exact ⟨b, [], rfl, rfl⟩
  | cons q l =>
    rw [join_cons]
    split_ifs
    · exact ⟨_, l, rfl, rfl⟩
    · exact ⟨b, q :: l, rfl, rfl⟩

theorem start_join : start z (join b l) = b.1 := by
  obtain ⟨c, l', hjoin, hc⟩ := join_eq_cons b l
  rw [hjoin]
  exact hc

/-- Linking a block to the rest of the circle puts it in front there. -/
theorem link_holds (h : Holds m z l) (hb : b.2 = b.1 + 8 * (m b.1).size) (hz : l = [] → b.2 ≠ z)
    (hne : ∀ q ∈ l, q.1 ≠ b.1) (hlt : b.2 < 2 ^ 32) (hl : ∀ q ∈ l, q.2 < 2 ^ 32) :
    Holds (link m b.1 (start z l)) z (join b l) := by
  have huint : uint (b.1 + 8 * (m b.1).size) = b.2 := by rw [← hb]; exact Nat.mod_eq_of_lt hlt
  cases l with
  | nil =>
    have hbz : b.2 ≠ start z [] := hz rfl
    unfold link
    rw [huint, if_neg hbz]
    refine holds_cons.mpr ⟨?_, ?_, trivial, fun q hq => absurd hq List.not_mem_nil⟩
    · rw [update_self]
    · rw [update_self]
      exact hb
  | cons q l =>
    obtain ⟨hptr, hq, hl'⟩ := holds_cons.mp h
    have hqne := hne q List.mem_cons_self
    have hrest : ∀ {h : Header}, ∀ c ∈ q :: l, update m b.1 h c.1 = m c.1 := fun c hc =>
      update_of_ne (hne c hc) _ _
    unfold link
    rw [huint, join_cons]
    show Holds (if b.2 = q.1 then _ else _) _ _
    split_ifs with hjoin
    · refine holds_cons.mpr ⟨?_, ?_, hl'.congr fun c hc => hrest c (List.mem_cons_of_mem _ hc)⟩
      · rw [update_self]
        exact hptr
      · have hqlt := hl q List.mem_cons_self
        rw [update_self]
        show q.2 = b.1 + 8 * uint ((m b.1).size + (m q.1).size)
        rw [uint, Nat.mod_eq_of_lt (by omega)]
        omega
    · refine holds_cons.mpr ⟨?_, ?_, h.congr hrest⟩
      · rw [update_self]
      · rw [update_self]
        exact hb

/-! ## The invariant -/

/-- A block of at least one unit, above `base` and within the process. -/
def Sized (base sz : Nat) (b : Extent) : Prop := base + 8 ≤ b.1 ∧ b.1 + 8 ≤ b.2 ∧ b.2 ≤ sz

/-- The circle is `N`, and there are other blocks `L`. -/
structure Core (base : Nat) (s : Heap) (N L : List Extent) : Prop where
  pos : 0 < base
  head : N.head? = some (base, base)
  holds : Holds s.mem base N
  gapped : Gapped N
  freep : s.freep ∈ N.map Prod.fst
  nodes : ∀ b ∈ N, b = (base, base) ∨ Sized base s.sz b
  blocks : ∀ b ∈ L, Sized base s.sz b ∧ b.2 = b.1 + 8 * (s.mem b.1).size
  apart : L.Pairwise fun a b => Disjoint (bytes a) (bytes b)
  disjoint : Disjoint (covered N) (covered L)
  top : base + 8 ≤ s.sz ∧ s.sz < KERNBASE

/-- A block that is neither in the circle nor among the others. -/
structure Detached (base : Nat) (s : Heap) (N L : List Extent) (b : Extent) : Prop where
  sized : Sized base s.sz b
  size : b.2 = b.1 + 8 * (s.mem b.1).size
  circle : Disjoint (bytes b) (covered N)
  others : Disjoint (bytes b) (covered L)

theorem Sized.mono {sz sz' : Nat} (h : Sized base sz b) (hsz : sz ≤ sz') : Sized base sz' b :=
  ⟨h.1, h.2.1, h.2.2.trans hsz⟩

/-- Blocks that have no byte in common have different addresses. -/
theorem Sized.ne {sz : Nat} (hb : Sized base sz b) (hq : Sized base sz q) (h : Disjoint (bytes b) (bytes q)) :
    q.1 ≠ b.1 := by
  intro heq
  obtain ⟨-, hb, -⟩ := hb
  obtain ⟨-, hq, -⟩ := hq
  exact Set.disjoint_left.mp h (show b.1 ∈ bytes b from ⟨le_rfl, by omega⟩) ⟨by omega, by omega⟩

namespace Core

section

variable (h : Core base s N L)
include h

theorem cons : N = (base, base) :: N.tail := by
  have hhead := h.head
  cases N with
  | nil => cases hhead
  | cons a N =>
    obtain rfl : a = (base, base) := Option.some.inj hhead
    rfl

theorem map_fst : N.map Prod.fst = base :: N.tail.map Prod.fst := by
  conv_lhs => rw [h.cons]
  rfl

theorem le : ∀ a ∈ N, a.1 ≤ a.2 := by
  intro a ha
  rcases h.nodes a ha with rfl | ⟨-, ha, -⟩
  · exact le_rfl
  · omega

theorem lt : ∀ a ∈ N, a.2 < KERNBASE := by
  intro a ha
  have htop := h.top
  rcases h.nodes a ha with rfl | ⟨-, -, ha⟩
  · dsimp only
    omega
  · omega

theorem base_le : ∀ a ∈ N, base ≤ a.1 := by
  intro a ha
  rcases h.nodes a ha with rfl | ⟨ha, -, -⟩
  · exact le_rfl
  · omega

/-- The addresses in the circle ascend. -/
theorem sorted : (N.map Prod.fst).Pairwise (· < ·) := by
  refine List.pairwise_map.mpr (h.gapped.imp_of_mem fun {a b} ha _ hab => ?_)
  have := h.le a ha
  omega

theorem length_lt : N.length < KERNBASE := by
  have hnodup : (N.map Prod.fst).Nodup := h.sorted.imp fun hab => Nat.ne_of_lt hab
  have hsub : (N.map Prod.fst).toFinset ⊆ Finset.Ico 1 KERNBASE := by
    intro a ha
    obtain ⟨b, hb, rfl⟩ := List.mem_map.mp (List.mem_toFinset.mp ha)
    have := h.lt b hb
    have := h.le b hb
    have := h.base_le b hb
    have := h.pos
    exact Finset.mem_Ico.mpr ⟨by omega, by omega⟩
  have hcard := Finset.card_le_card hsub
  rw [List.toFinset_card_of_nodup hnodup, List.length_map, Nat.card_Ico] at hcard
  exact lt_of_le_of_lt hcard (by decide)

end

section

variable (h : Core base s (pre ++ p :: post) L)
include h

/-- The address after a node. -/
theorem ptr : (s.mem p.1).ptr = start base post :=
  (holds_cons.mp (holds_append.mp h.holds).2).1

/-- Before a node, and after it. -/
theorem lt_of_mem : (∀ a ∈ pre, a.1 < p.1) ∧ ∀ a ∈ post, p.1 < a.1 := by
  have hsorted := h.sorted
  rw [List.map_append, List.map_cons] at hsorted
  obtain ⟨-, hsorted, hcross⟩ := List.pairwise_append.mp hsorted
  exact ⟨fun a ha => hcross a.1 (List.mem_map_of_mem ha) p.1 List.mem_cons_self, fun a ha =>
    (List.pairwise_cons.mp hsorted).1 a.1 (List.mem_map_of_mem ha)⟩

/-- Another node has another address. -/
theorem ne_of_mem : ∀ a ∈ pre ++ post, a.1 ≠ p.1 := by
  intro a ha
  rcases List.mem_append.mp ha with ha | ha
  · exact Nat.ne_of_lt (h.lt_of_mem.1 a ha)
  · exact (Nat.ne_of_lt (h.lt_of_mem.2 a ha)).symm

end

/-- So has a block that is not in the circle. -/
theorem block_ne (h : Core base s N L) (hp : p ∈ N) : ∀ c ∈ L, c.1 ≠ p.1 := by
  intro c hc
  obtain ⟨hcsized, -⟩ := h.blocks c hc
  rcases h.nodes p hp with rfl | hpsized
  · have := hcsized.1
    dsimp only
    omega
  · exact Sized.ne hpsized hcsized (h.disjoint.mono (bytes_subset_covered hp) (bytes_subset_covered hc))

/-- The place of a block in the circle. -/
theorem place (h : Core base s N L) (hb : Detached base s N L b) :
    ∃ pre p post, N = pre ++ p :: post ∧ p.2 ≤ b.1 ∧ ∀ q ∈ post, b.2 ≤ q.1 := by
  obtain ⟨hbase, hsize, -⟩ := hb.sized
  have hgap := h.gapped
  rw [h.cons] at hgap
  obtain ⟨pre, p, post, heq, hp, hpost⟩ := hgap.split (x := b.1)
    (fun q hq => h.le q (by rw [h.cons]; exact List.mem_cons_of_mem _ hq)) (by dsimp only; omega)
  rw [← h.cons] at heq
  have hmem : ∀ q ∈ p :: post, q ∈ N := fun q hq => by rw [heq]; exact List.mem_append_right _ hq
  have hout : ∀ q ∈ N, ∀ x ∈ bytes b, x ∉ bytes q := fun q hq x hx hxq =>
    Set.disjoint_left.mp hb.circle hx (bytes_subset_covered hq hxq)
  refine ⟨pre, p, post, heq, ?_, fun q hq => ?_⟩
  · by_contra hlt
    exact hout p (hmem p List.mem_cons_self) b.1 ⟨le_rfl, by omega⟩ ⟨by omega, by omega⟩
  · have hqN := hmem q (List.mem_cons_of_mem _ hq)
    have hge := hpost q hq
    rcases h.nodes q hqN with rfl | ⟨-, hqsize, -⟩
    · dsimp only at hge
      omega
    · by_contra hlt
      exact hout q hqN q.1 ⟨hge, by omega⟩ ⟨le_rfl, by omega⟩

/-- The loop of `free` stops at the node before the place and at no other. -/
theorem stops_iff (h : Core base s (pre ++ p :: post) L) (hb : Sized base s.sz b) (hp : p.2 ≤ b.1)
    (hpost : ∀ q ∈ post, b.2 ≤ q.1) (hq : q ∈ pre ++ p :: post) : stops s.mem b.1 q.1 = true ↔ q.1 = p.1 := by
  obtain ⟨hbase, hsize, -⟩ := hb
  have hpN : p ∈ pre ++ p :: post := List.mem_append_right _ List.mem_cons_self
  have hpbase := h.base_le p hpN
  have hplt : p.1 < b.1 := by
    rcases h.nodes p hpN with rfl | ⟨-, hsize, -⟩
    · dsimp only
      omega
    · omega
  unfold stops
  rw [Bool.or_eq_true, decide_eq_true_eq, decide_eq_true_eq]
  rcases List.mem_append.mp hq with hq | hq
  · -- before `p`: the next node is not behind the place
    obtain ⟨pre₁, pre₂, rfl⟩ := List.append_of_mem hq
    have hqp := h.lt_of_mem.1 q hq
    have hnextle : q.1 < (s.mem q.1).ptr ∧ (s.mem q.1).ptr ≤ p.1 := by
      have hle := h.lt_of_mem.1
      rw [List.append_assoc, List.cons_append] at h
      rw [h.ptr]
      cases pre₂ with
      | nil => exact ⟨hqp, le_rfl⟩
      | cons c pre₂ =>
        refine ⟨h.lt_of_mem.2 c List.mem_cons_self, Nat.le_of_lt (hle c ?_)⟩
        exact List.mem_append_right _ (List.mem_cons_of_mem _ List.mem_cons_self)
    omega
  · rcases List.mem_cons.mp hq with rfl | hq
    · refine iff_of_true ?_ rfl
      rw [h.ptr]
      cases post with
      | nil => exact Or.inr ⟨hpbase, Or.inl (by omega)⟩
      | cons c post =>
        have := hpost c List.mem_cons_self
        exact Or.inl ⟨by omega, show b.1 < c.1 by omega⟩
    · -- behind the place: the next node is behind it as well, or `base`
      obtain ⟨post₁, post₂, rfl⟩ := List.append_of_mem hq
      have hqb := hpost q hq
      rw [← List.cons_append, ← List.append_assoc] at h
      have hptr := h.ptr
      cases post₂ with
      | nil =>
        have hptr' : (s.mem q.1).ptr = base := hptr
        omega
      | cons c post₂ =>
        have hptr' : (s.mem q.1).ptr = c.1 := hptr
        have := h.lt_of_mem.2 c List.mem_cons_self
        omega

/-- `free` finds the place. -/
theorem find_place (h : Core base s (pre ++ p :: post) L) (hb : Sized base s.sz b) (hp : p.2 ≤ b.1)
    (hpost : ∀ q ∈ post, b.2 ≤ q.1) :
    find (fun a => (s.mem a).ptr) (stops s.mem b.1) rounds s.freep = some p.1 := by
  have hp' : p ∈ pre ++ p :: post := List.mem_append_right _ List.mem_cons_self
  have hpN := List.mem_map_of_mem (f := Prod.fst) hp'
  have hseg := h.holds.1
  have hfreep := h.freep
  have hstops : ∀ c ∈ (pre ++ p :: post).map Prod.fst, stops s.mem b.1 c = true → c = p.1 := fun c hc hs => by
    obtain ⟨q, hq, rfl⟩ := List.mem_map.mp hc
    exact (h.stops_iff hb hp hpost hq).mp hs
  have hlen : ((pre ++ p :: post).map Prod.fst).length ≤ rounds := by
    have := h.length_lt
    rw [List.length_map]
    unfold rounds
    omega
  have hself := (h.stops_iff hb hp hpost hp').mpr rfl
  rw [h.map_fst] at hseg hfreep hpN hstops hlen
  exact find_circle hseg hfreep hpN hself hstops hlen

end Core

/-! ## `free` -/

theorem mem_release_nodes (hnodes : ∀ a ∈ pre ++ p :: post, a = (base, base) ∨ Sized base z a)
    (hb : Sized base z b) (hp : p.2 ≤ b.1) (hpost : ∀ q ∈ post, b.2 ≤ q.1) :
    ∀ a ∈ pre ++ join p (join b post), a = (base, base) ∨ Sized base z a := by
  obtain ⟨hbase, hsize, hle⟩ := hb
  -- a block that ends where `b` does, or later, is not `base`
  have hsized : ∀ q ∈ post, Sized base z q := fun q hq => by
    rcases hnodes q (List.mem_append_right _ (List.mem_cons_of_mem _ hq)) with rfl | hq'
    · have := hpost _ hq
      dsimp only at this
      omega
    · exact hq'
  have hjoin : ∀ q ∈ join b post, Sized base z q := by
    intro q hq
    rcases mem_join hq with rfl | hq | ⟨r, hr, hbr, rfl⟩
    · exact ⟨hbase, hsize, hle⟩
    · exact hsized q hq
    · obtain ⟨-, hrsize, hrle⟩ := hsized r hr
      exact ⟨hbase, show b.1 + 8 ≤ r.2 by omega, hrle⟩
  intro a ha
  rcases List.mem_append.mp ha with ha | ha
  · exact hnodes a (List.mem_append_left _ ha)
  · have hpnode := hnodes p (List.mem_append_right _ List.mem_cons_self)
    rcases mem_join ha with rfl | ha | ⟨r, hr, hpr, rfl⟩
    · exact hpnode
    · exact Or.inr (hjoin a ha)
    · -- `base` has no units and does not touch the block
      obtain ⟨hrbase, hrsize, hrle⟩ := hjoin r hr
      rcases hpnode with rfl | ⟨hpbase, hpsize, -⟩
      · dsimp only at hpr
        omega
      · exact Or.inr ⟨hpbase, show p.1 + 8 ≤ r.2 by omega, hrle⟩

/-- `free` puts the block into the circle. -/
theorem Core.free (h : Core base s N L) (hb : Detached base s N L b) :
    ∃ s' N', Umalloc.free (b.1 + 8) s = .ok () s' ∧ Core base s' N' L ∧
      covered N' = bytes b ∪ covered N ∧ total N' = (b.2 - b.1) + total N ∧
      (∃ c ∈ N', c.1 ≤ b.1 ∧ b.2 ≤ c.2) ∧
      s'.sz = s.sz ∧ s'.regions = s.regions ∧ s'.live = s.live := by
  obtain ⟨pre, p, post, rfl, hp, hpost⟩ := h.place hb
  have hfind := h.find_place hb.sized hp hpost
  obtain ⟨hbase, hsize, hbsz⟩ := hb.sized
  have hble : b.1 ≤ b.2 := by omega
  obtain ⟨hpre, hpholds⟩ := holds_append.mp h.holds
  obtain ⟨-, hpsize, hpostholds⟩ := holds_cons.mp hpholds
  have htop := h.top
  have h32 : KERNBASE < 2 ^ 32 := by decide
  have hNlt : ∀ a ∈ pre ++ p :: post, a.2 < 2 ^ 32 := fun a ha => (h.lt a ha).trans h32
  have hpN : p ∈ pre ++ p :: post := List.mem_append_right _ List.mem_cons_self
  have hpostN : ∀ q ∈ post, q ∈ pre ++ p :: post := fun q hq =>
    List.mem_append_right _ (List.mem_cons_of_mem _ hq)
  have hple := h.le p hpN
  -- neither of the headers that are written is one of the others
  have hnodes : ∀ a ∈ pre ++ p :: post, a.1 ≠ b.1 := by
    intro a ha heq
    rcases h.nodes a ha with rfl | ha'
    · dsimp only at heq
      omega
    · exact hb.sized.ne ha' (hb.circle.mono_right (bytes_subset_covered ha)) heq
  have hpb : p.1 ≠ b.1 := hnodes p hpN
  have hjoinne : ∀ q ∈ join b post, q.1 ≠ p.1 := fun q hq => by
    have := le_join hble hpost q hq
    omega
  set m₁ := link s.mem b.1 (start base post) with hm₁
  set m₂ := link m₁ p.1 b.1 with hm₂
  have hkeep : ∀ a, a ≠ p.1 → a ≠ b.1 → m₂ a = s.mem a := fun a hap hab => by
    rw [hm₂, link_ne hap, hm₁, link_ne hab]
  have hholds₁ : Holds m₁ base (join b post) :=
    link_holds hpostholds hb.size (fun _ => by omega) (fun q hq => hnodes q (hpostN q hq)) (by omega)
      fun q hq => hNlt q (hpostN q hq)
  have hjoinlt : ∀ q ∈ join b post, q.2 < 2 ^ 32 := by
    intro q hq
    rcases mem_join hq with rfl | hq | ⟨r, hr, -, rfl⟩
    · omega
    · exact hNlt q (hpostN q hq)
    · exact hNlt r (hpostN r hr)
  have hholds₂ : Holds m₂ base (pre ++ join p (join b post)) := by
    refine holds_append.mpr ⟨?_, ?_⟩
    · rw [start_join]
      exact Holds.congr hpre fun a ha =>
        hkeep a.1 (h.ne_of_mem a (List.mem_append_left _ ha)) (hnodes a (List.mem_append_left _ ha))
    · have hne : join b post ≠ [] := by
        obtain ⟨c, l', hjoin, -⟩ := join_eq_cons b post
        rw [hjoin]
        exact List.cons_ne_nil _ _
      have hlink := link_holds (b := p) hholds₁ (by rw [hm₁, link_ne hpb]; exact hpsize)
        (fun hnil => absurd hnil hne) hjoinne (hNlt p hpN) hjoinlt
      rwa [start_join] at hlink
  have hlepost : ∀ q ∈ post, q.1 ≤ q.2 := fun q hq => h.le q (hpostN q hq)
  have hwithin : ∃ c ∈ pre ++ join p (join b post), c.1 ≤ b.1 ∧ b.2 ≤ c.2 := by
    obtain ⟨c, hc, hc₁, hc₂⟩ := exists_mem_join hble hlepost (List.mem_cons_self (a := b))
    obtain ⟨d, hd, hd₁, hd₂⟩ := exists_mem_join hple (join_le hble hlepost) (List.mem_cons_of_mem p hc)
    exact ⟨d, List.mem_append_right _ hd, hd₁.trans hc₁, hc₂.trans hd₂⟩
  have hnodes₂ := mem_release_nodes h.nodes hb.sized hp hpost
  have hrun : Umalloc.free (b.1 + 8) s = .ok () { s with mem := m₂, freep := p.1 } := by
    unfold Umalloc.free
    rw [Op.get_bind, Nat.add_sub_cancel, hfind]
    show Outcome.ok () { s with mem := link (link s.mem b.1 (s.mem p.1).ptr) p.1 b.1, freep := p.1 } = _
    rw [h.ptr]
  refine ⟨_, pre ++ join p (join b post), hrun, ⟨h.pos, ?_, hholds₂, gapped_release h.gapped h.le hp hble hpost,
    ?_, hnodes₂, fun c hc => ?_, h.apart, ?_, h.top⟩, covered_release h.le hble, total_release h.le hble, hwithin, rfl,
    rfl, rfl⟩
  · -- `base` stays in front
    obtain ⟨c, l', hjoin, hc⟩ := join_eq_cons p (join b post)
    have hhead := h.head
    cases pre with
    | nil =>
      obtain rfl : p = (base, base) := Option.some.inj hhead
      rw [List.nil_append, hjoin] at hnodes₂ ⊢
      rcases hnodes₂ c List.mem_cons_self with rfl | ⟨hbad, -⟩
      · rfl
      · dsimp only at hc
        omega
    | cons a pre => exact hhead
  · obtain ⟨c, l', hjoin, hc⟩ := join_eq_cons p (join b post)
    rw [hjoin]
    exact List.mem_map.mpr ⟨c, List.mem_append_right _ List.mem_cons_self, hc⟩
  · obtain ⟨hcsized, hcsize⟩ := h.blocks c hc
    refine ⟨hcsized, ?_⟩
    show c.2 = c.1 + 8 * (m₂ c.1).size
    rw [hkeep c.1 (h.block_ne hpN c hc) (hb.sized.ne hcsized (hb.others.mono_right (bytes_subset_covered hc)))]
    exact hcsize
  · rw [covered_release h.le hble]
    exact Set.disjoint_union_left.mpr ⟨hb.others, h.disjoint⟩

end Xv6.User.Umalloc
