import Xv6.Bio.Cache
import Xv6.Framework.Accounts

/-! # The structure of the buffer cache

    The invariant of the buffer cache over all interleavings of its calls.

    * The list pointers form a circle through all buffers.
    * The buffers stand on it in the order of their last release, the latest
      first; buffers that were never released stand at the end.
    * Of two buffers for the same block, the one further back has never been
      handed out. The buffers that have are therefore copies of different
      blocks.
    * The reference count of a buffer is the number of processes that hold
      its lock, wait for it, or have let go of it and not yet dropped their
      reference.
-/

namespace Xv6.Bio

open Circle Function

/-! ## The invariant -/

/-- The references a process holds to `b` besides those to buffers it has locked. -/
def Pc.on (pc : Pc) (b : BufId) : Nat :=
  match pc with
  | .idle => 0
  | .waiting b' _ _ => if b' = b then 1 else 0
  | .releasing b' => if b' = b then 1 else 0

@[simp] theorem Pc.on_idle (b : BufId) : Pc.idle.on b = 0 := rfl

@[simp] theorem Pc.on_waiting (b x : BufId) (dev blockno : Nat) :
    (Pc.waiting b dev blockno).on x = if b = x then 1 else 0 := rfl

@[simp] theorem Pc.on_releasing (b x : BufId) : (Pc.releasing b).on x = if b = x then 1 else 0 := rfl

/-- The buffer is a copy of this block. -/
def Buf.IsFor (x : Buf) (dev blockno : Nat) : Prop := x.dev = dev ∧ x.blockno = blockno

/-- The two buffers are copies of the same block. -/
def State.SameBlock (s : State) (a b : BufId) : Prop :=
  (s.cache.buf a).dev = (s.cache.buf b).dev ∧ (s.cache.buf a).blockno = (s.cache.buf b).blockno

/-- `a` was released after `b`, or neither has been. -/
def State.Later (s : State) (a b : BufId) : Prop :=
  s.released b < s.released a ∨ s.released a = 0 ∧ s.released b = 0

/-- The invariant, with the order `l` of the buffers on the circle. -/
structure Wf (s : State) (l : List BufId) : Prop where
  circle : IsCircle s.cache.links none (l.map some)
  all : ∀ b, b ∈ l
  order : l.Pairwise s.Later
  distinct : l.Pairwise fun a b => s.SameBlock a b → s.handed b = false
  clock : ∀ b, s.released b ≤ s.clock
  fresh : ∀ b, s.handed b = false → (s.cache.buf b).refcnt = 0 ∧ (s.cache.buf b).valid = false ∧
    (s.cache.buf b).dirty = false ∧ s.released b = 0
  rested : ∀ b, s.handed b = true → (s.cache.buf b).refcnt = 0 → 0 < s.released b
  ref : ∀ b, (s.cache.buf b).refcnt =
    (if (s.cache.buf b).lock = none then 0 else 1) + ∑ p, (s.pc p).on b

variable {drv : Driver} {s s' : State} {l : List BufId} {b : BufId} {dev blockno : Nat} {p : Pid}

section

variable (h : Wf s l)
include h

theorem Wf.nodup : l.Nodup :=
  (List.nodup_cons.mp h.circle.nodup).2.of_map

/-- A buffer in use has been handed out. -/
theorem Wf.handed_of_ref (hb : (s.cache.buf b).refcnt ≠ 0) : s.handed b = true := by
  cases hh : s.handed b with
  | true => rfl
  | false => exact absurd (h.fresh b hh).1 hb

theorem Wf.ref_of_lock (hb : (s.cache.buf b).lock ≠ none) : (s.cache.buf b).refcnt ≠ 0 := by
  have := h.ref b
  rw [if_neg hb] at this
  omega

theorem Wf.ref_of_pc (hp : (s.pc p).on b = 1) : (s.cache.buf b).refcnt ≠ 0 := by
  have href := h.ref b
  have hle : (s.pc p).on b ≤ ∑ q, (s.pc q).on b := Accounts.le_sum (f := fun q => (s.pc q).on b) p
  omega

/-- Buffers that have been handed out are copies of different blocks. -/
theorem Wf.same_block {a b : BufId} (ha : s.handed a = true) (hb : s.handed b = true)
    (hab : s.SameBlock a b) : a = b := by
  by_contra hne
  have hsym : s.SameBlock b a := ⟨hab.1.symm, hab.2.symm⟩
  -- whichever stands further back has not been handed out
  have hpair := List.pairwise_iff_getElem.mp h.distinct
  obtain ⟨i, hi, hia⟩ := List.getElem_of_mem (h.all a)
  obtain ⟨j, hj, hjb⟩ := List.getElem_of_mem (h.all b)
  rcases Nat.lt_trichotomy i j with hij | hij | hij
  · have := hpair i j hi hj hij
    rw [hia, hjb] at this
    rw [this hab] at hb
    cases hb
  · subst hij
    exact hne (hia.symm.trans hjb)
  · have := hpair j i hj hi hij
    rw [hia, hjb] at this
    rw [this hsym] at ha
    cases ha

/-! ## Searching the list -/

/-- The forward search is a search through the buffers in list order. -/
theorem Wf.search_next (P : Node → Bool) :
    search s.cache.links.next P none (NBUF + 1) (s.cache.links.next none) =
      (l.find? fun b => P (some b)).map some := by
  have hlen : l.length ≤ NBUF := by
    have := h.nodup.length_le_card
    simpa using this
  rw [search_walk h.circle.forward (List.nodup_cons.mp h.circle.nodup).1 (by simp; omega),
    List.find?_map]
  rfl

/-- The backward search goes through them in reverse. -/
theorem Wf.search_prev (P : Node → Bool) :
    search s.cache.links.prev P none (NBUF + 1) (s.cache.links.prev none) =
      (l.reverse.find? fun b => P (some b)).map some := by
  have hlen : l.length ≤ NBUF := by
    have := h.nodup.length_le_card
    simpa using this
  have hnot : none ∉ (l.map some).reverse := by
    rw [List.mem_reverse]
    exact (List.nodup_cons.mp h.circle.nodup).1
  rw [search_walk h.circle.backward hnot (by simp; omega), ← List.map_reverse, List.find?_map]
  rfl

end

/-- `b` is the first buffer for this block. -/
structure Hit (s : State) (l : List BufId) (dev blockno : Nat) (b : BufId) : Prop where
  found : (s.cache.buf b).IsFor dev blockno
  first : ∃ l₁ l₂, l = l₁ ++ b :: l₂ ∧ ∀ a ∈ l₁, ¬ (s.cache.buf a).IsFor dev blockno

/-- No buffer is a copy of this block, and `b` is the last one that is unused. -/
structure Recycled (s : State) (l : List BufId) (dev blockno : Nat) (b : BufId) : Prop where
  missing : ∀ a, ¬ (s.cache.buf a).IsFor dev blockno
  unused : (s.cache.buf b).refcnt = 0 ∧ (s.cache.buf b).dirty = false
  last : ∃ l₁ l₂, l = l₁ ++ b :: l₂ ∧ ∀ a ∈ l₂,
    ¬ ((s.cache.buf a).refcnt = 0 ∧ (s.cache.buf a).dirty = false)

/-- What `bget` does. -/
theorem Wf.bget_cases (h : Wf s l) {c : Bcache} (hb : bget dev blockno s.cache = .ok b c) :
    Hit s l dev blockno b ∧
        c = s.cache.setBuf b (fun x => { x with refcnt := x.refcnt + 1 }) ∨
      Recycled s l dev blockno b ∧ c = s.cache.setBuf b fun x =>
        { x with dev := dev, blockno := blockno, valid := false, dirty := false, refcnt := 1 } := by
  unfold bget at hb
  rw [Op.bind_of_ok (show Op.get s.cache = .ok s.cache s.cache from rfl),
    h.search_next (s.cache.holds dev blockno)] at hb
  cases hfind : l.find? fun b => s.cache.holds dev blockno (some b) with
  | some a =>
    -- the block is cached
    rw [hfind] at hb
    cases hb
    obtain ⟨hP, l₁, l₂, hl, hbefore⟩ := List.find?_eq_some_iff_append.mp hfind
    refine Or.inl ⟨⟨by simpa [Bcache.holds, Buf.IsFor] using hP, l₁, l₂, hl, fun x hx => ?_⟩, rfl⟩
    intro hsame
    have := hbefore x hx
    simp [Bcache.holds, hsame.1, hsame.2] at this
  | none =>
    rw [hfind] at hb
    simp only [Option.map_none, h.search_prev] at hb
    cases hfree : l.reverse.find? fun b => s.cache.unused (some b) with
    | none => rw [hfree] at hb; cases hb
    | some a =>
      rw [hfree] at hb
      cases hb
      obtain ⟨hP, l₁, l₂, hl, hbefore⟩ := List.find?_eq_some_iff_append.mp hfree
      refine Or.inr ⟨⟨fun x hx => ?_, by simpa [Bcache.unused] using hP, l₂.reverse, l₁.reverse, ?_,
        fun x hx => ?_⟩, rfl⟩
      · have := List.find?_eq_none.mp hfind x (h.all x)
        exact this (by simpa [Bcache.holds, Buf.IsFor] using hx)
      · rw [← List.reverse_reverse l, hl]
        simp
      · intro hsame
        have := hbefore x (List.mem_reverse.mp hx)
        simp [Bcache.unused, hsame.1, hsame.2] at this

/-! ## The steps -/

/-- Steps that leave the list, the history and the names of the buffers alone. -/
theorem Wf.set (h : Wf s l) (hlinks : s'.cache.links = s.cache.links)
    (hreleased : s'.released = s.released) (hclock : s'.clock = s.clock)
    (hhanded : s'.handed = s.handed)
    (hname : ∀ b, (s'.cache.buf b).dev = (s.cache.buf b).dev ∧
      (s'.cache.buf b).blockno = (s.cache.buf b).blockno)
    (hfresh : ∀ b, s.handed b = false → s'.cache.buf b = s.cache.buf b)
    (hrest : ∀ b, (s'.cache.buf b).refcnt = 0 → (s.cache.buf b).refcnt = 0)
    (href : ∀ b, (s'.cache.buf b).refcnt =
      (if (s'.cache.buf b).lock = none then 0 else 1) + ∑ p, (s'.pc p).on b) : Wf s' l := by
  refine ⟨by rw [hlinks]; exact h.circle, h.all, ?_, ?_, ?_, ?_, ?_, href⟩
  · have hlater : s'.Later = s.Later := by
      unfold State.Later
      rw [hreleased]
    rw [hlater]
    exact h.order
  · refine h.distinct.imp fun {a b} hab hsame => ?_
    rw [hhanded]
    refine hab ⟨?_, ?_⟩
    · rw [← (hname a).1, ← (hname b).1]; exact hsame.1
    · rw [← (hname a).2, ← (hname b).2]; exact hsame.2
  · rw [hreleased, hclock]
    exact h.clock
  · intro b hb
    rw [hhanded] at hb
    rw [hfresh b hb, hreleased]
    exact h.fresh b hb
  · intro b hb hr
    rw [hhanded] at hb
    rw [hreleased]
    exact h.rested b hb (hrest b hr)

/-- The references of the processes after process `p` has moved. -/
theorem sum_on_update (s : State) (p : Pid) (pc : Pc) (b : BufId) :
    ∑ q, (update s.pc p pc q).on b + (s.pc p).on b = ∑ q, (s.pc q).on b + pc.on b := by
  have hsum := Accounts.sum_change (f := fun q => (s.pc q).on b)
    (h := fun q => (update s.pc p pc q).on b) p fun q hq => by
      rw [update_of_ne hq]
  simpa using hsum

/-- A buffer is handed out for the block `(dev, blockno)`: no buffer in front of
    it is for this block, and those behind it that are have not been handed out. -/
theorem Wf.get (h : Wf s l) {l₁ l₂ : List BufId} (hp : s.pc p = .idle) (hl : l = l₁ ++ b :: l₂)
    (hbefore : ∀ a ∈ l₁, ¬ (s.cache.buf a).IsFor dev blockno)
    (hafter : ∀ a ∈ l₂, (s.cache.buf a).IsFor dev blockno → s.handed a = false)
    (hlinks : s'.cache.links = s.cache.links) (hreleased : s'.released = s.released)
    (hclock : s'.clock = s.clock) (hpc : s'.pc = update s.pc p (.waiting b dev blockno))
    (hhanded : s'.handed = update s.handed b true)
    (hbuf : ∀ x, x ≠ b → s'.cache.buf x = s.cache.buf x) (hfor : (s'.cache.buf b).IsFor dev blockno)
    (hcount : (s'.cache.buf b).refcnt = (s.cache.buf b).refcnt + 1)
    (hlock : (s'.cache.buf b).lock = (s.cache.buf b).lock) : Wf s' l := by
  have hnodup := h.nodup
  rw [hl, List.nodup_append, List.nodup_cons] at hnodup
  obtain ⟨_, ⟨hb₂, _⟩, hapart⟩ := hnodup
  have hb₁ : b ∉ l₁ := fun hm => hapart b hm b List.mem_cons_self rfl
  refine ⟨by rw [hlinks]; exact h.circle, h.all, ?_, ?_, by rw [hreleased, hclock]; exact h.clock,
    fun x hx => ?_, fun x hx hr => ?_, fun x => ?_⟩
  · have hlater : s'.Later = s.Later := by
      unfold State.Later
      rw [hreleased]
    rw [hlater]
    exact h.order
  · -- pairs of other buffers are as before; `b` is paired with the buffers on both sides
    have hold : ∀ x y, x ≠ b → y ≠ b → (s.SameBlock x y → s.handed y = false) →
        s'.SameBlock x y → s'.handed y = false := by
      intro x y hx hy hxy hsame
      unfold State.SameBlock at hsame
      rw [hbuf x hx, hbuf y hy] at hsame
      rw [hhanded, update_of_ne hy]
      exact hxy hsame
    have hdist := h.distinct
    rw [hl, List.pairwise_append, List.pairwise_cons] at hdist
    obtain ⟨hd₁, ⟨_, hd₂⟩, hd₃⟩ := hdist
    rw [hl, List.pairwise_append, List.pairwise_cons]
    refine ⟨hd₁.imp_of_mem fun {x y} hx hy => hold x y (fun heq => hb₁ (heq ▸ hx))
      (fun heq => hb₁ (heq ▸ hy)), ⟨fun y hy hsame => ?_,
      hd₂.imp_of_mem fun {x y} hx hy => hold x y (fun heq => hb₂ (heq ▸ hx))
        (fun heq => hb₂ (heq ▸ hy))⟩, fun x hx y hy hsame => ?_⟩
    · have hyb : y ≠ b := fun heq => hb₂ (heq ▸ hy)
      rw [hhanded, update_of_ne hyb]
      refine hafter y hy ⟨?_, ?_⟩
      · rw [← hbuf y hyb, ← hsame.1]; exact hfor.1
      · rw [← hbuf y hyb, ← hsame.2]; exact hfor.2
    · have hxb : x ≠ b := fun heq => hb₁ (heq ▸ hx)
      rcases List.mem_cons.mp hy with rfl | hy₂
      · refine absurd ⟨?_, ?_⟩ (hbefore x hx)
        · rw [← hbuf x hxb, hsame.1]; exact hfor.1
        · rw [← hbuf x hxb, hsame.2]; exact hfor.2
      · exact hold x y hxb (fun heq => hb₂ (heq ▸ hy₂)) (hd₃ x hx y hy) hsame
  · have hxb : x ≠ b := by
      rintro rfl
      rw [hhanded, update_self] at hx
      cases hx
    rw [hhanded, update_of_ne hxb] at hx
    rw [hbuf x hxb, hreleased]
    exact h.fresh x hx
  · have hxb : x ≠ b := by
      rintro rfl
      rw [hcount] at hr
      omega
    rw [hhanded, update_of_ne hxb] at hx
    rw [hbuf x hxb] at hr
    rw [hreleased]
    exact h.rested x hx hr
  · have hsum := sum_on_update s p (.waiting b dev blockno) x
    have href := h.ref x
    rw [hp, Pc.on_idle, Pc.on_waiting] at hsum
    rw [hpc]
    by_cases hx : x = b
    · subst hx
      rw [if_pos rfl] at hsum
      rw [hcount, hlock]
      omega
    · rw [if_neg (fun heq => hx heq.symm)] at hsum
      rw [hbuf x hx]
      omega

/-- The last reference to `b` is dropped: `b` moves to the front. -/
theorem Wf.release (h : Wf s l) (hp : s.pc p = .releasing b)
    (hlinks : s'.cache.links = (s.cache.links.unlink (some b)).insert none (some b))
    (hreleased : s'.released = update s.released b (s.clock + 1)) (hclock : s'.clock = s.clock + 1)
    (hpc : s'.pc = update s.pc p .idle) (hhanded : s'.handed = s.handed)
    (hname : ∀ x, (s'.cache.buf x).dev = (s.cache.buf x).dev ∧
      (s'.cache.buf x).blockno = (s.cache.buf x).blockno)
    (hbuf : ∀ x, x ≠ b → s'.cache.buf x = s.cache.buf x)
    (hcount : (s'.cache.buf b).refcnt = (s.cache.buf b).refcnt - 1)
    (hlock : (s'.cache.buf b).lock = (s.cache.buf b).lock) : Wf s' (b :: l.erase b) := by
  have hone : (s.pc p).on b = 1 := by rw [hp, Pc.on_releasing, if_pos rfl]
  have hhb : s.handed b = true := h.handed_of_ref (h.ref_of_pc hone)
  have hne : ∀ x ∈ l.erase b, x ≠ b := fun x hx => ((h.nodup.mem_erase_iff).mp hx).1
  have hsame : ∀ x y, s'.SameBlock x y → s.SameBlock x y := by
    intro x y hxy
    refine ⟨?_, ?_⟩
    · rw [← (hname x).1, ← (hname y).1]; exact hxy.1
    · rw [← (hname x).2, ← (hname y).2]; exact hxy.2
  refine ⟨?_, fun x => ?_, ?_, ?_, fun x => ?_, fun x hx => ?_, fun x hx hr => ?_, fun x => ?_⟩
  · -- the pointer assignments take `b` out and put it in at the front
    obtain ⟨l₁, l₂, hl⟩ := List.append_of_mem (h.all b)
    have hout := h.circle
    rw [hl, List.map_append, List.map_cons] at hout
    have hb₁ : b ∉ l₁ := by
      intro hm
      have hnodup := h.nodup
      rw [hl, List.nodup_append] at hnodup
      exact hnodup.2.2 b hm b List.mem_cons_self rfl
    have herase : l.erase b = l₁ ++ l₂ := by
      rw [hl, List.erase_append_right _ hb₁, List.erase_cons_head]
    rw [hlinks, List.map_cons, herase, List.map_append]
    refine hout.unlink.insert ?_
    rw [← List.map_append, ← herase]
    simp only [List.mem_cons, List.mem_map, not_or]
    refine ⟨by simp, ?_⟩
    rintro ⟨x, hx, hxb⟩
    exact hne x hx (Option.some.inj hxb)
  · by_cases hx : x = b
    · rw [hx]; exact List.mem_cons_self
    · exact List.mem_cons_of_mem b (h.nodup.mem_erase_iff.mpr ⟨hx, h.all x⟩)
  · rw [List.pairwise_cons]
    refine ⟨fun x hx => Or.inl ?_, (h.order.sublist List.erase_sublist).imp_of_mem ?_⟩
    · have := h.clock x
      rw [hreleased, update_self, update_of_ne (hne x hx)]
      omega
    · intro x y hx hy hxy
      unfold State.Later at hxy ⊢
      rw [hreleased, update_of_ne (hne x hx), update_of_ne (hne y hy)]
      exact hxy
  · rw [List.pairwise_cons, hhanded]
    refine ⟨fun x hx hbx => ?_, (h.distinct.sublist List.erase_sublist).imp fun {x y} hxy hs =>
      hxy (hsame x y hs)⟩
    -- a buffer for the same block cannot have been handed out as well
    cases hh : s.handed x with
    | false => rfl
    | true => exact absurd (h.same_block hhb hh (hsame b x hbx)).symm (hne x hx)
  · rw [hreleased, hclock]
    by_cases hx : x = b
    · rw [hx, update_self]
    · rw [update_of_ne hx]
      exact le_trans (h.clock x) (Nat.le_succ _)
  · rw [hhanded] at hx
    have hxb : x ≠ b := by
      rintro rfl
      rw [hhb] at hx
      cases hx
    rw [hbuf x hxb, hreleased, update_of_ne hxb]
    exact h.fresh x hx
  · rw [hreleased]
    by_cases hxb : x = b
    · rw [hxb, update_self]
      omega
    · rw [hbuf x hxb] at hr
      rw [hhanded] at hx
      rw [update_of_ne hxb]
      exact h.rested x hx hr
  · have hsum := sum_on_update s p .idle x
    have href := h.ref x
    rw [hp, Pc.on_idle, Pc.on_releasing] at hsum
    rw [hpc]
    by_cases hx : x = b
    · subst hx
      rw [if_pos rfl] at hsum
      rw [hcount, hlock]
      omega
    · rw [if_neg (fun heq => hx heq.symm)] at hsum
      rw [hbuf x hx]
      omega

/-- A buffer that has been handed out changes, but for its name and its count. -/
theorem Wf.touch (h : Wf s l) (hb : s.handed b = true) (hlinks : s'.cache.links = s.cache.links)
    (hreleased : s'.released = s.released) (hclock : s'.clock = s.clock)
    (hhanded : s'.handed = s.handed) (hbuf : ∀ x, x ≠ b → s'.cache.buf x = s.cache.buf x)
    (hname : (s'.cache.buf b).IsFor (s.cache.buf b).dev (s.cache.buf b).blockno)
    (hcount : (s'.cache.buf b).refcnt = (s.cache.buf b).refcnt)
    (hself : (if (s'.cache.buf b).lock = none then 0 else 1) + ∑ p, (s'.pc p).on b =
      (if (s.cache.buf b).lock = none then 0 else 1) + ∑ p, (s.pc p).on b)
    (hpc : ∀ x, x ≠ b → ∑ p, (s'.pc p).on x = ∑ p, (s.pc p).on x) : Wf s' l := by
  refine h.set hlinks hreleased hclock hhanded (fun x => ?_) (fun x hx => ?_) (fun x hr => ?_)
    fun x => ?_
  · by_cases hx : x = b
    · rw [hx]; exact hname
    · rw [hbuf x hx]; exact ⟨rfl, rfl⟩
  · refine hbuf x ?_
    rintro rfl
    rw [hb] at hx
    cases hx
  · by_cases hx : x = b
    · rw [hx] at hr ⊢
      rw [← hcount]; exact hr
    · rw [hbuf x hx] at hr
      exact hr
  · by_cases hx : x = b
    · rw [hx, hcount, hself]
      exact h.ref b
    · rw [hbuf x hx, hpc x hx]
      exact h.ref x

/-- The contents or the flags of a buffer change. -/
theorem Wf.edit (h : Wf s l) (hb : s.handed b = true) {c : Bcache} {phase : BufId → Phase}
    (hlinks : c.links = s.cache.links) (hbuf : ∀ x, x ≠ b → c.buf x = s.cache.buf x)
    (hname : (c.buf b).IsFor (s.cache.buf b).dev (s.cache.buf b).blockno)
    (hcount : (c.buf b).refcnt = (s.cache.buf b).refcnt)
    (hlock : (c.buf b).lock = (s.cache.buf b).lock) : Wf { s with cache := c, phase := phase } l :=
  h.touch hb hlinks rfl rfl rfl hbuf hname hcount (by rw [hlock]) fun _ _ => rfl

/-- The cache after `iderw` differs in the flags and the contents of one buffer. -/
theorem iderw_frame {c c' : Bcache} (h : iderw drv p b c = .ok () c') :
    c'.links = c.links ∧ (∀ x, x ≠ b → c'.buf x = c.buf x) ∧
      (c'.buf b).IsFor (c.buf b).dev (c.buf b).blockno ∧
      (c'.buf b).refcnt = (c.buf b).refcnt ∧ (c'.buf b).lock = (c.buf b).lock := by
  obtain ⟨_, hcase⟩ := iderw_cases h
  rcases hcase with ⟨_, rfl⟩ | ⟨_, _, rfl⟩
  · exact ⟨rfl, fun x hx => update_of_ne hx _ _, by simp [Buf.IsFor, Bcache.setBuf],
      by simp [Bcache.setBuf], by simp [Bcache.setBuf]⟩
  · exact ⟨rfl, fun x hx => update_of_ne hx _ _, by simp [Buf.IsFor], by simp, by simp⟩

/-- Every event keeps the invariant. -/
theorem Wf.step (h : Wf s l) {e : Event} (hnext : s.next drv e = some s') : ∃ l', Wf s' l' := by
  cases e with
  | bget p dev blockno b =>
    obtain ⟨hp, c, hc, rfl⟩ := of_guarded_ends hnext
    refine ⟨l, ?_⟩
    rcases h.bget_cases hc with ⟨⟨hfound, l₁, l₂, hl, hfirst⟩, rfl⟩ | ⟨⟨hmiss, hun, l₁, l₂, hl, _⟩, rfl⟩
    · -- behind the first buffer for this block, none has been handed out
      refine h.get hp hl hfirst (fun a ha hfor => ?_) rfl rfl rfl rfl rfl
        (fun x hx => update_of_ne hx _ _) (by simpa [Buf.IsFor] using hfound) (by simp) (by simp)
      have hdist := h.distinct
      rw [hl, List.pairwise_append, List.pairwise_cons] at hdist
      exact hdist.2.1.1 a ha ⟨hfound.1.trans hfor.1.symm, hfound.2.trans hfor.2.symm⟩
    · exact h.get hp hl (fun a _ => hmiss a) (fun a _ hfor => absurd hfor (hmiss a)) rfl rfl rfl rfl
        rfl (fun x hx => update_of_ne hx _ _) (by simp [Buf.IsFor]) (by simp [hun.1]) (by simp)
  | lock p =>
    simp only [State.next] at hnext
    split at hnext
    case h_2 => cases hnext
    case h_1 b dev blockno hp =>
      obtain ⟨c, hc, rfl⟩ := Option.map_eq_some_iff.mp hnext
      obtain ⟨hfree, rfl⟩ := acquiresleep_cases (ends_eq_some.mp hc)
      have hone : (s.pc p).on b = 1 := by rw [hp, Pc.on_waiting, if_pos rfl]
      have hsum := sum_on_update s p .idle
      refine ⟨l, h.touch (h.handed_of_ref (h.ref_of_pc hone)) rfl rfl rfl rfl
        (fun x hx => update_of_ne hx _ _) (by simp [Buf.IsFor]) (by simp) ?_ fun x hx => ?_⟩
      · -- the reference of the waiting process becomes the one of the holder
        have := hsum b
        rw [hone, Pc.on_idle] at this
        simp only [Bcache.setBuf_self, hfree, if_true, reduceCtorEq, if_false]
        omega
      · have := hsum x
        rw [hp, Pc.on_waiting, if_neg (fun heq => hx heq.symm), Pc.on_idle] at this
        simpa using this
  | bread p b dev blockno data =>
    obtain ⟨hp, hnext⟩ := Option.ite_none_right_eq_some.mp hnext
    obtain ⟨c, hc, hs'⟩ := Option.bind_eq_some_iff.mp hnext
    obtain ⟨_, hs'⟩ := Option.ite_none_right_eq_some.mp hs'
    cases hs'
    have hb := h.handed_of_ref (h.ref_of_lock (b := b) (by rw [hp.2.1]; simp))
    rcases bread_fill_cases (ends_eq_some.mp hc) with ⟨_, rfl⟩ | ⟨_, hrw⟩
    · exact ⟨l, h.edit hb rfl (fun _ _ => rfl) ⟨rfl, rfl⟩ rfl rfl⟩
    · obtain ⟨hlinks, hbuf, hname, hcount, hlock⟩ := iderw_frame hrw
      exact ⟨l, h.edit hb hlinks hbuf hname hcount hlock⟩
  | store p b data =>
    obtain ⟨hp, hnext⟩ := Option.ite_none_right_eq_some.mp hnext
    cases hnext
    exact ⟨l, h.edit hp.2 rfl (fun x hx => update_of_ne hx _ _) (by simp [Buf.IsFor]) (by simp)
      (by simp)⟩
  | bwrite p b dev blockno data =>
    obtain ⟨hp, c, hc, rfl⟩ := of_guarded_ends hnext
    obtain ⟨hlock, rfl⟩ := bwrite_cases hc
    have hb := h.handed_of_ref (h.ref_of_lock (b := b) (by rw [hlock]; simp))
    exact ⟨l, h.edit hb rfl (fun x hx => update_of_ne hx _ _)
      (by simp [Buf.IsFor, Bcache.setBuf]) (by simp [Bcache.setBuf]) (by simp [Bcache.setBuf])⟩
  | log_write p b dev blockno data =>
    obtain ⟨hp, c, hc, rfl⟩ := of_guarded_ends hnext
    cases hc
    exact ⟨l, h.edit hp.2.1 rfl (fun x hx => update_of_ne hx _ _) (by simp [Buf.IsFor])
      (by simp) (by simp)⟩
  | unlock p b =>
    obtain ⟨hp, c, hc, rfl⟩ := of_guarded_ends hnext
    obtain ⟨hlock, rfl⟩ := brelse_unlock_cases hc
    have hsum := sum_on_update s p (.releasing b)
    refine ⟨l, h.touch (h.handed_of_ref (h.ref_of_lock (b := b) (by rw [hlock]; simp))) rfl rfl rfl
      rfl (fun x hx => update_of_ne hx _ _) (by simp [Buf.IsFor]) (by simp) ?_ fun x hx => ?_⟩
    · have := hsum b
      rw [hp, Pc.on_releasing, if_pos rfl, Pc.on_idle] at this
      simp only [Bcache.setBuf_self, hlock, if_true, reduceCtorEq, if_false]
      omega
    · have := hsum x
      rw [hp, Pc.on_releasing, if_neg (fun heq => hx heq.symm), Pc.on_idle] at this
      simpa using this
  | brelse p =>
    simp only [State.next] at hnext
    split at hnext
    case h_2 => cases hnext
    case h_1 b hp =>
      obtain ⟨c, hc, hs'⟩ := Option.map_eq_some_iff.mp hnext
      have hone : (s.pc p).on b = 1 := by rw [hp, Pc.on_releasing, if_pos rfl]
      have hpos := h.ref_of_pc hone
      have hrel := ends_eq_some.mp hc
      simp only [brelse, Op.modify, Outcome.ok.injEq, true_and, Bcache.setBuf_self] at hrel
      by_cases hlast : (s.cache.buf b).refcnt - 1 = 0
      · rw [if_pos hlast] at hrel
        subst hrel
        rw [if_pos (by simpa [Bcache.setBuf] using hlast)] at hs'
        subst hs'
        refine ⟨b :: l.erase b, h.release hp rfl rfl rfl rfl rfl (fun x => ?_)
          (fun x hx => update_of_ne hx _ _) (by simp [Bcache.setBuf])
          (by simp [Bcache.setBuf])⟩
        by_cases hx : x = b
        · subst hx
          simp [Bcache.setBuf]
        · simp [Bcache.setBuf, hx]
      · rw [if_neg hlast] at hrel
        subst hrel
        rw [if_neg (by simpa using hlast)] at hs'
        subst hs'
        have hbuf : ∀ x, x ≠ b → (s.cache.setBuf b fun x => { x with refcnt := x.refcnt - 1 }).buf x =
            s.cache.buf x := fun x hx => update_of_ne hx _ _
        refine ⟨l, h.set rfl rfl rfl rfl (fun x => ?_) (fun x hx => hbuf x ?_) (fun x hr => ?_)
          fun x => ?_⟩
        · by_cases hx : x = b
          · subst hx
            simp
          · exact ⟨by rw [hbuf x hx], by rw [hbuf x hx]⟩
        · rintro rfl
          rw [h.handed_of_ref hpos] at hx
          cases hx
        · by_cases hx : x = b
          · subst hx
            simp at hr
            omega
          · rw [hbuf x hx] at hr
            exact hr
        · have hsum := sum_on_update s p .idle x
          have href := h.ref x
          rw [hp, Pc.on_idle, Pc.on_releasing] at hsum
          by_cases hx : x = b
          · subst hx
            rw [if_pos rfl] at hsum
            simp only [Bcache.setBuf_self]
            omega
          · rw [if_neg (fun heq => hx heq.symm)] at hsum
            rw [hbuf x hx]
            show _ = _ + ∑ q, (update s.pc p .idle q).on x
            omega

/-! ## Whole runs -/

/-- Buffers go in behind the head one after the other. -/
theorem isCircle_foldl {L : Links Node} {bs l : List BufId} (h : IsCircle L none (l.map some))
    (hbs : bs.Nodup) (hdisj : ∀ b ∈ bs, b ∉ l) :
    IsCircle (bs.foldl (fun L b => L.insert none (some b)) L) none ((bs.reverse ++ l).map some) := by
  induction bs generalizing L l with
  | nil => exact h
  | cons b bs ih =>
    rw [List.nodup_cons] at hbs
    have hb : some b ∉ none :: l.map some := by
      simp only [List.mem_cons, List.mem_map, not_or]
      refine ⟨by simp, ?_⟩
      rintro ⟨x, hx, hxb⟩
      exact hdisj b List.mem_cons_self (Option.some.inj hxb ▸ hx)
    have hstep := ih (l := b :: l) (by simpa using h.insert hb) hbs.2 (fun x hx => by
      rw [List.mem_cons, not_or]
      exact ⟨fun heq => hbs.1 (heq ▸ hx), hdisj x (List.mem_cons_of_mem b hx)⟩)
    rw [List.foldl_cons, List.reverse_cons, List.append_assoc, List.singleton_append]
    exact hstep

/-- The list of `binit`. -/
theorem isCircle_binit : IsCircle binit none ((List.finRange NBUF).reverse.map some) := by
  have hempty : IsCircle (⟨fun _ => none, fun _ => none⟩ : Links Node) none
      (([] : List BufId).map some) := by
    refine ⟨?_, by simp⟩
    simp only [List.map_nil, List.cons_append, List.nil_append, List.isChain_cons_cons,
      List.isChain_singleton, and_true]
    exact ⟨rfl, rfl⟩
  have h := isCircle_foldl hempty (List.nodup_finRange NBUF) (fun _ _ => List.not_mem_nil)
  rw [List.append_nil] at h
  exact h

theorem Initial.wf (h : Initial s) : Wf s (List.finRange NBUF).reverse := by
  refine ⟨by rw [h.links]; exact isCircle_binit, fun b => by simp, ?_, ?_, fun b => ?_, fun b _ => ?_,
    fun b hb => ?_, fun b => ?_⟩
  · exact List.pairwise_of_forall fun a b => Or.inr ⟨h.released a, h.released b⟩
  · exact List.pairwise_of_forall fun a b _ => h.handed b
  · rw [h.released b]
    exact Nat.zero_le _
  · obtain ⟨hv, hd, _, _, _, hr⟩ := h.buf b
    exact ⟨hr, hv, hd, h.released b⟩
  · rw [h.handed b] at hb
    cases hb
  · obtain ⟨_, _, _, _, hl, hr⟩ := h.buf b
    rw [hr, hl, if_pos rfl]
    simp [h.pc]

theorem reachable_wf (h : LTS.Reachable (bioSystem drv) s) : ∃ l, Wf s l := by
  apply h.invariant (I := fun s => ∃ l, Wf s l)
  · intro s hinit
    exact ⟨_, hinit.wf⟩
  · intro s e s' hs hnext
    obtain ⟨l, hwf⟩ := hs
    exact hwf.step hnext

/-- The buffer is referenced or carries a flag. -/
def Buf.Active (x : Buf) : Prop := x.refcnt ≠ 0 ∨ x.valid = true ∨ x.dirty = true

theorem Wf.handed_of_active (h : Wf s l) (hb : (s.cache.buf b).Active) : s.handed b = true := by
  cases hh : s.handed b with
  | true => rfl
  | false =>
    obtain ⟨hr, hv, hd, _⟩ := h.fresh b hh
    rcases hb with hb | hb | hb
    · exact absurd hr hb
    · rw [hv] at hb; cases hb
    · rw [hd] at hb; cases hb

/-- Of the buffers that can be recycled, `b` was released first. -/
theorem Wf.oldest (h : Wf s l) {a b : BufId} (hb : Recycled s l dev blockno b)
    (ha : (s.cache.buf a).refcnt = 0 ∧ (s.cache.buf a).dirty = false) (hab : a ≠ b) :
    s.released b < s.released a ∨ s.handed a = false ∧ s.handed b = false := by
  obtain ⟨_, hun, l₁, l₂, hl, hlast⟩ := hb
  -- `a` stands in front of `b`
  have ha₁ : a ∈ l₁ := by
    have hmem := h.all a
    rw [hl, List.mem_append, List.mem_cons] at hmem
    rcases hmem with hm | hm | hm
    · exact hm
    · exact absurd hm hab
    · exact absurd ha (hlast a hm)
  have horder := h.order
  rw [hl, List.pairwise_append] at horder
  rcases horder.2.2 a ha₁ b List.mem_cons_self with hlt | ⟨ha0, hb0⟩
  · exact Or.inl hlt
  · refine Or.inr ⟨?_, ?_⟩
    · cases hh : s.handed a with
      | false => rfl
      | true => have := h.rested a hh ha.1; omega
    · cases hh : s.handed b with
      | false => rfl
      | true => have := h.rested b hh hun.1; omega

/-- In every state that the calls reach, the pointers form one circle through
    all buffers in both directions, the buffers in use are copies of different
    blocks, and a `bget` that finds no copy of its block recycles, among the
    buffers without reference and without `B_DIRTY`, the one whose last release
    is the oldest; never used ones come first. -/
theorem buffer_cache_structure (drv : Driver) (s : State)
    (h : LTS.Reachable (bioSystem drv) s) :
    (∃ l : List BufId, l.Nodup ∧ (∀ b, b ∈ l) ∧ Walk s.cache.links.next none (l.map some) none ∧
      Walk s.cache.links.prev none (l.map some).reverse none) ∧
    (∀ a b, (s.cache.buf a).Active → (s.cache.buf b).Active → s.SameBlock a b → a = b) ∧
    (∀ p dev blockno b s', s.next drv (.bget p dev blockno b) = some s' →
      (∀ a, ¬ (s.cache.buf a).IsFor dev blockno) →
      (s.cache.buf b).refcnt = 0 ∧ (s.cache.buf b).dirty = false ∧
      ∀ a, a ≠ b → (s.cache.buf a).refcnt = 0 → (s.cache.buf a).dirty = false →
        s.released b < s.released a ∨ s.handed a = false ∧ s.handed b = false) := by
  obtain ⟨l, hwf⟩ := reachable_wf h
  refine ⟨⟨l, hwf.nodup, hwf.all, hwf.circle.forward, hwf.circle.backward⟩, fun a b ha hb hab =>
    hwf.same_block (hwf.handed_of_active ha) (hwf.handed_of_active hb) hab, ?_⟩
  intro p dev blockno b s' hnext hmiss
  obtain ⟨_, c, hc, _⟩ := of_guarded_ends hnext
  rcases hwf.bget_cases hc with ⟨hhit, _⟩ | ⟨hrec, _⟩
  · exact absurd hhit.found (hmiss b)
  · exact ⟨hrec.unused.1, hrec.unused.2, fun a hab hr hd => hwf.oldest hrec ⟨hr, hd⟩ hab⟩

/-- The state after `binit`, with zeroed disks. -/
def booted : State where
  cache := ⟨fun _ => ⟨false, false, 0, 0, none, 0, 0⟩, binit, fun _ _ => 0⟩
  pc _ := .idle
  phase _ := .clean
  handed _ := false
  clock := 0
  released _ := 0

theorem booted_initial : Initial booted :=
  ⟨rfl, fun _ => ⟨rfl, rfl, rfl, rfl, rfl, rfl⟩, fun _ => rfl, fun _ => rfl, fun _ => rfl, fun _ => rfl⟩

/-- A block is read and released; the next one goes to the last unused buffer. -/
theorem buffer_cache_structure_two_blocks : ∃ s s', LTS.Reachable (bioSystem (memide 1000)) s ∧
    s.next (memide 1000) (.bget 0 1 7 1) = some s' ∧
    (s.released 1 < s.released 0 ∨ s.handed 0 = false ∧ s.handed 1 = false) := by
  have hexec : ((bioSystem (memide 1000)).exec (fun _ _ => true) booted
      [.bget 0 1 5 0, .lock 0, .bread 0 0 1 5 0, .unlock 0 0, .brelse 0]).any (fun s =>
        (s.next (memide 1000) (.bget 0 1 7 1)).isSome &&
        decide (∀ a, ¬ ((s.cache.buf a).dev = 1 ∧ (s.cache.buf a).blockno = 7)) &&
        decide ((s.cache.buf 0).refcnt = 0 ∧ (s.cache.buf 0).dirty = false)) = true := by
    decide +kernel
  obtain ⟨s, hs, hend⟩ := (Option.any_eq_true _ _).mp hexec
  simp only [Bool.and_eq_true, decide_eq_true_eq] at hend
  obtain ⟨⟨hsome, hmiss⟩, hr, hd⟩ := hend
  obtain ⟨s', hs'⟩ := Option.isSome_iff_exists.mp hsome
  have hreach := (LTS.reachable_of_exec booted_initial hs).of_restrict
  have h := buffer_cache_structure _ s hreach
  exact ⟨s, s', hreach, hs', (h.2.2 0 1 7 1 s' hs' hmiss).2.2 0 (by decide) hr hd⟩

end Xv6.Bio
