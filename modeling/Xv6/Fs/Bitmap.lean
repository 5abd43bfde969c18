import Mathlib.Data.BitVec
import Xv6.Fs.Inode

/-! # The free map

    `balloc` and `bfree` down to the bytes of the free map. The two find the
    bit of a block in different ways: `balloc` counts, with one loop over the
    blocks of the map and one over the bits of a block, `bfree` divides. All
    they know of the super block is `size` and `bmapstart`.

    A map stands for the set of the blocks whose bits are clear; `balloc`
    removes the least block from it and `bfree` inserts one. That needs the
    blocks of the map itself to be marked: `balloc` zeroes the block it
    returns, and would wipe out the map.
-/

namespace Xv6.Fs

open BitRange Op Function

variable {s : FsState} {E : String → Prop} {Q : Unit → FsState → Prop}

/-- A block can be logged, or the panic is allowed for. -/
def Logs (E : String → Prop) (s : FsState) : Prop :=
  s.outstanding < 1 → E "log_write outside of trans"

theorem wp_log_write {b : Nat} {data : Block} (hlog : Logs E s)
    (hQ : Q () { s with disk := update s.disk b data }) : wp (log_write b data) E Q s := by
  unfold log_write
  simp only [wp_bind, wp_get]
  by_cases h : s.outstanding < 1
  · simpa [h] using hlog h
  · simpa [h] using hQ

namespace Bytes

/-! ## The code -/

/-- `m = 1 << (bi % 8)` -/
def mask (bi : Nat) : Byte := 1#8 <<< (bi % 8)

/-- `(bp->data[bi/8] & m) == 0` -/
def isFree (bp : Block) (bi : Nat) : Bool := cell 8 bp (bi / 8) &&& mask bi == 0

/-- `bp->data[bi/8] |= m` -/
def mark (bp : Block) (bi : Nat) : Block := setCell bp (bi / 8) (cell 8 bp (bi / 8) ||| mask bi)

/-- `bp->data[bi/8] &= ~m` -/
def unmark (bp : Block) (bi : Nat) : Block := setCell bp (bi / 8) (cell 8 bp (bi / 8) &&& ~~~ mask bi)

variable (size bmapstart : Nat)

/-- Block of free map containing bit for block `b`. -/
def BBLOCK (b : Nat) : Nat := b / BPB + bmapstart

/-- The outer loop of `balloc`. -/
def balloc_from : (fuel b : Nat) → Op FsState Nat
  | 0, _ => Op.panic "balloc: out of blocks"
  | fuel + 1, b => do
    if b < size then
      let s ← Op.get
      let bp := s.disk (BBLOCK bmapstart b)
      -- for(bi = 0; bi < BPB && b + bi < sb.size; bi++)
      match firstFrom (isFree bp) (min BPB (size - b)) 0 with
      | some bi =>
        log_write (BBLOCK bmapstart b) (mark bp bi)
        bzero (b + bi)
        pure (b + bi)
      | none => balloc_from fuel (b + BPB)
    else
      Op.panic "balloc: out of blocks"

/-- Allocate a zeroed disk block. -/
def balloc : Op FsState Nat := balloc_from size bmapstart (size / BPB + 1) 0

/-- Free a disk block. -/
def bfree (b : Nat) : Op FsState Unit := do
  let s ← Op.get
  let bp := s.disk (BBLOCK bmapstart b)
  let bi := b % BPB
  if isFree bp bi then
    Op.panic "freeing free block"
  else
    log_write (BBLOCK bmapstart b) (unmark bp bi)

/-! ## Bits of bytes -/

theorem mask_eq (bi : Nat) : mask bi = BitVec.twoPow 8 (bi % 8) := by
  unfold mask
  rw [BitVec.twoPow_eq]

theorem mask_inj {i j : Nat} (h : mask i = mask j) : i % 8 = j % 8 := by
  have hall : ∀ a b : Fin 8, BitVec.twoPow 8 a = BitVec.twoPow 8 b → a = b := by decide
  rw [mask_eq, mask_eq] at h
  have heq := hall ⟨i % 8, Nat.mod_lt _ (by decide)⟩ ⟨j % 8, Nat.mod_lt _ (by decide)⟩ h
  exact congrArg Fin.val heq

variable {bp : Block} {bi : Nat}

theorem getLsbD_byte (bp : Block) (bi : Nat) : (cell 8 bp (bi / 8)).getLsbD (bi % 8) = bp.getLsbD bi := by
  have hlt : bi % 8 < 8 := Nat.mod_lt _ (by decide)
  unfold cell
  rw [BitVec.getLsbD_extractLsb', decide_eq_true hlt, Bool.true_and, Nat.div_add_mod]

theorem isFree_eq (bp : Block) (bi : Nat) : isFree bp bi = !bp.getLsbD bi := by
  have hne : BitVec.twoPow 8 (bi % 8) ≠ 0 := by
    have hbit : (BitVec.twoPow 8 (bi % 8)).getLsbD (bi % 8) = true := by
      rw [BitVec.getLsbD_twoPow]
      simp [Nat.mod_lt]
    intro h
    rw [h] at hbit
    simp at hbit
  unfold isFree
  rw [mask_eq, BitVec.and_twoPow, getLsbD_byte]
  cases bp.getLsbD bi with
  | false => rfl
  | true => simpa using hne

/-- Storing a byte that differs from the old one in the bit `bi` only. -/
theorem setByte_eq (hbi : bi < 8 * BSIZE) {v : Byte} {x : Bool}
    (hv : ∀ k, k < 8 → v.getLsbD k = if k = bi % 8 then x else (cell 8 bp (bi / 8)).getLsbD k) :
    setCell bp (bi / 8) v = put bp bi (BitVec.ofBool x) := by
  apply BitVec.eq_of_getLsbD_eq
  intro j hj
  unfold setCell
  rw [getLsbD_put _ _ _ _ hj, getLsbD_put _ _ _ _ hj]
  by_cases hin : 8 * (bi / 8) ≤ j ∧ j < 8 * (bi / 8) + 8
  · rw [if_pos hin, hv _ (by omega)]
    by_cases hjb : j = bi
    · subst hjb
      rw [if_pos (by omega), if_pos (by omega), Nat.sub_self]
      simp
    · rw [if_neg (by omega), if_neg (by omega)]
      unfold cell
      exact getLsbD_extractLsb'_sub bp hin
  · rw [if_neg hin, if_neg (by omega)]

theorem mark_eq (hbi : bi < 8 * BSIZE) : mark bp bi = put bp bi (BitVec.ofBool true) := by
  refine setByte_eq hbi fun k hk => ?_
  rw [mask_eq, BitVec.getLsbD_or, BitVec.getLsbD_twoPow]
  by_cases h : k = bi % 8
  · simp [h, Nat.mod_lt]
  · simp [h, Ne.symm h]

theorem unmark_eq (hbi : bi < 8 * BSIZE) : unmark bp bi = put bp bi (BitVec.ofBool false) := by
  refine setByte_eq hbi fun k hk => ?_
  rw [mask_eq, BitVec.getLsbD_and, BitVec.getLsbD_not, BitVec.getLsbD_twoPow]
  by_cases h : k = bi % 8
  · simp [h, Nat.mod_lt]
  · simp [h, Ne.symm h, hk]

/-! ## What the functions do -/

variable {size bmapstart}

/-- The blocks whose bits are clear. -/
def free (size bmapstart : Nat) (disk : Disk) : Set Nat :=
  {b | b < size ∧ bitAt bmapstart disk b = false}

/-- The disk after `balloc` returned the block `b`. -/
def taken (bmapstart : Nat) (disk : Disk) (b : Nat) : Disk :=
  update (setBitAt bmapstart disk b true) b 0

/-- Block `k * BPB + bi` has bit `bi` of the `k`-th block of the map. -/
theorem bitmap_index (k : Nat) {bi : Nat} (h : bi < BPB) :
    (k * BPB + bi) / BPB = k * BPB / BPB ∧ (k * BPB + bi) % BPB = bi := by
  rw [Nat.mul_comm k BPB, Nat.mul_add_div (by decide), Nat.mul_add_mod, Nat.div_eq_of_lt h,
    Nat.mod_eq_of_lt h, Nat.mul_div_cancel_left _ (by decide)]
  exact ⟨rfl, rfl⟩

theorem isFree_iff (disk : Disk) (k : Nat) {bi : Nat} (h : bi < BPB) :
    isFree (disk (BBLOCK bmapstart (k * BPB))) bi = !bitAt bmapstart disk (k * BPB + bi) := by
  obtain ⟨hdiv, hmod⟩ := bitmap_index k h
  rw [isFree_eq]
  unfold bitAt BBLOCK
  rw [hdiv, hmod]

theorem offset_lt {n b c : Nat} (hb : b ≤ c) (hn : c < b + n) (hc : c < size) :
    c - b < min n (size - b) := by
  omega

/-- The first free block from `b` on is the least one, if none before `b` is
    free. -/
theorem isLeast_found {disk : Disk} {n b bi : Nat}
    (hused : ∀ c, c < b → c < size → bitAt bmapstart disk c = true) (hlt : bi < min n (size - b))
    (hbit : bitAt bmapstart disk (b + bi) = false)
    (hmin : ∀ j, j < bi → bitAt bmapstart disk (b + j) = true) :
    IsLeast (free size bmapstart disk) (b + bi) := by
  refine ⟨⟨by omega, hbit⟩, fun c hc => ?_⟩
  by_contra hcb
  have hmarked : bitAt bmapstart disk c = true := by
    by_cases hbc : c < b
    · exact hused c hbc hc.1
    · have h := hmin (c - b) (by omega)
      rwa [Nat.add_sub_cancel' (Nat.not_lt.mp hbc)] at h
  rw [hc.2] at hmarked
  exact Bool.false_ne_true hmarked

/-- The outer loop of `balloc`: the blocks below `k * BPB` have been found in
    use. -/
theorem wp_balloc_from {Q : Nat → FsState → Prop} (hlog : Logs E s)
    (hfull : free size bmapstart s.disk = ∅ → E "balloc: out of blocks")
    (hQ : ∀ b, IsLeast (free size bmapstart s.disk) b → Q b { s with disk := taken bmapstart s.disk b })
    (fuel k : Nat) (hused : ∀ c, c < k * BPB → c < size → bitAt bmapstart s.disk c = true)
    (hfuel : size ≤ (k + fuel) * BPB) :
    wp (balloc_from size bmapstart fuel (k * BPB)) E Q s := by
  have hnone : ∀ n, size ≤ n → (∀ c, c < n → c < size → bitAt bmapstart s.disk c = true) →
      free size bmapstart s.disk = ∅ := by
    intro n hn hall
    refine Set.eq_empty_of_forall_notMem fun c hc => ?_
    have hbit := hall c (lt_of_lt_of_le hc.1 hn) hc.1
    rw [hc.2] at hbit
    exact Bool.false_ne_true hbit
  induction fuel generalizing k with
  | zero => exact hfull (hnone _ hfuel hused)
  | succ fuel ih =>
    unfold balloc_from
    by_cases hk : k * BPB < size
    · rw [if_pos hk]
      simp only [wp_bind, wp_get]
      split
      · next bi hfind =>
        obtain ⟨-, hlt, hp, hmin⟩ := firstFrom_eq_some.mp hfind
        have hbi : bi < BPB := lt_of_lt_of_le (by rwa [Nat.zero_add] at hlt) (Nat.min_le_left _ _)
        rw [isFree_iff _ _ hbi, Bool.not_eq_true'] at hp
        rw [wp_bind]
        refine wp_log_write hlog ?_
        rw [wp_bind]
        refine wp_log_write hlog ?_
        rw [wp_pure]
        have hset : update s.disk (BBLOCK bmapstart (k * BPB))
            (mark (s.disk (BBLOCK bmapstart (k * BPB))) bi) =
            setBitAt bmapstart s.disk (k * BPB + bi) true := by
          obtain ⟨hdiv, hmod⟩ := bitmap_index k hbi
          rw [mark_eq hbi]
          unfold setBitAt BBLOCK
          rw [hdiv, hmod]
        simp only [hset]
        refine hQ _ (isLeast_found hused (by rwa [Nat.zero_add] at hlt) hp fun j hj => ?_)
        have hbit := hmin j (Nat.zero_le _) hj
        rw [isFree_iff _ _ (hj.trans hbi)] at hbit
        simpa using hbit
      · next hfind =>
        rw [← Nat.add_one_mul]
        refine ih (k + 1) (fun c hc hlt => ?_) (by rwa [show k + 1 + fuel = k + (fuel + 1) by omega])
        by_cases hck : c < k * BPB
        · exact hused c hck hlt
        · rw [Nat.add_one_mul] at hc
          have hoff := offset_lt (Nat.not_lt.mp hck) hc hlt
          have hbit := firstFrom_eq_none.mp hfind (c - k * BPB) (Nat.zero_le _) (by rwa [Nat.zero_add])
          rw [isFree_iff _ _ (lt_of_lt_of_le hoff (Nat.min_le_left _ _)),
            Nat.add_sub_cancel' (Nat.not_lt.mp hck)] at hbit
          simpa using hbit
    · rw [if_neg hk]
      exact hfull (hnone _ (Nat.not_lt.mp hk) hused)

/-- `balloc` returns the least free block, zeroed, or there is none. -/
theorem wp_balloc {Q : Nat → FsState → Prop} (hlog : Logs E s)
    (hfull : free size bmapstart s.disk = ∅ → E "balloc: out of blocks")
    (hQ : ∀ b, IsLeast (free size bmapstart s.disk) b → Q b { s with disk := taken bmapstart s.disk b }) :
    wp (balloc size bmapstart) E Q s := by
  have hfuel : size ≤ (0 + (size / BPB + 1)) * BPB := by
    simp only [BPB, BSIZE]
    omega
  have h := wp_balloc_from hlog hfull hQ (size / BPB + 1) 0 (by simp) hfuel
  rwa [Nat.zero_mul] at h

theorem balloc_of_isLeast {b : Nat} (htrans : 0 < s.outstanding)
    (hb : IsLeast (free size bmapstart s.disk) b) :
    balloc size bmapstart s = .ok b { s with disk := taken bmapstart s.disk b } := by
  have hwp : wp (balloc size bmapstart) (fun _ => False)
      (fun b' s' => b' = b ∧ s' = { s with disk := taken bmapstart s.disk b }) s := by
    refine wp_balloc (fun h => absurd h (by omega)) (fun hempty => ?_) fun b' hb' => ?_
    · have hin := hb.1
      rw [hempty] at hin
      exact hin
    · obtain rfl := hb'.unique hb
      exact ⟨rfl, rfl⟩
  obtain ⟨b', s', hrun, rfl, rfl⟩ := hwp.returns
  exact hrun

theorem wp_bfree {b : Nat} (hlog : Logs E s) (hb : bitAt bmapstart s.disk b = true)
    (hQ : Q () { s with disk := setBitAt bmapstart s.disk b false }) :
    wp (bfree bmapstart b) E Q s := by
  have hmod : b % BPB < 8 * BSIZE := Nat.mod_lt b (by decide)
  have hused : isFree (s.disk (BBLOCK bmapstart b)) (b % BPB) = false := by
    rw [isFree_eq, show (s.disk (BBLOCK bmapstart b)).getLsbD (b % BPB) = bitAt bmapstart s.disk b from rfl, hb]
    rfl
  unfold bfree
  simp only [wp_bind, wp_get, hused, unmark_eq hmod]
  exact wp_log_write hlog hQ

/-! ## The set of free blocks -/

/-- The blocks of the map. -/
def InMap (size bmapstart b : Nat) : Prop :=
  bmapstart ≤ b ∧ b < bmapstart + (size + BPB - 1) / BPB

/-- The bits of the map. -/
def nbits (size : Nat) : Nat := (size + BPB - 1) / BPB * BPB

/-- The blocks of the map are themselves marked as in use. -/
def MapMarked (size bmapstart : Nat) (disk : Disk) : Prop :=
  ∀ b, b < size → InMap size bmapstart b → bitAt bmapstart disk b = true

variable {disk : Disk} {b c : Nat}

theorem lt_nbits (h : b < size) : b < nbits size := by
  simp only [nbits, BPB, BSIZE]
  omega

theorem inMap_BBLOCK (h : b < nbits size) : InMap size bmapstart (BBLOCK bmapstart b) := by
  have hdiv : b / BPB < (size + BPB - 1) / BPB := Nat.div_lt_of_lt_mul (by rwa [nbits, Nat.mul_comm] at h)
  unfold InMap BBLOCK
  exact ⟨Nat.le_add_left _ _, by rw [Nat.add_comm]; exact Nat.add_lt_add_left hdiv _⟩

theorem MapMarked.not_inMap (h : MapMarked size bmapstart disk) (hb : b ∈ free size bmapstart disk) :
    ¬ InMap size bmapstart b := by
  intro hin
  have hbit := h b hb.1 hin
  rw [hb.2] at hbit
  exact Bool.false_ne_true hbit

/-- Taking a block marks that block. -/
theorem bitAt_taken (hb : ¬ InMap size bmapstart b) (hc : c < nbits size) :
    bitAt bmapstart (taken bmapstart disk b) c = if c = b then true else bitAt bmapstart disk c := by
  have hne : BBLOCK bmapstart c ≠ b := by
    rintro rfl
    exact hb (inMap_BBLOCK hc)
  rw [← bitAt_setBitAt]
  show (taken bmapstart disk b (BBLOCK bmapstart c)).getLsbD (c % BPB) = _
  rw [taken, update_of_ne hne]
  rfl

/-- Taking a block of the map clears all its bits. -/
theorem bitAt_taken_map (h : BBLOCK bmapstart c = b) : bitAt bmapstart (taken bmapstart disk b) c = false := by
  show (taken bmapstart disk b (BBLOCK bmapstart c)).getLsbD (c % BPB) = false
  rw [h, taken, update_self]
  exact BitVec.getLsbD_zero

theorem setBitAt_of_not_inMap (hb : b < size) (v : Bool) (hc : ¬ InMap size bmapstart c) :
    setBitAt bmapstart disk b v c = disk c := by
  have hmap : c ≠ BBLOCK bmapstart b := by
    rintro rfl
    exact hc (inMap_BBLOCK (lt_nbits hb))
  exact update_of_ne hmap _ _

theorem taken_of_not_inMap (hb : b < size) (hne : c ≠ b) (hc : ¬ InMap size bmapstart c) :
    taken bmapstart disk b c = disk c := by
  unfold taken
  rw [update_of_ne hne, setBitAt_of_not_inMap hb true hc]

/-- Calls of the two functions. -/
inductive Call where
  | balloc
  | bfree (b : Nat)

variable (size bmapstart) in
def Call.run : Call → Op FsState (Option Nat)
  | .balloc => do
    let b ← Bytes.balloc size bmapstart
    pure (some b)
  | .bfree b => do
    Bytes.bfree bmapstart b
    pure none

variable (size bmapstart) in
def runAll : List Call → Op FsState (List (Option Nat))
  | [] => pure []
  | c :: cs => do
    let r ← c.run size bmapstart
    let rs ← runAll cs
    pure (r :: rs)

/-- What the calls return, and what they leave, for a set of free blocks from
    which `balloc` takes the least and to which `bfree` adds an element of
    `U`. -/
inductive Acts (U : Set Nat) : Set Nat → List Call → List (Option Nat) → Set Nat → Prop
  | nil (F : Set Nat) : Acts U F [] [] F
  | balloc {F F' : Set Nat} {b : Nat} {cs : List Call} {rs : List (Option Nat)} (hb : IsLeast F b)
      (hrest : Acts U (F \ {b}) cs rs F') : Acts U F (.balloc :: cs) (some b :: rs) F'
  | bfree {F F' : Set Nat} {b : Nat} {cs : List Call} {rs : List (Option Nat)} (hU : b ∈ U) (hb : b ∉ F)
      (hrest : Acts U (insert b F) cs rs F') : Acts U F (.bfree b :: cs) (none :: rs) F'

theorem free_taken (hmap : MapMarked size bmapstart disk) (hb : b ∈ free size bmapstart disk) :
    free size bmapstart (taken bmapstart disk b) = free size bmapstart disk \ {b} ∧
      MapMarked size bmapstart (taken bmapstart disk b) := by
  have hbit : ∀ c, c < size → bitAt bmapstart (taken bmapstart disk b) c =
      if c = b then true else bitAt bmapstart disk c :=
    fun c hc => bitAt_taken (hmap.not_inMap hb) (lt_nbits hc)
  constructor
  · ext c
    by_cases hcb : c = b
    · subst hcb
      simp [free, hbit c hb.1]
    · by_cases hc : c < size
      · simp [free, hbit c hc, hcb]
      · simp [free, hc]
  · intro c hc hin
    rw [hbit c hc]
    split_ifs
    · rfl
    · exact hmap c hc hin

theorem free_setBitAt (hmap : MapMarked size bmapstart disk) (hb : b < size)
    (hin : ¬ InMap size bmapstart b) :
    free size bmapstart (setBitAt bmapstart disk b false) = insert b (free size bmapstart disk) ∧
      MapMarked size bmapstart (setBitAt bmapstart disk b false) := by
  constructor
  · ext c
    by_cases hcb : c = b
    · subst hcb
      simp [free, bitAt_setBitAt, hb]
    · simp [free, bitAt_setBitAt, hcb]
  · intro c hc hc'
    have hcb : c ≠ b := by
      rintro rfl
      exact hin hc'
    rw [bitAt_setBitAt, if_neg hcb]
    exact hmap c hc hc'

/-- A sequence of calls does to the map what it does to the set. -/
theorem wp_runAll {F F' : Set Nat} {calls : List Call} {rs : List (Option Nat)}
    (h : Acts {b | b < size ∧ ¬ InMap size bmapstart b} F calls rs F') (s : FsState)
    (htrans : 0 < s.outstanding) (hmap : MapMarked size bmapstart s.disk)
    (hF : free size bmapstart s.disk = F) :
    wp (runAll size bmapstart calls) (fun _ => False)
      (fun r s' => r = rs ∧ free size bmapstart s'.disk = F') s := by
  induction h generalizing s with
  | nil F => exact ⟨rfl, hF⟩
  | @balloc F F' b cs rs hb hrest ih =>
    unfold runAll Call.run
    simp only [wp_bind, wp_pure]
    refine wp_balloc (fun h => absurd h (by omega)) (fun hempty => ?_) fun b' hb' => ?_
    · rw [← hF, hempty] at hb
      exact hb.1
    · rw [hF] at hb'
      obtain rfl := hb'.unique hb
      obtain ⟨hfree, hmap'⟩ := free_taken hmap (b := b') (by rw [hF]; exact hb.1)
      refine (ih { s with disk := taken bmapstart s.disk b' } htrans hmap' (by rw [hfree, hF])).imp ?_
      rintro r s' ⟨rfl, hs'⟩
      exact ⟨rfl, hs'⟩
  | @bfree F F' b cs rs hU hb hrest ih =>
    have hbit : bitAt bmapstart s.disk b = true := by
      rw [← hF] at hb
      by_contra hne
      exact hb ⟨hU.1, by simpa using hne⟩
    unfold runAll Call.run
    simp only [wp_bind, wp_pure]
    refine wp_bfree (fun h => absurd h (by omega)) hbit ?_
    obtain ⟨hfree, hmap'⟩ := free_setBitAt hmap hU.1 hU.2
    refine (ih { s with disk := setBitAt bmapstart s.disk b false } htrans hmap' (by rw [hfree, hF])).imp ?_
    rintro r s' ⟨rfl, hs'⟩
    exact ⟨rfl, hs'⟩

/-- Inside a transaction and with the blocks of the map marked, `balloc`
    returns the least free block, marks it and zeroes it; `bfree` clears the
    bit that `balloc` sets; a sequence of calls acts on the set of free blocks;
    and no two blocks share a bit. -/
theorem bitmap_is_set (size bmapstart : Nat) (s : FsState) (htrans : 0 < s.outstanding)
    (hmap : MapMarked size bmapstart s.disk) :
    ((free size bmapstart s.disk).Nonempty → ∃ b, IsLeast (free size bmapstart s.disk) b ∧
      ∃ s', balloc size bmapstart s = .ok b s' ∧
        (∀ c, c < nbits size →
          bitAt bmapstart s'.disk c = if c = b then true else bitAt bmapstart s.disk c) ∧
        s'.disk b = 0 ∧ (∀ x, x ≠ b → ¬ InMap size bmapstart x → s'.disk x = s.disk x) ∧
        s' = { s with disk := s'.disk }) ∧
    (∀ b, b < size → bitAt bmapstart s.disk b = true → ∃ s', bfree bmapstart b s = .ok () s' ∧
        (∀ c, bitAt bmapstart s'.disk c = if c = b then false else bitAt bmapstart s.disk c) ∧
        (∀ x, ¬ InMap size bmapstart x → s'.disk x = s.disk x) ∧ s' = { s with disk := s'.disk }) ∧
    (∀ calls rs F, Acts {b | b < size ∧ ¬ InMap size bmapstart b} (free size bmapstart s.disk) calls rs F →
      ∃ s', runAll size bmapstart calls s = .ok rs s' ∧ free size bmapstart s'.disk = F) ∧
    ∀ b c, BBLOCK bmapstart b = BBLOCK bmapstart c → b % BPB / 8 = c % BPB / 8 →
      mask (b % BPB) = mask (c % BPB) → b = c := by
  have hlog : Logs (fun _ => False) s := fun h => absurd h (by omega)
  refine ⟨fun hne => ?_, fun b hb hbit => ?_, fun calls rs F hacts => ?_, fun b c hblock hbyte hmask => ?_⟩
  · obtain ⟨b, hb⟩ : ∃ b, IsLeast (free size bmapstart s.disk) b :=
      ⟨_, Nat.sInf_mem hne, fun c hc => Nat.sInf_le hc⟩
    have hin := hmap.not_inMap hb.1
    exact ⟨b, hb, _, balloc_of_isLeast htrans hb, fun c hc => bitAt_taken hin hc, update_self _ _ _,
      fun x hx hx' => taken_of_not_inMap hb.1.1 hx hx', rfl⟩
  · have hwp : wp (bfree bmapstart b) (fun _ => False)
        (fun _ s' => s' = { s with disk := setBitAt bmapstart s.disk b false }) s :=
      wp_bfree hlog hbit rfl
    obtain ⟨⟨⟩, s', hrun, rfl⟩ := hwp.returns
    exact ⟨_, hrun, bitAt_setBitAt _ _ _ _, fun x hx => setBitAt_of_not_inMap hb false hx, rfl⟩
  · obtain ⟨r, s', hrun, rfl, hs'⟩ := (wp_runAll hacts s htrans hmap rfl).returns
    exact ⟨s', hrun, hs'⟩
  · have hdiv : b / BPB = c / BPB := Nat.add_right_cancel hblock
    exact eq_of_div_mod hdiv (eq_of_div_mod hbyte (mask_inj hmask))

/-- The map of a disk of 1000 blocks at block 58, and nothing else. -/
def withMap (map : Block) : FsState where
  disk := update (fun _ => 0) 58 map
  outstanding := 1
  icache := fun _ => { Dinode.zero with dev := 0, inum := 0, ref := 0, lock := none, valid := false }
  ftable := fun _ => { type := .FD_NONE, ref := 0, readable := false, writable := false, ip := 0, off := 0 }
  proc := fun _ => { ofile := fun _ => none, cwd := none }

/-- The blocks up to the map are in use. -/
theorem bitmap_is_set_mkfs :
    ∃ b, IsLeast (free 1000 58 (withMap (2 ^ 59 - 1)).disk) b ∧
      ∃ s', balloc 1000 58 (withMap (2 ^ 59 - 1)) = .ok b s' ∧ s'.disk b = 0 := by
  have hmap : MapMarked 1000 58 (withMap (2 ^ 59 - 1)).disk := by
    intro b _ hin
    have hb : b = 58 := by
      simp only [InMap, BPB, BSIZE] at hin
      omega
    subst hb
    decide +kernel
  obtain ⟨b, hb, s', hrun, -, hzero, -⟩ :=
    (bitmap_is_set 1000 58 (withMap (2 ^ 59 - 1)) (by decide) hmap).1 ⟨59, by decide, by decide +kernel⟩
  exact ⟨b, hb, s', hrun, hzero⟩

/-- The blocks before the map are in use, the one of the map is not. `balloc`
    returns it and zeroes it, and no bit is set afterwards. -/
theorem balloc_wipes_map :
    IsLeast (free 1000 58 (withMap (2 ^ 58 - 1)).disk) 58 ∧
    ∃ s', balloc 1000 58 (withMap (2 ^ 58 - 1)) = .ok 58 s' ∧
      bitAt 58 (withMap (2 ^ 58 - 1)).disk 0 = true ∧ bitAt 58 s'.disk 0 = false ∧
      bitAt 58 s'.disk 58 = false := by
  have hused : ∀ c : Fin 58, bitAt 58 (withMap (2 ^ 58 - 1)).disk c = true := by decide +kernel
  have hleast : IsLeast (free 1000 58 (withMap (2 ^ 58 - 1)).disk) 58 :=
    isLeast_found (b := 58) (n := 1) (fun c hc _ => hused ⟨c, hc⟩) (show 0 < _ by decide) (by decide +kernel)
      (fun j hj => absurd hj (Nat.not_lt_zero j))
  refine ⟨hleast, _, balloc_of_isLeast (by decide) hleast, by decide +kernel, ?_, ?_⟩
  · exact bitAt_taken_map (by decide)
  · exact bitAt_taken_map (by decide)

end Bytes

/-! ## The functions of the file system -/

variable {sb : Superblock}

/-- A search that also looks at a bound is one that stops at the bound. -/
theorem firstFrom_bounded (p : Nat → Bool) (n b size : Nat) :
    firstFrom (fun j => decide (b + j < size) && p j) n 0 = firstFrom p (min n (size - b)) 0 := by
  cases h : firstFrom p (min n (size - b)) 0 with
  | none =>
    rw [firstFrom_eq_none] at h ⊢
    intro j _ hj
    by_cases hlt : b + j < size
    · simp [h j (Nat.zero_le _) (by omega)]
    · simp [hlt]
  | some i =>
    rw [firstFrom_eq_some] at h ⊢
    obtain ⟨-, hi, hp, hmin⟩ := h
    refine ⟨Nat.zero_le _, by omega, ?_, fun j hj hji => ?_⟩
    · simp [hp, show b + i < size by omega]
    · simp [hmin j hj hji]

theorem BBLOCK_eq (sb : Superblock) (b : Nat) : sb.BBLOCK b = Bytes.BBLOCK sb.bmapstart b := rfl

theorem balloc_from_eq (sb : Superblock) (fuel b : Nat) :
    balloc_from sb fuel b = Bytes.balloc_from sb.size sb.bmapstart fuel b := by
  induction fuel generalizing b with
  | zero => rfl
  | succ fuel ih =>
    unfold balloc_from Bytes.balloc_from
    split_ifs with hb
    · funext s
      rw [Op.get_bind, Op.get_bind, ← firstFrom_bounded, ih, BBLOCK_eq]
      simp only [Bytes.isFree_eq]
      cases hfind : firstFrom (fun bi => decide (b + bi < sb.size) &&
          !(s.disk (Bytes.BBLOCK sb.bmapstart b)).getLsbD bi) BPB 0 with
      | none => rfl
      | some bi =>
        obtain ⟨-, hlt, -, -⟩ := firstFrom_eq_some.mp hfind
        dsimp only
        rw [Bytes.mark_eq (by rwa [Nat.zero_add] at hlt)]
    · rfl

theorem balloc_eq (sb : Superblock) : balloc sb = Bytes.balloc sb.size sb.bmapstart :=
  balloc_from_eq sb _ _

theorem bfree_eq (sb : Superblock) (b : Nat) : bfree sb b = Bytes.bfree sb.bmapstart b := by
  have hmod : b % BPB < 8 * BSIZE := Nat.mod_lt b (by decide)
  unfold bfree Bytes.bfree
  funext s
  rw [Op.get_bind, Op.get_bind, BBLOCK_eq, Bytes.isFree_eq, Bytes.unmark_eq hmod]
  simp only [Bool.not_eq_true']

end Xv6.Fs
