import Xv6.Fs.ReadWrite
import Xv6.Fs.Syscall

/-! # Files refine byte arrays

    A set of regular files, accessed by `readi` and `writei` calls in any
    order. The abstract machine has a byte string per file: a read returns a
    slice of it, a write overwrites a slice and extends the string as needed.
    Any sequence of calls on the files returns what the abstract machine
    returns and leaves the contents it leaves, provided the free map has
    blocks enough for the bytes written.
-/

namespace Xv6.Fs

open Ownership Op Function

/-- A call of `readi` or `writei`. -/
inductive Rw where
  | read (ip : Slot) (off n : BitVec 32)
  | write (ip : Slot) (src : Nat → Byte) (off n : BitVec 32)

/-- What it returns; `none` is the result -1. -/
inductive RwOut where
  | data (r : Option (List Byte))
  | wrote (r : Option (BitVec 32))

/-- The result -1. -/
def RwOut.failed : RwOut → Bool
  | .data r => r.isNone
  | .wrote r => r.isNone

namespace Rw

/-- The file the call is about. -/
def file : Rw → Slot
  | .read ip _ _ => ip
  | .write ip _ _ _ => ip

/-- The call, made by process `p`. -/
def exec (sb : Superblock) (p : Pid) : Rw → Op FsState RwOut
  | .read ip off n => do
    let r ← (readi sb p none ip off n).run
    pure (.data r)
  | .write ip src off n => do
    let r ← (writei sb p ip src off n).run
    pure (.wrote r)

/-- The calls one after the other, with their results. -/
def execAll (sb : Superblock) (p : Pid) : List Rw → Op FsState (List RwOut)
  | [] => pure []
  | c :: cs => do
    let out ← c.exec sb p
    let outs ← execAll sb p cs
    pure (out :: outs)

/-! ## The abstract machine -/

/-- A read or a write of byte strings: the result and the new strings. -/
def abs (c : Slot → List Byte) : Rw → RwOut × (Slot → List Byte)
  | .read ip off n =>
    if (c ip).length < off.toNat ∨ 2 ^ 32 ≤ off.toNat + n.toNat then (.data none, c)
    else (.data (some (((c ip).drop off.toNat).take n.toNat)), c)
  | .write ip src off n =>
    if (c ip).length < off.toNat ∨ 2 ^ 32 ≤ off.toNat + n.toNat ∨
        MAXFILE * BSIZE < off.toNat + n.toNat then (.wrote none, c)
    else (.wrote (some n),
      update c ip (splice (c ip) off.toNat ((List.range n.toNat).map src)))

/-- The abstract calls one after the other. -/
def absAll (c : Slot → List Byte) : List Rw → List RwOut × (Slot → List Byte)
  | [] => ([], c)
  | op :: ops => ((op.abs c).1 :: (absAll (op.abs c).2 ops).1, (absAll (op.abs c).2 ops).2)

/-- Blocks the call may use up: those of the bytes it writes, and none if it
    only reads or is refused. -/
def need (c : Slot → List Byte) (op : Rw) : Nat :=
  match (op.abs c).1 with
  | .wrote (some n) => n.toNat / BSIZE + 3
  | _ => 0

/-- Blocks the calls may use up together. -/
def needAll (c : Slot → List Byte) : List Rw → Nat
  | [] => 0
  | op :: ops => op.need c + needAll (op.abs c).2 ops

end Rw

/-! ## Refinement -/

variable (sb : Superblock)

/-- The inodes in the cache entries `F` are regular files whose blocks below
    their size are allocated and disjoint; a transaction is open. -/
structure Files (F : Set Slot) (s : FsState) : Prop where
  image : Image sb s.disk F fun ip => (s.icache ip).toDinode
  regular : ∀ ip ∈ F, (s.icache ip).type = T_FILE
  inum_lt : ∀ ip ∈ F, (s.icache ip).inum < sb.ninodes
  logged : 1 ≤ s.outstanding

/-- The byte string of the file in entry `ip`. -/
def FsState.contentsOf (s : FsState) (ip : Slot) : List Byte :=
  contents s.disk (s.icache ip).toDinode

variable {sb} {F : Set Slot} {s : FsState} {p : Pid} {ip : Slot} {c c' : Slot → List Byte}

theorem length_contents (disk : Disk) (d : Dinode) : (contents disk d).length = d.size.toNat := by
  simp [contents]

/-- `readi` and `writei` on inodes that are not devices. -/
theorem readi_run (con : Option (List Byte)) (h : (s.icache ip).type ≠ T_DEV) (off n : BitVec 32) :
    (readi sb p con ip off n).run s = readi_blocks sb ip off n s := by
  unfold readi
  rw [Prog.run_bind]
  show (if (s.icache ip).type = T_DEV then _ else step (readi_blocks sb ip off n)).run s = _
  rw [if_neg h]
  exact congrFun (Prog.run_atomic _ _) s

theorem writei_run (h : (s.icache ip).type ≠ T_DEV) (src : Nat → Byte) (off n : BitVec 32) :
    (writei sb p ip src off n).run s = writei_blocks sb ip src off n s := by
  unfold writei
  rw [Prog.run_bind]
  show (if (s.icache ip).type = T_DEV then _
    else Prog.atomic Act.write (writei_blocks sb ip src off n)).run s = _
  rw [if_neg h]
  exact congrFun (Prog.run_atomic _ _) s

theorem span_le (off n : Nat) : span off n ≤ n / BSIZE + 2 := by
  unfold span
  simp only [BSIZE]
  split <;> omega

/-- What one call does. -/
structure RwStep (sb : Superblock) (F : Set Slot) (c : Rw) (s s' : FsState) : Prop where
  files : Files sb F s'
  contents : ∀ ip ∈ F, s'.contentsOf ip = (c.abs s.contentsOf).2 ip
  failed : (c.abs s.contentsOf).1.failed = true → s' = s
  free : free sb.size (bit sb s.disk) ≤ free sb.size (bit sb s'.disk) + c.need s.contentsOf

theorem Files.read (hF : Files sb F s) (hip : ip ∈ F) (off n : BitVec 32) :
    wp ((Rw.read ip off n).exec sb p) (fun _ => False) (fun out s' =>
      out = ((Rw.read ip off n).abs s.contentsOf).1 ∧
      RwStep sb F (.read ip off n) s s') s := by
  have hdev : (s.icache ip).type ≠ T_DEV := by rw [hF.regular ip hip]; decide
  have hlen : (s.contentsOf ip).length = (s.icache ip).size.toNat := length_contents _ _
  unfold Rw.exec
  rw [wp_bind]
  unfold wp
  rw [readi_run none hdev]
  show wp (readi_blocks sb ip off n) _ _ s
  refine (wp_readi_blocks hF.image hip rfl off n).imp ?_
  rintro r s' ⟨rfl, rfl⟩
  simp only [Rw.abs, hlen]
  by_cases hbad : (s'.icache ip).size.toNat < off.toNat ∨ 2 ^ 32 ≤ off.toNat + n.toNat
  · rw [if_pos hbad, if_pos hbad]
    refine ⟨rfl, hF, fun j _ => ?_, fun _ => rfl, by simp⟩
    simp only [Rw.abs, hlen, if_pos hbad]
  · rw [if_neg hbad, if_neg hbad]
    refine ⟨rfl, hF, fun j _ => ?_, fun _ => rfl, by simp⟩
    simp only [Rw.abs, hlen, if_neg hbad]

theorem Files.write (hF : Files sb F s) (hip : ip ∈ F) (src : Nat → Byte) (off n : BitVec 32)
    (hneed : (Rw.write ip src off n).need s.contentsOf ≤ free sb.size (bit sb s.disk)) :
    wp ((Rw.write ip src off n).exec sb p) (fun _ => False) (fun out s' =>
      out = ((Rw.write ip src off n).abs s.contentsOf).1 ∧
      RwStep sb F (.write ip src off n) s s') s := by
  have hdev : (s.icache ip).type ≠ T_DEV := by rw [hF.regular ip hip]; decide
  have hlen : (s.contentsOf ip).length = (s.icache ip).size.toNat := length_contents _ _
  have hspan := span_le off.toNat n.toNat
  have hlt : MAXFILE * BSIZE < 2 ^ 32 := by decide
  have habs (hoff : off.toNat ≤ (s.icache ip).size.toNat)
      (hmax : off.toNat + n.toNat ≤ MAXFILE * BSIZE) :
      (Rw.write ip src off n).abs s.contentsOf = (.wrote (some n),
        update s.contentsOf ip
          (splice (s.contentsOf ip) off.toNat ((List.range n.toNat).map src))) := by
    unfold Rw.abs
    simp only [hlen]
    rw [if_neg (by omega)]
  unfold Rw.exec
  rw [wp_bind]
  unfold wp
  rw [writei_run hdev]
  show wp (writei_blocks sb ip src off n) _ _ s
  refine wp_writei_blocks (a := ip) (fun h => absurd hF.logged (by omega)) hF.image hip rfl
    (hF.inum_lt ip hip) off n (fun hoff hmax _ _ _ h => ?_) ?_ ?_
  · rw [Rw.need, habs hoff hmax] at hneed
    simp only at hneed
    omega
  · intro hbad
    have hbad' : (s.icache ip).size.toNat < off.toNat ∨ 2 ^ 32 ≤ off.toNat + n.toNat ∨
        MAXFILE * BSIZE < off.toNat + n.toNat :=
      hbad.imp_right Or.inr
    have habs : (Rw.write ip src off n).abs s.contentsOf = (.wrote none, s.contentsOf) := by
      unfold Rw.abs
      simp only [hlen]
      rw [if_pos hbad']
    show RwOut.wrote none = _ ∧ _
    refine ⟨by rw [habs], hF, fun j _ => by rw [habs], fun _ => rfl, by omega⟩
  · intro disk' D' hoff hmax hw
    have habs := habs hoff hmax
    -- the copies in the cache are the inodes `D'`
    have hcopy : (fun j => ((s.withFile ip disk' (D' ip)).icache j).toDinode) = D' := by
      funext j
      by_cases hj : j = ip
      · rw [hj, withFile_copy]
      · rw [withFile_of_ne _ _ _ _ hj, hw.others j hj]
    obtain ⟨addrs, size, hfields⟩ := hw.fields
    show RwOut.wrote (some n) = _ ∧ _
    refine ⟨by rw [habs], ⟨?_, ?_, ?_, hF.logged⟩, ?_, ?_, ?_⟩
    · rw [hcopy]
      exact hw.image
    · intro j hj
      by_cases hji : j = ip
      · rw [hji, withFile_copy, hfields]
        exact hF.regular ip hip
      · rw [withFile_of_ne _ _ _ _ hji]
        exact hF.regular j hj
    · intro j hj
      by_cases hji : j = ip
      · rw [hji, withFile_inum]
        exact hF.inum_lt ip hip
      · rw [withFile_of_ne _ _ _ _ hji]
        exact hF.inum_lt j hj
    · intro j hj
      rw [habs]
      show _ = update s.contentsOf ip _ j
      unfold FsState.contentsOf
      by_cases hji : j = ip
      · subst hji
        rw [withFile_copy, withFile_disk, update_self, hw.contents_eq]
      · rw [withFile_of_ne _ _ _ _ hji, withFile_disk, update_of_ne hji,
          hw.contents_others j hj hji]
    · intro hfail
      rw [habs] at hfail
      simp [RwOut.failed] at hfail
    · have := hw.free
      rw [Rw.need, habs]
      show free sb.size (bit sb s.disk) ≤
        free sb.size (bit sb disk') + (n.toNat / BSIZE + 3)
      omega

/-- One call, whichever it is. -/
theorem Files.exec (hF : Files sb F s) (c : Rw) (hc : c.file ∈ F)
    (hneed : c.need s.contentsOf ≤ free sb.size (bit sb s.disk)) :
    ∃ s', c.exec sb p s = .ok (c.abs s.contentsOf).1 s' ∧ RwStep sb F c s s' := by
  cases c with
  | read ip off n =>
    obtain ⟨out, s', hrun, rfl, hstep⟩ := (hF.read (p := p) hc off n).returns
    exact ⟨s', hrun, hstep⟩
  | write ip src off n =>
    obtain ⟨out, s', hrun, rfl, hstep⟩ := (hF.write (p := p) hc src off n hneed).returns
    exact ⟨s', hrun, hstep⟩

/-- The abstract machine looks at the files it works on only. -/
theorem Rw.abs_congr (op : Rw) (hop : op.file ∈ F) (h : ∀ ip ∈ F, c ip = c' ip) :
    (op.abs c).1 = (op.abs c').1 ∧ ∀ ip ∈ F, (op.abs c).2 ip = (op.abs c').2 ip := by
  cases op with
  | read ip off n =>
    simp only [Rw.abs, h ip hop]
    split <;> exact ⟨rfl, h⟩
  | write ip src off n =>
    simp only [Rw.abs, h ip hop]
    split
    · exact ⟨rfl, h⟩
    · refine ⟨rfl, fun j hj => ?_⟩
      show update c ip _ j = update c' ip _ j
      by_cases hji : j = ip
      · rw [hji, update_self, update_self]
      · rw [update_of_ne hji, update_of_ne hji]
        exact h j hj

theorem Rw.absAll_congr (ops : List Rw) (hops : ∀ op ∈ ops, op.file ∈ F)
    (h : ∀ ip ∈ F, c ip = c' ip) :
    (absAll c ops).1 = (absAll c' ops).1 ∧ needAll c ops = needAll c' ops ∧
      ∀ ip ∈ F, (absAll c ops).2 ip = (absAll c' ops).2 ip := by
  induction ops generalizing c c' with
  | nil => exact ⟨rfl, rfl, h⟩
  | cons op ops ih =>
    obtain ⟨h1, h2⟩ := op.abs_congr (hops op (by simp)) h
    obtain ⟨h3, h4, h5⟩ := ih (fun o ho => hops o (by simp [ho])) h2
    refine ⟨by unfold absAll; rw [h1, h3], ?_, h5⟩
    unfold needAll need
    rw [h1, h4]

theorem Rw.needAll_append (c : Slot → List Byte) (pre ops : List Rw) :
    needAll c (pre ++ ops) = needAll c pre + needAll (absAll c pre).2 ops := by
  induction pre generalizing c with
  | nil => simp [needAll, absAll]
  | cons op pre ih =>
    rw [List.cons_append, needAll, ih, needAll, absAll, Nat.add_assoc]

/-- The calls one after the other. -/
theorem Files.execAll (hF : Files sb F s) (ops : List Rw) (hops : ∀ op ∈ ops, op.file ∈ F)
    (hfree : Rw.needAll s.contentsOf ops ≤ free sb.size (bit sb s.disk)) :
    ∃ s', Rw.execAll sb p ops s = .ok (Rw.absAll s.contentsOf ops).1 s' ∧ Files sb F s' ∧
      (∀ ip ∈ F, s'.contentsOf ip = (Rw.absAll s.contentsOf ops).2 ip) ∧
      free sb.size (bit sb s.disk) ≤ free sb.size (bit sb s'.disk) + Rw.needAll s.contentsOf ops := by
  induction ops generalizing s with
  | nil => exact ⟨s, rfl, hF, fun _ _ => rfl, by simp⟩
  | cons op ops ih =>
    rw [Rw.needAll] at hfree ⊢
    have hops' : ∀ o ∈ ops, o.file ∈ F := fun o ho => hops o (by simp [ho])
    obtain ⟨s₁, hrun, hstep⟩ := hF.exec (p := p) op (hops op (by simp)) (by omega)
    have hf := hstep.free
    -- from here on the abstract machine runs on the strings of `s₁`
    obtain ⟨hout, hneed, hcont⟩ := Rw.absAll_congr ops hops' hstep.contents
    obtain ⟨s', hrun', hF', hc, hf'⟩ := ih hstep.files hops' (by omega)
    refine ⟨s', ?_, hF', fun ip hip => ?_, ?_⟩
    · unfold Rw.execAll
      rw [bind_of_ok hrun, bind_of_ok hrun', hout]
      rfl
    · rw [hc ip hip, hcont ip hip]
      rfl
    · omega

/-- **Files refine byte arrays.** Any sequence of `readi` and `writei` calls on
    regular files, with arbitrary 32-bit `off` and `n` and enough free
    blocks for the bytes the accepted writes write, returns what the abstract machine returns and leaves every file
    with the byte string that machine leaves it with; and whenever a call of
    the sequence returns -1, it changes nothing at all. -/
theorem files_refine_byte_arrays (sb : Superblock) (p : Pid) (F : Set Slot) (s : FsState)
    (hF : Files sb F s) (ops : List Rw) (hops : ∀ op ∈ ops, op.file ∈ F)
    (hfree : Rw.needAll s.contentsOf ops ≤ free sb.size (bit sb s.disk)) :
    (∃ s', Rw.execAll sb p ops s = .ok (Rw.absAll s.contentsOf ops).1 s' ∧ Files sb F s' ∧
      ∀ ip ∈ F, s'.contentsOf ip = (Rw.absAll s.contentsOf ops).2 ip) ∧
    ∀ pre op post, ops = pre ++ op :: post →
      ∃ outs s₁ s₂ out, Rw.execAll sb p pre s = .ok outs s₁ ∧ op.exec sb p s₁ = .ok out s₂ ∧
        (out.failed = true → s₂ = s₁) := by
  constructor
  · obtain ⟨s', hrun, hF', hc, _⟩ := hF.execAll (p := p) ops hops hfree
    exact ⟨s', hrun, hF', hc⟩
  · intro pre op post heq
    subst heq
    rw [Rw.needAll_append, Rw.needAll] at hfree
    obtain ⟨s₁, hrun, hF₁, hc, hf⟩ := hF.execAll (p := p) pre
      (fun o ho => hops o (by simp [ho])) (by omega)
    obtain ⟨_, hneed, _⟩ := Rw.absAll_congr [op] (by simpa using hops op (by simp)) hc
    simp only [Rw.needAll, Nat.add_zero] at hneed
    obtain ⟨s₂, hrun₂, hstep⟩ := hF₁.exec (p := p) op (hops op (by simp)) (by omega)
    exact ⟨_, s₁, s₂, _, hrun, hrun₂, hstep.failed⟩

/-- An empty regular file in cache entry 0, on a disk without other files. -/
def oneFile : FsState where
  disk := fun b => if b = 58 then BitVec.ofNat _ (2 ^ 59 - 1) else 0
  outstanding := 1
  icache := fun _ =>
    { Dinode.zero with
      type := T_FILE, dev := ROOTDEV, inum := 2, ref := 1, lock := some 0, valid := true }
  ftable := fun _ => ⟨.FD_NONE, 0, false, false, 0, 0⟩
  proc := fun _ => ⟨fun _ => none, none⟩

theorem oneFile_files : Files .mkfs {0} oneFile := by
  have hzero : ∀ κ, own oneFile.disk {0} (fun ip => (oneFile.icache ip).toDinode) κ = 0 := by
    intro κ
    unfold own
    split
    · have haddr : ∀ k, (oneFile.icache κ.1).toDinode.addr k = 0 := fun k => by
        show (BitRange.cell 32 (0#(32 * (NDIRECT + 1))) k).toNat = 0
        rw [BitRange.cell_zero]
        rfl
      unfold ptr
      simp [haddr]
    · rfl
  refine ⟨⟨⟨fun κ h => absurd (hzero κ) h, fun κ _ h => absurd (hzero κ) h,
    fun κ h => absurd (hzero κ) h⟩, ?_, by decide +kernel⟩, fun _ _ => rfl,
    fun _ _ => show 2 < 200 by decide, by decide⟩
  intro ip _ bn h
  exact absurd h (Nat.not_lt_zero _)

/-- Three bytes written to the empty file and two of them read back; a write
    whose end wraps around is refused, however large it is. -/
theorem files_refine_byte_arrays_abc :
    ∃ s', Rw.execAll .mkfs 0
        [.write 0 (fun i => BitVec.ofNat 8 (97 + i)) 0 3, .write 0 (fun _ => 0) 1 0xffffffff,
          .read 0 1 5, .read 0 4 1] oneFile =
      .ok [.wrote (some 3), .wrote none, .data (some [98, 99]), .data none] s' := by
  obtain ⟨s', hrun, _⟩ := (files_refine_byte_arrays .mkfs 0 {0} oneFile oneFile_files
    [.write 0 (fun i => BitVec.ofNat 8 (97 + i)) 0 3, .write 0 (fun _ => 0) 1 0xffffffff,
      .read 0 1 5, .read 0 4 1]
    (by simp [Rw.file]) (by decide +kernel)).1
  exact ⟨s', hrun⟩

end Xv6.Fs
