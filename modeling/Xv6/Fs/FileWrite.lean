import Xv6.Fs.Alone
import Xv6.Fs.Files

/-! # Writing in chunks

    `filewrite` cuts what it is given into chunks of at most `CHUNK` bytes and
    writes each of them in a transaction of its own, at the offset `f->off`
    that all users of the `struct file` share. A regular file and its offset
    are a `Text`; one chunk is one `Text.write`, or is refused because it
    would reach beyond `MAXFILE` blocks.

    From this follow what the result of `filewrite` says about the file, that
    cutting makes no difference to a call that runs alone, and that chunks of
    several processes that share a `struct file` are stored one after the
    other.
-/

namespace Xv6.Fs

open BitRange Ownership Op Function

variable (sb : Superblock) (p : Pid)

/-! ## One chunk -/

/-- The body of the loop of `filewrite` up to `end_op()`. -/
def filewrite_chunk (f : FileSlot) (ip : Slot) (src : Nat → Byte) (n1 : Nat) :
    FsProg (Option (BitVec 32)) := do
  begin_op
  ilock sb p ip .plain
  let ff ← file f
  let r ← writei sb p ip src ff.off (BitVec.ofNat 32 n1)
  file_advance f r
  iunlock p ip
  end_op
  pure r

/-- What the loop does with the result of a chunk. -/
def filewrite_next (f : FileSlot) (ip : Slot) (src : Nat → Byte) (n fuel i n1 : Nat) :
    Option (BitVec 32) → FsProg Nat
  | none => pure i
  | some k =>
    if k ≠ BitVec.ofNat 32 n1 then
      step (Op.panic "short filewrite")
    else
      filewrite_loop sb p f ip src n fuel (i + k.toNat)

theorem filewrite_loop_succ (f : FileSlot) (ip : Slot) (src : Nat → Byte) (n fuel i : Nat) :
    filewrite_loop sb p f ip src n (fuel + 1) i =
      if i < n then
        filewrite_chunk sb p f ip (fun j => src (i + j)) (min (n - i) CHUNK) >>=
          filewrite_next sb p f ip src n fuel i (min (n - i) CHUNK)
      else pure i := by
  have hbind : ∀ {α β : Type} (x : FsProg α) (g : α → FsProg β), x >>= g = Prog.bind x g :=
    fun _ _ => rfl
  rw [filewrite_loop]
  unfold filewrite_chunk
  simp only [hbind, Prog.bind_assoc]
  rfl

/-- The inode of the file as it is in the cache, or will be loaded. -/
def FsState.inodeOf (s : FsState) (f : FileSlot) : Dinode :=
  if (s.icache (s.ftable f).ip).valid then (s.icache (s.ftable f).ip).toDinode
  else dinode sb s.disk (s.icache (s.ftable f).ip).inum

/-- The contents of a file and the offset in it. -/
structure Text where
  bytes : List Byte
  off : Nat

namespace Text

/-- Writing `n` bytes at the offset is refused. -/
def Refuses (t : Text) (n : Nat) : Prop :=
  t.bytes.length < t.off ∨ MAXFILE * BSIZE < t.off + n

instance (t : Text) (n : Nat) : Decidable (t.Refuses n) := by
  unfold Refuses
  infer_instance

/-- Write at the offset and advance it. -/
def write (t : Text) (bs : List Byte) : Text := ⟨splice t.bytes t.off bs, t.off + bs.length⟩

end Text

/-- The file and its offset. -/
def FsState.text (s : FsState) (f : FileSlot) : Text :=
  ⟨contents s.disk (s.inodeOf sb f), (s.ftable f).off.toNat⟩

variable {I : Type}

/-- `f` is a regular file, one of the files `F` of the disk, whose inode `D a`
    nobody has locked. -/
structure OpenFile (F : Set I) (D : I → Dinode) (a : I) (f : FileSlot) (s : FsState) : Prop where
  image : Image sb s.disk F D
  mem : a ∈ F
  inode : s.inodeOf sb f = D a
  regular : (D a).type = T_FILE
  type : (s.ftable f).type = .FD_INODE
  ref : 1 ≤ (s.icache (s.ftable f).ip).ref
  unlocked : (s.icache (s.ftable f).ip).lock = none
  inum_lt : (s.icache (s.ftable f).ip).inum < sb.ninodes

variable {sb p} {F : Set I} {D : I → Dinode} {a : I} {f : FileSlot} {s : FsState}
  {E : String → Prop}

/-- The state after a chunk, from the state `s` before it. -/
def FsState.wrote (s : FsState) (f : FileSlot) (disk : Disk) (d : Dinode) (off : BitVec 32) :
    FsState :=
  { s with
    disk := disk
    icache := update s.icache (s.ftable f).ip
      { s.icache (s.ftable f).ip with toDinode := d, valid := true }
    ftable := update s.ftable f { s.ftable f with off := off } }

theorem inodeOf_wrote (disk : Disk) (d : Dinode) (off : BitVec 32) :
    (s.wrote f disk d off).inodeOf sb f = d := by
  simp [FsState.inodeOf, FsState.wrote]

theorem text_wrote (disk : Disk) (d : Dinode) (off : BitVec 32) :
    (s.wrote f disk d off).text sb f = ⟨contents disk d, off.toNat⟩ := by
  unfold FsState.text
  rw [inodeOf_wrote]
  simp [FsState.wrote]

theorem OpenFile.wrote (h : OpenFile sb F D a f s) {disk : Disk} {D' : I → Dinode} {off : BitVec 32}
    (himage : Image sb disk F D') (htype : (D' a).type = T_FILE) :
    OpenFile sb F D' a f (s.wrote f disk (D' a) off) := by
  refine ⟨himage, h.mem, inodeOf_wrote _ _ _, htype, ?_, ?_, ?_, ?_⟩
  · simpa [FsState.wrote] using h.type
  · simpa [FsState.wrote] using h.ref
  · simpa [FsState.wrote] using h.unlocked
  · simpa [FsState.wrote] using h.inum_lt

/-- What a chunk of `n1` bytes does: it is refused and changes nothing, or it
    is written as a whole. -/
structure ChunkDone (sb : Superblock) (F : Set I) (a : I) (f : FileSlot) (src : Nat → Byte)
    (n1 : Nat) (s : FsState) (r : Option (BitVec 32)) (s' : FsState) : Prop where
  opened : ∃ D', OpenFile sb F D' a f s'
  ip : (s'.ftable f).ip = (s.ftable f).ip
  result : r = if (s.text sb f).Refuses n1 then none else some (BitVec.ofNat 32 n1)
  text : s'.text sb f = if (s.text sb f).Refuses n1 then s.text sb f
    else (s.text sb f).write ((List.range n1).map src)
  free : free sb.size (bit sb s.disk) ≤
    free sb.size (bit sb s'.disk) + (span (s.text sb f).off n1 + 1)

/-- The end of a chunk, with the inode locked. -/
theorem wp_chunk_end {ip : Slot} {r : Option (BitVec 32)} {Q : Option (BitVec 32) → FsState → Prop}
    (hlock : (s.icache ip).lock = some p) (href : 1 ≤ (s.icache ip).ref)
    (hQ : Q r { s with
      outstanding := s.outstanding - 1
      icache := update s.icache ip { s.icache ip with lock := none }
      ftable := update s.ftable f
        { s.ftable f with off := (s.ftable f).off + r.getD 0 } }) :
    wp (do
      file_advance f r
      iunlock p ip
      end_op
      pure r : FsProg (Option (BitVec 32))).run E Q s := by
  have hunlock : ∀ s' : FsState, s'.icache = s.icache →
      wp (do
        iunlock p ip
        end_op
        pure r : FsProg (Option (BitVec 32))).run E (fun a s'' => a = r ∧ s'' = { s' with
          outstanding := s'.outstanding - 1
          icache := update s.icache ip { s.icache ip with lock := none } }) s' := by
    intro s' hs'
    rw [wp_run_bind]
    unfold iunlock
    rw [wp_run_step]
    simp only [wp_bind, wp_get, hs']
    rw [if_neg (by rw [hlock]; simp; omega)]
    unfold releasesleep
    rw [wp_modify, wp_run_bind]
    unfold end_op
    rw [wp_run_step, wp_modify]
    refine ⟨rfl, ?_⟩
    unfold FsState.setInode
    rw [hs']
  rw [wp_run_bind]
  unfold file_advance
  cases r with
  | none =>
    refine (hunlock s rfl).imp ?_
    rintro _ _ ⟨rfl, rfl⟩
    simpa using hQ
  | some k =>
    rw [wp_run_step, wp_modify]
    refine (hunlock (s.setFile f fun file => { file with off := file.off + k }) rfl).imp ?_
    rintro _ _ ⟨rfl, rfl⟩
    exact hQ

variable [DecidableEq I] {s₀ : FsState}

theorem wp_filewrite_chunk (h : OpenFile sb F D a f s) (src : Nat → Byte) {n1 : Nat}
    (hn1 : n1 < 2 ^ 32)
    (hfull : free sb.size (bit sb s.disk) < span (s.text sb f).off n1 + 1 →
      E "balloc: out of blocks") :
    wp (filewrite_chunk sb p f (s.ftable f).ip src n1).run E (ChunkDone sb F a f src n1 s) s := by
  have hlen : (s.text sb f).bytes.length = (D a).size.toNat := by
    unfold FsState.text
    rw [length_contents, h.inode]
  have hbits : (BitVec.ofNat 32 n1).toNat = n1 := by
    rw [BitVec.toNat_ofNat, Nat.mod_eq_of_lt hn1]
  have hlt : MAXFILE * BSIZE < 2 ^ 32 := by decide
  -- the state in which `writei` runs
  let s₁ : FsState := { s with outstanding := s.outstanding + 1 }
  let s₂ : FsState := s₁.setInode (s.ftable f).ip fun ino =>
    { ino with toDinode := D a, valid := true, lock := some p }
  have hcopy : (s₂.icache (s.ftable f).ip).toDinode = D a := by simp [s₂]
  have hdev : (s₂.icache (s.ftable f).ip).type ≠ T_DEV := by
    rw [hcopy, h.regular]
    decide
  -- whatever `writei` leaves, the chunk ends without the lock
  have hend : ∀ (r : Option (BitVec 32)) (disk : Disk) (d : Dinode),
      ChunkDone sb F a f src n1 s r (s.wrote f disk d ((s.ftable f).off + r.getD 0)) →
      wp (do
        file_advance f r
        iunlock p (s.ftable f).ip
        end_op
        pure r : FsProg (Option (BitVec 32))).run E (ChunkDone sb F a f src n1 s)
        (s₂.withFile (s.ftable f).ip disk d) := by
    intro r disk d hdone
    refine wp_chunk_end (by simp [s₂, FsState.withFile])
      (by simpa [s₂, s₁, FsState.withFile] using h.ref) ?_
    convert hdone using 1
    simp only [s₂, s₁, FsState.withFile, FsState.setInode, FsState.wrote, update_self,
      update_idem, h.unlocked]
    rfl
  unfold filewrite_chunk
  rw [wp_run_bind]
  unfold begin_op
  rw [wp_run_step, wp_modify, wp_run_bind]
  refine wp_ilock (s := s₁) h.ref h.unlocked h.inode
    (fun _ h0 => absurd h0 (by rw [h.regular]; decide)) fun _ => ?_
  rw [wp_run_bind]
  unfold file
  rw [wp_run_step]
  simp only [wp_bind, wp_get, wp_pure]
  rw [wp_run_bind]
  unfold wp
  rw [writei_run (s := s₂) hdev]
  show wp (writei_blocks sb (s.ftable f).ip src (s.ftable f).off (BitVec.ofNat 32 n1)) E _ s₂
  refine wp_writei_blocks (s := s₂) (a := a)
    (fun hout => absurd (show s.outstanding + 1 < 1 from hout) (by omega))
    h.image h.mem hcopy (by simpa [s₂, s₁] using h.inum_lt) _ _ ?_ ?_ ?_
  · intro _ _ _ _ _
    rw [hbits]
    exact hfull
  · intro hbad
    rw [hbits] at hbad
    have href : (s.text sb f).Refuses n1 := by
      unfold Text.Refuses
      rw [hlen]
      exact hbad
    have hsame : s₂.withFile (s.ftable f).ip s.disk (D a) = s₂ := by
      rw [← hcopy]
      exact withFile_self _ _
    rw [← hsame]
    refine hend none s.disk (D a) ⟨⟨D, h.wrote h.image h.regular⟩, ?_, ?_, ?_, Nat.le_add_right _ _⟩
    · simp [FsState.wrote]
    · rw [if_pos href]
    · rw [if_pos href, text_wrote, ← h.inode]
      simp [FsState.text]
  · intro disk' D' hoff hmax hw
    rw [hbits] at hmax hw
    have href : ¬ (s.text sb f).Refuses n1 := by
      unfold Text.Refuses
      rw [hlen]
      show ¬ ((D a).size.toNat < (s.ftable f).off.toNat ∨
        MAXFILE * BSIZE < (s.ftable f).off.toNat + n1)
      omega
    obtain ⟨addrs, size, hfields⟩ := hw.fields
    have htype : (D' a).type = T_FILE := by
      rw [hfields]
      exact h.regular
    refine hend (some (BitVec.ofNat 32 n1)) disk' (D' a)
      ⟨⟨D', h.wrote hw.image htype⟩, ?_, ?_, ?_, hw.free⟩
    · simp [FsState.wrote]
    · rw [if_neg href]
    · rw [if_neg href, text_wrote, hw.contents_eq]
      unfold Text.write FsState.text
      rw [h.inode]
      have hadd : ((s.ftable f).off + BitVec.ofNat 32 n1).toNat = (s.ftable f).off.toNat + n1 := by
        rw [BitVec.toNat_add, hbits, Nat.mod_eq_of_lt (by omega)]
      simp only [Option.getD_some, hadd, List.length_map, List.length_range]
      rfl

/-! ## The loop -/

/-- How many of `n` bytes are stored from the offset on: all of them, or the
    whole chunks that fit. -/
def Text.stored (t : Text) (n : Nat) : Nat :=
  if t.bytes.length < t.off then 0
  else if t.off + n ≤ MAXFILE * BSIZE then n
  else (MAXFILE * BSIZE - t.off) / CHUNK * CHUNK

theorem length_splice {α : Type} (l : List α) (off : Nat) (bs : List α) (h : off ≤ l.length) :
    (splice l off bs).length = max l.length (off + bs.length) := by
  simp only [splice, List.length_append, List.length_take, List.length_drop]
  omega

/-- Writing two pieces one after the other is writing them at once. -/
theorem Text.write_append (t : Text) (bs bs' : List Byte) (h : t.off ≤ t.bytes.length) :
    (t.write bs).write bs' = t.write (bs ++ bs') := by
  have hsplice : splice (splice t.bytes t.off bs) (t.off + bs.length) bs' =
      splice t.bytes t.off (bs ++ bs') := by
    unfold splice
    have hlen : (t.bytes.take t.off ++ bs).length = t.off + bs.length := by
      simp [Nat.min_eq_left h]
    rw [List.take_append_of_le_length (by omega), List.take_of_length_le (by omega),
      List.drop_append, List.drop_of_length_le (by omega), hlen, List.nil_append, List.drop_drop]
    simp only [List.length_append, List.append_assoc]
    congr 4
    omega
  unfold Text.write
  rw [hsplice]
  simp only [List.length_append, Nat.add_assoc]

theorem Text.write_nil (t : Text) : t.write [] = t := by
  simp [Text.write, splice]

theorem Text.stored_refused (t : Text) {m : Nat} (h : t.Refuses (min m CHUNK)) :
    t.stored m = 0 := by
  unfold Text.stored
  unfold Text.Refuses at h
  simp only [CHUNK, MAXOPBLOCKS] at h ⊢
  split
  · rfl
  · split <;> omega

theorem Text.stored_chunk (t : Text) {m : Nat} (h : ¬ t.Refuses (min m CHUNK)) (bs : List Byte)
    (hbs : bs.length = min m CHUNK) :
    t.stored m = min m CHUNK + (t.write bs).stored (m - min m CHUNK) := by
  unfold Text.Refuses at h
  have hlen : (t.write bs).bytes.length = max t.bytes.length (t.off + bs.length) :=
    length_splice _ _ _ (by omega)
  have hoff : (t.write bs).off = t.off + bs.length := rfl
  have h1 : ¬ t.bytes.length < t.off := by omega
  have h2 : ¬ max t.bytes.length (t.off + min m CHUNK) < t.off + min m CHUNK := by omega
  unfold Text.stored
  rw [hlen, hoff, hbs, if_neg h1, if_neg h2]
  simp only [CHUNK, MAXOPBLOCKS] at h ⊢
  split <;> split <;> omega

theorem Text.stored_zero (t : Text) : t.stored 0 = 0 := by
  unfold Text.stored
  simp only [CHUNK, MAXOPBLOCKS]
  split
  · rfl
  · split <;> omega

/-- Blocks that writing `m` bytes in chunks may take from the free map. -/
def chunksNeed (m : Nat) : Nat := 6 * ((m + (CHUNK - 1)) / CHUNK)

theorem span_le_chunksNeed (off m : Nat) : span off m ≤ chunksNeed m := by
  have hspan := span_le off m
  rcases Nat.eq_zero_or_pos m with rfl | hm
  · exact Nat.zero_le _
  · unfold chunksNeed
    simp only [CHUNK, MAXOPBLOCKS, BSIZE] at hspan ⊢
    omega

/-- The loop of `filewrite`, with `n - i` bytes to go. -/
theorem wp_filewrite_loop (src : Nat → Byte) (n : Nat) {D : I → Dinode} {s : FsState} (fuel i : Nat)
    (h : OpenFile sb F D a f s) (hfuel : n - i ≤ fuel)
    (hfull : free sb.size (bit sb s.disk) < chunksNeed (n - i) → E "balloc: out of blocks") :
    wp (filewrite_loop sb p f (s.ftable f).ip src n fuel i).run E (fun k s' =>
      (∃ D', OpenFile sb F D' a f s') ∧ k = i + (s.text sb f).stored (n - i) ∧
      s'.text sb f = (s.text sb f).write
        ((List.range ((s.text sb f).stored (n - i))).map fun j => src (i + j))) s := by
  induction fuel generalizing s D i with
  | zero =>
    have hdone : n - i = 0 := by omega
    rw [hdone, Text.stored_zero]
    exact ⟨⟨D, h⟩, rfl, (Text.write_nil _).symm⟩
  | succ fuel ih =>
    rw [filewrite_loop_succ]
    by_cases hi : i < n
    · rw [if_pos hi, wp_run_bind]
      have hn1 : min (n - i) CHUNK < 2 ^ 32 := lt_of_le_of_lt (Nat.min_le_right _ _) (by decide)
      have hspan := span_le (s.text sb f).off (min (n - i) CHUNK)
      refine (wp_filewrite_chunk h (fun j => src (i + j)) hn1 fun hlow => hfull ?_).imp ?_
      · unfold chunksNeed
        simp only [CHUNK, MAXOPBLOCKS, BSIZE] at hspan hlow ⊢
        omega
      · intro r s₁ hdone
        obtain ⟨⟨D₁, h₁⟩, hip, hr, htext, hfree⟩ := hdone
        by_cases href : (s.text sb f).Refuses (min (n - i) CHUNK)
        · rw [if_pos href] at hr htext
          subst hr
          rw [Text.stored_refused _ href]
          refine ⟨⟨D₁, h₁⟩, rfl, ?_⟩
          rw [htext]
          exact (Text.write_nil _).symm
        · rw [if_neg href] at hr htext
          subst hr
          have hk : (BitVec.ofNat 32 (min (n - i) CHUNK)).toNat = min (n - i) CHUNK := by
            rw [BitVec.toNat_ofNat, Nat.mod_eq_of_lt hn1]
          have hoff : (s.text sb f).off ≤ (s.text sb f).bytes.length := by
            unfold Text.Refuses at href
            omega
          have hmore : n - (i + min (n - i) CHUNK) = n - i - min (n - i) CHUNK := by omega
          have hstored := Text.stored_chunk _ href
            ((List.range (min (n - i) CHUNK)).map fun j => src (i + j)) (by simp)
          unfold filewrite_next
          simp only
          rw [if_neg (by simp), hk, ← hip]
          refine (ih _ h₁ (by simp only [CHUNK, MAXOPBLOCKS]; omega) fun hlow => hfull ?_).imp ?_
          · unfold chunksNeed at hlow ⊢
            simp only [CHUNK, MAXOPBLOCKS, BSIZE] at hspan hlow hfree ⊢
            omega
          · intro k s' hs'
            obtain ⟨hopen, hk', htext'⟩ := hs'
            rw [hmore, htext] at hk' htext'
            refine ⟨hopen, by rw [hk', hstored]; omega, ?_⟩
            rw [htext', Text.write_append _ _ _ hoff, hstored]
            congr 1
            rw [List.range_add, List.map_append, List.map_map]
            congr 1
            apply List.map_congr_left
            intro j _
            simp only [Function.comp, Nat.add_assoc]
    · rw [if_neg hi]
      have hdone : n - i = 0 := by omega
      rw [hdone, Text.stored_zero]
      exact ⟨⟨D, h⟩, rfl, (Text.write_nil _).symm⟩

/-- `filewrite` on a regular file. -/
theorem wp_filewrite (h : OpenFile sb F D a f s) (src : Nat → Byte) (n : Nat)
    (hfull : free sb.size (bit sb s.disk) < chunksNeed n → E "balloc: out of blocks") :
    wp (filewrite sb p f src n).run E (fun r s' =>
      if (s.ftable f).writable = true then
        r = (if (s.text sb f).stored n = n then some n else none) ∧
        (∃ D', OpenFile sb F D' a f s') ∧
        s'.text sb f = (s.text sb f).write ((List.range ((s.text sb f).stored n)).map src)
      else r = none ∧ s' = s) s := by
  unfold filewrite
  rw [wp_run_bind]
  unfold file
  rw [wp_run_step]
  simp only [wp_bind, wp_get, wp_pure]
  by_cases hw : (s.ftable f).writable = true
  · rw [if_neg (by simp [hw]), if_neg (by rw [h.type]; decide), if_pos h.type, wp_run_bind]
    refine (wp_filewrite_loop src n n 0 h (by omega) hfull).imp fun k s' hs' => ?_
    obtain ⟨hopen, hk, htext⟩ := hs'
    rw [Nat.zero_add, Nat.sub_zero] at hk
    simp only [Nat.zero_add, Nat.sub_zero] at htext
    show if _ then _ else _
    rw [if_pos hw, hk]
    exact ⟨rfl, hopen, htext⟩
  · rw [if_pos (by simpa using hw)]
    show if _ then _ else _
    rw [if_neg hw]
    exact ⟨rfl, rfl⟩

/-! ## The result of `filewrite` -/

/-- The result `r` accounts for what has happened to the file: `r` bytes have
    been stored, or for -1 nothing has changed. -/
def Accounted (sb : Superblock) (f : FileSlot) (src : Nat → Byte) (s : FsState) (r : Option Nat)
    (s' : FsState) : Prop :=
  match r with
  | some r =>
    (s'.text sb f).bytes =
      splice (s.text sb f).bytes (s.text sb f).off ((List.range r).map src) ∧
    (s'.text sb f).off = (s.text sb f).off + r
  | none =>
    (s'.text sb f).bytes = (s.text sb f).bytes ∧
    (s'.inodeOf sb f).size = (s.inodeOf sb f).size ∧ (s'.ftable f).off = (s.ftable f).off

theorem size_eq_of_text {s' : FsState} (h : s'.text sb f = s.text sb f) :
    (s'.inodeOf sb f).size = (s.inodeOf sb f).size := by
  apply BitVec.eq_of_toNat_eq
  rw [← length_contents s'.disk, ← length_contents s.disk]
  exact congrArg (fun t => t.bytes.length) h

/-- `filewrite` returns, unless the disk runs out of blocks, and its result
    accounts for what has happened exactly if the file is not writable, the
    offset is beyond its end, all bytes fit, or not even the first chunk does. -/
theorem filewrite_accounted_iff (sb : Superblock) (p : Pid) (I : Type) [DecidableEq I] (F : Set I)
    (D : I → Dinode) (a : I) (f : FileSlot) (s : FsState) (h : OpenFile sb F D a f s)
    (src : Nat → Byte) (n : Nat) :
    wp (filewrite sb p f src n).run
      (fun msg => msg = "balloc: out of blocks" ∧ free sb.size (bit sb s.disk) < chunksNeed n)
      (fun r s' => Accounted sb f src s r s' ↔
        ((s.ftable f).writable = false ∨ (s.inodeOf sb f).size < (s.ftable f).off ∨
          (s.ftable f).off.toNat + n ≤ MAXFILE * BSIZE ∨
          MAXFILE * BSIZE < (s.ftable f).off.toNat + CHUNK)) s := by
  refine (wp_filewrite h src n fun hlow => ⟨rfl, hlow⟩).imp fun r s' hs' => ?_
  have hlen : (s.text sb f).bytes.length = (s.inodeOf sb f).size.toNat := length_contents _ _
  have hoff : (s.text sb f).off = (s.ftable f).off.toNat := rfl
  by_cases hw : (s.ftable f).writable = true
  · rw [if_pos hw] at hs'
    obtain ⟨hr, _, htext⟩ := hs'
    rw [BitVec.lt_def, ← hlen, ← hoff]
    by_cases hall : (s.text sb f).stored n = n
    · rw [if_pos hall] at hr
      rw [hall] at htext
      subst hr
      constructor
      · intro _
        unfold Text.stored at hall
        split at hall
        · next hend => exact Or.inr (Or.inl hend)
        · split at hall
          · next hfit => exact Or.inr (Or.inr (Or.inl hfit))
          · simp only [CHUNK, MAXOPBLOCKS] at hall
            omega
      · intro _
        unfold Accounted
        rw [htext]
        exact ⟨rfl, by simp [Text.write]⟩
    · rw [if_neg hall] at hr
      subst hr
      -- the call fails: it accounts for what happened if nothing is stored
      have hzero : Accounted sb f src s none s' ↔ (s.text sb f).stored n = 0 := by
        constructor
        · intro hacc
          have hmove : (s'.text sb f).off = (s.text sb f).off := congrArg BitVec.toNat hacc.2.2
          rw [htext] at hmove
          simp only [Text.write, List.length_map, List.length_range] at hmove
          omega
        · intro hzero
          rw [hzero, List.range_zero, List.map_nil, Text.write_nil] at htext
          exact ⟨congrArg Text.bytes htext, size_eq_of_text htext,
            BitVec.eq_of_toNat_eq (congrArg Text.off htext)⟩
      rw [hzero]
      unfold Text.stored at hall ⊢
      simp only [hw, CHUNK, MAXOPBLOCKS] at hall ⊢
      split at hall
      · next hend => simp [hend]
      · next hend =>
        split at hall
        · omega
        · next hfit =>
          rw [if_neg hend, if_neg hfit]
          simp only [Bool.true_eq_false, false_or]
          omega
  · rw [if_neg hw] at hs'
    obtain ⟨rfl, rfl⟩ := hs'
    simp only [Bool.not_eq_true] at hw
    simp [Accounted, hw]

/-- `oneFile`, open for writing at its start. -/
def oneOpenFile : FsState :=
  { oneFile with
    icache := fun ip => { oneFile.icache ip with lock := none }
    ftable := fun _ => ⟨.FD_INODE, 1, true, true, 0, 0⟩ }

/-- There is an empty file, open for writing at its start, with 941 free blocks. -/
theorem exists_openFile : ∃ s, (∃ D, OpenFile .mkfs ({0} : Set Slot) D 0 0 s) ∧
    (s.ftable 0).writable = true ∧ s.text .mkfs 0 = ⟨[], 0⟩ ∧
    941 ≤ free Superblock.mkfs.size (bit .mkfs s.disk) := by
  refine ⟨oneOpenFile, ⟨fun ip => (oneOpenFile.icache ip).toDinode, oneFile_files.image, rfl, rfl,
    rfl, rfl, by decide, rfl, show 2 < 200 by decide⟩, rfl, ?_, by decide +kernel⟩
  have hnil : contents oneOpenFile.disk (oneOpenFile.inodeOf .mkfs 0) = [] :=
    List.eq_nil_of_length_eq_zero (length_contents _ _)
  unfold FsState.text
  rw [hnil]
  rfl

theorem filewrite_accounted_iff_abc :
    ∃ s r s', (filewrite .mkfs 0 0 (fun i => BitVec.ofNat 8 (97 + i)) 3).run s = .ok r s' ∧
      (s.text .mkfs 0).bytes = [] ∧ Accounted .mkfs 0 (fun i => BitVec.ofNat 8 (97 + i)) s r s' := by
  obtain ⟨s, ⟨D, hopen⟩, _, htext, hfree⟩ := exists_openFile
  have hiff := filewrite_accounted_iff .mkfs 0 Slot {0} D 0 0 s hopen
    (fun i => BitVec.ofNat 8 (97 + i)) 3
  have hret := hiff.mono
    (fun msg hmsg => (absurd hmsg.2 (by simp only [chunksNeed, CHUNK, MAXOPBLOCKS]; omega) : False))
    fun _ _ => id
  obtain ⟨r, s', hrun, hacc⟩ := hret.returns
  have hoff : (s.ftable 0).off.toNat = 0 := congrArg Text.off htext
  have hfits : (s.ftable 0).off.toNat + 3 ≤ MAXFILE * BSIZE := by
    rw [hoff]
    decide
  exact ⟨s, r, s', hrun, congrArg Text.bytes htext, hacc.mpr (Or.inr (Or.inr (Or.inl hfits)))⟩

/-- One byte more than a file can hold: 46 chunks are stored, the 47th is
    refused, and `filewrite` returns -1. -/
theorem filewrite_fails_after_storing :
    ∃ s s', (∃ D, OpenFile .mkfs ({0} : Set Slot) D 0 0 s) ∧
      (filewrite .mkfs 0 0 (fun _ => 7) 71681).run s = .ok none s' ∧
      s.text .mkfs 0 = ⟨[], 0⟩ ∧ (s'.text .mkfs 0).bytes.length = 70656 ∧
      (s'.text .mkfs 0).off = 70656 ∧ ¬ Accounted .mkfs 0 (fun _ => 7) s none s' := by
  obtain ⟨s, ⟨D, hopen⟩, hw, htext, hfree⟩ := exists_openFile
  have hwp := wp_filewrite (p := 0) (E := fun _ => False) hopen (fun _ => 7) 71681
    fun hlow => absurd hlow (by simp only [chunksNeed, CHUNK, MAXOPBLOCKS]; omega)
  obtain ⟨r, s', hrun, hpost⟩ := hwp.returns
  rw [if_pos hw, htext] at hpost
  have hstored : (⟨[], 0⟩ : Text).stored 71681 = 70656 := by decide
  rw [hstored, if_neg (by decide)] at hpost
  obtain ⟨rfl, _, htext'⟩ := hpost
  have hoff' : (s'.text .mkfs 0).off = 70656 := by
    rw [htext']
    simp only [Text.write, List.length_map, List.length_range]
  refine ⟨s, s', ⟨D, hopen⟩, hrun, htext, ?_, hoff', fun hacc => ?_⟩
  · rw [htext']
    simp only [Text.write]
    rw [length_splice _ _ _ (Nat.zero_le _), List.length_map, List.length_range]
    rfl
  · have hmove : (s'.text .mkfs 0).off = (s.text .mkfs 0).off := congrArg BitVec.toNat hacc.2.2
    rw [htext, hoff'] at hmove
    cases hmove

/-! ## Several processes -/

/-- A call of `filewrite` in progress: `i` of the `n` bytes are written. -/
structure Writing where
  src : Nat → Byte
  n : Nat
  i : Nat

/-- Processes that write to one `struct file`. -/
structure SharedFile where
  fs : FsState
  job : Pid → Option Writing
  /-- History: where chunks have been stored, and their bytes. -/
  chunks : List (Nat × List Byte)

/-- A process calls `filewrite`, or goes once around its loop. -/
inductive SharedStep where
  | call (p : Pid) (src : Nat → Byte) (n : Nat)
  | loop (p : Pid)

/-- The bytes a call writes next. -/
def Writing.chunk (w : Writing) : List Byte :=
  (List.range (min (w.n - w.i) CHUNK)).map fun j => w.src (w.i + j)

/-- Any interleaving of the chunks. -/
def sharedSystem (sb : Superblock) (f : FileSlot) (s₀ : FsState) :
    LTS.System SharedFile SharedStep where
  init σ := σ = ⟨s₀, fun _ => none, []⟩
  next σ
    | .call p src n =>
      match σ.job p with
      | none => some { σ with job := update σ.job p (some ⟨src, n, 0⟩) }
      | some _ => none
    | .loop p =>
      match σ.job p with
      | none => none
      | some w =>
        if w.i < w.n then
          match (filewrite_chunk sb p f (σ.fs.ftable f).ip (fun j => w.src (w.i + j))
              (min (w.n - w.i) CHUNK)).run σ.fs with
          | .ok none s => some { σ with fs := s, job := update σ.job p none }
          | .ok (some k) s =>
            if k ≠ BitVec.ofNat 32 (min (w.n - w.i) CHUNK) then
              none
            else
              some {
                fs := s
                job := update σ.job p (some { w with i := w.i + k.toNat })
                chunks := σ.chunks ++ [((σ.fs.ftable f).off.toNat, w.chunk)] }
          | _ => none
        else
          some { σ with job := update σ.job p none }

/-- The chunks stored so far are one text, written from the first offset on. -/
structure InOrder (sb : Superblock) (F : Set I) (a : I) (f : FileSlot) (t₀ : Text)
    (σ : SharedFile) : Prop where
  opened : ∃ D, OpenFile sb F D a f σ.fs
  text : σ.fs.text sb f = t₀.write (σ.chunks.flatMap Prod.snd)
  starts : ∀ k c, σ.chunks[k]? = some c →
    c.1 = t₀.off + ((σ.chunks.take k).map fun c => c.2.length).sum

theorem length_flatMap_snd {α β : Type} (l : List (α × List β)) :
    (l.flatMap Prod.snd).length = (l.map fun c => c.2.length).sum := by
  rw [List.length_flatMap]

omit [DecidableEq I] in
/-- One more chunk. -/
theorem InOrder.chunk {t₀ : Text} {σ : SharedFile} (h : InOrder sb F a f t₀ σ)
    (ht₀ : t₀.off ≤ t₀.bytes.length) {fs : FsState} (hopen : ∃ D, OpenFile sb F D a f fs)
    {bs : List Byte} (htext : fs.text sb f = (σ.fs.text sb f).write bs) (job : Pid → Option Writing) :
    InOrder sb F a f t₀ ⟨fs, job, σ.chunks ++ [((σ.fs.text sb f).off, bs)]⟩ := by
  refine ⟨hopen, ?_, fun k c hk => ?_⟩
  · rw [htext, h.text, Text.write_append _ _ _ ht₀]
    simp
  · rcases Nat.lt_or_ge k σ.chunks.length with hlt | hge
    · rw [List.getElem?_append_left hlt] at hk
      rw [List.take_append_of_le_length hlt.le]
      exact h.starts k c hk
    · have hlast : k = σ.chunks.length := by
        obtain ⟨hk', _⟩ := List.getElem?_eq_some_iff.mp hk
        simp only [List.length_append, List.length_singleton] at hk'
        omega
      subst hlast
      rw [List.getElem?_concat_length] at hk
      cases hk
      rw [List.take_left', h.text]
      · simp only [Text.write, length_flatMap_snd]
      · rfl

/-- A step of any process keeps the chunks in order. -/
theorem InOrder.step {t₀ : Text} {σ σ' : SharedFile} {l : SharedStep} (h : InOrder sb F a f t₀ σ)
    (ht₀ : t₀.off ≤ t₀.bytes.length) (hnext : (sharedSystem sb f s₀).next σ l = some σ') :
    InOrder sb F a f t₀ σ' := by
  cases l with
  | call p src n =>
    simp only [sharedSystem] at hnext
    split at hnext
    · cases hnext
      exact ⟨h.opened, h.text, h.starts⟩
    · cases hnext
  | loop p =>
    obtain ⟨D, hopen⟩ := h.opened
    simp only [sharedSystem] at hnext
    split at hnext
    · cases hnext
    · next w _ =>
      split at hnext
      · have hn1 : min (w.n - w.i) CHUNK < 2 ^ 32 :=
          lt_of_le_of_lt (Nat.min_le_right _ _) (by decide)
        have hwp := wp_filewrite_chunk (p := p) (E := fun _ => True) hopen
          (fun j => w.src (w.i + j)) hn1 fun _ => trivial
        split at hnext
        · next s hrun =>
          cases hnext
          obtain ⟨hopen', _, hr, htext, _⟩ := hwp.of_ok hrun
          have href : (σ.fs.text sb f).Refuses (min (w.n - w.i) CHUNK) := by
            by_contra href
            rw [if_neg href] at hr
            cases hr
          rw [if_pos href] at htext
          exact ⟨hopen', htext.trans h.text, h.starts⟩
        · next k s hrun =>
          split at hnext
          · cases hnext
          · cases hnext
            obtain ⟨hopen', _, hr, htext, _⟩ := hwp.of_ok hrun
            have href : ¬ (σ.fs.text sb f).Refuses (min (w.n - w.i) CHUNK) := by
              intro href
              rw [if_pos href] at hr
              cases hr
            rw [if_neg href] at htext
            exact h.chunk ht₀ hopen' htext _
        · cases hnext
      · cases hnext
        exact ⟨h.opened, h.text, h.starts⟩

theorem inOrder_of_reachable (h₀ : OpenFile sb F D a f s₀)
    (hoff : (s₀.ftable f).off ≤ (s₀.inodeOf sb f).size) {σ : SharedFile}
    (h : LTS.Reachable (sharedSystem sb f s₀) σ) : InOrder sb F a f (s₀.text sb f) σ := by
  have hle : (s₀.text sb f).off ≤ (s₀.text sb f).bytes.length := by
    show _ ≤ (contents _ _).length
    rw [length_contents]
    exact hoff
  refine h.invariant (I := InOrder sb F a f (s₀.text sb f)) ?_ fun σ l σ' hin hnext =>
    hin.step hle hnext
  intro σ hσ
  cases hσ
  refine ⟨⟨D, h₀⟩, (Text.write_nil _).symm, fun k c hk => ?_⟩
  simp at hk

/-- Cutting into chunks is transparent. A call of `filewrite` that runs alone
    leaves the file and the offset as one `writei` of all the bytes does, and
    neither fails if there are blocks enough. Chunks of calls by any number of
    processes that share the `struct file` are stored one after the other,
    and the offset advances by what is stored. -/
theorem filewrite_chunks_transparent (sb : Superblock) (I : Type) [DecidableEq I] (F : Set I)
    (D : I → Dinode) (a : I) (f : FileSlot) (s : FsState) (h : OpenFile sb F D a f s)
    (hw : (s.ftable f).writable = true) (hoff : (s.ftable f).off ≤ (s.inodeOf sb f).size) :
    (∀ (p : Pid) (src : Nat → Byte) (n : Nat), (s.ftable f).off.toNat + n ≤ MAXFILE * BSIZE →
      (∀ r s₁ r' s₂, (filewrite sb p f src n).run s = .ok r s₁ →
        (filewrite_chunk sb p f (s.ftable f).ip src n).run s = .ok r' s₂ →
        r = some n ∧ r' = some (BitVec.ofNat 32 n) ∧ s₁.text sb f = s₂.text sb f ∧
        (s₁.inodeOf sb f).size = (s₂.inodeOf sb f).size) ∧
      (chunksNeed n < free sb.size (bit sb s.disk) →
        (∃ r s₁, (filewrite sb p f src n).run s = .ok r s₁) ∧
        ∃ r s₂, (filewrite_chunk sb p f (s.ftable f).ip src n).run s = .ok r s₂)) ∧
    ∀ σ, LTS.Reachable (sharedSystem sb f s) σ →
      (∀ k c, σ.chunks[k]? = some c →
        c.1 = (s.text sb f).off + ((σ.chunks.take k).map fun c => c.2.length).sum) ∧
      (σ.fs.text sb f).off = (s.text sb f).off + (σ.chunks.map fun c => c.2.length).sum ∧
      (σ.fs.text sb f).bytes =
        splice (s.text sb f).bytes (s.text sb f).off (σ.chunks.flatMap Prod.snd) := by
  have hlen : (s.text sb f).bytes.length = (s.inodeOf sb f).size.toNat := length_contents _ _
  have hle : (s.text sb f).off ≤ (s.text sb f).bytes.length := by
    rw [hlen]
    exact hoff
  refine ⟨fun p src n hfit => ?_, fun σ hσ => ?_⟩
  · have hmax : MAXFILE * BSIZE < 2 ^ 32 := by decide
    have href : ¬ (s.text sb f).Refuses n := by
      have hfit' : (s.text sb f).off + n ≤ MAXFILE * BSIZE := hfit
      unfold Text.Refuses
      omega
    have hstored : (s.text sb f).stored n = n := by
      unfold Text.stored
      rw [if_neg (by omega)]
      exact if_pos hfit
    constructor
    · intro r s₁ r' s₂ hrun₁ hrun₂
      have hmany := (wp_filewrite (p := p) (E := fun _ => True) h src n fun _ => trivial).of_ok hrun₁
      have hone := (wp_filewrite_chunk (p := p) (E := fun _ => True) h src (show n < 2 ^ 32 by omega)
        fun _ => trivial).of_ok hrun₂
      rw [if_pos hw, hstored, if_pos rfl] at hmany
      have htext := hone.text
      rw [if_neg href] at htext
      have hr' := hone.result
      rw [if_neg href] at hr'
      have hsame : s₁.text sb f = s₂.text sb f := hmany.2.2.trans htext.symm
      exact ⟨hmany.1, hr', hsame, size_eq_of_text hsame⟩
    · intro hfree
      have hneed := span_le_chunksNeed (s.text sb f).off n
      obtain ⟨r, s₁, hrun₁, _⟩ := (wp_filewrite (p := p) (E := fun _ => False) h src n
        fun hlow => by omega).returns
      obtain ⟨r', s₂, hrun₂, _⟩ := (wp_filewrite_chunk (p := p) (E := fun _ => False) h src
        (show n < 2 ^ 32 by omega) fun hlow => by omega).returns
      exact ⟨⟨r, s₁, hrun₁⟩, ⟨r', s₂, hrun₂⟩⟩
  · have hin := inOrder_of_reachable h hoff hσ
    refine ⟨hin.starts, ?_, congrArg Text.bytes hin.text⟩
    rw [hin.text]
    simp only [Text.write, length_flatMap_snd]

/-- Four chunks written to the empty file are one `writei` of 5000 bytes. -/
theorem filewrite_chunks_transparent_four :
    ∃ s s₁ s₂, s.text .mkfs 0 = ⟨[], 0⟩ ∧
      (filewrite .mkfs 0 0 (fun _ => 7) 5000).run s = .ok (some 5000) s₁ ∧
      (filewrite_chunk .mkfs 0 0 (s.ftable 0).ip (fun _ => 7) 5000).run s =
        .ok (some (BitVec.ofNat 32 5000)) s₂ ∧
      s₁.text .mkfs 0 = s₂.text .mkfs 0 := by
  obtain ⟨s, ⟨D, hopen⟩, hw, htext, hfree⟩ := exists_openFile
  have hoff : (s.ftable 0).off = 0 := BitVec.eq_of_toNat_eq (congrArg Text.off htext)
  have hfit : (s.ftable 0).off.toNat + 5000 ≤ MAXFILE * BSIZE := by
    rw [hoff]
    decide
  obtain ⟨hsame, hreturn⟩ := (filewrite_chunks_transparent .mkfs Slot {0} D 0 0 s hopen hw
    (by rw [hoff, BitVec.le_def]; exact Nat.zero_le _)).1 0 (fun _ => 7) 5000 hfit
  obtain ⟨⟨r, s₁, h₁⟩, r', s₂, h₂⟩ :=
    hreturn (by simp only [chunksNeed, CHUNK, MAXOPBLOCKS]; omega)
  obtain ⟨rfl, rfl, heq, _⟩ := hsame r s₁ r' s₂ h₁ h₂
  exact ⟨s, s₁, s₂, htext, h₁, h₂, heq⟩

end Xv6.Fs
