import Xv6.Fs.Boot
import Xv6.Framework.SlotMap
import Xv6.Framework.LTS

/-! # A directory is a finite map

    Names are compared on their first `DIRSIZ` bytes, up to a NUL; `canon` is
    what of a name counts. A directory is a table of slots that hold canonical
    names and inode numbers, so it is a finite map as long as no name stands
    in it twice, which `dirlink` takes care of.

    The functions run alone, on a directory that the process has locked.
-/

namespace Xv6.Fs

open Op BitRange Ownership

/-! ## Names -/

/-- What of a name counts. -/
def canon (name : Name) : Name := (name.take DIRSIZ).takeWhile (· ≠ 0)

theorem strncmp_eq_zero (n : Nat) (p q : List Byte) : strncmp n p q = 0 ↔
    (p.take n).takeWhile (· ≠ 0) = (q.take n).takeWhile (· ≠ 0) := by
  induction n generalizing p q with
  | zero => simp [strncmp]
  | succ n ih =>
    -- a list that has ended is as good as a NUL
    have hhead : ∀ r : List Byte, r.headD 0 = 0 → (r.take (n + 1)).takeWhile (· ≠ 0) = [] := by
      intro r hr
      cases r with
      | nil => rfl
      | cons c r =>
        obtain rfl : c = 0 := hr
        rfl
    have hcons : ∀ r : List Byte, r.headD 0 ≠ 0 → (r.take (n + 1)).takeWhile (· ≠ 0) =
        r.headD 0 :: (r.tail.take n).takeWhile (· ≠ 0) := by
      intro r hr
      cases r with
      | nil => exact absurd rfl hr
      | cons c r =>
        have hc : c ≠ 0 := hr
        rw [List.take_succ_cons, List.takeWhile_cons_of_pos (by simpa using hc)]
        rfl
    unfold strncmp
    by_cases h : p.headD 0 ≠ 0 ∧ p.headD 0 = q.headD 0
    · rw [if_pos h, ih, hcons p h.1, hcons q (h.2 ▸ h.1), h.2]
      simp
    · rw [if_neg h]
      constructor
      · intro hsub
        have heq : p.headD 0 = q.headD 0 := BitVec.eq_of_toNat_eq (by omega)
        have h0 : p.headD 0 = 0 := by
          by_contra hne
          exact h ⟨hne, heq⟩
        rw [hhead p h0, hhead q (heq ▸ h0)]
      · intro hsame
        have heq : p.headD 0 = q.headD 0 := by
          by_cases hp : p.headD 0 = 0
          · by_cases hq : q.headD 0 = 0
            · rw [hp, hq]
            · rw [hhead p hp, hcons q hq] at hsame
              cases hsame
          · by_cases hq : q.headD 0 = 0
            · rw [hcons p hp, hhead q hq] at hsame
              cases hsame
            · rw [hcons p hp, hcons q hq] at hsame
              exact (List.cons.inj hsame).1
        rw [heq]
        omega

theorem namecmp_eq_zero {s t : Name} : namecmp s t = 0 ↔ canon s = canon t := strncmp_eq_zero DIRSIZ s t

/-- The bytes of a name, padded with NULs. -/
theorem direntName_padded (name : Name) (inum : Nat) : direntName (direntBytes name inum) =
    name.take DIRSIZ ++ List.replicate (DIRSIZ - name.length) 0 := by
  unfold direntName direntBytes
  apply List.ext_getElem
  · simp only [List.length_drop, List.length_map, List.length_range, List.length_append,
      List.length_take, List.length_replicate, DIRENT, DIRSIZ]
    omega
  · intro i h1 h2
    simp only [List.length_drop, List.length_map, List.length_range, DIRENT] at h1
    rw [List.getElem_drop, List.getElem_map, List.getElem_range]
    unfold dirent
    rw [if_neg (by omega), if_neg (by omega), List.getD_eq_getElem?_getD, Nat.add_sub_cancel_left]
    by_cases hi : i < (name.take DIRSIZ).length
    · rw [List.getElem_append_left hi, List.getElem?_eq_getElem hi]
      rfl
    · rw [List.getElem_append_right (by omega), List.getElem_replicate, List.getElem?_eq_none (by omega)]
      rfl

/-- The name in an entry counts as the name it was made of. -/
theorem canon_direntName (name : Name) (inum : Nat) : canon (direntName (direntBytes name inum)) = canon name := by
  have hzeros : ∀ n, (List.replicate n (0 : Byte)).takeWhile (· ≠ 0) = [] := by
    intro n
    cases n with
    | zero => rfl
    | succ n => rfl
  rw [direntName_padded]
  unfold canon
  rw [List.take_of_length_le (by simp; omega), List.takeWhile_append]
  split
  · next hall =>
    rw [hzeros, List.append_nil]
    exact ((List.takeWhile_prefix _).eq_of_length hall).symm
  · rfl

/-! ## The table of a directory -/

/-- The slots of a directory. -/
def dirTable (c : List Byte) : List (Option (Name × Nat)) :=
  (List.range (c.length / DIRENT)).map fun k =>
    if direntInum (entry c k) = 0 then none
    else some (canon (direntName (entry c k)), direntInum (entry c k))

/-- The inode number that a directory has for a name. -/
def lookup (c : List Byte) (name : Name) : Option Nat := SlotMap.find (dirTable c) (canon name)

variable {c e : List Byte} {name : Name} {k inum : Nat}

instance (c : List Byte) : DecidablePred (HasEntry c) := fun _ => inferInstanceAs (Decidable (_ ≤ _))

theorem dirTable_getElem? (c : List Byte) (k : Nat) : (dirTable c)[k]? = if HasEntry c k then
    some (if direntInum (entry c k) = 0 then none
      else some (canon (direntName (entry c k)), direntInum (entry c k))) else none := by
  unfold dirTable
  by_cases hk : HasEntry c k
  · rw [if_pos hk, List.getElem?_map, List.getElem?_range (hasEntry_iff.mp hk)]
    rfl
  · rw [if_neg hk, List.getElem?_eq_none]
    rw [hasEntry_iff] at hk
    simpa using hk

theorem dirTable_of_names (hk : HasEntry c k) (h : Names c name k) :
    (dirTable c)[k]? = some (some (canon name, direntInum (entry c k))) := by
  rw [dirTable_getElem?, if_pos hk, if_neg h.1, namecmp_eq_zero.mp h.2]

/-- The search of `dirlookup` is a lookup in the map. -/
theorem search_eq_lookup (hu : SlotMap.Unique (dirTable c)) (name : Name) :
    (search c name).map Prod.fst = lookup c name := by
  cases h : search c name with
  | none =>
    refine (SlotMap.find_eq_none.mpr fun k v hk => ?_).symm
    rw [dirTable_getElem?] at hk
    split at hk
    · next hhas =>
      split at hk
      · cases hk
      · next hlive =>
        simp only [Option.some.injEq, Prod.mk.injEq] at hk
        exact search_eq_none.mp h k hhas hlive (namecmp_eq_zero.mpr hk.1.symm)
    · cases hk
  | some r =>
    obtain ⟨k, hhas, hname, -, rfl⟩ := search_eq_some.mp h
    exact (hu.find_eq (dirTable_of_names hhas hname)).symm

/-- Writing an entry sets one slot. -/
theorem sets_splice (hk : DIRENT * k ≤ c.length) (he : e.length = DIRENT) :
    SlotMap.Sets (dirTable c) k
      (if direntInum e = 0 then none else some (canon (direntName e), direntInum e))
      (dirTable (splice c (DIRENT * k) e)) := by
  have hlen := length_splice_entry he hk
  have hhas : ∀ j, HasEntry (splice c (DIRENT * k) e) j ↔ j = k ∨ HasEntry c j := by
    intro j
    refine ⟨hasEntry_splice he hk, fun h => ?_⟩
    unfold HasEntry at h ⊢
    rw [hlen]
    rcases h with rfl | h
    · exact Nat.le_max_right _ _
    · exact h.trans (Nat.le_max_left _ _)
  constructor
  · rw [dirTable_getElem?, if_pos ((hhas k).mpr (Or.inl rfl)), entry_splice_self he hk]
  · intro j hj
    rw [dirTable_getElem?, dirTable_getElem?]
    by_cases hjas : HasEntry c j
    · rw [if_pos hjas, if_pos ((hhas j).mpr (Or.inr hjas)), entry_splice_ne he hk hjas hj]
    · rw [if_neg hjas, if_neg fun h => hjas (((hhas j).mp h).resolve_left hj)]

/-- A slot that is free for a new name. -/
theorem EmptyAt.slot (h : EmptyAt c k) : (dirTable c)[k]? = none ∨ (dirTable c)[k]? = some none := by
  rw [dirTable_getElem?]
  rcases h with ⟨hhas, h0⟩ | hlen
  · rw [if_pos hhas, if_pos h0]
    exact Or.inr rfl
  · rw [if_neg]
    · exact Or.inl rfl
    · unfold HasEntry
      simp only [DIRENT] at *
      omega

/-! ## Operations on a locked directory -/

/-- Process `p` has locked the directory in entry `dp`, in a transaction, and
    no other inode. No name stands in the directory twice. -/
structure OpenDir (sb : Superblock) (p : Pid) (dp : Slot) (s : FsState) : Prop where
  logged : 1 ≤ s.outstanding
  image : Image sb s.disk (inodes sb s.disk) (dinode sb s.disk)
  cache : Cache sb s
  lock : ∀ i, (s.icache i).lock = if i = dp then some p else none
  ref : ∀ i, 0 ≤ (s.icache i).ref
  held : 0 < (s.icache dp).ref
  valid : (s.icache dp).valid = true
  dir : (s.icache dp).type = T_DIR
  whole : (s.bytes sb dp).length % DIRENT = 0
  unique : SlotMap.Unique (dirTable (s.bytes sb dp))

variable {sb : Superblock} {p : Pid} {dp : Slot} {s s' : FsState} {E : String → Prop}

theorem OpenDir.synced (h : OpenDir sb p dp s) : Synced sb s dp := by
  obtain ⟨hcopy, htype⟩ := h.cache.sync dp h.held h.valid
  exact ⟨⟨h.cache.inum_lt dp h.held, by rw [← hcopy]; exact htype⟩, hcopy⟩

theorem OpenDir.logs (h : OpenDir sb p dp s) : Logs E s := fun hout => absurd h.logged (by omega)

theorem OpenDir.beside (h : OpenDir sb p dp s) :
    Beside sb s 0 (fun i => if i = dp then some p else none) s where
  disk := rfl
  outstanding := rfl
  ftable := rfl
  proc := rfl
  ref i := by simp
  kept _ _ := rfl
  loaded _ _ := id
  lock := h.lock
  dev := h.cache.dev
  inj := h.cache.inj
  sync := h.cache.sync

/-- Nothing has changed but free entries of the inode cache. -/
theorem OpenDir.of_beside (h : OpenDir sb p dp s)
    (hb : Beside sb s 0 (fun i => if i = dp then some p else none) s') :
    OpenDir sb p dp s' ∧ s'.bytes sb dp = s.bytes sb dp := by
  have href : ∀ i, (s'.icache i).ref = (s.icache i).ref := fun i => by simpa using hb.ref i
  have hinum := hb.kept dp h.held
  have hbytes : s'.bytes sb dp = s.bytes sb dp := by
    unfold FsState.bytes
    rw [hb.disk, hinum]
  have hvalid := hb.loaded dp h.held h.valid
  have hcopy := (hb.sync dp (by rw [href]; exact h.held) hvalid).1
  have hcopy' : (s'.icache dp).toDinode = (s.icache dp).toDinode := by
    rw [hcopy, hinum, h.synced.copy]
  refine ⟨⟨by rw [hb.outstanding]; exact h.logged, by rw [hb.disk]; exact h.image, ?_, hb.lock,
    fun i => by rw [href]; exact h.ref i, by rw [href]; exact h.held, hvalid, by rw [hcopy']; exact h.dir,
    by rw [hbytes]; exact h.whole, by rw [hbytes]; exact h.unique⟩, hbytes⟩
  refine ⟨fun i hi => ?_, hb.dev, hb.inj, fun i hi hv => ?_⟩
  · rw [href] at hi
    rw [hb.kept i hi]
    exact h.cache.inum_lt i hi
  · rw [hb.disk]
    exact hb.sync i hi hv

/-- An entry has been written. -/
theorem OpenDir.of_wrote (h : OpenDir sb p dp s) {src : Nat → Byte} {disk' : Disk} {D' : Nat → Dinode}
    (hk : DIRENT * k ≤ (s.bytes sb dp).length)
    (hw : Wrote sb (inodes sb s.disk) (s.icache dp).inum (s.icache dp).inum src (DIRENT * k) DIRENT
      s.disk disk' (dinode sb s.disk) D')
    (hunique : SlotMap.Unique (dirTable (splice (s.bytes sb dp) (DIRENT * k) ((List.range DIRENT).map src)))) :
    OpenDir sb p dp (s.withFile dp disk' (D' (s.icache dp).inum)) ∧
      (s.withFile dp disk' (D' (s.icache dp).inum)).bytes sb dp =
        splice (s.bytes sb dp) (DIRENT * k) ((List.range DIRENT).map src) := by
  have hs := h.synced
  have hself : dinode sb disk' (s.icache dp).inum = D' (s.icache dp).inum := hw.dinode_self rfl
  have hbytes : (s.withFile dp disk' (D' (s.icache dp).inum)).bytes sb dp =
      splice (s.bytes sb dp) (DIRENT * k) ((List.range DIRENT).map src) := by
    unfold FsState.bytes
    rw [withFile_disk, withFile_inum, hw.data_eq]
  have hfields : ∀ i, ((s.withFile dp disk' (D' (s.icache dp).inum)).icache i).inum = (s.icache i).inum ∧
      ((s.withFile dp disk' (D' (s.icache dp).inum)).icache i).dev = (s.icache i).dev ∧
      ((s.withFile dp disk' (D' (s.icache dp).inum)).icache i).ref = (s.icache i).ref ∧
      ((s.withFile dp disk' (D' (s.icache dp).inum)).icache i).lock = (s.icache i).lock ∧
      ((s.withFile dp disk' (D' (s.icache dp).inum)).icache i).valid = (s.icache i).valid := by
    intro i
    by_cases hi : i = dp
    · subst hi
      simp [FsState.withFile]
    · rw [withFile_of_ne _ _ _ _ hi]
      exact ⟨rfl, rfl, rfl, rfl, rfl⟩
  have htype : (D' (s.icache dp).inum).type = T_DIR := by
    obtain ⟨addrs, size, hD⟩ := hw.fields
    rw [hD, ← hs.copy]
    exact h.dir
  refine ⟨⟨h.logged, hw.image_inodes hs.mem, ⟨fun i hi => ?_, fun i hi => ?_, fun i j hi hj heq => ?_,
    fun i hi hv => ?_⟩, fun i => ?_, fun i => ?_, ?_, ?_, ?_, ?_, by rw [hbytes]; exact hunique⟩, hbytes⟩
  · rw [(hfields i).2.2.1] at hi
    rw [(hfields i).1]
    exact h.cache.inum_lt i hi
  · rw [(hfields i).2.2.1] at hi
    rw [(hfields i).2.1]
    exact h.cache.dev i hi
  · rw [(hfields i).2.2.1] at hi
    rw [(hfields j).2.2.1] at hj
    rw [(hfields i).1, (hfields j).1] at heq
    exact h.cache.inj i j hi hj heq
  · rw [(hfields i).2.2.1] at hi
    rw [(hfields i).2.2.2.2] at hv
    rw [(hfields i).1, withFile_disk]
    by_cases hid : i = dp
    · subst hid
      rw [withFile_copy, hself, htype]
      exact ⟨rfl, by decide⟩
    · -- the other inodes in the cache are other inodes on the disk
      obtain ⟨hcopy, h0⟩ := h.cache.sync i hi hv
      have hne : (s.icache i).inum ≠ (s.icache dp).inum := fun heq => hid (h.cache.inj i dp hi h.held heq)
      rw [withFile_of_ne _ _ _ _ hid, hw.dinode_others _ (h.cache.inum_lt i hi) hne]
      exact ⟨hcopy, h0⟩
  · rw [(hfields i).2.2.2.1]
    exact h.lock i
  · rw [(hfields i).2.2.1]
    exact h.ref i
  · rw [(hfields dp).2.2.1]
    exact h.held
  · rw [(hfields dp).2.2.2.2]
    exact h.valid
  · rw [withFile_copy]
    exact htype
  · rw [hbytes, length_splice_entry (by simp) hk]
    have hwhole := h.whole
    simp only [DIRENT] at *
    omega

/-- What `dirlink` does: it returns -1 and changes nothing if the name is
    there, and adds it otherwise. -/
structure DirLink (sb : Superblock) (dp : Slot) (s : FsState) (name : Name) (inum : Nat) (ok : Bool)
    (s' : FsState) : Prop where
  result : ok = false ↔ lookup (s.bytes sb dp) name ≠ none
  unchanged : ok = false → s'.disk = s.disk ∧ s'.bytes sb dp = s.bytes sb dp
  added : ok = true → ∀ name', lookup (s'.bytes sb dp) name' =
    if canon name' = canon name then some inum else lookup (s.bytes sb dp) name'

/-- The name is not there: the new entry goes into the first free slot. -/
theorem OpenDir.wp_dirlink_write (h : OpenDir sb p dp s) (hnone : lookup (s.bytes sb dp) name = none)
    (h0 : 0 < inum) (hlt : inum < 65536) (hdir : FullDir (s.bytes sb dp) → E "dirlink")
    (hfull : NeedsBlock (s.bytes sb dp) →
      free sb.size (bit sb s.disk) < 2 → E "balloc: out of blocks") :
    wp (dirlink_write sb dp name inum) E (fun _ s' => OpenDir sb p dp s' ∧
      DirLink sb dp s name inum true s') s := by
  refine wp_dirlink_put h.synced h.image h.logs hfull (absurd h.whole) hdir ?_
  intro k disk' D' hfree hw
  have hinum : direntInum (direntBytes name inum) = inum := by
    rw [direntInum_direntBytes, Nat.mod_eq_of_lt hlt]
  have hsets := sets_splice (c := s.bytes sb dp) hfree.1.le (length_direntBytes name inum)
  rw [hinum, if_neg (by omega), canon_direntName] at hsets
  obtain ⟨hopen, hbytes⟩ := h.of_wrote hfree.1.le hw (hsets.unique_insert h.unique hnone)
  refine ⟨hopen, ⟨by simp [hnone], by simp, fun _ name' => ?_⟩⟩
  rw [hbytes]
  exact hsets.find_insert h.unique hnone hfree.1.slot (canon name')

/-- The inode that was found is put back, unless it is the directory itself,
    whose lock the process holds. -/
theorem OpenDir.wlp_put_found (h : OpenDir sb p dp s) (inum : Nat) {n : Nat} {i : Slot} {s₁ : FsState}
    (hn : lookup (s.bytes sb dp) name = some n) (hgot : Got s n i s₁)
    (hb : Beside sb s (0 + Pi.single i 1) (fun i => if i = dp then some p else none) s₁)
    (hinum : (s₁.icache i).inum = n) :
    (n ≠ (s.icache dp).inum → wp (iput sb p i .child).run E (fun _ s' => OpenDir sb p dp s' ∧
      DirLink sb dp s name inum false s') s₁) ∧
    (n = (s.icache dp).inum → (iput sb p i .child).run s₁ = .blocked) := by
  constructor
  · intro hself
    have hne : i ≠ dp := by
      rintro rfl
      have hkept := hb.kept i h.held
      rw [hinum] at hkept
      exact hself hkept
    refine hb.wp_iput (if_neg hne) (h.ref i) ?_ fun s₂ hb₂ _ => ?_
    · intro hv _
      cases hgot with
      | hit hpos _ =>
        rw [setInode_self]
        show (s.icache i).ref + 1 ≠ 1
        omega
      | miss _ _ =>
        rw [setInode_self] at hv
        cases hv
    · obtain ⟨hopen, hbytes⟩ := h.of_beside hb₂
      exact ⟨hopen, ⟨by simp [hn], fun _ => ⟨hb₂.disk, hbytes⟩, by simp⟩⟩
  · intro hself
    obtain rfl : i = dp := by
      cases hgot with
      | hit hpos hi => exact h.cache.inj i dp hpos h.held (hi.trans hself)
      | miss hnone _ => exact absurd hself.symm (hnone dp h.held)
    refine hb.iput_blocked ?_
    rw [if_pos rfl]
    exact Option.some_ne_none p

/-- What `dirlink` needs: if the name is there, it must not be the directory
    itself that has it, and the inode cache must have room for the inode it
    stands for. If not, there must be room in the directory, and on the disk if
    the entry does not fit into the last block. -/
def CanLink (sb : Superblock) (dp : Slot) (s : FsState) (name : Name) : Prop :=
  match lookup (s.bytes sb dp) name with
  | some n => n ≠ (s.icache dp).inum ∧ ¬NoRoom s n
  | none => ¬FullDir (s.bytes sb dp) ∧
    (NeedsBlock (s.bytes sb dp) → 2 ≤ free sb.size (bit sb s.disk))

theorem OpenDir.wp_dirlink (h : OpenDir sb p dp s) (hcan : CanLink sb dp s name) (h0 : 0 < inum)
    (hlt : inum < 65536) :
    wp (dirlink sb p dp name inum).run E (fun ok s' => OpenDir sb p dp s' ∧
      DirLink sb dp s name inum ok s') s := by
  have hmap := search_eq_lookup h.unique name
  unfold CanLink at hcan
  unfold dirlink
  rw [wp_run_bind]
  refine h.beside.wp_dirlookup h.image h.held h.synced h.dir (absurd h.whole) ?_ ?_ ?_
  · intro n off hfind hroom
    rw [hfind] at hmap
    rw [← hmap] at hcan
    exact absurd hroom hcan.2
  · intro hfind
    rw [hfind] at hmap
    rw [← hmap] at hcan
    dsimp only [Option.map_none] at hcan
    rw [wp_run_bind, wp_run_step]
    exact h.wp_dirlink_write hmap.symm h0 hlt (absurd · hcan.1) fun hneeds hfew =>
      absurd (hcan.2 hneeds) (not_le.mpr hfew)
  · intro n off i s₁ hfind hgot _ hb hinum
    rw [hfind] at hmap
    rw [← hmap] at hcan
    dsimp only
    rw [wp_run_bind]
    exact (h.wlp_put_found inum hmap.symm hgot hb hinum).1 hcan.1

/-- Whatever happens otherwise, the directory is in order when `dirlink`
    returns. -/
theorem OpenDir.wlp_dirlink (h : OpenDir sb p dp s) (h0 : 0 < inum) (hlt : inum < 65536) :
    wlp (dirlink sb p dp name inum).run (fun _ => True) (fun _ s' => OpenDir sb p dp s') s := by
  have hmap := search_eq_lookup h.unique name
  unfold dirlink
  rw [wlp_run_bind]
  refine (h.beside.wp_dirlookup h.image h.held h.synced h.dir (fun _ => trivial) (fun _ _ _ _ => trivial) ?_ ?_).wlp
  · intro hfind
    rw [hfind] at hmap
    rw [wlp_run_bind]
    have hwrite := h.wp_dirlink_write (E := fun _ => True) hmap.symm h0 hlt (fun _ => trivial) fun _ _ => trivial
    rw [← wp_run_step] at hwrite
    exact hwrite.wlp.mono (fun _ => id) fun _ _ hs => hs.1
  · intro n off i s₁ hfind hgot _ hb hinum
    rw [hfind] at hmap
    have hput := h.wlp_put_found (E := fun _ => True) inum hmap.symm hgot hb hinum
    dsimp only
    rw [wlp_run_bind]
    by_cases hself : n = (s.icache dp).inum
    · -- the process waits for its own lock
      unfold wlp
      rw [hput.2 hself]
      trivial
    · exact (hput.1 hself).wlp.mono (fun _ => id) fun _ _ hs => hs.1

/-- The part of `sys_unlink` that finds an entry and erases it. -/
def erase_name (sb : Superblock) (dp : Slot) (name : Name) : Op FsState Bool := do
  match ← dirlookup_search sb dp name with
  | some (_, off) =>
    erase_dirent sb dp off
    pure true
  | none => pure false

theorem OpenDir.wp_erase_name (h : OpenDir sb p dp s) (name : Name) :
    wp (erase_name sb dp name) E (fun ok s' => OpenDir sb p dp s' ∧
      (ok = true ↔ lookup (s.bytes sb dp) name ≠ none) ∧
      ∀ name', lookup (s'.bytes sb dp) name' =
        if canon name' = canon name then none else lookup (s.bytes sb dp) name') s := by
  have hmap := search_eq_lookup h.unique name
  unfold erase_name
  rw [wp_bind]
  refine wp_dirlookup_search h.synced h.image (absurd h.whole) (absurd h.dir) fun _ => ?_
  cases hfind : search (s.bytes sb dp) name with
  | none =>
    rw [hfind] at hmap
    refine ⟨h, by simp [← hmap], fun name' => ?_⟩
    split
    · next heq =>
      unfold lookup
      rw [heq]
      exact hmap.symm
    · rfl
  | some r =>
    obtain ⟨k, hhas, hname, -, rfl⟩ := search_eq_some.mp hfind
    rw [hfind] at hmap
    dsimp only
    rw [wp_bind]
    refine wp_erase_put h.synced h.image h.logs hhas fun disk' D' hw => ?_
    have hsets := sets_splice (c := s.bytes sb dp) (e := noEntry) hhas.le (by simp [noEntry])
    rw [if_pos (by decide)] at hsets
    obtain ⟨hopen, hbytes⟩ := h.of_wrote hhas.le hw (hsets.unique_erase h.unique)
    refine ⟨hopen, by simp [← hmap], fun name' => ?_⟩
    rw [hbytes]
    exact hsets.find_erase h.unique (dirTable_of_names hhas hname) (canon name')

/-- A name that stands for the directory itself: the process waits for its own
    lock. -/
theorem OpenDir.dirlink_blocked (h : OpenDir sb p dp s)
    (hself : lookup (s.bytes sb dp) name = some (s.icache dp).inum) (inum : Nat) :
    (dirlink sb p dp name inum).run s = .blocked := by
  have hmap := search_eq_lookup h.unique name
  rw [hself] at hmap
  refine wlp.blocks ?_
  unfold dirlink
  rw [wlp_run_bind]
  refine (h.beside.wp_dirlookup h.image h.held h.synced h.dir (absurd h.whole) ?_ ?_ ?_).wlp
  · intro n off hfind hroom
    rw [hfind] at hmap
    exact hroom.1 dp h.held (Option.some.inj hmap).symm
  · intro hfind
    rw [hfind] at hmap
    cases hmap
  · intro n off i s₁ hfind hgot _ hb hinum
    rw [hfind] at hmap
    have hn : n = (s.icache dp).inum := Option.some.inj hmap
    dsimp only
    rw [wlp_run_bind]
    unfold wlp
    rw [(h.wlp_put_found (E := fun _ => False) inum (by rw [hself, hn]) hgot hb hinum).2 hn]
    trivial

/-! ## Any sequence of operations -/

inductive DirAct where
  | link (name : Name) (inum : Nat)
  | erase (name : Name)

/-- Inode numbers are not 0 and fit into an entry. -/
def DirAct.Fits : DirAct → Prop
  | .link _ inum => 0 < inum ∧ inum < 65536
  | .erase _ => True

instance (a : DirAct) : Decidable a.Fits :=
  match a with
  | .link _ inum => inferInstanceAs (Decidable (0 < inum ∧ inum < 65536))
  | .erase _ => .isTrue trivial

def dirAct (sb : Superblock) (p : Pid) (dp : Slot) : DirAct → Op FsState Bool
  | .link name inum => (dirlink sb p dp name inum).run
  | .erase name => erase_name sb dp name

/-- `create` makes the two dots of a directory that is still empty; then any
    operations follow. -/
def dirSystem (sb : Superblock) (p : Pid) (dp : Slot) : LTS.System FsState DirAct where
  init s := ∃ s₀ s₁ parent, OpenDir sb p dp s₀ ∧ s₀.bytes sb dp = [] ∧
    0 < (s₀.icache dp).inum ∧ (s₀.icache dp).inum < 65536 ∧ 0 < parent ∧ parent < 65536 ∧
    (dirlink sb p dp (bytesOf ".") (s₀.icache dp).inum).run s₀ = .ok true s₁ ∧
    (dirlink sb p dp (bytesOf "..") parent).run s₁ = .ok true s
  next s a :=
    if a.Fits then
      match dirAct sb p dp a s with
      | .ok _ s' => some s'
      | _ => none
    else none

theorem openDir_of_reachable (h : LTS.Reachable (dirSystem sb p dp) s) : OpenDir sb p dp s := by
  refine h.invariant ?_ ?_
  · rintro s ⟨s₀, s₁, parent, hs₀, -, hpos, hlt, hpos', hlt', hrun₁, hrun₂⟩
    have hs₁ := (hs₀.wlp_dirlink hpos hlt).of_ok hrun₁
    exact (hs₁.wlp_dirlink hpos' hlt').of_ok hrun₂
  · intro s a s' hs hnext
    have hfits : a.Fits := by
      by_contra hno
      rw [show (dirSystem sb p dp).next s a = none from if_neg hno] at hnext
      cases hnext
    obtain ⟨r, hrun⟩ : ∃ r, dirAct sb p dp a s = .ok r s' := by
      change (if a.Fits then (match dirAct sb p dp a s with
        | .ok _ s' => some s' | _ => none) else none) = some s' at hnext
      rw [if_pos hfits] at hnext
      cases hrun : dirAct sb p dp a s with
      | ok r s₁ => rw [hrun] at hnext; cases hnext; exact ⟨r, rfl⟩
      | panic msg => rw [hrun] at hnext; cases hnext
      | blocked => rw [hrun] at hnext; cases hnext
    cases a with
    | link name inum => exact (hs.wlp_dirlink hfits.1 hfits.2).of_ok hrun
    | erase name => exact ((hs.wp_erase_name (E := fun _ => True) name).of_ok hrun).1

/-- In every directory that can arise, `dirlookup`, `dirlink` and the erasing
    of an entry are the lookup, insertion and removal of a finite map. -/
theorem directory_is_map (h : LTS.Reachable (dirSystem sb p dp) s) :
    (∀ name, wp (dirlookup_search sb dp name) (fun _ => False)
      (fun r s' => s' = s ∧ r.map Prod.fst = lookup (s.bytes sb dp) name) s) ∧
    (∀ name inum, 0 < inum → inum < 65536 → CanLink sb dp s name →
      wp (dirlink sb p dp name inum).run (fun _ => False) (DirLink sb dp s name inum) s) ∧
    ∀ name, wp (erase_name sb dp name) (fun _ => False)
      (fun ok s' => (ok = true ↔ lookup (s.bytes sb dp) name ≠ none) ∧
        ∀ name', lookup (s'.bytes sb dp) name' =
          if canon name' = canon name then none else lookup (s.bytes sb dp) name') s := by
  have hs := openDir_of_reachable h
  refine ⟨fun name => ?_, fun name inum hpos hlt hcan => ?_, fun name => ?_⟩
  · exact wp_dirlookup_search hs.synced hs.image (absurd hs.whole) (absurd hs.dir)
      fun _ => ⟨rfl, search_eq_lookup hs.unique name⟩
  · exact (hs.wp_dirlink hcan hpos hlt).imp fun _ _ hr => hr.2
  · exact (hs.wp_erase_name name).imp fun _ _ hr => hr.2

/-- An empty directory, inode 2, locked in entry 1. -/
def emptyDir : FsState where
  disk := setDinode .mkfs (setDinode .mkfs rootImage 2 (blank T_DIR)) 2 { blank T_DIR with nlink := 1 }
  outstanding := 1
  icache i :=
    if i = 1 then
      { blank T_DIR with nlink := 1, dev := ROOTDEV, inum := 2, ref := 1, lock := some 0, valid := true }
    else .empty
  ftable _ := ⟨.FD_NONE, 0, false, false, 0, 0⟩
  proc _ := ⟨fun _ => none, none⟩

theorem emptyDir_ref {i : Slot} (h : 0 < (emptyDir.icache i).ref) : i = 1 := by
  by_contra hne
  have hempty : emptyDir.icache i = .empty := if_neg hne
  rw [hempty] at h
  exact absurd h (by decide)

theorem emptyDir_open : OpenDir .mkfs 0 1 emptyDir ∧ emptyDir.bytes .mkfs 1 = [] := by
  have hfree : (dinode .mkfs rootImage 2).type = 0 := by
    rw [show rootImage = rootDisk _ from rfl, dinode_rootDisk _ (by decide)]
    decide
  obtain ⟨htouch, hdata⟩ := volume_rootImage.ialloc (t := T_DIR) (by decide) hfree (by decide)
  have hself : dinode .mkfs (setDinode .mkfs rootImage 2 (blank T_DIR)) 2 = blank T_DIR :=
    dinode_setDinode_self _ _
  have hmem : 2 ∈ inodes .mkfs (setDinode .mkfs rootImage 2 (blank T_DIR)) :=
    ⟨by decide, by rw [hself]; decide⟩
  obtain ⟨htouch', hdata', -⟩ := htouch.volume.setFields (d := { blank T_DIR with nlink := 1 }) hmem
    (by rw [hself]) (by rw [hself]) (by rw [hself])
  have hbytes : emptyDir.bytes .mkfs 1 = [] := hdata'.trans hdata
  refine ⟨⟨le_rfl, htouch'.volume.image, ⟨fun i hi => ?_, fun i hi => ?_, fun i j hi hj _ => ?_,
    fun i hi _ => ?_⟩, fun i => ?_, fun i => ?_, by decide, rfl, rfl, by rw [hbytes]; rfl, ?_⟩, hbytes⟩
  · rw [emptyDir_ref hi]
    decide
  · rw [emptyDir_ref hi]
    rfl
  · rw [emptyDir_ref hi, emptyDir_ref hj]
  · rw [emptyDir_ref hi]
    exact ⟨(dinode_setDinode_self _ _).symm, by decide⟩
  · by_cases hi : i = 1
    · rw [if_pos hi, hi]
      rfl
    · rw [if_neg hi, show emptyDir.icache i = .empty from if_neg hi]
      rfl
  · by_cases hi : i = 1
    · rw [hi]
      decide
    · rw [show emptyDir.icache i = .empty from if_neg hi]
      decide
  · rw [hbytes]
    intro i j k v w hi
    cases hi

/-- The directory with its two dots. -/
theorem exists_dots : ∃ s, LTS.Reachable (dirSystem .mkfs 0 1) s ∧
    lookup (s.bytes .mkfs 1) (bytesOf ".") = some (s.icache 1).inum ∧
    CanLink .mkfs 1 s (bytesOf "x") := by
  obtain ⟨hopen, hempty⟩ := emptyDir_open
  have hexec : ((dirlink .mkfs 0 1 (bytesOf ".") 2).run emptyDir).returns (fun ok₁ s₁ => ok₁ &&
      ((dirlink .mkfs 0 1 (bytesOf "..") 1).run s₁).returns fun ok s => ok &&
        decide (lookup (s.bytes .mkfs 1) (bytesOf ".") = some (s.icache 1).inum) &&
        decide (lookup (s.bytes .mkfs 1) (bytesOf "x") = none) &&
        decide ((s.bytes .mkfs 1).length = 32)) = true := by decide +kernel
  obtain ⟨ok₁, s₁, hrun₁, hexec⟩ := Outcome.of_returns hexec
  obtain ⟨rfl, hexec⟩ := Bool.and_eq_true_iff.mp hexec
  obtain ⟨ok, s, hrun₂, hexec⟩ := Outcome.of_returns hexec
  simp only [Bool.and_eq_true, decide_eq_true_eq] at hexec
  obtain ⟨⟨⟨rfl, hdot⟩, hx⟩, hlen⟩ := hexec
  refine ⟨s, .init ⟨emptyDir, s₁, 1, hopen, hempty, by decide, by decide, by decide, by decide,
    hrun₁, hrun₂⟩, hdot, ?_⟩
  unfold CanLink
  rw [hx]
  constructor
  · intro hfull
    have hlarge := hfull.2
    rw [hlen] at hlarge
    exact absurd hlarge (by decide)
  · intro hneeds
    have hlast := hneeds.2
    rw [hlen] at hlast
    exact absurd hlast (by decide)

/-- Adding `"x"` to a new directory. -/
theorem directory_is_map_new : ∃ s, LTS.Reachable (dirSystem .mkfs 0 1) s ∧
    wp (dirlink .mkfs 0 1 (bytesOf "x") 7).run (fun _ => False) (DirLink .mkfs 1 s (bytesOf "x") 7) s := by
  obtain ⟨s, hreach, -, hcan⟩ := exists_dots
  exact ⟨s, hreach, (directory_is_map hreach).2.1 _ _ (by decide) (by decide) hcan⟩

/-- Adding `"."` once more does not return. -/
theorem dirlink_dot_blocks : ∃ s, LTS.Reachable (dirSystem .mkfs 0 1) s ∧
    lookup (s.bytes .mkfs 1) (bytesOf ".") ≠ none ∧
    (dirlink .mkfs 0 1 (bytesOf ".") 7).run s = .blocked := by
  obtain ⟨s, hreach, hdot, -⟩ := exists_dots
  refine ⟨s, hreach, ?_, (openDir_of_reachable hreach).dirlink_blocked hdot 7⟩
  rw [hdot]
  exact Option.some_ne_none _

end Xv6.Fs
