import Xv6.Fs.Trunc
import Xv6.Fs.Dir

/-! # A whole file system on disk

    The files are now the allocated inodes of the disk itself. `Volume` is the
    invariant of the disk: `Image` for all of them at once, a free map that
    marks nothing else, and directory entries that name existing inode
    numbers. The five ways in which the kernel changes the disk each keep it,
    and each touches one inode only: writing to a file, storing new fields of
    an inode, allocating an inode and freeing one.
-/

namespace Xv6.Fs

open BitRange Ownership Op Function

/-- The allocated inodes. -/
def inodes (sb : Superblock) (disk : Disk) : Set Nat :=
  {n | n < sb.ninodes ∧ (dinode sb disk n).type ≠ 0}

/-- The byte string of inode `n`. -/
def data (sb : Superblock) (disk : Disk) (n : Nat) : List Byte :=
  contents disk (dinode sb disk n)

/-! ## Directories as byte strings -/

/-- The `k`-th entry of a directory. -/
def entry (c : List Byte) (k : Nat) : List Byte := (c.drop (DIRENT * k)).take DIRENT

/-- The directory has a `k`-th entry. -/
def HasEntry (c : List Byte) (k : Nat) : Prop := DIRENT * (k + 1) ≤ c.length

/-- All entries name inode numbers below `n`. -/
def NamesBelow (n : Nat) (c : List Byte) : Prop :=
  ∀ k, HasEntry c k → direntInum (entry c k) < n

/-- The entry of `name` is the `k`-th one, and it names inode `n`. -/
structure Found (c : List Byte) (name : Name) (n k : Nat) : Prop where
  has : HasEntry c k
  inum : direntInum (entry c k) = n
  live : n ≠ 0
  match_ : namecmp name (direntName (entry c k)) = 0

/-- No entry has the name `name`. -/
def Absent (c : List Byte) (name : Name) : Prop :=
  ∀ k, HasEntry c k → direntInum (entry c k) ≠ 0 → namecmp name (direntName (entry c k)) ≠ 0

/-- The bytes of the entry `(name, inum)`. -/
def direntBytes (name : Name) (inum : Nat) : List Byte := (List.range DIRENT).map (dirent name inum)

theorem length_direntBytes (name : Name) (inum : Nat) : (direntBytes name inum).length = DIRENT := by
  simp [direntBytes]

/-- The sixteen zeroes that stand for an empty entry. -/
def noEntry : List Byte := (List.range DIRENT).map fun _ => 0

section

variable {c : List Byte} {k : Nat} {e : List Byte}

section

variable (he : e.length = DIRENT) (hk : DIRENT * k ≤ c.length)
include he hk

theorem length_splice_entry :
    (splice c (DIRENT * k) e).length = max c.length (DIRENT * (k + 1)) := by
  unfold splice
  simp only [List.length_append, List.length_take, List.length_drop, he, DIRENT] at *
  omega

theorem entry_splice_self : entry (splice c (DIRENT * k) e) k = e := by
  have hlen : (c.take (DIRENT * k)).length = DIRENT * k := List.length_take_of_le hk
  unfold entry splice
  rw [List.append_assoc, List.drop_append_of_le_length (by rw [hlen]),
    List.drop_of_length_le (by rw [hlen]), List.nil_append, ← he, List.take_left]

theorem entry_splice_ne {j : Nat} (hj : HasEntry c j) (hne : j ≠ k) :
    entry (splice c (DIRENT * k) e) j = entry c j := by
  have hlen : (c.take (DIRENT * k)).length = DIRENT * k := List.length_take_of_le hk
  unfold HasEntry at hj
  unfold entry splice
  apply List.ext_getElem
  · simp only [List.length_take, List.length_drop, List.length_append, he, DIRENT] at *
    omega
  · intro i h1 h2
    simp only [List.length_take, List.length_drop, DIRENT] at h2
    simp only [List.getElem_take, List.getElem_drop, List.append_assoc]
    simp only [DIRENT] at hj hk hlen he ⊢
    by_cases hlt : j < k
    · rw [List.getElem_append_left (by rw [hlen]; omega), List.getElem_take]
    · rw [List.getElem_append_right (by rw [hlen]; omega),
        List.getElem_append_right (by rw [hlen, he]; omega)]
      simp only [List.getElem_drop, hlen, he]
      congr 1
      omega

/-- The entries after one of them has been written. -/
theorem hasEntry_splice {j : Nat} (hj : HasEntry (splice c (DIRENT * k) e) j) :
    j = k ∨ HasEntry c j := by
  unfold HasEntry at hj ⊢
  rw [length_splice_entry he hk] at hj
  simp only [DIRENT] at *
  omega

end

theorem NamesBelow.splice {n : Nat} (h : NamesBelow n c) (he : e.length = DIRENT)
    (hk : DIRENT * k ≤ c.length) (hn : direntInum e < n) :
    NamesBelow n (splice c (DIRENT * k) e) := by
  intro j hj
  by_cases hjk : j = k
  · rw [hjk, entry_splice_self he hk]
    exact hn
  · have hj' := (hasEntry_splice he hk hj).resolve_left hjk
    rw [entry_splice_ne he hk hj' hjk]
    exact h j hj'

end

/-! ## The invariant -/

/-- The inodes on the disk make an image. -/
abbrev DiskImage (sb : Superblock) (disk : Disk) : Prop := Image sb disk (inodes sb disk) (dinode sb disk)

/-- The invariant of the disk. -/
structure Volume (sb : Superblock) (disk : Disk) : Prop where
  image : Image sb disk (inodes sb disk) (dinode sb disk)
  noleak : NoLeak sb disk (inodes sb disk) (dinode sb disk)
  names : ∀ n ∈ inodes sb disk, (dinode sb disk n).type = T_DIR →
    NamesBelow sb.ninodes (data sb disk n)

/-- The block each pointer slot of each allocated inode refers to. -/
noncomputable abbrev slots (sb : Superblock) (disk : Disk) : Nat × Nat → Nat :=
  own disk (inodes sb disk) (dinode sb disk)

/-- The change from `disk` to `disk'` concerns inode `n` only. -/
structure Touches (sb : Superblock) (n : Nat) (disk disk' : Disk) : Prop where
  volume : Volume sb disk'
  dinode : ∀ m, m < sb.ninodes → m ≠ n → dinode sb disk' m = dinode sb disk m
  data : ∀ m ∈ inodes sb disk, m ≠ n → data sb disk' m = data sb disk m
  slots : ∀ m k, m ≠ n → slots sb disk' (m, k) = slots sb disk (m, k)

/-- No block of inode `n` is given back. -/
def Grows (sb : Superblock) (n : Nat) (disk disk' : Disk) : Prop :=
  ∀ k, slots sb disk (n, k) ≠ 0 → slots sb disk' (n, k) = slots sb disk (n, k)

variable {sb : Superblock} {disk disk' : Disk} {n : Nat} {t : BitVec 16}

theorem length_data (sb : Superblock) (disk : Disk) (n : Nat) :
    (data sb disk n).length = (dinode sb disk n).size.toNat := by
  unfold data contents
  simp

section

variable {I : Type} {F : Set I} {D D' : I → Dinode}

/-- Only the inodes of the files matter. -/
theorem own_congr_on (h : ∀ i ∈ F, D' i = D i) : own disk F D' = own disk F D :=
  own_congr (fun i hi => by rw [h i hi]) fun _ _ _ => rfl

theorem Image.congr_on (him : Image sb disk F D) (h : ∀ i ∈ F, D' i = D i) :
    Image sb disk F D' := by
  have hown : own disk F D' = own disk F D := own_congr_on h
  refine ⟨by rw [hown]; exact him.owns, fun i hi bn hbn => ?_, him.meta_marked⟩
  rw [h i hi] at hbn
  rw [hown]
  exact him.nohole i hi bn hbn

theorem NoLeak.congr_on (hn : NoLeak sb disk F D) (h : ∀ i ∈ F, D' i = D i) :
    NoLeak sb disk F D' := by
  unfold NoLeak
  rw [own_congr_on h]
  exact hn

end

/-- The other inodes are allocated as before. -/
theorem mem_inodes_iff (hd : ∀ m, m < sb.ninodes → m ≠ n → dinode sb disk' m = dinode sb disk m)
    {m : Nat} (hm : m ≠ n) : m ∈ inodes sb disk' ↔ m ∈ inodes sb disk := by
  unfold inodes
  constructor
  · intro h
    exact ⟨h.1, by rw [← hd m h.1 hm]; exact h.2⟩
  · intro h
    exact ⟨h.1, by rw [hd m h.1 hm]; exact h.2⟩

/-- A change of inode `n`, in general: the invariant holds for the files as
    `D` gives them, and the entries of `n` are in order. -/
theorem Touches.intro {F : Set Nat} {D : Nat → Dinode} (hv : Volume sb disk)
    (himage : Image sb disk' F D) (hleak : NoLeak sb disk' F D)
    (hF : inodes sb disk' = F) (hD : ∀ m ∈ F, Fs.dinode sb disk' m = D m)
    (hdinode : ∀ m, m < sb.ninodes → m ≠ n → Fs.dinode sb disk' m = Fs.dinode sb disk m)
    (hdata : ∀ m ∈ inodes sb disk, m ≠ n → contents disk' (Fs.dinode sb disk m) =
      Fs.data sb disk m)
    (hown : ∀ m k, m ≠ n → own disk' F D (m, k) = Fs.slots sb disk (m, k))
    (hnames : n ∈ inodes sb disk' → (Fs.dinode sb disk' n).type = T_DIR →
      NamesBelow sb.ninodes (Fs.data sb disk' n)) : Touches sb n disk disk' := by
  have hdata' : ∀ m ∈ inodes sb disk, m ≠ n → Fs.data sb disk' m = Fs.data sb disk m := by
    intro m hm hne
    have := hdata m hm hne
    unfold Fs.data at this ⊢
    rw [hdinode m hm.1 hne, this]
  refine ⟨⟨?_, ?_, ?_⟩, hdinode, hdata', fun m k hmn => ?_⟩
  · rw [hF]; exact himage.congr_on hD
  · rw [hF]; exact hleak.congr_on hD
  · intro m hm htype
    by_cases hmn : m = n
    · subst hmn
      exact hnames hm htype
    · have hm0 := (mem_inodes_iff hdinode hmn).mp hm
      rw [hdinode m hm.1 hmn] at htype
      rw [hdata' m hm0 hmn]
      exact hv.names m hm0 htype
  · unfold Fs.slots
    rw [hF, own_congr_on hD]
    exact hown m k hmn

/-! ## Writing to a file -/

section

variable {src : Nat → Byte} {off len : Nat} {D' : Nat → Dinode}

section

variable (hw : Wrote sb (inodes sb disk) n n src off len disk disk' (dinode sb disk) D')
include hw

/-- `writei` leaves the type of the inode alone, so the same inodes are
    allocated. -/
theorem Wrote.inodes_eq (hn : n ∈ inodes sb disk) : inodes sb disk' = inodes sb disk := by
  obtain ⟨addrs, size, hfields⟩ := hw.fields
  ext m
  by_cases hm : m = n
  · subst hm
    exact ⟨fun _ => hn, fun _ => ⟨hn.1, by rw [hw.dinode_self rfl, hfields]; exact hn.2⟩⟩
  · exact mem_inodes_iff hw.dinode_others hm

theorem Wrote.dinode_eq {m : Nat} (hm : m ∈ inodes sb disk) : dinode sb disk' m = D' m := by
  by_cases hmn : m = n
  · rw [hmn, hw.dinode_self rfl]
  · rw [hw.dinode_others m hm.1 hmn, hw.others m hmn]

theorem Wrote.data_eq :
    data sb disk' n = splice (data sb disk n) off ((List.range len).map src) := by
  unfold data
  rw [hw.dinode_self rfl, hw.contents_eq]

/-- All inodes are in order afterwards. -/
theorem Wrote.image_inodes (hn : n ∈ inodes sb disk) :
    Image sb disk' (inodes sb disk') (dinode sb disk') := by
  rw [hw.inodes_eq hn]
  exact hw.image.congr_on fun m hm => hw.dinode_eq hm

end

/-- `writei` changed inode `n`. -/
theorem Volume.write (hv : Volume sb disk)
    (hn : n ∈ inodes sb disk)
    (hw : Wrote sb (inodes sb disk) n n src off len disk disk' (dinode sb disk) D')
    (hnames : (dinode sb disk n).type = T_DIR →
      NamesBelow sb.ninodes (splice (data sb disk n) off ((List.range len).map src))) :
    Touches sb n disk disk' ∧ dinode sb disk' n = D' n ∧
      (∃ addrs size, D' n = { dinode sb disk n with addrs := addrs, size := size }) ∧
      data sb disk' n = splice (data sb disk n) off ((List.range len).map src) ∧
      Grows sb n disk disk' := by
  obtain ⟨addrs, size, hfields⟩ := hw.fields
  have hself : dinode sb disk' n = D' n := hw.dinode_self rfl
  have htype : (dinode sb disk' n).type = (dinode sb disk n).type := by rw [hself, hfields]
  have hF := hw.inodes_eq hn
  have hD : ∀ m ∈ inodes sb disk, dinode sb disk' m = D' m := fun m hm => hw.dinode_eq hm
  refine ⟨?_, hself, ⟨addrs, size, hfields⟩, hw.data_eq, fun k hk => ?_⟩
  · exact .intro hv hw.image (hw.noleak hv.noleak) hF hD hw.dinode_others
      (fun m hm hne => hw.contents_others m hm hne) hw.own_others
      fun _ ht => by rw [hw.data_eq]; exact hnames (by rw [← htype]; exact ht)
  · unfold slots
    rw [hF, own_congr_on hD]
    exact hw.own_mono k hk

end

/-! ## Storing an inode -/

/-- New fields of inode `n`; its contents do not change. -/
theorem Volume.setFields (hv : Volume sb disk) {d : Dinode} (hn : n ∈ inodes sb disk)
    (htype : d.type = (dinode sb disk n).type) (hsize : d.size = (dinode sb disk n).size)
    (haddrs : d.addrs = (dinode sb disk n).addrs) :
    Touches sb n disk (setDinode sb disk n d) ∧
      data sb (setDinode sb disk n d) n = data sb disk n ∧
      Grows sb n disk (setDinode sb disk n d) := by
  have hself : dinode sb (setDinode sb disk n d) n = d := dinode_setDinode_self n d
  have hother : ∀ m, m < sb.ninodes → m ≠ n →
      dinode sb (setDinode sb disk n d) m = dinode sb disk m :=
    fun m _ hm => dinode_setDinode_ne d hm
  have hF : inodes sb (setDinode sb disk n d) = inodes sb disk := by
    ext m
    by_cases hm : m = n
    · subst hm
      exact ⟨fun _ => hn, fun _ => ⟨hn.1, by rw [hself, htype]; exact hn.2⟩⟩
    · exact mem_inodes_iff hother hm
  have hblocks : ∀ x, sb.datastart ≤ x → setDinode sb disk n d x = disk x :=
    fun x hx => setDinode_apply_of_datastart_le d hn.1 hx
  have hdata : data sb (setDinode sb disk n d) n = data sb disk n := by
    have hcongr := hv.image.contents_congr hblocks hn
    unfold data at hcongr ⊢
    rw [← hcongr, hself]
    unfold contents byteAt
    rw [hsize]
    apply List.map_congr_left
    intro pos _
    have hptr : ∀ k, ptr (setDinode sb disk n d) d k =
        ptr (setDinode sb disk n d) (dinode sb disk n) k := fun k => ptr_congr k haddrs fun _ => rfl
    rw [hptr]
  obtain ⟨him, hown⟩ := hv.image.setFields haddrs fun bn hbn =>
    hv.image.nohole n hn bn (by rw [← hsize]; exact hbn)
  have hleak : NoLeak sb disk (inodes sb disk) (update (dinode sb disk) n d) := by
    unfold NoLeak
    rw [hown]
    exact hv.noleak
  have hD : ∀ m ∈ inodes sb disk, dinode sb (setDinode sb disk n d) m =
      update (dinode sb disk) n d m := by
    intro m _
    by_cases hm : m = n
    · rw [hm, hself, update_self]
    · rw [dinode_setDinode_ne d hm, update_of_ne hm]
  refine ⟨.intro hv (him.setDinode hn.1 d) (hleak.setDinode him hn.1 d) hF hD hother ?_ ?_ ?_, hdata,
    fun k _ => ?_⟩
  · intro m hm _
    exact hv.image.contents_congr hblocks hm
  · intro m k _
    rw [own_setDinode him hn.1, hown]
  · intro _ ht
    rw [hdata]
    exact hv.names n hn (by rw [← htype, ← hself]; exact ht)
  · unfold slots
    rw [hF, own_congr_on hD, own_setDinode him hn.1, hown]

/-! ## Allocating an inode -/

/-- An inode with nothing but a type. -/
def blank (type : BitVec 16) : Dinode := { Dinode.zero with type := type }

theorem addr_blank (t : BitVec 16) (k : Nat) : (blank t).addr k = 0 := by
  show (cell 32 (0#(32 * (NDIRECT + 1))) k).toNat = 0
  rw [cell_zero]
  rfl

theorem ptr_blank (disk : Disk) (t : BitVec 16) (k : Nat) : ptr disk (blank t) k = 0 := by
  unfold ptr
  split
  · exact addr_blank t k
  · rw [if_pos (addr_blank t NDIRECT)]

/-- A file without blocks adds nothing to the table of owners. -/
theorem own_insert_blank {F : Set Nat} {D : Nat → Dinode} (hn : n ∉ F) (hD : D n = blank t) :
    own disk (insert n F) D = own disk F D := by
  funext ⟨i, k⟩
  by_cases hi : i = n
  · subst hi
    rw [own_of_not_mem hn]
    unfold own
    split
    · rw [hD]; exact ptr_blank disk t k
    · rfl
  · have hiff : i ∈ insert n F ↔ i ∈ F := by rw [Set.mem_insert_iff, or_iff_right hi]
    by_cases hik : i ∈ F ∧ k < NPTR
    · rw [own_eq hik.1 hik.2, own_eq (hiff.mpr hik.1) hik.2]
    · unfold own
      rw [if_neg hik, if_neg fun h => hik ⟨hiff.mp h.1, h.2⟩]

/-- `ialloc` took inode `n`. -/
theorem Volume.ialloc (hv : Volume sb disk) (hn : n < sb.ninodes)
    (hfree : (dinode sb disk n).type = 0) (ht : t ≠ 0) :
    Touches sb n disk (setDinode sb disk n (blank t)) ∧
      data sb (setDinode sb disk n (blank t)) n = [] := by
  have hself : dinode sb (setDinode sb disk n (blank t)) n = blank t := dinode_setDinode_self n _
  have hother : ∀ m, m < sb.ninodes → m ≠ n →
      dinode sb (setDinode sb disk n (blank t)) m = dinode sb disk m :=
    fun m _ hm => dinode_setDinode_ne _ hm
  have hn0 : n ∉ inodes sb disk := fun h => h.2 hfree
  have hF : inodes sb (setDinode sb disk n (blank t)) = insert n (inodes sb disk) := by
    ext m
    by_cases hm : m = n
    · subst hm
      exact ⟨fun _ => Set.mem_insert _ _, fun _ => ⟨hn, by rw [hself]; exact ht⟩⟩
    · rw [Set.mem_insert_iff, or_iff_right hm]
      exact mem_inodes_iff hother hm
  have hblocks : ∀ x, sb.datastart ≤ x → setDinode sb disk n (blank t) x = disk x :=
    fun x hx => setDinode_apply_of_datastart_le _ hn hx
  have hdata : data sb (setDinode sb disk n (blank t)) n = [] := by
    unfold data
    rw [hself]
    rfl
  -- the table of owners is the old one
  have hD : update (dinode sb disk) n (blank t) n = blank t := update_self _ _ _
  have hsame : ∀ m ∈ inodes sb disk, update (dinode sb disk) n (blank t) m =
      dinode sb disk m := fun m hm => update_of_ne (by rintro rfl; exact hn0 hm) _ _
  have hown : own disk (insert n (inodes sb disk)) (update (dinode sb disk) n (blank t)) =
      own disk (inodes sb disk) (dinode sb disk) := by
    rw [own_insert_blank hn0 hD, own_congr_on hsame]
  have him : Image sb disk (insert n (inodes sb disk))
      (update (dinode sb disk) n (blank t)) := by
    refine ⟨by rw [hown]; exact hv.image.owns, ?_, hv.image.meta_marked⟩
    intro m hm bn hbn
    rw [hown]
    rcases Set.mem_insert_iff.mp hm with rfl | hm'
    · rw [hD] at hbn
      exact absurd hbn (Nat.not_lt_zero _)
    · rw [hsame m hm'] at hbn
      exact hv.image.nohole m hm' bn hbn
  have hleak : NoLeak sb disk (insert n (inodes sb disk))
      (update (dinode sb disk) n (blank t)) := by
    unfold NoLeak
    rw [hown]
    exact hv.noleak
  refine ⟨.intro hv (him.setDinode hn _) (hleak.setDinode him hn _) hF ?_ hother ?_ ?_ ?_, hdata⟩
  · intro m _
    by_cases hm : m = n
    · rw [hm, hself, update_self]
    · rw [dinode_setDinode_ne _ hm, update_of_ne hm]
  · intro m hm _
    exact hv.image.contents_congr hblocks hm
  · intro m k _
    rw [own_setDinode him hn, hown]
  · intro _ _ k hk
    rw [hdata] at hk
    unfold HasEntry at hk
    simp only [List.length_nil, DIRENT] at hk
    omega

/-! ## Freeing an inode -/

/-- `iput` truncated inode `n` and gave it the type 0. -/
theorem Volume.free (hv : Volume sb disk) {d : Dinode} (hn : n < sb.ninodes)
    (ht : Truncated sb (inodes sb disk) n n disk disk' (dinode sb disk) d) {d' : Dinode}
    (hd' : d'.type = 0) :
    Touches sb n disk (setDinode sb disk' n d') := by
  have hself : dinode sb (setDinode sb disk' n d') n = d' := dinode_setDinode_self n _
  have hother : ∀ m, m < sb.ninodes → m ≠ n →
      dinode sb (setDinode sb disk' n d') m = dinode sb disk m := by
    intro m hm hne
    rw [dinode_setDinode_ne _ hne, ht.dinode_others m hm hne]
  have hF : inodes sb (setDinode sb disk' n d') = inodes sb disk \ {n} := by
    ext m
    by_cases hm : m = n
    · subst hm
      refine iff_of_false (fun h => h.2 ?_) fun h => h.2 rfl
      rw [hself]
      exact hd'
    · rw [mem_inodes_iff hother hm]
      exact ⟨fun h => ⟨h, hm⟩, fun h => h.1⟩
  refine .intro hv (ht.image.setDinode hn _) ((ht.noleak hv.noleak).setDinode ht.image hn _) hF
    ?_ hother ?_ ?_ ?_
  · intro m hm
    exact hother m hm.1.1 hm.2
  · intro m hm hne
    have hmem : m ∈ inodes sb disk \ {n} := ⟨hm, hne⟩
    rw [ht.image.contents_congr (fun x hx => setDinode_apply_of_datastart_le _ hn hx) hmem,
      ht.contents_others m hm hne]
    rfl
  · intro m k hmn
    rw [own_setDinode ht.image hn, ht.own_others m k hmn]
  · intro h _
    exact absurd h (by rw [hF]; exact fun h => h.2 rfl)

end Xv6.Fs
