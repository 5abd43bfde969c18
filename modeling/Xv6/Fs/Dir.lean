import Xv6.Fs.Inode

/-! # Directories and path names

    Directory entries, the loops of `dirlookup`, `dirlink` and `isdirempty`
    over the contents of one directory, and the splitting of path names.
-/

namespace Xv6.Fs

/-- A name or a path: the bytes of a string without its NUL. -/
abbrev Name : Type := List Byte

/-- The bytes of a string. -/
def bytesOf (s : String) : Name := s.toList.map fun c => BitVec.ofNat 8 c.toNat

/-! ## Directory entries -/

/-- `sizeof(struct dirent)`. -/
abbrev DIRENT : Nat := 16

/-- `strncmp`; a string ends with its list. -/
def strncmp : (n : Nat) → (p q : List Byte) → Int
  | 0, _, _ => 0
  | n + 1, p, q =>
    if p.headD 0 ≠ 0 ∧ p.headD 0 = q.headD 0 then strncmp n p.tail q.tail
    else (p.headD 0).toNat - (q.headD 0).toNat

def namecmp (s t : List Byte) : Int := strncmp DIRSIZ s t

/-- `de.inum` of the sixteen bytes of an entry. -/
def direntInum (de : List Byte) : Nat := (de.getD 0 0).toNat + 256 * (de.getD 1 0).toNat

/-- `de.name` of the sixteen bytes of an entry. -/
def direntName (de : List Byte) : List Byte := de.drop 2

/-- The bytes of the entry `(name, inum)`; `strncpy` pads the name with NULs
    and `inum` is cut to a `ushort`. -/
def dirent (name : Name) (inum : Nat) (i : Nat) : Byte :=
  if i = 0 then BitVec.ofNat 8 inum
  else if i = 1 then BitVec.ofNat 8 (inum / 256)
  else (name.take DIRSIZ).getD (i - 2) 0

variable (sb : Superblock)

/-- Read the entry at `off`, or panic with `msg`. -/
def readDirent (msg : String) (dp : Slot) (off : Nat) : Op FsState (List Byte) := do
  match ← readi_blocks sb dp (BitVec.ofNat 32 off) (BitVec.ofNat 32 DIRENT) with
  | some de => if de.length ≠ DIRENT then Op.panic msg else pure de
  | none => Op.panic msg

/-- The loop of `dirlookup`: the inode number and the offset of the entry. -/
def dirlookup_scan (dp : Slot) (name : Name) : (fuel off : Nat) → Op FsState (Option (Nat × Nat))
  | 0, _ => pure none
  | fuel + 1, off => do
    let s ← Op.get
    if off < (s.icache dp).size.toNat then
      let de ← readDirent sb "dirlookup read" dp off
      if direntInum de = 0 then
        dirlookup_scan dp name fuel (off + DIRENT)
      else if namecmp name (direntName de) = 0 then
        pure (some (direntInum de, off))
      else
        dirlookup_scan dp name fuel (off + DIRENT)
    else
      pure none

/-- Look for a directory entry in a directory. -/
def dirlookup_search (dp : Slot) (name : Name) : Op FsState (Option (Nat × Nat)) := do
  let s ← Op.get
  if (s.icache dp).type ≠ T_DIR then
    Op.panic "dirlookup not DIR"
  else
    dirlookup_scan sb dp name ((s.icache dp).size.toNat / DIRENT + 1) 0

/-- The loop of `dirlink` that looks for an empty dirent. -/
def dirlink_scan (dp : Slot) : (fuel off : Nat) → Op FsState Nat
  | 0, off => pure off
  | fuel + 1, off => do
    let s ← Op.get
    if off < (s.icache dp).size.toNat then
      let de ← readDirent sb "dirlink read" dp off
      if direntInum de = 0 then
        pure off
      else
        dirlink_scan dp fuel (off + DIRENT)
    else
      pure off

/-- Write a new directory entry into a directory that has none of this name. -/
def dirlink_write (dp : Slot) (name : Name) (inum : Nat) : Op FsState Unit := do
  let s ← Op.get
  let off ← dirlink_scan sb dp ((s.icache dp).size.toNat / DIRENT + 1) 0
  let r ← writei_blocks sb dp (dirent name inum) (BitVec.ofNat 32 off) (BitVec.ofNat 32 DIRENT)
  if r ≠ some (BitVec.ofNat 32 DIRENT) then
    Op.panic "dirlink"
  else
    pure ()

/-- The loop of `isdirempty`. -/
def isdirempty_scan (dp : Slot) : (fuel off : Nat) → Op FsState Bool
  | 0, _ => pure true
  | fuel + 1, off => do
    let s ← Op.get
    if off < (s.icache dp).size.toNat then
      let de ← readDirent sb "isdirempty: readi" dp off
      if direntInum de ≠ 0 then
        pure false
      else
        isdirempty_scan dp fuel (off + DIRENT)
    else
      pure true

/-- Is the directory dp empty except for "." and ".." ? -/
def isdirempty (dp : Slot) : Op FsState Bool := do
  let s ← Op.get
  isdirempty_scan sb dp ((s.icache dp).size.toNat / DIRENT + 1) (2 * DIRENT)

/-- Overwrite the entry at `off` with zeroes, as `sys_unlink` does. -/
def erase_dirent (dp : Slot) (off : Nat) : Op FsState Unit := do
  let r ← writei_blocks sb dp (fun _ => 0) (BitVec.ofNat 32 off) (BitVec.ofNat 32 DIRENT)
  if r ≠ some (BitVec.ofNat 32 DIRENT) then
    Op.panic "unlink: writei"
  else
    pure ()

/-! ## Paths -/

/-- The byte '/'. -/
abbrev SLASH : Byte := 47

/-- Copy the next path element; the result is the element and the rest of the
    path, without leading slashes. -/
def skipelem (path : Name) : Option (Name × Name) :=
  match path.dropWhile (· = SLASH) with
  | [] => none
  | c :: cs =>
    let path := c :: cs
    some ((path.takeWhile (· ≠ SLASH)).take DIRSIZ,
      (path.dropWhile (· ≠ SLASH)).dropWhile (· = SLASH))

/-- An element takes at least one byte of the path. -/
theorem length_skipelem {path name rest : Name} (h : skipelem path = some (name, rest)) :
    rest.length < path.length := by
  unfold skipelem at h
  have hle := (List.dropWhile_suffix (l := path) (· = SLASH)).length_le
  have hhead := List.head?_dropWhile_not (· = SLASH) path
  cases hp : path.dropWhile (· = SLASH) with
  | nil => rw [hp] at h; cases h
  | cons c cs =>
    rw [hp] at h hle hhead
    simp only [Option.some.injEq, Prod.mk.injEq] at h
    obtain ⟨_, rfl⟩ := h
    -- the first byte of the element is not a slash
    have hc : c ≠ SLASH := by simpa using hhead
    rw [List.dropWhile_cons_of_pos (by simpa using hc)]
    have h1 := (List.dropWhile_suffix (l := cs) (· ≠ SLASH)).length_le
    have h2 := (List.dropWhile_suffix (l := cs.dropWhile (· ≠ SLASH)) (· = SLASH)).length_le
    simp only [List.length_cons] at hle
    omega

end Xv6.Fs
