import Xv6.Fs.Volume

/-! # `mkfs`

    The host program that builds the first file system: it writes inodes,
    directory entries and file contents into an array of sectors, takes blocks
    one after the other from `freeblock` on, and writes the free map at the
    end. Its asserts end the program; here the result is then `none`.
-/

namespace Xv6.Mkfs

open BitRange Fs

/-! ## The program -/

/-- The image and the two counters. -/
structure State where
  disk : Disk
  freeinode : Nat
  freeblock : Nat

/-- Number of inodes. -/
abbrev NINODES : Nat := 200

/-- Number of meta blocks (boot, sb, nlog, inode, bitmap). -/
abbrev nmeta : Nat := 2 + LOGSIZE + (NINODES / IPB + 1) + (FSSIZE / (BSIZE * 8) + 1)

def wsect (s : State) (sec : Nat) (buf : Block) : State :=
  { s with disk := Function.update s.disk sec buf }

def rsect (s : State) (sec : Nat) : Block := s.disk sec

def winode (s : State) (inum : Nat) (d : Dinode) : State :=
  let bn := Superblock.mkfs.IBLOCK inum
  wsect s bn (setCell (rsect s bn) (inum % IPB) d.encode)

def rinode (s : State) (inum : Nat) : Dinode :=
  .decode (cell 512 (rsect s (Superblock.mkfs.IBLOCK inum)) (inum % IPB))

def ialloc (s : State) (type : BitVec 16) : Nat × State :=
  (s.freeinode, winode { s with freeinode := s.freeinode + 1 } s.freeinode
    { Dinode.zero with type := type, nlink := 1, size := 0 })

/-- The sector with the first `used` bits set. -/
def bitmap (used : Nat) : Block :=
  (List.range used).foldl (fun buf i => put buf i (BitVec.ofBool true)) 0

def balloc (s : State) (used : Nat) : Option State :=
  if used < BSIZE * 8 then some (wsect s Superblock.mkfs.bmapstart (bitmap used)) else none

/-- `freeblock++`. -/
def takeBlock (s : State) : State := { s with freeblock := s.freeblock + 1 }

/-- The part of `iappend` that finds the sector of block `fbn` of the file. -/
def iappend_sector (s : State) (din : Dinode) (fbn : Nat) : Nat × State × Dinode :=
  if fbn < NDIRECT then
    if din.addr fbn = 0 then
      let din := din.setAddr fbn s.freeblock
      (din.addr fbn, takeBlock s, din)
    else
      (din.addr fbn, s, din)
  else
    let (s, din) :=
      if din.addr NDIRECT = 0 then (takeBlock s, din.setAddr NDIRECT s.freeblock) else (s, din)
    let indirect := rsect s (din.addr NDIRECT)
    if (indirect.word (fbn - NDIRECT)).toNat = 0 then
      let indirect := indirect.setWord (fbn - NDIRECT) (BitVec.ofNat 32 s.freeblock)
      ((indirect.word (fbn - NDIRECT)).toNat, wsect (takeBlock s) (din.addr NDIRECT) indirect, din)
    else
      ((indirect.word (fbn - NDIRECT)).toNat, s, din)

/-- The loop of `iappend`. -/
def iappend_loop : (fuel : Nat) → State → Dinode → (off : Nat) → (p : List Byte) →
    Option (State × Dinode × Nat)
  | 0, s, din, off, _ => some (s, din, off)
  | fuel + 1, s, din, off, p =>
    if 0 < p.length then
      let fbn := off / BSIZE
      if fbn < MAXFILE then
        let (x, s, din) := iappend_sector s din fbn
        let n1 := min p.length ((fbn + 1) * BSIZE - off)
        let buf := rsect s x
        let s := wsect s x (buf.setBytes (off - fbn * BSIZE) (fun i => p.getD i 0) n1)
        iappend_loop fuel s din (off + n1) (p.drop n1)
      else
        none
    else
      some (s, din, off)

def iappend (s : State) (inum : Nat) (p : List Byte) : Option State := do
  let din := rinode s inum
  let (s, din, off) ← iappend_loop p.length s din din.size.toNat p
  some (winode s inum { din with size := BitVec.ofNat 32 off })

/-- A file of the host: its name, and its contents as `read` delivers them. -/
structure HostFile where
  name : Name
  chunks : List (List Byte)

/-- The byte '_'. -/
abbrev UNDERSCORE : Byte := 95

/-- Skip leading _ in name when writing to file system. -/
def HostFile.target (f : HostFile) : Name :=
  if f.name.head? = some UNDERSCORE then f.name.tail else f.name

/-- One turn of the loop of `main` over the files. -/
def addFile (s : State) (f : HostFile) : Option State := do
  if SLASH ∈ f.name then
    none
  else
    let (inum, s) := ialloc s T_FILE
    let s ← iappend s ROOTINO (direntBytes f.target inum)
    f.chunks.foldlM (fun s buf => iappend s inum buf) s

/-- The super block as it stands in sector 1. -/
def superblock : Block :=
  let sb := Superblock.mkfs
  [sb.size, sb.nblocks, sb.ninodes, sb.nlog, sb.logstart, sb.inodestart, sb.bmapstart].zipIdx.foldl
    (fun buf w => buf.setWord w.2 (BitVec.ofNat 32 w.1)) 0

/-- The zeroed image with its super block. -/
def blankImage : State := wsect ⟨fun _ => 0, 1, nmeta⟩ 1 superblock

/-- The root directory with its two dots. -/
def makeRoot (s : State) : Option State := do
  let (rootino, s) := ialloc s T_DIR
  if rootino = ROOTINO then
    let s ← iappend s rootino (direntBytes (bytesOf ".") rootino)
    iappend s rootino (direntBytes (bytesOf "..") rootino)
  else
    none

/-- The end of `main`: fix size of root inode dir, write the free map. -/
def finish (s : State) : Option State :=
  let din := rinode s ROOTINO
  let off := (din.size.toNat / BSIZE + 1) * BSIZE
  let s := winode s ROOTINO { din with size := BitVec.ofNat 32 off }
  balloc s s.freeblock

def main (files : List HostFile) : Option State := do
  let s ← makeRoot blankImage
  let s ← files.foldlM addFile s
  finish s

end Xv6.Mkfs
