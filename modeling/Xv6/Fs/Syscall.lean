import Xv6.Fs.Dir
import Xv6.Framework.Prog

/-! # The file-system system calls

    The upper half of `fs.c`, `file.c` and `sysfile.c`: inode locks and
    references, path lookup, and the system calls. These functions take and
    release sleep-locks, so other processes run in between; they are programs
    whose atomic actions are

    * the critical sections of `icache.lock`, `ftable.lock` and the log lock,
    * taking a sleep-lock (together with loading the inode in `ilock`) and
      releasing it,
    * stretches of code that run under the sleep-lock of the inode they work
      on, together with the critical section of `icache.lock` in which
      `dirlookup` ends,
    * accesses of a process to its own `struct proc`.

    The label of an action says what it is, as far as conditions on
    interleavings refer to it.
-/

namespace Xv6.Fs

open Function

/-- Where in the code a sleep-lock is taken. -/
inductive Site where
  /-- No other inode is locked. -/
  | plain
  /-- `ilock(dp)` of the parent directory in `sys_link`, `sys_unlink` and `create`. -/
  | parent
  /-- An inode found or made while its parent directory is locked. -/
  | child
  /-- `iput(dp)` inside `iunlockput(dp)`, with the child still locked. -/
  | window
deriving DecidableEq

/-- What an action does. -/
inductive Act where
  | acquire (ip : Slot) (site : Site)
  /-- `dirlookup` searches `dp` for `name`. -/
  | lookup (dp : Slot) (name : Name)
  /-- `namex` gets the root directory. -/
  | root
  /-- `sys_unlink` erases the entry of `ip` in `dp`. -/
  | erase (dp ip : Slot)
  /-- `iput` reads `ip->ref`. -/
  | count (ip : Slot)
  /-- `iput` decrements `ip->ref`. -/
  | drop (ip : Slot)
  /-- `writei` for a file. -/
  | write
  /-- `ip->nlink` is incremented. -/
  | up (ip : Slot)
  /-- `argfd` reads a descriptor. -/
  | argfd
  /-- `sys_close` clears a descriptor. -/
  | close (fd : Fin NOFILE)
  /-- The process takes a reference from its `cwd`, a file that is closed, or `ialloc`. -/
  | ref
  /-- `sys_chdir` gives up its old `cwd`. -/
  | leave
  | other
deriving DecidableEq

/-- Programs of the file system. -/
abbrev FsProg (α : Type) : Type 1 := Prog FsState Act α

/-- An action that no condition refers to. -/
def step {α : Type} (m : Op FsState α) : FsProg α := .atomic .other m

variable (sb : Superblock) (p : Pid)

/-! ## `log.c` -/

/-- An operation starts. Waiting for log space is the subject of `Log`. -/
def begin_op : FsProg Unit :=
  step (Op.modify fun s => { s with outstanding := s.outstanding + 1 })

def end_op : FsProg Unit :=
  step (Op.modify fun s => { s with outstanding := s.outstanding - 1 })

/-! ## `fs.c`: references and locks -/

def acquiresleep (ip : Slot) : Op FsState Unit := do
  let s ← Op.get
  match (s.icache ip).lock with
  | none => Op.modify fun s => s.setInode ip fun ino => { ino with lock := some p }
  | some _ => Op.block

def releasesleep (ip : Slot) : Op FsState Unit :=
  Op.modify fun s => s.setInode ip fun ino => { ino with lock := none }

/-- The fields of the in-memory inode. -/
def inode (ip : Slot) : FsProg Inode := step do
  let s ← Op.get
  pure (s.icache ip)

/-- Increment reference count for ip. -/
def idup (ip : Slot) : Op FsState Slot := do
  Op.modify fun s => s.setInode ip fun ino => { ino with ref := ino.ref + 1 }
  pure ip

/-- The part of `ilock` that reads the inode from disk if necessary. -/
def ilock_load (ip : Slot) : Op FsState Unit := do
  let s ← Op.get
  if (s.icache ip).valid then
    pure ()
  else
    let dip := dinode sb s.disk (s.icache ip).inum
    Op.modify fun s => s.setInode ip fun ino => { ino with toDinode := dip, valid := true }
    if dip.type = 0 then
      Op.panic "ilock: no type"
    else
      pure ()

/-- Lock the given inode. -/
def ilock (ip : Slot) (site : Site) : FsProg Unit := .atomic (.acquire ip site) do
  let s ← Op.get
  if (s.icache ip).ref < 1 then
    Op.panic "ilock"
  else
    acquiresleep p ip
    ilock_load sb ip

/-- Unlock the given inode. -/
def iunlock (ip : Slot) : FsProg Unit := step do
  let s ← Op.get
  if (s.icache ip).lock ≠ some p ∨ (s.icache ip).ref < 1 then
    Op.panic "iunlock"
  else
    releasesleep ip

/-- The part of `iput` that frees an inode without links and references. -/
def iput_free (ip : Slot) : Op FsState Unit := do
  itrunc sb ip
  Op.modify fun s => s.setCopy ip fun d => { d with type := 0 }
  iupdate sb ip
  Op.modify fun s => s.setInode ip fun ino => { ino with valid := false }

/-- The part of `iput` under the sleep-lock, for an inode with or without links. -/
def iput_locked (ip : Slot) (unlinked : Bool) : FsProg Unit := do
  if unlinked then
    let r ← .atomic (.count ip) do
      let s ← Op.get
      pure (s.icache ip).ref
    if r = 1 then
      step (iput_free sb ip)
    else
      pure ()
  else
    pure ()

/-- Drop a reference to an in-memory inode. -/
def iput (ip : Slot) (site : Site) : FsProg Unit := do
  let unlinked ← .atomic (.acquire ip site) do
    acquiresleep p ip
    let s ← Op.get
    pure ((s.icache ip).valid && decide ((s.icache ip).nlink = 0))
  iput_locked sb ip unlinked
  step (releasesleep ip)
  .atomic (.drop ip) (Op.modify fun s => s.setInode ip fun ino => { ino with ref := ino.ref - 1 })

/-- Common idiom: unlock, then put. -/
def iunlockput (ip : Slot) (site : Site) : FsProg Unit := do
  iunlock p ip
  iput sb p ip site

/-! ## `fs.c`: contents -/

/-- The device whose `devsw` entry is set. -/
abbrev CONSOLE : BitVec 16 := 1

/-- Read data from inode; `con` is what the console delivers. -/
def readi (con : Option (List Byte)) (ip : Slot) (off n : BitVec 32) :
    FsProg (Option (List Byte)) := do
  let ino ← inode ip
  if ino.type = T_DEV then
    if ino.major.toInt < 0 ∨ (NDEV : Int) ≤ ino.major.toInt ∨ ino.major ≠ CONSOLE then
      pure none
    else
      -- consoleread
      iunlock p ip
      ilock sb p ip .plain
      pure con
  else
    step (readi_blocks sb ip off n)

/-- Write data to inode. -/
def writei (ip : Slot) (src : Nat → Byte) (off n : BitVec 32) : FsProg (Option (BitVec 32)) := do
  let ino ← inode ip
  if ino.type = T_DEV then
    if ino.major.toInt < 0 ∨ (NDEV : Int) ≤ ino.major.toInt ∨ ino.major ≠ CONSOLE then
      pure none
    else
      -- consolewrite
      iunlock p ip
      ilock sb p ip .plain
      pure (some n)
  else
    .atomic .write (writei_blocks sb ip src off n)

/-! ## `fs.c`: directories and paths -/

/-- `iget(dp->dev, inum)`. -/
def iget_beside (dp : Slot) (inum : Nat) : Op FsState Slot := do
  let s ← Op.get
  iget (s.icache dp).dev inum

/-- Look for a directory entry in a directory; with it, the offset. -/
def dirlookup (dp : Slot) (name : Name) : FsProg (Option (Slot × Nat)) :=
  .atomic (.lookup dp name) do
    match ← dirlookup_search sb dp name with
    | some (inum, off) =>
      let ip ← iget_beside dp inum
      pure (some (ip, off))
    | none => pure none

/-- Write a new directory entry (name, inum) into the directory dp; `false` is
    the result -1. -/
def dirlink (dp : Slot) (name : Name) (inum : Nat) : FsProg Bool := do
  match ← dirlookup sb dp name with
  | some (ip, _) =>
    iput sb p ip .child
    pure false
  | none =>
    step (dirlink_write sb dp name inum)
    pure true

/-- The loop of `namex`, `ip` being the directory reached so far. -/
def namex_loop (parent : Bool) : (fuel : Nat) → (ip : Slot) → (path : Name) →
    FsProg (Option (Slot × Name))
  | 0, _, _ => pure none
  | fuel + 1, ip, path =>
    match skipelem path with
    | none => do
      if parent then
        iput sb p ip .plain
        pure none
      else
        pure (some (ip, []))
    | some (name, rest) => do
      ilock sb p ip .plain
      let ino ← inode ip
      if ino.type ≠ T_DIR then
        iunlockput sb p ip .plain
        pure none
      else if parent ∧ rest = [] then
        -- Stop one level early.
        iunlock p ip
        pure (some (ip, name))
      else
        match ← dirlookup sb ip name with
        | none =>
          iunlockput sb p ip .plain
          pure none
        | some (next, _) =>
          iunlockput sb p ip .plain
          namex_loop parent fuel next rest

/-- `idup(myproc()->cwd)`; a null pointer traps. -/
def idup_cwd : FsProg Slot := .atomic .ref do
  let s ← Op.get
  match (s.proc p).cwd with
  | some ip => idup ip
  | none => Op.panic "trap"

/-- Look up the inode for a path name, or for its parent directory. -/
def namex (path : Name) (parent : Bool) : FsProg (Option (Slot × Name)) := do
  if path.head? = some SLASH then
    let ip ← .atomic .root (iget ROOTDEV ROOTINO)
    namex_loop sb p parent (path.length + 1) ip path
  else
    let ip ← idup_cwd p
    namex_loop sb p parent (path.length + 1) ip path

def namei (path : Name) : FsProg (Option Slot) := do
  match ← namex sb p path false with
  | some (ip, _) => pure (some ip)
  | none => pure none

def nameiparent (path : Name) : FsProg (Option (Slot × Name)) := namex sb p path true

/-! ## `file.c` -/

/-- The fields of a `struct file`. -/
def file (f : FileSlot) : FsProg File := step do
  let s ← Op.get
  pure (s.ftable f)

/-- Change one entry of the file table. -/
def FsState.setFile (s : FsState) (f : FileSlot) (g : File → File) : FsState :=
  { s with ftable := update s.ftable f (g (s.ftable f)) }

/-- Change one process. -/
def FsState.setProc (s : FsState) (p : Pid) (g : Proc → Proc) : FsState :=
  { s with proc := update s.proc p (g (s.proc p)) }

/-- Allocate a file structure. -/
def filealloc : FsProg (Option FileSlot) := step do
  let s ← Op.get
  match (List.finRange NFILE).find? fun f => decide ((s.ftable f).ref = 0) with
  | some f =>
    Op.modify fun s => s.setFile f fun file => { file with ref := 1 }
    pure (some f)
  | none => pure none

/-- The critical section of `fileclose`: the file as it was, if this was the
    last reference. -/
def fileclose_drop (f : FileSlot) : FsProg (Option File) := .atomic .ref do
  let s ← Op.get
  if (s.ftable f).ref < 1 then
    Op.panic "fileclose"
  else if 0 < (s.ftable f).ref - 1 then
    Op.modify fun s => s.setFile f fun file => { file with ref := file.ref - 1 }
    pure none
  else
    Op.modify fun s => s.setFile f fun file => { file with ref := 0, type := .FD_NONE }
    pure (some (s.ftable f))

/-- Close file f. -/
def fileclose (f : FileSlot) : FsProg Unit := do
  match ← fileclose_drop f with
  | none => pure ()
  | some ff =>
    if ff.type = .FD_INODE then
      begin_op
      iput sb p ff.ip .plain
      end_op
    else
      pure ()

/-- `f->off += k`, unless reading or writing failed. -/
def file_advance (f : FileSlot) (k : Option (BitVec 32)) : FsProg Unit :=
  match k with
  | some k => step (Op.modify fun s => s.setFile f fun file => { file with off := file.off + k })
  | none => pure ()

/-- Read from file f; the result is what was read, `none` for -1. Reading from
    a pipe delivers `con`, as reading from the console does. -/
def fileread (con : Option (List Byte)) (f : FileSlot) (n : BitVec 32) :
    FsProg (Option (List Byte)) := do
  let ff ← file f
  if ff.readable = false then
    pure none
  else if ff.type = .FD_PIPE then
    pure con
  else if ff.type = .FD_INODE then
    ilock sb p ff.ip .plain
    let ff' ← file f
    let r ← readi sb p con ff.ip ff'.off n
    file_advance f (r.map fun bs => BitVec.ofNat 32 bs.length)
    iunlock p ff.ip
    pure r
  else
    step (Op.panic "fileread")

/-- How many bytes `filewrite` writes in one transaction. -/
abbrev CHUNK : Nat := ((MAXOPBLOCKS - 1 - 1 - 2) / 2) * 512

/-- The loop of `filewrite`: `i` of the `n` bytes have been written. -/
def filewrite_loop (f : FileSlot) (ip : Slot) (src : Nat → Byte) (n : Nat) :
    (fuel i : Nat) → FsProg Nat
  | 0, i => pure i
  | fuel + 1, i => do
    if i < n then
      let n1 := min (n - i) CHUNK
      begin_op
      ilock sb p ip .plain
      let ff ← file f
      let r ← writei sb p ip (fun j => src (i + j)) ff.off (BitVec.ofNat 32 n1)
      file_advance f r
      iunlock p ip
      end_op
      match r with
      | none => pure i
      | some k =>
        if k ≠ BitVec.ofNat 32 n1 then
          step (Op.panic "short filewrite")
        else
          filewrite_loop f ip src n fuel (i + k.toNat)
    else
      pure i

/-- Write to file f; the result is how much was written, `none` for -1. -/
def filewrite (f : FileSlot) (src : Nat → Byte) (n : Nat) : FsProg (Option Nat) := do
  let ff ← file f
  if ff.writable = false then
    pure none
  else if ff.type = .FD_PIPE then
    pure (some n)
  else if ff.type = .FD_INODE then
    let i ← filewrite_loop sb p f ff.ip src n n 0
    pure (if i = n then some n else none)
  else
    step (Op.panic "filewrite")

/-! ## `sysfile.c` -/

/-- Fetch a system call argument as a file descriptor. -/
def argfd (fd : Int) : FsProg (Option (Fin NOFILE × FileSlot)) := .atomic .argfd do
  let s ← Op.get
  if h : 0 ≤ fd ∧ fd < NOFILE then
    let i : Fin NOFILE := ⟨fd.toNat, by omega⟩
    pure ((s.proc p).ofile i |>.map fun f => (i, f))
  else
    pure none

/-- Allocate a file descriptor for the given file. -/
def fdalloc (f : FileSlot) : FsProg (Option (Fin NOFILE)) := step do
  let s ← Op.get
  match (List.finRange NOFILE).find? fun fd => ((s.proc p).ofile fd).isNone with
  | some fd =>
    Op.modify fun s => s.setProc p fun pr => { pr with ofile := update pr.ofile fd (some f) }
    pure (some fd)
  | none => pure none

/-- `n` is `none` when fetching it or the buffer fails. -/
def sys_read (fd : Int) (n : Option (BitVec 32)) (con : Option (List Byte)) : FsProg Int := do
  match ← argfd p fd, n with
  | some (_, f), some n =>
    match ← fileread sb p con f n with
    | some bs => pure bs.length
    | none => pure (-1)
  | _, _ => pure (-1)

def sys_write (fd : Int) (n : Option Nat) (src : Nat → Byte) : FsProg Int := do
  match ← argfd p fd, n with
  | some (_, f), some n =>
    match ← filewrite sb p f src n with
    | some k => pure k
    | none => pure (-1)
  | _, _ => pure (-1)

def sys_close (fd : Int) : FsProg Int := do
  match ← argfd p fd with
  | none => pure (-1)
  | some (i, f) =>
    .atomic (.close i) (Op.modify fun s =>
      s.setProc p fun pr => { pr with ofile := update pr.ofile i none })
    fileclose sb p f
    pure 0

/-- The exit of `sys_link` that takes the link back. -/
def sys_link_bad (ip : Slot) : FsProg Int := do
  ilock sb p ip .plain
  step do
    Op.modify fun s => s.setCopy ip fun d => { d with nlink := d.nlink - 1 }
    iupdate sb ip
  iunlockput sb p ip .plain
  end_op
  pure (-1)

/-- The end of `sys_link`, with or without the entry in `dp`. -/
def sys_link_done (ip dp : Slot) (linked : Bool) : FsProg Int := do
  if linked then
    iunlockput sb p dp .plain
    iput sb p ip .plain
    end_op
    pure 0
  else
    iunlockput sb p dp .plain
    sys_link_bad sb p ip

/-- Create the path new as a link to the same inode as old. -/
def sys_link (old new : Option Name) : FsProg Int := do
  match old, new with
  | some old, some new =>
    begin_op
    match ← namei sb p old with
    | none =>
      end_op
      pure (-1)
    | some ip =>
      ilock sb p ip .plain
      let ino ← inode ip
      if ino.type = T_DIR then
        iunlockput sb p ip .plain
        end_op
        pure (-1)
      else
        .atomic (.up ip) do
          Op.modify fun s => s.setCopy ip fun d => { d with nlink := d.nlink + 1 }
          iupdate sb ip
        iunlock p ip
        match ← nameiparent sb p new with
        | none => sys_link_bad sb p ip
        | some (dp, name) =>
          ilock sb p dp .parent
          let dino ← inode dp
          if dino.dev ≠ ino.dev then
            sys_link_done sb p ip dp false
          else
            let linked ← dirlink sb p dp name ino.inum
            sys_link_done sb p ip dp linked
  | _, _ => pure (-1)

/-- The exit of `sys_unlink` for errors. -/
def sys_unlink_bad (dp : Slot) : FsProg Int := do
  iunlockput sb p dp .plain
  end_op
  pure (-1)

/-- `dp` loses the ".." of the directory it held. -/
def sys_unlink_parent (dp : Slot) (dir : Bool) : FsProg Unit := do
  if dir then
    step do
      Op.modify fun s => s.setCopy dp fun d => { d with nlink := d.nlink - 1 }
      iupdate sb dp
  else
    pure ()

def sys_unlink (path : Option Name) : FsProg Int := do
  match path with
  | none => pure (-1)
  | some path =>
    begin_op
    match ← nameiparent sb p path with
    | none =>
      end_op
      pure (-1)
    | some (dp, name) =>
      ilock sb p dp .parent
      -- Cannot unlink "." or "..".
      if namecmp name (bytesOf ".") = 0 ∨ namecmp name (bytesOf "..") = 0 then
        sys_unlink_bad sb p dp
      else
        match ← dirlookup sb dp name with
        | none => sys_unlink_bad sb p dp
        | some (ip, off) =>
          ilock sb p ip .child
          let ino ← inode ip
          let empty ← step do
            if ino.nlink.toInt < 1 then
              Op.panic "unlink: nlink < 1"
            else if ino.type = T_DIR then
              isdirempty sb ip
            else
              pure true
          if empty = false then
            iunlockput sb p ip .child
            sys_unlink_bad sb p dp
          else
            .atomic (.erase dp ip) (erase_dirent sb dp off)
            sys_unlink_parent sb dp (decide (ino.type = T_DIR))
            iunlockput sb p dp .window
            step do
              Op.modify fun s => s.setCopy ip fun d => { d with nlink := d.nlink - 1 }
              iupdate sb ip
            iunlockput sb p ip .plain
            end_op
            pure 0

/-- Panic unless `b`. -/
def demand (b : Bool) (msg : String) : FsProg Unit :=
  if b then pure () else step (Op.panic msg)

/-- `create` for a directory: the entries "." and "..". -/
def create_dots (dp ip : Slot) (inum : Nat) (dir : Bool) : FsProg Unit := do
  if dir then
    .atomic (.up dp) do
      Op.modify fun s => s.setCopy dp fun d => { d with nlink := d.nlink + 1 }
      iupdate sb dp
    let dino ← inode dp
    let dot ← dirlink sb p ip (bytesOf ".") inum
    demand dot "create dots"
    let dotdot ← dirlink sb p ip (bytesOf "..") dino.inum
    demand dotdot "create dots"
  else
    pure ()

/-- The last part of `create`: the inode `ip` is fresh, `dp` its directory. -/
def create_new (dp : Slot) (name : Name) (type major minor : BitVec 16) : FsProg Slot := do
  let inum ← step (ialloc sb type)
  let ip ← .atomic .ref (iget_beside dp inum)
  ilock sb p ip .child
  step do
    Op.modify fun s => s.setCopy ip fun d => { d with major := major, minor := minor, nlink := 1 }
    iupdate sb ip
  create_dots sb p dp ip inum (decide (type = T_DIR))
  let linked ← dirlink sb p dp name inum
  demand linked "create: dirlink"
  iunlockput sb p dp .window
  pure ip

/-- Find or make the inode for a path; it is returned locked. -/
def create (path : Name) (type major minor : BitVec 16) : FsProg (Option Slot) := do
  match ← nameiparent sb p path with
  | none => pure none
  | some (dp, name) =>
    ilock sb p dp .parent
    match ← dirlookup sb dp name with
    | some (ip, _) =>
      iunlockput sb p dp .plain
      ilock sb p ip .plain
      let ino ← inode ip
      if type = T_FILE ∧ ino.type = T_FILE then
        pure (some ip)
      else
        iunlockput sb p ip .plain
        pure none
    | none =>
      let ip ← create_new sb p dp name type major minor
      pure (some ip)

/-- `fcntl.h`. -/
abbrev O_RDONLY : BitVec 32 := 0x000
abbrev O_WRONLY : BitVec 32 := 0x001
abbrev O_RDWR : BitVec 32 := 0x002
abbrev O_CREATE : BitVec 32 := 0x200

/-- The part of `sys_open` that finds the inode, locked. -/
def sys_open_inode (path : Name) (omode : BitVec 32) : FsProg (Option Slot) := do
  if omode &&& O_CREATE ≠ 0 then
    create sb p path T_FILE 0 0
  else
    match ← namei sb p path with
    | none => pure none
    | some ip =>
      ilock sb p ip .plain
      let ino ← inode ip
      if ino.type = T_DIR ∧ omode ≠ O_RDONLY then
        iunlockput sb p ip .plain
        pure none
      else
        pure (some ip)

def sys_open (path : Option Name) (omode : BitVec 32) : FsProg Int := do
  match path with
  | none => pure (-1)
  | some path =>
    begin_op
    match ← sys_open_inode sb p path omode with
    | none =>
      end_op
      pure (-1)
    | some ip =>
      match ← filealloc with
      | none =>
        iunlockput sb p ip .plain
        end_op
        pure (-1)
      | some f =>
        match ← fdalloc p f with
        | none =>
          fileclose sb p f
          iunlockput sb p ip .plain
          end_op
          pure (-1)
        | some fd =>
          iunlock p ip
          end_op
          step (Op.modify fun s => s.setFile f fun file =>
            { file with
              type := .FD_INODE
              ip := ip
              off := 0
              readable := decide (omode &&& O_WRONLY = 0)
              writable := decide (omode &&& O_WRONLY ≠ 0 ∨ omode &&& O_RDWR ≠ 0) })
          pure fd

/-- `sys_mkdir` and `sys_mknod` after their arguments have been fetched. -/
def sys_make (path : Option Name) (type major minor : BitVec 16) : FsProg Int := do
  begin_op
  match path with
  | none =>
    end_op
    pure (-1)
  | some path =>
    match ← create sb p path type major minor with
    | none =>
      end_op
      pure (-1)
    | some ip =>
      iunlockput sb p ip .plain
      end_op
      pure 0

def sys_mkdir (path : Option Name) : FsProg Int := sys_make sb p path T_DIR 0 0

def sys_mknod (path : Option Name) (major minor : BitVec 16) : FsProg Int :=
  sys_make sb p path T_DEV major minor

/-- `iput(curproc->cwd)`; a null pointer traps. -/
def iput_cwd (old : Option Slot) : FsProg Unit :=
  match old with
  | some old => iput sb p old .plain
  | none => step (Op.panic "trap")

def sys_chdir (path : Option Name) : FsProg Int := do
  begin_op
  match path with
  | none =>
    end_op
    pure (-1)
  | some path =>
    match ← namei sb p path with
    | none =>
      end_op
      pure (-1)
    | some ip =>
      ilock sb p ip .plain
      let ino ← inode ip
      if ino.type ≠ T_DIR then
        iunlockput sb p ip .plain
        end_op
        pure (-1)
      else
        iunlock p ip
        let old ← .atomic .leave do
          let s ← Op.get
          pure (s.proc p).cwd
        iput_cwd sb p old
        end_op
        step (Op.modify fun s => s.setProc p fun pr => { pr with cwd := some ip })
        pure 0

/-- The reads of `exec` while the inode is locked; which bytes it asks for
    depends on the file and on memory, and stands in `reads`. -/
def exec_reads (con : Option (List Byte)) (ip : Slot) : List (BitVec 32 × BitVec 32) → FsProg Unit
  | [] => pure ()
  | (off, n) :: reads => do
    let _ ← readi sb p con ip off n
    exec_reads con ip reads

/-- The file-system part of `exec`. -/
def sys_exec (path : Option Name) (reads : List (BitVec 32 × BitVec 32))
    (con : Option (List Byte)) : FsProg Int := do
  match path with
  | none => pure (-1)
  | some path =>
    begin_op
    match ← namei sb p path with
    | none =>
      end_op
      pure (-1)
    | some ip =>
      ilock sb p ip .plain
      exec_reads sb p con ip reads
      iunlockput sb p ip .plain
      end_op
      pure 0

/-! ## The system -/

/-- A system call with its arguments. -/
inductive Call where
  | read (fd : Int) (n : Option (BitVec 32)) (con : Option (List Byte))
  | write (fd : Int) (n : Option Nat) (src : Nat → Byte)
  | close (fd : Int)
  | link (old new : Option Name)
  | unlink (path : Option Name)
  | open (path : Option Name) (omode : BitVec 32)
  | mkdir (path : Option Name)
  | mknod (path : Option Name) (major minor : BitVec 16)
  | chdir (path : Option Name)
  | exec (path : Option Name) (reads : List (BitVec 32 × BitVec 32)) (con : Option (List Byte))

/-- What a process does for a system call. -/
def syscall : Call → FsProg Int
  | .read fd n con => sys_read sb p fd n con
  | .write fd n src => sys_write sb p fd n src
  | .close fd => sys_close sb p fd
  | .link old new => sys_link sb p old new
  | .unlink path => sys_unlink sb p path
  | .open path omode => sys_open sb p path omode
  | .mkdir path => sys_mkdir sb p path
  | .mknod path major minor => sys_mknod sb p path major minor
  | .chdir path => sys_chdir sb p path
  | .exec path reads con => sys_exec sb p path reads con

/-- The program of a system call. -/
def callProg (p : Pid) (c : Call) : FsProg Unit := do
  let _ ← syscall sb p c
  pure ()

/-- Processes that make file-system calls, in any interleaving. -/
def fsSystem (init : Prog.Config FsState Act Pid → Prop) :
    LTS.System (Prog.Config FsState Act Pid) (Prog.Label Pid Call) :=
  Prog.system init (callProg sb)

end Xv6.Fs
