import Xv6.Fs.Ghost

/-! # What one action of a process can do

    `Trans` lists the steps of a process inside a system call: how the state
    changes, how the ghost state of the process changes with it, and what the
    process must own and know for it. Every invariant of the file system is
    derived from this list; that the code takes no other steps is shown when
    the calls are executed symbolically.
-/

namespace Xv6.Fs

/-- `"."` or `".."`. -/
def IsDot (name : Name) : Prop :=
  namecmp name (bytesOf ".") = 0 ∨ namecmp name (bytesOf "..") = 0

/-- The inode in entry `i`, if it is loaded. -/
def FsState.snap? (sb : Superblock) (s : FsState) (i : Slot) : Option Snap :=
  if (s.icache i).valid then
    some ⟨(s.icache i).inum, dinode sb s.disk (s.icache i).inum, s.bytes sb i⟩
  else none

/-- The changes of a link count: of entry `i`, known to be `x`. The other
    arguments are the action, the new inode, and what becomes of `pend` and
    `dead`. -/
inductive Relink (g : Ghost) (i : Slot) (x : Snap) :
    Act → Dinode → (Nat → Nat) → Option Slot → Prop where
  /-- `sys_link` before it makes the entry, `create` for the new "..". -/
  | up : Relink g i x (.up i) { x.d with nlink := x.d.nlink + 1 } (g.pend + Pi.single x.n 1) g.dead
  /-- `sys_link` on failure, and `sys_unlink` for what it has removed and for
      the directory that has lost a "..". -/
  | down {pend : Nat → Nat} {dead : Option Slot} (hpend : g.pend = pend + Pi.single x.n 1)
      (hdead : dead = g.dead ∨ dead = some i) :
      Relink g i x .other { x.d with nlink := x.d.nlink - 1 } pend dead
  /-- `create` for the new inode. -/
  | init {t major minor : BitVec 16} (hx : x.d = blank t) (hmaking : g.making = some x.n) :
      Relink g i x .other { x.d with major := major, minor := minor, nlink := 1 }
        (g.pend + Pi.single x.n 1) g.dead

/-- The entries "." and ".." of directory `n` in directory `m`. -/
def dots (n m : Nat) : List Byte := direntBytes (bytesOf ".") n ++ direntBytes (bytesOf "..") m

/-- Why an entry for inode `n` is written to the directory `dp`, known to be
    `x`, and what becomes of `pend` and `making`. -/
inductive LinkFor (g : Ghost) (dp : Slot) (x : Snap) (name : Name) (n : Nat) :
    (Nat → Nat) → Option Nat → Prop where
  /-- `sys_link`: one more name for a file. -/
  | file {i : Slot} {t : BitVec 16} {pend : Nat → Nat} (hpin : g.pin = some (i, n, t))
      (ht : t ≠ T_DIR) (hpend : g.pend = pend + Pi.single n 1) :
      LinkFor g dp x name n pend g.making
  /-- `create`: the name of the new inode. A new directory counts for its
      parent, too. -/
  | child {i : Slot} {site : Site} {y : Snap} {pend : Nat → Nat}
      (hord : g.order = some (dp, i, n)) (hi : g.held i = some ⟨site, some y⟩)
      (hmaking : g.making = some n)
      (hdots : y.d.type = T_DIR → n < 65536 → y.c = dots n x.n)
      (hpend : g.pend = pend + Pi.single n 1 +
        if y.d.type = T_DIR then Pi.single x.n 1 else 0) :
      LinkFor g dp x name n pend none
  /-- `create`: the "." of the new directory. -/
  | dot (hmaking : g.making = some x.n) (hc : x.c = []) (hname : name = bytesOf ".")
      (hn : n = x.n) : LinkFor g dp x name n g.pend g.making
  /-- `create`: its "..". -/
  | dotdot {j : Slot} {site : Site} {z : Snap} (hmaking : g.making = some x.n)
      (hc : x.c = direntBytes (bytesOf ".") x.n) (hname : name = bytesOf "..")
      (hj : g.held j = some ⟨site, some z⟩) (hn : z.n = n) :
      LinkFor g dp x name n g.pend g.making

variable (sb : Superblock) (p : Pid) (G : Pid → Ghost)

/-- Inode `n` is not one that another process has just allocated. -/
def NotFresh (n : Nat) : Prop := ∀ q, q ≠ p → ∀ t dp, (G q).fresh ≠ some (n, t, dp)

/-- The steps of process `p`. -/
inductive Trans (s : FsState) : Act → FsState → Ghost → Prop where
  /-- Nothing that matters: reading, the log, the offset of a file. -/
  | quiet {l : Act} {s' : FsState} (hdisk : s'.disk = s.disk) (hicache : s'.icache = s.icache)
      (hproc : s'.proc = s.proc)
      (hfile : ∀ f, (s'.ftable f).type = (s.ftable f).type ∧ (s'.ftable f).ref = (s.ftable f).ref ∧
        (s'.ftable f).ip = (s.ftable f).ip ∧ (s'.ftable f).writable = (s.ftable f).writable)
      {use : Option Using}
      (huse : use = (G p).use ∨ use = none ∧ ∀ i, (G p).held i = none) :
      Trans s l s' { G p with use := use }
  -- references
  | root {i : Slot} {s' : FsState} (hfresh : NotFresh p G ROOTINO) (hget : Got s ROOTINO i s') :
      Trans s .root s' ((G p).addRef i)
  | found {dp i : Slot} {site : Site} {x : Snap} {name : Name} {n k : Nat} {s' : FsState}
      {order : Option (Slot × Slot × Nat)} (hheld : (G p).held dp = some ⟨site, some x⟩)
      (hdir : x.d.type = T_DIR) (hfound : Found x.c name n k) (hfresh : NotFresh p G n)
      (hdead : (G p).dead = none) (hmaking : (G p).making = none) (hget : Got s n i s')
      (horder : order = (G p).order ∨ order = some (dp, i, n) ∧ 0 < (G p).refs dp ∧ ¬ IsDot name) :
      Trans s (.lookup dp name) s' { (G p).addRef i with order := order }
  | getFresh {dp i : Slot} {n : Nat} {t : BitVec 16} {s' : FsState}
      (hfresh : (G p).fresh = some (n, t, dp)) (hdp : 0 < (G p).refs dp) (hget : Got s n i s') :
      Trans s .ref s' { (G p).addRef i with order := some (dp, i, n) }
  | dupCwd {i : Slot} (hcwd : (s.proc p).cwd = some i) (hmoved : (G p).moved = false)
      (hfresh : NotFresh p G (s.icache i).inum) :
      Trans s .ref (s.setInode i fun ino => { ino with ref := ino.ref + 1 }) ((G p).addRef i)
  -- locks
  | ilock {i : Slot} {site : Site} {x : Snap} {pin : Option (Slot × Nat × BitVec 16)}
      (hfree : (s.icache i).lock = none)
      (href : 0 < (G p).refs i ∨ ∃ u, (G p).use = some u ∧ u.type = .FD_INODE ∧ u.ip = i)
      (hfresh : (G p).fresh = none)
      (hn : (s.icache i).inum = x.n) (hd : dinode sb s.disk (s.icache i).inum = x.d)
      (hc : s.bytes sb i = x.c) (ht : x.d.type ≠ 0)
      (hpin : pin = (G p).pin ∨ pin = some (i, x.n, x.d.type) ∧ 0 < (G p).refs i) :
      Trans s (.acquire i site)
        (s.setInode i fun ino => { ino with toDinode := x.d, lock := some p, valid := true })
        { (G p).lockAt i site (some x) with pin := pin }
  | ilockFresh {dp i : Slot} {site : Site} {n : Nat} {t : BitVec 16}
      (hfree : (s.icache i).lock = none) (href : 0 < (G p).refs i)
      (hfresh : (G p).fresh = some (n, t, dp)) (hinum : (s.icache i).inum = n) :
      Trans s (.acquire i site)
        (s.setInode i fun ino => { ino with toDinode := blank t, lock := some p, valid := true })
        { (G p).lockAt i site (some ⟨n, blank t, []⟩) with fresh := none, pin := some (i, n, t) }
  | iunlock {i : Slot} {use : Option Using} {window : Option Slot}
      (hheld : (G p).held i ≠ none)
      (huse : use = (G p).use ∨ use = none ∧ ∀ j, j ≠ i → (G p).held j = none)
      (hwindow : window = (G p).window ∨ window = some i) (hsole : (G p).sole = none) :
      Trans s .other (s.setInode i fun ino => { ino with lock := none })
        { (G p).unlock i with use := use, window := window }
  -- `iput`
  | putLock {i : Slot} {site : Site} {pin : Option (Slot × Nat × BitVec 16)}
      (hfree : (s.icache i).lock = none) (href : 0 < (G p).refs i)
      (hpin : pin = (G p).pin ∨ pin = none) :
      Trans s (.acquire i site) (s.setInode i fun ino => { ino with lock := some p })
        { (G p).lockAt i site (s.snap? sb i) with pin := pin, order := none, window := none }
  | alone {i : Slot} {site : Site} {x : Snap} (hheld : (G p).held i = some ⟨site, some x⟩)
      (href : 0 < (G p).refs i) (hone : (s.icache i).ref = 1) (hnlink : x.d.nlink = 0) :
      Trans s (.count i) s { G p with sole := some i }
  | free {i : Slot} {site : Site} {x : Snap} {disk : Disk} {d : Dinode} {r : Slot → Nat}
      (hsole : (G p).sole = some i) (hheld : (G p).held i = some ⟨site, some x⟩)
      (hnlink : x.d.nlink = 0) (hr : (G p).refs = r + Pi.single i 1) (hr0 : r i = 0)
      (hdrop : (G p).drop = none) (hpin : ∀ t, (G p).pin ≠ some (i, t))
      (horder : (G p).order = none) (htouch : Touches sb (s.icache i).inum s.disk disk)
      (hfreed : (dinode sb disk (s.icache i).inum).type = 0) :
      Trans s .other ((s.withFile i disk d).setInode i fun ino => { ino with valid := false })
        { (G p).lockAt i site none with refs := r, drop := some i, sole := none }
  | release {i : Slot} {r : Slot → Nat} (dead : Option Slot) (hheld : (G p).held i ≠ none)
      (hr : (G p).refs = r + Pi.single i 1 ∧ (G p).drop = none ∨
        (G p).refs = r ∧ (G p).drop = some i)
      (hpin : ∀ t, (G p).pin = some (i, t) → 0 < r i) (horder : (G p).order = none)
      (hfresh : (G p).fresh = none)
      (hdead : dead = if (G p).dead = some i then none else (G p).dead) :
      Trans s .other (s.setInode i fun ino => { ino with lock := none })
        { (G p).unlock i with refs := r, drop := some i, sole := none, dead := dead }
  | dropped {i : Slot} (hdrop : (G p).drop = some i) (hfree : (G p).held i = none) :
      Trans s (.drop i) (s.setInode i fun ino => { ino with ref := ino.ref - 1 })
        { G p with drop := none }
  -- contents
  | write {i : Slot} {site : Site} {x : Snap} {c : List Byte} {disk : Disk} {d : Dinode}
      (hheld : (G p).held i = some ⟨site, some x⟩) (hfile : x.d.type ≠ T_DIR)
      (hsole : (G p).sole = none) (hw : Rewrites sb s i c disk d) :
      Trans s .write (s.withFile i disk d) ((G p).lockAt i site (some ⟨x.n, d, c⟩))
  | link {dp : Slot} {site : Site} {x : Snap} {name : Name} {n k : Nat} {disk : Disk} {d : Dinode}
      {pend : Nat → Nat} {making : Option Nat} (hheld : (G p).held dp = some ⟨site, some x⟩)
      (hdir : x.d.type = T_DIR) (habsent : Absent x.c name) (hempty : EmptyAt x.c k)
      (hn : n < sb.ninodes) (hsole : (G p).sole = none)
      (hfor : LinkFor (G p) dp x name n pend making)
      (hw : Rewrites sb s dp (splice x.c (DIRENT * k) (direntBytes name n)) disk d) :
      Trans s .other (s.withFile dp disk d)
        { (G p).lockAt dp site (some ⟨x.n, d, splice x.c (DIRENT * k) (direntBytes name n)⟩) with
          pend := pend, making := making }
  | erase {dp i : Slot} {site site' : Site} {x y : Snap} {name : Name} {n k : Nat} {disk : Disk}
      {d : Dinode} (hheld : (G p).held dp = some ⟨site, some x⟩) (hdir : x.d.type = T_DIR)
      (hchild : (G p).held i = some ⟨site', some y⟩) (hne : dp ≠ i) (hname : ¬ IsDot name)
      (hfound : Found x.c name n k) (hi : y.n = n) (hsole : (G p).sole = none)
      (hempty : y.d.type = T_DIR → EmptyDir y.c)
      (hw : Rewrites sb s dp (splice x.c (DIRENT * k) noEntry) disk d) :
      Trans s (.erase dp i) (s.withFile dp disk d)
        { (G p).lockAt dp site (some ⟨x.n, d, splice x.c (DIRENT * k) noEntry⟩) with
          pend := (G p).pend + Pi.single n 1 + if y.d.type = T_DIR then Pi.single x.n 1 else 0
          dead := some i }
  | relink {i : Slot} {site : Site} {x : Snap} {l : Act} {d : Dinode} {pend : Nat → Nat}
      {dead : Option Slot} {disk : Disk} (hheld : (G p).held i = some ⟨site, some x⟩)
      (hδ : Relink (G p) i x l d pend dead) (hsole : (G p).sole = none)
      (htouch : Touches sb (s.icache i).inum s.disk disk)
      (hd : dinode sb disk (s.icache i).inum = d)
      (hc : data sb disk (s.icache i).inum = x.c)
      (hgrows : Grows sb (s.icache i).inum s.disk disk) :
      Trans s l (s.withFile i disk d)
        { (G p).lockAt i site (some ⟨x.n, d, x.c⟩) with pend := pend, dead := dead }
  | ialloc {dp : Slot} {site : Site} {x : Snap} {n : Nat} {t : BitVec 16} (hpos : 0 < n)
      (hn : n < sb.ninodes) (hfree : (dinode sb s.disk n).type = 0) (ht : t ≠ 0)
      (hfresh : (G p).fresh = none) (hmaking : (G p).making = none)
      (hheld : (G p).held dp = some ⟨site, some x⟩) (hdir : x.d.type = T_DIR)
      (hunused : ∀ r, r ≠ p → ∀ j, 0 < (G r).refs j → (s.icache j).inum ≠ n) :
      Trans s .other { s with disk := setDinode sb s.disk n (blank t) }
        { G p with fresh := some (n, t, dp), making := some n }
  -- files
  | filealloc {f : FileSlot} (hfree : (s.ftable f).ref = 0) :
      Trans s .other (s.setFile f fun file => { file with ref := 1 })
        { G p with frefs := (G p).frefs + Pi.single f 1, fnew := some f }
  | fdalloc {f : FileSlot} {fd : Fin NOFILE} {fr : FileSlot → Nat}
      (hnew : (G p).fnew = some f) (hfd : (s.proc p).ofile fd = none)
      (hfr : (G p).frefs = fr + Pi.single f 1) (huse : (G p).use = none) :
      Trans s .other
        (s.setProc p fun pr => { pr with ofile := Function.update pr.ofile fd (some f) })
        { G p with frefs := fr, use := none }
  | fileinit {f : FileSlot} {i : Slot} {n : Nat} {t : BitVec 16} {file : File} {r : Slot → Nat}
      (hnew : (G p).fnew = some f) (hpin : (G p).pin = some (i, n, t))
      (hr : (G p).refs = r + Pi.single i 1) (huse : (G p).use = none)
      (hheld : ∀ j, (G p).held j = none) (horder : (G p).order = none)
      (hfresh : (G p).fresh = none) (htype : file.type = .FD_INODE)
      (hip : file.ip = i) (href : file.ref = (s.ftable f).ref)
      (hw : file.writable = true → t ≠ T_DIR) :
      Trans s .other (s.setFile f fun _ => file) { G p with refs := r, pin := none, fnew := none }
  | closeFd {u : Using} (huse : (G p).use = some u) (hheld : ∀ j, (G p).held j = none)
      (hnew : (G p).fnew = none) :
      Trans s (.close u.fd)
        (s.setProc p fun pr => { pr with ofile := Function.update pr.ofile u.fd none })
        { G p with frefs := (G p).frefs + Pi.single u.file 1, use := none }
  | closeDec {f : FileSlot} {fr : FileSlot → Nat} (hfr : (G p).frefs = fr + Pi.single f 1)
      (hmore : 1 < (s.ftable f).ref) (hnew : (G p).fnew = none) :
      Trans s .ref (s.setFile f fun file => { file with ref := file.ref - 1 })
        { G p with frefs := fr }
  | closeLast {f : FileSlot} {fr : FileSlot → Nat} {refs : Slot → Nat} {dead : Option Slot}
      (hfr : (G p).frefs = fr + Pi.single f 1) (hlast : (s.ftable f).ref = 1)
      (huse : (G p).use = none)
      (hrefs : (s.ftable f).type = .FD_INODE ∧ refs = (G p).refs + Pi.single (s.ftable f).ip 1 ∧
          dead = some (s.ftable f).ip ∨
        (s.ftable f).type ≠ .FD_INODE ∧ refs = (G p).refs ∧ dead = (G p).dead) :
      Trans s .ref (s.setFile f fun file => { file with ref := 0, type := .FD_NONE })
        { G p with frefs := fr, refs := refs, dead := dead, fnew := none }
  | useFile {f : FileSlot} {fd : Fin NOFILE} (hfd : (s.proc p).ofile fd = some f)
      (huse : (G p).use = none) :
      Trans s .argfd s
        { G p with use := some ⟨fd, f, (s.ftable f).type, (s.ftable f).ip, (s.ftable f).writable⟩ }
  -- current directories
  | takeCwd {i : Slot} (hcwd : (s.proc p).cwd = some i) (hmoved : (G p).moved = false)
      (hfresh : NotFresh p G (s.icache i).inum) :
      Trans s .leave s { (G p).addRef i with moved := true }
  | setCwd {i : Slot} {n : Nat} {t : BitVec 16} {r : Slot → Nat}
      (hpin : (G p).pin = some (i, n, t)) (hdir : t = T_DIR)
      (hr : (G p).refs = r + Pi.single i 1) (hmoved : (G p).moved = true)
      (hheld : ∀ j, (G p).held j = none) (horder : (G p).order = none)
      (hfresh : (G p).fresh = none) :
      Trans s .other (s.setProc p fun pr => { pr with cwd := some i })
        { G p with refs := r, pin := none, moved := false }

end Xv6.Fs
