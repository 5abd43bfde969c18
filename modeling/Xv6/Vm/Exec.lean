import Xv6.Vm.Grow

/-! # `exec` (`exec.c`)

    A new address space is built from the executable file and the arguments,
    and takes the place of the old one when all has gone well.

    The file is locked while it is read, so it is given by its contents; of
    its inode, the reference count and the lock matter here, and of the log
    the number of system calls in progress. A string is given by the bytes
    before its NUL.
-/

namespace Xv6.Vm

open Op

/-- Max exec arguments. -/
abbrev MAXARG : Nat := 32

/-! ## The format of the file (`elf.h`) -/

/-- The number in the `n` bytes from `off` on, in little-endian order. -/
def le (bs : List Byte) (off n : Nat) : Nat := littleEndian ((bs.drop off).take n)

/-- `struct elfhdr`: 52 bytes, of which `exec` uses these fields. -/
structure Elfhdr where
  magic : Nat
  entry : Nat
  phoff : Nat
  phnum : Nat

def Elfhdr.ofBytes (bs : List Byte) : Elfhdr := ⟨le bs 0 4, le bs 24 4, le bs 28 4, le bs 44 2⟩

/-- `struct proghdr`: 32 bytes. -/
structure Proghdr where
  type : Nat
  off : Nat
  vaddr : Nat
  filesz : Nat
  memsz : Nat

def Proghdr.ofBytes (bs : List Byte) : Proghdr :=
  ⟨le bs 0 4, le bs 4 4, le bs 8 4, le bs 16 4, le bs 20 4⟩

/-- "\x7FELF" in little endian. -/
abbrev ELF_MAGIC : Nat := 0x464C457F
abbrev ELF_PROG_LOAD : Nat := 1

/-- `readi(ip, dst, off, n)` when the caller wants exactly `n` bytes. -/
def readFull (content : List Byte) (off n : Nat) : Option (List Byte) :=
  match readi content off n with
  | none => none
  | some bs => if bs.length = n then some bs else none

/-! ## Building the image -/

/-- Load one segment; the result is the new size, and `none` stands for
    `goto bad`. -/
@[irreducible] def exec_segment (L : Layout) (pgdir : Nat) (content : List Byte) (ph : Proghdr) (sz : Nat) :
    MemOp (Option Nat) := do
  if ph.memsz < ph.filesz then
    pure none
  else if (ph.vaddr + ph.memsz) % 2 ^ 32 < ph.vaddr then
    pure none
  else
    let sz ← allocuvm L pgdir sz ((ph.vaddr + ph.memsz) % 2 ^ 32)
    if sz = 0 then
      pure none
    else if ph.vaddr % PGSIZE ≠ 0 then
      pure none
    else
      let ok ← loaduvm pgdir ph.vaddr content ph.off ph.filesz
      if ok then
        pure (some sz)
      else
        pure none

/-- The loop that loads the program into memory; `n` headers are left. -/
def exec_load (L : Layout) (pgdir : Nat) (content : List Byte) : (n off sz : Nat) → MemOp (Option Nat)
  | 0, _, sz => pure (some sz)
  | n + 1, off, sz => do
    match (readFull content off 32).map Proghdr.ofBytes with
    | none => pure none
    | some ph =>
      if ph.type ≠ ELF_PROG_LOAD then
        exec_load L pgdir content n ((off + 32) % 2 ^ 32) sz
      else
        match ← exec_segment L pgdir content ph sz with
        | none => pure none
        | some sz => exec_load L pgdir content n ((off + 32) % 2 ^ 32) sz

/-- The bytes of a string and its NUL. -/
def cstring (s : List Byte) (i : Nat) : Byte := s.getD i 0

/-- The bytes of an array of words. -/
def wordBytes (ws : List Nat) (i : Nat) : Byte := BitVec.ofNat 8 (ws.getD (i / 4) 0 / 256 ^ (i % 4))

/-- The difference of two `uint`s. -/
def usub (a b : Nat) : Nat := (a + 2 ^ 32 - b % 2 ^ 32) % 2 ^ 32

/-- Push one argument string; the result is its address. -/
def exec_arg (pgdir : Nat) (s : List Byte) (argc sp : Nat) : MemOp (Option Nat) := do
  if argc ≥ MAXARG then
    pure none
  else
    let sp := usub sp (s.length + 1) / 4 * 4
    let ok ← copyout pgdir sp (cstring s) (s.length + 1)
    if ok then
      pure (some sp)
    else
      pure none

/-- The loop that pushes the argument strings: `argc` have been pushed, and
    `ustack` holds their addresses. -/
def exec_args (pgdir : Nat) : (argv : List (List Byte)) → (argc sp : Nat) → (ustack : List Nat) →
    MemOp (Option (Nat × List Nat))
  | [], _, sp, ustack => pure (some (sp, ustack))
  | s :: argv, argc, sp, ustack => do
    match ← exec_arg pgdir s argc sp with
    | none => pure none
    | some sp => exec_args pgdir argv (argc + 1) sp (ustack ++ [sp])

/-- Push the fake return PC, `argc`, the argv pointer and argv; the result is
    the stack pointer. -/
@[irreducible] def exec_vector (pgdir sp : Nat) (ustack : List Nat) : MemOp (Option Nat) := do
  let ok ← copyout pgdir (usub sp ((3 + ustack.length + 1) * 4))
    (wordBytes (0xffffffff :: ustack.length :: usub sp ((ustack.length + 1) * 4) :: (ustack ++ [0])))
    ((3 + ustack.length + 1) * 4)
  if ok then
    pure (some (usub sp ((3 + ustack.length + 1) * 4)))
  else
    pure none

/-- Push the arguments on a stack that begins at `sz`. -/
@[irreducible] def exec_push (pgdir sz : Nat) (argv : List (List Byte)) : MemOp (Option (Nat × Nat)) := do
  match ← exec_args pgdir argv 0 sz [] with
  | none => pure none
  | some (sp, ustack) =>
    match ← exec_vector pgdir sp ustack with
    | none => pure none
    | some sp => pure (some (sz, sp))

/-- Allocate two pages at the next page boundary, make the first inaccessible,
    use the second as the user stack, and push the arguments. The result is
    the size and the stack pointer. -/
@[irreducible] def exec_stack (L : Layout) (pgdir sz : Nat) (argv : List (List Byte)) : MemOp (Option (Nat × Nat)) := do
  let sz ← allocuvm L pgdir (PGROUNDUP sz) ((PGROUNDUP sz + 2 * PGSIZE) % 2 ^ 32)
  if sz = 0 then
    pure none
  else
    clearpteu pgdir (sz - 2 * PGSIZE)
    exec_push pgdir sz argv

/-! ## The call -/

/-- The state of the kernel as `exec` sees it. -/
structure ExecState extends State where
  /-- How many FS sys calls are executing (`log.outstanding`). -/
  outstanding : Int
  /-- Reference count of the executable's inode. -/
  ref : Nat
  /-- The process holds the lock of that inode. -/
  locked : Bool

/-- An operation on the memory. -/
def inMem {α : Type} (op : MemOp α) : Op ExecState α :=
  zoom (fun s => s.mem) (fun m s => { s with mem := m }) op

def begin_op : Op ExecState Unit := modify fun s => { s with outstanding := s.outstanding + 1 }

def end_op : Op ExecState Unit := modify fun s => { s with outstanding := s.outstanding - 1 }

/-- `namei` returns the inode with a reference to it. -/
def namei : Op ExecState Unit := modify fun s => { s with ref := s.ref + 1 }

def ilock : Op ExecState Unit := do
  if (← get).ref < 1 then
    Op.panic "ilock"
  else
    modify fun s => { s with locked := true }

def iunlockput : Op ExecState Unit := do
  let s ← get
  if !s.locked || s.ref < 1 then
    Op.panic "iunlock"
  else
    modify fun s => { s with locked := false, ref := s.ref - 1 }

/-- The label `bad`: `pgdir` is the new directory, if there is one, and `ip`
    tells whether the inode is still held. -/
def exec_bad (L : Layout) (pgdir : Option Nat) (ip : Bool) : Op ExecState Bool := do
  match pgdir with
  | none => pure ()
  | some d => inMem (freevm L d)
  if ip then
    iunlockput
    end_op
    pure false
  else
    pure false

/-- What follows the last `/` of a path. -/
def lastPart (path : List Byte) : List Byte :=
  (path.reverse.takeWhile (· ≠ BitVec.ofNat 8 47)).reverse

/-- Save program name, and commit to the user image. -/
def exec_commit (L : Layout) (path : List Byte) (pgdir sz entry sp : Nat) : Op ExecState Bool := do
  let oldpgdir := (← get).proc.pgdir
  modify fun s => { s with proc := ⟨sz, pgdir, entry, sp, (lastPart path).take 15⟩ }
  inMem (freevm L oldpgdir)
  pure true

/-- From the point on where the program has been loaded. -/
@[irreducible] def exec_loaded (L : Layout) (path : List Byte) (argv : List (List Byte)) (pgdir sz entry : Nat) :
    Op ExecState Bool := do
  iunlockput
  end_op
  match ← inMem (exec_stack L pgdir sz argv) with
  | none => exec_bad L (some pgdir) false
  | some (sz, sp) => exec_commit L path pgdir sz entry sp

/-- From the point on where the inode is locked. -/
@[irreducible] def exec_held (L : Layout) (content path : List Byte) (argv : List (List Byte)) : Op ExecState Bool := do
  match (readFull content 0 52).map Elfhdr.ofBytes with
  | none => exec_bad L none true
  | some elf =>
    if elf.magic ≠ ELF_MAGIC then
      exec_bad L none true
    else
      match ← inMem (setupkvm L) with
      | none => exec_bad L none true
      | some pgdir =>
        match ← inMem (exec_load L pgdir content elf.phnum elf.phoff 0) with
        | none => exec_bad L (some pgdir) true
        | some sz => exec_loaded L path argv pgdir sz elf.entry

/-- `file` is what `namei(path)` finds. -/
def exec (L : Layout) (file : Option (List Byte)) (path : List Byte) (argv : List (List Byte)) :
    Op ExecState Bool := do
  begin_op
  match file with
  | none =>
    end_op
    pure false
  | some content =>
    namei
    ilock
    exec_held L content path argv

end Xv6.Vm
