import Xv6.Fs.Dir

/-!
# File descriptors and system calls

`kernel/file.c` and `kernel/sysfile.c`, with the parts of `fork`, `exit`, `exec` and
`pipe.c` that concern open files.  A system call comes with its arguments as the kernel
gets to see them: a path is the string `argstr` fetched, or `none` if that failed; what
lies in user memory, and what a device or a pipe answers, is part of the call.

## Main definitions

* `filealloc`, `filedup`, `fileclose`, `fileread`, `filewrite`, `filestat` — open files.
* `create`, `sysOpen`, `sysLink`, `sysUnlink`, `sysMkdir`, `sysMknod`, `sysChdir`, … — the
  system calls.
* `Call`, `syscall` — a system call and its arguments, and the code that serves it.
-/

namespace Xv6.Fs

/-- A string `argstr` can fetch: shorter than `MAXPATH`, without `NUL`. -/
structure PathArg where
  chars : List UInt8
  length_lt : chars.length < maxpath
  noNul : (0 : UInt8) ∉ chars

def oWronly : BitVec 32 := 0x001
def oRdwr : BitVec 32 := 0x002
def oCreate : BitVec 32 := 0x200
def oTrunc : BitVec 32 := 0x400

/-! ### Open files -/

namespace Tables

/-- Change one `struct file`. -/
def setFile (t : Tables) (f : Fin nfile) (g : File → File) : Tables :=
  { t with file := Function.update t.file f (g (t.file f)) }

/-- Change the files of one process. -/
def setProc (t : Tables) (p : Pid) (g : Proc → Proc) : Tables :=
  { t with proc := Function.update t.proc p (g (t.proc p)) }

/-- Make or free a pipe. -/
def setPipe (t : Tables) (pi : ℕ) (x : Option Pipe) : Tables :=
  { t with pipe := Function.update t.pipe pi x }

/-- The assignment `p->ofile[fd] = f`. -/
def setOfile (t : Tables) (p : Pid) (fd : Fin nofile) (f : Option (Fin nfile)) : Tables :=
  t.setProc p fun x => { x with ofile := Function.update x.ofile fd f }

end Tables

/-- `filealloc`. -/
def filealloc : FsProg (Option (Fin nfile)) := onTables fun t =>
  match (List.finRange nfile).find? fun f => (t.file f).ref == 0 with
  | some f => .ok (some f, t.setFile f fun x => { x with ref := 1 })
  | none => .ok (none, t)

/-- `filedup`. -/
def filedup (f : Fin nfile) : FsProg Unit := onTables fun t =>
  if (t.file f).ref < 1 then .panic .filedup
  else .ok ((), t.setFile f fun x => { x with ref := x.ref + 1 })

/-- `pipeclose`. -/
def pipeclose (pi : ℕ) (writable : Bool) : FsProg Unit := onTables fun t =>
  match t.pipe pi with
  | some x =>
    let y : Pipe := if writable then { x with writeopen := false } else { x with readopen := false }
    .ok ((), t.setPipe pi (if y.readopen || y.writeopen then some y else none))
  | none => .panic .freedPipe

/-- A `struct file` that `fileclose` has closed. -/
def File.close (x : File) : File := { x with ref := 0, type := .none }

/-- The critical section of `fileclose`: the file, if this was its last reference. -/
def filecloseTables (f : Fin nfile) (t : Tables) : Outcome Panic (Option File × Tables) :=
  if (t.file f).ref < 1 then .panic .fileclose
  else if 0 < (t.file f).ref - 1 then
    .ok (none, t.setFile f fun x => { x with ref := x.ref - 1 })
  else .ok (some (t.file f), t.setFile f File.close)

/-- `fileclose`. -/
def fileclose (f : Fin nfile) : FsProg Unit := do
  match ← onTables (filecloseTables f) with
  | none => return ()
  | some ff =>
    match ff.type with
    | .none => return ()
    | .pipe => pipeclose ff.pipe ff.writable
    | .inode | .device => do
      Prog.call .beginOp
      Prog.call (.iput ff.ip)
      Prog.call .endOp

/-- `filestat`; `copied` tells whether `copyout` can store the result. -/
def filestat (f : Fin nfile) (copied : Bool) : FsProg (ℤ × Option Attr) := do
  let x ← onTables fun t => .ok (t.file f, t)
  match x.type with
  | .inode | .device => do
    Prog.call (.ilock x.ip)
    let a ← Prog.call (.attr x.ip)
    Prog.call (.iunlock x.ip)
    return if copied then (0, some a) else (-1, none)
  | _ => return (-1, none)

/-- `f->off += r`, for a positive `r`. -/
def advance (f : Fin nfile) (r : ℤ) : FsProg Unit := onTables fun t =>
  .ok ((), if 0 < r then t.setFile f fun x => { x with off := x.off + BitVec.ofInt 32 r } else t)

/-- The number of bytes `n` as the `uint` that `readi` and `writei` take. -/
def uintOf (n : ℤ) : ℕ := (BitVec.ofInt 32 n).toNat

/-- `fileread`; `answer` is what the device or the pipe returns. -/
def fileread (f : Fin nfile) (dst : Dst) (n answer : ℤ) : FsProg (ℤ × List UInt8) := do
  let x ← onTables fun t => .ok (t.file f, t)
  if !x.readable then return (-1, [])
  else match x.type with
  | .pipe => return (answer, [])
  | .device =>
    if x.major.toInt < 0 ∨ (ndev : ℤ) ≤ x.major.toInt then return (-1, []) else return (answer, [])
  | .inode => do
    Prog.call (.ilock x.ip)
    let y ← onTables fun t => .ok (t.file f, t)
    let r ← Prog.call (.readi x.ip dst y.off.toNat (uintOf n))
    advance f r.1
    Prog.call (.iunlock x.ip)
    return r
  | .none => fsPanic .fileread

/-- The bytes of a user buffer from position `i` on. -/
def Src.drop (src : Src) (i : ℕ) : Src :=
  match src with
  | .kernel bytes => .kernel (bytes.drop i)
  | .user va mem => .user (va + BitVec.ofNat 64 i) mem

/-- The most bytes written in one transaction. -/
def writeMax : ℕ := (maxopblocks - 1 - 1 - 2) / 2 * bsize

/-- The loop of `filewrite`, with `i` of `n` bytes written.  Returns the final `i`. -/
def filewriteLoop (f : Fin nfile) (ip : Fin ninode) (src : Src) (n : ℕ) : ℕ → ℕ → FsProg ℕ
  | 0, i => return i
  | fuel + 1, i =>
    if i < n then do
      let n1 := min (n - i) writeMax
      Prog.call .beginOp
      Prog.call (.ilock ip)
      let y ← onTables fun t => .ok (t.file f, t)
      let r ← Prog.call (.writei ip (src.drop i) y.off.toNat n1)
      advance f r
      Prog.call (.iunlock ip)
      Prog.call .endOp
      if r ≠ n1 then return i -- error from writei
      else filewriteLoop f ip src n fuel (i + n1)
    else return i

/-- `filewrite`; `answer` is what the device or the pipe returns. -/
def filewrite (f : Fin nfile) (src : Src) (n answer : ℤ) : FsProg ℤ := do
  let x ← onTables fun t => .ok (t.file f, t)
  if !x.writable then return -1
  else match x.type with
  | .pipe => return answer
  | .device =>
    if x.major.toInt < 0 ∨ (ndev : ℤ) ≤ x.major.toInt then return -1 else return answer
  | .inode => do
    let i ← filewriteLoop f x.ip src n.toNat n.toNat 0
    return if (i : ℤ) = n then n else -1
  | .none => fsPanic .filewrite

/-! ### System calls -/

/-- `argfd`: the descriptor and the file it stands for. -/
def argfd (p : Pid) (fd : ℤ) : FsProg (Option (Fin nofile × Fin nfile)) := onTables fun t =>
  if h : fd.toNat < nofile then
    if fd < 0 then .ok (none, t)
    else .ok (((t.proc p).ofile ⟨fd.toNat, h⟩).map fun f => (⟨fd.toNat, h⟩, f), t)
  else .ok (none, t)

/-- `fdalloc`. -/
def fdalloc (p : Pid) (f : Fin nfile) : FsProg (Option (Fin nofile)) := onTables fun t =>
  match (List.finRange nofile).find? fun fd => ((t.proc p).ofile fd).isNone with
  | some fd => .ok (some fd, t.setOfile p fd (some f))
  | none => .ok (none, t)

/-- `sys_dup`. -/
def sysDup (p : Pid) (fd : ℤ) : FsProg ℤ := do
  match ← argfd p fd with
  | none => return -1
  | some (_, f) =>
    match ← fdalloc p f with
    | none => return -1
    | some fd' =>
      filedup f
      return fd'.val

/-- `sys_read`. -/
def sysRead (p : Pid) (fd : ℤ) (dst : Dst) (n answer : ℤ) : FsProg ℤ := do
  match ← argfd p fd with
  | none => return -1
  | some (_, f) =>
    let r ← fileread f dst n answer
    return r.1

/-- `sys_write`. -/
def sysWrite (p : Pid) (fd : ℤ) (src : Src) (n answer : ℤ) : FsProg ℤ := do
  match ← argfd p fd with
  | none => return -1
  | some (_, f) => filewrite f src n answer

/-- `sys_close`. -/
def sysClose (p : Pid) (fd : ℤ) : FsProg ℤ := do
  match ← argfd p fd with
  | none => return -1
  | some (fd', f) =>
    onTables fun t => .ok ((), t.setOfile p fd' none)
    fileclose f
    return 0

/-- `sys_fstat`. -/
def sysFstat (p : Pid) (fd : ℤ) (copied : Bool) : FsProg ℤ := do
  match ← argfd p fd with
  | none => return -1
  | some (_, f) =>
    let r ← filestat f copied
    return r.1

/-- The exit `bad` of `sys_link`. -/
def linkBad (ip : Fin ninode) : FsProg ℤ := do
  Prog.call (.ilock ip)
  Prog.call (.setLinks ip fun a => { a with nlink := a.nlink - 1 })
  Prog.call (.iupdate ip)
  iunlockput ip
  Prog.call .endOp
  return -1

/-- The entry `sys_link` makes; `dirlink` is not called when the devices differ. -/
def linkEntry (dp : Fin ninode) (name : List UInt8) (ip : Fin ninode) : FsProg ℤ := do
  let di ← Prog.call (.ident dp)
  let ii ← Prog.call (.ident ip)
  if di.1 ≠ ii.1 then return -1 else dirlink dp name ii.2

/-- `sys_link`. -/
def sysLink (p : Pid) (old new : Option PathArg) : FsProg ℤ := do
  match old, new with
  | some old, some new => do
    Prog.call .beginOp
    match ← namei p old.chars with
    | none =>
      Prog.call .endOp
      return -1
    | some ip =>
      Prog.call (.ilock ip)
      let a ← Prog.call (.attr ip)
      if a.type = tDir then do
        iunlockput ip
        Prog.call .endOp
        return -1
      else do
        Prog.call (.setLinks ip fun a => { a with nlink := a.nlink + 1 })
        Prog.call (.iupdate ip)
        Prog.call (.iunlock ip)
        match ← nameiparent p new.chars with
        | none => linkBad ip
        | some (dp, name) =>
          Prog.call (.ilock dp)
          let r ← linkEntry dp name ip
          iunlockput dp
          if r < 0 then linkBad ip
          else do
            Prog.call (.iput ip)
            Prog.call .endOp
            return 0
  | _, _ => return -1

/-- The loop of `isdirempty`, at offset `off`. -/
def isdiremptyLoop (dp : Fin ninode) (size : ℕ) : ℕ → ℕ → FsProg Bool
  | 0, _ => return true
  | fuel + 1, off =>
    if off < size then do
      let r ← Prog.call (.readi dp .kernel off direntSize)
      if r.1 ≠ direntSize then fsPanic .isdirempty
      else if (getDirent r.2).inum ≠ 0 then return false
      else isdiremptyLoop dp size fuel (off + direntSize)
    else return true

/-- `isdirempty`. -/
def isdirempty (dp : Fin ninode) : FsProg Bool := do
  let a ← Prog.call (.attr dp)
  isdiremptyLoop dp a.size (a.size / direntSize + 1) (2 * direntSize)

/-- The exit `bad` of `sys_unlink`. -/
def unlinkBad (dp : Fin ninode) : FsProg ℤ := do
  iunlockput dp
  Prog.call .endOp
  return -1

/-- Whether `sys_unlink` must refuse to remove `ip`: it is a directory that is not empty. -/
def unlinkBusy (ip : Fin ninode) (type : BitVec 16) : FsProg Bool :=
  if type = tDir then do
    let empty ← isdirempty ip
    return !empty
  else return false

/-- The parent of a directory that is removed loses the link of its "..". -/
def unlinkParent (dp : Fin ninode) (type : BitVec 16) : FsProg Unit :=
  if type = tDir then do
    Prog.call (.setLinks dp fun a => { a with nlink := a.nlink - 1 })
    Prog.call (.iupdate dp)
  else return ()

/-- `sys_unlink` from the point where nothing can fail: the entry of `ip` at offset `off`
of `dp` is cleared. -/
def unlinkEntry (dp ip : Fin ninode) (off : ℕ) (type : BitVec 16) : FsProg ℤ := do
  let r ← Prog.call (.writei dp (.kernel (List.replicate direntSize 0)) off direntSize)
  if r ≠ direntSize then fsPanic .unlinkWritei
  else do
    unlinkParent dp type
    iunlockput dp
    Prog.call (.setLinks ip fun a => { a with nlink := a.nlink - 1 })
    Prog.call (.iupdate ip)
    iunlockput ip
    Prog.call .endOp
    return 0

/-- `sys_unlink`. -/
def sysUnlink (p : Pid) (path : Option PathArg) : FsProg ℤ := do
  match path with
  | none => return -1
  | some path => do
    Prog.call .beginOp
    match ← nameiparent p path.chars with
    | none =>
      Prog.call .endOp
      return -1
    | some (dp, name) =>
      Prog.call (.ilock dp)
      -- cannot unlink "." or ".."
      if namecmp name dot = 0 ∨ namecmp name dotdot = 0 then unlinkBad dp
      else do
        match ← dirlookup dp name with
        | none => unlinkBad dp
        | some (ip, off) =>
          Prog.call (.ilock ip)
          let a ← Prog.call (.attr ip)
          if a.nlink.toInt < 1 then fsPanic .unlinkNlink
          else do
            if ← unlinkBusy ip a.type then do
              iunlockput ip
              unlinkBad dp
            else unlinkEntry dp ip off a.type

/-- A new directory gets its entries "." and "..", and its parent a link for "..". -/
def createDots (dp ip : Fin ninode) (dinum inum : ℕ) (type : BitVec 16) : FsProg Unit :=
  if type = tDir then do
    Prog.call (.setLinks dp fun a => { a with nlink := a.nlink + 1 }) -- for ".."
    Prog.call (.iupdate dp)
    let r ← dirlink ip dot inum
    if r < 0 then fsPanic .createDots
    else do
      let r ← dirlink ip dotdot dinum
      if r < 0 then fsPanic .createDots else return ()
  else return ()

/-- `create`. -/
def create (p : Pid) (path : List UInt8) (type major minor : BitVec 16) :
    FsProg (Option (Fin ninode)) := do
  match ← nameiparent p path with
  | none => return none
  | some (dp, name) =>
    Prog.call (.ilock dp)
    match ← dirlookup dp name with
    | some (ip, _) =>
      iunlockput dp
      Prog.call (.ilock ip)
      let a ← Prog.call (.attr ip)
      if type = tFile ∧ (a.type = tFile ∨ a.type = tDevice) then return some ip
      else do
        iunlockput ip
        return none
    | none =>
      let di ← Prog.call (.ident dp)
      let ip ← Prog.call (.ialloc di.1 type)
      Prog.call (.ilock ip)
      Prog.call (.setLinks ip fun _ => ⟨major, minor, 1⟩)
      Prog.call (.iupdate ip)
      let ii ← Prog.call (.ident ip)
      createDots dp ip di.2 ii.2 type
      let r ← dirlink dp name ii.2
      if r < 0 then fsPanic .createDirlink
      else do
        iunlockput dp
        return some ip

/-- The inode `sys_open` is about to open, locked. -/
def openInode (p : Pid) (path : List UInt8) (omode : BitVec 32) : FsProg (Option (Fin ninode)) :=
  if omode &&& oCreate ≠ 0 then create p path tFile 0 0
  else do
    match ← namei p path with
    | none => return none
    | some ip =>
      Prog.call (.ilock ip)
      let a ← Prog.call (.attr ip)
      if a.type = tDir ∧ omode ≠ 0 then do
        iunlockput ip
        return none
      else return some ip

/-- `sys_open` with `O_TRUNC` empties a file. -/
def openTrunc (ip : Fin ninode) (omode : BitVec 32) (type : BitVec 16) : FsProg Unit :=
  if omode &&& oTrunc ≠ 0 ∧ type = tFile then Prog.call (.itrunc ip) else return ()

/-- What `sys_open` makes of the `struct file`. -/
def openFile (ip : Fin ninode) (omode : BitVec 32) (a : Attr) (x : File) : File :=
  { (if a.type = tDevice then { x with type := .device, major := a.major }
    else { x with type := .inode, off := 0 } : File) with
    ip := ip
    readable := decide (omode &&& oWronly = 0)
    writable := decide (omode &&& oWronly ≠ 0 ∨ omode &&& oRdwr ≠ 0) }

/-- `sys_open`. -/
def sysOpen (p : Pid) (path : Option PathArg) (omode : BitVec 32) : FsProg ℤ := do
  match path with
  | none => return -1
  | some path => do
    Prog.call .beginOp
    match ← openInode p path.chars omode with
    | none =>
      Prog.call .endOp
      return -1
    | some ip =>
      let a ← Prog.call (.attr ip)
      if a.type = tDevice ∧ (a.major.toInt < 0 ∨ (ndev : ℤ) ≤ a.major.toInt) then do
        iunlockput ip
        Prog.call .endOp
        return -1
      else do
        match ← filealloc with
        | none =>
          iunlockput ip
          Prog.call .endOp
          return -1
        | some f =>
          match ← fdalloc p f with
          | none =>
            fileclose f
            iunlockput ip
            Prog.call .endOp
            return -1
          | some fd =>
            onTables fun t => .ok ((), t.setFile f (openFile ip omode a))
            openTrunc ip omode a.type
            Prog.call (.iunlock ip)
            Prog.call .endOp
            return fd.val

/-- `sys_mkdir` and `sys_mknod` differ in what they create. -/
def sysMake (p : Pid) (path : Option PathArg) (type major minor : BitVec 16) : FsProg ℤ := do
  Prog.call .beginOp
  match path with
  | none =>
    Prog.call .endOp
    return -1
  | some path =>
    match ← create p path.chars type major minor with
    | none =>
      Prog.call .endOp
      return -1
    | some ip =>
      iunlockput ip
      Prog.call .endOp
      return 0

/-- `sys_mkdir`. -/
def sysMkdir (p : Pid) (path : Option PathArg) : FsProg ℤ := sysMake p path tDir 0 0

/-- `sys_mknod`. -/
def sysMknod (p : Pid) (path : Option PathArg) (major minor : BitVec 32) : FsProg ℤ :=
  sysMake p path tDevice (major.setWidth 16) (minor.setWidth 16)

/-- `sys_chdir`. -/
def sysChdir (p : Pid) (path : Option PathArg) : FsProg ℤ := do
  Prog.call .beginOp
  match path with
  | none =>
    Prog.call .endOp
    return -1
  | some path =>
    match ← namei p path.chars with
    | none =>
      Prog.call .endOp
      return -1
    | some ip =>
      Prog.call (.ilock ip)
      let a ← Prog.call (.attr ip)
      if a.type ≠ tDir then do
        iunlockput ip
        Prog.call .endOp
        return -1
      else do
        Prog.call (.iunlock ip)
        let cwd ← myCwd p
        Prog.call (.iput cwd)
        Prog.call .endOp
        onTables fun t => .ok ((), t.setProc p fun x => { x with cwd := some ip })
        return 0

/-- `pipealloc`; `page` is what `kalloc` returns. -/
def pipealloc (page : Option ℕ) : FsProg (Option (Fin nfile × Fin nfile)) := do
  match ← filealloc with
  | none => return none
  | some f0 =>
    match ← filealloc with
    | none =>
      fileclose f0
      return none
    | some f1 =>
      match page with
      | none =>
        fileclose f0
        fileclose f1
        return none
      | some pi =>
        -- `kalloc` does not return a page in use
        onTables fun t =>
          if (t.pipe pi).isSome then .stuck
          else .ok ((), t.setPipe pi (some ⟨true, true⟩))
        onTables fun t => .ok ((), t.setFile f0 fun x =>
          { x with type := .pipe, readable := true, writable := false, pipe := pi })
        onTables fun t => .ok ((), t.setFile f1 fun x =>
          { x with type := .pipe, readable := false, writable := true, pipe := pi })
        return some (f0, f1)

/-- `sys_pipe`; `copied` tells whether both `copyout`s succeed. -/
def sysPipe (p : Pid) (page : Option ℕ) (copied : Bool) : FsProg ℤ := do
  match ← pipealloc page with
  | none => return -1
  | some (rf, wf) =>
    match ← fdalloc p rf with
    | none =>
      fileclose rf
      fileclose wf
      return -1
    | some fd0 =>
      match ← fdalloc p wf with
      | none =>
        onTables fun t => .ok ((), t.setOfile p fd0 none)
        fileclose rf
        fileclose wf
        return -1
      | some fd1 =>
        if copied then return 0
        else do
          onTables fun t => .ok ((), t.setOfile p fd0 none)
          onTables fun t => .ok ((), t.setOfile p fd1 none)
          fileclose rf
          fileclose wf
          return -1

/-- The loop of `fork` over the open files. -/
def forkFiles (p np : Pid) : List (Fin nofile) → FsProg Unit
  | [] => return ()
  | fd :: fds => do
    match ← onTables fun t => .ok ((t.proc p).ofile fd, t) with
    | none => forkFiles p np fds
    | some f =>
      filedup f
      onTables fun t => .ok ((), t.setOfile np fd (some f))
      forkFiles p np fds

/-- What `fork` does with files; `np` is the process `allocproc` found unused, or `none` if
there was none or memory ran out, and `pid` the number `allocpid` gave it. -/
def sysFork (p : Pid) (np : Option Pid) (pid : ℤ) : FsProg ℤ := do
  match np with
  | none => return -1
  | some np =>
    onTables fun t =>
      if (t.proc np).cwd.isNone && (List.finRange nofile).all fun fd =>
        ((t.proc np).ofile fd).isNone
      then .ok ((), t) else .stuck
    forkFiles p np (List.finRange nofile)
    let cwd ← myCwd p
    Prog.call (.idup cwd)
    onTables fun t => .ok ((), t.setProc np fun x => { x with cwd := some cwd })
    return pid

/-- The loop of `exit` over the open files. -/
def exitFiles (p : Pid) : List (Fin nofile) → FsProg Unit
  | [] => return ()
  | fd :: fds => do
    match ← onTables fun t => .ok ((t.proc p).ofile fd, t) with
    | none => exitFiles p fds
    | some f =>
      fileclose f
      onTables fun t => .ok ((), t.setOfile p fd none)
      exitFiles p fds

/-- What `exit` does with files.  The first process is `init`.  `exit` does not return, which
the 0 stands for. -/
def sysExit (p : Pid) : FsProg ℤ :=
  if p.val = 0 then fsPanic .initExiting
  else do
    exitFiles p (List.finRange nofile)
    Prog.call .beginOp
    let cwd ← myCwd p
    Prog.call (.iput cwd)
    Prog.call .endOp
    onTables fun t => .ok ((), t.setProc p fun x => { x with cwd := none })
    return 0

/-- The reads of `exec`, at the offsets and of the lengths the program file asks for. -/
def execReads (ip : Fin ninode) : List (BitVec 32 × BitVec 32) → FsProg Unit
  | [] => return ()
  | (off, n) :: l => do
    let _ ← Prog.call (.readi ip .kernel off.toNat n.toNat)
    execReads ip l

/-- What `exec` does with files; `answer` is what it returns once the program is found. -/
def sysExec (p : Pid) (path : Option PathArg) (reads : List (BitVec 32 × BitVec 32))
    (answer : ℤ) : FsProg ℤ := do
  match path with
  | none => return -1
  | some path => do
    Prog.call .beginOp
    match ← namei p path.chars with
    | none =>
      Prog.call .endOp
      return -1
    | some ip =>
      Prog.call (.ilock ip)
      execReads ip reads
      iunlockput ip
      Prog.call .endOp
      return answer

/-- A system call with its arguments. -/
inductive Call
  | open (path : Option PathArg) (omode : BitVec 32)
  | close (fd : ℤ)
  | dup (fd : ℤ)
  | read (fd : ℤ) (va : BitVec 64) (mapped : BitVec 64 → Bool) (n answer : ℤ)
  | write (fd : ℤ) (va : BitVec 64) (mem : BitVec 64 → Option UInt8) (n answer : ℤ)
  | fstat (fd : ℤ) (copied : Bool)
  | link (old new : Option PathArg)
  | unlink (path : Option PathArg)
  | mkdir (path : Option PathArg)
  | mknod (path : Option PathArg) (major minor : BitVec 32)
  | chdir (path : Option PathArg)
  | pipe (page : Option ℕ) (copied : Bool)
  | fork (np : Option Pid) (pid : ℤ)
  | exit
  | exec (path : Option PathArg) (reads : List (BitVec 32 × BitVec 32)) (answer : ℤ)

/-- The code that serves a system call of process `p`. -/
def syscall (p : Pid) : Call → FsProg ℤ
  | .open path omode => sysOpen p path omode
  | .close fd => sysClose p fd
  | .dup fd => sysDup p fd
  | .read fd va mapped n answer => sysRead p fd (.user va mapped) n answer
  | .write fd va mem n answer => sysWrite p fd (.user va mem) n answer
  | .fstat fd copied => sysFstat p fd copied
  | .link old new => sysLink p old new
  | .unlink path => sysUnlink p path
  | .mkdir path => sysMkdir p path
  | .mknod path major minor => sysMknod p path major minor
  | .chdir path => sysChdir p path
  | .pipe page copied => sysPipe p page copied
  | .fork np pid => sysFork p np pid
  | .exit => sysExit p
  | .exec path reads answer => sysExec p path reads answer

end Xv6.Fs
