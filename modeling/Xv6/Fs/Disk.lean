import Xv6.Fs.Format
import Xv6.Lib.Prog

/-!
# The state of the file system, and the accesses to it

The kernel's tables in memory (`struct inode`, `struct file`, the parts of `struct proc`
that concern files), and the steps in which file system code touches memory and disk: one
critical section under a spin-lock, or one use of a buffer from `bread` to `brelse`.

The steps have two meanings.  On a disk of bytes, an inode or a bit is found in the block
and at the offset the superblock says.  On a structured disk, inodes, bits and data blocks
are separate.  The file system code is written once, against the steps.

## Main definitions

* `Inode`, `File`, `Proc`, `Mem` — the tables.
* `DiskOp` — the steps.
* `Image`, `onImage` — a disk of bytes, and what the steps do to it.
* `Store`, `onStore` — a structured disk, and what the steps do to it.
-/

namespace Xv6.Fs

/-- A process, by its place in the process table. -/
abbrev Pid := Fin nproc

/-- The panics of `fs.c`, `file.c` and `sysfile.c`. -/
inductive Panic
  | outOfBlocks -- `panic("balloc: out of blocks")`
  | freeingFreeBlock -- `panic("freeing free block")`
  | noInodes -- `panic("ialloc: no inodes")`
  | igetNoInodes -- `panic("iget: no inodes")`
  | ilock -- `panic("ilock")`
  | noType -- `panic("ilock: no type")`
  | iunlock -- `panic("iunlock")`
  | bmapOutOfRange -- `panic("bmap: out of range")`
  | dirlookupNotDir -- `panic("dirlookup not DIR")`
  | dirlookupRead -- `panic("dirlookup read")`
  | dirlinkRead -- `panic("dirlink read")`
  | dirlink -- `panic("dirlink")`
  | isdirempty -- `panic("isdirempty: readi")`
  | unlinkNlink -- `panic("unlink: nlink < 1")`
  | unlinkWritei -- `panic("unlink: writei")`
  | createDots -- `panic("create dots")`
  | createDirlink -- `panic("create: dirlink")`
  | filedup -- `panic("filedup")`
  | fileclose -- `panic("fileclose")`
  | fileread -- `panic("fileread")`
  | filewrite -- `panic("filewrite")`
  | initExiting -- `panic("init exiting")`
  | freedPipe -- not a call of `panic`: a pipe is used after its page was freed
  deriving DecidableEq

/-! ### Tables in memory -/

/-- `struct inode`: the in-memory copy of an inode. -/
structure Inode where
  dev : ℕ -- device number
  inum : ℕ -- inode number
  ref : ℤ -- reference count
  owner : Option Pid -- the holder of `lock`
  valid : Bool -- inode has been read from disk?
  d : Dinode -- copy of disk inode

/-- The type of a `struct file`. -/
inductive FdType
  | none
  | pipe
  | inode
  | device
  deriving DecidableEq

/-- `struct file`. -/
structure File where
  type : FdType
  ref : ℤ -- reference count
  readable : Bool
  writable : Bool
  pipe : ℕ -- the address of the pipe, if the type is `pipe`
  ip : Fin ninode -- the inode, if the type is `inode` or `device`
  off : BitVec 32 -- the offset, if the type is `inode`
  major : BitVec 16 -- the device number, if the type is `device`

/-- The two ends of a `struct pipe`. -/
structure Pipe where
  readopen : Bool
  writeopen : Bool

/-- The fields of `struct proc` that concern files. -/
structure Proc where
  ofile : Fin nofile → Option (Fin nfile) -- open files
  cwd : Option (Fin ninode) -- current directory

/-- The tables of open files. -/
structure Tables where
  file : Fin nfile → File -- `ftable`
  proc : Pid → Proc
  pipe : ℕ → Option Pipe -- the pipes, by the address of their page

/-- What the file system keeps in memory. -/
structure Mem where
  inode : Fin ninode → Inode -- `itable`
  tables : Tables

/-- Change one entry of the inode table. -/
def Mem.setInode (m : Mem) (e : Fin ninode) (f : Inode → Inode) : Mem :=
  { m with inode := Function.update m.inode e (f (m.inode e)) }

/-! ### Steps -/

/-- The steps of file system code. -/
inductive DiskOp : Type → Type 1
  -- a critical section on the tables
  | mem {β : Type} (f : Mem → Outcome Panic (β × Mem)) : DiskOp β
  -- `bread` the block of inode `i` and copy the inode out
  | readDinode (i : ℕ) : DiskOp Dinode
  -- `bread` the block of inode `i`, store an inode there and `log_write`
  | writeDinode (i : ℕ) (d : Dinode) : DiskOp Unit
  -- the body of the loop of `ialloc`: take inode `i` if it is free
  | claimDinode (i : ℕ) (type : BitVec 16) : DiskOp Bool
  -- the body of the outer loop of `balloc`: the first free block of bit map block `k`,
  -- counted from its start, is marked used
  | markBit (k : ℕ) : DiskOp (Option ℕ)
  -- `bfree`
  | clearBit (b : ℕ) : DiskOp Unit
  -- `bread` a data block and look at it
  | readBlock (b : ℕ) : DiskOp Block
  -- `bread` a data block, change it, and `log_write` if so told
  | changeBlock {β : Type} (b : ℕ) (f : Block → β × Block × Bool) : DiskOp β
  | beginOp : DiskOp Unit
  | endOp : DiskOp Unit

/-! ### A disk of bytes -/

/-- The disk as the buffer cache shows it, with the memory of the kernel. -/
structure Image where
  blk : ℕ → Block
  logged : List ℕ -- the blocks `log_write` was called for since `begin_op`; no code reads it
  mem : Mem

/-- Store a block and `log_write` it. -/
def Image.logWrite (s : Image) (b : ℕ) (v : Block) : Image :=
  { s with blk := Function.update s.blk b v, logged := b :: s.logged }

/-- The first clear bit of bit map block `k`, counted from the start of the block. -/
def firstClear (sb : Super) (bit : ℕ → Bool) (k : ℕ) : Option ℕ :=
  (List.range bpb).find? fun bi => k * bpb + bi < sb.size && !bit bi

/-- The steps on a disk of bytes. -/
def onImage (sb : Super) : Handler DiskOp Panic Image := fun {_} o s =>
  match o with
  | .mem f => (f s.mem).bind fun r => .ok (r.1, { s with mem := r.2 })
  | .readDinode i => .ok (getDinode (s.blk (sb.iblock i)) (i % ipb), s)
  | .writeDinode i d =>
    .ok ((), s.logWrite (sb.iblock i) (putDinode (s.blk (sb.iblock i)) (i % ipb) d))
  | .claimDinode i type =>
    if (getDinode (s.blk (sb.iblock i)) (i % ipb)).type = 0 then
      .ok (true, s.logWrite (sb.iblock i)
        (putDinode (s.blk (sb.iblock i)) (i % ipb) { Dinode.empty with type := type }))
    else .ok (false, s)
  | .markBit k =>
    match firstClear sb (getBit (s.blk (sb.bmapstart + k))) k with
    | some bi =>
      .ok (some bi, s.logWrite (sb.bmapstart + k) (setBit (s.blk (sb.bmapstart + k)) bi))
    | none => .ok (none, s)
  | .clearBit b =>
    if getBit (s.blk (sb.bblock b)) (b % bpb) then
      .ok ((), s.logWrite (sb.bblock b) (clearBit (s.blk (sb.bblock b)) (b % bpb)))
    else .panic .freeingFreeBlock
  | .readBlock b => .ok (s.blk b, s)
  | .changeBlock b f =>
    let r := f (s.blk b)
    .ok (r.1, if r.2.2 then s.logWrite b r.2.1
      else { s with blk := Function.update s.blk b r.2.1 })
  | .beginOp => .ok ((), { s with logged := [] })
  | .endOp => .ok ((), s)

/-! ### A structured disk -/

/-- A disk with inodes, bits and data blocks apart. -/
structure Store where
  dinode : ℕ → Dinode
  bit : ℕ → Bool
  blk : ℕ → Block
  mem : Mem

/-- The steps on a structured disk. -/
def onStore (sb : Super) : Handler DiskOp Panic Store := fun {_} o s =>
  match o with
  | .mem f => (f s.mem).bind fun r => .ok (r.1, { s with mem := r.2 })
  | .readDinode i => .ok (s.dinode i, s)
  | .writeDinode i d => .ok ((), { s with dinode := Function.update s.dinode i d })
  | .claimDinode i type =>
    if (s.dinode i).type = 0 then
      .ok (true, { s with
        dinode := Function.update s.dinode i { Dinode.empty with type := type } })
    else .ok (false, s)
  | .markBit k =>
    match firstClear sb (fun bi => s.bit (k * bpb + bi)) k with
    | some bi => .ok (some bi, { s with bit := Function.update s.bit (k * bpb + bi) true })
    | none => .ok (none, s)
  | .clearBit b =>
    if s.bit b then .ok ((), { s with bit := Function.update s.bit b false })
    else .panic .freeingFreeBlock
  | .readBlock b => .ok (s.blk b, s)
  | .changeBlock b f =>
    let r := f (s.blk b)
    .ok (r.1, { s with blk := Function.update s.blk b r.2.1 })
  | .beginOp => .ok ((), s)
  | .endOp => .ok ((), s)

end Xv6.Fs
