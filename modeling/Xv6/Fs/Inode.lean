import Xv6.Fs.Disk

/-!
# Blocks and inodes

The block allocator, the inode table and the contents of inodes: the first half of
`kernel/fs.c`, written against the steps of `DiskOp`.  Functions that a sleep-lock makes
depend on the running process take it as the argument `p`, the kernel's `myproc()`.

## Main definitions

* `balloc`, `bfree` — the block allocator.
* `iget`, `idup`, `ilock`, `iunlock`, `iput`, `ialloc`, `iupdate` — the inode table.
* `bmap`, `itrunc`, `readi`, `writei` — inode contents.
* `Src`, `Dst` — where `writei` takes bytes from, and where `readi` puts them.
-/

namespace Xv6.Fs

/-- Code that touches the disk and the kernel's tables. -/
abbrev DiskProg (α : Type) : Type 1 := Prog DiskOp α

variable (sb : Super)

/-- A critical section on the tables. -/
def onMem {β : Type} (f : Mem → Outcome Panic (β × Mem)) : DiskProg β := Prog.call (.mem f)

/-- `panic(...)`. -/
def panic {α : Type} (e : Panic) : DiskProg α := onMem fun _ => .panic e

/-- Look at an entry of the inode table. -/
def getInode (e : Fin ninode) : DiskProg Inode := onMem fun m => .ok (m.inode e, m)

/-- Assign to fields of an entry of the inode table. -/
def setInode (e : Fin ninode) (f : Inode → Inode) : DiskProg Unit :=
  onMem fun m => .ok ((), m.setInode e f)

/-! ### Blocks -/

/-- `bzero`. -/
def bzero (b : ℕ) : DiskProg Unit := Prog.call (.changeBlock b fun _ => ((), Bytes.zero, true))

/-- The outer loop of `balloc`, at bit map block `k` with at most `fuel` blocks to go. -/
def ballocLoop : ℕ → ℕ → DiskProg ℕ
  | 0, _ => panic .outOfBlocks
  | fuel + 1, k =>
    if k * bpb < sb.size then do
      match ← Prog.call (.markBit k) with
      | some bi =>
        bzero (k * bpb + bi)
        return k * bpb + bi
      | none => ballocLoop fuel (k + 1)
    else panic .outOfBlocks

/-- `balloc`. -/
def balloc : DiskProg ℕ := ballocLoop sb (sb.size / bpb + 1) 0

/-- `bfree`. -/
def bfree (b : ℕ) : DiskProg Unit := Prog.call (.clearBit b)

/-! ### The inode table -/

/-- The critical section of `iget`. -/
def igetMem (dev inum : ℕ) (m : Mem) : Outcome Panic (Fin ninode × Mem) :=
  match (List.finRange ninode).find? fun e =>
      0 < (m.inode e).ref && (m.inode e).dev == dev && (m.inode e).inum == inum with
  | some e => .ok (e, m.setInode e fun ip => { ip with ref := ip.ref + 1 })
  | none =>
    match (List.finRange ninode).find? fun e => (m.inode e).ref == 0 with
    | some e => .ok (e, m.setInode e fun ip =>
        { ip with dev := dev, inum := inum, ref := 1, valid := false })
    | none => .panic .igetNoInodes

/-- `iget`. -/
def iget (dev inum : ℕ) : DiskProg (Fin ninode) := onMem (igetMem dev inum)

/-- `idup`. -/
def idup (e : Fin ninode) : DiskProg Unit := setInode e fun ip => { ip with ref := ip.ref + 1 }

/-- The loop of `ialloc`, at inode `inum` with at most `fuel` inodes to go. -/
def iallocLoop (dev : ℕ) (type : BitVec 16) : ℕ → ℕ → DiskProg (Fin ninode)
  | 0, _ => panic .noInodes
  | fuel + 1, inum =>
    if inum < sb.ninodes then do
      if ← Prog.call (.claimDinode inum type) then iget dev inum
      else iallocLoop dev type fuel (inum + 1)
    else panic .noInodes

/-- `ialloc`. -/
def ialloc (dev : ℕ) (type : BitVec 16) : DiskProg (Fin ninode) :=
  iallocLoop sb dev type sb.ninodes 1

/-- `iupdate`. -/
def iupdate (e : Fin ninode) : DiskProg Unit := do
  let ip ← getInode e
  Prog.call (.writeDinode ip.inum ip.d)

/-- `acquiresleep(&ip->lock)`. -/
def acquiresleep (p : Pid) (e : Fin ninode) : DiskProg Unit := onMem fun m =>
  if (m.inode e).owner = none then .ok ((), m.setInode e fun ip => { ip with owner := some p })
  else .stuck

/-- `releasesleep(&ip->lock)`. -/
def releasesleep (e : Fin ninode) : DiskProg Unit := setInode e fun ip => { ip with owner := none }

/-- `ilock`. -/
def ilock (p : Pid) (e : Fin ninode) : DiskProg Unit := do
  let ip ← getInode e
  if ip.ref < 1 then panic .ilock
  else do
    acquiresleep p e
    let ip ← getInode e
    if ip.valid then return ()
    else do
      let d ← Prog.call (.readDinode ip.inum)
      setInode e fun ip => { ip with d := d, valid := true }
      if d.type = 0 then panic .noType else return ()

/-- `iunlock`. -/
def iunlock (p : Pid) (e : Fin ninode) : DiskProg Unit := do
  let ip ← getInode e
  if ip.owner ≠ some p ∨ ip.ref < 1 then panic .iunlock
  else releasesleep e

/-! ### Inode contents -/

/-- `if((addr = ip->addrs[k]) == 0) ip->addrs[k] = addr = balloc(ip->dev)`. -/
def bmapAddr (e : Fin ninode) (k : ℕ) : DiskProg ℕ := do
  let ip ← getInode e
  if ip.d.addr k = 0 then do
    let b ← balloc sb
    setInode e fun ip => { ip with d := ip.d.setAddr k b }
    return b
  else return ip.d.addr k

/-- `bmap`: the disk block address of block `bn` of an inode, allocated if there is none. -/
def bmap (e : Fin ninode) (bn : ℕ) : DiskProg ℕ :=
  if bn < ndirect then bmapAddr sb e bn
  else if bn - ndirect < nindirect then do
    -- load indirect block, allocating if necessary
    let addr ← bmapAddr sb e ndirect
    let a ← Prog.call (.readBlock addr)
    if (a.get32 (4 * (bn - ndirect))).toNat = 0 then do
      let b ← balloc sb
      Prog.call (.changeBlock addr fun a =>
        ((), a.put32 (4 * (bn - ndirect)) (BitVec.ofNat 32 b), true))
      return b
    else return (a.get32 (4 * (bn - ndirect))).toNat
  else panic .bmapOutOfRange

/-- The first loop of `itrunc`, over the block numbers in the inode. -/
def truncDirect (e : Fin ninode) : List ℕ → DiskProg Unit
  | [] => return ()
  | i :: is => do
    let ip ← getInode e
    if ip.d.addr i = 0 then truncDirect e is
    else do
      bfree (ip.d.addr i)
      setInode e fun ip => { ip with d := ip.d.setAddr i 0 }
      truncDirect e is

/-- The second loop of `itrunc`, over the block numbers in the indirect block `a`. -/
def truncIndirect (a : Block) : List ℕ → DiskProg Unit
  | [] => return ()
  | j :: js => do
    if (a.get32 (4 * j)).toNat = 0 then truncIndirect a js
    else do
      bfree (a.get32 (4 * j)).toNat
      truncIndirect a js

/-- The part of `itrunc` for the indirect block. -/
def truncTable (e : Fin ninode) : DiskProg Unit := do
  let ip ← getInode e
  if ip.d.addr ndirect = 0 then return ()
  else do
    let a ← Prog.call (.readBlock (ip.d.addr ndirect))
    truncIndirect a (List.range nindirect)
    bfree (ip.d.addr ndirect)
    setInode e fun ip => { ip with d := ip.d.setAddr ndirect 0 }

/-- `itrunc`. -/
def itrunc (e : Fin ninode) : DiskProg Unit := do
  truncDirect e (List.range ndirect)
  truncTable e
  setInode e fun ip => { ip with d := { ip.d with size := 0 } }
  iupdate e

/-- The critical sections of `iput` on `itable.lock`: the first decides whether the inode
is to be freed, and takes its sleep-lock if so. -/
def iputEnter (p : Pid) (e : Fin ninode) (m : Mem) : Outcome Panic (Bool × Mem) :=
  if (m.inode e).ref = 1 ∧ (m.inode e).valid = true ∧ (m.inode e).d.nlink = 0 then
    if (m.inode e).owner = none then .ok (true, m.setInode e fun ip => { ip with owner := some p })
    else .stuck
  else .ok (false, m.setInode e fun ip => { ip with ref := ip.ref - 1 })

/-- `iput`. -/
def iput (p : Pid) (e : Fin ninode) : DiskProg Unit := do
  if ← onMem (iputEnter p e) then do
    -- inode has no links and no other references: truncate and free
    itrunc e
    setInode e fun ip => { ip with d := { ip.d with type := 0 } }
    iupdate e
    setInode e fun ip => { ip with valid := false }
    releasesleep e
    setInode e fun ip => { ip with ref := ip.ref - 1 }
  else return ()

/-- The destination of a read: the kernel's own memory, or a user address with the set of
addresses that are mapped. -/
inductive Dst
  | kernel
  | user (va : BitVec 64) (mapped : BitVec 64 → Bool)

/-- How many of the `m` bytes from position `tot` on can be stored: `either_copyout` stores
them up to the first address that is not mapped. -/
def Dst.room (dst : Dst) (tot m : ℕ) : ℕ :=
  match dst with
  | .kernel => m
  | .user va mapped =>
    ((List.range m).takeWhile fun i => mapped (va + BitVec.ofNat 64 (tot + i))).length

/-- The source of a write: bytes of the kernel, or a user address with user memory. -/
inductive Src
  | kernel (bytes : List UInt8)
  | user (va : BitVec 64) (mem : BitVec 64 → Option UInt8)

/-- The bytes `either_copyin` delivers of the `m` from position `tot` on: all of them, or
those before the first address that is not mapped. -/
def Src.fetch (src : Src) (tot m : ℕ) : List UInt8 :=
  match src with
  | .kernel bytes => (List.range m).map fun i => bytes.getD (tot + i) 0
  | .user va mem =>
    ((List.range m).map fun i => mem (va + BitVec.ofNat 64 (tot + i))).takeWhile Option.isSome
      |>.filterMap id

/-- The loop of `readi`: `left` bytes to go from offset `off` on, `done` read so far. -/
def readLoop (e : Fin ninode) (dst : Dst) : ℕ → ℕ → ℕ → List UInt8 → DiskProg (ℤ × List UInt8)
  | 0, _, _, done => return (done.length, done)
  | fuel + 1, off, left, done =>
    if left = 0 then return (done.length, done)
    else do
      let b ← bmap sb e (off / bsize)
      let a ← Prog.call (.readBlock b)
      let m := min left (bsize - off % bsize)
      let k := dst.room done.length m
      if k < m then return (-1, done ++ a.slice (off % bsize) k)
      else readLoop e dst fuel (off + m) (left - m) (done ++ a.slice (off % bsize) m)

/-- `readi`: the number of bytes read or -1, and the bytes stored at the destination. -/
def readi (e : Fin ninode) (dst : Dst) (off n : ℕ) : DiskProg (ℤ × List UInt8) := do
  let ip ← getInode e
  let size := ip.d.size.toNat
  if size < off ∨ (off + n) % 2 ^ 32 < off then return (0, [])
  else
    let n := if size < (off + n) % 2 ^ 32 then size - off else n
    readLoop sb e dst n off n []

/-- The loop of `writei`: `left` bytes to go at offset `off`, `tot` written so far.  Returns
the offset and the count at the end. -/
def writeLoop (e : Fin ninode) (src : Src) : ℕ → ℕ → ℕ → ℕ → DiskProg (ℕ × ℕ)
  | 0, off, _, tot => return (off, tot)
  | fuel + 1, off, left, tot =>
    if left = 0 then return (off, tot)
    else do
      let b ← bmap sb e (off / bsize)
      let m := min left (bsize - off % bsize)
      let bytes := src.fetch tot m
      -- a copy that fails half-way leaves what it copied in the buffer, but does not log it
      let ok ← Prog.call (.changeBlock b fun a =>
        (decide (bytes.length = m), a.blit (off % bsize) bytes, decide (bytes.length = m)))
      if ok then writeLoop e src fuel (off + m) (left - m) (tot + m)
      else return (off, tot)

/-- `if(off > ip->size) ip->size = off`. -/
def Dinode.grow (d : Dinode) (off : ℕ) : Dinode :=
  if d.size.toNat < off then { d with size := BitVec.ofNat 32 off } else d

/-- `writei`. -/
def writei (e : Fin ninode) (src : Src) (off n : ℕ) : DiskProg ℤ := do
  let ip ← getInode e
  if ip.d.size.toNat < off ∨ (off + n) % 2 ^ 32 < off then return -1
  else if maxfile * bsize < (off + n) % 2 ^ 32 then return -1
  else do
    let r ← writeLoop sb e src n off n 0
    setInode e fun ip => { ip with d := ip.d.grow r.1 }
    iupdate e
    return r.2

end Xv6.Fs
