import Xv6.Fs.Dir

/-!
# Building a file system image

`mkfs/mkfs.c`, on a little-endian host, where `xint` and `xshort` change nothing.  The
program ends early, without an image to use, where one of its assertions fails or a sector
outside the image is read.

## Main definitions

* `mkfsSuper` — the superblock it writes.
* `ialloc`, `iappend`, `balloc` — its allocators.
* `main` — the image for a list of input files.
-/

namespace Xv6.Mkfs

open Fs

def ninodes : ℕ := 200
def nbitmap : ℕ := fssize / (bsize * 8) + 1
def ninodeblocks : ℕ := ninodes / ipb + 1
def nlog : ℕ := logsize
def nmeta : ℕ := 2 + nlog + ninodeblocks + nbitmap

/-- The superblock. -/
def mkfsSuper : Super where
  size := fssize
  ninodes := ninodes
  inodestart := 2 + nlog
  bmapstart := 2 + nlog + ninodeblocks
  inodes_lt := by decide
  meta_lt := by decide
  size_le := by decide
  root_lt := by decide
  ninodes_le := by decide

/-- The image under construction, and the program's counters. -/
structure State where
  disk : ℕ → Block
  freeinode : ℕ
  freeblock : ℕ

/-- An input file: its name as given, and what successive calls of `read` return. -/
structure Input where
  name : List UInt8
  chunks : List (List UInt8)

/-- `rsect`: only sectors of the image can be read. -/
def rsect (s : State) (sec : ℕ) : Option Block := if sec < fssize then some (s.disk sec) else none

/-- `wsect`. -/
def wsect (s : State) (sec : ℕ) (b : Block) : State :=
  { s with disk := Function.update s.disk sec b }

/-- `rinode`. -/
def rinode (s : State) (inum : ℕ) : Option Dinode := do
  let b ← rsect s (mkfsSuper.iblock inum)
  return getDinode b (inum % ipb)

/-- `winode`. -/
def winode (s : State) (inum : ℕ) (d : Dinode) : Option State := do
  let b ← rsect s (mkfsSuper.iblock inum)
  return wsect s (mkfsSuper.iblock inum) (putDinode b (inum % ipb) d)

/-- `ialloc`. -/
def ialloc (s : State) (type : BitVec 16) : Option (ℕ × State) := do
  let s' ← winode { s with freeinode := s.freeinode + 1 } s.freeinode
    { Dinode.empty with type := type, nlink := 1 }
  return (s.freeinode, s')

/-- The sector for block `fbn` of an inode, allocated if there is none. -/
def appendBlock (s : State) (d : Dinode) (fbn : ℕ) : Option (ℕ × Dinode × State) :=
  if fbn < ndirect then
    if d.addr fbn = 0 then
      let d := d.setAddr fbn s.freeblock
      some (d.addr fbn, d, { s with freeblock := s.freeblock + 1 })
    else some (d.addr fbn, d, s)
  else do
    let (d, s) := if d.addr ndirect = 0 then
        (d.setAddr ndirect s.freeblock, { s with freeblock := s.freeblock + 1 })
      else (d, s)
    let indirect ← rsect s (d.addr ndirect)
    if (indirect.get32 (4 * (fbn - ndirect))).toNat = 0 then
      let indirect := indirect.put32 (4 * (fbn - ndirect)) (BitVec.ofNat 32 s.freeblock)
      let s := wsect { s with freeblock := s.freeblock + 1 } (d.addr ndirect) indirect
      return ((indirect.get32 (4 * (fbn - ndirect))).toNat, d, s)
    else return ((indirect.get32 (4 * (fbn - ndirect))).toNat, d, s)

/-- The loop of `iappend`: the bytes `p` go to offset `off`. -/
def appendLoop : ℕ → State → Dinode → ℕ → List UInt8 → Option (ℕ × Dinode × State)
  | 0, s, d, off, _ => some (off, d, s)
  | fuel + 1, s, d, off, p =>
    if p = [] then some (off, d, s)
    else if off / bsize < maxfile then do
      let (x, d, s) ← appendBlock s d (off / bsize)
      let n1 := min p.length ((off / bsize + 1) * bsize - off)
      let buf ← rsect s x
      let s := wsect s x (buf.blit (off - off / bsize * bsize) (p.take n1))
      appendLoop fuel s d (off + n1) (p.drop n1)
    else none

/-- `iappend`. -/
def iappend (s : State) (inum : ℕ) (p : List UInt8) : Option State := do
  let d ← rinode s inum
  let (off, d, s) ← appendLoop p.length s d d.size.toNat p
  winode s inum { d with size := BitVec.ofNat 32 off }

/-- The bit map block with the first `used` bits set. -/
def bitmap (used : ℕ) : Block := (List.range used).foldl setBit Bytes.zero

/-- `balloc`. -/
def balloc (s : State) (used : ℕ) : Option State :=
  if used < bsize * 8 then some (wsect s mkfsSuper.bmapstart (bitmap used)) else none

/-- The block holding `struct superblock`. -/
def superBlock : Block :=
  let b : Block := Bytes.zero
  let b := b.put32 0 0x10203040
  let b := b.put32 4 (BitVec.ofNat 32 fssize)
  let b := b.put32 8 (BitVec.ofNat 32 (fssize - nmeta))
  let b := b.put32 12 (BitVec.ofNat 32 ninodes)
  let b := b.put32 16 (BitVec.ofNat 32 nlog)
  let b := b.put32 20 2
  let b := b.put32 24 (BitVec.ofNat 32 mkfsSuper.inodestart)
  b.put32 28 (BitVec.ofNat 32 mkfsSuper.bmapstart)

/-- The image of zeroes with the superblock. -/
def start : State where
  disk := Function.update (fun _ => Bytes.zero) 1 superBlock
  freeinode := 1
  freeblock := nmeta

/-- The name of a file in the image: without a leading `user/`, and then without a leading
`_`; none if a `/` remains. -/
def shortname (name : List UInt8) : Option (List UInt8) :=
  -- "user/"
  let s := if strncmp 5 name [117, 115, 101, 114, 47] = 0 then name.drop 5 else name
  if slash ∈ s then none
  else some (if s.head? = some 95 then s.tail else s)

/-- The chunks of an input file are appended one after the other. -/
def appendChunks (s : State) (inum : ℕ) : List (List UInt8) → Option State
  | [] => some s
  | c :: cs => do
    let s ← iappend s inum c
    appendChunks s inum cs

/-- The body of the loop over the input files. -/
def addFile (rootino : ℕ) (s : State) (f : Input) : Option State := do
  let name ← shortname f.name
  let (inum, s) ← ialloc s tFile
  let s ← iappend s rootino (Dirent.bytes ⟨BitVec.ofNat 16 inum, strncpy dirsiz name⟩)
  appendChunks s inum f.chunks

/-- The loop over the input files. -/
def addFiles (rootino : ℕ) (s : State) : List Input → Option State
  | [] => some s
  | f :: fs => do
    let s ← addFile rootino s f
    addFiles rootino s fs

/-- The root directory with its entries for itself. -/
def makeRoot : Option (ℕ × State) := do
  let (root, s) ← ialloc start tDir
  let s ← iappend s root (Dirent.bytes ⟨BitVec.ofNat 16 root, strncpy dirsiz dot⟩)
  let s ← iappend s root (Dirent.bytes ⟨BitVec.ofNat 16 root, strncpy dirsiz dotdot⟩)
  return (root, s)

/-- The end of `main`: the size of the root directory is rounded, and the bit map written. -/
def finish (root : ℕ) (s : State) : Option State := do
  let d ← rinode s root
  let s ← winode s root { d with size := BitVec.ofNat 32 ((d.size.toNat / bsize + 1) * bsize) }
  balloc s s.freeblock

/-- `main`: the state at the end, if the program runs to completion. -/
def main (files : List Input) : Option State := do
  let (root, s) ← makeRoot
  let s ← addFiles root s files
  finish root s

end Xv6.Mkfs
