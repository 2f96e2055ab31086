import Xv6.Lib.Bytes

/-!
# Kernel parameters

The constants of `kernel/param.h` and `kernel/fs.h` the rest of the development
shares, and the type of disk blocks.  A constant keeps its name in the source,
in lower case.
-/

namespace Xv6

def nproc : ℕ := 64 -- maximum number of processes
def nofile : ℕ := 16 -- open files per process
def nfile : ℕ := 100 -- open files per system
def ninode : ℕ := 50 -- maximum number of active i-nodes
def ndev : ℕ := 10 -- maximum major device number
def rootdev : BitVec 32 := 1 -- device number of file system root disk
def maxopblocks : ℕ := 10 -- max # of blocks any FS op writes
def logsize : ℕ := maxopblocks * 3 -- max data blocks in on-disk log
def nbuf : ℕ := maxopblocks * 3 -- size of disk block cache
def fssize : ℕ := 1000 -- size of file system in blocks
def maxpath : ℕ := 128 -- maximum file path name
def rootino : BitVec 32 := 1 -- root i-number
def bsize : ℕ := 1024 -- block size

theorem ninode_pos : 0 < ninode := by decide

/-- The contents of a disk block. -/
abbrev Block := Bytes bsize

/-- A block number, the kernel's `uint blockno`. -/
abbrev BlockNo := BitVec 32

end Xv6
