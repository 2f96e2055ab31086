import Xv6.Fs.Syscall

/-!
# The file system as a machine

A step is one complete system call of some process, run alone on a disk of bytes.

## Main definitions

* `boot` — the kernel just started: the first process has the root as current directory.
* `runCall`, `step` — one system call.
-/

namespace Xv6.Fs

/-- An unused entry of the inode table. -/
def Inode.unused : Inode := ⟨0, 0, 0, none, false, Dinode.empty⟩

/-- An unused `struct file`. -/
def File.unused : File := ⟨.none, 0, false, false, 0, ⟨0, ninode_pos⟩, 0, 0⟩

/-- The tables when `userinit` has returned: the call `namei("/")` for the first process
took one entry of the inode table. -/
def bootMem : Mem where
  inode := fun e =>
    if e.val = 0 then { Inode.unused with dev := rootdev.toNat, inum := rootino.toNat, ref := 1 }
    else Inode.unused
  tables :=
    { file := fun _ => File.unused
      proc := fun p => ⟨fun _ => none, if p.val = 0 then some ⟨0, ninode_pos⟩ else none⟩
      pipe := fun _ => none }

/-- The kernel started on a disk. -/
def boot (disk : ℕ → Block) : Image := ⟨disk, [], bootMem⟩

/-- A system call of process `p`, down to the steps on disk and tables. -/
def callProg (sb : Super) (p : Pid) (c : Call) : DiskProg ℤ := (syscall p c).expand (inodeImpl sb p)

/-- A system call run alone.  A process without a current directory does not exist, and
makes no calls. -/
def runCall (sb : Super) (s : Image) (p : Pid) (c : Call) : Outcome Panic (ℤ × Image) :=
  if (s.mem.tables.proc p).cwd.isNone then .stuck else (callProg sb p c).exec (onImage sb) s

/-- One step: a process makes a system call, and it completes. -/
def step (sb : Super) (s : Image) (a : Pid × Call) : Outcome Panic Image :=
  (runCall sb s a.1 a.2).bind fun r => .ok r.2

end Xv6.Fs
