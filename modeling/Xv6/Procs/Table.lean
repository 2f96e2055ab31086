import Mathlib.Data.List.FinRange
import Xv6.Param

/-!
# The process table

The entries of `proc[]` of `kernel/proc.c` as far as processes are created, put
to sleep, woken, killed and reaped, and what each critical section of an entry's
`p->lock` does to it.  What hangs from an entry (its page table, trap frame and
open files) is left out here, as is the saved context, which belongs to the
machine that switches between processes.

The number of slots is a parameter, `NPROC` of the source.

## Main definitions

* `Proc N` — an entry of the table.
* `Proc.freeproc`, `Proc.wakeup`, `Proc.kill`, `Proc.alloc` — the bodies of the
  critical sections.
-/

namespace Xv6.Procs

/-- The source's `enum procstate`. -/
inductive ProcState
  | unused | used | sleeping | runnable | running | zombie
  deriving DecidableEq, Repr

/-- The address a process sleeps on.  `wait` sleeps on the address of the
process's own slot, so the addresses of slots are told from all others. -/
inductive Chan (N : ℕ)
  | null
  | proc (i : Fin N) -- `&proc[i]`
  | addr (a : ℕ)
  deriving DecidableEq, Repr

/-- The address of a slot that a pointer to one holds. -/
def Chan.ofProc {N : ℕ} : Option (Fin N) → Chan N
  | none => .null
  | some i => .proc i

/-- An entry of the process table. -/
structure Proc (N : ℕ) where
  state : ProcState := .unused -- process state
  chan : Chan N := .null -- if non-zero, sleeping on chan
  killed : Bool := false -- if non-zero, have been killed
  xstate : BitVec 32 := 0 -- exit status to be returned to parent's wait
  pid : BitVec 32 := 0 -- process ID
  parent : Option (Fin N) := none -- parent process
  deriving DecidableEq, Repr

/-- Which of the allocations of `fork` succeed. -/
structure Mem where
  trapframe : Bool -- `kalloc` in `allocproc`
  pagetable : Bool -- `proc_pagetable`
  copy : Bool -- `uvmcopy`
  deriving DecidableEq, Repr

namespace Proc

variable {N : ℕ}

/-- `freeproc`: every field goes back to zero. -/
def freeproc (_ : Proc N) : Proc N :=
  { state := .unused, chan := .null, killed := false, xstate := 0, pid := 0, parent := none }

/-- What `allocproc` does to the slot it found.  The other fields, `killed` among
them, stay as they are. -/
def alloc (p : Proc N) (pid : BitVec 32) : Proc N :=
  { p with pid := pid, state := .used }

/-- The body of the loop of `wakeup`. -/
def wakeup (p : Proc N) (chan : Chan N) : Proc N :=
  if p.state = .sleeping ∧ p.chan = chan then { p with state := .runnable } else p

/-- What `kill` does to the slot it found. -/
def kill (p : Proc N) : Proc N :=
  if p.state = .sleeping then { p with killed := true, state := .runnable }
  else { p with killed := true }

@[simp] theorem freeproc_killed (p : Proc N) : p.freeproc.killed = false := rfl

@[simp] theorem alloc_killed (p : Proc N) (q : BitVec 32) : (p.alloc q).killed = p.killed := rfl

@[simp] theorem wakeup_pid (p : Proc N) (chan : Chan N) : (p.wakeup chan).pid = p.pid := by
  unfold wakeup
  split <;> rfl

@[simp] theorem wakeup_killed (p : Proc N) (chan : Chan N) :
    (p.wakeup chan).killed = p.killed := by
  unfold wakeup
  split <;> rfl

@[simp] theorem wakeup_unused (p : Proc N) (chan : Chan N) :
    (p.wakeup chan).state = .unused ↔ p.state = .unused := by
  unfold wakeup
  split
  · next h => simp [h.1]
  · rfl

@[simp] theorem kill_pid (p : Proc N) : p.kill.pid = p.pid := by
  unfold kill
  split <;> rfl

@[simp] theorem kill_unused (p : Proc N) : p.kill.state = .unused ↔ p.state = .unused := by
  unfold kill
  split
  · next h => simp [h]
  · rfl

end Proc

end Xv6.Procs
