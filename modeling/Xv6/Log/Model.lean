import Xv6.Lib.Outcome
import Xv6.Param

/-!
# The log

The redo log of `kernel/log.c` as a machine.  A step is one critical section
under `log.lock`, one block write of `commit()` or of `recover_from_log()`, or a
crash; any number of processes take steps in any order.

The buffer cache appears as the map `cache`, the contents `bread` returns for
each block; `disk` is what is on the platter.  A crash loses `cache` and
everything else in memory.

## Main definitions

* `putHead`, `getHead` — the on-disk header, as `write_head` and `read_head`
  see it.
* `Sys` — the state; `Pc`, `CommitPc`, `RecoverPc` — where each party stands.
* `beginOp`, `logWrite`, `endOp`, `commitStep`, `recoverStep` — the code.
* `step` — one step of the machine.
* `Ghost`, `traced` — the same machine with a record of its commit points.
-/

namespace Xv6.Log

/-! ### The on-disk header -/

/-- The stores `hb->block[i] = log.lh.block[i]` of `write_head`, from index `i` on. -/
def putBlocks (b : Block) : ℕ → List BlockNo → Block
  | _, [] => b
  | i, x :: xs => putBlocks (b.put32 (4 + 4 * i) x) (i + 1) xs

/-- What `write_head` makes of the header block: the count and the first `n`
block numbers are stored, the rest of the block keeps what it held. -/
def putHead (b : Block) (lh : List BlockNo) : Block :=
  putBlocks (b.put32 0 (BitVec.ofNat 32 lh.length)) 0 lh

/-- What `read_head` takes from the header block: the first `n` block numbers.
The count is a signed `int`, and a negative one makes the loop run zero times. -/
def getHead (b : Block) : List BlockNo :=
  (List.range (b.get32 0).toInt.toNat).map fun i => b.get32 (4 + 4 * i)

/-! ### The state -/

/-- The fields of `struct log` that `initlog` sets from the superblock.  A log has at
least its header block. -/
structure Geometry where
  start : BlockNo -- `log.start`: the header block
  size : ℤ -- `log.size`: the number of blocks of the log, header included
  size_pos : 0 < size

/-- The block `log.start+tail+1`, holding the `tail`-th logged block. -/
def Geometry.logBlock (L : Geometry) (tail : ℕ) : BlockNo := L.start + BitVec.ofNat 32 tail + 1

/-- The blocks of the log region. -/
def Geometry.Region (L : Geometry) (b : BlockNo) : Prop :=
  ∃ k : ℕ, (k : ℤ) < L.size ∧ b = L.start + BitVec.ofNat 32 k

/-- Where a process stands inside `commit()`. -/
inductive CommitPc
  | check -- about to test `log.lh.n > 0`
  | writeLog (tail : ℕ) -- in `write_log`, about to handle index `tail`
  | writeHead -- about to write the header: the real commit
  | install (tail : ℕ) -- in `install_trans`, about to handle index `tail`
  | eraseHead -- `log.lh.n` is zero; about to write the header again
  | finish -- back in `end_op`, about to clear `log.committing`
  deriving DecidableEq

/-- Where a process stands with respect to the log. -/
inductive Pc
  | idle -- outside any operation
  | sleeping -- `SLEEPING` on `&log` in `begin_op`
  | woken -- `RUNNABLE` again in `begin_op`, about to go round its loop
  -- between `begin_op` and `end_op`; `ws` lists the distinct block numbers this
  -- operation has logged, and no code reads it
  | inOp (ws : List BlockNo)
  | commit (c : CommitPc) -- in the second half of `end_op`, running `commit()`
  deriving DecidableEq

/-- Where `recover_from_log` stands. -/
inductive RecoverPc
  | readHead -- about to read the header
  | install (tail : ℕ) -- in `install_trans`, about to handle index `tail`
  | clear -- `log.lh.n` is zero; about to write the header
  deriving DecidableEq

/-- Whether the machine is running operations or still recovering. -/
inductive Mode
  | up -- `initlog` has returned
  | recovering (c : RecoverPc) -- `initlog` is executing `recover_from_log`
  deriving DecidableEq

/-- The panics of `log.c`. -/
inductive Panic
  | tooBig -- `panic("too big a transaction")`
  | outsideTrans -- `panic("log_write outside of trans")`
  | committing -- `panic("log.committing")`
  deriving DecidableEq

/-- The state of the log and of the processes using it. -/
structure Sys (P : Type*) where
  disk : BlockNo → Block -- the contents of the disk
  cache : BlockNo → Block -- the contents `bread` returns
  lh : List BlockNo -- `log.lh`: the block numbers `lh.block[0..n)`
  outstanding : ℤ -- `log.outstanding`
  committing : Bool -- `log.committing`
  mode : Mode -- running or recovering
  proc : P → Pc -- where each process stands

variable {P : Type*} [DecidableEq P]

namespace Sys

/-- Put process `p` at `c`. -/
def goto (s : Sys P) (p : P) (c : Pc) : Sys P := { s with proc := Function.update s.proc p c }

/-- Fill the buffer of block `b` with `v` and `bwrite` it. -/
def bwrite (s : Sys P) (b : BlockNo) (v : Block) : Sys P :=
  { s with disk := Function.update s.disk b v, cache := Function.update s.cache b v }

/-- `wakeup(&log)`. -/
def wakeup (s : Sys P) : Sys P :=
  { s with proc := fun p => if s.proc p = .sleeping then .woken else s.proc p }

/-- `write_head()`. -/
def writeHead (L : Geometry) (s : Sys P) : Sys P :=
  s.bwrite L.start (putHead (s.cache L.start) s.lh)

/-- The machine just booted: memory is lost, and `initlog` calls
`recover_from_log` before any operation can begin. -/
def boot (d : BlockNo → Block) : Sys P where
  disk := d
  cache := d
  lh := []
  outstanding := 0
  committing := false
  mode := .recovering .readHead
  proc := fun _ => .idle

end Sys

/-! ### The code -/

/-- One round of the loop of `begin_op`. -/
def beginOp (s : Sys P) (p : P) : Sys P :=
  if s.committing then s.goto p .sleeping
  else if (s.lh.length : ℤ) + (s.outstanding + 1) * maxopblocks > logsize then
    -- this op might exhaust log space; wait for commit
    s.goto p .sleeping
  else ({ s with outstanding := s.outstanding + 1 } : Sys P).goto p (.inOp [])

/-- The search loop of `log_write` and the store after it: the block number
goes to the index where it is found, or else to the end. -/
def absorb (lh : List BlockNo) (b : BlockNo) : List BlockNo :=
  if lh.findIdx (· == b) = lh.length then lh ++ [b] else lh.set (lh.findIdx (· == b)) b

/-- `log_write(b)`. -/
def logWrite (L : Geometry) (s : Sys P) (b : BlockNo) : Outcome Panic (Sys P) :=
  if s.lh.length ≥ logsize ∨ (s.lh.length : ℤ) ≥ L.size - 1 then .panic .tooBig
  else if s.outstanding < 1 then .panic .outsideTrans
  else .ok { s with lh := absorb s.lh b }

/-- The first critical section of `end_op`. -/
def endOp (s : Sys P) (p : P) : Outcome Panic (Sys P) :=
  let s := { s with outstanding := s.outstanding - 1 }
  if s.committing then .panic .committing
  else if s.outstanding = 0 then
    .ok (({ s with committing := true } : Sys P).goto p (.commit .check))
  else .ok (s.wakeup.goto p .idle)

/-- One step of `commit()`, or of the critical section `end_op` ends with. -/
def commitStep (L : Geometry) (s : Sys P) (p : P) : CommitPc → Sys P
  | .check => s.goto p (.commit (if s.lh.length > 0 then .writeLog 0 else .finish))
  | .writeLog tail =>
    match s.lh[tail]? with
    | some b => (s.bwrite (L.logBlock tail) (s.cache b)).goto p (.commit (.writeLog (tail + 1)))
    | none => s.goto p (.commit .writeHead)
  | .writeHead => (s.writeHead L).goto p (.commit (.install 0))
  | .install tail =>
    match s.lh[tail]? with
    | some b => (s.bwrite b (s.cache (L.logBlock tail))).goto p (.commit (.install (tail + 1)))
    | none => ({ s with lh := [] } : Sys P).goto p (.commit .eraseHead)
  | .eraseHead => (s.writeHead L).goto p (.commit .finish)
  | .finish => (({ s with committing := false } : Sys P).wakeup).goto p .idle

/-- One step of `recover_from_log()`. -/
def recoverStep (L : Geometry) (s : Sys P) : RecoverPc → Sys P
  | .readHead => { s with lh := getHead (s.cache L.start), mode := .recovering (.install 0) }
  | .install tail =>
    match s.lh[tail]? with
    | some b =>
      { s.bwrite b (s.cache (L.logBlock tail)) with mode := .recovering (.install (tail + 1)) }
    | none => { s with lh := [], mode := .recovering .clear }
  | .clear => { s.writeHead L with mode := .up }

/-- What can happen next. -/
inductive Event (P : Type*)
  | beginOp (p : P) -- `p` calls `begin_op`, or goes round its loop again after a wakeup
  | logWrite (p : P) (b : BlockNo) (v : Block) -- read block `b`, change it to `v`, `log_write`
  | endOp (p : P) -- `p` calls `end_op`
  | commit (p : P) -- `p` takes one step of `commit()`
  | kill (p : P) -- `kill` makes a sleeping `p` runnable
  | crash -- the machine crashes and boots
  | recover -- `recover_from_log` takes one step

/-- One step of the machine.  A step that does not fit where its process stands
is one the code never takes. -/
def step (L : Geometry) (s : Sys P) : Event P → Outcome Panic (Sys P)
  | .beginOp p =>
    match s.mode, s.proc p with
    | .up, .idle => .ok (beginOp s p)
    | .up, .woken => .ok (beginOp s p)
    | _, _ => .stuck
  | .logWrite p b v =>
    match s.mode, s.proc p with
    | .up, .inOp ws =>
      (logWrite L { s with cache := Function.update s.cache b v } b).bind fun s' =>
        .ok (s'.goto p (.inOp (ws.insert b)))
    | _, _ => .stuck
  | .endOp p =>
    match s.mode, s.proc p with
    | .up, .inOp _ => endOp s p
    | _, _ => .stuck
  | .commit p =>
    match s.mode, s.proc p with
    | .up, .commit c => .ok (commitStep L s p c)
    | _, _ => .stuck
  | .kill p =>
    match s.mode, s.proc p with
    | .up, .sleeping => .ok (s.goto p .woken)
    | _, _ => .stuck
  | .crash => .ok (.boot s.disk)
  | .recover =>
    match s.mode with
    | .recovering c => .ok (recoverStep L s c)
    | .up => .stuck

/-! ### History -/

/-- What is remembered of a run; no code reads it. -/
structure Ghost where
  /-- The contents seen by the file system at each commit point, latest first.
  A commit point is `write_head` with `n > 0` reaching the disk. -/
  points : List (BlockNo → Block)
  calls : List BlockNo -- the block numbers passed to `log_write` since `log.lh.n` was last zeroed

/-- How the history grows with a step from `s`. -/
def Ghost.next (g : Ghost) (s : Sys P) : Event P → Ghost
  | .logWrite _ b _ => { g with calls := b :: g.calls }
  | .commit p =>
    match s.proc p with
    | .commit .writeHead => { g with points := s.cache :: g.points }
    | .commit (.install tail) => if s.lh[tail]? = none then { g with calls := [] } else g
    | _ => g
  | .crash => { g with calls := [] }
  | _ => g

/-- The contents at the last commit point. -/
def Ghost.last (g : Ghost) (d : BlockNo → Block) : BlockNo → Block := g.points.headD d

/-- The machine together with its history. -/
def traced (L : Geometry) (x : Sys P × Ghost) (e : Event P) : Outcome Panic (Sys P × Ghost) :=
  (step L x.1 e).bind fun s' => .ok (s', x.2.next x.1 e)

end Xv6.Log
