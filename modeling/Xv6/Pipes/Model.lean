import Xv6.Lib.Fifo
import Xv6.Lib.Outcome

/-!
# Pipes

`kernel/pipe.c` as a machine: one pipe, and any number of processes that call `pipewrite`,
`piperead` and `pipeclose` on it, or are killed.  A step is one iteration of a loop of these
functions, one process looked at by `wakeup`, or one of the steps of `sleep`; a process may be
killed between any two of them.

A process holds `pi->lock` while it runs the code of this file, except in `sleep`.  `sleep` and
`wakeup` are those of `kernel/proc.c`; a critical section on the lock of a process, as in
`wakeup` and `kill`, is one step.

## Main definitions

* `Pipe` — `struct pipe`, its lock apart.
* `Pc` — where a process is in the code.
* `State`, `start` — the machine, and the machine when `pipealloc` has returned.
* `act` — the next step of a process.
* `step` — one step of the machine.
-/

namespace Xv6.Pipes

def pipesize : ℕ := 512

instance : NeZero pipesize := ⟨by decide⟩

/-- What processes sleep on: `&pi->nread` and `&pi->nwrite`. -/
inductive Chan
  | nread
  | nwrite
  deriving DecidableEq

/-- `struct pipe`, its lock apart. -/
structure Pipe where
  ring : Fifo 32 pipesize UInt8 -- `data`, `nread` and `nwrite`
  readopen : Bool -- read fd is still open
  writeopen : Bool -- write fd is still open

/-- The arguments of `pipewrite`, with what `copyin` finds at `addr + i`. -/
structure Write where
  n : ℤ
  src : ℕ → Option UInt8

/-- The arguments of `piperead`, with whether `copyout` can store at `addr + i`. -/
structure Read where
  n : ℤ
  dst : ℕ → Bool

/-- What follows a `wakeup`. -/
inductive After
  | sleep (w : Write) (i : ℕ) -- `pipewrite` found the pipe full
  | ret -- `pipewrite` and `pipeclose` return
  | retRead (i : ℕ) (out : List UInt8) -- `piperead` returns `i`

/-- The code that is run with `pi->lock` held. -/
inductive Held
  /-- The loop of `pipewrite`.  No code reads `last`: the value of `i` when `wakeup(&pi->nread)`
  was last called, or the loop entered. -/
  | writeLoop (w : Write) (i last : ℕ)
  | readLoop (r : Read) -- the first loop of `piperead`
  /-- The second loop of `piperead`.  No code reads `out`: the bytes stored so far. -/
  | readCopy (r : Read) (i : ℕ) (out : List UInt8)
  | close (writable : Bool) -- the start of `pipeclose`
  | wakeup (chan : Chan) (q : ℕ) (k : After) -- `wakeup(chan)`, at `proc[q]`

/-- How far `sleep` has come. -/
inductive SleepPc
  | acquire -- about to acquire `p->lock`
  | release -- about to release `pi->lock`
  | set -- about to set `p->chan` and `p->state`
  | sched -- in `sched`, until the scheduler releases `p->lock`
  | asleep -- until a scheduler runs the process again
  | tidy -- about to clear `p->chan` and release `p->lock`
  deriving DecidableEq

/-- Where a process is. -/
inductive Pc
  | out -- in no function of this file
  | acquire (k : Held) -- about to acquire `pi->lock`
  | held (k : Held)
  | sleep (chan : Chan) (stage : SleepPc) (k : Held) -- in `sleep(chan, &pi->lock)`

inductive ProcState
  | sleeping
  | runnable
  | running
  deriving DecidableEq

/-- `struct proc`, as far as it matters here. -/
structure Proc where
  locked : Bool -- is `p->lock` held, between two steps?
  state : ProcState
  chan : Option Chan -- if not none, sleeping on it
  killed : Bool

/-- The pipe and the processes.  No code reads the last three fields: the bytes `pipewrite` has
stored, the bytes `piperead` has taken, and the bytes the calls of `piperead` that have returned
have delivered. -/
structure State (N : ℕ) where
  pipe : Pipe
  lock : Option (Fin N) -- the holder of `pi->lock`
  proc : Fin N → Proc
  pc : Fin N → Pc
  stored : List UInt8
  taken : List UInt8
  delivered : List UInt8

variable {N : ℕ}

namespace State

/-- A process goes on. -/
def goto (s : State N) (p : Fin N) (pc : Pc) : State N :=
  { s with pc := Function.update s.pc p pc }

/-- Assign to fields of a process. -/
def setProc (s : State N) (p : Fin N) (f : Proc → Proc) : State N :=
  { s with proc := Function.update s.proc p (f (s.proc p)) }

/-- Assign to `pi->lock`. -/
def setLock (s : State N) (l : Option (Fin N)) : State N := { s with lock := l }

/-- Assign to the pipe. -/
def setPipe (s : State N) (pipe : Pipe) : State N := { s with pipe := pipe }

/-- `release(&pi->lock)`, and the call returns. -/
def ret (s : State N) (p : Fin N) : State N := (s.setLock none).goto p .out

section Fields

variable (s : State N) (p : Fin N) (pc : Pc) (f : Proc → Proc) (l : Option (Fin N)) (x : Pipe)

@[simp] theorem goto_pc : (s.goto p pc).pc = Function.update s.pc p pc := rfl

@[simp] theorem goto_proc : (s.goto p pc).proc = s.proc := rfl

@[simp] theorem goto_lock : (s.goto p pc).lock = s.lock := rfl

@[simp] theorem setProc_pc : (s.setProc p f).pc = s.pc := rfl

@[simp] theorem setProc_proc : (s.setProc p f).proc = Function.update s.proc p (f (s.proc p)) := rfl

@[simp] theorem setLock_pc : (s.setLock l).pc = s.pc := rfl

end Fields

end State

/-- The pipe `pipealloc` makes, in a page with any contents. -/
def newPipe (data : Fin pipesize → UInt8) : Pipe := ⟨⟨data, 0, 0⟩, true, true⟩

/-- A process outside the code of this file. -/
def newProc : Proc := ⟨false, .running, none, false⟩

/-- The machine when `pipealloc` has returned. -/
def start (N : ℕ) (data : Fin pipesize → UInt8) : State N :=
  ⟨newPipe data, none, fun _ => newProc, fun _ => .out, [], [], []⟩

/-- One process in the loop of `wakeup`. -/
def wakeupOne (chan : Chan) (x : Proc) : Proc :=
  if x.state = .sleeping ∧ x.chan = some chan then { x with state := .runnable } else x

/-- An iteration of the loop of `pipewrite`. -/
def writeIter (s : State N) (p : Fin N) (w : Write) (i last : ℕ) : State N :=
  if (i : ℤ) < w.n then
    if s.pipe.readopen = false ∨ (s.proc p).killed = true then s.ret p
    else if s.pipe.ring.Full then s.goto p (.held (.wakeup .nread 0 (.sleep w i)))
    else match w.src i with
      | none => s.goto p (.held (.wakeup .nread 0 .ret))
      | some ch =>
        { s.setPipe { s.pipe with ring := s.pipe.ring.push ch } with
          stored := s.stored ++ [ch] }.goto p (.held (.writeLoop w (i + 1) last))
  else s.goto p (.held (.wakeup .nread 0 .ret))

/-- An iteration of the first loop of `piperead`. -/
def readIter (s : State N) (p : Fin N) (r : Read) : State N :=
  if s.pipe.ring.Empty ∧ s.pipe.writeopen = true then
    if (s.proc p).killed = true then s.ret p
    else s.goto p (.sleep .nread .acquire (.readLoop r))
  else s.goto p (.held (.readCopy r 0 []))

/-- An iteration of the second loop of `piperead`. -/
def copyIter (s : State N) (p : Fin N) (r : Read) (i : ℕ) (out : List UInt8) : State N :=
  if (i : ℤ) < r.n ∧ ¬ s.pipe.ring.Empty then
    let ch := s.pipe.ring.front
    let s := { s.setPipe { s.pipe with ring := s.pipe.ring.pop } with taken := s.taken ++ [ch] }
    if r.dst i then s.goto p (.held (.readCopy r (i + 1) (out ++ [ch])))
    else s.goto p (.held (.wakeup .nwrite 0 (.retRead i out)))
  else s.goto p (.held (.wakeup .nwrite 0 (.retRead i out)))

/-- The start of `pipeclose`. -/
def closeEnd (s : State N) (p : Fin N) (writable : Bool) : State N :=
  if writable then
    (s.setPipe { s.pipe with writeopen := false }).goto p (.held (.wakeup .nread 0 .ret))
  else (s.setPipe { s.pipe with readopen := false }).goto p (.held (.wakeup .nwrite 0 .ret))

/-- What follows a `wakeup`. -/
def after (s : State N) (p : Fin N) : After → State N
  | .sleep w i => s.goto p (.sleep .nwrite .acquire (.writeLoop w i i))
  | .ret => s.ret p
  | .retRead i out => { s with delivered := s.delivered ++ out.take i }.ret p

/-- One process in the loop of `wakeup`, or what follows the loop. -/
def wakeupIter (s : State N) (p : Fin N) (chan : Chan) (q : ℕ) (k : After) :
    Outcome Empty (State N) :=
  if h : q < N then
    if ⟨q, h⟩ = p then .ok (s.goto p (.held (.wakeup chan (q + 1) k)))
    else if (s.proc ⟨q, h⟩).locked then .stuck
    else .ok ((s.setProc ⟨q, h⟩ (wakeupOne chan)).goto p (.held (.wakeup chan (q + 1) k)))
  else .ok (after s p k)

/-- A step of `sleep(chan, &pi->lock)`. -/
def sleepStep (s : State N) (p : Fin N) (chan : Chan) (k : Held) : SleepPc → Outcome Empty (State N)
  | .acquire =>
    if (s.proc p).locked then .stuck
    else .ok ((s.setProc p fun x => { x with locked := true }).goto p (.sleep chan .release k))
  | .release => .ok ((s.setLock none).goto p (.sleep chan .set k))
  | .set =>
    .ok ((s.setProc p fun x => { x with chan := some chan, state := .sleeping }).goto p
      (.sleep chan .sched k))
  | .sched => .ok ((s.setProc p fun x => { x with locked := false }).goto p (.sleep chan .asleep k))
  | .asleep =>
    if (s.proc p).state = .runnable ∧ (s.proc p).locked = false then
      .ok ((s.setProc p fun x => { x with locked := true, state := .running }).goto p
        (.sleep chan .tidy k))
    else .stuck
  | .tidy =>
    .ok ((s.setProc p fun x => { x with chan := none, locked := false }).goto p (.acquire k))

/-- The next step of a process.  A pipe both of whose ends are closed has been freed. -/
def act (s : State N) (p : Fin N) : Outcome Empty (State N) :=
  match s.pc p with
  | .out => .stuck
  | .acquire k =>
    if s.lock = none ∧ (s.pipe.readopen || s.pipe.writeopen) then
      .ok ((s.setLock (some p)).goto p (.held k))
    else .stuck
  | .held (.writeLoop w i last) => .ok (writeIter s p w i last)
  | .held (.readLoop r) => .ok (readIter s p r)
  | .held (.readCopy r i out) => .ok (copyIter s p r i out)
  | .held (.close writable) => .ok (closeEnd s p writable)
  | .held (.wakeup chan q k) => wakeupIter s p chan q k
  | .sleep chan x k => sleepStep s p chan k x

/-- What happens: a call starts, a process takes a step, or is killed. -/
inductive Event (N : ℕ)
  | write (p : Fin N) (w : Write)
  | read (p : Fin N) (r : Read)
  | close (p : Fin N) (writable : Bool)
  | act (p : Fin N)
  | kill (p : Fin N)

/-- The start of a call. -/
def call (s : State N) (p : Fin N) (k : Held) : Outcome Empty (State N) :=
  match s.pc p with
  | .out => .ok (s.goto p (.acquire k))
  | _ => .stuck

/-- The critical section of `kill` on the process it is called for. -/
def kill (x : Proc) : Proc :=
  { x with killed := true, state := if x.state = .sleeping then .runnable else x.state }

/-- One step. -/
def step (s : State N) : Event N → Outcome Empty (State N)
  | .write p w => call s p (.writeLoop w 0 0)
  | .read p r => call s p (.readLoop r)
  | .close p writable => call s p (.close writable)
  | .act p => act s p
  | .kill p => if (s.proc p).locked then .stuck else .ok (s.setProc p kill)

end Xv6.Pipes
