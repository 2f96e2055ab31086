import Xv6.Console.Model
import Xv6.Pipes.Model
import Xv6.Procs.Table

/-!
# Calls that block, statement by statement

The calls in which a process waits for something and can be killed meanwhile: `piperead` and
`pipewrite` of `kernel/pipe.c`, `consoleread` of `kernel/console.c`, `wait` of `kernel/proc.c`
and `sys_sleep` of `kernel/sysproc.c`.  With them goes what they interact with: `sleep`,
`wakeup`, `kill`, `fork` and `exit` of `kernel/proc.c`, `pipeclose`, the interrupt handlers
that call `wakeup`, and the tests of `p->killed` in `usertrap`.

A step is one operation on a lock, or one access to fields of a process or to data that a lock
protects.  Any number of processes and of CPUs that take interrupts may take turns at any step.
What a process has still to do is a `Code`, so that a call of `sleep` or `wakeup` in the middle
of a function is the code of the callee in front of the rest of the caller.

The scheduler appears as the steps `swtched` and `resume`.  Which files a process has open is
left out; a process may use any pipe.

## Main definitions

* `Code N` — what a process or an interrupt handler has still to do.
* `State N M` — the processes, the locks and the data they protect.
* `act` — the next step of a process or of an interrupt handler.
* `step` — one step of the machine.
-/

namespace Xv6.Procs.Blocking

open Pipes (Pipe Read Write)
open Console (Cons)

/-- The spinlocks. -/
inductive Lock (N : ℕ)
  | proc (i : Fin N) -- `proc[i].lock`
  | wait -- `wait_lock`
  | pipe (a : ℕ) -- `pi->lock` of pipe `a`
  | cons -- `cons.lock`
  | ticks -- `tickslock`
  deriving DecidableEq

/-- The system calls. -/
inductive Call
  | piperead (a : ℕ) (r : Read)
  | pipewrite (a : ℕ) (w : Write)
  | pipeclose (a : ℕ) (writable : Bool)
  | consoleread (n : ℤ) (writable : ℕ → Bool) -- where `either_copyout` can store
  | wait (stored : Bool) -- is `addr` zero, or can `copyout` store there?
  | sleep (n : BitVec 32)
  | kill (pid : BitVec 32)
  | fork (mem : Mem)
  | exit (status : BitVec 32)

/-- What a process or an interrupt handler has still to do. -/
inductive Code (N : ℕ)
  | user (a0 : ℤ) -- in user space, with the value the last call returned
  | dead -- no process runs here
  | idle -- a CPU takes no interrupt
  -- `usertrap`
  | enter (c : Call) -- before the test of `killed` in front of a call
  | leave (a0 : ℤ) -- before the test of `killed` behind a call
  -- locks
  | acquire (lk : Lock N) (k : Code N)
  | release (lk : Lock N) (k : Code N)
  -- `wakeup(chan)`, where `myproc()` is `me`
  | wakeup (me : Option (Fin N)) (chan : Chan N) (q : ℕ) (k : Code N) -- the loop, at `proc[q]`
  | wakeupTest (me : Option (Fin N)) (chan : Chan N) (q : Fin N) (k : Code N) -- its lock is held
  -- `sleep`
  | setChan (chan : Chan N) (k : Code N)
  | setSleeping (k : Code N)
  | sched (k : Code N) -- until the scheduler has released `p->lock`
  | parked (k : Code N) -- until a scheduler runs the process again
  -- `piperead`
  | readTest (a : ℕ) (r : Read) -- the condition of the first loop
  | readKilled (a : ℕ) (r : Read)
  | readCopy (a : ℕ) (r : Read) (i : ℕ)
  -- `pipewrite`
  | writeTest (a : ℕ) (w : Write) (i : ℕ) -- `i < n`, and `readopen`
  | writeKilled (a : ℕ) (w : Write) (i : ℕ) -- `killed`, and the rest of an iteration
  | closeEnd (a : ℕ) (writable : Bool) -- `pipeclose`
  -- `consoleread`
  | consTest (n target : ℤ) (writable : ℕ → Bool) -- the conditions of the two loops
  | consKilled (n target : ℤ) (writable : ℕ → Bool)
  | consTake (n target : ℤ) (writable : ℕ → Bool)
  -- `wait`
  | waitScan (stored : Bool) (q : ℕ) (havekids : Bool) -- the inner loop, at `proc[q]`
  | waitKid (stored : Bool) (q : Fin N) -- with the lock of a child
  | waitKilled (stored havekids : Bool)
  -- `sys_sleep`
  | ticksRead (n : BitVec 32)
  | ticksTest (n ticks0 : BitVec 32)
  | ticksKilled (n ticks0 : BitVec 32)
  -- `kill`
  | killNext (pid : BitVec 32) (q : ℕ) -- the loop, at `proc[q]`
  | killTest (pid : BitVec 32) (q : Fin N)
  | killMark (q : Fin N) -- before `p->killed = 1`
  | killState (q : Fin N) -- before the test for `SLEEPING`
  | killDone (q : Fin N) -- before `release(&p->lock); return 0`
  -- `exit`
  | reparent (status : BitVec 32) (q : ℕ) -- the loop of `reparent`, at `proc[q]`
  | exitSet (status : BitVec 32) -- before `p->xstate = status; p->state = ZOMBIE`
  -- `fork`
  | forkNext (mem : Mem) (q : ℕ) -- the loop of `allocproc`, at `proc[q]`
  | forkTest (mem : Mem) (q : Fin N)
  | forkCopy (mem : Mem) (q : Fin N) -- from `found` to `release(&np->lock)`
  | forkParent (q : Fin N) (pid : BitVec 32)
  | forkRun (q : Fin N) (pid : BitVec 32) -- before `np->state = RUNNABLE`
  -- interrupt handlers
  | clockintr (me : Option (Fin N)) -- with `tickslock`
  | consoleintr (me : Option (Fin N)) (c : UInt8) -- with `cons.lock`

/-- Who takes steps: a process, or the interrupt handler of a CPU. -/
abbrev Actor (N M : ℕ) := Fin N ⊕ Fin M

inductive Panic
  | acquire
  | release
  | initExiting

/-- The machine.  No code reads `due`: a `kill` has found this process and released its lock,
and the process has not tested `killed` since. -/
structure State (N M : ℕ) where
  proc : Fin N → Proc N
  nextpid : BitVec 32
  initproc : Fin N
  lock : Lock N → Option (Actor N M) -- who holds it
  pc : Actor N M → Code N
  pipe : ℕ → Pipe
  cons : Cons
  ticks : BitVec 32
  due : Fin N → Bool

variable {N M : ℕ}

namespace State

/-- An actor goes on. -/
def goto (s : State N M) (x : Actor N M) (k : Code N) : State N M :=
  { s with pc := Function.update s.pc x k }

/-- Assign to fields of a process. -/
def setProc (s : State N M) (q : Fin N) (f : Proc N → Proc N) : State N M :=
  { s with proc := Function.update s.proc q (f (s.proc q)) }

/-- Assign to a lock. -/
def setLock (s : State N M) (lk : Lock N) (x : Option (Actor N M)) : State N M :=
  { s with lock := Function.update s.lock lk x }

/-- Assign to a pipe. -/
def setPipe (s : State N M) (a : ℕ) (pipe : Pipe) : State N M :=
  { s with pipe := Function.update s.pipe a pipe }

def setDue (s : State N M) (q : Fin N) (b : Bool) : State N M :=
  { s with due := Function.update s.due q b }

/-- `freeproc`. -/
def freeproc (s : State N M) (q : Fin N) : State N M :=
  (s.setProc q Proc.freeproc).setDue q false

end State

/-! ### Locks, `sleep` and `wakeup` -/

/-- `&pi->nread` of pipe `a`. -/
def nread (a : ℕ) : Chan N := .addr (2 * a + 2)

/-- `&pi->nwrite` of pipe `a`. -/
def nwrite (a : ℕ) : Chan N := .addr (2 * a + 3)

/-- `&cons.r`. -/
def consR : Chan N := .addr 0

/-- `&ticks`. -/
def ticksAddr : Chan N := .addr 1

/-- `acquire(lk)`. -/
def acquire (s : State N M) (x : Actor N M) (lk : Lock N) (k : Code N) :
    Outcome Panic (State N M) :=
  match s.lock lk with
  | none => .ok ((s.setLock lk (some x)).goto x k)
  | some y => if y = x then .panic .acquire else .stuck

/-- `release(lk)`. -/
def release (s : State N M) (x : Actor N M) (lk : Lock N) (k : Code N) :
    Outcome Panic (State N M) :=
  if s.lock lk = some x then .ok ((s.setLock lk none).goto x k) else .panic .release

/-- `sleep(chan, lk)`. -/
def sleep (p : Fin N) (chan : Chan N) (lk : Lock N) (k : Code N) : Code N :=
  .acquire (.proc p) <| .release lk <|
  .setChan chan <| .setSleeping <|
  .sched <|
  .setChan .null <|
  .release (.proc p) <| .acquire lk k

/-- An iteration of the loop of `wakeup`. -/
def wakeup (s : State N M) (x : Actor N M) (me : Option (Fin N)) (chan : Chan N) (q : ℕ)
    (k : Code N) : State N M :=
  if h : q < N then
    if me = some ⟨q, h⟩ then s.goto x (.wakeup me chan (q + 1) k)
    else s.goto x (.acquire (.proc ⟨q, h⟩) (.wakeupTest me chan ⟨q, h⟩ k))
  else s.goto x k

/-- The body of the loop of `wakeup`. -/
def wakeupTest (s : State N M) (x : Actor N M) (me : Option (Fin N)) (chan : Chan N)
    (q : Fin N) (k : Code N) : State N M :=
  (s.setProc q (·.wakeup chan)).goto x (.release (.proc q) (.wakeup me chan (q + 1) k))

/-- A process tests its `killed`: where it goes on if it is set, and if not. -/
def testKilled (s : State N M) (p : Fin N) (yes no : Code N) : State N M :=
  (s.setDue p false).goto (.inl p) (if (s.proc p).killed then yes else no)

/-- `release(lk); return a0`. -/
def ret (lk : Lock N) (a0 : ℤ) : Code N := .release lk (.leave a0)

/-! ### Pipes -/

/-- The condition of the first loop of `piperead`. -/
def readTest (s : State N M) (p : Fin N) (a : ℕ) (r : Read) : State N M :=
  if (s.pipe a).ring.Empty ∧ (s.pipe a).writeopen = true then s.goto (.inl p) (.readKilled a r)
  else s.goto (.inl p) (.readCopy a r 0)

/-- The body of the first loop of `piperead`. -/
def readKilled (s : State N M) (p : Fin N) (a : ℕ) (r : Read) : State N M :=
  testKilled s p (ret (.pipe a) (-1)) (sleep p (nread a) (.pipe a) (.readTest a r))

/-- `wakeup(&pi->nwrite)`, and `piperead` returns. -/
def readEnd (s : State N M) (p : Fin N) (a i : ℕ) : State N M :=
  s.goto (.inl p) (.wakeup (some p) (nwrite a) 0 (ret (.pipe a) i))

/-- An iteration of the second loop of `piperead`. -/
def readCopy (s : State N M) (p : Fin N) (a : ℕ) (r : Read) (i : ℕ) : State N M :=
  if (i : ℤ) < r.n ∧ ¬ (s.pipe a).ring.Empty then
    let s := s.setPipe a { s.pipe a with ring := (s.pipe a).ring.pop }
    if r.dst i then s.goto (.inl p) (.readCopy a r (i + 1)) else readEnd s p a i
  else readEnd s p a i

/-- `wakeup(&pi->nread)`, and `pipewrite` returns. -/
def writeEnd (s : State N M) (p : Fin N) (a i : ℕ) : State N M :=
  s.goto (.inl p) (.wakeup (some p) (nread a) 0 (ret (.pipe a) i))

/-- The condition of the loop of `pipewrite`, and the test of `readopen`. -/
def writeTest (s : State N M) (p : Fin N) (a : ℕ) (w : Write) (i : ℕ) : State N M :=
  if (i : ℤ) < w.n then
    if (s.pipe a).readopen = false then s.goto (.inl p) (ret (.pipe a) (-1))
    else s.goto (.inl p) (.writeKilled a w i)
  else writeEnd s p a i

/-- The test of `killed`, and the rest of an iteration of the loop of `pipewrite`. -/
def writeKilled (s : State N M) (p : Fin N) (a : ℕ) (w : Write) (i : ℕ) : State N M :=
  let t := s.setDue p false
  if (s.proc p).killed then t.goto (.inl p) (ret (.pipe a) (-1))
  else if (s.pipe a).ring.Full then
    t.goto (.inl p)
      (.wakeup (some p) (nread a) 0 (sleep p (nwrite a) (.pipe a) (.writeTest a w i)))
  else match w.src i with
    | none => writeEnd t p a i
    | some ch =>
      (t.setPipe a { s.pipe a with ring := (s.pipe a).ring.push ch }).goto (.inl p)
        (.writeTest a w (i + 1))

/-- `pipeclose`. -/
def closeEnd (s : State N M) (p : Fin N) (a : ℕ) (writable : Bool) : State N M :=
  if writable then
    (s.setPipe a { s.pipe a with writeopen := false }).goto (.inl p)
      (.wakeup (some p) (nread a) 0 (ret (.pipe a) 0))
  else
    (s.setPipe a { s.pipe a with readopen := false }).goto (.inl p)
      (.wakeup (some p) (nwrite a) 0 (ret (.pipe a) 0))

/-! ### The console -/

/-- The conditions of the two loops of `consoleread`. -/
def consTest (s : State N M) (p : Fin N) (n target : ℤ) (writable : ℕ → Bool) : State N M :=
  if 0 < n then
    if s.cons.r = s.cons.w then s.goto (.inl p) (.consKilled n target writable)
    else s.goto (.inl p) (.consTake n target writable)
  else s.goto (.inl p) (ret .cons (target - n))

/-- The body of the inner loop of `consoleread`. -/
def consKilled (s : State N M) (p : Fin N) (n target : ℤ) (writable : ℕ → Bool) : State N M :=
  testKilled s p (ret .cons (-1)) (sleep p consR .cons (.consTest n target writable))

/-- The rest of an iteration of the outer loop of `consoleread`. -/
def consTake (s : State N M) (p : Fin N) (n target : ℤ) (writable : ℕ → Bool) : State N M :=
  let c := s.cons.ring.front
  let t := { s with cons := s.cons.take }
  if c = Console.ctrlD then
    -- save ^D for next time, to make sure the caller gets a 0-byte result
    if n < target then { t with cons := t.cons.putBack }.goto (.inl p) (ret .cons (target - n))
    else t.goto (.inl p) (ret .cons (target - n))
  else if writable (target - n).toNat = false then t.goto (.inl p) (ret .cons (target - n))
  else if c = Console.lf then t.goto (.inl p) (ret .cons (target - (n - 1)))
  else t.goto (.inl p) (.consTest (n - 1) target writable)

/-! ### `wait` and `sys_sleep` -/

/-- An iteration of the inner loop of `wait`, up to the lock of a child. -/
def waitScan (s : State N M) (p : Fin N) (stored : Bool) (q : ℕ) (havekids : Bool) :
    State N M :=
  if h : q < N then
    if (s.proc ⟨q, h⟩).parent = some p then
      s.goto (.inl p) (.acquire (.proc ⟨q, h⟩) (.waitKid stored ⟨q, h⟩))
    else s.goto (.inl p) (.waitScan stored (q + 1) havekids)
  else s.goto (.inl p) (.waitKilled stored havekids)

/-- A child in the inner loop of `wait`. -/
def waitKid (s : State N M) (p : Fin N) (stored : Bool) (q : Fin N) : State N M :=
  if (s.proc q).state = .zombie then
    if stored then
      (s.freeproc q).goto (.inl p) (.release (.proc q) (ret .wait (s.proc q).pid.toInt))
    else s.goto (.inl p) (.release (.proc q) (ret .wait (-1)))
  else s.goto (.inl p) (.release (.proc q) (.waitScan stored (q + 1) true))

/-- The end of the outer loop of `wait`. -/
def waitKilled (s : State N M) (p : Fin N) (stored havekids : Bool) : State N M :=
  if havekids then
    testKilled s p (ret .wait (-1)) (sleep p (.proc p) .wait (.waitScan stored 0 false))
  else s.goto (.inl p) (ret .wait (-1))

/-- The condition of the loop of `sys_sleep`.  The comparison is unsigned. -/
def ticksTest (s : State N M) (p : Fin N) (n ticks0 : BitVec 32) : State N M :=
  if s.ticks - ticks0 < n then s.goto (.inl p) (.ticksKilled n ticks0)
  else s.goto (.inl p) (ret .ticks 0)

/-- The body of the loop of `sys_sleep`. -/
def ticksKilled (s : State N M) (p : Fin N) (n ticks0 : BitVec 32) : State N M :=
  testKilled s p (ret .ticks (-1)) (sleep p ticksAddr .ticks (.ticksTest n ticks0))

/-! ### `kill` -/

/-- An iteration of the loop of `kill`, up to the lock. -/
def killNext (s : State N M) (p : Fin N) (pid : BitVec 32) (q : ℕ) : State N M :=
  if h : q < N then s.goto (.inl p) (.acquire (.proc ⟨q, h⟩) (.killTest pid ⟨q, h⟩))
  else s.goto (.inl p) (.leave (-1))

def killTest (s : State N M) (p : Fin N) (pid : BitVec 32) (q : Fin N) : State N M :=
  if (s.proc q).pid = pid then s.goto (.inl p) (.killMark q)
  else s.goto (.inl p) (.release (.proc q) (.killNext pid (q + 1)))

/-- `p->killed = 1`. -/
def killMark (s : State N M) (p : Fin N) (q : Fin N) : State N M :=
  (s.setProc q fun x => { x with killed := true }).goto (.inl p) (.killState q)

/-- Wake process from `sleep`. -/
def killState (s : State N M) (p : Fin N) (q : Fin N) : State N M :=
  (s.setProc q fun x => if x.state = .sleeping then { x with state := .runnable } else x).goto
    (.inl p) (.killDone q)

/-- `release(&p->lock); return 0`. -/
def killDone (s : State N M) (p : Fin N) (q : Fin N) : Outcome Panic (State N M) :=
  release (s.setDue q true) (.inl p) (.proc q) (.leave 0)

/-! ### `exit` and `fork` -/

/-- The start of `exit`, its files closed. -/
def exit (s : State N M) (p : Fin N) (status : BitVec 32) : Outcome Panic (State N M) :=
  if p = s.initproc then .panic .initExiting
  else .ok (s.goto (.inl p) (.acquire .wait (.reparent status 0)))

/-- An iteration of the loop of `reparent`, and what follows the loop. -/
def reparent (s : State N M) (p : Fin N) (status : BitVec 32) (q : ℕ) : State N M :=
  if h : q < N then
    if (s.proc ⟨q, h⟩).parent = some p then
      (s.setProc ⟨q, h⟩ fun x => { x with parent := some s.initproc }).goto (.inl p)
        (.wakeup (some p) (.proc s.initproc) 0 (.reparent status (q + 1)))
    else s.goto (.inl p) (.reparent status (q + 1))
  else
    s.goto (.inl p) (.wakeup (some p) (Chan.ofProc (s.proc p).parent) 0
      (.acquire (.proc p) (.exitSet status)))

/-- The end of `exit`. -/
def exitSet (s : State N M) (p : Fin N) (status : BitVec 32) : State N M :=
  (s.setProc p fun x => { x with xstate := status, state := .zombie }).goto (.inl p)
    (.release .wait (.sched .dead))

/-- An iteration of the loop of `allocproc`, up to the lock. -/
def forkNext (s : State N M) (p : Fin N) (mem : Mem) (q : ℕ) : State N M :=
  if h : q < N then s.goto (.inl p) (.acquire (.proc ⟨q, h⟩) (.forkTest mem ⟨q, h⟩))
  else s.goto (.inl p) (.leave (-1))

def forkTest (s : State N M) (p : Fin N) (mem : Mem) (q : Fin N) : State N M :=
  if (s.proc q).state = .unused then
    { s.setProc q (·.alloc s.nextpid) with nextpid := s.nextpid + 1 }.goto (.inl p)
      (.forkCopy mem q)
  else s.goto (.inl p) (.release (.proc q) (.forkNext mem (q + 1)))

/-- `fork`, up to where it releases the lock of the child. -/
def forkCopy (s : State N M) (p : Fin N) (mem : Mem) (q : Fin N) : State N M :=
  if mem.trapframe && mem.pagetable && mem.copy then
    s.goto (.inl p) (.release (.proc q) (.acquire .wait (.forkParent q (s.proc q).pid)))
  else (s.freeproc q).goto (.inl p) (.release (.proc q) (.leave (-1)))

/-- `np->parent = p`. -/
def forkParent (s : State N M) (p q : Fin N) (pid : BitVec 32) : State N M :=
  (s.setProc q fun x => { x with parent := some p }).goto (.inl p)
    (.release .wait (.acquire (.proc q) (.forkRun q pid)))

/-- `np->state = RUNNABLE`.  The child returns 0 from the call. -/
def forkRun (s : State N M) (p q : Fin N) (pid : BitVec 32) : State N M :=
  ((s.setProc q fun x => { x with state := .runnable }).goto (.inl q) (.user 0)).goto (.inl p)
    (.release (.proc q) (.leave pid.toInt))

/-! ### Steps -/

/-- The first step of a call. -/
def call (s : State N M) (p : Fin N) : Call → Outcome Panic (State N M)
  | .piperead a r => .ok (s.goto (.inl p) (.acquire (.pipe a) (.readTest a r)))
  | .pipewrite a w => .ok (s.goto (.inl p) (.acquire (.pipe a) (.writeTest a w 0)))
  | .pipeclose a writable => .ok (s.goto (.inl p) (.acquire (.pipe a) (.closeEnd a writable)))
  | .consoleread n writable => .ok (s.goto (.inl p) (.acquire .cons (.consTest n n writable)))
  | .wait stored => .ok (s.goto (.inl p) (.acquire .wait (.waitScan stored 0 false)))
  | .sleep n => .ok (s.goto (.inl p) (.acquire .ticks (.ticksRead n)))
  | .kill pid => .ok (s.goto (.inl p) (.killNext pid 0))
  | .fork mem => .ok (s.goto (.inl p) (.forkNext mem 0))
  | .exit status => exit s p status

/-- `usertrap`, in front of a call. -/
def enter (s : State N M) (p : Fin N) (c : Call) : Outcome Panic (State N M) :=
  if (s.proc p).killed then exit (s.setDue p false) p (-1) else call (s.setDue p false) p c

/-- `usertrap`, behind a call. -/
def leave (s : State N M) (p : Fin N) (a0 : ℤ) : Outcome Panic (State N M) :=
  if (s.proc p).killed then exit (s.setDue p false) p (-1)
  else .ok ((s.setDue p false).goto (.inl p) (.user a0))

/-- The next step of a process, where it is neither in `wakeup` nor at a lock. -/
def actProc (s : State N M) (p : Fin N) : Code N → Outcome Panic (State N M)
  | .enter c => enter s p c
  | .leave a0 => leave s p a0
  | .setChan chan k => .ok ((s.setProc p fun x => { x with chan := chan }).goto (.inl p) k)
  | .setSleeping k => .ok ((s.setProc p fun x => { x with state := .sleeping }).goto (.inl p) k)
  | .readTest a r => .ok (readTest s p a r)
  | .readKilled a r => .ok (readKilled s p a r)
  | .readCopy a r i => .ok (readCopy s p a r i)
  | .writeTest a w i => .ok (writeTest s p a w i)
  | .writeKilled a w i => .ok (writeKilled s p a w i)
  | .closeEnd a writable => .ok (closeEnd s p a writable)
  | .consTest n target writable => .ok (consTest s p n target writable)
  | .consKilled n target writable => .ok (consKilled s p n target writable)
  | .consTake n target writable => .ok (consTake s p n target writable)
  | .waitScan stored q havekids => .ok (waitScan s p stored q havekids)
  | .waitKid stored q => .ok (waitKid s p stored q)
  | .waitKilled stored havekids => .ok (waitKilled s p stored havekids)
  | .ticksRead n => .ok (s.goto (.inl p) (.ticksTest n s.ticks))
  | .ticksTest n ticks0 => .ok (ticksTest s p n ticks0)
  | .ticksKilled n ticks0 => .ok (ticksKilled s p n ticks0)
  | .killNext pid q => .ok (killNext s p pid q)
  | .killTest pid q => .ok (killTest s p pid q)
  | .killMark q => .ok (killMark s p q)
  | .killState q => .ok (killState s p q)
  | .killDone q => killDone s p q
  | .reparent status q => .ok (reparent s p status q)
  | .exitSet status => .ok (exitSet s p status)
  | .forkNext mem q => .ok (forkNext s p mem q)
  | .forkTest mem q => .ok (forkTest s p mem q)
  | .forkCopy mem q => .ok (forkCopy s p mem q)
  | .forkParent q pid => .ok (forkParent s p q pid)
  | .forkRun q pid => .ok (forkRun s p q pid)
  | _ => .stuck

/-- The next step of an interrupt handler, where it is neither in `wakeup` nor at a lock. -/
def actIntr (s : State N M) (c : Fin M) : Code N → Outcome Panic (State N M)
  | .clockintr me =>
    .ok ({ s with ticks := s.ticks + 1 }.goto (.inr c)
      (.wakeup me ticksAddr 0 (.release .ticks .idle)))
  | .consoleintr me ch =>
    let r := s.cons.consoleintr ch
    .ok ({ s with cons := r.1 }.goto (.inr c)
      (if r.2 then .wakeup me consR 0 (.release .cons .idle) else .release .cons .idle))
  | _ => .stuck

/-- The next step of a process or of an interrupt handler. -/
def act (s : State N M) (x : Actor N M) : Outcome Panic (State N M) :=
  match s.pc x with
  | .acquire lk k => acquire s x lk k
  | .release lk k => release s x lk k
  | .wakeup me chan q k => .ok (wakeup s x me chan q k)
  | .wakeupTest me chan q k => .ok (wakeupTest s x me chan q k)
  | k => match x with
    | .inl p => actProc s p k
    | .inr c => actIntr s c k

/-- A process that waits for a CPU. -/
def State.waits (s : State N M) : Actor N M → Bool
  | .inl p => (s.proc p).state = .runnable
  | .inr _ => false

/-- Places where a process holds no lock, so that interrupts are on. -/
def Code.unlocked : Code N → Bool
  | .user _ | .enter _ | .leave _ | .killNext _ _ | .forkNext _ _ => true
  | _ => false

/-- The scheduler has saved the process and releases its lock. -/
def swtched (s : State N M) (p : Fin N) : Outcome Panic (State N M) :=
  match s.pc (.inl p) with
  | .sched k => release s (.inl p) (.proc p) (.parked k)
  | _ => .stuck

/-- A scheduler runs a process.  A process that called `sched` finds its lock held; one that
was preempted, or is new, releases it right away. -/
def resume (s : State N M) (p : Fin N) : Outcome Panic (State N M) :=
  if (s.proc p).state = .runnable ∧ s.lock (.proc p) = none then
    let t := s.setProc p fun x => { x with state := .running }
    match s.pc (.inl p) with
    | .parked k => .ok ((t.setLock (.proc p) (some (.inl p))).goto (.inl p) k)
    | _ => .ok t
  else .stuck

/-- `yield`, in a timer interrupt. -/
def preempt (s : State N M) (p : Fin N) : Outcome Panic (State N M) :=
  if (s.proc p).state = .running ∧ s.lock (.proc p) = none ∧ (s.pc (.inl p)).unlocked then
    .ok (s.setProc p fun x => { x with state := .runnable })
  else .stuck

/-- What happens next. -/
inductive Event (N M : ℕ)
  | call (p : Fin N) (c : Call) -- a process makes a system call
  | act (x : Actor N M)
  | swtched (p : Fin N)
  | resume (p : Fin N)
  | preempt (p : Fin N)
  | clock (c : Fin M) (me : Option (Fin N)) -- a timer interrupt, on top of `me`
  | uart (c : Fin M) (me : Option (Fin N)) (ch : UInt8) -- the UART delivers a byte
  | pipealloc (a : ℕ) (data : Fin Pipes.pipesize → UInt8) -- in a page with any contents

/-- An interrupt. -/
def intr (s : State N M) (c : Fin M) (lk : Lock N) (k : Code N) : Outcome Panic (State N M) :=
  match s.pc (.inr c) with
  | .idle => .ok (s.goto (.inr c) (.acquire lk k))
  | _ => .stuck

/-- One step. -/
def step (s : State N M) : Event N M → Outcome Panic (State N M)
  | .call p c =>
    match s.pc (.inl p) with
    | .user _ => if s.waits (.inl p) then .stuck else .ok (s.goto (.inl p) (.enter c))
    | _ => .stuck
  | .act x => if s.waits x then .stuck else act s x
  | .swtched p => swtched s p
  | .resume p => resume s p
  | .preempt p => preempt s p
  | .clock c me => intr s c .ticks (.clockintr me)
  | .uart c me ch => intr s c .cons (.consoleintr me ch)
  | .pipealloc a data =>
    if s.lock (.pipe a) = none ∧ (s.pipe a).readopen = false ∧ (s.pipe a).writeopen = false then
      .ok (s.setPipe a (Pipes.newPipe data))
    else .stuck

/-- The machine when the first process enters user space.  No pipe is in use. -/
def start (N M : ℕ) [NeZero N] : State N M where
  proc := Function.update (fun _ => {}) 0 { state := .running, pid := 1 }
  nextpid := 2
  initproc := 0
  lock _ := none
  pc
    | .inl p => if p = 0 then .user 0 else .dead
    | .inr _ => .idle
  pipe _ := ⟨⟨fun _ => 0, 0, 0⟩, false, false⟩
  cons := Console.start.cons
  ticks := 0
  due _ := false

end Xv6.Procs.Blocking
