import Mathlib.Data.Fintype.Basic
import Xv6.Lib.Outcome

/-!
# Turning interrupts off

`push_off`, `pop_off`, `acquire`, `release` and `holding` (`kernel/spinlock.c`), with
`myproc`, `sched` and the loop of `scheduler` (`kernel/proc.c`), statement by statement, on
any number of processors and for any number of processes.

A processor has the counter `noff`, the flag `intena` and the bit SIE of its register
`sstatus`.  A thread runs on one processor at a time; a process's thread gives its processor
up in `sched` and is taken up again by some scheduler, perhaps on another processor.

Between calls a thread is in `code`: it may call any of these functions, and turn interrupts
on or off while it has not called `push_off`.  It releases locks it holds, calls `pop_off` for
a `push_off` of its own, and `sched` with its own lock held.  Where SIE is set an interrupt
may happen.  The processor clears SIE, the handler is `code` of the same thread, and its end
sets SIE again.

## Main definitions

* `Pc` — where a thread stands.
* `Thread`, `Cpu`, `State` — threads, processors, and all of them.
* `step` — one statement of one thread, an interrupt, or a new process.
* `start` — the state in which the processors enter `scheduler`.
-/

namespace Xv6.Intr

/-- A spinlock. -/
inductive Lock (N : ℕ)
  | proc (i : Fin N) -- `proc[i].lock`
  | other (a : ℕ)
  deriving DecidableEq

/-- The panics of the functions modelled. -/
inductive Panic
  | acquire
  | release
  | popOffInterruptible
  | popOff
  | schedLock
  | schedLocks
  | schedInterruptible
  deriving DecidableEq

/-! ### Where a thread stands -/

/-- Who called `acquire` or `release`: the rest of the kernel, or `scheduler` for the lock of
a process. -/
inductive User (N : ℕ)
  | code (l : Lock N)
  | scheduler (i : Fin N)

/-- The lock in question. -/
def User.lock {N : ℕ} : User N → Lock N
  | .code l => l
  | .scheduler i => .proc i

/-- Who called `push_off`. -/
inductive PushFrom (N : ℕ)
  | code
  | acquire (u : User N)
  | myproc

/-- Where `pop_off` returns to: the rest of the kernel, or the loop of `scheduler`. -/
inductive PopTo
  | code
  | scan (k : ℕ)

/-- Where a thread stands. -/
inductive Pc (M N : ℕ)
  | code -- between calls
  | pushGet (k : PushFrom N) -- `push_off`: before `int old = intr_get()`
  | pushOff (k : PushFrom N) (old : Bool) -- before `intr_off()`
  | pushSave (k : PushFrom N) (old : Bool) -- before `if(mycpu()->noff == 0)`
  | pushInc (k : PushFrom N) -- before `mycpu()->noff += 1`
  | hold (u : User N) -- `acquire`: before `if(holding(lk))`
  | spin (u : User N) -- before `__sync_lock_test_and_set(&lk->locked, 1)`
  | setCpu (u : User N) -- before `lk->cpu = mycpu()`
  | readProc -- `myproc`: before `p = c->proc`
  | relTest (u : User N) -- `release`: before `if(!holding(lk))`
  | relCpu (u : User N) -- before `lk->cpu = 0`
  | relLock (u : User N) -- before `__sync_lock_release(&lk->locked)`
  | popCpu (r : PopTo) -- `pop_off`: before `c = mycpu()`
  | popTest (r : PopTo) (c : Fin M) -- before `if(intr_get())`
  | popNoff (r : PopTo) (c : Fin M) -- before `if(c->noff < 1)`
  | popDec (r : PopTo) (c : Fin M) -- before `c->noff -= 1`
  | popOn (r : PopTo) (c : Fin M) -- before `if(c->noff == 0 && c->intena)`
  | schedTest -- `sched`: before its tests
  | schedSave -- before `intena = mycpu()->intena`
  | schedSwtch (intena : Bool) -- before `swtch(&p->context, &mycpu()->context)`
  | schedBack (intena : Bool) -- before `mycpu()->intena = intena`
  | loop -- `scheduler`: before `intr_on()`
  | scan (k : ℕ) -- before `acquire(&p->lock)`, if there is a process `k`
  | pick (i : Fin N) -- before `if(p->state == RUNNABLE)`
  | back (i : Fin N) -- after `swtch`

/-- Where `acquire` returns to. -/
def User.acquired {M N : ℕ} : User N → Pc M N
  | .code _ => .code
  | .scheduler i => .pick i

/-- Where `release` returns to. -/
def User.released {N : ℕ} : User N → PopTo
  | .code _ => .code
  | .scheduler i => .scan (i.val + 1)

/-- Where `push_off` returns to. -/
def PushFrom.pc {M N : ℕ} : PushFrom N → Pc M N
  | .code => .code
  | .acquire u => .hold u
  | .myproc => .readProc

/-- Where `pop_off` returns to. -/
def PopTo.pc {M N : ℕ} : PopTo → Pc M N
  | .code => .code
  | .scan k => .scan k

/-! ### States -/

/-- A thread, and what it has done: the calls of `push_off` that are not undone, whether
interrupts were enabled at the outermost of them, and the locks acquired.  A thread that begins
in `forkret` holds the lock of its process, which the scheduler acquired. -/
structure Thread (M N : ℕ) where
  pc : Pc M N
  traps : List (Pc M N) -- where it was interrupted
  nest : ℕ
  entry : Option Bool
  held : List (Lock N)
  parked : Bool -- its registers are in its context

/-- A processor, with the numbers of calls of `push_off` and `pop_off` made on it. -/
structure Cpu (N : ℕ) where
  noff : ℤ
  intena : Bool
  sie : Bool -- the bit of `sstatus`
  proc : Option (Fin N) -- the process whose thread it runs, if it is not in `scheduler`
  pushes : ℕ
  pops : ℕ

/-- A spinlock's fields. -/
structure LockState (M : ℕ) where
  locked : Bool
  cpu : Option (Fin M)

/-- `M` processors and `N` processes. -/
structure State (M N : ℕ) where
  cpu : Fin M → Cpu N
  scheduler : Fin M → Thread M N
  proc : Fin N → Thread M N
  lock : Lock N → LockState M

variable {M N : ℕ}

/-- A thread about to begin in `forkret`. -/
def Thread.fresh (i : Fin N) : Thread M N :=
  ⟨.relTest (.code (.proc i)), [], 1, none, [.proc i], true⟩

/-- All processors enter `scheduler`.  Interrupts have not been turned on yet. -/
def start (M N : ℕ) : State M N where
  cpu := fun _ => ⟨0, false, false, none, 0, 0⟩
  scheduler := fun _ => ⟨.loop, [], 0, none, [], false⟩
  proc := .fresh
  lock := fun _ => ⟨false, none⟩

namespace State

/-- The thread that runs on processor `c`. -/
def thread (s : State M N) (c : Fin M) : Thread M N :=
  match (s.cpu c).proc with
  | none => s.scheduler c
  | some i => s.proc i

/-- The thread on processor `c` and the processor's fields have changed. -/
def put (s : State M N) (c : Fin M) (x : Cpu N) (t : Thread M N) : State M N :=
  match (s.cpu c).proc with
  | none => { s with
      cpu := Function.update s.cpu c x
      scheduler := Function.update s.scheduler c t }
  | some i => { s with
      cpu := Function.update s.cpu c x
      proc := Function.update s.proc i t }

/-- The thread on processor `c` goes on. -/
def goto (s : State M N) (c : Fin M) (pc : Pc M N) : State M N :=
  s.put c (s.cpu c) { s.thread c with pc := pc }

/-- Change a processor's fields. -/
def setCpu (s : State M N) (c : Fin M) (x : Cpu N) : State M N :=
  { s with cpu := Function.update s.cpu c x }

/-- Change a lock. -/
def setLock (s : State M N) (l : Lock N) (x : LockState M) : State M N :=
  { s with lock := Function.update s.lock l x }

/-- `holding(lk)`, on processor `c`. -/
def holding (s : State M N) (c : Fin M) (l : Lock N) : Bool :=
  (s.lock l).locked && (s.lock l).cpu == some c

end State

/-! ### Steps -/

/-- What a thread in `code` does next, and what the scheduler finds. -/
inductive Act (N : ℕ)
  | go -- the next statement
  | acquire (l : Lock N)
  | release (l : Lock N)
  | myproc
  | pushOff
  | popOff
  | sched
  | intrOn
  | intrOff
  | sret -- the end of an interrupt handler
  | switch -- the process is runnable

/-- A step of the machine. -/
inductive Event (M N : ℕ)
  | run (c : Fin M) (a : Act N) -- the thread on processor `c` does something
  | interrupt (c : Fin M)
  | fork (i : Fin N) -- slot `i`, whose last process is gone, gets a new process

/-- What a thread between calls does. -/
def codeStep (s : State M N) (c : Fin M) : Act N → Outcome Panic (State M N)
  | .acquire l => .ok (s.goto c (.pushGet (.acquire (.code l))))
  | .release l => if l ∈ (s.thread c).held then .ok (s.goto c (.relTest (.code l))) else .stuck
  | .myproc => .ok (s.goto c (.pushGet .myproc))
  | .pushOff => .ok (s.goto c (.pushGet .code))
  | .popOff =>
    if (s.thread c).held.length < (s.thread c).nest then .ok (s.goto c (.popCpu .code)) else .stuck
  | .sched => match (s.cpu c).proc with
    | none => .stuck
    | some i => if (s.thread c).held = [.proc i] then .ok (s.goto c .schedTest) else .stuck
  | .intrOn =>
    if (s.thread c).nest = 0 ∧ (s.thread c).traps = [] then
      .ok (s.put c { s.cpu c with sie := true } (s.thread c))
    else .stuck
  | .intrOff =>
    if (s.thread c).nest = 0 ∧ (s.thread c).traps = [] then
      .ok (s.put c { s.cpu c with sie := false } (s.thread c))
    else .stuck
  | .sret => match (s.thread c).traps with
    | [] => .stuck
    | pc :: traps =>
      if (s.thread c).nest = 0 then
        .ok (s.put c { s.cpu c with sie := true } { s.thread c with pc := pc, traps := traps })
      else .stuck
  | _ => .stuck

/-- The next statement of the thread on processor `c`. -/
def goStep (s : State M N) (c : Fin M) : Pc M N → Outcome Panic (State M N)
  | .code => .stuck
  | .pushGet k => .ok (s.goto c (.pushOff k (s.cpu c).sie))
  | .pushOff k old =>
    .ok (s.put c { s.cpu c with sie := false } { s.thread c with
      entry := if (s.thread c).nest = 0 then some (s.cpu c).sie else (s.thread c).entry
      pc := .pushSave k old })
  | .pushSave k old =>
    .ok (s.put c { s.cpu c with intena := if (s.cpu c).noff = 0 then old else (s.cpu c).intena }
      { s.thread c with pc := .pushInc k })
  | .pushInc k =>
    .ok (s.put c { s.cpu c with noff := (s.cpu c).noff + 1, pushes := (s.cpu c).pushes + 1 }
      { s.thread c with nest := (s.thread c).nest + 1, pc := k.pc })
  | .hold u => if s.holding c u.lock then .panic .acquire else .ok (s.goto c (.spin u))
  | .spin u =>
    if (s.lock u.lock).locked then .stuck
    else .ok ((s.goto c (.setCpu u)).setLock u.lock { s.lock u.lock with locked := true })
  | .setCpu u =>
    .ok ((s.put c (s.cpu c) { s.thread c with
      held := u.lock :: (s.thread c).held
      pc := u.acquired }).setLock u.lock { s.lock u.lock with cpu := some c })
  | .readProc => .ok (s.goto c (.popCpu .code))
  | .relTest u => if s.holding c u.lock then .ok (s.goto c (.relCpu u)) else .panic .release
  | .relCpu u => .ok ((s.goto c (.relLock u)).setLock u.lock { s.lock u.lock with cpu := none })
  | .relLock u =>
    .ok ((s.put c (s.cpu c) { s.thread c with
      held := (s.thread c).held.erase u.lock
      pc := .popCpu u.released }).setLock u.lock { s.lock u.lock with locked := false })
  | .popCpu r => .ok (s.goto c (.popTest r c))
  | .popTest r d =>
    if (s.cpu c).sie then .panic .popOffInterruptible else .ok (s.goto c (.popNoff r d))
  | .popNoff r d => if (s.cpu d).noff < 1 then .panic .popOff else .ok (s.goto c (.popDec r d))
  | .popDec r d =>
    -- `c->noff` of the processor the thread was on when it called `mycpu`
    let s := s.setCpu d { s.cpu d with noff := (s.cpu d).noff - 1, pops := (s.cpu d).pops + 1 }
    .ok (s.put c (s.cpu c) { s.thread c with nest := (s.thread c).nest - 1, pc := .popOn r d })
  | .popOn r d =>
    .ok (s.put c { s.cpu c with
      sie := if (s.cpu d).noff = 0 ∧ (s.cpu d).intena then true else (s.cpu c).sie }
      { s.thread c with pc := r.pc })
  | .schedTest => match (s.cpu c).proc with
    | none => .stuck
    | some i =>
      if !s.holding c (.proc i) then .panic .schedLock
      else if (s.cpu c).noff ≠ 1 then .panic .schedLocks
      else if (s.cpu c).sie then .panic .schedInterruptible
      else .ok (s.goto c .schedSave)
  | .schedSave => .ok (s.goto c (.schedSwtch (s.cpu c).intena))
  | .schedSwtch intena => match (s.cpu c).proc with
    | none => .stuck
    | some i => .ok { s with
        cpu := Function.update s.cpu c { s.cpu c with proc := none }
        proc := Function.update s.proc i { s.proc i with pc := .schedBack intena, parked := true } }
  | .schedBack intena =>
    .ok (s.put c { s.cpu c with intena := intena } { s.thread c with pc := .code })
  | .loop => .ok (s.put c { s.cpu c with sie := true } { s.thread c with pc := .scan 0 })
  | .scan k =>
    if h : k < N then .ok (s.goto c (.pushGet (.acquire (.scheduler ⟨k, h⟩))))
    else .ok (s.goto c .loop)
  | .pick i => .ok (s.goto c (.relTest (.scheduler i))) -- the process is not runnable
  | .back i => .ok (s.goto c (.relTest (.scheduler i)))

/-- The scheduler of processor `c` switches to a process it has chosen. -/
def switchStep (s : State M N) (c : Fin M) : Pc M N → Outcome Panic (State M N)
  | .pick i =>
    if (s.proc i).parked ∧ (s.cpu c).proc = none then .ok { s with
      cpu := Function.update s.cpu c { s.cpu c with proc := some i }
      scheduler := Function.update s.scheduler c { s.scheduler c with pc := .back i }
      proc := Function.update s.proc i { s.proc i with parked := false } }
    else .stuck
  | _ => .stuck

/-- One step. -/
def step (s : State M N) : Event M N → Outcome Panic (State M N)
  | .run c a => match a with
    | .go => goStep s c (s.thread c).pc
    | .switch => switchStep s c (s.thread c).pc
    | a => match (s.thread c).pc with
      | .code => codeStep s c a
      | _ => .stuck
  | .interrupt c =>
    if (s.cpu c).sie then
      .ok (s.put c { s.cpu c with sie := false } { s.thread c with
        pc := .code
        traps := (s.thread c).pc :: (s.thread c).traps })
    else .stuck
  | .fork i =>
    if (s.proc i).parked then .ok { s with proc := Function.update s.proc i (.fresh i) } else .stuck

end Xv6.Intr
