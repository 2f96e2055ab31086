import Xv6.Lib.Fifo
import Xv6.Lib.Outcome

/-!
# The console

Input to the console: `kernel/console.c`.  The interrupt handler puts bytes into a ring and
lets the user edit the line that is not complete yet; `consoleread` takes bytes of complete
lines out.  Both hold `cons.lock` while they look at the ring, `consoleread` up to the place
where it sleeps, so what either of them does under the lock is one step.

## Main definitions

* `Cons` — the ring, and how far its bytes are committed.
* `Cons.consoleintr`, `Cons.consoleread` — the code under the lock.
* `State`, `step` — the console with one process that reads from it.
-/

namespace Xv6.Console

def inputBuf : ℕ := 128

instance : NeZero inputBuf := ⟨by decide⟩

def ctrlD : UInt8 := 4 -- end of file
def ctrlH : UInt8 := 8 -- backspace
def ctrlP : UInt8 := 16 -- print process list
def ctrlU : UInt8 := 21 -- kill line
def del : UInt8 := 127
def lf : UInt8 := 10
def cr : UInt8 := 13

/-- `cons`: the ring with read index `r` and edit index `e`, and the write index `w`. -/
structure Cons where
  ring : Fifo 32 inputBuf UInt8
  w : BitVec 32

namespace Cons

/-- `cons.r`. -/
abbrev r (s : Cons) : BitVec 32 := s.ring.nread

/-- `cons.e`. -/
abbrev e (s : Cons) : BitVec 32 := s.ring.nwrite

/-! ### Interrupts -/

/-- `cons.e--`. -/
def erase (s : Cons) : Cons := { s with ring := s.ring.unpush }

/-- The loop for `C('U')`. -/
def killLine : ℕ → Cons → Cons
  | 0, s => s
  | fuel + 1, s => if s.e ≠ s.w ∧ s.ring.back ≠ lf then killLine fuel s.erase else s

/-- The part of `consoleintr` that stores a byte.  Says whether it calls `wakeup`. -/
def store (s : Cons) (c : UInt8) : Cons × Bool :=
  let s := { s with ring := s.ring.push c }
  if c = lf ∨ c = ctrlD ∨ s.e = s.r + BitVec.ofNat 32 inputBuf then
    ({ s with w := s.e }, true)
  else (s, false)

/-- `consoleintr`.  Says whether it calls `wakeup`. -/
def consoleintr (s : Cons) (c : UInt8) : Cons × Bool :=
  if c = ctrlP then (s, false)
  else if c = ctrlU then (s.killLine (s.e - s.w).toNat, false)
  else if c = ctrlH ∨ c = del then (if s.e ≠ s.w then s.erase else s, false)
  else if c ≠ 0 ∧ (s.e - s.r).toNat < inputBuf then s.store (if c = cr then lf else c)
  else (s, false)

/-! ### Reading -/

/-- `cons.r++`. -/
def take (s : Cons) : Cons := { s with ring := s.ring.pop }

/-- `cons.r--`. -/
def putBack (s : Cons) : Cons := { s with ring := { s.ring with nread := s.r - 1 } }

end Cons

/-- How a turn of `consoleread` ends. -/
inductive Turn
  | done (ret : ℤ) (got : List UInt8) (s : Cons) -- it returned, with these bytes stored at `dst`
  | wait (n : ℕ) (got : List UInt8) (s : Cons) -- it sleeps, with `n` bytes to go

/-- The loop of `consoleread`, up to the place where it returns or sleeps: `n` bytes to go of
`target`, those in `got` stored so far.  The destination can be stored to where `writable`
says so. -/
def Cons.consoleread (killed : Bool) (writable : ℕ → Bool) (target : ℕ) :
    ℕ → List UInt8 → Cons → Turn
  | 0, got, s => .done target got s
  | n + 1, got, s =>
    if s.r = s.w then
      if killed then .done (-1) got s else .wait (n + 1) got s
    else
      let c := s.ring.front
      if c = ctrlD then
        -- save ^D for next time, to make sure the caller gets a 0-byte result
        if n + 1 < target then .done (target - (n + 1 : ℕ)) got s.take.putBack
        else .done (target - (n + 1 : ℕ)) got s.take
      else if writable got.length = false then .done (target - (n + 1 : ℕ)) got s.take
      else if c = lf then .done (target - n) (got ++ [c]) s.take
      else s.take.consoleread killed writable target n (got ++ [c])

/-! ### One reader -/

/-- A call of `consoleread` that sleeps. -/
structure Sleeper where
  target : ℕ
  n : ℕ -- bytes to go
  got : List UInt8
  writable : ℕ → Bool
  woken : Bool -- `wakeup` was called since

/-- The console, the process that reads from it, and what its calls returned so far. -/
structure State where
  cons : Cons
  reader : Option Sleeper
  log : List (ℤ × List UInt8)

/-- The console at boot. -/
def start : State := ⟨⟨⟨fun _ => 0, 0, 0⟩, 0⟩, none, []⟩

/-- What happens next. -/
inductive Event
  | intr (c : UInt8) -- the UART delivers a byte
  | read (n : ℤ) (writable : ℕ → Bool) (killed : Bool) -- `consoleread` is called
  | resume (killed : Bool) -- `sleep` returns

/-- What a turn of `consoleread` leaves. -/
def State.turn (s : State) (target : ℕ) (writable : ℕ → Bool) (t : Turn) : State :=
  match t with
  | .done ret got c => { s with cons := c, reader := none, log := s.log ++ [(ret, got)] }
  | .wait n got c => { s with cons := c, reader := some ⟨target, n, got, writable, false⟩ }

/-- One step.  A count that is not positive asks for nothing. -/
def step (s : State) (ev : Event) : Outcome Empty State :=
  match ev with
  | .intr c =>
    let r := s.cons.consoleintr c
    .ok { s with cons := r.1
                 reader := s.reader.map fun p => { p with woken := p.woken || r.2 } }
  | .read n writable killed =>
    match s.reader with
    | none =>
      .ok (s.turn n.toNat writable
        (s.cons.consoleread killed writable n.toNat n.toNat []))
    | some _ => .stuck
  | .resume killed =>
    match s.reader with
    | some p =>
      if p.woken then
        .ok (s.turn p.target p.writable
          (s.cons.consoleread killed p.writable p.target p.n p.got))
      else .stuck
    | none => .stuck

end Xv6.Console
