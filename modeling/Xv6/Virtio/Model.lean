import Xv6.Lib.Fifo
import Xv6.Lib.Outcome
import Xv6.Param

/-!
# The virtio disk

The driver of `kernel/virtio_disk.c` and the device it drives.  Driver and device share memory:
a table of descriptors, the ring `avail` in which the driver hands chains of descriptors to the
device, the ring `used` in which the device hands them back, and a status byte for every chain.

Any number of processes call `virtio_disk_rw`, and any number of CPUs run `virtio_disk_intr`.
They hold `vdisk_lock` while they look at the driver's own data; the device takes no lock and may
act between any two steps of theirs.  So a step of the driver ends wherever the device could
look at something the driver has written, or write something the driver looks at.

A process calls `virtio_disk_rw` with the sleep-lock of the buffer, as `bread` and `bwrite` of
`kernel/bio.c` do.  The contents of the buffers are left out, and so is what the device does with
the request header.

## Main definitions

* `Desc`, `Info`, `BlkReq` — what the driver keeps for a descriptor.
* `Call`, `Stage` — how far a call of `virtio_disk_rw` has come.
* `Request` — a chain the device works on.
* `State`, `start` — driver and device, and both when `virtio_disk_init` has returned.
* `act` — the next step of a call of `virtio_disk_rw`.
* `actIntr` — the next step of `virtio_disk_intr`.
* `step` — one step of the machine.
-/

namespace Xv6.Virtio

open Function

/-- This many virtio descriptors. -/
abbrev num : ℕ := 8

instance : NeZero num := ⟨by decide⟩

def descFNext : BitVec 16 := 1 -- chained with another descriptor
def descFWrite : BitVec 16 := 2 -- device writes (vs read)

def blkTIn : BitVec 32 := 0 -- read the disk
def blkTOut : BitVec 32 := 1 -- write the disk

/-- The addresses the driver gives to the device. -/
inductive Addr (β : Type)
  | null
  | op (i : Fin num) -- `&disk.ops[i]`
  | data (b : β) -- `b->data`
  | status (i : Fin num) -- `&disk.info[i].status`
  deriving DecidableEq

/-- A descriptor. -/
structure Desc (β : Type) where
  addr : Addr β := .null
  len : ℕ := 0
  flags : BitVec 16 := 0
  next : ℕ := 0

/-- The header of a request. -/
structure BlkReq where
  type : BitVec 32
  reserved : BitVec 32
  sector : BitVec 64

/-- Info about an operation in flight, indexed by the first descriptor of its chain. -/
structure Info (β : Type) where
  b : Option β
  status : BitVec 8

/-- An entry of the rings: the first descriptor of a chain.  No code reads `serial`, the number
of the request, counted in the order in which the driver hands requests to the device. -/
structure Entry where
  head : ℕ
  serial : ℕ
  deriving DecidableEq

/-- `int idx[3]`. -/
structure Idx where
  i0 : Fin num
  i1 : Fin num
  i2 : Fin num

def Idx.toList (idx : Idx) : List (Fin num) := [idx.i0, idx.i1, idx.i2]

/-- How far a call of `virtio_disk_rw` has come.  Behind the place where a request is handed to
the device, `n` is its number. -/
inductive Stage
  | alloc -- about to call `alloc3_desc`
  | fill (idx : Idx) -- about to format the three descriptors
  | ring (idx : Idx) -- about to write the entry of the `avail` ring
  | bump (idx : Idx) -- about to increment `avail->idx`
  | test (idx : Idx) (n : ℕ) -- at the condition of the loop that waits for the device
  | clear (idx : Idx) (n : ℕ) -- behind that loop
  /-- In the loop of `free_chain`, at descriptor `i`.  No code reads `rest`: what is left of the
  chain, `i` included. -/
  | free (n i : ℕ) (rest : List (Fin num))
  | release (n : ℕ) -- about to release the lock and return

/-- Whether a process runs with `vdisk_lock`. -/
inductive Mode
  | acquire -- it is about to acquire the lock
  | run -- it holds the lock
  | asleep -- it sleeps
  deriving DecidableEq

/-- A call of `virtio_disk_rw`. -/
structure Call (β : Type) where
  b : β
  write : Bool
  sector : BitVec 64
  stage : Stage
  mode : Mode

/-- What processes sleep on. -/
inductive Chan (β : Type)
  | free -- `&disk.free[0]`
  | buf (b : β)
  deriving DecidableEq

/-- What a call sleeps on, if it does. -/
def Call.chan {β : Type} (c : Call β) : Chan β :=
  match c.stage with
  | .alloc => .free
  | _ => .buf c.b

/-- A chain the device works on: its entry in the `avail` ring, the addresses found in its
descriptors, and whether the status has been written. -/
structure Request (β : Type) where
  entry : Entry
  data : Addr β
  status : Addr β
  written : Bool

/-- Where `virtio_disk_intr` is. -/
inductive Handler
  | idle -- no interrupt
  | acquire -- about to acquire the lock
  | test -- at the condition of the loop
  | body -- in the body of the loop
  deriving DecidableEq

inductive Panic
  | freeDesc1
  | freeDesc2
  | intrStatus
  | fault -- an index out of bounds or a null pointer

/-- Driver and device.  `ι` are the processes, `κ` the CPUs that take interrupts, `β` the buffers.
No code reads the last three fields: the number of requests handed to the device, the number of
the last one for each buffer, and the requests completed, with the address of their data. -/
structure State (ι κ β : Type) where
  desc : Fin num → Desc β
  avail : Fifo 16 num Entry -- the ring with `avail->idx`, and how far the device has looked
  used : Fifo 16 num Entry -- the ring with `used->idx`, and `used_idx`
  free : Fin num → Bool -- is a descriptor free?
  info : Fin num → Info β
  ops : Fin num → BlkReq
  lock : Option (ι ⊕ κ) -- the holder of `vdisk_lock`
  disk : β → Bool -- `b->disk`: does disk own buf?
  owner : β → Option ι -- the holder of `b->lock`
  call : ι → Option (Call β)
  handler : κ → Handler
  requests : List (Request β) -- those the device works on
  publishing : Option (Request β) -- in the `used` ring, `used->idx` not yet incremented
  serial : ℕ
  last : β → Option ℕ
  completed : List (ℕ × Addr β)

variable {ι κ β : Type} [DecidableEq ι] [DecidableEq κ] [DecidableEq β]

namespace State

/-- A process goes on. -/
def setCall (s : State ι κ β) (p : ι) (c : Option (Call β)) : State ι κ β :=
  { s with call := update s.call p c }

/-- A descriptor, as the device and `free_chain` read it. -/
def getDesc (s : State ι κ β) (i : ℕ) : Desc β := if h : i < num then s.desc ⟨i, h⟩ else {}

end State

/-! ### Descriptors -/

/-- What `wakeup(chan)` does to a call. -/
def Call.wakeup (chan : Chan β) (c : Call β) : Call β :=
  if c.mode = .asleep ∧ c.chan = chan then { c with mode := .acquire } else c

/-- `wakeup(chan)`. -/
def wakeup (s : State ι κ β) (chan : Chan β) : State ι κ β :=
  { s with call := fun p => (s.call p).map (Call.wakeup chan) }

/-- `alloc_desc`. -/
def allocDesc (s : State ι κ β) : Option (Fin num × State ι κ β) :=
  ((List.finRange num).find? fun i => s.free i).map fun i =>
    (i, { s with free := update s.free i false })

/-- `free_desc`. -/
def freeDesc (s : State ι κ β) (i : ℕ) : Outcome Panic (State ι κ β) :=
  if h : i < num then
    if s.free ⟨i, h⟩ then .panic .freeDesc2
    else
      .ok (wakeup { s with desc := update s.desc ⟨i, h⟩ {}
                           free := update s.free ⟨i, h⟩ true } .free)
  else .panic .freeDesc1

/-- `alloc3_desc`, its loop unrolled. -/
def alloc3Desc (s : State ι κ β) : Outcome Panic (Option Idx × State ι κ β) :=
  match allocDesc s with
  | none => .ok (none, s)
  | some (i0, s) =>
    match allocDesc s with
    | none => (freeDesc s i0).bind fun s => .ok (none, s)
    | some (i1, s) =>
      match allocDesc s with
      | none => (freeDesc s i0).bind fun s => (freeDesc s i1).bind fun s => .ok (none, s)
      | some (i2, s) => .ok (some ⟨i0, i1, i2⟩, s)

/-! ### `virtio_disk_rw` -/

/-- The start of a call. -/
def virtioDiskRw (b : β) (blockno : BitVec 32) (write : Bool) : Call β where
  b := b
  write := write
  sector := (blockno * BitVec.ofNat 32 (bsize / 512)).zeroExtend 64
  stage := .alloc
  mode := .acquire

/-- Allocate the three descriptors, or sleep. -/
def alloc (s : State ι κ β) (p : ι) (c : Call β) : Outcome Panic (State ι κ β) :=
  (alloc3Desc s).bind fun r =>
    match r.1 with
    | some idx => .ok (r.2.setCall p (some { c with stage := .fill idx }))
    | none => .ok { r.2.setCall p (some { c with mode := .asleep }) with lock := none }

/-- Format the three descriptors, and record the buffer. -/
def fill (s : State ι κ β) (p : ι) (c : Call β) (idx : Idx) : State ι κ β :=
  { s with
    ops := update s.ops idx.i0 ⟨if c.write then blkTOut else blkTIn, 0, c.sector⟩
    desc := update (update (update s.desc
      idx.i0 ⟨.op idx.i0, 16, descFNext, idx.i1⟩)
      idx.i1 ⟨.data c.b, bsize, (if c.write then 0 else descFWrite) ||| descFNext, idx.i2⟩)
      idx.i2 ⟨.status idx.i0, 1, descFWrite, 0⟩
    info := update s.info idx.i0 ⟨some c.b, 0xff⟩
    disk := update s.disk c.b true }.setCall p (some { c with stage := .ring idx })

/-- Tell the device the first index in our chain of descriptors. -/
def ring (s : State ι κ β) (p : ι) (c : Call β) (idx : Idx) : State ι κ β :=
  { s with avail := s.avail.store ⟨idx.i0, s.serial⟩ }.setCall p
    (some { c with stage := .bump idx })

/-- Tell the device another `avail` ring entry is available. -/
def bump (s : State ι κ β) (p : ι) (c : Call β) (idx : Idx) : State ι κ β :=
  { s with avail := s.avail.advance
           serial := s.serial + 1
           last := update s.last c.b (some s.serial) }.setCall p
    (some { c with stage := .test idx s.serial })

/-- The condition of the loop that waits for `virtio_disk_intr`, and its body. -/
def test (s : State ι κ β) (p : ι) (c : Call β) (idx : Idx) (n : ℕ) : State ι κ β :=
  if s.disk c.b then { s.setCall p (some { c with mode := .asleep }) with lock := none }
  else s.setCall p (some { c with stage := .clear idx n })

/-- `disk.info[idx[0]].b = 0`, and the call of `free_chain`. -/
def clear (s : State ι κ β) (p : ι) (c : Call β) (idx : Idx) (n : ℕ) : State ι κ β :=
  { s with info := update s.info idx.i0 { s.info idx.i0 with b := none } }.setCall p
    (some { c with stage := .free n idx.i0 idx.toList })

/-- An iteration of the loop of `free_chain`. -/
def freeChain (s : State ι κ β) (p : ι) (c : Call β) (n i : ℕ) (rest : List (Fin num)) :
    Outcome Panic (State ι κ β) :=
  let flag := (s.getDesc i).flags
  let nxt := (s.getDesc i).next
  (freeDesc s i).bind fun s =>
    if flag &&& descFNext ≠ 0 then
      .ok (s.setCall p (some { c with stage := .free n nxt rest.tail }))
    else .ok (s.setCall p (some { c with stage := .release n }))

/-- The next step of a call that holds the lock. -/
def advance (s : State ι κ β) (p : ι) (c : Call β) : Outcome Panic (State ι κ β) :=
  match c.stage with
  | .alloc => alloc s p c
  | .fill idx => .ok (fill s p c idx)
  | .ring idx => .ok (ring s p c idx)
  | .bump idx => .ok (bump s p c idx)
  | .test idx n => .ok (test s p c idx n)
  | .clear idx n => .ok (clear s p c idx n)
  | .free n i rest => freeChain s p c n i rest
  | .release _ => .ok { s.setCall p none with lock := none }

/-- The next step of a call. -/
def act (s : State ι κ β) (p : ι) : Outcome Panic (State ι κ β) :=
  match s.call p with
  | none => .stuck
  | some c =>
    match c.mode with
    | .acquire =>
      if s.lock = none then
        .ok { s.setCall p (some { c with mode := .run }) with lock := some (.inl p) }
      else .stuck
    | .run => advance s p c
    | .asleep => .stuck

/-! ### `virtio_disk_intr` -/

/-- An interrupt handler goes on. -/
def State.setHandler (s : State ι κ β) (k : κ) (h : Handler) : State ι κ β :=
  { s with handler := update s.handler k h }

/-- The body of the loop: the first entry of the `used` ring that has not been looked at. -/
def intrBody (s : State ι κ β) (k : κ) : Outcome Panic (State ι κ β) :=
  if h : s.used.front.head < num then
    let info := s.info ⟨s.used.front.head, h⟩
    if info.status ≠ 0 then .panic .intrStatus
    else match info.b with
      | none => .panic .fault
      | some b =>
        .ok ((wakeup { s with disk := update s.disk b false
                              used := s.used.pop } (.buf b)).setHandler k .test)
  else .panic .fault

/-- The next step of `virtio_disk_intr`. -/
def actIntr (s : State ι κ β) (k : κ) : Outcome Panic (State ι κ β) :=
  match s.handler k with
  | .idle => .stuck
  | .acquire =>
    if s.lock = none then .ok { s.setHandler k .test with lock := some (.inr k) } else .stuck
  | .test =>
    if s.used.Empty then .ok { s.setHandler k .idle with lock := none }
    else .ok (s.setHandler k .body)
  | .body => intrBody s k

/-! ### The device -/

/-- The device takes the next entry of the `avail` ring, and follows its chain. -/
def fetch (s : State ι κ β) : Outcome Panic (State ι κ β) :=
  if s.avail.Empty then .stuck
  else
    let d0 := s.getDesc s.avail.front.head
    let d1 := s.getDesc d0.next
    let d2 := s.getDesc d1.next
    .ok { s with avail := s.avail.pop
                 requests := s.requests ++ [⟨s.avail.front, d1.addr, d2.addr, false⟩] }

/-- The device has done a request, and writes 0 to its status. -/
def writeStatus (s : State ι κ β) (j : ℕ) : Outcome Panic (State ι κ β) :=
  match s.requests[j]? with
  | none => .stuck
  | some r =>
    match r.status with
    | .status i =>
      .ok { s with requests := s.requests.set j { r with written := true }
                   info := update s.info i { s.info i with status := 0 } }
    | _ => .panic .fault

/-- The device writes a request whose status is written to the `used` ring. -/
def publish (s : State ι κ β) (j : ℕ) : Outcome Panic (State ι κ β) :=
  match s.requests[j]?, s.publishing with
  | some r, none =>
    if r.written then
      .ok { s with requests := s.requests.eraseIdx j
                   used := s.used.store r.entry
                   publishing := some r }
    else .stuck
  | _, _ => .stuck

/-- The device increments `used->idx`.  The request is complete. -/
def complete (s : State ι κ β) : Outcome Panic (State ι κ β) :=
  match s.publishing with
  | none => .stuck
  | some r =>
    .ok { s with used := s.used.advance
                 publishing := none
                 completed := (r.entry.serial, r.data) :: s.completed }

/-! ### Steps -/

/-- What happens next. -/
inductive Event (ι κ β : Type)
  | acquiresleep (p : ι) (b : β)
  | releasesleep (p : ι) (b : β)
  | rw (p : ι) (b : β) (blockno : BitVec 32) (write : Bool) -- a process calls `virtio_disk_rw`
  | act (p : ι)
  | rouse (p : ι) -- `kill` wakes a process
  | interrupt (k : κ)
  | actIntr (k : κ)
  | fetch
  | writeStatus (j : ℕ)
  | publish (j : ℕ)
  | complete

/-- One step. -/
def step (s : State ι κ β) : Event ι κ β → Outcome Panic (State ι κ β)
  | .acquiresleep p b =>
    if s.owner b = none ∧ (s.call p).isNone then
      .ok { s with owner := update s.owner b (some p) }
    else .stuck
  | .releasesleep p b =>
    if s.owner b = some p ∧ (s.call p).isNone then
      .ok { s with owner := update s.owner b none }
    else .stuck
  | .rw p b blockno write =>
    if s.owner b = some p ∧ (s.call p).isNone then
      .ok (s.setCall p (some (virtioDiskRw b blockno write)))
    else .stuck
  | .act p => act s p
  | .rouse p =>
    match s.call p with
    | some c => .ok (s.setCall p (some (c.wakeup c.chan)))
    | none => .stuck
  | .interrupt k => if s.handler k = .idle then .ok (s.setHandler k .acquire) else .stuck
  | .actIntr k => actIntr s k
  | .fetch => fetch s
  | .writeStatus j => writeStatus s j
  | .publish j => publish s j
  | .complete => complete s

/-- Driver and device when `virtio_disk_init` has returned. -/
def start : State ι κ β where
  desc _ := {}
  avail := ⟨fun _ => ⟨0, 0⟩, 0, 0⟩
  used := ⟨fun _ => ⟨0, 0⟩, 0, 0⟩
  free _ := true
  info _ := ⟨none, 0⟩
  ops _ := ⟨0, 0, 0⟩
  lock := none
  disk _ := false
  owner _ := none
  call _ := none
  handler _ := .idle
  requests := []
  publishing := none
  serial := 0
  last _ := none
  completed := []

end Xv6.Virtio
