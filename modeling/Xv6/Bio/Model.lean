import Xv6.Lib.Counting
import Xv6.Lib.Outcome
import Xv6.Lib.Ring
import Xv6.Param

/-!
# The buffer cache

`kernel/bio.c` as a machine.  A step is one critical section under `bcache.lock`,
one transfer between a buffer and the disk, one acquisition or release of a
buffer's sleep-lock, or one change a client makes to a buffer it has locked.

Clients appear as *sessions*: a session is one use of one buffer, from `bread` to
`brelse`.  A process that has several buffers locked at once takes part as several
sessions.

## Main definitions

* `Buf`, `Sys` — the buffers, the ring through them, the disk and the sessions.
* `binit`, `bget`, `fill`, `brelse`, `bpin`, `bunpin` — the code.
* `step` — one step of the machine.
* `Ghost`, `traced` — the same machine with a record of the pins and of what clients
  last stored in each block.
-/

namespace Xv6.Bio

/-- A device number, the kernel's `uint dev`. -/
abbrev DevNo := BitVec 32

/-- The panics of `bio.c`. -/
inductive Panic
  | noBuffers -- `panic("bget: no buffers")`
  | bwrite -- `panic("bwrite")`
  | brelse -- `panic("brelse")`
  deriving DecidableEq

/-- How far a session has come. -/
inductive Stage
  | waiting -- in `bget`, about to acquire the sleep-lock
  | locked -- in `bread`, about to test `b->valid`
  -- `bread` has returned and `brelse` is not yet called; `dirty` tells whether the
  -- buffer was changed since `bread` or the last `bwrite`, and no code reads it
  | holding (dirty : Bool)
  | releasing -- in `brelse`, the sleep-lock is released
  deriving DecidableEq

/-- A session: the arguments of its `bread`, the buffer `bget` chose, and its progress. -/
structure Use where
  dev : DevNo
  blockno : BlockNo
  buf : Fin nbuf
  stage : Stage
  deriving DecidableEq

/-- The fields of `struct buf`, its links apart. -/
structure Buf (S : Type*) where
  valid : Bool -- has data been read from disk?
  dev : DevNo
  blockno : BlockNo
  owner : Option S -- the session holding `lock`
  refcnt : BitVec 32
  data : Block

/-- The buffer cache, the disk and the sessions. -/
structure Sys (S : Type*) where
  buf : Fin nbuf → Buf S -- `bcache.buf`
  links : Links (Fin nbuf) -- the `next` and `prev` fields, `bcache.head` included
  disk : BitVec 32 → Block -- the block starting at each sector
  use : S → Option Use -- what each session is doing

variable {S : Type*}

/-- The first sector of a block: `b->blockno * (BSIZE / 512)`, a product of `uint`s. -/
def sector (b : BlockNo) : BitVec 32 := b * 2

/-- The links `binit` makes. -/
def binitLinks : Links (Fin nbuf) :=
  (List.finRange nbuf).foldl Links.pushFront ⟨fun _ => none, fun _ => none⟩

/-- The cache after `binit`, with no session under way. -/
def binit (d : BitVec 32 → Block) : Sys S where
  buf := fun _ => ⟨false, 0, 0, none, 0, .zero⟩
  links := binitLinks
  disk := d
  use := fun _ => none

namespace Sys

/-- Change buffer `i`. -/
def modifyBuf (s : Sys S) (i : Fin nbuf) (f : Buf S → Buf S) : Sys S :=
  { s with buf := Function.update s.buf i (f (s.buf i)) }

/-- The search of `bget` for a cached block, from the most recently used end. -/
def lookup (s : Sys S) (dev : DevNo) (b : BlockNo) : Option (Option (Fin nbuf)) :=
  walk s.links.next (fun i => (s.buf i).dev == dev && (s.buf i).blockno == b) (nbuf + 1)
    (s.links.next none)

/-- The search of `bget` for an unused buffer, from the least recently used end. -/
def victim (s : Sys S) : Option (Option (Fin nbuf)) :=
  walk s.links.prev (fun i => (s.buf i).refcnt == 0) (nbuf + 1) (s.links.prev none)

/-- Give buffer `i` to another block. -/
def recycle (s : Sys S) (i : Fin nbuf) (dev : DevNo) (b : BlockNo) : Sys S :=
  s.modifyBuf i fun x => { x with dev := dev, blockno := b, valid := false, refcnt := 1 }

/-- `bpin`, and the same increment in `bget`. -/
def bpin (s : Sys S) (i : Fin nbuf) : Sys S :=
  s.modifyBuf i fun x => { x with refcnt := x.refcnt + 1 }

/-- `bunpin`. -/
def bunpin (s : Sys S) (i : Fin nbuf) : Sys S :=
  s.modifyBuf i fun x => { x with refcnt := x.refcnt - 1 }

/-- `bget`, up to the release of `bcache.lock`. -/
def bget (s : Sys S) (dev : DevNo) (b : BlockNo) : Outcome Panic (Sys S × Fin nbuf) :=
  match s.lookup dev b with
  | some (some i) => .ok (s.bpin i, i)
  | some none =>
    match s.victim with
    | some (some i) => .ok (s.recycle i dev b, i)
    | some none => .panic .noBuffers
    | none => .stuck
  | none => .stuck

/-- The rest of `bread`: read the block unless the buffer is valid. -/
def fill (s : Sys S) (i : Fin nbuf) : Sys S :=
  if (s.buf i).valid then s
  else s.modifyBuf i fun x => { x with data := s.disk (sector x.blockno), valid := true }

/-- `virtio_disk_rw(b, 1)`. -/
def writeDisk (s : Sys S) (i : Fin nbuf) : Sys S :=
  { s with disk := Function.update s.disk (sector (s.buf i).blockno) (s.buf i).data }

/-- The critical section of `brelse`. -/
def brelse (s : Sys S) (i : Fin nbuf) : Sys S :=
  let s := s.bunpin i
  if (s.buf i).refcnt = 0 then { s with links := (s.links.unlink i).pushFront i } else s

variable [DecidableEq S]

/-- Let session `p` go on as `u`. -/
def goto (s : Sys S) (p : S) (u : Option Use) : Sys S :=
  { s with use := Function.update s.use p u }

/-- Set the holder of the sleep-lock of buffer `i`. -/
def setOwner (s : Sys S) (i : Fin nbuf) (o : Option S) : Sys S :=
  s.modifyBuf i fun x => { x with owner := o }

end Sys

/-! ### Steps -/

/-- What may happen next. -/
inductive Event (S : Type*)
  | bget (p : S) (dev : DevNo) (b : BlockNo) -- a session begins with `bread(dev, b)`
  | acquiresleep (p : S) -- the end of `bget`
  | bread (p : S) -- the end of `bread`
  | modify (p : S) (v : Block) -- the client changes the buffer's contents to `v`
  | bwrite (p : S)
  | releasesleep (p : S) -- the first half of `brelse`
  | brelse (p : S) -- the second half of `brelse`
  | bpin (i : Fin nbuf)
  | bunpin (i : Fin nbuf)

variable [DecidableEq S]

/-- One step.  A session that is not where the event takes place is `stuck`. -/
def step (s : Sys S) : Event S → Outcome Panic (Sys S)
  | .bget p dev b =>
    match s.use p with
    | none => (s.bget dev b).bind fun r => .ok (r.1.goto p (some ⟨dev, b, r.2, .waiting⟩))
    | some _ => .stuck
  | .acquiresleep p =>
    match s.use p with
    | some ⟨dev, b, i, .waiting⟩ =>
      if (s.buf i).owner = none then
        .ok ((s.setOwner i (some p)).goto p (some ⟨dev, b, i, .locked⟩))
      else .stuck
    | _ => .stuck
  | .bread p =>
    match s.use p with
    | some ⟨dev, b, i, .locked⟩ => .ok ((s.fill i).goto p (some ⟨dev, b, i, .holding false⟩))
    | _ => .stuck
  | .modify p v =>
    match s.use p with
    | some ⟨dev, b, i, .holding _⟩ =>
      .ok ((s.modifyBuf i fun x => { x with data := v }).goto p
        (some ⟨dev, b, i, .holding true⟩))
    | _ => .stuck
  | .bwrite p =>
    match s.use p with
    | some ⟨dev, b, i, .holding _⟩ =>
      if (s.buf i).owner = some p then
        .ok ((s.writeDisk i).goto p (some ⟨dev, b, i, .holding false⟩))
      else .panic .bwrite
    | _ => .stuck
  | .releasesleep p =>
    match s.use p with
    | some ⟨dev, b, i, .holding _⟩ =>
      if (s.buf i).owner = some p then
        .ok ((s.setOwner i none).goto p (some ⟨dev, b, i, .releasing⟩))
      else .panic .brelse
    | _ => .stuck
  | .brelse p =>
    match s.use p with
    | some ⟨_, _, i, .releasing⟩ => .ok ((s.brelse i).goto p none)
    | _ => .stuck
  | .bpin i => .ok (s.bpin i)
  | .bunpin i => .ok (s.bunpin i)

/-! ### The record of pins and stores -/

/-- What the clients have done, as far as the cache does not remember it. -/
structure Ghost where
  pins : Fin nbuf → ℕ -- calls of `bpin` not yet undone by `bunpin`
  loose : Fin nbuf → ℕ -- those of them made before the last `bwrite` of the buffer
  store : BlockNo → Block -- what was last stored in each block

/-- Before the first session, the blocks hold what is on the disk. -/
def Ghost.init (d : BitVec 32 → Block) : Ghost := ⟨fun _ => 0, fun _ => 0, fun b => d (sector b)⟩

/-- Keep the record up to date across an event. -/
def Ghost.next (s : Sys S) (g : Ghost) : Event S → Ghost
  | .modify p v =>
    match s.use p with
    | some u => { g with store := Function.update g.store u.blockno v }
    | none => g
  | .bwrite p =>
    match s.use p with
    | some u => { g with loose := Function.update g.loose u.buf (g.pins u.buf) }
    | none => g
  | .bpin i => { g with pins := Function.update g.pins i (g.pins i + 1) }
  | .bunpin i =>
    { g with
      pins := Function.update g.pins i (g.pins i - 1)
      loose := Function.update g.loose i (g.loose i - 1) }
  | _ => g

/-- The machine with its record. -/
def traced (x : Sys S × Ghost) (e : Event S) : Outcome Panic (Sys S × Ghost) :=
  (step x.1 e).bind fun s => .ok (s, x.2.next x.1 e)

/-- The traced machine just after `binit`. -/
def atBoot (d : BitVec 32 → Block) : Sys S × Ghost := (binit d, .init d)

variable [Fintype S]

/-- The references sessions have on buffer `i`. -/
def refs (s : Sys S) (i : Fin nbuf) : ℕ :=
  ∑ p, if (s.use p).any (fun u => u.buf = i) then 1 else 0

/-- All references on buffer `i`: those of sessions and those of pins. -/
def count (x : Sys S × Ghost) (i : Fin nbuf) : ℕ := refs x.1 i + x.2.pins i

/-- What the clients keep to: they use device numbers other than 0, a pin is undone
only after a `bwrite` of the buffer, and a buffer that was changed is written or pinned
before it is released. -/
def Disciplined (x : Sys S × Ghost) : Event S → Prop
  | .bget _ dev _ => dev ≠ 0
  | .bunpin i => 0 < x.2.loose i
  | .releasesleep p =>
    match x.1.use p with
    | some ⟨_, _, i, .holding true⟩ => x.2.loose i < x.2.pins i
    | _ => True
  | _ => True

instance (x : Sys S × Ghost) (e : Event S) : Decidable (Disciplined x e) := by
  cases e <;> simp only [Disciplined] <;> try infer_instance
  split <;> infer_instance

/-- No reference is taken that `refcnt` cannot count. -/
def NoOverflow (x : Sys S × Ghost) : Event S → Prop
  | .bget _ dev b =>
    ∀ i, (x.1.buf i).dev = dev → (x.1.buf i).blockno = b → count x i + 1 < 2 ^ 32
  | .bpin i => count x i + 1 < 2 ^ 32
  | _ => True

instance (x : Sys S × Ghost) (e : Event S) : Decidable (NoOverflow x e) := by
  cases e <;> simp only [NoOverflow] <;> infer_instance

/-- All reads are of device `d`. -/
def OneDevice (d : DevNo) : Event S → Prop
  | .bget _ dev _ => dev = d
  | _ => True

instance (d : DevNo) (e : Event S) : Decidable (OneDevice d e) := by
  cases e <;> simp only [OneDevice] <;> infer_instance

/-- All reads are of blocks whose first sector has a number of its own. -/
def LowBlocks : Event S → Prop
  | .bget _ _ b => b.toNat < 2 ^ 31
  | _ => True

instance (e : Event S) : Decidable (LowBlocks e) := by
  cases e <;> simp only [LowBlocks] <;> infer_instance

end Xv6.Bio
