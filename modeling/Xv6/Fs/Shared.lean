import Xv6.Lib.Threads
import Xv6.Fs.Failure

/-!
# Processes that write through one `struct file`

Any number of processes are in `filewrite` on the same open file, and take turns between the
operations of the inode layer.  A call cuts its bytes into chunks and locks the inode for
each of them.  While one process has the lock, the others touch neither the contents of the
file nor the offset.

## Main definitions

* `Writers` — the calls, and the file they write to.
* `Writers.start`, `Writers.step` — the calls running side by side, with a log.
* `Writers.Shared` — what is always true of the file, the offset and the log.
* `Writers.rules` — what one call leaves alone.

## Main results

* `Writers.meets_filewrite` — a call keeps to its rules, whatever the others do.
* `shared_writers` — no write is lost.
-/

namespace Xv6.Fs

variable {ι : Type}

/-! ### The log -/

/-- What is logged of a call. -/
inductive Seen
  | locked -- `ilock` returned
  | wrote (off : ℕ) (bytes : List UInt8) -- `writei` returned

/-- What an operation adds to the log. -/
def seen {β : Type} : InodeOp β → β → Option Seen
  | .ilock _, _ => some .locked
  | .writei _ src off n, r => some (.wrote off ((src.fetch 0 n).take r.toNat))
  | _, _ => none

/-- A chunk: who wrote it, where, and its bytes. -/
abbrev Chunk (ι : Type) : Type := ι × ℕ × List UInt8

/-- The chunks, in the order they were written. -/
def chunks (log : List (ι × Seen)) : List (Chunk ι) :=
  log.filterMap fun x => match x.2 with
    | .locked => none
    | .wrote off bytes => some (x.1, off, bytes)

/-- Who locked the inode, in order. -/
def lockers (log : List (ι × Seen)) : List ι :=
  log.filterMap fun x => match x.2 with
    | .locked => some x.1
    | .wrote _ _ => none

/-- The bytes of some chunks. -/
def written (cs : List (Chunk ι)) : List UInt8 := cs.flatMap fun c => c.2.2

/-- The bytes one process wrote. -/
def writtenBy [DecidableEq ι] (cs : List (Chunk ι)) (p : ι) : List UInt8 :=
  written (cs.filter fun c => c.1 = p)

/-- Each chunk begins where the one before it ends, the first at `off`. -/
def Consecutive : ℕ → List (Chunk ι) → Prop
  | _, [] => True
  | off, c :: cs => c.2.1 = off ∧ Consecutive (off + c.2.2.length) cs

section Chunks

variable {cs : List (Chunk ι)} {c : Chunk ι} {log : List (ι × Seen)} {p : ι} {off : ℕ}
  {bytes : List UInt8}

@[simp] theorem chunks_locked : chunks (log ++ [(p, .locked)]) = chunks log := by simp [chunks]

@[simp] theorem lockers_locked : lockers (log ++ [(p, .locked)]) = lockers log ++ [p] := by
  simp [lockers]

@[simp] theorem chunks_wrote :
    chunks (log ++ [(p, .wrote off bytes)]) = chunks log ++ [(p, off, bytes)] := by simp [chunks]

@[simp] theorem lockers_wrote : lockers (log ++ [(p, .wrote off bytes)]) = lockers log := by
  simp [lockers]

theorem written_cons : written (c :: cs) = c.2.2 ++ written cs := rfl

@[simp] theorem written_concat : written (cs ++ [c]) = written cs ++ c.2.2 := by simp [written]

theorem consecutive_concat :
    Consecutive off (cs ++ [c]) ↔ Consecutive off cs ∧ c.2.1 = off + (written cs).length := by
  induction cs generalizing off with
  | nil => simp [Consecutive, written]
  | cons a cs ih =>
    rw [List.cons_append, Consecutive, Consecutive, ih, and_assoc]
    refine and_congr_right fun _ => and_congr_right fun _ => ?_
    rw [written_cons, List.length_append, Nat.add_assoc]

variable [DecidableEq ι]

theorem writtenBy_concat_self (hp : c.1 = p) :
    writtenBy (cs ++ [c]) p = writtenBy cs p ++ c.2.2 := by
  simp [writtenBy, List.filter_append, hp]

theorem writtenBy_concat_of_ne (hp : c.1 ≠ p) : writtenBy (cs ++ [c]) p = writtenBy cs p := by
  simp [writtenBy, List.filter_append, hp]

theorem length_written [Fintype ι] (cs : List (Chunk ι)) :
    (written cs).length = ∑ p, (writtenBy cs p).length := by
  induction cs with
  | nil => simp [written, writtenBy]
  | cons c cs ih =>
    have hcons : ∀ p, (writtenBy (c :: cs) p).length
        = (if c.1 = p then c.2.2.length else 0) + (writtenBy cs p).length := by
      intro p
      by_cases hp : c.1 = p
      · simp [writtenBy, written, hp]
      · simp [writtenBy, hp]
    rw [Finset.sum_congr rfl fun p _ => hcons p, Finset.sum_add_distrib, Finset.sum_ite_eq,
      if_pos (Finset.mem_univ _), ← ih, written_cons, List.length_append]

end Chunks

/-! ### Bytes -/

section Bytes

variable {data a b : List UInt8} {off : ℕ}

/-- Two writes, the second where the first ends. -/
theorem writeString_append (h : off ≤ data.length) :
    writeString (writeString data off a) (off + a.length) b = writeString data off (a ++ b) := by
  have hlen : (writeString data off a).length = max data.length (off + a.length) :=
    length_writeString h
  refine eq_of_getD ?_ fun x _ => ?_
  · rw [length_writeString (by omega), hlen, length_writeString h, List.length_append]
    omega
  rw [getD_writeString (by omega), getD_writeString h, getD_writeString h, List.length_append]
  by_cases hb : off + a.length ≤ x ∧ x < off + a.length + b.length
  · rw [if_pos hb, if_pos (by omega), List.getD_append_right _ _ _ _ (by omega)]
    congr 1
    omega
  · rw [if_neg hb]
    by_cases ha : off ≤ x ∧ x < off + a.length
    · rw [if_pos ha, if_pos (by omega), List.getD_append _ _ _ _ (by omega)]
    · rw [if_neg ha, if_neg (by omega)]

theorem readString_writeString (h : off ≤ data.length) (hlt : off + a.length < 2 ^ 32) :
    readString (writeString data off a) off a.length = ((a.length : ℤ), a) := by
  have hlen : (writeString data off a).length = max data.length (off + a.length) :=
    length_writeString h
  have htake : (data.take off).length = off := by rw [List.length_take]; omega
  rw [readString, if_neg (by omega)]
  refine Prod.ext ?_ ?_
  · show ((min a.length _ : ℕ) : ℤ) = _
    congr 1
    omega
  · show ((writeString data off a).drop off).take a.length = a
    rw [writeString, List.append_assoc, List.drop_append_of_le_length (by omega),
      List.drop_of_length_le (by omega), List.nil_append, List.take_left]

theorem fetch_drop (src : Src) (i m : ℕ) : (src.drop i).fetch 0 m = src.fetch i m := by
  cases src with
  | kernel bytes => simp [Src.drop, Src.fetch]
  | user va mem => simp [Src.drop, Src.fetch, BitVec.ofNat_add, BitVec.add_assoc]

/-- A part of a buffer that can be read as a whole. -/
theorem fetch_part {src : Src} {n i m : ℕ} (h : (src.fetch 0 n).length = n) (hle : i + m ≤ n) :
    (src.drop i).fetch 0 m = ((src.fetch 0 n).drop i).take m := by
  obtain ⟨l, rfl⟩ : ∃ l, n = i + (m + l) := ⟨n - (i + m), by omega⟩
  have hi := length_fetch_le src 0 i
  have hm := length_fetch_le src i m
  have hl := length_fetch_le src (i + m) l
  have hcut : ¬ (src.fetch 0 i).length < i := by
    intro hlt
    rw [fetch_add, if_pos hlt] at h
    omega
  rw [fetch_add, if_neg hcut, Nat.zero_add] at h ⊢
  have hcut' : ¬ (src.fetch i m).length < m := by
    intro hlt
    rw [fetch_add, if_pos hlt, List.length_append] at h
    omega
  rw [fetch_add src i m l, if_neg hcut', List.drop_append_of_le_length (by omega),
    List.drop_of_length_le (by omega), List.nil_append, fetch_drop,
    List.take_append_of_le_length (by omega), List.take_of_length_le (by omega)]

end Bytes

/-! ### The machine -/

variable [Fintype ι]

/-- Calls of `filewrite` by different processes on one open file, each with a buffer that can
be read as a whole.  The file has the bytes `data`, and would not grow too long. -/
structure Writers (ι : Type) [Fintype ι] where
  file : Fin nfile -- the `struct file`
  ip : Fin ninode -- the inode it has open
  inum : ℕ
  off : ℕ -- the offset at the start
  data : List UInt8 -- the contents at the start
  pid : ι → Pid -- the processes
  src : ι → Src -- the buffers
  n : ι → ℕ -- the numbers of bytes
  answer : ι → ℤ -- what a device would return
  inj : Function.Injective pid
  full : ∀ p, ((src p).fetch 0 (n p)).length = n p
  le : off ≤ data.length
  fits : off + ∑ p, n p ≤ maxfile * bsize

/-- The operations of the inode layer on bytes. -/
def onBytes (sb : Super) (p : Pid) : Handler InodeOp Panic Image :=
  fun o => (inodeImpl sb p o).exec (onImage sb)

/-- The machine's states: the memory and the disk, the log, and how far each call is. -/
abbrev Writing (ι : Type) : Type 1 := Threads ι InodeOp ℤ (Image × List (ι × Seen))

namespace Writers

/-- All calls are about to begin. -/
def start (w : Writers ι) (u : Image) : Writing ι :=
  ⟨(u, []), fun p => filewrite w.file (w.src p) (w.n p) (w.answer p)⟩

variable [DecidableEq ι]

/-- One operation of one of the calls. -/
def step (w : Writers ι) (sb : Super) : Writing ι → ι → Outcome Panic (Writing ι) :=
  Threads.step fun p => Handler.logged seen p (onBytes sb (w.pid p))

/-- The bytes of a call. -/
def bytes (w : Writers ι) (p : ι) : List UInt8 := (w.src p).fetch 0 (w.n p)

/-- The file is open for writing. -/
structure Target (w : Writers ι) (t : Abs) (nd : Node) : Prop where
  type : (t.tables.file w.file).type = .inode
  writable : (t.tables.file w.file).writable = true
  ip : (t.tables.file w.file).ip = w.ip
  inum : (t.entry w.ip).inum = w.inum
  ref : 0 < (t.entry w.ip).ref
  clean : (t.entry w.ip).dirty = false
  node : t.node w.inum = some nd

/-- The file is as the calls find it, and nobody has the inode locked. -/
structure Opened (w : Writers ι) (t : Abs) (nd : Node) : Prop extends w.Target t nd where
  off : (t.tables.file w.file).off.toNat = w.off
  data : nd.data = w.data
  free : (t.entry w.ip).owner = none

/-! ### The invariant -/

variable (w : Writers ι)

/-- The offset of the file. -/
def offset (x : Image × List (ι × Seen)) : ℕ := (x.1.mem.tables.file w.file).off.toNat

/-- The process that has the inode locked. -/
def holder (x : Image × List (ι × Seen)) : Option Pid := (x.1.mem.inode w.ip).owner

/-- The offset counts all bytes written, and who had the lock has written. -/
structure Settled (x : Image × List (ι × Seen)) : Prop where
  offset : w.offset x = w.off + (written (chunks x.2)).length
  order : lockers x.2 = (chunks x.2).map Prod.fst

/-- The contents of the file are those at the start, with the chunks over them. -/
structure Tally (log : List (ι × Seen)) (data : List UInt8) : Prop where
  data : data = writeString w.data w.off (written (chunks log))
  consecutive : Consecutive w.off (chunks log)
  own : ∀ p, writtenBy (chunks log) p <+: w.bytes p

/-- There is a free block for each that the calls may need. -/
def Room (sb : Super) (u : Image) (D : ℕ → Dinode) : Prop :=
  missing (decode sb u).blk (D w.inum) (touched w.off (∑ p, w.n p)) ≤ freeBlocks sb
    (decode sb u).bit

/-- The abstract state, the log and the lock.  `room` is whether there were enough free blocks
at the start. -/
structure View (sb : Super) (room : Prop) (x : Image × List (ι × Seen)) (D : ℕ → Dinode) (t : Abs)
    (nd : Node) : Prop where
  sim : Sim sb D (decode sb x.1) t
  target : w.Target t nd
  tally : w.Tally x.2 nd.data
  order : ∃ q : List ι, q.length ≤ 1 ∧ lockers x.2 = (chunks x.2).map Prod.fst ++ q
  room : room → w.Room sb x.1 D
  valid : w.holder x ≠ none → (t.entry w.ip).valid = true
  holder : ∀ q, w.holder x = some q → ∃ p, q = w.pid p
  settled : w.holder x = none → w.Settled x

/-- What is always true of the file, the offset and the log. -/
def Shared (sb : Super) (room : Prop) (x : Image × List (ι × Seen)) : Prop :=
  ∃ D t nd, w.View sb room x D t nd

/-- Seen from process `p`, another process did something. -/
structure Other (p : ι) (x y : Image × List (ι × Seen)) : Prop where
  mine : writtenBy (chunks y.2) p = writtenBy (chunks x.2) p
  holds : w.holder y = some (w.pid p) ↔ w.holder x = some (w.pid p)
  locked : w.holder x = some (w.pid p) → w.offset y = w.offset x ∧ y.2 = x.2

variable {w} {sb : Super} {room : Prop} {x y z : Image × List (ι × Seen)} {p q : ι}
  {i m : ℕ} {t : Abs} {nd : Node} {D : ℕ → Dinode} {u : Image}

theorem Other.refl (p : ι) (x : Image × List (ι × Seen)) : w.Other p x x :=
  ⟨rfl, Iff.rfl, fun _ => ⟨rfl, rfl⟩⟩

theorem Other.trans (h : w.Other p x y) (h' : w.Other p y z) : w.Other p x z := by
  refine ⟨h'.mine.trans h.mine, h'.holds.trans h.holds, fun hx => ?_⟩
  obtain ⟨ho, hl⟩ := h.locked hx
  obtain ⟨ho', hl'⟩ := h'.locked (h.holds.mpr hx)
  exact ⟨ho'.trans ho, hl'.trans hl⟩

/-- The rules for one call: it leaves the log of the others alone, and the offset and the
lock while they have the lock. -/
def rules (w : Writers ι) (sb : Super) (room : Prop) (p : ι) :
    Rules Panic (Image × List (ι × Seen)) where
  rely x y := w.Shared sb room x → w.Shared sb room y ∧ w.Other p x y
  guar x y := w.Shared sb room x → w.Shared sb room y ∧ ∀ q, q ≠ p → w.Other q x y
  panics e := e = .outOfBlocks ∧ ¬ room
  waits x := w.holder x ≠ none ∧ w.holder x ≠ some (w.pid p)
  refl x := fun hx => ⟨hx, .refl p x⟩
  trans := fun h h' hx => by
    obtain ⟨hy, hxy⟩ := h hx
    obtain ⟨hz, hyz⟩ := h' hy
    exact ⟨hz, hxy.trans hyz⟩

/-! ### The operations of a call -/

variable (w sb room) in
/-- Process `p` does not have the lock, and has written the first `i` of its bytes. -/
structure Idle (p : ι) (i : ℕ) (x : Image × List (ι × Seen)) : Prop where
  shared : w.Shared sb room x
  free : w.holder x ≠ some (w.pid p)
  mine : writtenBy (chunks x.2) p = (w.bytes p).take i

variable (w sb room) in
/-- Process `p` has the lock, and has not used it yet. -/
structure Held (p : ι) (i : ℕ) (x : Image × List (ι × Seen)) : Prop where
  shared : w.Shared sb room x
  holds : w.holder x = some (w.pid p)
  mine : writtenBy (chunks x.2) p = (w.bytes p).take i
  offset : w.offset x = w.off + (written (chunks x.2)).length
  order : lockers x.2 = (chunks x.2).map Prod.fst ++ [p]

variable (w sb room) in
/-- Process `p` has the lock and has written.  The offset does not count the last `k` bytes. -/
structure Wrote (p : ι) (i k : ℕ) (x : Image × List (ι × Seen)) : Prop where
  shared : w.Shared sb room x
  holds : w.holder x = some (w.pid p)
  mine : writtenBy (chunks x.2) p = (w.bytes p).take i
  offset : w.offset x + k = w.off + (written (chunks x.2)).length
  order : lockers x.2 = (chunks x.2).map Prod.fst

section Stages

variable {i k : ℕ}

theorem Idle.rely (h : w.Idle sb room p i x) (hxy : (w.rules sb room p).rely x y) :
    w.Idle sb room p i y := by
  obtain ⟨hy, ho⟩ := hxy h.shared
  exact ⟨hy, mt ho.holds.mp h.free, ho.mine.trans h.mine⟩

theorem Held.rely (h : w.Held sb room p i x) (hxy : (w.rules sb room p).rely x y) :
    w.Held sb room p i y := by
  obtain ⟨hy, ho⟩ := hxy h.shared
  obtain ⟨hoff, hlog⟩ := ho.locked h.holds
  refine ⟨hy, ho.holds.mpr h.holds, ho.mine.trans h.mine, ?_, ?_⟩
  · rw [hoff, hlog, h.offset]
  · rw [hlog, h.order]

theorem Wrote.rely (h : w.Wrote sb room p i k x) (hxy : (w.rules sb room p).rely x y) :
    w.Wrote sb room p i k y := by
  obtain ⟨hy, ho⟩ := hxy h.shared
  obtain ⟨hoff, hlog⟩ := ho.locked h.holds
  refine ⟨hy, ho.holds.mpr h.holds, ho.mine.trans h.mine, ?_, ?_⟩
  · rw [hoff, hlog, h.offset]
  · rw [hlog, h.order]

end Stages

omit [DecidableEq ι] in
theorem Target.setEntry {g : Entry → Entry} (h : w.Target t nd)
    (hinum : (g (t.entry w.ip)).inum = (t.entry w.ip).inum)
    (href : (g (t.entry w.ip)).ref = (t.entry w.ip).ref)
    (hclean : (g (t.entry w.ip)).dirty = false) : w.Target (t.setEntry w.ip g) nd := by
  refine ⟨h.type, h.writable, h.ip, ?_, ?_, ?_, h.node⟩
  · rw [setEntry_self, hinum, h.inum]
  · rw [setEntry_self, href]
    exact h.ref
  · rw [setEntry_self, hclean]

theorem Tally.congr {log log' : List (ι × Seen)} {data : List UInt8} (h : w.Tally log data)
    (hc : chunks log' = chunks log) : w.Tally log' data := by
  refine ⟨?_, ?_, ?_⟩
  · rw [hc, h.data]
  · rw [hc]
    exact h.consecutive
  · rw [hc]
    exact h.own

theorem Shared.congr (h : w.Shared sb room x) (hu : decode sb u = decode sb x.1) :
    w.Shared sb room (u, x.2) ∧ ∀ q, w.Other q x (u, x.2) := by
  have hmem : u.mem = x.1.mem := congrArg Store.mem hu
  have hholder : w.holder (u, x.2) = w.holder x := by rw [holder, holder, hmem]
  have hoffset : w.offset (u, x.2) = w.offset x := by rw [offset, offset, hmem]
  obtain ⟨D, t, nd, h⟩ := h
  refine ⟨⟨D, t, nd, ?_⟩, fun q => ⟨rfl, by rw [hholder], fun _ => ⟨hoffset, rfl⟩⟩⟩
  refine ⟨?_, h.target, h.tally, h.order, fun hroom => ?_, ?_, ?_, ?_⟩
  · rw [hu]
    exact h.sim
  · rw [Room, hu]
    exact h.room hroom
  · rw [hholder]
    exact h.valid
  · rw [hholder]
    exact h.holder
  · rw [hholder]
    intro hnone
    obtain ⟨hoff, hord⟩ := h.settled hnone
    exact ⟨hoffset.trans hoff, hord⟩

/-- A step of the process that has the lock, or takes it or gives it up: for the others, the
lock is taken before and after. -/
theorem Other.of_free {p q : ι} (hq : q ≠ p)
    (hmine : writtenBy (chunks y.2) q = writtenBy (chunks x.2) q)
    (hx : w.holder x = none ∨ w.holder x = some (w.pid p))
    (hy : w.holder y = none ∨ w.holder y = some (w.pid p)) : w.Other q x y := by
  have hne : ∀ z : Image × List (ι × Seen), w.holder z = none ∨ w.holder z = some (w.pid p) →
      w.holder z ≠ some (w.pid q) := by
    rintro z (hz | hz) heq
    · rw [hz] at heq
      cases heq
    · rw [hz, Option.some.injEq] at heq
      exact hq (w.inj heq.symm)
  exact ⟨hmine, iff_of_false (hne y hy) (hne x hx), fun h => absurd h (hne x hx)⟩

section Silent

variable {β : Type} {o : InodeOp β} {b : β} {u : Image} {P : β → Image × List (ι × Seen) → Prop}

/-- An operation that completes and is not logged. -/
theorem allows_quiet (ho : onBytes sb (w.pid p) o x.1 = .ok (b, u)) (hseen : seen o b = none)
    (hg : (w.rules sb room p).guar x (u, x.2)) (hP : P b (u, x.2)) :
    (w.rules sb room p).Allows x (Handler.logged seen p (onBytes sb (w.pid p)) o x) P := by
  refine Rules.allows_of_ok ?_ hg hP
  rw [Handler.logged, ho, Outcome.bind_ok, hseen]
  simp

/-- An operation that changes neither the tables nor the disk. -/
theorem allows_silent (h : w.Shared sb room x) (ho : onBytes sb (w.pid p) o x.1 = .ok (b, u))
    (hu : decode sb u = decode sb x.1) (hseen : seen o b = none)
    (hP : ∀ y, (w.rules sb room p).rely x y → y.1.mem = x.1.mem → P b y) :
    (w.rules sb room p).Allows x (Handler.logged seen p (onBytes sb (w.pid p)) o x) P := by
  obtain ⟨hshared, hother⟩ := h.congr hu
  exact allows_quiet ho hseen (fun _ => ⟨hshared, fun q _ => hother q⟩)
    (hP _ (fun _ => ⟨hshared, hother p⟩) (congrArg Store.mem hu))

end Silent

theorem View.wp_ilock (hv : w.View sb room x D t nd) (q : Pid) :
    (ilock q w.ip).wp (checked sb) (fun _ => False) (decode sb x.1) fun _ s' => w.holder x = none ∧
      Keeps sb D (decode sb x.1) s'
        (t.setEntry w.ip fun y => { y with owner := some q, valid := true }) := by
  have href := hv.target.ref
  have howner : (t.entry w.ip).owner = w.holder x := hv.sim.owner w.ip
  have hy : onAbs sb q (.ilock w.ip) t = if w.holder x ≠ none then .stuck
      else .ok ((), t.setEntry w.ip fun y => { y with owner := some q, valid := true }) := by
    rw [onAbs, if_neg (by omega), howner, hv.target.inum, hv.target.node, Option.isSome_some,
      Bool.or_true, if_pos rfl]
  have hwp := (ilock_refines (p := q) (e := w.ip) hv.sim).wp fun e he hp => by
    rw [hy] at hp
    split at hp <;> cases hp
  rw [hy] at hwp
  refine Outcome.Ensures.mono (fun e he => ?_) (fun r hr => ?_) hwp
  · obtain hf | hp := he
    · exact hf
    · split at hp <;> cases hp
  obtain ⟨t', ht', hk⟩ := hr
  split at ht'
  · cases ht'
  · next hfree =>
    cases ht'
    exact ⟨not_not.mp hfree, hk⟩

theorem Idle.take (h : w.Idle sb room p i x) (hv : w.View sb room x D t nd)
    (hfree : w.holder x = none) (hk : Keeps sb D (decode sb x.1) (decode sb u)
      (t.setEntry w.ip fun y => { y with owner := some (w.pid p), valid := true })) :
    (w.rules sb room p).guar x (u, x.2 ++ [(p, .locked)]) ∧
      w.Held sb room p i (u, x.2 ++ [(p, .locked)]) := by
  have hholder : w.holder (u, x.2 ++ [(p, .locked)]) = some (w.pid p) := by
    have howner := hk.sim.owner w.ip
    rw [setEntry_self] at howner
    exact howner.symm
  have hoffset : w.offset (u, x.2 ++ [(p, .locked)]) = w.offset x := by
    have htables := hk.sim.tables
    rw [setEntry_tables, hv.sim.tables] at htables
    exact congrArg (fun T : Tables => (T.file w.file).off.toNat) htables.symm
  obtain ⟨hoff, hord⟩ := hv.settled hfree
  have horder : lockers (x.2 ++ [(p, .locked)])
      = (chunks (x.2 ++ [(p, .locked)])).map Prod.fst ++ [p] := by
    rw [lockers_locked, chunks_locked, hord]
  have hshared : w.Shared sb room (u, x.2 ++ [(p, .locked)]) := by
    refine ⟨D, _, nd, hk.sim, hv.target.setEntry rfl rfl hv.target.clean,
      hv.tally.congr chunks_locked, ⟨[p], Nat.le_refl 1, horder⟩, fun hroom => ?_,
      fun _ => by rw [setEntry_self], fun q hq => ?_, fun hnone => ?_⟩
    · rw [Room, hk.bit, hk.blk]
      exact hv.room hroom
    · rw [hholder, Option.some.injEq] at hq
      exact ⟨p, hq.symm⟩
    · rw [hholder] at hnone
      cases hnone
  refine ⟨fun _ => ⟨hshared, fun q hq => .of_free hq ?_ (.inl hfree) (.inr hholder)⟩,
    hshared, hholder, ?_, ?_, horder⟩
  · rw [chunks_locked]
  · rw [chunks_locked, h.mine]
  · rw [hoffset, hoff, chunks_locked]

theorem allows_ilock (h : w.Idle sb room p i x) :
    (w.rules sb room p).Allows x
      (Handler.logged seen p (onBytes sb (w.pid p)) (.ilock w.ip) x)
      fun _ y => w.Held sb room p i y := by
  obtain ⟨D, t, nd, hv⟩ := h.shared
  have hwp := hv.wp_ilock (w.pid p)
  constructor
  · intro hs
    rw [Handler.logged_eq_stuck] at hs
    refine ⟨?_, h.free⟩
    obtain hc | hc := exec_onImage_stuck sb hs
    · exact ilock_waits hc
    · rw [Prog.wp, show (ilock (w.pid p) w.ip).exec (checked sb) (decode sb x.1) = _ from hc] at hwp
      exact hwp.elim
  · rw [Handler.logged_ensures]
    exact Outcome.Ensures.mono (fun _ hf => hf.elim) (fun r hr => h.take hv hr.1 hr.2)
      (wp_onImage (fun hf => hf) hwp)

/-- A process has no more bytes left than the file has room for. -/
theorem Tally.fits {log : List (ι × Seen)} {data : List UInt8} (h : w.Tally log data)
    (hmine : writtenBy (chunks log) p = (w.bytes p).take i) (hi : i ≤ w.n p) :
    (written (chunks log)).length + (w.n p - i) ≤ ∑ p, w.n p := by
  have hlen : ∀ q, (w.bytes q).length = w.n q := w.full
  have hle : ∀ q, (writtenBy (chunks log) q).length ≤ w.n q := fun q => by
    rw [← hlen q]
    exact (h.own q).length_le
  have hp : (writtenBy (chunks log) p).length = i := by
    rw [hmine, List.length_take, hlen]
    omega
  have hrest := Finset.sum_le_sum fun q (_ : q ∈ Finset.univ.erase p) => hle q
  rw [length_written, ← Finset.add_sum_erase _ _ (Finset.mem_univ p),
    ← Finset.add_sum_erase _ w.n (Finset.mem_univ p), hp]
  omega

theorem Tally.push {log : List (ι × Seen)} {data b : List UInt8} (h : w.Tally log data)
    (hmine : writtenBy (chunks log) p = (w.bytes p).take i) (hb : b = ((w.bytes p).drop i).take m) :
    w.Tally (log ++ [(p, .wrote (w.off + (written (chunks log)).length) b)])
        (writeString data (w.off + (written (chunks log)).length) b) ∧
      writtenBy (chunks (log ++ [(p, .wrote (w.off + (written (chunks log)).length) b)])) p
        = (w.bytes p).take (i + m) := by
  rw [chunks_wrote]
  have hself : writtenBy (chunks log ++ [(p, w.off + (written (chunks log)).length, b)]) p
      = (w.bytes p).take (i + m) := by
    rw [writtenBy_concat_self rfl, hmine, hb, List.take_add]
  refine ⟨⟨?_, ?_, fun q => ?_⟩, hself⟩
  · rw [chunks_wrote, written_concat, h.data, writeString_append w.le]
  · rw [chunks_wrote, consecutive_concat]
    exact ⟨h.consecutive, rfl⟩
  rw [chunks_wrote]
  by_cases hq : q = p
  · rw [hq, hself]
    exact List.take_prefix ..
  · rw [writtenBy_concat_of_ne (Ne.symm hq)]
    exact h.own q

theorem View.onAbs_writei {src : Src} {off : ℕ} {q : Pid} (hv : w.View sb room x D t nd)
    (hl : t.locked q w.ip = some nd) (hoff : off ≤ nd.data.length)
    (hmax : off + m ≤ maxfile * bsize) (hsrc : (src.fetch 0 m).length = m) :
    onAbs sb q (.writei w.ip src off m) t = .ok ((m : ℤ), (t.setNode w.inum
      (some { nd with data := writeString nd.data off (src.fetch 0 m) })).setEntry w.ip
        fun y => { y with dirty := false }) := by
  have hlt : maxfile * bsize < 2 ^ 32 := by decide
  rw [onAbs, withLocked, hl]
  dsimp only
  rw [if_pos (by omega), write_full hoff hmax hsrc, if_neg (by omega), hv.target.inum]

theorem Held.put {D' : ℕ → Dinode} {b : List UInt8} (h : w.Held sb room p i x)
    (hv : w.View sb room x D t nd) (hb : b = ((w.bytes p).drop i).take m) (hm : b.length = m)
    (hi : i + m ≤ w.n p) (hsim : Sim sb D' (decode sb u) ((t.setNode w.inum
      (some { nd with data := writeString nd.data (w.offset x) b })).setEntry w.ip
        fun y => { y with dirty := false }))
    (htook : Took sb (touched (w.offset x) m) (decode sb x.1).bit (decode sb x.1).blk (D w.inum)
      (decode sb u).bit (decode sb u).blk (D' w.inum)) :
    (w.rules sb room p).guar x (u, x.2 ++ [(p, .wrote (w.offset x) b)]) ∧
      w.Wrote sb room p (i + m) m (u, x.2 ++ [(p, .wrote (w.offset x) b)]) := by
  have hfits := hv.tally.fits h.mine (by omega)
  have hholder : w.holder (u, x.2 ++ [(p, .wrote (w.offset x) b)]) = some (w.pid p) := by
    have howner := hsim.owner w.ip
    rw [setEntry_self, setNode_entry, hv.sim.owner w.ip] at howner
    exact howner.symm.trans h.holds
  have hoffset : w.offset (u, x.2 ++ [(p, .wrote (w.offset x) b)]) = w.offset x := by
    have htables := hsim.tables
    rw [setEntry_tables, setNode_tables, hv.sim.tables] at htables
    exact congrArg (fun T : Tables => (T.file w.file).off.toNat) htables.symm
  obtain ⟨htally, hmine⟩ := hv.tally.push h.mine hb
  rw [← h.offset] at htally hmine
  have hnode : w.Target (t.setNode w.inum
      (some { nd with data := writeString nd.data (w.offset x) b }))
      { nd with data := writeString nd.data (w.offset x) b } :=
    ⟨hv.target.type, hv.target.writable, hv.target.ip, hv.target.inum, hv.target.ref,
      hv.target.clean, by rw [setNode_node, Function.update_self]⟩
  have horder : lockers (x.2 ++ [(p, .wrote (w.offset x) b)])
      = (chunks (x.2 ++ [(p, .wrote (w.offset x) b)])).map Prod.fst := by
    rw [lockers_wrote, chunks_wrote, List.map_append, h.order]
    rfl
  have hshared : w.Shared sb room (u, x.2 ++ [(p, .wrote (w.offset x) b)]) := by
    refine ⟨D', _, _, hsim, hnode.setEntry rfl rfl rfl, htally,
      ⟨[], Nat.zero_le 1, by rw [List.append_nil, horder]⟩, fun hroom => ?_, fun _ => ?_,
      fun q hq => ?_, fun hnone => ?_⟩
    · -- what the map lost, the inode gained
      have hsub : touched (w.offset x) m ⊆ touched w.off (∑ p, w.n p) := by
        rw [h.offset]
        exact (touched_add ..).trans (touched_mono (by omega) _)
      have hroom := hv.room hroom
      have hboth := htook _ hsub
      unfold Room at hroom ⊢
      dsimp only
      omega
    · rw [setEntry_self]
      exact hv.valid (by rw [h.holds]; rintro ⟨⟩)
    · rw [hholder, Option.some.injEq] at hq
      exact ⟨p, hq.symm⟩
    · rw [hholder] at hnone
      cases hnone
  refine ⟨fun _ => ⟨hshared, fun q hq => .of_free hq ?_ (.inr h.holds) (.inr hholder)⟩,
    hshared, hholder, hmine, ?_, horder⟩
  · rw [chunks_wrote, writtenBy_concat_of_ne (Ne.symm hq)]
  · rw [hoffset, chunks_wrote, written_concat, List.length_append, h.offset, hm, Nat.add_assoc]

theorem allows_writei (h : w.Held sb room p i x) (hi : i + m ≤ w.n p) :
    (w.rules sb room p).Allows x
      (Handler.logged seen p (onBytes sb (w.pid p))
        (.writei w.ip ((w.src p).drop i) (w.offset x) m) x)
      fun r y => r = m ∧ w.Wrote sb room p (i + m) m y := by
  obtain ⟨D, t, nd, hv⟩ := h.shared
  have hlt : maxfile * bsize < 2 ^ 32 := by decide
  have hfits := hv.tally.fits h.mine (by omega)
  have hsum := w.fits
  have hoff := h.offset
  have hle : w.offset x ≤ nd.data.length := by
    rw [hv.tally.data, length_writeString w.le, hoff]
    exact Nat.le_max_right ..
  have hpart := fetch_part (w.full p) hi
  have hsrc : (((w.src p).drop i).fetch 0 m).length = m := by
    rw [hpart, List.length_take, List.length_drop, w.full p]
    omega
  have hl : t.locked (w.pid p) w.ip = some nd := locked_eq_some.mpr
    ⟨⟨hv.target.ref, (hv.sim.owner w.ip).trans h.holds, hv.valid (by rw [h.holds]; rintro ⟨⟩)⟩,
      by rw [hv.target.inum, hv.target.node]⟩
  have hwp := @wp_writei_sim _ _ _ _ _ _ _ (fun e => e = some .outOfBlocks ∧ ¬ room)
    (w.offset x) m ((w.src p).drop i) (fun hfull => ⟨rfl, fun hroom => ?_⟩)
    hv.sim hl (by omega)
  · rw [hv.onAbs_writei hl hle (by omega) hsrc, hv.target.inum] at hwp
    constructor
    · intro hs
      rw [Handler.logged_eq_stuck] at hs
      obtain hc | hc := exec_onImage_stuck sb hs
      · exact absurd hc ((neverStuck_writei ..).ne _)
      · rw [Prog.wp, show (writei sb w.ip _ _ _).exec (checked sb) (decode sb x.1)
          = _ from hc] at hwp
        cases hwp.1
    · rw [Handler.logged_ensures]
      refine Outcome.Ensures.mono (fun e he => ⟨Option.some.inj he.1, he.2⟩) (fun r hr => ?_)
        (wp_onImage (fun hf => by cases hf.1) hwp)
      obtain ⟨t', D', heq, hsim, htook⟩ := hr
      rw [Outcome.ok.injEq, Prod.mk.injEq] at heq
      obtain ⟨hr, rfl⟩ := heq
      have hb : (((w.src p).drop i).fetch 0 m).take r.1.toNat = ((w.src p).drop i).fetch 0 m :=
        List.take_of_length_le (by omega)
      have hput := h.put hv hpart hsrc hi hsim htook
      rw [← hb] at hput
      exact ⟨hput.1, hr.symm, hput.2⟩
  · -- the blocks for this chunk are among those there was room for
    have hsub : touched (w.offset x) m ⊆ touched w.off (∑ p, w.n p) := by
      rw [h.offset]
      exact (touched_add ..).trans (touched_mono (by omega) _)
    have hroom := hv.room hroom
    have hmono : missing (decode sb x.1).blk (D w.inum) _ ≤ _ := missing_mono hsub
    unfold Room at hroom
    rw [hv.target.inum] at hfull
    omega

theorem Wrote.move {k : ℕ} (h : w.Wrote sb room p i k x) (hk : 0 < k) :
    ∃ u, onBytes sb (w.pid p) (.tables fun t => .ok ((), if 0 < (k : ℤ) then
        t.setFile w.file fun f => { f with off := f.off + BitVec.ofInt 32 k } else t)) x.1
          = .ok ((), u) ∧
      (w.rules sb room p).guar x (u, x.2) ∧ w.Wrote sb room p i 0 (u, x.2) := by
  obtain ⟨D, t, nd, hv⟩ := h.shared
  have hlt : maxfile * bsize < 2 ^ 32 := by decide
  have hsum := w.fits
  have hlen : (written (chunks x.2)).length ≤ ∑ p, w.n p := by
    have hlen' : ∀ q, (w.bytes q).length = w.n q := w.full
    rw [length_written]
    refine Finset.sum_le_sum fun q _ => ?_
    rw [← hlen' q]
    exact (hv.tally.own q).length_le
  obtain ⟨T, hT⟩ : ∃ T, T = x.1.mem.tables.setFile w.file
      fun f => { f with off := f.off + BitVec.ofInt 32 k } := ⟨_, rfl⟩
  have hfile : T.file w.file = { x.1.mem.tables.file w.file with
      off := (x.1.mem.tables.file w.file).off + BitVec.ofInt 32 k } := by
    rw [hT]
    exact Function.update_self ..
  have hoffset : ((x.1.mem.tables.file w.file).off + BitVec.ofInt 32 k).toNat = w.offset x + k := by
    have hold : (x.1.mem.tables.file w.file).off.toNat = w.offset x := rfl
    have hoff := h.offset
    rw [BitVec.ofInt_natCast, BitVec.toNat_add, BitVec.toNat_ofNat, hold]
    omega
  refine ⟨{ x.1 with mem := { x.1.mem with tables := T } }, ?_, ?_⟩
  · have hset : (if 0 < (k : ℤ) then x.1.mem.tables.setFile w.file
        fun f => { f with off := f.off + BitVec.ofInt 32 k } else x.1.mem.tables) = T := by
      rw [if_pos (by omega), hT]
    rw [← hset]
    rfl
  have hshared : w.Shared sb room ({ x.1 with mem := { x.1.mem with tables := T } }, x.2) := by
    have hold := hv.sim.tables
    refine ⟨D, { t with tables := T }, nd, hv.sim.setTables T, ⟨?_, ?_, ?_, hv.target.inum,
      hv.target.ref, hv.target.clean, hv.target.node⟩, hv.tally, hv.order, hv.room, hv.valid,
      hv.holder, fun hnone => ?_⟩
    · rw [hfile]
      exact hold ▸ hv.target.type
    · rw [hfile]
      exact hold ▸ hv.target.writable
    · rw [hfile]
      exact hold ▸ hv.target.ip
    · have hnone : w.holder x = none := hnone
      rw [h.holds] at hnone
      cases hnone
  refine ⟨fun _ => ⟨hshared, fun q hq => .of_free hq rfl (.inr h.holds) (.inr h.holds)⟩,
    hshared, h.holds, h.mine, ?_, h.order⟩
  have hoff := h.offset
  show (T.file w.file).off.toNat + 0 = _
  rw [hfile, hoffset]
  exact hoff

theorem Wrote.drop (h : w.Wrote sb room p i 0 x) :
    ∃ u, onBytes sb (w.pid p) (.iunlock w.ip) x.1 = .ok ((), u) ∧
      (w.rules sb room p).guar x (u, x.2) ∧ w.Idle sb room p i (u, x.2) := by
  obtain ⟨D, t, nd, hv⟩ := h.shared
  have href := hv.target.ref
  have hholds : (x.1.mem.inode w.ip).owner = some (w.pid p) := h.holds
  refine ⟨{ x.1 with mem := x.1.mem.setInode w.ip fun ip => { ip with owner := none } }, ?_, ?_⟩
  · have hget : (getInode w.ip).exec (onImage sb) x.1 = .ok (x.1.mem.inode w.ip, x.1) := rfl
    rw [hv.sim.ref w.ip, show (decode sb x.1).mem = x.1.mem from rfl] at href
    show (iunlock (w.pid p) w.ip).exec (onImage sb) x.1 = _
    rw [iunlock, Prog.exec_bind, hget, Outcome.bind_ok]
    dsimp only
    rw [if_neg (not_or.mpr ⟨not_not.mpr hholds, by omega⟩)]
    rfl
  have hholder : w.holder ({ x.1 with mem := x.1.mem.setInode w.ip fun ip =>
      { ip with owner := none } }, x.2) = none := by
    rw [holder, setInode_self]
  have hsim : Sim sb D (decode sb { x.1 with mem := x.1.mem.setInode w.ip fun ip =>
      { ip with owner := none } }) (t.setEntry w.ip fun y => { y with owner := none }) := by
    show Sim sb D { decode sb x.1 with mem := x.1.mem.setInode w.ip fun ip =>
      { ip with owner := none } } _
    exact hv.sim.setEntry ⟨rfl, rfl, rfl⟩ rfl (hv.sim.ref w.ip) rfl (hv.sim.valid w.ip) href id
      fun _ hd => absurd hd (by rw [hv.target.clean]; exact Bool.false_ne_true)
  have hshared : w.Shared sb room ({ x.1 with mem := x.1.mem.setInode w.ip fun ip =>
      { ip with owner := none } }, x.2) :=
    ⟨D, _, nd, hsim, hv.target.setEntry rfl rfl hv.target.clean, hv.tally, hv.order, hv.room,
      fun hne => absurd hholder hne, fun q hq => (by rw [hholder] at hq; cases hq),
      fun _ => ⟨h.offset, h.order⟩⟩
  refine ⟨fun _ => ⟨hshared, fun q hq => .of_free hq rfl (.inr h.holds) (.inl hholder)⟩,
    hshared, ?_, h.mine⟩
  rw [hholder]
  rintro ⟨⟩

/-! ### A call -/

theorem writeMax_pos : 0 < writeMax := by decide

/-- **The loop of `filewrite`** writes all that is left, whatever the others do. -/
theorem meets_filewriteLoop (p : ι) {fuel : ℕ} (hfuel : w.n p - i ≤ fuel) (hi : i ≤ w.n p)
    (hx : w.Idle sb room p i x) :
    (filewriteLoop w.file w.ip (w.src p) (w.n p) fuel i).Meets
      (Handler.logged seen p (onBytes sb (w.pid p))) (w.rules sb room p)
      (fun j y => j = w.n p ∧ w.Idle sb room p (w.n p) y) x := by
  induction fuel generalizing i x with
  | zero =>
    obtain rfl : i = w.n p := by omega
    exact Prog.meets_pure fun y hy => ⟨rfl, hx.rely hy⟩
  | succ fuel ih =>
    rw [filewriteLoop]
    by_cases hlt : i < w.n p
    swap
    · obtain rfl : i = w.n p := by omega
      rw [if_neg hlt]
      exact Prog.meets_pure fun y hy => ⟨rfl, hx.rely hy⟩
    rw [if_pos hlt]
    dsimp only
    obtain ⟨m, hm⟩ : ∃ m, m = min (w.n p - i) writeMax := ⟨_, rfl⟩
    have hpos := writeMax_pos
    rw [← hm]
    -- begin_op, ilock
    refine Prog.meets_call_bind (P := fun _ y => w.Idle sb room p i y)
      (fun y hy => allows_silent (hx.rely hy).shared rfl rfl rfl
        fun z hz _ => (hx.rely hy).rely hz) fun _ x₁ h₁ => ?_
    refine Prog.meets_call_bind (fun y hy => allows_ilock (h₁.rely hy)) fun _ x₂ h₂ => ?_
    -- f->off, writei
    refine Prog.meets_call_bind (P := fun f y => w.Held sb room p i y ∧ f.off.toNat = w.offset y)
      (fun y hy => allows_silent (h₂.rely hy).shared rfl rfl rfl fun z hz hmem =>
        ⟨(h₂.rely hy).rely hz, ?_⟩) fun f x₃ h₃ => ?_
    · rw [offset, hmem]
    obtain ⟨h₃, hoff⟩ := h₃
    refine Prog.meets_call_bind (P := fun r y => r = m ∧ w.Wrote sb room p (i + m) m y)
      (fun y hy => ?_) fun r x₄ h₄ => ?_
    · have hsame : w.offset y = w.offset x₃ := ((hy h₃.shared).2.locked h₃.holds).1
      rw [hoff, ← hsame]
      exact allows_writei (h₃.rely hy) (by omega)
    obtain ⟨rfl, h₄⟩ := h₄
    -- f->off += r, iunlock, end_op
    refine Prog.meets_call_bind (P := fun _ y => w.Wrote sb room p (i + m) 0 y) (fun y hy => ?_)
      fun _ x₅ h₅ => ?_
    · obtain ⟨u, hu, hg, hP⟩ := (h₄.rely hy).move (by omega)
      exact allows_quiet hu rfl hg hP
    refine Prog.meets_call_bind (P := fun _ y => w.Idle sb room p (i + m) y) (fun y hy => ?_)
      fun _ x₆ h₆ => ?_
    · obtain ⟨u, hu, hg, hP⟩ := (h₅.rely hy).drop
      exact allows_quiet hu rfl hg hP
    refine Prog.meets_call_bind (P := fun _ y => w.Idle sb room p (i + m) y)
      (fun y hy => allows_silent (h₆.rely hy).shared rfl rfl rfl
        fun z hz _ => (h₆.rely hy).rely hz) fun _ x₇ h₇ => ?_
    rw [if_neg (not_not.mpr rfl)]
    exact ih (by omega) (by omega) h₇

/-- **A call of `filewrite`** writes all its bytes and returns their number, whatever the
others do. -/
theorem meets_filewrite (p : ι) (hx : w.Idle sb room p 0 x) :
    (filewrite w.file (w.src p) (w.n p) (w.answer p)).Meets
      (Handler.logged seen p (onBytes sb (w.pid p))) (w.rules sb room p)
      (fun r y => r = w.n p ∧ w.Idle sb room p (w.n p) y) x := by
  refine Prog.meets_call_bind (P := fun f y => w.Idle sb room p 0 y ∧ f.writable = true ∧
    f.type = .inode ∧ f.ip = w.ip) (fun y hy => ?_) fun f y hf => ?_
  · have hy := hx.rely hy
    obtain ⟨D, t, nd, hv⟩ := hy.shared
    have htables : t.tables = y.1.mem.tables := hv.sim.tables
    refine allows_silent hy.shared rfl rfl rfl fun z hz _ => ⟨hy.rely hz, ?_, ?_, ?_⟩
    · exact htables ▸ hv.target.writable
    · exact htables ▸ hv.target.type
    · exact htables ▸ hv.target.ip
  · obtain ⟨hy, hwr, htype, hip⟩ := hf
    rw [hwr, htype, hip, Int.toNat_natCast]
    refine Prog.meets_bind (meets_filewriteLoop p (by omega) (Nat.zero_le _) hy) fun j z hz => ?_
    obtain ⟨rfl, hz⟩ := hz
    refine Prog.meets_pure fun z' hz' => ⟨if_pos rfl, hz.rely hz'⟩

/-- The number of operations of a call. -/
theorem within_filewriteLoop (f : Fin nfile) (ip : Fin ninode) (src : Src) (n fuel i : ℕ) :
    (filewriteLoop f ip src n fuel i).Within (7 * fuel) := by
  induction fuel generalizing i with
  | zero => exact Prog.within_pure ..
  | succ fuel ih =>
    rw [filewriteLoop]
    split
    · have hrest : ∀ r : ℤ, (if r ≠ min (n - i) writeMax then return i
          else filewriteLoop f ip src n fuel (i + min (n - i) writeMax) : FsProg ℕ).Within
          (7 * fuel) := by
        intro r
        split
        · exact Prog.within_pure ..
        · exact ih _
      exact fun _ _ _ r _ _ _ => hrest r
    · exact Prog.within_pure ..

theorem within_filewrite (f : Fin nfile) (src : Src) (n : ℕ) (answer : ℤ) :
    (filewrite f src n answer).Within (7 * n + 2) := by
  refine Prog.within_call_bind fun x => ?_
  split
  · exact Prog.within_pure ..
  · split
    · exact Prog.within_pure ..
    · split <;> exact Prog.within_pure ..
    · exact (within_filewriteLoop ..).bind fun _ => Prog.within_pure ..
    · exact fun _ => Prog.within_pure ..

/-! ### All calls -/

/-- A process locks the inode and reads. -/
def readBack (sb : Super) (q : Pid) (e : Fin ninode) (off n : ℕ) : DiskProg (ℤ × List UInt8) := do
  ilock q e
  let r ← readi sb e .kernel off n
  iunlock q e
  return r

variable (w) in
/-- **What the calls have done**, at any time: the chunks lie one after the other in the order
in which they locked the inode, and a call that has returned has written all its bytes. -/
structure Serial (sb : Super) (room : Prop) (s : Writing ι) : Prop where
  consecutive : Consecutive w.off (chunks s.shared.2)
  /-- The last to lock the inode may not have written yet. -/
  order : ∃ q : List ι, q.length ≤ 1 ∧
    lockers s.shared.2 = (chunks s.shared.2).map Prod.fst ++ q
  own : ∀ p, writtenBy (chunks s.shared.2) p <+: w.bytes p
  returns : ∀ p r, s.prog p = .pure r → r = w.n p ∧ writtenBy (chunks s.shared.2) p = w.bytes p
  /-- Nothing goes wrong, but that the disk may be too full. -/
  panics : ∀ p e, w.step sb s p = .panic e → e = .outOfBlocks ∧ ¬ room
  /-- As long as a call has not returned, one can go on. -/
  goes : ∀ p, (∀ r, s.prog p ≠ .pure r) → ∃ q, w.step sb s q ≠ .stuck
  ended : (∀ p, ∃ r, s.prog p = .pure r) → w.offset s.shared = w.off + ∑ p, w.n p ∧
    lockers s.shared.2 = (chunks s.shared.2).map Prod.fst ∧
    ∀ q, ∃ u, (readBack sb q w.ip w.off (∑ p, w.n p)).exec (onImage sb) s.shared.1
      = .ok (((∑ p, w.n p : ℕ), written (chunks s.shared.2)), u)

/-- Nobody has the inode locked when all calls have returned. -/
theorem Shared.holder_eq_none (h : w.Shared sb room x)
    (hfree : ∀ p, w.holder x ≠ some (w.pid p)) : w.holder x = none := by
  obtain ⟨D, t, nd, hv⟩ := h
  cases hx : w.holder x with
  | none => rfl
  | some q =>
    obtain ⟨p, rfl⟩ := hv.holder q hx
    exact absurd hx (hfree p)

theorem Shared.exec_readBack (h : w.Shared sb room x) (hfree : w.holder x = none) (q : Pid)
    (hlen : (written (chunks x.2)).length = ∑ p, w.n p) :
    ∃ u, (readBack sb q w.ip w.off (∑ p, w.n p)).exec (onImage sb) x.1
      = .ok (((∑ p, w.n p : ℕ), written (chunks x.2)), u) := by
  obtain ⟨D, t, nd, hv⟩ := h
  have hlt : maxfile * bsize < 2 ^ 32 := by decide
  have hsum := w.fits
  have hwp := hv.wp_ilock q
  unfold Prog.wp at hwp
  cases hc : (ilock q w.ip).exec (checked sb) (decode sb x.1) with
  | panic e =>
    rw [hc] at hwp
    exact hwp.elim
  | stuck => exact absurd hfree (ilock_waits hc)
  | ok r =>
    obtain ⟨u, hu, hdec⟩ := exec_onImage_of_ok hc
    rw [hc] at hwp
    obtain ⟨-, hk⟩ := hwp
    rw [← hdec] at hk
    -- the inode is loaded and locked now
    have hinum : ((t.setEntry w.ip fun y => { y with owner := some q, valid := true }).entry
        w.ip).inum = w.inum := by rw [setEntry_self]; exact hv.target.inum
    have href : 0 < ((t.setEntry w.ip fun y => { y with owner := some q, valid := true }).entry
        w.ip).ref := by rw [setEntry_self]; exact hv.target.ref
    have hholds := hk.sim.holds (e := w.ip) href (by rw [setEntry_self])
    rw [hinum] at hholds
    have hdata : fileData (decode sb u).blk (D w.inum)
        = writeString w.data w.off (written (chunks x.2)) := by
      obtain ⟨-, hnd⟩ := hk.sim.node_eq (i := w.inum) hv.target.node
      rw [← hv.tally.data, hnd]
      rfl
    have hread := hholds.readsAs w.off (∑ p, w.n p) (by omega)
    rw [hdata, ← hlen, readString_writeString w.le (by omega), hlen] at hread
    have howner := hk.sim.owner w.ip
    have href' := hk.sim.ref w.ip
    rw [setEntry_self] at howner href'
    have howner : (u.mem.inode w.ip).owner = some q := howner.symm
    have href' : ¬ (u.mem.inode w.ip).ref < 1 := by
      have hpos := hv.target.ref
      have heq : (t.entry w.ip).ref = (u.mem.inode w.ip).ref := href'
      omega
    have hget : (getInode w.ip).exec (onImage sb) u = .ok (u.mem.inode w.ip, u) := rfl
    rw [readBack, Prog.exec_bind, hu, Outcome.bind_ok, Prog.exec_bind, hread, Outcome.bind_ok,
      Prog.exec_bind, iunlock, Prog.exec_bind, hget, Outcome.bind_ok]
    dsimp only
    rw [if_neg (not_or.mpr ⟨not_not.mpr howner, href'⟩)]
    exact ⟨_, rfl⟩

section Start

variable {D : ℕ → Dinode} {t : Abs} {nd : Node} {u : Image}

omit [DecidableEq ι] in
theorem Opened.holder (ho : w.Opened t nd) (h : Sim sb D (decode sb u) t) :
    w.holder (u, []) = none := (h.owner w.ip).symm.trans ho.free

/-- At the start, nothing has been written. -/
theorem Opened.shared (ho : w.Opened t nd) (h : Sim sb D (decode sb u) t) :
    w.Shared sb (w.Room sb u D) (u, []) := by
  have hfree := ho.holder h
  have hoff : w.offset (u, []) = w.off := by
    rw [← ho.off, h.tables]
    rfl
  have hdata : nd.data = writeString w.data w.off [] := by
    rw [ho.data, writeString, List.append_nil, List.length_nil, Nat.add_zero, List.take_append_drop]
  refine ⟨D, t, nd, h, ho.toTarget, ⟨hdata, trivial, fun p => List.nil_prefix⟩,
    ⟨[], Nat.zero_le 1, rfl⟩, fun hroom => hroom, fun hne => absurd hfree hne, fun q hq => ?_,
    fun _ => ⟨hoff, rfl⟩⟩
  rw [hfree] at hq
  cases hq

theorem Opened.idle (ho : w.Opened t nd) (h : Sim sb D (decode sb u) t) (p : ι) :
    w.Idle sb (w.Room sb u D) p 0 (u, []) :=
  ⟨ho.shared h, by rw [ho.holder h]; exact nofun, rfl⟩

end Start

end Writers

/-- **Writers through one `struct file` lose nothing.**  In every run of the calls side by
side, the chunks lie one after the other from the offset on, in the order in which they locked
the inode, and those of one call in the order of its bytes.  A call that returns returns its
number of bytes and has written them all.  Unless there are too few free blocks, no call
panics; some call can always go on, and runs are bounded.  When all calls have returned, the
offset has moved by the sum of their numbers, and that range reads back as the chunks. -/
theorem shared_writers [DecidableEq ι] (w : Writers ι) {sb : Super} {D : ℕ → Dinode} {t : Abs}
    {nd : Node} {u : Image} (h : Sim sb D (decode sb u) t) (ho : w.Opened t nd) :
    (∀ s, Reach (w.step sb) (fun _ _ => True) (w.start u) s → w.Serial sb (w.Room sb u D) s) ∧
      ∀ ps s, run (w.step sb) (w.start u) ps = .ok s → ps.length ≤ ∑ p, (7 * w.n p + 2) := by
  refine ⟨fun s hs => ?_, fun ps s hrun =>
    Threads.length_le_of_run (fun p => Writers.within_filewrite _ _ _ _) hrun⟩
  have hidle := ho.idle h
  have hstart := ho.shared h
  generalize w.Room sb u D = room at *
  have hc : ∀ p q, p ≠ q → ∀ x y, (w.rules sb room p).guar x y → (w.rules sb room q).rely x y :=
    fun p q hpq x y hg hx => ⟨(hg hx).1, (hg hx).2 q (Ne.symm hpq)⟩
  have h₀ : ∀ p, ((w.start u).prog p).Meets (Handler.logged seen p (onBytes sb (w.pid p)))
      (w.rules sb room p) (fun r y => r = w.n p ∧ w.Idle sb room p (w.n p) y) (w.start u).shared :=
    fun p => Writers.meets_filewrite p (hidle p)
  have hmeets := Threads.meets_of_reach hc h₀ hs
  have hshared : w.Shared sb room s.shared :=
    Threads.invariant_of_reach hc (fun _ _ _ hg hx => (hg hx).1) h₀ hstart hs
  have hdone : ∀ p r, s.prog p = .pure r → r = w.n p ∧ w.Idle sb room p (w.n p) s.shared :=
    fun p r hr => Threads.post_of_pure (h := fun p => Handler.logged seen p (onBytes sb (w.pid p)))
      (c := w.rules sb room p) (Q := fun (r : ℤ) y => r = w.n p ∧ w.Idle sb room p (w.n p) y)
      (hmeets p) hr
  have hbytes : ∀ p, (w.bytes p).take (w.n p) = w.bytes p := fun p =>
    List.take_of_length_le (Nat.le_of_eq (w.full p))
  obtain ⟨D', t', nd', hv⟩ := hshared
  refine ⟨hv.tally.consecutive, hv.order, hv.tally.own, fun p r hr => ?_,
    fun p e he => Threads.panics_of_panic (hmeets p) he, fun p hp => ?_, fun hall => ?_⟩
  · obtain ⟨hr, hidle⟩ := hdone p r hr
    exact ⟨hr, hidle.mine.trans (hbytes p)⟩
  · -- if this call has to wait, the one it waits for can go on
    by_contra hnone
    have hstuck : ∀ q, w.step sb s q = .stuck := fun q => by
      by_contra hq
      exact hnone ⟨q, hq⟩
    obtain ⟨hheld, -⟩ := Threads.waits_of_stuck (hmeets p) hp (hstuck p)
    obtain ⟨q', hq'⟩ := Option.ne_none_iff_exists'.mp hheld
    obtain ⟨q, rfl⟩ := hv.holder q' hq'
    have hq : ∀ r, s.prog q ≠ .pure r := fun r hr => (hdone q r hr).2.free hq'
    obtain ⟨-, hother⟩ := Threads.waits_of_stuck (hmeets q) hq (hstuck q)
    exact hother hq'
  · have hidle : ∀ p, w.Idle sb room p (w.n p) s.shared := fun p => by
      obtain ⟨r, hr⟩ := hall p
      exact (hdone p r hr).2
    have hfree := Writers.Shared.holder_eq_none ⟨D', t', nd', hv⟩ fun p => (hidle p).free
    have hlen : (written (chunks s.shared.2)).length = ∑ p, w.n p := by
      rw [length_written]
      refine Finset.sum_congr rfl fun p _ => ?_
      rw [(hidle p).mine, hbytes p]
      exact w.full p
    obtain ⟨hoff, hord⟩ := hv.settled hfree
    exact ⟨by rw [hoff, hlen], hord,
      fun q => Writers.Shared.exec_readBack ⟨D', t', nd', hv⟩ hfree q hlen⟩

/-- Two processes with three bytes each, and the file in the first `struct file`. -/
def twoWriters : Writers (Fin 2) where
  file := ⟨0, by decide⟩
  ip := ⟨1, by decide⟩
  inum := 2
  off := 0
  data := []
  pid := fun p => ⟨p.val, Nat.lt_of_lt_of_le p.isLt (by decide)⟩
  src := fun p => .kernel [UInt8.ofNat p.val, 5, 6]
  n := fun _ => 3
  answer := fun _ => 0
  inj := fun p q h => Fin.ext (Fin.mk.inj h)
  full := fun p => rfl
  le := Nat.le_refl 0
  fits := by decide

/-- The two write to a new file. -/
theorem shared_writers_two : ∃ u, run (Fs.step Mkfs.mkfsSuper) (boot emptyImage.disk)
      [(init, .open (pathArg [120]) (oCreate ||| oRdwr))] = .ok u ∧
    ∀ s, Reach (twoWriters.step Mkfs.mkfsSuper) (fun _ _ => True) (twoWriters.start u) s →
      twoWriters.Serial Mkfs.mkfsSuper
        (twoWriters.Room Mkfs.mkfsSuper u (decode Mkfs.mkfsSuper u).dinode) s := by
  have hrun : (run (Fs.step Mkfs.mkfsSuper) (boot emptyImage.disk)
      [(init, .open (pathArg [120]) (oCreate ||| oRdwr))]).check (fun u =>
        (u.mem.tables.file twoWriters.file).type = .inode &&
        (u.mem.tables.file twoWriters.file).writable &&
        (u.mem.tables.file twoWriters.file).ip = twoWriters.ip &&
        (u.mem.tables.file twoWriters.file).off.toNat = 0 &&
        (u.mem.inode twoWriters.ip).inum = 2 && 0 < (u.mem.inode twoWriters.ip).ref &&
        (u.mem.inode twoWriters.ip).owner = none &&
        ((view Mkfs.mkfsSuper u).node 2).map Node.data = some []) = true := by decide +kernel
  obtain ⟨u, hu, htest⟩ := Outcome.exists_of_check hrun
  simp only [Bool.and_eq_true, decide_eq_true_eq] at htest
  obtain ⟨⟨⟨⟨⟨⟨⟨htype, hwr⟩, hip⟩, hoff⟩, hinum⟩, href⟩, howner⟩, hnode⟩ := htest
  obtain ⟨nd, hnode, hdata⟩ := Option.map_eq_some_iff.mp hnode
  have hsound := sound_emptyImage.of_run (by decide +kernel) hu
  exact ⟨u, hu, (shared_writers twoWriters hsound.sim
    ⟨⟨htype, hwr, hip, hinum, href, rfl, hnode⟩, hoff, hdata, howner⟩).1⟩

end Xv6.Fs
