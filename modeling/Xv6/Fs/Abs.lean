import Xv6.Fs.Decode

/-!
# What the inode layer is for

The operations of the inode layer on files that are strings of bytes.  There are no
blocks, no bit map and no cached copies: an inode number has a node or has none, and an
entry of the inode table names the node it stands for.

Code that calls the layer must keep its rules: use entries it has a reference to, read and
change an inode only while it has it locked, and write a changed inode back before
unlocking it.  Where a call breaks a rule the operation is a fault.

## Main definitions

* `Node` — an inode and its contents.
* `Node.read`, `Node.write` — what `readi` returns, and what `writei` makes of a file.
* `Abs`, `onAbs` — the abstract state, and what the operations do to it.
-/

namespace Xv6.Fs

/-- An inode and its contents. -/
@[ext]
structure Node where
  type : BitVec 16
  major : BitVec 16
  minor : BitVec 16
  nlink : BitVec 16
  data : List UInt8
  deriving DecidableEq

namespace Node

/-- The fields callers read. -/
def attr (nd : Node) : Attr := ⟨⟨nd.major, nd.minor, nd.nlink⟩, nd.type, nd.data.length⟩

/-- Assign to the fields callers assign to. -/
def setLinks (nd : Node) (f : Links → Links) : Node :=
  let l := f ⟨nd.major, nd.minor, nd.nlink⟩
  { nd with major := l.major, minor := l.minor, nlink := l.nlink }

/-- How many bytes a read of `n` bytes at `off` asks for. -/
def readLength (size off n : ℕ) : ℕ :=
  if size < off ∨ (off + n) % 2 ^ 32 < off then 0
  else if size < (off + n) % 2 ^ 32 then size - off else n

/-- What `readi` returns: the count or -1, and the bytes stored. -/
def read (nd : Node) (dst : Dst) (off n : ℕ) : ℤ × List UInt8 :=
  let n := readLength nd.data.length off n
  let k := dst.room 0 n
  (if k < n then -1 else n, (nd.data.drop off).take k)

/-- Where a write of `n` bytes at `off` ends, if `k` bytes could be fetched: a write that
fails counts the blocks it completed. -/
def writeStop (off n k : ℕ) : ℕ := if k = n then off + n else max off ((off + k) / bsize * bsize)

/-- A string of bytes with some replaced, extended to `size` bytes if it is shorter. -/
def overlay (data : List UInt8) (off : ℕ) (bytes : List UInt8) (size : ℕ) : List UInt8 :=
  (List.range (max data.length size)).map fun x =>
    if off ≤ x ∧ x < off + bytes.length then bytes.getD (x - off) 0 else data.getD x 0

/-- What `writei` returns, and the contents it leaves. -/
def write (nd : Node) (src : Src) (off n : ℕ) : ℤ × List UInt8 :=
  if nd.data.length < off ∨ (off + n) % 2 ^ 32 < off then (-1, nd.data)
  else if maxfile * bsize < (off + n) % 2 ^ 32 then (-1, nd.data)
  else
    let bytes := src.fetch 0 n
    let stop := writeStop off n bytes.length
    ((stop - off : ℕ), overlay nd.data off bytes stop)

end Node

/-- The bytes a user buffer delivers before the first address that is not mapped. -/
theorem length_filterMap_takeWhile {α : Type} (l : List (Option α)) :
    ((l.takeWhile Option.isSome).filterMap id).length = (l.takeWhile Option.isSome).length := by
  induction l with
  | nil => rfl
  | cons x l ih =>
    cases x with
    | none => rfl
    | some a => exact congrArg Nat.succ ih

theorem length_fetch_le (src : Src) (tot m : ℕ) : (src.fetch tot m).length ≤ m := by
  cases src with
  | kernel bytes => simp [Src.fetch]
  | user va mem =>
    unfold Src.fetch
    dsimp only
    rw [length_filterMap_takeWhile]
    have hle := (List.takeWhile_sublist (l := (List.range m).map fun i =>
      mem (va + BitVec.ofNat 64 (tot + i))) Option.isSome).length_le
    rwa [List.length_map, List.length_range] at hle

/-- An entry of the inode table. -/
structure Entry where
  inum : ℕ -- inode number
  ref : ℤ -- reference count
  owner : Option Pid -- the holder of the lock
  valid : Bool -- has been locked since it was taken
  dirty : Bool -- has been assigned to since it was written back

/-- The inode table, the nodes and the tables of open files. -/
structure Abs where
  entry : Fin ninode → Entry
  node : ℕ → Option Node
  tables : Tables

namespace Abs

/-- Change one entry of the inode table. -/
def setEntry (s : Abs) (e : Fin ninode) (f : Entry → Entry) : Abs :=
  { s with entry := Function.update s.entry e (f (s.entry e)) }

/-- Change the node of one inode. -/
def setNode (s : Abs) (i : ℕ) (nd : Option Node) : Abs :=
  { s with node := Function.update s.node i nd }

/-- The node an entry stands for, if process `p` has it locked. -/
def locked (s : Abs) (p : Pid) (e : Fin ninode) : Option Node :=
  if 0 < (s.entry e).ref ∧ (s.entry e).owner = some p ∧ (s.entry e).valid then
    s.node (s.entry e).inum
  else none

/-- `iget` on the root device. -/
def iget (s : Abs) (inum : ℕ) : Outcome (Option Panic) (Fin ninode × Abs) :=
  match (List.finRange ninode).find? fun e =>
      0 < (s.entry e).ref && (s.entry e).inum == inum with
  | some e => .ok (e, s.setEntry e fun x => { x with ref := x.ref + 1 })
  | none =>
    match (List.finRange ninode).find? fun e => (s.entry e).ref == 0 with
    | some e => .ok (e, s.setEntry e fun x => { x with inum := inum, ref := 1, valid := false })
    | none => .panic (some .igetNoInodes)

/-- The link count of the node an entry stands for is zero. -/
def unlinked (s : Abs) (e : Fin ninode) : Prop :=
  (s.node (s.entry e).inum).map Node.nlink = some 0

instance (s : Abs) (e : Fin ninode) : Decidable (s.unlinked e) :=
  inferInstanceAs (Decidable (_ = _))

end Abs

section Fields

variable {t : Abs} {e : Fin ninode} {p : Pid} {nd : Node} {g : Entry → Entry} {i : ℕ}
  {o : Option Node}

@[simp] theorem setEntry_self : (t.setEntry e g).entry e = g (t.entry e) := Function.update_self ..

theorem setEntry_of_ne {e' : Fin ninode} (h : e' ≠ e) : (t.setEntry e g).entry e' = t.entry e' :=
  Function.update_of_ne h ..

@[simp] theorem setEntry_node : (t.setEntry e g).node = t.node := rfl

@[simp] theorem setEntry_tables : (t.setEntry e g).tables = t.tables := rfl

@[simp] theorem setNode_entry : (t.setNode i o).entry = t.entry := rfl

@[simp] theorem setNode_node : (t.setNode i o).node = Function.update t.node i o := rfl

@[simp] theorem setNode_tables : (t.setNode i o).tables = t.tables := rfl

theorem locked_eq_some : t.locked p e = some nd ↔ (0 < (t.entry e).ref ∧
    (t.entry e).owner = some p ∧ (t.entry e).valid) ∧ t.node (t.entry e).inum = some nd := by
  rw [Abs.locked]
  split
  · next h => exact ⟨fun hn => ⟨h, hn⟩, fun hn => hn.2⟩
  · next h => exact ⟨fun hn => (nomatch hn), fun hn => absurd hn.1 h⟩

end Fields

variable (sb : Super) (p : Pid)

/-- Go on with the node `e` stands for, if it is locked. -/
def withLocked {β : Type} (s : Abs) (e : Fin ninode)
    (k : Node → Outcome (Option Panic) (β × Abs)) : Outcome (Option Panic) (β × Abs) :=
  match s.locked p e with
  | some nd => k nd
  | none => .panic none

/-- The operations of the inode layer, called by process `p`. -/
def onAbs : Handler InodeOp (Option Panic) Abs := fun {_} o s =>
  match o with
  | .iget dev inum =>
    if dev = rootdev.toNat ∧ inum < sb.ninodes then s.iget inum else .panic none
  | .idup e =>
    if 0 < (s.entry e).ref then .ok ((), s.setEntry e fun x => { x with ref := x.ref + 1 })
    else .panic none
  | .ilock e =>
    if (s.entry e).ref < 1 then .panic (some .ilock)
    else if (s.entry e).owner ≠ none then .stuck
    else if (s.entry e).valid || (s.node (s.entry e).inum).isSome then
      .ok ((), s.setEntry e fun x => { x with owner := some p, valid := true })
    else .panic (some .noType)
  | .iunlock e =>
    if (s.entry e).owner ≠ some p ∨ (s.entry e).ref < 1 then .panic (some .iunlock)
    else if (s.entry e).dirty then .panic none
    else .ok ((), s.setEntry e fun x => { x with owner := none })
  | .iput e =>
    if (s.entry e).ref < 1 ∨ (s.entry e).dirty then .panic none
    else if (s.entry e).ref = 1 ∧ (s.entry e).valid ∧ s.unlinked e then
      if (s.entry e).owner = none then
        .ok ((), (s.setNode (s.entry e).inum none).setEntry e
          fun x => { x with ref := 0, valid := false })
      else .stuck
    else .ok ((), s.setEntry e fun x => { x with ref := x.ref - 1 })
  | .ialloc dev type =>
    if dev = rootdev.toNat ∧ type ≠ 0 then
      match (List.range' 1 (sb.ninodes - 1)).find? fun i => (s.node i).isNone with
      | some i => (s.setNode i (some ⟨type, 0, 0, 0, []⟩)).iget i
      | none => .panic (some .noInodes)
    else .panic none
  | .iupdate e => withLocked p s e fun _ =>
    .ok ((), s.setEntry e fun x => { x with dirty := false })
  | .itrunc e => withLocked p s e fun nd =>
    .ok ((), (s.setNode (s.entry e).inum (some { nd with data := [] })).setEntry e
      fun x => { x with dirty := false })
  | .ident e =>
    if 0 < (s.entry e).ref then .ok ((rootdev.toNat, (s.entry e).inum), s) else .panic none
  | .attr e => withLocked p s e fun nd => .ok (nd.attr, s)
  | .setLinks e f => withLocked p s e fun nd =>
    .ok ((), (s.setNode (s.entry e).inum (some (nd.setLinks f))).setEntry e
      fun x => { x with dirty := true })
  | .readi e dst off n => withLocked p s e fun nd =>
    if n < 2 ^ 32 then .ok (nd.read dst off n, s) else .panic none
  | .writei e src off n => withLocked p s e fun nd =>
    if n < 2 ^ 32 then
      let r := nd.write src off n
      if r.1 = -1 then .ok (r.1, s)
      else .ok (r.1, (s.setNode (s.entry e).inum (some { nd with data := r.2 })).setEntry e
        fun x => { x with dirty := false })
    else .panic none
  | .tables f => ((f s.tables).bind fun r => .ok (r.1, { s with tables := r.2 })).mapPanic some
  | .beginOp => .ok ((), s)
  | .endOp => .ok ((), s)

end Xv6.Fs
