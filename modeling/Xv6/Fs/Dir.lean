import Xv6.Fs.Inode

/-!
# Directories and path names

The second half of `kernel/fs.c`, written against the interface of the inode layer, with
the string functions it uses.

## Main definitions

* `InodeOp`, `inodeImpl` — the operations of the inode layer, and the code behind them.
* `strncmp`, `strncpy`, `namecmp` — strings, given as the characters before the `NUL`.
* `dirlookup`, `dirlink` — directories.
* `skipelem`, `namex`, `namei`, `nameiparent` — path names.
-/

namespace Xv6.Fs

/-! ### The interface of the inode layer -/

/-- The fields of an inode that callers assign to. -/
structure Links where
  major : BitVec 16
  minor : BitVec 16
  nlink : BitVec 16

/-- The fields of an inode that callers read. -/
structure Attr extends Links where
  type : BitVec 16
  size : ℕ

/-- The fields callers read, of an inode in memory. -/
def Dinode.attr (d : Dinode) : Attr := ⟨⟨d.major, d.minor, d.nlink⟩, d.type, d.size.toNat⟩

/-- Assign to the fields callers assign to. -/
def Dinode.setLinks (d : Dinode) (f : Links → Links) : Dinode :=
  let l := f ⟨d.major, d.minor, d.nlink⟩
  { d with major := l.major, minor := l.minor, nlink := l.nlink }

/-- The operations of the inode layer. -/
inductive InodeOp : Type → Type 1
  | iget (dev inum : ℕ) : InodeOp (Fin ninode)
  | idup (e : Fin ninode) : InodeOp Unit
  | ilock (e : Fin ninode) : InodeOp Unit
  | iunlock (e : Fin ninode) : InodeOp Unit
  | iput (e : Fin ninode) : InodeOp Unit
  | ialloc (dev : ℕ) (type : BitVec 16) : InodeOp (Fin ninode)
  | iupdate (e : Fin ninode) : InodeOp Unit
  | itrunc (e : Fin ninode) : InodeOp Unit
  | ident (e : Fin ninode) : InodeOp (ℕ × ℕ) -- `ip->dev` and `ip->inum`
  | attr (e : Fin ninode) : InodeOp Attr -- the other fields
  | setLinks (e : Fin ninode) (f : Links → Links) : InodeOp Unit -- assignments to them
  | readi (e : Fin ninode) (dst : Dst) (off n : ℕ) : InodeOp (ℤ × List UInt8)
  | writei (e : Fin ninode) (src : Src) (off n : ℕ) : InodeOp ℤ
  | tables {β : Type} (f : Tables → Outcome Panic (β × Tables)) : InodeOp β
  | beginOp : InodeOp Unit
  | endOp : InodeOp Unit

/-- The code of the inode layer, run by process `p`. -/
def inodeImpl (sb : Super) (p : Pid) : ∀ {β : Type}, InodeOp β → DiskProg β
  | _, .iget dev inum => iget dev inum
  | _, .idup e => idup e
  | _, .ilock e => ilock p e
  | _, .iunlock e => iunlock p e
  | _, .iput e => iput p e
  | _, .ialloc dev type => ialloc sb dev type
  | _, .iupdate e => iupdate e
  | _, .itrunc e => itrunc e
  | _, .ident e => do
    let ip ← getInode e
    return (ip.dev, ip.inum)
  | _, .attr e => do
    let ip ← getInode e
    return ip.d.attr
  | _, .setLinks e f => setInode e fun ip => { ip with d := ip.d.setLinks f }
  | _, .readi e dst off n => readi sb e dst off n
  | _, .writei e src off n => writei sb e src off n
  | _, .tables f => onMem fun m => (f m.tables).bind fun r => .ok (r.1, { m with tables := r.2 })
  | _, .beginOp => Prog.call .beginOp
  | _, .endOp => Prog.call .endOp

/-- Code written against the inode layer. -/
abbrev FsProg (α : Type) : Type 1 := Prog InodeOp α

/-- A critical section on the tables of open files. -/
def onTables {β : Type} (f : Tables → Outcome Panic (β × Tables)) : FsProg β :=
  Prog.call (.tables f)

/-- `panic(...)`. -/
def fsPanic {α : Type} (e : Panic) : FsProg α := onTables fun _ => .panic e

/-- `iunlockput`. -/
def iunlockput (e : Fin ninode) : FsProg Unit := do
  Prog.call (.iunlock e)
  Prog.call (.iput e)

/-! ### Strings -/

/-- `strncmp`.  Reading a string past its last character gives the `NUL`. -/
def strncmp : ℕ → List UInt8 → List UInt8 → ℤ
  | 0, _, _ => 0
  | n + 1, p, q =>
    if p.headD 0 ≠ 0 ∧ p.headD 0 = q.headD 0 then strncmp n p.tail q.tail
    else (p.headD 0).toNat - (q.headD 0).toNat

/-- The `n` bytes `strncpy` stores. -/
def strncpy : ℕ → List UInt8 → List UInt8
  | 0, _ => []
  | n + 1, t => if t.headD 0 = 0 then List.replicate (n + 1) 0 else t.headD 0 :: strncpy n t.tail

/-- `namecmp`. -/
def namecmp (s t : List UInt8) : ℤ := strncmp dirsiz s t

def slash : UInt8 := 47 -- '/'
def dot : List UInt8 := [46] -- "."
def dotdot : List UInt8 := [46, 46] -- ".."

/-! ### Directories -/

/-- The loop of `dirlookup`, at offset `off`. -/
def dirlookupLoop (dp : Fin ninode) (name : List UInt8) (dev size : ℕ) :
    ℕ → ℕ → FsProg (Option (Fin ninode × ℕ))
  | 0, _ => return none
  | fuel + 1, off =>
    if off < size then do
      let r ← Prog.call (.readi dp .kernel off direntSize)
      if r.1 ≠ direntSize then fsPanic .dirlookupRead
      else
        let de := getDirent r.2
        if de.inum = 0 then dirlookupLoop dp name dev size fuel (off + direntSize)
        else if namecmp name de.name = 0 then do
          let ip ← Prog.call (.iget dev de.inum.toNat)
          return some (ip, off)
        else dirlookupLoop dp name dev size fuel (off + direntSize)
    else return none

/-- `dirlookup`: the entry's inode, and its offset `*poff`. -/
def dirlookup (dp : Fin ninode) (name : List UInt8) : FsProg (Option (Fin ninode × ℕ)) := do
  let a ← Prog.call (.attr dp)
  if a.type ≠ tDir then fsPanic .dirlookupNotDir
  else do
    let id ← Prog.call (.ident dp)
    dirlookupLoop dp name id.1 a.size (a.size / direntSize + 1) 0

/-- The loop of `dirlink`: the offset of the first empty entry, or the end. -/
def emptyLoop (dp : Fin ninode) (size : ℕ) : ℕ → ℕ → FsProg ℕ
  | 0, off => return off
  | fuel + 1, off =>
    if off < size then do
      let r ← Prog.call (.readi dp .kernel off direntSize)
      if r.1 ≠ direntSize then fsPanic .dirlinkRead
      else if (getDirent r.2).inum = 0 then return off
      else emptyLoop dp size fuel (off + direntSize)
    else return off

/-- The entry `dirlink` makes. -/
def newEntry (name : List UInt8) (inum : ℕ) : Dirent := ⟨BitVec.ofNat 16 inum, strncpy dirsiz name⟩

/-- `dirlink`. -/
def dirlink (dp : Fin ninode) (name : List UInt8) (inum : ℕ) : FsProg ℤ := do
  match ← dirlookup dp name with
  | some (ip, _) =>
    Prog.call (.iput ip)
    return -1
  | none =>
    let a ← Prog.call (.attr dp)
    let off ← emptyLoop dp a.size (a.size / direntSize + 1) 0
    let r ← Prog.call (.writei dp (.kernel (newEntry name inum).bytes) off direntSize)
    if r ≠ direntSize then fsPanic .dirlink else return 0

/-! ### Paths -/

/-- `skipelem`: the rest of the path and the first element, or `none` if there is none. -/
def skipelem (path : List UInt8) : Option (List UInt8 × List UInt8) :=
  let s := path.dropWhile (· == slash)
  if s = [] then none
  else some ((s.dropWhile (· != slash)).dropWhile (· == slash),
    (s.takeWhile (· != slash)).take dirsiz)

/-- The loop of `namex`, at directory `ip` with `path` to go. -/
def namexLoop (nameiparent : Bool) : ℕ → Fin ninode → List UInt8 →
    FsProg (Option (Fin ninode × List UInt8))
  | 0, _, _ => return none
  | fuel + 1, ip, path =>
    match skipelem path with
    | none =>
      if nameiparent then do
        Prog.call (.iput ip)
        return none
      else return some (ip, [])
    | some (rest, name) => do
      Prog.call (.ilock ip)
      let a ← Prog.call (.attr ip)
      if a.type ≠ tDir then do
        iunlockput ip
        return none
      else if nameiparent && rest.isEmpty then do
        -- stop one level early
        Prog.call (.iunlock ip)
        return some (ip, name)
      else do
        match ← dirlookup ip name with
        | none =>
          iunlockput ip
          return none
        | some (next, _) =>
          iunlockput ip
          namexLoop nameiparent fuel next rest

/-- `myproc()->cwd`; a process without one runs no code. -/
def myCwd (p : Pid) : FsProg (Fin ninode) := onTables fun t =>
  match (t.proc p).cwd with
  | some e => .ok (e, t)
  | none => .stuck

/-- Where `namex` starts: at the root, or at the current directory. -/
def namexStart (p : Pid) (path : List UInt8) : FsProg (Fin ninode) :=
  if path.head? = some slash then Prog.call (.iget rootdev.toNat rootino.toNat)
  else do
    let cwd ← myCwd p
    Prog.call (.idup cwd)
    return cwd

/-- `namex`: the inode, and for `nameiparent` the last element. -/
def namex (p : Pid) (path : List UInt8) (nameiparent : Bool) :
    FsProg (Option (Fin ninode × List UInt8)) := do
  let ip ← namexStart p path
  namexLoop nameiparent (path.length + 1) ip path

/-- `namei`. -/
def namei (p : Pid) (path : List UInt8) : FsProg (Option (Fin ninode)) := do
  let r ← namex p path false
  return r.map Prod.fst

/-- `nameiparent`. -/
def nameiparent (p : Pid) (path : List UInt8) : FsProg (Option (Fin ninode × List UInt8)) :=
  namex p path true

end Xv6.Fs
