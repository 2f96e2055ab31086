import Xv6.Mkfs.Boot
import Xv6.Mkfs.Invariant

/-!
# The kernel reads what mkfs wrote

A kernel started on an image finds every input file under its name, and reads its bytes.  A
name that is not there is searched for to the end of the root directory; if the entries end
with a full block, the search reads the block that is not there, and takes a free block for
it.

## Main definitions

* `findFile` — look up a name in the root directory, and read from the file.
* `Agrees` — the kernel finds the input files, and no others.
* `Booted` — what the kernel finds on the disk.

## Main results

* `mkfs_agrees_iff` — the kernel and mkfs agree on the format, unless the search for a name
  that is not there needs a block and there is none.
-/

namespace Xv6.Mkfs

open Function Fs

/-- What the kernel finds under a name in the root directory: the fields of the inode, and
what `readi` returns for a part of its contents. -/
def findFile (name : List UInt8) (off n : ℕ) : FsProg (Option (Attr × ℤ × List UInt8)) := do
  let dp ← Prog.call (.iget rootdev.toNat rootino.toNat)
  Prog.call (.ilock dp)
  match ← dirlookup dp name with
  | none => return none
  | some (ip, _) => do
    Prog.call (.ilock ip)
    let a ← Prog.call (.attr ip)
    let r ← Prog.call (.readi ip .kernel off n)
    return some (a, r)

/-- The same, done by process `p` of a kernel just started on the image. -/
def runFind (s : State) (p : Pid) (name : List UInt8) (off n : ℕ) :
    Outcome Panic (Option (Attr × ℤ × List UInt8) × Image) :=
  ((findFile name off n).expand (inodeImpl mkfsSuper p)).exec (onImage mkfsSuper) (boot s.disk)

/-- **The kernel finds the input files, and no others.** -/
structure Agrees (files : List Input) (s : State) : Prop where
  found : ∀ f ∈ files, ∀ p name off n, cname name = cname (nameOf f) →
    off + n ≤ f.chunks.flatten.length →
    ∃ a s', runFind s p name off n
        = .ok (some (a, (n : ℤ), (f.chunks.flatten.drop off).take n), s') ∧
      a.type = tFile ∧ a.nlink = 1 ∧ a.size = f.chunks.flatten.length
  absent : ∀ p name off n, (∀ f ∈ files, cname name ≠ cname (nameOf f)) → cname name ≠ dot →
    cname name ≠ dotdot → ∃ s', runFind s p name off n = .ok (none, s')

/-! ### Steps on the decoded disk -/

/-- The inode layer on a structured disk. -/
def atStore (p : Pid) : Handler InodeOp (Option Panic) Store := fun o =>
  (inodeImpl mkfsSuper p o).exec (checked mkfsSuper)

section Steps

variable {p : Pid} {t : Store} {D : ℕ → Dinode} {e : Fin ninode} {i : ℕ}

theorem atStore_readi (p : Pid) (dst : Dst) (off : ℕ) {n : ℕ} (h : Loaded mkfsSuper D e i t)
    (hn : n < 2 ^ 32)
    (hmap : ∀ bn, bn * bsize < off + n → bn * bsize < (D i).size.toNat →
      blockOf t.blk (D i) bn ≠ 0) :
    atStore p (.readi e dst off n) t = .ok ((nodeOf t.blk (D i)).read dst off n, t) :=
  Prog.exec_eq_of_wp fun _ _ => wp_readi_mapped h hn hmap

theorem atStore_attr (h : (t.mem.inode e).d = D i) :
    atStore p (.attr e) t = .ok ((D i).attr, t) := by
  rw [← h]
  rfl

theorem atStore_ident : atStore p (.ident e) t
    = .ok (((t.mem.inode e).dev, (t.mem.inode e).inum), t) := rfl

/-- An inode is read into the table when it is locked for the first time. -/
theorem atStore_ilock (href : ¬ (t.mem.inode e).ref < 1) (howner : (t.mem.inode e).owner = none)
    (hv : (t.mem.inode e).valid = false) (hi : (t.mem.inode e).inum = i)
    (hu : Used mkfsSuper t.dinode i) : atStore p (.ilock e) t = .ok ((), { t with
      mem := t.mem.setInode e fun ip =>
        { ip with owner := some p, d := t.dinode i, valid := true } }) := by
  subst hi
  refine Prog.exec_eq_of_wp fun A Q => ?_
  show (ilock p e).wp (checked mkfsSuper) A t Q ↔ _
  have hacq : checked mkfsSuper (.mem fun m => if (m.inode e).owner = none then
      .ok ((), m.setInode e fun ip => { ip with owner := some p }) else .stuck) t
      = .ok ((), { t with mem := t.mem.setInode e fun ip => { ip with owner := some p } }) := by
    rw [checked_mem, if_pos howner]
    rfl
  rw [ilock, Prog.wp_bind, wp_getInode, if_neg href, Prog.wp_bind, acquiresleep, onMem,
    Prog.wp_call_ok hacq, Prog.wp_bind, wp_getInode]
  simp only [Mem.setInode, update_self, hv, Bool.false_eq_true, if_false]
  rw [Prog.wp_bind, Prog.wp_call_ok (checked_readDinode hu.1), Prog.wp_bind, wp_setInode,
    if_neg hu.2, Prog.wp_pure]
  simp only [Mem.setInode, update_self, update_idem]

end Steps

/-! ### The search of a directory -/

section Search

variable {E σ : Type} {h : Handler InodeOp E σ} {t : σ} {nd : Node} {dp : Fin ninode}
  {name : List UInt8} {dev k fuel : ℕ}

theorem exec_dirlookupLoop_next (hsize : nd.data.length ≤ maxfile * bsize)
    (hk : k < slots nd.data) {t' : σ}
    (hread : h (.readi dp .kernel (direntSize * k) direntSize) t
      = .ok (nd.read .kernel (direntSize * k) direntSize, t'))
    (hskip : ¬ entryIs nd.data name k) :
    (dirlookupLoop dp name dev nd.data.length (fuel + 1) (direntSize * k)).exec h t
      = (dirlookupLoop dp name dev nd.data.length fuel (direntSize * (k + 1))).exec h t' := by
  obtain ⟨hr, hde⟩ := Node.read_entry_of_lt hsize hk
  have hlt : direntSize * k < nd.data.length := by
    have hd := direntSize_eq
    unfold slots at hk
    rw [hd] at hk ⊢
    omega
  rw [dirlookupLoop, if_pos hlt, Prog.exec_bind, Prog.exec_call, hread, Outcome.bind_ok,
    if_neg (not_not.mpr hr)]
  dsimp only
  rw [hde]
  split
  · rfl
  rename_i h0
  rw [if_neg]
  · rfl
  · intro hcmp
    rw [namecmp_eq_zero] at hcmp
    exact hskip (entryIs_iff.mpr ⟨fun hz => h0 (BitVec.eq_of_toNat_eq hz), hcmp.symm⟩)

theorem exec_dirlookupLoop_skip (dp : Fin ninode) (name : List UInt8) (dev fuel : ℕ)
    (hsize : nd.data.length ≤ maxfile * bsize) (n : ℕ)
    (hle : k + n ≤ slots nd.data)
    (hread : ∀ m, m < k + n → h (.readi dp .kernel (direntSize * m) direntSize) t
      = .ok (nd.read .kernel (direntSize * m) direntSize, t))
    (hskip : ∀ m, m < k + n → ¬ entryIs nd.data name m) :
    (dirlookupLoop dp name dev nd.data.length (fuel + n) (direntSize * k)).exec h t
      = (dirlookupLoop dp name dev nd.data.length fuel (direntSize * (k + n))).exec h t := by
  induction n generalizing k with
  | zero => rfl
  | succ n ih =>
    rw [← Nat.add_assoc, exec_dirlookupLoop_next hsize (by omega) (hread k (by omega))
      (hskip k (by omega)), ih (by omega) (fun m hm => hread m (by omega))
      (fun m hm => hskip m (by omega)), Nat.add_right_comm k 1 n]
    rfl

theorem exec_dirlookupLoop_found (hsize : nd.data.length ≤ maxfile * bsize)
    (hk : k < slots nd.data)
    (hread : h (.readi dp .kernel (direntSize * k) direntSize) t
      = .ok (nd.read .kernel (direntSize * k) direntSize, t))
    (hfound : entryIs nd.data name k) :
    (dirlookupLoop dp name dev nd.data.length (fuel + 1) (direntSize * k)).exec h t
      = (h (.iget dev (dirent nd.data k).inum.toNat) t).bind fun r =>
        .ok (some (r.1, direntSize * k), r.2) := by
  obtain ⟨hr, hde⟩ := Node.read_entry_of_lt hsize hk
  obtain ⟨h0, hname⟩ := entryIs_iff.mp hfound
  have hlt : direntSize * k < nd.data.length := by
    have hd := direntSize_eq
    unfold slots at hk
    rw [hd] at hk ⊢
    omega
  rw [dirlookupLoop, if_pos hlt, Prog.exec_bind, Prog.exec_call, hread, Outcome.bind_ok,
    if_neg (not_not.mpr hr)]
  dsimp only
  rw [hde, if_neg fun hz => h0 (by rw [hz]; rfl), if_pos ((namecmp_eq_zero _ _).mpr hname.symm),
    Prog.exec_bind, Prog.exec_call]
  rfl

theorem exec_dirlookupLoop_end (hk : nd.data.length ≤ direntSize * k) :
    (dirlookupLoop dp name dev nd.data.length fuel (direntSize * k)).exec h t = .ok (none, t) := by
  cases fuel with
  | zero => rfl
  | succ fuel =>
    rw [dirlookupLoop, if_neg (Nat.not_lt.mpr hk)]
    rfl

end Search

/-! ### Reading where there is no block -/

section Hole

variable {t t' : Store} {D : ℕ → Dinode} {e : Fin ninode} {i bn used : ℕ}

/-- `balloc` when the blocks below `used` are taken. -/
theorem firstClear_marks (hbit : ∀ b, b < fssize → t.bit b = marks used b) :
    firstClear mkfsSuper (fun bi => t.bit (0 * bpb + bi)) 0
      = if used < fssize then some used else none := by
  have hbpb : fssize < bpb := by decide
  have hsize : mkfsSuper.size = fssize := rfl
  unfold firstClear
  simp only [hsize, Nat.zero_mul, Nat.zero_add]
  split
  · next hlt =>
    rw [List.find?_range_eq_some]
    refine ⟨?_, List.mem_range.mpr (by omega), fun m hm => ?_⟩
    · rw [hbit _ hlt]
      simp [marks, hlt]
    · rw [hbit _ (by omega)]
      simp [marks, hm]
  · next hge =>
    rw [List.find?_eq_none]
    intro b _
    by_cases hb : b < fssize
    · rw [hbit _ hb]
      simp [marks, show b < used by omega]
    · simp [hb]

/-- A block is taken for a part of a file that has none. -/
theorem exec_bmap_hole (h : Loaded mkfsSuper D e i t) (hdir : bn < ndirect)
    (h0 : (D i).addr bn = 0) (hbit : ∀ b, b < fssize → t.bit b = marks used b) :
    (bmap mkfsSuper e bn).exec (checked mkfsSuper) t = if used < fssize then
      .ok (used, t.put e (update t.bit used true) (update t.blk used Bytes.zero)
        ((D i).setAddr bn used))
      else .panic (some .outOfBlocks) := by
  have hfirst := firstClear_marks hbit
  have hballoc : (Fs.balloc mkfsSuper).exec (checked mkfsSuper) t = if used < fssize then
      .ok (used, { t with
        bit := update t.bit used true, blk := update t.blk used Bytes.zero })
      else .panic (some .outOfBlocks) := by
    have hloop : Fs.balloc mkfsSuper = ballocLoop mkfsSuper (0 + 1) 0 := rfl
    rw [hloop, ballocLoop, if_pos (by decide), Prog.exec_bind, Prog.exec_call,
      checked_markBit (by decide), hfirst]
    by_cases hlt : used < fssize
    · have hmeta : mkfsSuper.nmeta ≤ 0 * bpb + used := by
        rw [Nat.zero_mul, Nat.zero_add]
        refine (h.exact.fresh (b := used) ?_ hlt).1
        rw [hbit _ hlt]
        simp [marks]
      rw [if_pos hlt, if_pos hlt, Outcome.bind_ok]
      dsimp only
      rw [Prog.exec_bind, bzero, Prog.exec_call, checked_changeBlock hmeta, Nat.zero_mul,
        Nat.zero_add]
      rfl
    · rw [if_neg hlt, if_neg hlt]
      rfl
  rw [bmap, if_pos hdir, bmapAddr, Prog.exec_bind]
  show (if (t.mem.inode e).d.addr bn = 0 then _ else _ : DiskProg ℕ).exec _ t = _
  rw [h.copy, if_pos h0, Prog.exec_bind, hballoc]
  split
  · rw [Outcome.bind_ok, ← h.copy]
    rfl
  · rfl

/-- What `readi` does depends on the size of the file and on what `bmap` does for the first
block it reads. -/
theorem exec_readi_bmap (dst : Dst) (off : ℕ) {n : ℕ} (size : BitVec 32) (hoff : off < size.toNat)
    (hn : n ≠ 0) (hlt : off + n < 2 ^ 32) :
    ∃ K, ∀ t : Store, (t.mem.inode e).d.size = size →
      (readi mkfsSuper e dst off n).exec (checked mkfsSuper) t
        = ((bmap mkfsSuper e (off / bsize)).exec (checked mkfsSuper) t).bind K := by
  obtain ⟨m, hm⟩ : ∃ m, (if size.toNat < off + n then size.toNat - off else n) = m + 1 := by
    refine Nat.exists_eq_add_one.mpr ?_
    split <;> omega
  refine ⟨fun r => (do
    let a ← Prog.call (.readBlock r.1)
    let l := min (m + 1) (bsize - off % bsize)
    let k := dst.room 0 l
    if k < l then return (-1, [] ++ a.slice (off % bsize) k)
    else readLoop mkfsSuper e dst m (off + l) (m + 1 - l) ([] ++ a.slice (off % bsize) l) :
      DiskProg (ℤ × List UInt8)).exec (checked mkfsSuper) r.2, fun t hsize => ?_⟩
  rw [readi, Prog.exec_bind]
  show Prog.exec (checked mkfsSuper) (if (t.mem.inode e).d.size.toNat < off ∨ _ then _ else _) t = _
  rw [hsize, Nat.mod_eq_of_lt hlt, if_neg (by omega)]
  dsimp only
  rw [hm, readLoop, if_neg (Nat.succ_ne_zero m), Prog.exec_bind]
  rfl

end Hole

/-! ### What the kernel finds -/

/-- What the kernel finds on the disk, if `used` blocks are taken. -/
structure Booted (files : List Input) (used : ℕ) (t : Store) : Prop where
  mem : t.mem = bootMem
  exact : Exact t.bit mkfsSuper.nmeta mkfsSuper.size (refs mkfsSuper t.blk t.dinode)
  bit : ∀ b, b < fssize → t.bit b = marks used b
  le : used ≤ fssize
  rootUsed : Used mkfsSuper t.dinode root
  dir : nodeOf t.blk (t.dinode root) = paddedRoot files
  mapped : ∀ bn, bn * bsize < (rootNode files).data.length → blockOf t.blk (t.dinode root) bn ≠ 0
  hole : ∀ bn, bn < ndirect → (rootNode files).data.length = bn * bsize →
    (t.dinode root).addr bn = 0
  file : ∀ k, ∀ hk : k < files.length, Used mkfsSuper t.dinode (k + 2) ∧
    nodeOf t.blk (t.dinode (k + 2)) = fileNode files[k] ∧
    ∀ bn, bn * bsize < (t.dinode (k + 2)).size.toNat → blockOf t.blk (t.dinode (k + 2)) bn ≠ 0

section Booted

variable {files : List Input} {s : State} {used : ℕ} {t : Store} {p : Pid}

/-- The image before the size of the root directory is rounded has the same references. -/
theorem booted (h : main files = some s) (hn : files.length ≤ ninodes - 2) :
    Booted files (nmeta + usedBlocks files) (decode mkfsSuper (boot s.disk)) := by
  have h200 : ninodes = 200 := rfl
  have hle : files.length + 2 ≤ imageSuper.ninodes := by
    show files.length + 2 ≤ 208
    omega
  obtain ⟨s₀, s₁, hb, hw, hblk, hdin, hfree, hmark⟩ := main_cases h hle
  obtain ⟨hu, hroot⟩ := hb.used (imageWith_root (rootNode files) files)
  obtain ⟨hstore, -, hfb⟩ := winode_spec hu.1 hw
  have hround := hb.nodeOf_round
  -- the last write of `main` rounds the size of the root up to whole blocks
  obtain ⟨d, hd⟩ : ∃ d, d = { (store s₀).dinode root with
    size := BitVec.ofNat 32 (roundSize (rootNode files).data.length) } := ⟨_, rfl⟩
  rw [← hd] at hround
  have hblk : (store s).blk = (store s₀).blk := by rw [hblk, hstore]
  have hdin : (store s).dinode = update (store s₀).dinode root d := by
    rw [hdin, hstore, hd]
  have hused : s.freeblock = nmeta + usedBlocks files := by
    rw [hfree, hfb, hb.freeblock, cost_image hle]
  have hfree : s.freeblock = s₀.freeblock := hfree.trans hfb
  -- which moves no block
  have hrefs : refs imageSuper (store s).blk (store s).dinode
      = refs imageSuper (store s₀).blk (store s₀).dinode := by
    rw [hblk, hdin]
    exact refs_update_fields (by rw [hd]) (by rw [hd])
  have hiff : ∀ i, Used imageSuper (store s).dinode i ↔ Used imageSuper (store s₀).dinode i := by
    rw [hdin]
    exact used_update (by rw [hd])
  have hout : ∀ i, ninodes ≤ i → ¬ Used imageSuper (store s).dinode i := fun i hi hu =>
    hb.not_used (fun i hi => imageWith_out hn hi) hi ((hiff i).mp hu)
  have haddrs : d.addrs = ((store s₀).dinode root).addrs := by rw [hd]
  have hblock : ∀ bn, blockOf (store s₀).blk d bn
      = blockOf (store s₀).blk ((store s₀).dinode root) bn := fun bn =>
    ptr_congr (fun _ _ => by rw [Dinode.addr, Dinode.addr, haddrs]) fun _ _ _ => rfl
  have hrootD : (decode mkfsSuper (boot s.disk)).dinode root = d := by
    rw [dinode_boot (by decide), hdin, update_self]
  refine ⟨rfl, ?_, fun b hb => ?_, ?_, ?_, ?_, fun bn hbn => ?_, fun bn hdir hbn => ?_,
    fun k hk => ?_⟩
  · refine exact_boot hmark hout ?_
    rw [hrefs, hfree]
    exact hb.blocks.exact
  · rw [← hused]
    exact bit_boot hmark hb
  · rw [← hused, hfree]
    exact hb.hi
  · exact (used_boot hout root).mpr ((hiff root).mpr hu)
  · rw [hrootD, blk_boot, hblk, hround]
  · rw [hrootD, blk_boot, hblk, hblock]
    refine hb.blocks.noHoles root hu bn ?_
    rwa [hroot, nodeOf, length_fileData] at hbn
  · have haddr := hb.addr_end (imageWith_root (rootNode files) files) hbn hdir
    rw [hrootD, Dinode.addr, haddrs]
    exact haddr
  · obtain ⟨huk, hnode⟩ := hb.used (show image files (k + 2) = _ from imageWith_file hk)
    have hne : k + 2 ≠ root := by
      show k + 2 ≠ 1
      omega
    have hdk : (decode mkfsSuper (boot s.disk)).dinode (k + 2) = (store s₀).dinode (k + 2) := by
      rw [dinode_boot (by omega), hdin, update_of_ne hne]
    rw [hdk, blk_boot, hblk]
    exact ⟨(used_boot hout _).mpr ((hiff _).mpr huk), hnode.symm, hb.blocks.noHoles _ huk⟩

/-! ### Names -/

variable {name : List UInt8} {off n k : ℕ}

theorem Proper.entryIs_file (h : Proper files) (hk : k < files.length)
    (hname : cname name = cname (nameOf files[k])) : entryIs (paddedRoot files).data name (k + 2) ∧
      ∀ m, m < k + 2 → ¬ entryIs (paddedRoot files).data name m := by
  have hcount := h.count
  have h200 : ninodes = 200 := rfl
  have hdir := isDir_paddedRoot h
  have hfile := h.names _ (List.getElem_mem hk)
  refine ⟨entryIs_iff.mpr ⟨?_, ?_⟩, fun m hm hentry => ?_⟩
  · rw [inum_paddedRoot (by omega), if_neg (by omega), if_pos (by omega)]
    omega
  · rw [dirent_paddedRoot hk, hname]
    exact cname_newEntry
  obtain ⟨-, heq⟩ := entryIs_iff.mp hentry
  rw [hname] at heq
  rcases m with _ | _ | m
  · exact hfile.2.1 (heq.symm.trans hdir.selfName)
  · exact hfile.2.2 (heq.symm.trans hdir.parentName)
  have hm' : m < files.length := by omega
  rw [dirent_paddedRoot hm'] at heq
  have hmlen : m < (files.map fun f => cname (nameOf f)).length := by rwa [List.length_map]
  have hklen : k < (files.map fun f => cname (nameOf f)).length := by rwa [List.length_map]
  have hinj := @List.getElem_inj _ m k _ hmlen hklen h.distinct
  rw [List.getElem_map, List.getElem_map] at hinj
  have := hinj.mp (cname_newEntry.symm.trans heq)
  omega

/-- Any other name is not found. -/
theorem Proper.not_entryIs (h : Proper files) (hname : ∀ f ∈ files, cname name ≠ cname (nameOf f))
    (hdot : cname name ≠ dot) (hdotdot : cname name ≠ dotdot) (m : ℕ) :
    ¬ entryIs (paddedRoot files).data name m := by
  have hcount := h.count
  have h200 : ninodes = 200 := rfl
  have hdir := isDir_paddedRoot h
  intro hentry
  obtain ⟨h0, heq⟩ := entryIs_iff.mp hentry
  rw [inum_paddedRoot (by omega)] at h0
  rcases m with _ | _ | m
  · exact hdot (heq.symm.trans hdir.selfName)
  · exact hdotdot (heq.symm.trans hdir.parentName)
  · have hm : m < files.length := by
      split_ifs at h0 <;> omega
    rw [dirent_paddedRoot hm] at heq
    exact hname _ (List.getElem_mem hm) (heq.symm.trans cname_newEntry)

/-! ### The search in the root directory -/

/-- The entry of the inode table for the root directory. -/
def rootEntry : Fin ninode := ⟨0, ninode_pos⟩

/-- The kernel once it has locked the root directory. -/
def lockRoot (p : Pid) (t : Store) : Store :=
  { t with mem := bootMem.setInode rootEntry fun ip =>
      { ip with ref := ip.ref + 1, owner := some p, d := t.dinode root, valid := true } }

theorem lockRoot_self : (lockRoot p t).mem.inode rootEntry
    = ⟨rootdev.toNat, rootino.toNat, 2, some p, true, t.dinode root⟩ := by
  unfold lockRoot Mem.setInode
  dsimp only
  rw [update_self]
  rfl

theorem lockRoot_of_ne {e : Fin ninode} (he : e ≠ rootEntry) :
    (lockRoot p t).mem.inode e = Inode.unused := by
  refine (update_of_ne he ..).trans (if_neg fun h0 => he (Fin.ext h0))

theorem Booted.loaded (h : Booted files used t) :
    Loaded mkfsSuper t.dinode rootEntry root (lockRoot p t) := by
  refine ⟨h.exact, h.rootUsed, ?_⟩
  rw [lockRoot_self]

theorem Booted.size_root (h : Booted files used t) :
    (t.dinode root).size.toNat = (paddedRoot files).data.length := by
  rw [← h.dir, nodeOf, length_fileData]

/-- The start of `findFile`. -/
theorem Booted.exec_findFile (h : Booted files used t) :
    (findFile name off n).exec (atStore p) t
      = ((dirlookupLoop rootEntry name rootdev.toNat (paddedRoot files).data.length
        (slots (paddedRoot files).data + 1) 0).exec (atStore p) (lockRoot p t)).bind fun r =>
        (match r.1 with
          | none => return none
          | some (ip, _) => do
            Prog.call (.ilock ip)
            let a ← Prog.call (.attr ip)
            let r ← Prog.call (.readi ip .kernel off n)
            return some (a, r) : FsProg (Option (Attr × ℤ × List UInt8))).exec (atStore p) r.2 := by
  have higet : atStore p (.iget rootdev.toNat rootino.toNat) t = .ok (rootEntry, { t with
      mem := t.mem.setInode rootEntry fun ip => { ip with ref := ip.ref + 1 } }) := by
    show (iget _ _).exec (checked mkfsSuper) t = _
    rw [iget, onMem, Prog.exec_call, checked_mem, h.mem]
    rfl
  have hilock := atStore_ilock (p := p) (e := rootEntry) (i := root) (t := { t with
      mem := t.mem.setInode rootEntry fun ip => { ip with ref := ip.ref + 1 } })
    (by rw [h.mem]; exact show ¬ (2 : ℤ) < 1 by decide) (by rw [h.mem]; rfl) (by rw [h.mem]; rfl)
    (by rw [h.mem]; rfl) h.rootUsed
  have hlock : ({ t with
      mem := (t.mem.setInode rootEntry fun ip => { ip with ref := ip.ref + 1 }).setInode rootEntry
        fun ip => { ip with owner := some p, d := t.dinode root, valid := true } } : Store)
      = lockRoot p t := by
    unfold lockRoot Mem.setInode
    simp only [update_self, update_idem, h.mem]
  rw [hlock] at hilock
  have hattr := atStore_attr (p := p) (t := lockRoot p t) (e := rootEntry) (i := root)
    (D := t.dinode) (by rw [lockRoot_self])
  have htype : (t.dinode root).attr.type = tDir := congrArg Node.type h.dir
  rw [findFile, Prog.exec_bind, Prog.exec_call, higet, Outcome.bind_ok, Prog.exec_bind,
    Prog.exec_call, hilock, Outcome.bind_ok, Prog.exec_bind, dirlookup, Prog.exec_bind,
    Prog.exec_call, hattr, Outcome.bind_ok]
  dsimp only
  rw [if_neg (not_not.mpr htype), Prog.exec_bind, Prog.exec_call, atStore_ident, Outcome.bind_ok,
    lockRoot_self]
  show ((dirlookupLoop rootEntry name rootdev.toNat (t.dinode root).size.toNat
    ((t.dinode root).size.toNat / direntSize + 1) 0).exec _ _).bind _ = _
  rw [h.size_root]
  rfl

theorem length_paddedRoot : (paddedRoot files).data.length
    = roundSize (rootNode files).data.length := by
  have hle := le_roundSize (rootNode files).data.length
  rw [paddedRoot, List.length_append, padding, List.length_replicate]
  omega

theorem length_paddedRoot_le (hn : files.length ≤ ninodes - 2) :
    (paddedRoot files).data.length ≤ maxfile * bsize := by
  have h200 : ninodes = 200 := rfl
  rw [length_paddedRoot, length_rootNode]
  show (16 * (files.length + 2) / 1024 + 1) * 1024 ≤ 268 * 1024
  omega

/-- The entries of the files are read from blocks that are there. -/
theorem Booted.readi_entry (h : Booted files used t) {m : ℕ} (hm : m < files.length + 2) :
    atStore p (.readi rootEntry .kernel (direntSize * m) direntSize) (lockRoot p t)
      = .ok ((paddedRoot files).read .kernel (direntSize * m) direntSize, lockRoot p t) := by
  rw [← h.dir]
  refine atStore_readi p .kernel _ h.loaded (by decide) fun bn hbn _ => h.mapped bn ?_
  have hd := direntSize_eq
  have hlen : (rootNode files).data.length = direntSize * (files.length + 2) := length_rootNode
  have hle : direntSize * m + direntSize ≤ (rootNode files).data.length := by
    rw [hlen, hd]
    omega
  omega

/-- **An input file is found, and read.** -/
theorem Booted.exec_findFile_file (h : Booted files used t) (off : ℕ) (hp : Proper files)
    (hk : k < files.length) (hname : cname name = cname (nameOf files[k])) (hn : n < 2 ^ 32) :
    ∃ t', (findFile name off n).exec (atStore p) t
      = .ok (some ((fileNode files[k]).attr, (fileNode files[k]).read .kernel off n), t') := by
  have hcount := hp.count
  have h200 : ninodes = 200 := rfl
  have hslots : files.length + 2 ≤ slots (paddedRoot files).data := slots_paddedRoot
  have hmax := length_paddedRoot_le hp.count
  obtain ⟨hfound, hbefore⟩ := hp.entryIs_file hk hname
  obtain ⟨hused, hnode, hmap⟩ := h.file k hk
  -- the search
  obtain ⟨fuel, hfuel⟩ : ∃ fuel, slots (paddedRoot files).data + 1 = fuel + 1 + (k + 2) :=
    ⟨slots (paddedRoot files).data - (k + 2), by omega⟩
  have hsearch := exec_dirlookupLoop_skip (h := atStore p) (t := lockRoot p t) (k := 0)
    rootEntry name rootdev.toNat (fuel + 1) hmax (k + 2) (by omega)
    (fun m hm => h.readi_entry (by omega)) (fun m hm => hbefore m (by omega))
  rw [← hfuel, Nat.mul_zero, Nat.zero_add, exec_dirlookupLoop_found hmax (by omega)
    (h.readi_entry (by omega)) hfound, inum_paddedRoot (by omega), if_neg (by omega),
    if_pos (by omega)] at hsearch
  -- the file's entry of the inode table
  obtain ⟨e, he, higet⟩ : ∃ e, e ≠ rootEntry ∧
    atStore p (.iget rootdev.toNat (k + 2)) (lockRoot p t)
      = .ok (e, { lockRoot p t with mem := (lockRoot p t).mem.setInode e fun ip =>
          { ip with dev := rootdev.toNat, inum := k + 2, ref := 1, valid := false } }) := by
    have hnone : (List.finRange ninode).find? (fun e => 0 < ((lockRoot p t).mem.inode e).ref &&
        ((lockRoot p t).mem.inode e).dev == rootdev.toNat &&
        ((lockRoot p t).mem.inode e).inum == k + 2) = none := by
      rw [List.find?_eq_none]
      intro e _
      by_cases he : e = rootEntry
      · subst he
        rw [lockRoot_self]
        have hne : rootino.toNat ≠ k + 2 := by
          show 1 ≠ k + 2
          omega
        simp [hne]
      · rw [lockRoot_of_ne he]
        simp [Inode.unused]
    obtain ⟨e, hfind⟩ : ∃ e, (List.finRange ninode).find? (fun e =>
        ((lockRoot p t).mem.inode e).ref == 0) = some e := by
      rw [← Option.isSome_iff_exists, List.find?_isSome]
      refine ⟨⟨1, by decide⟩, List.mem_finRange _, ?_⟩
      rw [lockRoot_of_ne (by decide)]
      rfl
    have href := List.find?_some hfind
    refine ⟨e, ?_, ?_⟩
    · rintro rfl
      rw [lockRoot_self] at href
      cases href
    · show (iget _ _).exec (checked mkfsSuper) _ = _
      rw [iget, onMem, Prog.exec_call, checked_mem, igetMem, hnone, hfind]
      rfl
  rw [higet, Outcome.bind_ok] at hsearch
  rw [h.exec_findFile, hsearch, Outcome.bind_ok]
  dsimp only
  obtain ⟨t₂, ht₂⟩ : ∃ t₂, t₂ = ({ lockRoot p t with mem := (lockRoot p t).mem.setInode e fun ip =>
          { ip with dev := rootdev.toNat, inum := k + 2, ref := 1, valid := false } } : Store) :=
    ⟨_, rfl⟩
  have hentry : t₂.mem.inode e
      = { Inode.unused with dev := rootdev.toNat, inum := k + 2, ref := 1 } := by
    rw [ht₂]
    unfold Mem.setInode
    dsimp only
    rw [update_self, lockRoot_of_ne he]
    rfl
  have hilock := atStore_ilock (p := p) (t := t₂) (e := e) (i := k + 2)
    (by rw [hentry]; exact show ¬ (1 : ℤ) < 1 by decide) (by rw [hentry]; rfl) (by rw [hentry]; rfl)
    (by rw [hentry]) (by rw [ht₂]; exact hused)
  rw [← ht₂, Prog.exec_bind, Prog.exec_call, hilock, Outcome.bind_ok]
  obtain ⟨t₃, ht₃⟩ : ∃ t₃, t₃ = ({ t₂ with mem := t₂.mem.setInode e fun ip =>
    { ip with owner := some p, d := t₂.dinode (k + 2), valid := true } } : Store) := ⟨_, rfl⟩
  have hd₂ : t₂.dinode = t.dinode := by rw [ht₂]; rfl
  have hblk : t₃.blk = t.blk := by rw [ht₃, ht₂]; rfl
  have hcopy : (t₃.mem.inode e).d = t.dinode (k + 2) := by
    rw [ht₃, hd₂]
    unfold Mem.setInode
    dsimp only
    rw [update_self]
  have hloaded : Loaded mkfsSuper t.dinode e (k + 2) t₃ := by
    refine ⟨?_, hused, hcopy⟩
    rw [ht₃, ht₂]
    exact h.exact
  have hread := atStore_readi p .kernel off hloaded hn
    fun bn _ hbn => by rw [hblk]; exact hmap bn hbn
  rw [hblk, hnode] at hread
  have hattr : (t.dinode (k + 2)).attr = (fileNode files[k]).attr := by
    rw [← hnode, Node.attr, nodeOf, length_fileData]
    rfl
  rw [← ht₃, Prog.exec_bind, Prog.exec_call, atStore_attr hcopy, Outcome.bind_ok, Prog.exec_bind,
    Prog.exec_call, hread, hattr]
  exact ⟨t₃, rfl⟩

/-- A search of the whole directory, if all its blocks are there. -/
theorem search_end {D : ℕ → Dinode} {m : ℕ} (dev : ℕ) (hp : Proper files)
    (h : Loaded mkfsSuper D rootEntry root t) (hnode : nodeOf t.blk (D root) = paddedRoot files)
    (hmap : ∀ bn, bn * bsize < (paddedRoot files).data.length → blockOf t.blk (D root) bn ≠ 0)
    (hno : ∀ m, ¬ entryIs (paddedRoot files).data name m) (hm : m ≤ slots (paddedRoot files).data) :
    (dirlookupLoop rootEntry name dev (paddedRoot files).data.length
        (slots (paddedRoot files).data + 1 - m) (direntSize * m)).exec (atStore p) t
      = .ok (none, t) := by
  have hsize : (D root).size.toNat = (paddedRoot files).data.length := by
    rw [← hnode, nodeOf, length_fileData]
  obtain ⟨l, hl⟩ : ∃ l, slots (paddedRoot files).data = m + l := ⟨_, (Nat.add_sub_of_le hm).symm⟩
  have hskip := exec_dirlookupLoop_skip (h := atStore p) (t := t) (k := m)
    rootEntry name dev 1 (length_paddedRoot_le hp.count) l
    (by omega) (fun m _ => by
      rw [← hnode]
      exact atStore_readi p .kernel _ h (by decide) fun bn _ hbn => hmap bn (by rwa [← hsize]))
    (fun m _ => hno m)
  have hfuel : slots (paddedRoot files).data + 1 - m = 1 + l := by omega
  rw [hfuel, hskip, ← hl]
  refine exec_dirlookupLoop_end ?_
  obtain ⟨c, hc⟩ := (isDir_paddedRoot hp).whole
  rw [slots, hc, Nat.mul_div_cancel_left _ (by decide)]

/-- **Another name is not found**, if the root directory has all its blocks. -/
theorem Booted.exec_findFile_none (h : Booted files used t) (hp : Proper files)
    (hne : (rootNode files).data.length % bsize ≠ 0)
    (hno : ∀ m, ¬ entryIs (paddedRoot files).data name m) :
    (findFile name off n).exec (atStore p) t = .ok (none, lockRoot p t) := by
  have hend := search_end (p := p) (m := 0) rootdev.toNat hp (h.loaded (p := p)) h.dir
    (fun bn hbn => h.mapped bn ((lt_roundSize_iff hne).mp (by rwa [← length_paddedRoot]))) hno
    (Nat.zero_le _)
  rw [Nat.sub_zero, Nat.mul_zero] at hend
  rw [h.exec_findFile, hend]
  rfl

section Full

variable {q : ℕ}

theorem length_paddedRoot_full (hq : (rootNode files).data.length = q * bsize) :
    (paddedRoot files).data.length = q * bsize + bsize := by
  rw [length_paddedRoot, roundSize_of_dvd (by rw [hq, Nat.mul_mod_left]), hq]

/-- The read of an entry in the part that has no block: whatever `bmap` does is done first. -/
theorem Booted.readi_end (h : Booted files used t) (hn : files.length ≤ ninodes - 2)
    (hq : (rootNode files).data.length = q * bsize) :
    ∃ K, ∀ t' : Store, (t'.mem.inode rootEntry).d.size = (t.dinode root).size →
      atStore p (.readi rootEntry .kernel (direntSize * (files.length + 2)) direntSize) t'
        = ((bmap mkfsSuper rootEntry q).exec (checked mkfsSuper) t').bind K := by
  have hmax := length_paddedRoot_le hn
  have hlt : maxfile * bsize + 16 < 2 ^ 32 := by decide
  have hd := direntSize_eq
  have hb : 0 < bsize := by decide
  rw [length_paddedRoot_full hq] at hmax
  have hread := exec_readi_bmap (e := rootEntry) (n := direntSize) .kernel (q * bsize)
    (t.dinode root).size
    (by rw [h.size_root, length_paddedRoot_full hq]; omega) (by decide) (by omega)
  rw [Nat.mul_div_cancel _ hb, ← hq, length_rootNode] at hread
  exact hread

/-- **A block is taken** for the part of the root directory that has none. -/
theorem Booted.readi_hole (h : Booted files used t) (hn : files.length ≤ ninodes - 2)
    (hq : (rootNode files).data.length = q * bsize) (hdir : q < ndirect) (hlt : used < fssize) :
    ∃ D t₂, Loaded mkfsSuper D rootEntry root t₂ ∧ nodeOf t₂.blk (D root) = paddedRoot files ∧
      (∀ bn, bn * bsize < (paddedRoot files).data.length → blockOf t₂.blk (D root) bn ≠ 0) ∧
      atStore p (.readi rootEntry .kernel (direntSize * (files.length + 2)) direntSize)
        (lockRoot p t) = .ok ((paddedRoot files).read .kernel (direntSize * (files.length + 2))
          direntSize, t₂) := by
  have hfresh : t.bit used = false := by
    rw [h.bit _ hlt]
    simp [marks]
  have hb := fresh_of_exact h.exact hfresh hlt
  obtain ⟨hexact, hgrown⟩ := exact_allocAddr h.exact h.rootUsed (Nat.le_of_lt hdir)
    (h.hole q hdir hq) hfresh hlt
  have hbmap := exec_bmap_hole (h.loaded (p := p)) hdir (h.hole q hdir hq) h.bit
  have haddr : ((t.dinode root).setAddr q used).addr q = used :=
    Dinode.addr_setAddr_self _ (Nat.lt_succ_of_lt hdir) hb.lt
  rw [if_pos hlt] at hbmap
  obtain ⟨d, hd⟩ : ∃ d, d = (t.dinode root).setAddr q used := ⟨_, rfl⟩
  rw [← hd] at hbmap hexact hgrown haddr
  obtain ⟨t₂, ht₂⟩ : ∃ t₂, t₂ = (lockRoot p t).put rootEntry
    (update (lockRoot p t).bit used true)
    (update (lockRoot p t).blk used Bytes.zero) d := ⟨_, rfl⟩
  rw [← ht₂] at hbmap
  have hblk : t₂.blk = update t.blk used Bytes.zero := by rw [ht₂]; rfl
  have hself : update t.dinode root d root = d := update_self ..
  have hloaded : Loaded mkfsSuper (update t.dinode root d) rootEntry root t₂ := by
    refine ⟨?_, (hgrown.used_iff root).mpr h.rootUsed, ?_⟩
    · rw [ht₂]
      exact hexact
    · rw [ht₂, put_d, hself]
  have hnode : nodeOf t₂.blk (update t.dinode root d root) = paddedRoot files := by
    have hdata : fileData t₂.blk d = fileData t.blk (t.dinode root) := by
      unfold fileData
      rw [hgrown.size_eq]
      refine List.map_congr_left fun x _ => ?_
      have := hgrown.bytes root h.rootUsed x
      rwa [hself, ← hblk] at this
    rw [← h.dir, hself, nodeOf, nodeOf, hdata, hgrown.fields]
  have hmap : ∀ bn, bn * bsize < (paddedRoot files).data.length →
      blockOf t₂.blk (update t.dinode root d root) bn ≠ 0 := by
    intro bn hbn
    by_cases hbq : bn = q
    · rw [hbq, hself, blockOf_direct hdir, haddr]
      exact hb.pos
    have h0 := h.mapped bn (by
      rw [length_paddedRoot_full hq, ← Nat.succ_mul] at hbn
      have hlt : bn < q + 1 := Nat.lt_of_mul_lt_mul_right hbn
      rw [hq]
      exact Nat.mul_lt_mul_of_pos_right (by omega) (by decide))
    rw [hblk, blockOf, hgrown.kept root _ h.rootUsed h0]
    exact h0
  refine ⟨_, t₂, hloaded, hnode, hmap, ?_⟩
  -- the read that takes the block gets what a read after it gets
  obtain ⟨K, hK⟩ := h.readi_end (p := p) hn hq
  have hmapped : (bmap mkfsSuper rootEntry q).exec (checked mkfsSuper) t₂ = .ok (used, t₂) := by
    refine Prog.exec_eq_of_wp fun A Q => ?_
    have hwp := wp_bmap_mapped (A := A) (Q := Q) hloaded (hmap q (by
      rw [length_paddedRoot_full hq]
      exact Nat.lt_add_of_pos_right (by decide)))
    rwa [hself, blockOf_direct hdir, haddr] at hwp
  rw [hK _ (by rw [lockRoot_self]), hbmap, ← hmapped, ← hK _ (by rw [ht₂, put_d, hgrown.size_eq]),
    ← hnode]
  exact atStore_readi p .kernel _ hloaded (by decide) fun bn _ hbn => hmap bn (by
    rwa [← hnode, nodeOf, length_fileData])

/-- **Another name is not found** if the root directory ends with a part that has no block, as
long as there is a block to take for it. -/
theorem Booted.exec_findFile_hole (h : Booted files used t) (off : ℕ) (hp : Proper files)
    (hq : (rootNode files).data.length = q * bsize)
    (hno : ∀ m, ¬ entryIs (paddedRoot files).data name m) :
    (used < fssize → ∃ t', (findFile name off n).exec (atStore p) t = .ok (none, t')) ∧
      (¬ used < fssize →
        (findFile name off n).exec (atStore p) t = .panic (some .outOfBlocks)) := by
  have hcount := hp.count
  have h200 : ninodes = 200 := rfl
  have hd := direntSize_eq
  have hb : bsize = 1024 := rfl
  have hlen : (rootNode files).data.length = direntSize * (files.length + 2) := length_rootNode
  have hpad := length_paddedRoot_full hq
  have hmax := length_paddedRoot_le hcount
  have hdir : q < ndirect := by
    rw [hlen, hd, hb] at hq
    rw [ndirect_eq]
    omega
  have hslots : slots (paddedRoot files).data = files.length + 2 + 64 := by
    rw [slots, hpad, ← hq, hlen, hd, hb]
    omega
  -- the entries before the hole
  have hskip := exec_dirlookupLoop_skip (h := atStore p) (t := lockRoot p t) (k := 0)
    rootEntry name rootdev.toNat (64 + 1) hmax (files.length + 2) (by omega)
    (fun m hm => h.readi_entry (by omega))
    (fun m _ => hno m)
  rw [Nat.mul_zero, Nat.zero_add] at hskip
  have hfuel : slots (paddedRoot files).data + 1 = 64 + 1 + (files.length + 2) := by omega
  rw [h.exec_findFile, hfuel, hskip]
  refine ⟨fun hlt => ?_, fun hge => ?_⟩
  · obtain ⟨D, t₂, hloaded, hnode, hmap, hread⟩ := h.readi_hole (p := p) hcount hq hdir hlt
    have hend := search_end (p := p) (m := files.length + 2 + 1) rootdev.toNat hp hloaded
      hnode hmap hno (by omega)
    have hrest : slots (paddedRoot files).data + 1 - (files.length + 2 + 1) = 64 := by omega
    rw [hrest] at hend
    rw [exec_dirlookupLoop_next hmax (by omega) hread (hno _), hend]
    exact ⟨t₂, rfl⟩
  · have hbmap := exec_bmap_hole (h.loaded (p := p)) hdir (h.hole q hdir hq) h.bit
    obtain ⟨K, hK⟩ := h.readi_end (p := p) hcount hq
    rw [if_neg hge] at hbmap
    rw [dirlookupLoop, if_pos (by rw [hpad, ← hlen, hq]; omega), Prog.exec_bind, Prog.exec_call,
      hK _ (by rw [lockRoot_self]), hbmap]
    rfl

end Full

/-! ### The kernel and mkfs -/

/-- What completes on the decoded disk completes on the image. -/
theorem runFind_of_ok {r : Option (Attr × ℤ × List UInt8)}
    (h : (findFile name off n).exec (atStore p) (decode mkfsSuper (boot s.disk)) = .ok (r, t)) :
    ∃ s', runFind s p name off n = .ok (r, s') := by
  have hexec : ((findFile name off n).expand (inodeImpl mkfsSuper p)).exec (checked mkfsSuper)
      (decode mkfsSuper (boot s.disk)) = .ok (r, t) := (Prog.exec_expand ..).trans h
  obtain ⟨s', hs', -⟩ := exec_onImage_of_ok hexec
  exact ⟨s', hs'⟩

theorem runFind_of_panic {e : Panic}
    (h : (findFile name off n).exec (atStore p) (decode mkfsSuper (boot s.disk))
      = .panic (some e)) : runFind s p name off n = .panic e := by
  have hexec : ((findFile name off n).expand (inodeImpl mkfsSuper p)).exec (checked mkfsSuper)
      (decode mkfsSuper (boot s.disk)) = .panic (some e) := (Prog.exec_expand ..).trans h
  exact exec_onImage_of_panic hexec

theorem full_iff : (rootNode files).data.length % bsize = 0 ↔ (files.length + 2) % 64 = 0 := by
  rw [length_rootNode]
  show 16 * (files.length + 2) % 1024 = 0 ↔ _
  omega

/-- A name that is not there, when there is no block to go on with the search. -/
theorem runFind_panic (h : main files = some s) (hp : Proper files)
    (hfull : (files.length + 2) % 64 = 0) (hused : nmeta + usedBlocks files = fssize)
    (hname : ∀ f ∈ files, cname name ≠ cname (nameOf f)) (hdot : cname name ≠ dot)
    (hdotdot : cname name ≠ dotdot) : runFind s p name off n = .panic .outOfBlocks := by
  have hb := booted h hp.count
  have hq := (Nat.div_mul_cancel (Nat.dvd_of_mod_eq_zero (full_iff.mpr hfull))).symm
  exact runFind_of_panic ((hb.exec_findFile_hole _ hp hq (hp.not_entryIs hname hdot hdotdot)).2
    (by omega))

/-- **When the kernel and mkfs agree on the format.**  The kernel finds every input file of
an image under its name, with its size and contents, and finds no other name, unless the entries
of the root directory fill its last block and no block is free: then the search for a name that
is not there panics. -/
theorem mkfs_agrees_iff (h : main files = some s) (hp : Proper files) :
    Agrees files s ↔ ¬ ((files.length + 2) % 64 = 0 ∧ nmeta + usedBlocks files = fssize) := by
  have hb := booted h hp.count
  have hle := hb.le
  constructor
  · rintro hagree ⟨hfull, hused⟩
    have hempty : ∀ f ∈ files, cname [] ≠ cname (nameOf f) := fun f hf heq =>
      (hp.names f hf).1 heq.symm
    obtain ⟨s', hs'⟩ := hagree.absent ⟨0, by decide⟩ [] 0 0 hempty (by decide) (by decide)
    rw [runFind_panic h hp hfull hused hempty (by decide) (by decide)] at hs'
    cases hs'
  intro hroom
  refine ⟨fun f hf p name off n hname hlen => ?_, fun p name off n hname hdot hdotdot => ?_⟩
  · obtain ⟨k, hk, rfl⟩ := List.getElem_of_mem hf
    have hlt : files[k].chunks.flatten.length < 2 ^ 32 := by
      have hnode := (hb.file k hk).2.1
      have hdata : (fileNode files[k]).data.length < 2 ^ 32 := by
        rw [← hnode, nodeOf, length_fileData]
        exact BitVec.isLt _
      exact hdata
    obtain ⟨t', ht'⟩ := hb.exec_findFile_file (p := p) (n := n) off hp hk hname
      (by omega)
    obtain ⟨s', hs'⟩ := runFind_of_ok ht'
    have hread : (fileNode files[k]).read .kernel off n
        = ((n : ℤ), (files[k].chunks.flatten.drop off).take n) := by
      have hlen' : Node.readLength (fileNode files[k]).data.length off n = n := by
        show Node.readLength files[k].chunks.flatten.length off n = n
        rw [Node.readLength, Nat.mod_eq_of_lt (by omega), if_neg (by omega), if_neg (by omega)]
      unfold Node.read
      simp only [Dst.room, lt_irrefl, if_false, hlen']
      rfl
    rw [hread] at hs'
    exact ⟨_, s', hs', rfl, rfl, rfl⟩
  · have hno := hp.not_entryIs hname hdot hdotdot
    by_cases hfull : (rootNode files).data.length % bsize = 0
    · have hq := (Nat.div_mul_cancel (Nat.dvd_of_mod_eq_zero hfull)).symm
      have hused : nmeta + usedBlocks files ≠ fssize := fun hu => hroom ⟨full_iff.mp hfull, hu⟩
      obtain ⟨t', ht'⟩ := (hb.exec_findFile_hole (p := p) (n := n) off hp hq hno).1
        (by omega)
      exact runFind_of_ok ht'
    · exact runFind_of_ok (hb.exec_findFile_none hp hfull hno)

end Booted

theorem mkfs_agrees_two : Proper twoFiles ∧ ∃ s, main twoFiles = some s ∧ Agrees twoFiles s := by
  have hp : Proper twoFiles := ⟨by decide, by decide, by decide⟩
  obtain ⟨s, hs⟩ := exists_twoFiles
  exact ⟨hp, s, hs, (mkfs_agrees_iff hs hp).mpr fun hfull => absurd hfull.1 (by decide)⟩

/-- A file of `n` blocks. -/
def bigFile (c : UInt8) (n : ℕ) : Input := ⟨[c], List.replicate n (List.replicate bsize 1)⟩

theorem length_bigFile (c : UInt8) (n : ℕ) : (bigFile c n).chunks.flatten.length = n * bsize := by
  simp [bigFile]

/-- The names and the numbers of blocks of four files. -/
def bigSizes : List (UInt8 × ℕ) := [(65, 268), (66, 268), (67, 268), (68, 145)]

/-- 62 files that take all blocks. -/
def fullFiles : List Input := (bigSizes.map fun x => bigFile x.1 x.2) ++ emptyFiles 58

theorem usedBlocks_fullFiles : nmeta + usedBlocks fullFiles = fssize := by
  have hlen : fullFiles.length = 62 := by decide
  have hbig : (bigSizes.map fun x => bigFile x.1 x.2).map
    (fun f => blocksFor f.chunks.flatten.length)
      = bigSizes.map fun x => blocksFor (x.2 * bsize) := by
    rw [List.map_map]
    exact List.map_congr_left fun x _ => congrArg blocksFor (length_bigFile x.1 x.2)
  have hbigSum : (bigSizes.map fun x => blocksFor (x.2 * bsize)).sum = 953 := by decide
  have hsmall : ((emptyFiles 58).map fun f => blocksFor f.chunks.flatten.length).sum = 0 := by
    decide
  rw [usedBlocks, hlen, fullFiles, List.map_append, List.sum_append, hbig, hbigSum, hsmall]
  decide

/-- Their names. -/
def fullNames : List (List UInt8) := (bigSizes.map fun x => [x.1]) ++
  (List.range 58).map fun k => [UInt8.ofNat (48 + k / 64), UInt8.ofNat (48 + k % 64)]

theorem map_fullFiles : fullFiles.map (fun f => cname (nameOf f)) = fullNames := by
  have hbig : ∀ x ∈ bigSizes, cname ((shortname [x.1]).getD []) = [x.1] := by decide
  have hsmall : ∀ k < 58, cname ((shortname [UInt8.ofNat (48 + k / 64),
      UInt8.ofNat (48 + k % 64)]).getD [])
      = [UInt8.ofNat (48 + k / 64), UInt8.ofNat (48 + k % 64)] := by
    decide +kernel
  rw [fullFiles, fullNames, List.map_append, List.map_map, emptyFiles, List.map_map]
  exact congrArg₂ _ (List.map_congr_left fun x hx => hbig x hx)
    (List.map_congr_left fun k hk => hsmall k (List.mem_range.mp hk))

theorem forall_fullFiles {P : List UInt8 → Prop} (h : ∀ l ∈ fullNames, P l) :
    ∀ f ∈ fullFiles, P (cname (nameOf f)) := fun _ hf =>
  h _ (map_fullFiles ▸ List.mem_map_of_mem hf)

theorem proper_fullFiles : Proper fullFiles where
  count := by decide
  names := forall_fullFiles (P := fun l => l ≠ [] ∧ l ≠ dot ∧ l ≠ dotdot) (by decide +kernel)
  distinct := by
    rw [map_fullFiles]
    decide +kernel

/-- **The search for a name that is not there** panics on an image with 62 files that take all
blocks. -/
theorem mkfs_not_agrees : Proper fullFiles ∧ ∃ s, main fullFiles = some s ∧
    (∀ p off n, runFind s p [120] off n = .panic .outOfBlocks) ∧ ¬ Agrees fullFiles s := by
  have hname : ∀ f ∈ fullFiles, cname [120] ≠ cname (nameOf f) :=
    forall_fullFiles (P := fun l => cname [120] ≠ l) (by decide +kernel)
  have hstore : ∀ f ∈ fullFiles, Storable f := by
    intro f hf
    obtain hf | hf := List.mem_append.mp hf
    · obtain ⟨x, hx, rfl⟩ := List.mem_map.mp hf
      have hbig : ∀ x ∈ bigSizes, shortname [x.1] ≠ none ∧
          x.2 * bsize ≤ maxfile * bsize := by decide
      exact ⟨(hbig x hx).1, (length_bigFile x.1 x.2).trans_le (hbig x hx).2⟩
    · exact storable_emptyFiles (by decide) f hf
  obtain ⟨s, hs⟩ := main_isSome fullFiles (by decide) hstore
    (Nat.le_of_eq usedBlocks_fullFiles)
  have hpanic : ∀ p off n, runFind s p [120] off n = .panic .outOfBlocks := fun p off n =>
    runFind_panic hs proper_fullFiles (by decide) usedBlocks_fullFiles hname (by decide) (by decide)
  refine ⟨proper_fullFiles, s, hs, hpanic, fun hagree => ?_⟩
  obtain ⟨s', hs'⟩ := hagree.absent ⟨0, by decide⟩ [120] 0 0 hname (by decide) (by decide)
  rw [hpanic] at hs'
  cases hs'

end Xv6.Mkfs
