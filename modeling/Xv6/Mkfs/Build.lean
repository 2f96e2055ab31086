import Xv6.Fs.Contents
import Xv6.Fs.Tree
import Xv6.Mkfs.Model

/-!
# What mkfs builds

`mkfs` takes inodes and blocks in order and appends to files.  At every point of the
program the image is a well-formed disk on which the blocks below `freeblock` are in use,
each file is the string of bytes appended so far, and no file has more blocks than its
length needs.

## Main definitions

* `imageSuper` — the layout, with all the inodes the inode blocks have room for.
* `blocksFor` — how many blocks a file of some length takes.
* `Room`, `Appended` — what is true within `iappend`, and what it has done so far.
* `Built` — what is true between calls of `ialloc` and `iappend`, with the files there are.

## Main results

* `appendBlock_spec`, `appendLoop_spec` — one block, and all blocks, of an append.
* `Built.ialloc`, `Built.iappend` — a new file, and more bytes in a file.
-/

namespace Xv6.Mkfs

open Function Fs

/-- The layout, with all the inodes the inode blocks have room for: `mkfs` does not check
inode numbers against `NINODES`. -/
def imageSuper : Super where
  size := fssize
  ninodes := ninodeblocks * ipb
  inodestart := 2 + nlog
  bmapstart := 2 + nlog + ninodeblocks
  inodes_lt := by decide
  meta_lt := mkfsSuper.meta_lt
  size_le := mkfsSuper.size_le
  root_lt := by decide
  ninodes_le := by decide

theorem iblock_imageSuper (i : ℕ) : imageSuper.iblock i = mkfsSuper.iblock i := rfl

/-- The structured disk under construction. -/
def store (s : State) : Store := decode imageSuper (boot s.disk)

/-- The bit map once it is written: the blocks below `n`. -/
def marks (n b : ℕ) : Bool := decide (b < n)

theorem marks_succ (n : ℕ) : update (marks n) n true = marks (n + 1) := by
  funext b
  by_cases hb : b = n
  · subst hb
    simp [marks]
  · have hiff : b < n ↔ b < n + 1 := by omega
    simp [marks, update_of_ne hb, hiff]

/-! ### Sectors and inodes -/

section Sectors

variable {s s' : State} {i : ℕ}

theorem rsect_eq_some {sec : ℕ} {b : Block} :
    rsect s sec = some b ↔ sec < fssize ∧ s.disk sec = b := by
  unfold rsect
  split
  · next h => simp [h]
  · next h => simp [h]

theorem iblock_lt_fssize (hi : i < imageSuper.ninodes) : mkfsSuper.iblock i < fssize := by
  have h₁ := iblock_lt hi
  have h₂ : imageSuper.bmapstart < fssize := by decide
  rw [iblock_imageSuper] at h₁
  omega

theorem rinode_eq (hi : i < imageSuper.ninodes) : rinode s i = some ((store s).dinode i) := by
  have hr : rsect s (mkfsSuper.iblock i) = some (s.disk (mkfsSuper.iblock i)) :=
    if_pos (iblock_lt_fssize hi)
  rw [rinode, hr, store, decode_dinode _ hi]
  rfl

theorem winode_spec {d : Dinode} (hi : i < imageSuper.ninodes) (h : winode s i d = some s') :
    store s' = { store s with dinode := update (store s).dinode i d }
      ∧ s'.freeinode = s.freeinode ∧ s'.freeblock = s.freeblock := by
  have hr : rsect s (mkfsSuper.iblock i) = some (s.disk (mkfsSuper.iblock i)) :=
    if_pos (iblock_lt_fssize hi)
  rw [winode, hr] at h
  cases h
  exact ⟨decode_putDinode (boot s.disk) hi d, rfl, rfl⟩

theorem store_wsect {sec : ℕ} {b : Block} (h : nmeta ≤ sec) :
    store (wsect s sec b) = { store s with blk := update (store s).blk sec b } :=
  decode_blk (boot s.disk) h b []

theorem store_blk {b : ℕ} (h : nmeta ≤ b) : (store s).blk b = s.disk b := if_pos h

end Sectors

/-! ### How many blocks a file takes -/

/-- The first byte that needs a slot: slot `NDIRECT` is needed by the first byte of the
block in the slot after it. -/
def firstByte (k : ℕ) : ℕ := (if k ≤ ndirect then k else k - 1) * bsize

theorem firstByte_slotOf (bn : ℕ) : firstByte (slotOf bn) = bn * bsize := by
  unfold firstByte slotOf
  by_cases h : bn < ndirect
  · rw [if_pos h, if_pos (Nat.le_of_lt h)]
  · rw [if_neg h, if_neg (by omega), Nat.add_sub_cancel]

/-- A file of some length takes a block for each slot it needs. -/
def blocksFor (len : ℕ) : ℕ := (len + (bsize - 1)) / bsize + if ndirect * bsize < len then 1 else 0

/-- A block is taken for the first byte it holds, and the indirect block with the first of
its entries. -/
theorem blocksFor_add {bn off m : ℕ} (hbn : bn = off / bsize) (hm : 0 < m)
    (hle : off + m ≤ (bn + 1) * bsize) : (if off ≤ bn * bsize then 1 else 0)
      + (if ndirect ≤ bn ∧ off ≤ ndirect * bsize then 1 else 0) + blocksFor off
      = blocksFor (off + m) := by
  change bn = off / 1024 at hbn
  change off + m ≤ (bn + 1) * 1024 at hle
  show (if off ≤ bn * 1024 then 1 else 0) + (if 12 ≤ bn ∧ off ≤ 12 * 1024 then 1 else 0)
    + ((off + 1023) / 1024 + if 12 * 1024 < off then 1 else 0)
    = (off + m + 1023) / 1024 + if 12 * 1024 < off + m then 1 else 0
  split_ifs <;> omega

/-- The slots of inode `i` in use are those its first `off` bytes need. -/
def Tight (R : ℕ × ℕ → ℕ) (i off : ℕ) : Prop := ∀ k < nslots, R (i, k) ≠ 0 ↔ firstByte k < off

/-! ### Taking blocks -/

/-- The inodes, with what `iappend` has in hand for inode `i`. -/
def inodesWith (s : State) (i : ℕ) (d : Dinode) : ℕ → Dinode :=
  update (store s).dinode i d

/-- The references of those inodes. -/
def refsWith (s : State) (i : ℕ) (d : Dinode) : ℕ × ℕ → ℕ :=
  refs imageSuper (store s).blk (inodesWith s i d)

@[simp] theorem inodesWith_self (s : State) (i : ℕ) (d : Dinode) : inodesWith s i d i = d :=
  update_self ..

theorem update_inodesWith (s : State) (i : ℕ) (d d' : Dinode) :
    update (inodesWith s i d) i d' = update (store s).dinode i d' :=
  update_idem ..

/-- What is true within `iappend`, with `d` in hand for inode `i`. -/
structure Room (s : State) (i : ℕ) (d : Dinode) : Prop where
  blocks : BlockInv imageSuper (marks s.freeblock) (store s).blk (inodesWith s i d)
  used : Used imageSuper (inodesWith s i d) i
  fresh : ∀ b, s.freeblock ≤ b → (store s).blk b = Bytes.zero
  lo : nmeta ≤ s.freeblock
  hi : s.freeblock ≤ fssize

section Room

variable {s s' : State} {i j k : ℕ} {d d' : Dinode} {off bn m : ℕ} {p : List UInt8}

theorem Room.ptr_eq (h : Room s i d) (k : ℕ) : ptr (store s).blk d k = refsWith s i d (i, k) := by
  rw [refsWith, refs_of_used h.used, inodesWith_self]

theorem Room.nmeta_le (h : Room s i d) (h0 : ptr (store s).blk d k ≠ 0) :
    nmeta ≤ ptr (store s).blk d k := by
  rw [h.ptr_eq] at h0 ⊢
  exact (h.blocks.exact.range _ h0).1

/-- **The next block goes to `addrs[k]`.** -/
theorem Room.takeAddr (h : Room s i d) (hk : k ≤ ndirect) (h0 : d.addr k = 0)
    (hlt : s.freeblock < fssize) :
    Room { s with freeblock := s.freeblock + 1 } i (d.setAddr k s.freeblock) ∧
      Grown imageSuper i (store s).blk (inodesWith s i d) (store s).blk
        (d.setAddr k s.freeblock) ∧
      refsWith s i (d.setAddr k s.freeblock)
        = update (refsWith s i d) (i, k) s.freeblock ∧
      (d.setAddr k s.freeblock).addr k = s.freeblock := by
  have hbit : marks s.freeblock s.freeblock = false := by simp [marks]
  have hself : update (store s).blk s.freeblock Bytes.zero = (store s).blk :=
    update_eq_self_iff.mpr (h.fresh _ (Nat.le_refl _)).symm
  have h0' : (inodesWith s i d i).addr k = 0 := by rwa [inodesWith_self]
  have hb := h.blocks.fresh hbit hlt
  have hrefs := refs_allocAddr hb h.used hk h0'
  obtain ⟨hinv, hg⟩ := h.blocks.allocAddr h.used hk h0' hbit hlt
  rw [inodesWith_self, update_inodesWith, hself] at hrefs hinv
  rw [inodesWith_self, hself] at hg
  rw [marks_succ] at hinv
  refine ⟨⟨hinv, ?_, fun b hb => h.fresh b (Nat.le_of_succ_le hb), Nat.le_succ_of_le h.lo, hlt⟩,
    hg, hrefs, Dinode.addr_setAddr_self _ (Nat.lt_succ_of_le hk) hb.lt⟩
  have hu := (hg.used_iff i).mpr h.used
  rwa [update_inodesWith] at hu

/-- **The next block goes to an entry of the indirect block.** -/
theorem Room.takeEntry (h : Room s i d) (hj : j < nindirect) (ha : d.addr ndirect ≠ 0)
    (h0 : ptr (store s).blk d (ndirect + 1 + j) = 0) (hlt : s.freeblock < fssize)
    (hs' : s' = wsect { s with freeblock := s.freeblock + 1 } (d.addr ndirect)
      (((store s).blk (d.addr ndirect)).put32 (4 * j) (BitVec.ofNat 32 s.freeblock))) :
    Room s' i d ∧ Grown imageSuper i (store s).blk (inodesWith s i d) (store s').blk d ∧
      refsWith s' i d = update (refsWith s i d) (i, ndirect + 1 + j) s.freeblock ∧
      (store s').dinode = (store s).dinode := by
  have hbit : marks s.freeblock s.freeblock = false := by simp [marks]
  have hself : update (store s).blk s.freeblock Bytes.zero = (store s).blk :=
    update_eq_self_iff.mpr (h.fresh _ (Nat.le_refl _)).symm
  have ha' : (inodesWith s i d i).addr ndirect ≠ 0 := by rwa [inodesWith_self]
  have h0' : ptr (store s).blk (inodesWith s i d i) (ndirect + 1 + j) = 0 := by
    rwa [inodesWith_self]
  have hmeta : nmeta ≤ d.addr ndirect := by
    have hle := h.nmeta_le (k := ndirect)
    rw [ptr_addr (Nat.le_refl _)] at hle
    exact hle ha
  have hb := h.blocks.fresh hbit hlt
  have hrefs := refs_allocEntry h.blocks.exact hb h.used hj ha'
  obtain ⟨hinv, hg⟩ := h.blocks.allocEntry h.used hj ha' h0' hbit hlt
  rw [inodesWith_self, hself] at hrefs hinv hg
  rw [marks_succ] at hinv
  have hblk : (store s').blk = update (store s).blk (d.addr ndirect)
      (((store s).blk (d.addr ndirect)).put32 (4 * j) (BitVec.ofNat 32 s.freeblock)) := by
    rw [hs', store_wsect hmeta]
    rfl
  have hdin : (store s').dinode = (store s).dinode := by
    rw [hs', store_wsect hmeta]
    rfl
  have hfree : s'.freeblock = s.freeblock + 1 := by rw [hs']; rfl
  have hwith : inodesWith s' i d = inodesWith s i d := by rw [inodesWith, inodesWith, hdin]
  refine ⟨⟨?_, ?_, fun b hb => ?_, ?_, ?_⟩, ?_, ?_, hdin⟩
  · rw [hblk, hfree, hwith]
    exact hinv
  · rw [hwith]
    exact h.used
  · -- the indirect block is in use, so it is none of the blocks from here on
    rw [hfree] at hb
    have hne : b ≠ d.addr ndirect := by
      rintro rfl
      have hmark := h.blocks.exact.marked (x := (i, ndirect))
      rw [refs_of_used h.used, inodesWith_self, ptr_addr (Nat.le_refl _)] at hmark
      have := of_decide_eq_true (hmark ha)
      omega
    rw [hblk]
    exact (update_of_ne hne ..).trans (h.fresh b (by omega))
  · rw [hfree]
    exact Nat.le_succ_of_le h.lo
  · rw [hfree]
    exact hlt
  · rw [hblk]
    exact hg
  · rw [refsWith, hblk, hwith]
    exact hrefs

/-- What `iappend` has done once it has a sector for block `bn`. -/
structure Took (s : State) (i : ℕ) (d : Dinode) (bn : ℕ) (s' : State) (d' : Dinode) : Prop where
  room : Room s' i d'
  grown : Grown imageSuper i (store s).blk (inodesWith s i d) (store s').blk d'
  block : blockOf (store s').blk d' bn ≠ 0
  indirect : ¬ bn < ndirect → d'.addr ndirect ≠ 0
  other : ∀ x, x ≠ (i, slotOf bn) → (bn < ndirect ∨ x ≠ (i, ndirect)) →
    refsWith s' i d' x = refsWith s i d x
  freeblock : s'.freeblock = s.freeblock + (if refsWith s i d (i, slotOf bn) = 0 then 1 else 0)
    + (if ¬ bn < ndirect ∧ refsWith s i d (i, ndirect) = 0 then 1 else 0)
  inodes : (store s').dinode = (store s).dinode
  freeinode : s'.freeinode = s.freeinode

/-- A sector for one of the first blocks. -/
theorem Room.appendDirect {x : ℕ} (h : Room s i d) (hdir : bn < ndirect)
    (heq : appendBlock s d bn = some (x, d', s')) (hx : x < fssize) :
    x = blockOf (store s').blk d' bn ∧ Took s i d bn s' d' := by
  have hslot : slotOf bn = bn := if_pos hdir
  have href : refsWith s i d (i, slotOf bn) = d.addr bn := by
    rw [hslot, ← h.ptr_eq, ptr_addr (Nat.le_of_lt hdir)]
  have hnot : ¬ (¬ bn < ndirect ∧ refsWith s i d (i, ndirect) = 0) := fun hc => hc.1 hdir
  rw [appendBlock, if_pos hdir] at heq
  by_cases h0 : d.addr bn = 0
  · rw [if_pos h0] at heq
    cases heq
    have hfb : (d.setAddr bn s.freeblock).addr bn = s.freeblock := by
      have := h.hi
      refine Dinode.addr_setAddr_self _ (Nat.lt_succ_of_lt hdir) ?_
      exact Nat.lt_of_le_of_lt this (by decide)
    rw [hfb] at hx
    obtain ⟨hroom, hg, hrefs, -⟩ := h.takeAddr (Nat.le_of_lt hdir) h0 hx
    have hne : s.freeblock ≠ 0 := by
      have h₁ := h.lo
      have h₂ : 0 < nmeta := by decide
      omega
    refine ⟨(blockOf_direct hdir).symm, hroom, hg, ?_, fun hc => absurd hdir hc, fun y hy _ => ?_,
      ?_, rfl, rfl⟩
    · rw [blockOf_direct hdir, hfb]
      exact hne
    · rw [hslot] at hy
      exact (congrFun hrefs y).trans (update_of_ne hy ..)
    · rw [href, if_pos h0, if_neg hnot]
  · rw [if_neg h0] at heq
    cases heq
    refine ⟨(blockOf_direct hdir).symm, h, ?_, ?_, fun hc => absurd hdir hc, fun _ _ _ => rfl,
      ?_, rfl, rfl⟩
    · have hrefl := Grown.refl imageSuper i (store s).blk (inodesWith s i d)
      rwa [inodesWith_self] at hrefl
    · rwa [blockOf_direct hdir]
    · rw [href, if_neg h0, if_neg hnot, Nat.add_zero]

/-- The indirect block, taken if there is none. -/
theorem Room.ensureIndirect {s₁ : State} {d₁ : Dinode} (h : Room s i d)
    (heq : (if d.addr ndirect = 0 then
        (d.setAddr ndirect s.freeblock, { s with freeblock := s.freeblock + 1 })
      else (d, s)) = (d₁, s₁)) (hx : d₁.addr ndirect < fssize) :
    Room s₁ i d₁ ∧ Grown imageSuper i (store s).blk (inodesWith s i d) (store s₁).blk d₁ ∧
      d₁.addr ndirect ≠ 0 ∧
      (∀ x, x ≠ (i, ndirect) → refsWith s₁ i d₁ x = refsWith s i d x) ∧
      s₁.freeblock = s.freeblock + (if refsWith s i d (i, ndirect) = 0 then 1 else 0) ∧
      (store s₁).dinode = (store s).dinode ∧ s₁.freeinode = s.freeinode := by
  have href : refsWith s i d (i, ndirect) = d.addr ndirect := by
    rw [← h.ptr_eq, ptr_addr (Nat.le_refl _)]
  by_cases h0 : d.addr ndirect = 0
  · rw [if_pos h0] at heq
    cases heq
    have hfb : (d.setAddr ndirect s.freeblock).addr ndirect = s.freeblock :=
      Dinode.addr_setAddr_self _ (Nat.lt_succ_self _)
        (Nat.lt_of_le_of_lt h.hi (by decide))
    rw [hfb] at hx
    obtain ⟨hroom, hg, hrefs, -⟩ := h.takeAddr (Nat.le_refl _) h0 hx
    refine ⟨hroom, hg, ?_, fun y hy => ?_, ?_, rfl, rfl⟩
    · have h₁ := h.lo
      have h₂ : 0 < nmeta := by decide
      rw [hfb]
      omega
    · exact (congrFun hrefs y).trans (update_of_ne hy ..)
    · rw [href, if_pos h0]
  · rw [if_neg h0] at heq
    cases heq
    refine ⟨h, ?_, h0, fun _ _ => rfl, ?_, rfl, rfl⟩
    · have hrefl := Grown.refl imageSuper i (store s).blk (inodesWith s i d)
      rwa [inodesWith_self] at hrefl
    · rw [href, if_neg h0, Nat.add_zero]

/-- **A sector for a block of the file**, taken if there is none. -/
theorem Room.appendBlock_spec {x : ℕ} (h : Room s i d) (hbn : bn < maxfile)
    (heq : appendBlock s d bn = some (x, d', s')) (hx : x < fssize) :
    x = blockOf (store s').blk d' bn ∧ Took s i d bn s' d' := by
  by_cases hdir : bn < ndirect
  · exact h.appendDirect hdir heq hx
  have hj : bn - ndirect < nindirect := by
    unfold maxfile at hbn
    omega
  have hslot : slotOf bn = ndirect + 1 + (bn - ndirect) := slotOf_indirect hdir
  rw [appendBlock, if_neg hdir] at heq
  obtain ⟨⟨d₁, s₁⟩, hpair⟩ : ∃ r, (if d.addr ndirect = 0 then
      (d.setAddr ndirect s.freeblock, { s with freeblock := s.freeblock + 1 })
    else (d, s)) = r := ⟨_, rfl⟩
  rw [hpair] at heq
  simp only [Option.bind_eq_bind, Option.bind_eq_some_iff, rsect_eq_some] at heq
  obtain ⟨ind, ⟨hlt, rfl⟩, heq⟩ := heq
  obtain ⟨hroom, hg, ha, hother, hfree, hdin, hfi⟩ := h.ensureIndirect hpair hlt
  have hmeta : nmeta ≤ d₁.addr ndirect := by
    have hle := hroom.nmeta_le (k := ndirect)
    rw [ptr_addr (Nat.le_refl _)] at hle
    exact hle ha
  have hentry : ptr (store s₁).blk d₁ (ndirect + 1 + (bn - ndirect))
      = ((s₁.disk (d₁.addr ndirect)).get32 (4 * (bn - ndirect))).toNat := by
    rw [ptr_entry hj, if_neg ha, store_blk hmeta]
  -- the slot of the block is none that was touched on the way
  have hne : (i, ndirect + 1 + (bn - ndirect)) ≠ (i, ndirect) := fun hc => by
    have := (Prod.mk.inj hc).2
    omega
  have hsame : refsWith s i d (i, slotOf bn)
      = ((s₁.disk (d₁.addr ndirect)).get32 (4 * (bn - ndirect))).toNat := by
    rw [← hentry, hroom.ptr_eq, hother _ hne, hslot]
  by_cases h0 : ((s₁.disk (d₁.addr ndirect)).get32 (4 * (bn - ndirect))).toNat = 0
  · rw [if_pos h0] at heq
    cases heq
    have hmax : nindirect * 4 = bsize := rfl
    have hfb : (((s₁.disk (d'.addr ndirect)).put32 (4 * (bn - ndirect))
        (BitVec.ofNat 32 s₁.freeblock)).get32 (4 * (bn - ndirect))).toNat = s₁.freeblock := by
      rw [Bytes.get32_put32_self _ (by omega), BitVec.toNat_ofNat,
        Nat.mod_eq_of_lt (Nat.lt_of_le_of_lt hroom.hi (by decide))]
    rw [hfb] at hx ⊢
    obtain ⟨hroom₂, hg₂, hrefs, hdin₂⟩ := hroom.takeEntry hj ha (by rw [hentry, h0]) hx
      (by rw [store_blk hmeta])
    have hblock : blockOf (store (wsect { s₁ with freeblock := s₁.freeblock + 1 }
        (d'.addr ndirect) ((s₁.disk (d'.addr ndirect)).put32 (4 * (bn - ndirect))
          (BitVec.ofNat 32 s₁.freeblock)))).blk d' bn = s₁.freeblock := by
      rw [blockOf, hroom₂.ptr_eq, hrefs, hslot, update_self]
    refine ⟨hblock.symm, hroom₂, ?_, ?_, fun _ => ha, fun y hy hy' => ?_, ?_, hdin₂.trans hdin, hfi⟩
    · refine hg.trans ?_
      rw [update_inodesWith, ← hdin]
      exact hg₂
    · have h₁ := hroom.lo
      have h₂ : 0 < nmeta := by decide
      rw [hblock]
      omega
    · rw [hrefs, update_of_ne (hslot ▸ hy), hother y (hy'.resolve_left hdir)]
    · rw [hsame, if_pos h0]
      simp only [hdir, not_false_eq_true, true_and]
      show s₁.freeblock + 1 = _
      omega
  · rw [if_neg h0] at heq
    cases heq
    have hblock : blockOf (store s').blk d' bn
        = ((s'.disk (d'.addr ndirect)).get32 (4 * (bn - ndirect))).toNat := by
      rw [blockOf, hslot, hentry]
    refine ⟨hblock.symm, hroom, hg, by rwa [hblock], fun _ => ha, fun y _ hy' => ?_, ?_, hdin, hfi⟩
    · exact hother y (hy'.resolve_left hdir)
    · rw [hsame, if_neg h0, hfree]
      simp only [hdir, not_false_eq_true, true_and]
      omega

/-! ### Appending -/

/-- What `iappend` has done once the bytes `p` are stored at offset `off`. -/
structure Appended (s : State) (i : ℕ) (d : Dinode) (off : ℕ) (p : List UInt8) (s' : State)
    (d' : Dinode) : Prop where
  room : Room s' i d'
  stored : Stored imageSuper i (store s).blk (inodesWith s i d) off p (off + p.length)
    (store s').blk d'
  tight : Tight (refsWith s' i d') i (off + p.length)
  other : ∀ j k, j ≠ i → refsWith s' i d' (j, k) = refsWith s i d (j, k)
  freeblock : s'.freeblock + blocksFor off = s.freeblock + blocksFor (off + p.length)
  inodes : (store s').dinode = (store s).dinode
  freeinode : s'.freeinode = s.freeinode

theorem Appended.refl (h : Room s i d) (ht : Tight (refsWith s i d) i off) :
    Appended s i d off [] s d := by
  refine ⟨h, ?_, ht, fun _ _ _ => rfl, rfl, rfl, rfl⟩
  have hrefl := Stored.refl imageSuper i (store s).blk (inodesWith s i d) off
  rwa [inodesWith_self] at hrefl

theorem Appended.trans {s₁ : State} {d₁ : Dinode} {q : List UInt8}
    (h₁ : Appended s i d off p s₁ d₁) (h₂ : Appended s₁ i d₁ (off + p.length) q s' d') :
    Appended s i d off (p ++ q) s' d' := by
  have hlen : off + (p ++ q).length = off + p.length + q.length := by
    rw [List.length_append, Nat.add_assoc]
  refine ⟨h₂.room, ?_, ?_, fun j k hj => ?_, ?_, h₂.inodes.trans h₁.inodes,
    h₂.freeinode.trans h₁.freeinode⟩
  · have hst := h₂.stored
    rw [inodesWith, h₁.inodes, ← update_inodesWith s i d] at hst
    rw [hlen]
    exact Stored.trans rfl h₁.stored hst
  · rw [hlen]
    exact h₂.tight
  · rw [h₂.other j k hj, h₁.other j k hj]
  · have hf₁ := h₁.freeblock
    have hf₂ := h₂.freeblock
    rw [hlen]
    omega

/-- The slots a file needs after a write to the block it ends in. -/
theorem Took.tight (h : Took s i d bn s' d') (ht : Tight (refsWith s i d) i off)
    (hbn : bn = off / bsize) (hm : 0 < m) (hle : off + m ≤ (bn + 1) * bsize) :
    Tight (refsWith s' i d') i (off + m) := by
  have hoff := Nat.div_mul_le_self off bsize
  rw [← hbn] at hoff
  intro k hk
  by_cases hslot : k = slotOf bn
  · subst hslot
    rw [firstByte_slotOf, ← h.room.ptr_eq]
    exact ⟨fun _ => by omega, fun _ => h.block⟩
  by_cases hind : bn < ndirect ∨ k ≠ ndirect
  · -- this slot is as it was, and needed as it was
    have hx : (i, k) ≠ (i, slotOf bn) := fun hc => hslot (Prod.mk.inj hc).2
    have hy : bn < ndirect ∨ (i, k) ≠ (i, ndirect) :=
      hind.imp_right fun hne hc => hne (Prod.mk.inj hc).2
    rw [h.other _ hx hy, ht k hk]
    refine ⟨fun hlt => by omega, fun hlt => ?_⟩
    unfold firstByte at hlt ⊢
    have hle : (if k ≤ ndirect then k else k - 1) * bsize < (bn + 1) * bsize := by omega
    have hlt' := Nat.lt_of_mul_lt_mul_right hle
    have hne : (if k ≤ ndirect then k else k - 1) ≠ bn := by
      unfold slotOf at hslot
      split at hslot <;> split <;> omega
    have hstep : (if k ≤ ndirect then k else k - 1) + 1 ≤ bn := by omega
    have hmul := Nat.mul_le_mul_right bsize hstep
    rw [Nat.succ_mul] at hmul
    have hpos : 0 < bsize := by decide
    omega
  · rw [not_or, not_not] at hind
    obtain ⟨hge, rfl⟩ := hind
    have hmul := Nat.mul_le_mul_right bsize (Nat.le_of_not_lt hge)
    rw [← h.room.ptr_eq, ptr_addr (Nat.le_refl _), firstByte, if_pos (Nat.le_refl _)]
    exact ⟨fun _ => by omega, fun _ => h.indirect hge⟩

/-- How many blocks a write to the block a file ends in takes. -/
theorem Took.freeblock_eq (h : Took s i d bn s' d') (ht : Tight (refsWith s i d) i off)
    (hbn : bn = off / bsize) (hmax : bn < maxfile) (hm : 0 < m) (hle : off + m ≤ (bn + 1) * bsize) :
    s'.freeblock + blocksFor off = s.freeblock + blocksFor (off + m) := by
  have h₁ := ht (slotOf bn) (by unfold slotOf nslots; unfold maxfile at hmax; split <;> omega)
  have h₂ := ht ndirect (by decide)
  rw [firstByte_slotOf] at h₁
  rw [firstByte, if_pos (Nat.le_refl _)] at h₂
  have hc₁ : (if refsWith s i d (i, slotOf bn) = 0 then 1 else 0)
      = if off ≤ bn * bsize then 1 else 0 := if_congr (by omega) rfl rfl
  have hc₂ : (if ¬ bn < ndirect ∧ refsWith s i d (i, ndirect) = 0 then 1 else 0)
      = if ndirect ≤ bn ∧ off ≤ ndirect * bsize then 1 else 0 := if_congr (by omega) rfl rfl
  have hadd := blocksFor_add hbn hm hle
  rw [h.freeblock, hc₁, hc₂]
  omega

/-- **One turn of the loop of `iappend`.** -/
theorem Room.appendChunk {x : ℕ} {s₁ : State} (h : Room s i d) (ht : Tight (refsWith s i d) i off)
    (hmax : off / bsize < maxfile) (hp : p ≠ [])
    (hle : off + p.length ≤ (off / bsize + 1) * bsize)
    (heq : appendBlock s d (off / bsize) = some (x, d', s₁)) (hx : x < fssize)
    (hs' : s' = wsect s₁ x ((s₁.disk x).blit (off - off / bsize * bsize) p)) :
    Appended s i d off p s' d' := by
  obtain ⟨rfl, htook⟩ := h.appendBlock_spec hmax heq hx
  have hlen : 0 < p.length := List.length_pos_iff.mpr hp
  have hmod : off - off / bsize * bsize = off % bsize := by
    have := Nat.div_add_mod' off bsize
    omega
  have hself : inodesWith s₁ i d' i = d' := inodesWith_self ..
  have h0 : blockOf (store s₁).blk (inodesWith s₁ i d' i) (off / bsize) ≠ 0 := by
    rw [hself]
    exact htook.block
  have hmeta : nmeta ≤ blockOf (store s₁).blk d' (off / bsize) := htook.room.nmeta_le htook.block
  rw [hmod, ← store_blk hmeta] at hs'
  have hblk : (store s').blk = update (store s₁).blk
      (blockOf (store s₁).blk d' (off / bsize))
      (((store s₁).blk (blockOf (store s₁).blk d' (off / bsize))).blit (off % bsize) p) := by
    rw [hs', store_wsect hmeta]
  have hdin : (store s').dinode = (store s₁).dinode := by
    rw [hs', store_wsect hmeta]
  have hfree : s'.freeblock = s₁.freeblock := by rw [hs']; rfl
  have hwith : inodesWith s' i d' = inodesWith s₁ i d' := by rw [inodesWith, inodesWith, hdin]
  have hexact := htook.room.blocks.exact
  have hrefs : refsWith s' i d' = refsWith s₁ i d' := by
    rw [refsWith, refsWith, hwith, hblk]
    have hw := refs_write hexact htook.room.used h0
      (((store s₁).blk (blockOf (store s₁).blk d' (off / bsize))).blit (off % bsize) p)
    rwa [hself] at hw
  have hinv := htook.room.blocks.write htook.room.used h0
    (((store s₁).blk (blockOf (store s₁).blk d' (off / bsize))).blit (off % bsize) p)
  rw [hself, ← hblk, ← hwith, ← hfree] at hinv
  refine ⟨⟨hinv, ?_, fun b hb => ?_, hfree ▸ htook.room.lo, hfree ▸ htook.room.hi⟩, ?_, ?_,
    fun j k hj => ?_, ?_, hdin.trans htook.inodes, ?_⟩
  · rw [hwith]
    exact htook.room.used
  · -- the block stored into is in use
    have hne : b ≠ blockOf (store s₁).blk d' (off / bsize) := by
      rintro rfl
      have hmark := hexact.marked (x := (i, slotOf (off / bsize)))
      rw [refs_of_used htook.room.used, hself] at hmark
      have := of_decide_eq_true (hmark htook.block)
      rw [hfree] at hb
      exact absurd hb (Nat.not_le.mpr this)
    rw [hblk, update_of_ne hne]
    exact htook.room.fresh b (hfree ▸ hb)
  · have hbi := htook.room.blocks
    rw [inodesWith, htook.inodes, ← update_inodesWith s i d] at hbi
    rw [hblk]
    refine htook.grown.stored hbi h.used htook.block ?_ (Nat.le_refl _)
    have := Nat.div_add_mod' off bsize
    rw [Nat.succ_mul] at hle
    omega
  · rw [hrefs]
    exact htook.tight ht rfl hlen hle
  · rw [hrefs]
    exact htook.other _ (fun hc => hj (Prod.mk.inj hc).1) (.inr fun hc => hj (Prod.mk.inj hc).1)
  · rw [hfree]
    exact htook.freeblock_eq ht rfl hmax hlen hle
  · rw [← htook.freeinode, hs']
    rfl

/-- **The loop of `iappend`.** -/
theorem Room.appendLoop_spec {fuel off' : ℕ} (h : Room s i d) (ht : Tight (refsWith s i d) i off)
    (hoff : off ≤ maxfile * bsize) (hfuel : p.length ≤ fuel)
    (heq : appendLoop fuel s d off p = some (off', d', s')) :
    off' = off + p.length ∧ off' ≤ maxfile * bsize ∧ Appended s i d off p s' d' := by
  induction fuel generalizing s d off p with
  | zero =>
    obtain rfl := List.length_eq_zero_iff.mp (Nat.le_zero.mp hfuel)
    cases heq
    exact ⟨rfl, hoff, .refl h ht⟩
  | succ fuel ih =>
    rw [appendLoop] at heq
    by_cases hp : p = []
    · subst hp
      rw [if_pos rfl] at heq
      cases heq
      exact ⟨rfl, hoff, .refl h ht⟩
    rw [if_neg hp] at heq
    by_cases hmax : off / bsize < maxfile
    · rw [if_pos hmax] at heq
      simp only [Option.bind_eq_bind, Option.bind_eq_some_iff, rsect_eq_some, Prod.exists] at heq
      obtain ⟨x, d₁, s₁, hblock, buf, ⟨hx, rfl⟩, heq⟩ := heq
      -- the bytes for this block, and those after it
      obtain ⟨m, hm⟩ : ∃ m, m = min p.length ((off / bsize + 1) * bsize - off) := ⟨_, rfl⟩
      rw [← hm] at heq
      have hlen : 0 < p.length := List.length_pos_iff.mpr hp
      have hend : off < (off / bsize + 1) * bsize := Nat.lt_mul_of_div_lt (Nat.lt_succ_self _)
        (by decide)
      have htake : (p.take m).length = m := by
        rw [List.length_take]
        omega
      have hne : p.take m ≠ [] := fun hc => by
        rw [hc, List.length_nil] at htake
        omega
      have hle := Nat.mul_le_mul_right bsize (Nat.succ_le_of_lt hmax)
      have hchunk := h.appendChunk ht hmax hne (by rw [htake]; omega) hblock hx rfl
      have htight := hchunk.tight
      rw [htake] at htight
      obtain ⟨hoff', hle', hrest⟩ := ih hchunk.room htight (by
        rw [Nat.succ_eq_add_one] at hle
        omega) (by rw [List.length_drop]; omega) heq
      rw [List.length_drop] at hoff'
      refine ⟨by omega, hle', ?_⟩
      have htrans := hchunk.trans (q := p.drop m) (by rw [htake]; exact hrest)
      rwa [List.take_append_drop] at htrans
    · rw [if_neg hmax] at heq
      cases heq

end Room

/-! ### The image between calls -/

/-- How many blocks the files take. -/
def cost (N : Nodes) : ℕ :=
  ∑ i ∈ Finset.range imageSuper.ninodes, (N i).elim 0 fun nd => blocksFor nd.data.length

/-- What is true between calls of `ialloc` and `iappend`: the image is a well-formed disk with
the files `N`, none of which has more blocks than it needs, and the blocks and bytes not in use
are zero. -/
structure Built (s : State) (N : Nodes) : Prop where
  blocks : BlockInv imageSuper (marks s.freeblock) (store s).blk (store s).dinode
  node : ∀ i, N i = if Used imageSuper (store s).dinode i then
    some (nodeOf (store s).blk ((store s).dinode i)) else none
  tight : ∀ i, Used imageSuper (store s).dinode i →
    Tight (refs imageSuper (store s).blk (store s).dinode) i ((store s).dinode i).size.toNat
  tail : ∀ i, Used imageSuper (store s).dinode i → ∀ x, ((store s).dinode i).size.toNat ≤ x →
    fileByte (store s).blk ((store s).dinode i) x = 0
  fresh : ∀ b, s.freeblock ≤ b → (store s).blk b = Bytes.zero
  freeblock : s.freeblock = nmeta + cost N
  hi : s.freeblock ≤ fssize

theorem overlay_append (data bytes : List UInt8) :
    Node.overlay data data.length bytes (data.length + bytes.length) = data ++ bytes := by
  unfold Node.overlay
  refine List.ext_getElem (by simp) fun x h₁ h₂ => ?_
  rw [List.length_append] at h₂
  rw [List.getElem_map, List.getElem_range, List.getElem_append]
  by_cases hx : x < data.length
  · rw [if_neg (by omega), dif_pos hx, List.getD_eq_getElem _ _ hx]
  · rw [if_pos (by omega), dif_neg hx, List.getD_eq_getElem]

theorem Dinode.setSize_eq_grow {d : Dinode} {off : ℕ} (h : d.size.toNat ≤ off) :
    { d with size := BitVec.ofNat 32 off } = d.grow off := by
  unfold Dinode.grow
  split
  · rfl
  · obtain rfl : off = d.size.toNat := by omega
    rw [BitVec.ofNat_toNat, BitVec.setWidth_eq]

section Built

variable {s s' : State} {N : Nodes} {i : ℕ} {nd : Node}

theorem Built.used (h : Built s N) (hi : N i = some nd) :
    Used imageSuper (store s).dinode i ∧ nd = nodeOf (store s).blk ((store s).dinode i) := by
  rw [h.node] at hi
  split at hi
  · next hu =>
    cases hi
    exact ⟨hu, rfl⟩
  · cases hi

theorem Built.lo (h : Built s N) : nmeta ≤ s.freeblock := h.freeblock ▸ Nat.le_add_right ..

theorem Built.inodesWith_eq (s : State) (i : ℕ) :
    inodesWith s i ((store s).dinode i) = (store s).dinode := update_eq_self ..

theorem Built.room (h : Built s N) (hu : Used imageSuper (store s).dinode i) :
    Room s i ((store s).dinode i) := by
  refine ⟨?_, ?_, h.fresh, h.lo, h.hi⟩
  · rw [Built.inodesWith_eq]
    exact h.blocks
  · rw [Built.inodesWith_eq]
    exact hu

theorem cost_update (hi : i < imageSuper.ninodes) (o : Option Node) :
    cost (update N i o) + ((N i).elim 0 fun nd => blocksFor nd.data.length)
      = cost N + o.elim 0 fun nd => blocksFor nd.data.length :=
  sum_update_add_of_mem (fun o : Option Node => o.elim 0 fun nd => blocksFor nd.data.length) N
    (Finset.mem_range.mpr hi) o

/-- **One inode is replaced**, in use or not before, and the other files stay. -/
theorem Built.replace {d : Dinode} (h : Built s N) (hi : i < imageSuper.ninodes)
    (ht : d.type ≠ 0) (hdin : (store s').dinode = update (store s).dinode i d)
    (hblocks : BlockInv imageSuper (marks s'.freeblock) (store s').blk
      (update (store s).dinode i d))
    (hbytes : ∀ j, j ≠ i → Used imageSuper (store s).dinode j → ∀ x,
      fileByte (store s').blk ((store s).dinode j) x
        = fileByte (store s).blk ((store s).dinode j) x)
    (hrefs : ∀ j k, j ≠ i →
      refs imageSuper (store s').blk (update (store s).dinode i d) (j, k)
        = refs imageSuper (store s).blk (store s).dinode (j, k))
    (htight : Tight (refs imageSuper (store s').blk (update (store s).dinode i d)) i
      d.size.toNat)
    (htail : ∀ x, d.size.toNat ≤ x → fileByte (store s').blk d x = 0)
    (hfresh : ∀ b, s'.freeblock ≤ b → (store s').blk b = Bytes.zero)
    (hfree : s'.freeblock + ((N i).elim 0 fun nd => blocksFor nd.data.length)
      = s.freeblock + blocksFor d.size.toNat) (hhi : s'.freeblock ≤ fssize) :
    Built s' (update N i (some (nodeOf (store s').blk d))) := by
  have hused : ∀ j, j ≠ i → (Used imageSuper (update (store s).dinode i d) j ↔
      Used imageSuper (store s).dinode j) := fun j hj => by
    unfold Used
    rw [update_of_ne hj]
  -- at `i` the new dinode; elsewhere bytes and references are as before
  refine ⟨hdin ▸ hblocks, fun j => ?_, fun j hj => ?_, fun j hj x hx => ?_, hfresh, ?_, hhi⟩
  · rw [hdin]
    by_cases hji : j = i
    · subst hji
      have hu : Used imageSuper (update (store s).dinode j d) j :=
        ⟨hi, by rwa [update_self]⟩
      rw [if_pos hu, update_self, update_self]
    rw [update_of_ne hji, h.node j]
    by_cases hu : Used imageSuper (store s).dinode j
    · have hdata : fileData (store s').blk ((store s).dinode j)
          = fileData (store s).blk ((store s).dinode j) :=
        List.map_congr_left fun x _ => hbytes j hji hu x
      rw [if_pos hu, if_pos ((hused j hji).mpr hu), update_of_ne hji, nodeOf, nodeOf,
        hdata]
    · rw [if_neg hu, if_neg (mt (hused j hji).mp hu)]
  · rw [hdin] at hj ⊢
    by_cases hji : j = i
    · subst hji
      rw [update_self]
      exact htight
    · intro k hk
      rw [hrefs j k hji, update_of_ne hji]
      exact h.tight j ((hused j hji).mp hj) k hk
  · rw [hdin] at hj hx ⊢
    by_cases hji : j = i
    · subst hji
      rw [update_self] at hx ⊢
      exact htail x hx
    · rw [update_of_ne hji] at hx ⊢
      have hu := (hused j hji).mp hj
      rw [hbytes j hji hu x]
      exact h.tail j hu x hx
  · have hcost := cost_update (N := N) hi (some (nodeOf (store s').blk d))
    have hbase := h.freeblock
    rw [Option.elim_some, nodeOf, length_fileData, ← nodeOf] at hcost
    omega

/-- **More bytes in a file.** -/
theorem Built.iappend (h : Built s N) (hi : N i = some nd) {p : List UInt8}
    (heq : iappend s i p = some s') :
    Built s' (update N i (some { nd with data := nd.data ++ p })) ∧
      s'.freeinode = s.freeinode := by
  obtain ⟨hu, rfl⟩ := h.used hi
  rw [Mkfs.iappend, rinode_eq hu.1] at heq
  simp only [Option.bind_eq_bind, Option.bind_some, Option.bind_eq_some_iff, Prod.exists] at heq
  obtain ⟨off, d', s₁, hloop, hw⟩ := heq
  have hmax : maxfile * bsize < 2 ^ 32 := by decide
  have hwith : refsWith s i ((store s).dinode i)
      = refs imageSuper (store s).blk (store s).dinode := by
    rw [refsWith, Built.inodesWith_eq]
  obtain ⟨rfl, hle, happ⟩ := (h.room hu).appendLoop_spec (hwith ▸ h.tight i hu)
    (h.blocks.size_le i hu) (Nat.le_refl _) hloop
  have hst := happ.stored
  rw [Built.inodesWith_eq] at hst
  -- the inode written back is the one in hand, with the new size
  have hsize' : d'.size = ((store s).dinode i).size := by rw [hst.fields]
  rw [Dinode.setSize_eq_grow (by rw [hsize']; omega)] at hw
  obtain ⟨hstore, hfi, hfb⟩ := winode_spec hu.1 hw
  have hblk : (store s').blk = (store s₁).blk := by rw [hstore]
  have hdin : (store s').dinode = update (store s).dinode i
      (d'.grow (((store s).dinode i).size.toNat + p.length)) := by
    rw [hstore, ← happ.inodes]
  have hdata := fileData_stored (s := store s) hu hst (by omega) (Nat.le_refl _) (Nat.le_refl _)
  have hinv := happ.room.blocks
  rw [inodesWith, happ.inodes] at hinv
  have hinv := hst.blockInv (s := store s) hinv (Nat.le_refl _) hle
  obtain ⟨d₂, hd₂⟩ : ∃ d₂, d₂ = d'.grow (((store s).dinode i).size.toNat + p.length) := ⟨_, rfl⟩
  have hsize₂ : d₂.size.toNat = ((store s).dinode i).size.toNat + p.length := by
    rw [hd₂, size_grow (by omega), hsize']
    omega
  have hbyte₂ : ∀ x, fileByte (store s₁).blk d₂ x = fileByte (store s₁).blk d' x := fun x => by
    unfold fileByte blockOf
    rw [hd₂, ptr_grow]
  have hrefs : refs imageSuper (store s₁).blk (update (store s).dinode i d₂)
      = refsWith s₁ i d' := by
    have hiff : d₂.type ≠ 0 ↔ (update (store s).dinode i d' i).type ≠ 0 := by
      rw [update_self, hd₂, type_grow]
    have haddr : d₂.addrs = (update (store s).dinode i d' i).addrs := by
      rw [update_self, hd₂, addrs_grow]
    rw [refsWith, inodesWith, happ.inodes,
      ← update_idem (a := i) d' d₂ (store s).dinode, refs_update_fields hiff haddr]
  rw [← hd₂] at hdin hdata hinv
  have hbuilt := h.replace hu.1 (d := d₂) (by rw [hd₂, type_grow, hst.fields]; exact hu.2) hdin
    (by rw [hblk, hfb]; exact hinv) (fun j hj hju x => ?_)
    (fun j k hj => by rw [hblk, hrefs, happ.other j k hj, hwith])
    (by rw [hblk, hrefs, hsize₂]; exact happ.tight) (fun x hx => ?_)
    (fun b hb => by rw [hblk]; exact happ.room.fresh b (hfb ▸ hb)) ?_ (hfb ▸ happ.room.hi)
  · refine ⟨?_, hfi.trans happ.freeinode⟩
    have happend := overlay_append (fileData (store s).blk ((store s).dinode i)) p
    rw [length_fileData] at happend
    have hnode : nodeOf (store s₁).blk d₂ = { nodeOf (store s).blk ((store s).dinode i) with
        data := (nodeOf (store s).blk ((store s).dinode i)).data ++ p } := by
      have hfields : d₂ = { (store s).dinode i with size := d₂.size, addrs := d₂.addrs } := by
        rw [hd₂, hst.fields]
        unfold Dinode.grow
        split <;> rfl
      rw [nodeOf, nodeOf, hdata, happend, hfields]
    rw [hblk, hnode] at hbuilt
    exact hbuilt
  · have hb := hst.bytes j hju x
    rw [update_of_ne hj, if_neg fun hc => hj hc.1] at hb
    rw [hblk, hb]
  · have hb := hst.bytes i hu x
    rw [update_self, if_neg (by omega), h.tail i hu x (by omega)] at hb
    rw [hblk, hbyte₂, hb]
  · have hfree := happ.freeblock
    rw [hi, Option.elim_some, nodeOf, length_fileData, hfb, hsize₂]
    exact hfree

/-- **A new file.** -/
theorem Built.ialloc (h : Built s N) {type : BitVec 16} {i : ℕ} (ht : type ≠ 0)
    (hlt : s.freeinode < imageSuper.ninodes) (hnone : N s.freeinode = none)
    (heq : ialloc s type = some (i, s')) :
    i = s.freeinode ∧ Built s' (update N i (some ⟨type, 0, 0, 1, []⟩)) ∧
      s'.freeinode = s.freeinode + 1 := by
  simp only [Mkfs.ialloc, Option.bind_eq_bind, Option.bind_eq_some_iff, Option.pure_def] at heq
  obtain ⟨s₁, hw, heq⟩ := heq
  cases heq
  obtain ⟨hstore, hfi, hfb⟩ := winode_spec hlt hw
  have hblk : (store s').blk = (store s).blk := by rw [hstore]; rfl
  have hdin : (store s').dinode = update (store s).dinode s.freeinode
      { Dinode.empty with type := type, nlink := 1 } := by rw [hstore]; rfl
  have hfree : s'.freeblock = s.freeblock := hfb
  have hnot : ¬ Used imageSuper (store s).dinode s.freeinode := fun hu => by
    rw [h.node, if_pos hu] at hnone
    cases hnone
  obtain ⟨d, hd⟩ : ∃ d, d = { Dinode.empty with type := type, nlink := 1 } := ⟨_, rfl⟩
  have hsize : d.size.toNat = 0 := by rw [hd]; rfl
  have haddr : ∀ k ≤ ndirect, d.addr k = 0 := fun k _ => by
    rw [hd]
    exact Dinode.addr_empty k
  have hptr : ∀ k, ptr (store s).blk d k = 0 := fun k => ptr_of_addr_zero haddr
  -- an inode that was not in use has no references, and gets none
  have hrefs : refs imageSuper (store s).blk (update (store s).dinode s.freeinode d)
      = refs imageSuper (store s).blk (store s).dinode := by
    rw [refs_update_empty haddr]
    funext ⟨j, k⟩
    by_cases hj : j = s.freeinode
    · rw [if_pos hj, hj, refs_of_not hnot]
    · rw [if_neg hj]
  rw [← hd] at hdin
  have hbuilt := h.replace hlt (d := d) (by rw [hd]; exact ht) hdin ?_ (fun j _ _ x => by rw [hblk])
    (fun j k _ => by rw [hblk, hrefs]) (fun k _ => ?_) (fun x _ => ?_)
    (fun b hb => by rw [hblk]; exact h.fresh b (hfree ▸ hb)) ?_ (hfree ▸ h.hi)
  · refine ⟨rfl, ?_, hfi⟩
    have hnode : nodeOf (store s').blk d = ⟨type, 0, 0, 1, []⟩ := by
      rw [nodeOf, fileData, hsize, hd]
      rfl
    rwa [hnode] at hbuilt
  · rw [hblk, hfree]
    have hold : ∀ j, j ≠ s.freeinode →
        Used imageSuper (update (store s).dinode s.freeinode d) j →
        Used imageSuper (store s).dinode j := fun j hj hu => by
      unfold Used at hu
      rwa [update_of_ne hj] at hu
    refine ⟨?_, fun j hu bn hbn => ?_, fun j hu => ?_⟩
    · rw [hrefs]
      exact h.blocks.exact
    · by_cases hj : j = s.freeinode
      · rw [hj, update_self, hsize] at hbn
        omega
      · rw [update_of_ne hj] at hbn ⊢
        exact h.blocks.noHoles j (hold j hj hu) bn hbn
    · by_cases hj : j = s.freeinode
      · rw [hj, update_self, hsize]
        exact Nat.zero_le _
      · rw [update_of_ne hj]
        exact h.blocks.size_le j (hold j hj hu)
  · rw [hblk, hrefs, refs_of_not hnot, hsize]
    exact iff_of_false (fun hc => hc rfl) (Nat.not_lt_zero _)
  · rw [fileByte, if_pos]
    rw [hblk]
    exact hptr _
  · rw [hnone, hsize, hfree]
    rfl

theorem type_getDinode_zero (k : ℕ) : (getDinode Bytes.zero k).type = 0 := by
  simp [getDinode, Bytes.get16]

/-- **The image of zeroes** has no files. -/
theorem Built.start : Built start fun _ => none := by
  have hdisk : ∀ b, b ≠ 1 → Mkfs.start.disk b = Bytes.zero := fun b hb => by
    show update (fun _ => Bytes.zero) 1 superBlock b = Bytes.zero
    rw [update_of_ne hb]
  have hnot : ∀ i, ¬ Used imageSuper (store Mkfs.start).dinode i := fun i hu => by
    refine hu.2 ?_
    rw [store, decode_dinode _ hu.1]
    show (getDinode (Mkfs.start.disk (imageSuper.iblock i)) (i % ipb)).type = 0
    have hne : imageSuper.iblock i ≠ 1 := by
      have h₁ : 1 < imageSuper.inodestart := by decide
      have h₂ : imageSuper.inodestart ≤ imageSuper.iblock i := Nat.le_add_left ..
      omega
    rw [hdisk _ hne, type_getDinode_zero]
  have hrefs : refs imageSuper (store Mkfs.start).blk (store Mkfs.start).dinode = fun _ => 0 := by
    funext ⟨i, k⟩
    exact refs_of_not (hnot i)
  refine ⟨⟨?_, fun i hu => absurd hu (hnot i), fun i hu => absurd hu (hnot i)⟩,
    fun i => (if_neg (hnot i)).symm, fun i hu => absurd hu (hnot i),
    fun i hu => absurd hu (hnot i), fun b hb => ?_, ?_, by decide⟩
  · rw [hrefs]
    refine ⟨by decide, fun x hx => absurd rfl hx, fun x y hx => absurd rfl hx, fun b _ => ?_⟩
    show decide (b < nmeta) = true ↔ _
    rw [decide_eq_true_iff]
    refine ⟨.inl, fun hb => hb.elim id ?_⟩
    rintro ⟨x, rfl⟩
    decide
  · have hne : b ≠ 1 := by
      have h₁ : 1 < nmeta := by decide
      have h₂ : Mkfs.start.freeblock = nmeta := rfl
      omega
    rw [store_blk hb, hdisk b hne]
  · show nmeta = nmeta + cost fun _ => none
    simp [cost]

end Built

end Xv6.Mkfs
