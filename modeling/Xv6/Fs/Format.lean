import Xv6.Param
import Mathlib.Data.List.FinRange

/-!
# The on-disk format

The structures of `kernel/fs.h` as they lie in disk blocks: inodes, the free bit map and
directory entries, and the layout the superblock describes.

## Main definitions

* `Super` — the fields of the superblock, with what makes them a layout.
* `Dinode`, `getDinode`, `putDinode` — the on-disk inode, and its place in a block.
* `getBit`, `setBit`, `clearBit` — a bit of a bit map block.
* `Dirent`, `getDirent`, `Dirent.bytes` — a directory entry.

## Main results

* `getDinode_putDinode_self`, `getDinode_putDinode_of_ne` — inodes in a block do not
  interfere.
* `getBit_setBit`, `getBit_clearBit` — nor do bits.
-/

namespace Xv6.Fs

def ndirect : ℕ := 12
def nindirect : ℕ := bsize / 4
def maxfile : ℕ := ndirect + nindirect
def ipb : ℕ := bsize / 64 -- inodes per block
def bpb : ℕ := bsize * 8 -- bit map bits per block
def dirsiz : ℕ := 14

/-! ### Inodes -/

/-- `struct dinode`. -/
@[ext]
structure Dinode where
  type : BitVec 16 -- file type
  major : BitVec 16 -- major device number (T_DEVICE only)
  minor : BitVec 16 -- minor device number (T_DEVICE only)
  nlink : BitVec 16 -- number of links to inode in file system
  size : BitVec 32 -- size of file (bytes)
  addrs : Fin (ndirect + 1) → BitVec 32 -- data block addresses

def tDir : BitVec 16 := 1
def tFile : BitVec 16 := 2
def tDevice : BitVec 16 := 3

namespace Dinode

/-- What `memset(dip, 0, sizeof(*dip))` leaves. -/
def empty : Dinode := ⟨0, 0, 0, 0, 0, fun _ => 0⟩

/-- The block number `addrs[k]`. -/
def addr (d : Dinode) (k : ℕ) : ℕ := if h : k < ndirect + 1 then (d.addrs ⟨k, h⟩).toNat else 0

/-- The assignment `addrs[k] = b`. -/
def setAddr (d : Dinode) (k b : ℕ) : Dinode :=
  { d with addrs := fun i => if i.val = k then BitVec.ofNat 32 b else d.addrs i }

theorem addr_setAddr_self (d : Dinode) {k b : ℕ} (hk : k < ndirect + 1) (hb : b < 2 ^ 32) :
    (d.setAddr k b).addr k = b := by
  simpa [addr, setAddr, hk] using hb

theorem addr_setAddr_of_ne (d : Dinode) {k j : ℕ} (b : ℕ) (h : j ≠ k) :
    (d.setAddr k b).addr j = d.addr j := by
  simp [addr, setAddr, h]

@[simp] theorem addr_setAddr_zero (d : Dinode) (k : ℕ) : (d.setAddr k 0).addr k = 0 := by
  simp [addr, setAddr]

theorem addrs_eq_zero {d : Dinode} (h : ∀ k ≤ ndirect, d.addr k = 0) : d.addrs = fun _ => 0 := by
  funext ⟨k, hk⟩
  have h0 := h k (Nat.le_of_lt_succ hk)
  rw [addr, dif_pos hk] at h0
  exact BitVec.eq_of_toNat_eq h0

@[simp] theorem addr_empty (k : ℕ) : empty.addr k = 0 := by
  simp [addr, empty]

end Dinode

/-- The offset of the `k`-th inode of a block. -/
def dinodeOff (k : ℕ) : ℕ := 64 * k

/-- The `k`-th inode of a block. -/
def getDinode (b : Block) (k : ℕ) : Dinode where
  type := b.get16 (dinodeOff k)
  major := b.get16 (dinodeOff k + 2)
  minor := b.get16 (dinodeOff k + 4)
  nlink := b.get16 (dinodeOff k + 6)
  size := b.get32 (dinodeOff k + 8)
  addrs := fun i => b.get32 (dinodeOff k + 12 + 4 * i.val)

/-- Store the block numbers of `l` from offset `off` on. -/
def putAddrs (b : Block) (off : ℕ) : List (BitVec 32) → Block
  | [] => b
  | a :: l => putAddrs (b.put32 off a) (off + 4) l

/-- Store an inode as the `k`-th of a block. -/
def putDinode (b : Block) (k : ℕ) (d : Dinode) : Block :=
  let b := b.put16 (dinodeOff k) d.type
  let b := b.put16 (dinodeOff k + 2) d.major
  let b := b.put16 (dinodeOff k + 4) d.minor
  let b := b.put16 (dinodeOff k + 6) d.nlink
  let b := b.put32 (dinodeOff k + 8) d.size
  putAddrs b (dinodeOff k + 12) ((List.finRange (ndirect + 1)).map d.addrs)

theorem length_addrs (d : Dinode) : ((List.finRange (ndirect + 1)).map d.addrs).length = 13 := by
  rw [List.length_map, List.length_finRange, ndirect]

theorem get_putAddrs_of_notMem (b : Block) {off i : ℕ} (l : List (BitVec 32))
    (h : i < off ∨ off + 4 * l.length ≤ i) : (putAddrs b off l).get i = b.get i := by
  induction l generalizing b off with
  | nil => rfl
  | cons a l ih =>
    rw [List.length_cons] at h
    rw [putAddrs, ih _ (by omega), Bytes.put32, Bytes.get_putLE_of_notMem _ _ (by omega)]

theorem get32_putAddrs (b : Block) {off i : ℕ} (l : List (BitVec 32)) (hi : i < l.length)
    (hn : off + 4 * l.length ≤ bsize) :
    (putAddrs b off l).get32 (off + 4 * i) = l.get ⟨i, hi⟩ := by
  induction l generalizing b off i with
  | nil => exact absurd hi (Nat.not_lt_zero i)
  | cons a l ih =>
    rw [List.length_cons] at hi hn
    rw [putAddrs]
    cases i with
    | zero =>
      have hsame : (putAddrs (b.put32 off a) (off + 4) l).get32 off
          = (b.put32 off a).get32 off := by
        unfold Bytes.get32
        rw [Bytes.getLE_congr fun j h₁ h₂ => get_putAddrs_of_notMem _ l (by omega)]
      exact hsame.trans (Bytes.get32_put32_self b (by omega) a)
    | succ i =>
      rw [show off + 4 * (i + 1) = off + 4 + 4 * i by omega, ih _ (by omega) (by omega)]
      rfl

theorem get_putDinode_of_notMem (b : Block) {k i : ℕ} (d : Dinode)
    (h : i < dinodeOff k ∨ dinodeOff k + 64 ≤ i) : (putDinode b k d).get i = b.get i := by
  unfold putDinode Bytes.put16 Bytes.put32
  dsimp only
  rw [get_putAddrs_of_notMem _ _ (by rw [length_addrs]; omega),
    Bytes.get_putLE_of_notMem _ _ (by omega), Bytes.get_putLE_of_notMem _ _ (by omega),
    Bytes.get_putLE_of_notMem _ _ (by omega), Bytes.get_putLE_of_notMem _ _ (by omega),
    Bytes.get_putLE_of_notMem _ _ (by omega)]

/-- **Another inode of the block is left alone.** -/
theorem getDinode_putDinode_of_ne (b : Block) {k j : ℕ} (d : Dinode) (h : j ≠ k) :
    getDinode (putDinode b k d) j = getDinode b j := by
  have hget : ∀ i, dinodeOff j ≤ i → i < dinodeOff j + 64 →
      (putDinode b k d).get i = b.get i := by
    intro i h₁ h₂
    refine get_putDinode_of_notMem b d ?_
    unfold dinodeOff at *
    omega
  have h16 : ∀ o, o + 2 ≤ 64 →
      (putDinode b k d).get16 (dinodeOff j + o) = b.get16 (dinodeOff j + o) := by
    intro o ho
    unfold Bytes.get16
    rw [Bytes.getLE_congr fun i h₁ h₂ => hget i (by omega) (by omega)]
  have h32 : ∀ o, o + 4 ≤ 64 →
      (putDinode b k d).get32 (dinodeOff j + o) = b.get32 (dinodeOff j + o) := by
    intro o ho
    unfold Bytes.get32
    rw [Bytes.getLE_congr fun i h₁ h₂ => hget i (by omega) (by omega)]
  have haddr : ∀ i : Fin (ndirect + 1), (putDinode b k d).get32 (dinodeOff j + 12 + 4 * i.val)
      = b.get32 (dinodeOff j + 12 + 4 * i.val) := by
    intro i
    have hi : i.val < 13 := i.isLt
    rw [Nat.add_assoc]
    exact h32 _ (by omega)
  ext1
  · exact h16 0 (by omega)
  · exact h16 2 (by omega)
  · exact h16 4 (by omega)
  · exact h16 6 (by omega)
  · exact h32 8 (by omega)
  · exact funext haddr

/-- **Reading back an inode.** -/
theorem getDinode_putDinode_self (b : Block) {k : ℕ} (hk : k < ipb) (d : Dinode) :
    getDinode (putDinode b k d) k = d := by
  have hoff : dinodeOff k + 64 ≤ bsize := by
    have : k < 16 := hk
    have : bsize = 1024 := rfl
    unfold dinodeOff
    omega
  have hlen := length_addrs d
  -- a field stored before the block numbers, and before the fields after it
  have h16 : ∀ (c : Block) (o : ℕ), o + 2 ≤ 12 →
      (putAddrs c (dinodeOff k + 12) ((List.finRange (ndirect + 1)).map d.addrs)).get16
        (dinodeOff k + o) = c.get16 (dinodeOff k + o) := by
    intro c o ho
    unfold Bytes.get16
    rw [Bytes.getLE_congr fun i h₁ h₂ => get_putAddrs_of_notMem c _ (by omega)]
  have h32 : ∀ (c : Block) (o : ℕ), o + 4 ≤ 12 →
      (putAddrs c (dinodeOff k + 12) ((List.finRange (ndirect + 1)).map d.addrs)).get32
        (dinodeOff k + o) = c.get32 (dinodeOff k + o) := by
    intro c o ho
    unfold Bytes.get32
    rw [Bytes.getLE_congr fun i h₁ h₂ => get_putAddrs_of_notMem c _ (by omega)]
  have put16 : ∀ (c : Block) (o o' : ℕ) (v : BitVec 16), o' + 2 ≤ o →
      (c.put16 (dinodeOff k + o) v).get16 (dinodeOff k + o') = c.get16 (dinodeOff k + o') := by
    intro c o o' v ho
    unfold Bytes.get16 Bytes.put16
    rw [Bytes.getLE_putLE_of_disjoint c _ (by omega)]
  have put32 : ∀ (c : Block) (o o' : ℕ) (v : BitVec 32), o' + 2 ≤ o →
      (c.put32 (dinodeOff k + o) v).get16 (dinodeOff k + o') = c.get16 (dinodeOff k + o') := by
    intro c o o' v ho
    unfold Bytes.get16 Bytes.put32
    rw [Bytes.getLE_putLE_of_disjoint c _ (by omega)]
  have zero : ∀ c : Block, c.get16 (dinodeOff k) = c.get16 (dinodeOff k + 0) := fun _ => rfl
  unfold getDinode putDinode
  ext1 <;> dsimp only
  · rw [zero, h16 _ 0 (by omega), put32 _ 8 0 _ (by omega), put16 _ 6 0 _ (by omega),
      put16 _ 4 0 _ (by omega), put16 _ 2 0 _ (by omega), Nat.add_zero,
      Bytes.get16_put16_self b (by omega) _]
  · rw [h16 _ 2 (by omega), put32 _ 8 2 _ (by omega), put16 _ 6 2 _ (by omega),
      put16 _ 4 2 _ (by omega), Bytes.get16_put16_self _ (by omega) _]
  · rw [h16 _ 4 (by omega), put32 _ 8 4 _ (by omega), put16 _ 6 4 _ (by omega),
      Bytes.get16_put16_self _ (by omega) _]
  · rw [h16 _ 6 (by omega), put32 _ 8 6 _ (by omega), Bytes.get16_put16_self _ (by omega) _]
  · rw [h32 _ 8 (by omega), Bytes.get32_put32_self _ (by omega) _]
  · funext i
    have hi : i.val < 13 := i.isLt
    rw [get32_putAddrs _ _ (by omega) (by omega)]
    simp

/-! ### The free bit map -/

/-- The mask `1 << (bi % 8)`. -/
def bitMask (bi : ℕ) : UInt8 := ⟨BitVec.twoPow 8 (bi % 8)⟩

/-- The bit `bi` of a bit map block. -/
def getBit (b : Block) (bi : ℕ) : Bool := (b.get (bi / 8)).toBitVec.getLsbD (bi % 8)

/-- The assignment `data[bi/8] |= m`. -/
def setBit (b : Block) (bi : ℕ) : Block := b.set (bi / 8) (b.get (bi / 8) ||| bitMask bi)

/-- The assignment `data[bi/8] &= ~m`. -/
def clearBit (b : Block) (bi : ℕ) : Block := b.set (bi / 8) (b.get (bi / 8) &&& ~~~bitMask bi)

/-- **Setting a bit.** -/
theorem getBit_setBit (b : Block) {i j : ℕ} (hi : i < bpb) :
    getBit (setBit b i) j = if j = i then true else getBit b j := by
  have hbyte : i / 8 < bsize := by
    have : i < 8192 := hi
    have : bsize = 1024 := rfl
    omega
  unfold getBit setBit
  by_cases hdiv : j / 8 = i / 8
  · rw [hdiv, Bytes.get_set_self b hbyte]
    simp only [bitMask, UInt8.toBitVec_or, BitVec.getLsbD_or, BitVec.getLsbD_twoPow]
    by_cases hji : j = i
    · subst hji
      simp [Nat.mod_lt j (by decide : 0 < 8)]
    · have hmod : i % 8 ≠ j % 8 := by omega
      simp [hji, hmod]
  · have hji : j ≠ i := fun heq => hdiv (by rw [heq])
    rw [Bytes.get_set_of_ne b hdiv, if_neg hji]

/-- **Clearing a bit.** -/
theorem getBit_clearBit (b : Block) {i j : ℕ} (hi : i < bpb) :
    getBit (clearBit b i) j = if j = i then false else getBit b j := by
  have hbyte : i / 8 < bsize := by
    have : i < 8192 := hi
    have : bsize = 1024 := rfl
    omega
  unfold getBit clearBit
  by_cases hdiv : j / 8 = i / 8
  · rw [hdiv, Bytes.get_set_self b hbyte]
    simp only [bitMask, UInt8.toBitVec_and, UInt8.toBitVec_not, BitVec.getLsbD_and,
      BitVec.getLsbD_not, BitVec.getLsbD_twoPow]
    by_cases hji : j = i
    · subst hji
      simp [Nat.mod_lt j (by decide : 0 < 8)]
    · have hmod : i % 8 ≠ j % 8 := by omega
      simp [hji, hmod, Nat.mod_lt j (by decide : 0 < 8)]
  · have hji : j ≠ i := fun heq => hdiv (by rw [heq])
    rw [Bytes.get_set_of_ne b hdiv, if_neg hji]

/-! ### Directory entries -/

/-- `struct dirent`, as it is read: the number, and the `DIRSIZ` bytes of the name. -/
structure Dirent where
  inum : BitVec 16
  name : List UInt8
  deriving DecidableEq

/-- The entry held in 16 bytes. -/
def getDirent (l : List UInt8) : Dirent where
  inum := BitVec.ofNat 16 ((l.getD 0 0).toNat + 256 * (l.getD 1 0).toNat)
  name := (l.drop 2).take dirsiz

/-- The 16 bytes of an entry. -/
def Dirent.bytes (de : Dirent) : List UInt8 :=
  UInt8.ofNat de.inum.toNat :: UInt8.ofNat (de.inum.toNat / 256) :: de.name

def direntSize : ℕ := 16

/-! ### The superblock -/

/-- The fields of `struct superblock`, with what makes them a layout: the inode blocks,
the bit map and the data blocks follow one another. -/
structure Super where
  size : ℕ -- size of file system image (blocks)
  ninodes : ℕ -- number of inodes
  inodestart : ℕ -- block number of first inode block
  bmapstart : ℕ -- block number of first free map block
  inodes_lt : (ninodes - 1) / ipb + inodestart < bmapstart
  meta_lt : bmapstart + (size / bpb + 1) < size
  size_le : size + bpb ≤ 2 ^ 31
  root_lt : 1 < ninodes
  ninodes_le : ninodes ≤ 2 ^ 16

namespace Super

variable (sb : Super)

/-- The number of blocks before the data blocks. -/
def nmeta : ℕ := sb.bmapstart + (sb.size / bpb + 1)

/-- The block of inode `i`. -/
def iblock (i : ℕ) : ℕ := i / ipb + sb.inodestart

/-- The block of the free map containing the bit for block `b`. -/
def bblock (b : ℕ) : ℕ := b / bpb + sb.bmapstart

end Super

end Xv6.Fs
