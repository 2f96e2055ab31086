import Xv6.Mkfs.Progress

/-!
# Whether an image is well-formed

`mkfs` rounds the size of the root directory up to the next multiple of the block size, even
if it is one already.  The directory then ends with a block that is not there, which no code
of the kernel expects.

## Main definitions

* `ImageOk` — the image satisfies the kernel's file-system invariant.

## Main results

* `mkfs_wellFormed_iff` — it does unless the entries of the root directory fill its last block.
-/

namespace Xv6.Mkfs

open Fs

/-- An inode, where the kernel reads it. -/
def inode (s : State) (i : ℕ) : Dinode := getDinode (s.disk (mkfsSuper.iblock i)) (i % ipb)

/-- The inodes in use: those of the inode blocks with a type. -/
def Allocated (s : State) (i : ℕ) : Prop := i < ninodeblocks * ipb ∧ (inode s i).type ≠ 0

/-- **The image satisfies the kernel's file-system invariant.** -/
structure ImageOk (s : State) : Prop where
  noHoles : ∀ i, Allocated s i → ∀ bn, bn * bsize < (inode s i).size.toNat →
    blockOf s.disk (inode s i) bn ≠ 0
  distinct : ∀ i k j l, Allocated s i → Allocated s j → ptr s.disk (inode s i) k ≠ 0 →
    ptr s.disk (inode s i) k = ptr s.disk (inode s j) l → i = j ∧ k = l
  region : ∀ i k, Allocated s i → ptr s.disk (inode s i) k ≠ 0 →
    nmeta ≤ ptr s.disk (inode s i) k ∧ ptr s.disk (inode s i) k < fssize
  bitmap : Marked s
  marked : ∀ i k, Allocated s i → ptr s.disk (inode s i) k ≠ 0 →
    ptr s.disk (inode s i) k < s.freeblock
  entries : ∀ k, k < slots (fileData s.disk (inode s root)) →
    (dirent (fileData s.disk (inode s root)) k).inum ≠ 0 →
    mkfsSuper.iblock (dirent (fileData s.disk (inode s root)) k).inum.toNat < fssize ∧
      (inode s (dirent (fileData s.disk (inode s root)) k).inum.toNat).type ≠ 0

section ImageOk

variable {files : List Input} {s s' : State} {N : Nodes} {i : ℕ} {nd : Node}

theorem dinode_store (hi : i < ninodeblocks * ipb) : (store s).dinode i = inode s i :=
  decode_dinode _ hi

theorem allocated_iff : Allocated s i ↔ Used imageSuper (store s).dinode i := by
  refine and_congr_right fun hi => ?_
  rw [dinode_store hi]

theorem Built.ptr_disk (h : Built s N) (hi : Allocated s i) (k : ℕ) :
    ptr s.disk (inode s i) k = refs imageSuper (store s).blk (store s).dinode (i, k) := by
  have hu := allocated_iff.mp hi
  rw [refs_of_used hu, dinode_store hi.1]
  refine ptr_congr (fun _ _ => rfl) fun h0 j _ => ?_
  have hrange := h.blocks.exact.range (i, ndirect)
  rw [refs_of_used hu, ptr_addr (Nat.le_refl _), dinode_store hi.1] at hrange
  rw [store_blk (hrange h0).1]

theorem Built.fileData_disk (h : Built s N) (hi : Allocated s i) :
    fileData s.disk (inode s i) = fileData (store s).blk ((store s).dinode i) := by
  have hu := allocated_iff.mp hi
  unfold fileData
  rw [dinode_store hi.1]
  refine List.map_congr_left fun x _ => ?_
  have hblock : blockOf s.disk (inode s i) (x / bsize)
      = blockOf (store s).blk (inode s i) (x / bsize) := by
    rw [blockOf, h.ptr_disk hi, refs_of_used hu, dinode_store hi.1]
    rfl
  unfold fileByte
  rw [hblock]
  split
  · rfl
  · next h0 =>
    have hrange := h.blocks.exact.range (i, slotOf (x / bsize))
    rw [refs_of_used hu, dinode_store hi.1, ← blockOf] at hrange
    rw [store_blk (hrange h0).1]

/-- **An image in which the root directory has all its blocks.** -/
theorem Built.imageOk (h : Built s (imageWith (paddedRoot files) files)) (hmark : Marked s)
    (hn : files.length + 2 ≤ imageSuper.ninodes) : ImageOk s := by
  have hle := imageSuper.ninodes_le
  refine ⟨fun i hi bn hbn => ?_, fun i k j l hi hj h0 heq => ?_, fun i k hi h0 => ?_, hmark,
    fun i k hi h0 => ?_, fun k hk h0 => ?_⟩
  · have hu := allocated_iff.mp hi
    have hblock := h.blocks.noHoles i hu bn (by rwa [dinode_store hi.1])
    rw [blockOf, h.ptr_disk hi, refs_of_used hu]
    exact hblock
  · rw [h.ptr_disk hi] at h0 heq
    rw [h.ptr_disk hj] at heq
    exact Prod.mk.inj (h.blocks.exact.inj _ _ h0 heq)
  · rw [h.ptr_disk hi] at h0 ⊢
    exact h.blocks.exact.range _ h0
  · rw [h.ptr_disk hi] at h0 ⊢
    exact of_decide_eq_true (h.blocks.exact.marked h0)
  · obtain ⟨hu, hroot⟩ := h.used (imageWith_root (paddedRoot files) files)
    have hdata : fileData s.disk (inode s root) = (paddedRoot files).data := by
      rw [h.fileData_disk (allocated_iff.mpr hu), hroot]
      rfl
    rw [hdata] at h0 ⊢
    have hinum := inum_paddedRoot (k := k) (show files.length + 2 ≤ 2 ^ 16 by omega)
    generalize dirent (paddedRoot files).data k = de at h0 hinum ⊢
    have hpos : de.inum.toNat ≠ 0 := fun hz => h0 (BitVec.eq_of_toNat_eq hz)
    obtain ⟨nd, hnd⟩ : ∃ nd, imageWith (paddedRoot files) files de.inum.toNat = some nd :=
      imageWith_isSome (by split_ifs at hinum <;> omega)
    have hused := (h.used hnd).1
    exact ⟨iblock_lt_fssize hused.1, (allocated_iff.mpr hused).2⟩

/-- **An image whose root directory ends with a full block** has a hole there. -/
theorem not_imageOk (h : main files = some s) (hn : files.length ≤ 206)
    (hfull : (files.length + 2) % 64 = 0) : ¬ ImageOk s := by
  intro hok
  have hle : files.length + 2 ≤ imageSuper.ninodes := Nat.add_le_add_right hn 2
  have hlen : (rootNode files).data.length = 16 * (files.length + 2) := length_rootNode
  obtain ⟨s₀, hb, -, hdin, -, -⟩ := main_full h hle (by rw [hlen, bsize_eq]; omega)
  obtain ⟨hu, -⟩ := hb.used (imageWith_root (rootNode files) files)
  have hinode : inode s root = { (store s₀).dinode root with
      size := BitVec.ofNat 32 ((rootNode files).data.length + bsize) } := by
    rw [← dinode_store (by decide), hdin]
    exact Function.update_self ..
  have halloc : Allocated s root := ⟨by decide, by rw [hinode]; exact hu.2⟩
  obtain ⟨bn, hbn⟩ : ∃ bn, (rootNode files).data.length = bn * bsize :=
    ⟨(files.length + 2) / 64, by rw [hlen, bsize_eq]; omega⟩
  have hdirect : bn < ndirect := by
    rw [hlen, bsize_eq] at hbn
    rw [ndirect_eq]
    omega
  refine hok.noHoles root halloc bn ?_ ?_
  · have hb : bsize = 1024 := rfl
    rw [hinode]
    show bn * bsize < (BitVec.ofNat 32 ((rootNode files).data.length + bsize)).toNat
    rw [BitVec.toNat_ofNat, Nat.mod_eq_of_lt (by omega)]
    omega
  · have haddr := hb.addr_end (imageWith_root (rootNode files) files) hbn hdirect
    rw [blockOf_direct hdirect, hinode]
    rw [Dinode.addr] at haddr ⊢
    exact haddr

/-- **When mkfs builds a well-formed image.**  The image satisfies the kernel's file-system
invariant unless the entries of the root directory fill its last block: then the size is
rounded up to include a block that is not there. -/
theorem mkfs_wellFormed_iff (h : main files = some s) (hn : files.length ≤ 206) :
    ImageOk s ↔ (files.length + 2) % 64 ≠ 0 := by
  have hle : files.length + 2 ≤ imageSuper.ninodes := Nat.add_le_add_right hn 2
  refine ⟨fun hok hfull => not_imageOk h hn hfull hok, fun hne => ?_⟩
  have hlen : (rootNode files).data.length = 16 * (files.length + 2) := length_rootNode
  obtain ⟨hb, hmark⟩ := main_spec h hle (by rw [hlen, bsize_eq]; omega)
  exact hb.imageOk hmark hle

end ImageOk

/-- Files without contents, called by two characters each. -/
def emptyFiles (n : ℕ) : List Input :=
  (List.range n).map fun k => ⟨[UInt8.ofNat (48 + k / 64), UInt8.ofNat (48 + k % 64)], []⟩

theorem storable_emptyFiles {n : ℕ} (hn : n ≤ 64) : ∀ f ∈ emptyFiles n, Storable f := by
  intro f hf
  obtain ⟨k, hk, rfl⟩ := List.mem_map.mp hf
  have hlt : k < 64 := Nat.lt_of_lt_of_le (List.mem_range.mp hk) hn
  have hname : ∀ k < 64, shortname [UInt8.ofNat (48 + k / 64), UInt8.ofNat (48 + k % 64)]
      ≠ none := by
    decide
  exact ⟨hname k hlt, Nat.zero_le _⟩

/-- A file of twenty bytes and one that takes two blocks. -/
def twoFiles : List Input :=
  [⟨[110], [List.replicate 20 1]⟩, ⟨[95, 99, 97, 116], [List.replicate bsize 2, [3]]⟩]

theorem exists_twoFiles : ∃ s, main twoFiles = some s := by
  refine main_isSome twoFiles (by decide) (fun f hf => ?_) (by decide +kernel)
  obtain rfl | hf := List.mem_cons.mp hf
  · exact ⟨by decide, by decide⟩
  · rw [List.mem_singleton.mp hf]
    exact ⟨by decide, by decide +kernel⟩

theorem mkfs_wellFormed_two : ∃ s, main twoFiles = some s ∧ ImageOk s := by
  obtain ⟨s, hs⟩ := exists_twoFiles
  exact ⟨s, hs, (mkfs_wellFormed_iff hs (by decide)).mpr (by decide)⟩

/-- With 62 files, the 64 entries of the root directory fill its block, and the image is not
well-formed. -/
theorem mkfs_not_wellFormed : ∃ s, main (emptyFiles 62) = some s ∧ ¬ ImageOk s := by
  obtain ⟨s, hs⟩ := main_isSome (emptyFiles 62) (by decide)
    (storable_emptyFiles (by decide)) (by decide)
  exact ⟨s, hs, not_imageOk hs (by decide) (by decide)⟩

end Xv6.Mkfs
