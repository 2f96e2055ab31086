import Xv6.Fs.Whole
import Xv6.Mkfs.Progress

/-!
# The kernel on an image mkfs built

An image of at most `NINODES - 2` files has all its inodes where the superblock says they are.
If its root directory has all its blocks, a kernel can be started on it.

## Main definitions

* `Proper` — input files with names a directory can have.

## Main results

* `wellFormed_mkfs` — a kernel can be started on the image.
* `isDir_paddedRoot` — the root directory of the image.
-/

namespace Xv6.Mkfs

open Fs

/-- Input files that can have inodes, with names that are not empty, not "." or "..", and
pairwise distinct. -/
structure Proper (files : List Input) : Prop where
  count : files.length ≤ ninodes - 2
  names : ∀ f ∈ files, cname (nameOf f) ≠ [] ∧ cname (nameOf f) ≠ dot ∧ cname (nameOf f) ≠ dotdot
  distinct : (files.map fun f => cname (nameOf f)).Nodup

section Boot

variable {files : List Input} {s : State} {N : Nodes} {i : ℕ}

/-! ### The disk as the kernel reads it -/

theorem blk_boot : (decode mkfsSuper (boot s.disk)).blk = (store s).blk := rfl

theorem dinode_boot (hi : i < ninodes) :
    (decode mkfsSuper (boot s.disk)).dinode i = (store s).dinode i := by
  have hlt : i < imageSuper.ninodes := Nat.lt_of_lt_of_le hi (by decide)
  rw [store, decode_dinode _ hlt, decode_dinode _ hi]
  rfl

theorem bit_boot (h : Marked s) {b : ℕ} (hb : b < fssize) :
    (decode mkfsSuper (boot s.disk)).bit b = marks s.freeblock b := by
  have hlt : b < bpb := Nat.lt_trans hb (by decide)
  have hblock : mkfsSuper.bblock b = mkfsSuper.bmapstart := by
    rw [Super.bblock, Nat.div_eq_of_lt hlt, Nat.zero_add]
  rw [decode_bit_apply _ hb, hblock, Nat.mod_eq_of_lt hlt]
  exact h b hlt

theorem used_boot (hout : ∀ i, ninodes ≤ i → ¬ Used imageSuper (store s).dinode i) (i : ℕ) :
    Used mkfsSuper (decode mkfsSuper (boot s.disk)).dinode i ↔
      Used imageSuper (store s).dinode i := by
  by_cases hi : i < ninodes
  · have hlt : i < imageSuper.ninodes := Nat.lt_of_lt_of_le hi (by decide)
    unfold Used
    rw [dinode_boot hi]
    exact ⟨fun hu => ⟨hlt, hu.2⟩, fun hu => ⟨hi, hu.2⟩⟩
  · exact iff_of_false (fun hu => hi hu.1) (hout i (Nat.le_of_not_lt hi))

/-- **References and bit map agree on the kernel's side.** -/
theorem exact_boot (hmark : Marked s)
    (hout : ∀ i, ninodes ≤ i → ¬ Used imageSuper (store s).dinode i)
    (h : Exact (marks s.freeblock) nmeta fssize
      (refs imageSuper (store s).blk (store s).dinode)) :
    Exact (decode mkfsSuper (boot s.disk)).bit mkfsSuper.nmeta mkfsSuper.size
      (refs mkfsSuper (decode mkfsSuper (boot s.disk)).blk
        (decode mkfsSuper (boot s.disk)).dinode) := by
  have hrefs : refs mkfsSuper (decode mkfsSuper (boot s.disk)).blk
      (decode mkfsSuper (boot s.disk)).dinode
      = refs imageSuper (store s).blk (store s).dinode := by
    funext ⟨i, k⟩
    by_cases hu : Used imageSuper (store s).dinode i
    · have hu' := (used_boot hout i).mpr hu
      rw [refs_of_used hu, refs_of_used hu', blk_boot, dinode_boot hu'.1]
    · rw [refs_of_not hu, refs_of_not (mt (used_boot hout i).mp hu)]
  rw [hrefs]
  refine ⟨h.pos, h.range, h.inj, fun b hb => ?_⟩
  rw [bit_boot hmark hb]
  exact h.bit_iff b hb

theorem Built.not_used (h : Built s N) (hout : ∀ i, ninodes ≤ i → N i = none) (hi : ninodes ≤ i) :
    ¬ Used imageSuper (store s).dinode i := fun hu => by
  have := h.node i
  rw [hout i hi, if_pos hu] at this
  cases this

theorem Built.view_node (h : Built s N) (hout : ∀ i, ninodes ≤ i → N i = none) :
    (view mkfsSuper (boot s.disk)).node = N := by
  funext i
  have hused := used_boot (fun i hi => h.not_used hout hi) i
  rw [h.node i]
  show (if Used mkfsSuper (decode mkfsSuper (boot s.disk)).dinode i then _ else none) = _
  by_cases hu : Used imageSuper (store s).dinode i
  · rw [if_pos hu, if_pos (hused.mpr hu), blk_boot, dinode_boot (hused.mpr hu).1]
  · rw [if_neg hu, if_neg (mt hused.mp hu)]

theorem Built.blockInv_boot (h : Built s N) (hmark : Marked s)
    (hout : ∀ i, ninodes ≤ i → N i = none) :
    BlockInv mkfsSuper (decode mkfsSuper (boot s.disk)).bit
      (decode mkfsSuper (boot s.disk)).blk (decode mkfsSuper (boot s.disk)).dinode := by
  have hnot : ∀ i, ninodes ≤ i → ¬ Used imageSuper (store s).dinode i :=
    fun i hi => h.not_used hout hi
  refine ⟨exact_boot hmark hnot h.blocks.exact, fun i hu => ?_, fun i hu => ?_⟩
  · rw [dinode_boot hu.1]
    exact h.blocks.noHoles i ((used_boot hnot i).mp hu)
  · rw [dinode_boot hu.1]
    exact h.blocks.size_le i ((used_boot hnot i).mp hu)

/-! ### A kernel can be started -/

theorem imageWith_out {rootDir : Node} (hn : files.length ≤ ninodes - 2) (hi : ninodes ≤ i) :
    imageWith rootDir files i = none := by
  refine imageWith_of_ge ?_
  have : ninodes = 200 := rfl
  omega

theorem type_fileNode (f : Input) : (fileNode f).type ≠ tDir := show tFile ≠ tDir by decide

theorem imageWith_cases {rootDir nd : Node} (h : imageWith rootDir files i = some nd) :
    i = root ∧ nd = rootDir ∨ ∃ k, ∃ hk : k < files.length, i = k + 2 ∧ nd = fileNode files[k] := by
  rw [imageWith] at h
  split at h
  · next hi =>
    cases h
    exact .inl ⟨hi, rfl⟩
  split at h
  · next htwo =>
    rw [Option.map_eq_some_iff] at h
    obtain ⟨f, hf, rfl⟩ := h
    obtain ⟨hk, rfl⟩ := List.getElem?_eq_some_iff.mp hf
    exact .inr ⟨i - 2, hk, by omega, rfl⟩
  · cases h

/-- **A kernel can be started on the image**, if the root directory has all its blocks. -/
theorem wellFormed_mkfs (h : main files = some s) (hn : files.length ≤ ninodes - 2)
    (hne : (files.length + 2) % 64 ≠ 0) : WellFormed mkfsSuper s.disk ∧
      (view mkfsSuper (boot s.disk)).node = imageWith (paddedRoot files) files := by
  have h200 : ninodes = 200 := rfl
  have hlen : (rootNode files).data.length = 16 * (files.length + 2) := length_rootNode
  obtain ⟨hb, hmark⟩ := main_spec h (by
    show files.length + 2 ≤ 208
    omega) (by rw [hlen, bsize_eq]; omega)
  have hview := hb.view_node fun i hi => imageWith_out hn hi
  refine ⟨⟨hb.blockInv_boot hmark fun i hi => imageWith_out hn hi, fun i nd hi ht k hk =>
    ?_⟩, hview⟩
  rw [hview] at hi
  obtain ⟨-, rfl⟩ | ⟨k', hk', -, rfl⟩ := imageWith_cases hi
  · have hinum := inum_paddedRoot (k := k) (show files.length + 2 ≤ 2 ^ 16 by omega)
    have hroot : root = 1 := rfl
    rw [hinum]
    show _ < 200
    split_ifs <;> omega
  · exact absurd ht (type_fileNode _)

/-! ### The root directory -/

theorem slots_paddedRoot : files.length + 2 ≤ slots (paddedRoot files).data := by
  have hle : slots (rootNode files).data ≤ slots (paddedRoot files).data := by
    refine Nat.div_le_div_right ?_
    unfold paddedRoot
    rw [List.length_append]
    exact Nat.le_add_right ..
  rwa [slots_rootNode] at hle

theorem dirent_paddedRoot {k : ℕ} (hk : k < files.length) :
    dirent (paddedRoot files).data (k + 2) = newEntry (nameOf files[k]) (k + 2) := by
  have hslots : slots (rootNode files).data = files.length + 2 := slots_rootNode
  have hk' : k + 2 < (rootEntries files).length := by
    rw [length_rootEntries]
    omega
  have hget : (rootEntries files)[k + 2] = newEntry (nameOf files[k]) (k + 2) := by
    simp only [rootEntries, List.getElem_cons_succ, List.getElem_mapIdx]
  unfold paddedRoot
  dsimp only
  rw [dirent_append (by omega), rootNode, dirent_row name_rootEntries hk', hget]

/-- The root directory of an image starts with "." and "..", and has no other such names. -/
theorem isDir_paddedRoot (h : Proper files) : (paddedRoot files).IsDir root := by
  have hcount := h.count
  have h200 : ninodes = 200 := rfl
  have hn : files.length + 2 ≤ 2 ^ 16 := by omega
  have hlen : (rootNode files).data.length = direntSize * (files.length + 2) := length_rootNode
  have hslots : slots (rootNode files).data = files.length + 2 := slots_rootNode
  have hentry : ∀ k, k < files.length + 2 → dirent (paddedRoot files).data k
      = (rootEntries files).getD k zeroEntry := by
    intro k hk
    have hk' : k < (rootEntries files).length := by rwa [length_rootEntries]
    unfold paddedRoot
    dsimp only
    rw [dirent_append (by omega), rootNode, dirent_row name_rootEntries hk',
      List.getD_eq_getElem _ _ hk']
  have h₀ := hentry 0 (by omega)
  have h₁ := hentry 1 (by omega)
  have hle : files.length + 2 ≤ slots (paddedRoot files).data := slots_paddedRoot
  refine ⟨?_, by omega, ?_, ?_, ?_, ?_, fun k htwo hk h0 => ?_⟩
  · unfold paddedRoot
    dsimp only
    rw [List.length_append, padding, List.length_replicate, hlen]
    have hround := le_roundSize (direntSize * (files.length + 2))
    rw [← Nat.add_sub_assoc hround, Nat.add_sub_cancel_left]
    exact Dvd.dvd.mul_left (by decide) _
  · rw [h₀]
    rfl
  · rw [h₀]
    exact cname_newEntry
  · rw [Node.parent, inum_paddedRoot hn]
    exact Nat.one_ne_zero
  · rw [h₁]
    exact cname_newEntry
  · rw [inum_paddedRoot hn] at h0
    have hk : k < files.length + 2 := by
      split_ifs at h0 <;> omega
    obtain ⟨m, rfl⟩ : ∃ m, k = m + 2 := ⟨k - 2, by omega⟩
    have hm : m < files.length := by omega
    have hname : cname (dirent (paddedRoot files).data (m + 2)).name = cname (nameOf files[m]) := by
      rw [dirent_paddedRoot hm]
      exact cname_newEntry
    rw [hname]
    exact (h.names _ (List.getElem_mem hm)).2

theorem nlink_image {nd : Node} (h : imageWith (paddedRoot files) files i = some nd) :
    nd.nlink = 1 := by
  obtain ⟨-, rfl⟩ | ⟨k, hk, -, rfl⟩ := imageWith_cases h <;> rfl

end Boot

end Xv6.Mkfs
