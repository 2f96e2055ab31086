import Xv6.Fs.Change
import Xv6.Mkfs.Build

/-!
# The image mkfs leaves

The root directory has an entry for itself twice and then one for each input file, in order;
the file in entry `k` is inode `k`.  At the end the size of the root directory is rounded up
to whole blocks, always by at least one byte.  If its entries fill their last block, the
directory becomes one block larger than the blocks it has.

## Main definitions

* `image`, `imageWith` — the files of an image, for a given root directory.
* `paddedRoot` — the root directory once its size is rounded.

## Main results

* `main_cases`, `main_spec` — the image `mkfs` leaves, before and after rounding.
* `inum_paddedRoot` — what an entry of the root directory holds.
-/

namespace Xv6.Mkfs

open Function Fs

/-! ### Rows of directory entries -/

/-- Entries one after another. -/
def row (es : List Dirent) : List UInt8 := es.flatMap Dirent.bytes

section Row

variable {es : List Dirent} {data tail : List UInt8}

theorem length_row (h : ∀ de ∈ es, de.name.length = dirsiz) :
    (row es).length = direntSize * es.length := by
  induction es with
  | nil => rfl
  | cons de es ih =>
    rw [List.forall_mem_cons] at h
    rw [row, List.flatMap_cons, List.length_append, length_bytes h.1, ← row, ih h.2,
      List.length_cons, Nat.mul_succ, Nat.add_comm]

theorem dirent_row (h : ∀ de ∈ es, de.name.length = dirsiz) {k : ℕ} (hk : k < es.length) :
    dirent (row es) k = es[k] := by
  induction es generalizing k with
  | nil => exact absurd hk (Nat.not_lt_zero k)
  | cons de es ih =>
    rw [List.forall_mem_cons] at h
    have hlen := length_bytes h.1
    rw [dirent, row, List.flatMap_cons, ← row]
    cases k with
    | zero =>
      rw [Nat.mul_zero, List.drop_zero, List.take_left' hlen, getDirent_bytes h.1]
      rfl
    | succ k =>
      have hdrop : (de.bytes ++ row es).drop (direntSize * (k + 1))
          = (row es).drop (direntSize * k) := by
        rw [Nat.mul_succ, Nat.add_comm, ← List.drop_drop, List.drop_left' hlen]
      rw [hdrop, ← dirent, ih h.2 (Nat.lt_of_succ_lt_succ hk)]
      rfl

theorem dirent_append {k : ℕ} (hk : k < slots data) : dirent (data ++ tail) k = dirent data k := by
  have hle : direntSize * k + direntSize ≤ data.length := by
    have hd := direntSize_eq
    unfold slots at hk
    rw [hd] at hk ⊢
    omega
  have hdrop : (data ++ tail).drop (direntSize * k) = data.drop (direntSize * k) ++ tail :=
    List.drop_append_of_le_length (by omega)
  have hlen : direntSize ≤ (data.drop (direntSize * k)).length := by
    rw [List.length_drop]
    omega
  rw [dirent, dirent, hdrop, List.take_append_of_le_length hlen]

theorem dirent_zeroes {n k : ℕ} (hdvd : direntSize ∣ data.length) (hk : slots data ≤ k) :
    (dirent (data ++ List.replicate n 0) k).inum = 0 := by
  have hd := direntSize_eq
  have hle : data.length ≤ direntSize * k := by
    unfold slots at hk
    rw [hd] at hk hdvd ⊢
    omega
  have hdrop : (data ++ List.replicate n 0).drop (direntSize * k)
      = List.replicate (n - (direntSize * k - data.length)) 0 := by
    rw [List.drop_append, List.drop_eq_nil_of_le hle, List.nil_append, List.drop_replicate]
  rw [dirent, hdrop, List.take_replicate]
  have hget : ∀ m x : ℕ, (List.replicate m (0 : UInt8)).getD x 0 = 0 := fun m x => by
    rw [List.getD_eq_getElem?_getD, List.getElem?_replicate]
    split <;> rfl
  unfold getDirent
  dsimp only
  rw [hget, hget]
  rfl

end Row

/-! ### The files -/

/-- The name a file gets. -/
def nameOf (f : Input) : List UInt8 := (shortname f.name).getD []

/-- The entries of the root directory. -/
def rootEntries (files : List Input) : List Dirent :=
  newEntry dot root :: newEntry dotdot root :: files.mapIdx fun k f => newEntry (nameOf f) (k + 2)

/-- The root directory, before its size is rounded. -/
def rootNode (files : List Input) : Node := ⟨tDir, 0, 0, 1, row (rootEntries files)⟩

/-- The file made from an input file. -/
def fileNode (f : Input) : Node := ⟨tFile, 0, 0, 1, f.chunks.flatten⟩

/-- The files of an image, for a given root directory. -/
def imageWith (rootDir : Node) (files : List Input) : Nodes := fun i =>
  if i = root then some rootDir
  else if 2 ≤ i then files[i - 2]?.map fileNode
  else none

/-- The files of an image, before the size of the root directory is rounded. -/
def image (files : List Input) : Nodes := imageWith (rootNode files) files

section Image

variable {files : List Input} {f : Input} {s s' : State} {N : Nodes} {i : ℕ} {nd : Node}
  {k len : ℕ} {rootDir : Node}

theorem name_rootEntries : ∀ de ∈ rootEntries files, de.name.length = dirsiz := by
  intro de hde
  obtain rfl | rfl | hde := by simpa only [rootEntries, List.mem_cons] using hde
  · exact length_newEntry
  · exact length_newEntry
  · obtain ⟨k, hk, rfl⟩ := List.mem_mapIdx.mp hde
    exact length_newEntry

theorem length_rootEntries : (rootEntries files).length = files.length + 2 := by
  simp [rootEntries]

theorem length_rootNode : (rootNode files).data.length = direntSize * (files.length + 2) := by
  rw [rootNode, length_row name_rootEntries, length_rootEntries]

theorem slots_rootNode : slots (rootNode files).data = files.length + 2 := by
  rw [slots, length_rootNode, Nat.mul_div_cancel_left _ (by decide)]

theorem rootNode_append : rootNode (files ++ [f]) = { rootNode files with
    data := (rootNode files).data ++ (newEntry (nameOf f) (files.length + 2)).bytes } := by
  unfold rootNode
  congr 1
  simp [rootEntries, row, List.mapIdx_append]

theorem imageWith_root (rootDir : Node) (files : List Input) :
    imageWith rootDir files root = some rootDir := if_pos rfl

theorem imageWith_file (hk : k < files.length) :
    imageWith rootDir files (k + 2) = some (fileNode files[k]) := by
  have hne : k + 2 ≠ root := fun h => by
    have : root = 1 := rfl
    omega
  rw [imageWith, if_neg hne, if_pos (Nat.le_add_left ..), Nat.add_sub_cancel,
    List.getElem?_eq_getElem hk]
  rfl

theorem imageWith_of_ge (hi : files.length + 2 ≤ i) : imageWith rootDir files i = none := by
  have hroot : root = 1 := rfl
  rw [imageWith, if_neg (by omega), if_pos (by omega), List.getElem?_eq_none (by omega)]
  rfl

theorem imageWith_update_root (rootDir rootDir' : Node) (files : List Input) :
    update (imageWith rootDir files) root (some rootDir') = imageWith rootDir' files := by
  funext i
  by_cases hi : i = root
  · rw [hi, update_self, imageWith_root]
  · rw [update_of_ne hi, imageWith, imageWith, if_neg hi, if_neg hi]

theorem imageWith_append (rootDir : Node) (files : List Input) (f : Input) :
    update (imageWith rootDir files) (files.length + 2) (some (fileNode f))
      = imageWith rootDir (files ++ [f]) := by
  funext i
  have hroot : root = 1 := rfl
  by_cases hi : i = files.length + 2
  · subst hi
    rw [update_self, imageWith, if_neg (by omega), if_pos (by omega), Nat.add_sub_cancel,
      List.getElem?_concat_length]
    rfl
  rw [update_of_ne hi, imageWith, imageWith]
  by_cases h₁ : i = root
  · rw [if_pos h₁, if_pos h₁]
  rw [if_neg h₁, if_neg h₁]
  by_cases h₂ : 2 ≤ i
  · rw [if_pos h₂, if_pos h₂]
    by_cases h₃ : i - 2 < files.length
    · rw [List.getElem?_append_left h₃]
    · rw [List.getElem?_eq_none (by omega),
        List.getElem?_eq_none (by rw [List.length_append, List.length_singleton]; omega)]
  · rw [if_neg h₂, if_neg h₂]

/-! ### The loop over the files -/

theorem Built.appendChunks {chunks : List (List UInt8)} (h : Built s N) (hi : N i = some nd)
    (heq : appendChunks s i chunks = some s') :
    Built s' (update N i (some { nd with data := nd.data ++ chunks.flatten })) ∧
      s'.freeinode = s.freeinode := by
  induction chunks generalizing s N nd with
  | nil =>
    cases heq
    rw [List.flatten_nil, List.append_nil, update_eq_self_iff.mpr hi.symm]
    exact ⟨h, rfl⟩
  | cons c cs ih =>
    simp only [Mkfs.appendChunks, Option.bind_eq_bind, Option.bind_eq_some_iff] at heq
    obtain ⟨s₁, happ, hrest⟩ := heq
    obtain ⟨h₁, hfi₁⟩ := h.iappend hi happ
    obtain ⟨h₂, hfi₂⟩ := ih h₁ (update_self ..) hrest
    rw [update_idem, List.append_assoc, ← List.flatten_cons] at h₂
    exact ⟨h₂, hfi₂.trans hfi₁⟩

/-- **One file.** -/
theorem Built.addFile (h : Built s (image files)) (hfree : s.freeinode = files.length + 2)
    (hlt : files.length + 2 < imageSuper.ninodes) (heq : addFile root s f = some s') :
    Built s' (image (files ++ [f])) ∧ s'.freeinode = files.length + 3 := by
  have hroot : root = 1 := rfl
  simp only [Mkfs.addFile, Option.bind_eq_bind, Option.bind_eq_some_iff, Prod.exists] at heq
  obtain ⟨name, hname, inum, s₁, halloc, s₂, happ, hchunks⟩ := heq
  have hnone : image files s.freeinode = none := by
    rw [hfree]
    exact imageWith_of_ge (Nat.le_refl _)
  obtain ⟨rfl, h₁, hfi₁⟩ := h.ialloc (by decide) (by omega) hnone halloc
  rw [hfree] at h₁ hfi₁ hchunks happ
  change Mkfs.iappend s₁ root (newEntry name (files.length + 2)).bytes = some s₂ at happ
  -- the entry in the root directory
  have hentry : update (image files) (files.length + 2) (some ⟨tFile, 0, 0, 1, []⟩) root
      = some (rootNode files) := by
    rw [update_of_ne (by omega)]
    exact imageWith_root ..
  obtain ⟨h₂, hfi₂⟩ := h₁.iappend hentry happ
  have hfile : update (update (image files) (files.length + 2)
      (some ⟨tFile, 0, 0, 1, []⟩)) root (some { rootNode files with
        data := (rootNode files).data ++ (newEntry name (files.length + 2)).bytes })
        (files.length + 2) = some ⟨tFile, 0, 0, 1, []⟩ := by
    rw [update_of_ne (by omega), update_self]
  obtain ⟨h₃, hfi₃⟩ := h₂.appendChunks hfile hchunks
  refine ⟨?_, by rw [hfi₃, hfi₂, hfi₁]⟩
  have hnew : rootNode (files ++ [f]) = { rootNode files with
      data := (rootNode files).data ++ (newEntry name (files.length + 2)).bytes } := by
    rw [rootNode_append, nameOf, hname, Option.getD_some]
  rw [← hnew, update_comm (by omega), update_idem, image,
    ← update_comm (by omega : root ≠ files.length + 2), imageWith_update_root] at h₃
  rw [image, ← imageWith_append]
  exact h₃

/-- **All files.** -/
theorem Built.addFiles {rest : List Input} (h : Built s (image files))
    (hfree : s.freeinode = files.length + 2)
    (hlt : files.length + rest.length + 2 ≤ imageSuper.ninodes)
    (heq : addFiles root s rest = some s') : Built s' (image (files ++ rest)) := by
  induction rest generalizing s files with
  | nil =>
    cases heq
    rwa [List.append_nil]
  | cons f rest ih =>
    simp only [Mkfs.addFiles, Option.bind_eq_bind, Option.bind_eq_some_iff] at heq
    obtain ⟨s₁, hone, hrest⟩ := heq
    rw [List.length_cons] at hlt
    obtain ⟨h₁, hfi₁⟩ := h.addFile hfree (by omega) hone
    have hlen : (files ++ [f]).length = files.length + 1 := List.length_append
    have h₂ := ih h₁ (by rw [hfi₁, hlen]) (by rw [hlen]; omega) hrest
    rwa [List.append_assoc, List.singleton_append] at h₂

/-- **The root directory.** -/
theorem built_makeRoot {r : ℕ} (heq : makeRoot = some (r, s)) :
    r = root ∧ Built s (image []) ∧ s.freeinode = 2 := by
  simp only [makeRoot, Option.bind_eq_bind, Option.bind_eq_some_iff, Prod.exists,
    Option.pure_def, Option.some.injEq, Prod.mk.injEq] at heq
  obtain ⟨r', s₁, halloc, s₂, hdot, s₃, hdotdot, rfl, rfl⟩ := heq
  obtain ⟨rfl, h₁, hfi₁⟩ := Built.start.ialloc (by decide) (by decide) rfl halloc
  have hfree : Mkfs.start.freeinode = root := rfl
  rw [hfree] at h₁ hfi₁ hdot hdotdot
  obtain ⟨h₂, hfi₂⟩ := h₁.iappend (update_self ..) hdot
  obtain ⟨h₃, hfi₃⟩ := h₂.iappend (update_self ..) hdotdot
  refine ⟨rfl, ?_, hfi₃.trans (hfi₂.trans hfi₁)⟩
  rw [update_idem, update_idem] at h₃
  have himage : image [] = update (fun _ => none) root (some (rootNode [])) := by
    funext i
    by_cases hi : i = root
    · rw [hi, update_self]
      exact imageWith_root ..
    · rw [update_of_ne hi, image, imageWith, if_neg hi]
      split <;> rfl
  rw [himage]
  exact h₃

/-! ### The end of the program -/

/-- The size the root directory is given: always more than it has. -/
def roundSize (len : ℕ) : ℕ := (len / bsize + 1) * bsize

/-- The bytes a directory of some length gets by that. -/
def padding (len : ℕ) : List UInt8 := List.replicate (roundSize len - len) 0

/-- The root directory once its size is rounded. -/
def paddedRoot (files : List Input) : Node :=
  { rootNode files with
    data := (rootNode files).data ++ padding (rootNode files).data.length }

theorem le_roundSize (len : ℕ) : len ≤ roundSize len :=
  Nat.le_of_lt (Nat.lt_mul_of_div_lt (Nat.lt_succ_self _) (by decide))

theorem roundSize_lt (h : len ≤ maxfile * bsize) : roundSize len < 2 ^ 32 := by
  have hdiv : len / bsize ≤ maxfile := Nat.div_le_of_le_mul (by rwa [Nat.mul_comm])
  have hmul := Nat.mul_le_mul_right bsize (Nat.succ_le_succ hdiv)
  exact Nat.lt_of_le_of_lt hmul (by decide)

/-- Rounding takes no further block if the last block is not full. -/
theorem lt_roundSize_iff {m : ℕ} (h : len % bsize ≠ 0) :
    m * bsize < roundSize len ↔ m * bsize < len := by
  have hdm := Nat.div_add_mod' len bsize
  unfold roundSize
  constructor
  · intro hlt
    have hle := Nat.mul_le_mul_right bsize (Nat.lt_succ_iff.mp (Nat.lt_of_mul_lt_mul_right hlt))
    omega
  · intro hlt
    exact Nat.lt_of_lt_of_le hlt (le_roundSize len)

theorem blocksFor_roundSize (h : len % bsize ≠ 0) : blocksFor (roundSize len) = blocksFor len := by
  have hind := lt_roundSize_iff (m := ndirect) h
  unfold blocksFor
  simp only [hind]
  rw [Nat.add_right_cancel_iff]
  change len % 1024 ≠ 0 at h
  show ((len / 1024 + 1) * 1024 + 1023) / 1024 = (len + 1023) / 1024
  omega

theorem fileByte_of_addrs {blk : ℕ → Block} {d d' : Dinode} (h : d'.addrs = d.addrs) (x : ℕ) :
    fileByte blk d' x = fileByte blk d x := by
  have hptr : ∀ k, ptr blk d' k = ptr blk d k :=
    fun k => ptr_congr (fun _ _ => by rw [Dinode.addr, Dinode.addr, h]) fun _ _ _ => rfl
  unfold fileByte blockOf
  rw [hptr]

/-- **The root directory with its size rounded** reads as if it was filled up with zeroes, even
where it has no block. -/
theorem Built.nodeOf_round (h : Built s (image files)) :
    nodeOf (store s).blk { (store s).dinode root with
      size := BitVec.ofNat 32 (roundSize (rootNode files).data.length) } = paddedRoot files := by
  obtain ⟨hu, hnode⟩ := h.used (imageWith_root (rootNode files) files)
  have hlen : (rootNode files).data.length = ((store s).dinode root).size.toNat := by
    rw [hnode, nodeOf, length_fileData]
  obtain ⟨len, hlen'⟩ : ∃ len, (rootNode files).data.length = len := ⟨_, rfl⟩
  rw [hlen'] at hlen ⊢
  have hsize := h.blocks.size_le root hu
  rw [← hlen] at hsize
  obtain ⟨d, hd⟩ : ∃ d, d = { (store s).dinode root with
    size := BitVec.ofNat 32 (roundSize len) } := ⟨_, rfl⟩
  have hsize' : d.size.toNat = roundSize len := by
    rw [hd]
    show (BitVec.ofNat 32 (roundSize len)).toNat = _
    rw [BitVec.toNat_ofNat, Nat.mod_eq_of_lt (roundSize_lt hsize)]
  have hbyte : ∀ x, fileByte (store s).blk d x = fileByte (store s).blk ((store s).dinode root) x :=
    fileByte_of_addrs (by rw [hd])
  have hdata : fileData (store s).blk d = fileData (store s).blk ((store s).dinode root)
      ++ padding len := by
    have hle := le_roundSize len
    unfold padding
    refine List.ext_getElem ?_ fun x h₁ h₂ => ?_
    · rw [List.length_append, length_fileData, length_fileData, List.length_replicate, hsize',
        ← hlen]
      omega
    rw [length_fileData, hsize'] at h₁
    rw [List.getElem_append]
    simp only [fileData, List.getElem_map, List.getElem_range, List.length_map,
      List.length_range, ← hlen, List.getElem_replicate]
    rw [hbyte]
    split
    · rfl
    · exact h.tail root hu x (by omega)
  rw [← hd, paddedRoot, hlen', hnode, nodeOf, nodeOf, hdata, hd]

/-- **Rounding the size of the root directory**, if its last block is not full. -/
theorem Built.round (h : Built s (image files)) (hne : (rootNode files).data.length % bsize ≠ 0)
    (hw : winode s root { (store s).dinode root with
      size := BitVec.ofNat 32 (roundSize (rootNode files).data.length) } = some s') :
    Built s' (imageWith (paddedRoot files) files) := by
  have hround := h.nodeOf_round
  obtain ⟨hu, hnode⟩ := h.used (imageWith_root (rootNode files) files)
  have hlen : (rootNode files).data.length = ((store s).dinode root).size.toNat := by
    rw [hnode, nodeOf, length_fileData]
  obtain ⟨len, hlen'⟩ : ∃ len, (rootNode files).data.length = len := ⟨_, rfl⟩
  rw [hlen'] at hlen hne hw hround
  have hsize := h.blocks.size_le root hu
  rw [← hlen] at hsize
  obtain ⟨hstore, hfi, hfb⟩ := winode_spec hu.1 hw
  have hblk : (store s').blk = (store s).blk := by rw [hstore]
  obtain ⟨d, hd⟩ : ∃ d, d = { (store s).dinode root with
    size := BitVec.ofNat 32 (roundSize len) } := ⟨_, rfl⟩
  rw [← hd] at hround
  have hdin : (store s').dinode = update (store s).dinode root d := by rw [hstore, hd]
  have hsize' : d.size.toNat = roundSize len := by
    rw [hd]
    show (BitVec.ofNat 32 (roundSize len)).toNat = _
    rw [BitVec.toNat_ofNat, Nat.mod_eq_of_lt (roundSize_lt hsize)]
  have hrefs : refs imageSuper (store s).blk (update (store s).dinode root d)
      = refs imageSuper (store s).blk (store s).dinode :=
    refs_update_fields (by rw [hd]) (by rw [hd])
  have htight := h.tight root hu
  rw [← hlen] at htight
  have hbuilt := h.replace hu.1 (d := d) (by rw [hd]; exact hu.2) hdin ?_
    (fun j _ _ x => by rw [hblk]) (fun j k _ => by rw [hblk, hrefs]) (fun k hk => ?_)
    (fun x hx => ?_) (fun b hb => by rw [hblk]; exact h.fresh b (hfb ▸ hb)) ?_ (hfb ▸ h.hi)
  · rw [hblk, hround, image, imageWith_update_root] at hbuilt
    exact hbuilt
  · rw [hblk, hfb]
    have hused : ∀ j, Used imageSuper (update (store s).dinode root d) j ↔
        Used imageSuper (store s).dinode j := used_update (by rw [hd])
    refine ⟨?_, fun j hj bn hbn => ?_, fun j hj => ?_⟩
    · rw [hrefs]
      exact h.blocks.exact
    · have hblock := congrFun hrefs (j, slotOf bn)
      rw [refs_of_used hj, refs_of_used ((hused j).mp hj)] at hblock
      rw [blockOf, hblock]
      refine h.blocks.noHoles j ((hused j).mp hj) bn ?_
      by_cases hj : j = root
      · subst hj
        rw [update_self, hsize', lt_roundSize_iff hne] at hbn
        rwa [← hlen]
      · rwa [update_of_ne hj] at hbn
    · by_cases hj' : j = root
      · subst hj'
        rw [update_self, hsize']
        -- the blocks up to the rounded size are all there, so there are not too many
        by_contra hgt
        have hmul : maxfile * bsize < len := by
          rw [← lt_roundSize_iff hne]
          omega
        omega
      · rw [update_of_ne hj']
        exact h.blocks.size_le j ((hused j).mp hj)
  · rw [hblk, hrefs, htight k hk, hsize']
    exact (lt_roundSize_iff hne).symm
  · have hle := le_roundSize len
    have haddrs : d.addrs = ((store s).dinode root).addrs := by rw [hd]
    rw [hblk, fileByte_of_addrs haddrs]
    exact h.tail root hu x (by omega)
  · have hroot : image files root = some (rootNode files) := imageWith_root ..
    rw [hroot, Option.elim_some, hlen', hfb, hsize', blocksFor_roundSize hne]

theorem getBit_bitmap {used b : ℕ} (h : used ≤ bpb) :
    getBit (bitmap used) b = decide (b < used) := by
  induction used with
  | zero => simp [bitmap, getBit]
  | succ used ih =>
    have hstep : bitmap (used + 1) = setBit (bitmap used) used := by
      rw [bitmap, bitmap, List.range_succ, List.foldl_append]
      rfl
    rw [hstep, getBit_setBit _ h, ih (Nat.le_of_succ_le h)]
    by_cases hb : b = used
    · simp [hb]
    · have hiff : b < used ↔ b < used + 1 := by omega
      simp [hb, hiff]

/-- Writing the bit map changes neither inodes nor data blocks. -/
theorem store_bitmap {b : Block} : (store (wsect s mkfsSuper.bmapstart b)).blk = (store s).blk ∧
    (store (wsect s mkfsSuper.bmapstart b)).dinode = (store s).dinode := by
  constructor
  · funext c
    by_cases hc : nmeta ≤ c
    · have hne : c ≠ mkfsSuper.bmapstart := by
        have : mkfsSuper.bmapstart < nmeta := by decide
        omega
      rw [store_blk hc, store_blk hc]
      exact update_of_ne hne ..
    · exact (if_neg hc).trans (if_neg hc).symm
  · funext i
    by_cases hi : i < imageSuper.ninodes
    · have hne : imageSuper.iblock i ≠ mkfsSuper.bmapstart := Nat.ne_of_lt (iblock_lt hi)
      rw [store, decode_dinode _ hi, store, decode_dinode _ hi]
      show getDinode (update s.disk mkfsSuper.bmapstart b (imageSuper.iblock i)) _ = _
      rw [update_of_ne hne]
      rfl
    · exact (if_neg hi).trans (if_neg hi).symm

theorem Built.congr (h : Built s N) (hblk : (store s').blk = (store s).blk)
    (hdin : (store s').dinode = (store s).dinode) (hfree : s'.freeblock = s.freeblock) :
    Built s' N := by
  refine ⟨?_, ?_, ?_, ?_, ?_, ?_, ?_⟩
  · rw [hblk, hdin, hfree]
    exact h.blocks
  · rw [hblk, hdin]
    exact h.node
  · rw [hblk, hdin]
    exact h.tight
  · rw [hblk, hdin]
    exact h.tail
  · rw [hblk, hfree]
    exact h.fresh
  · rw [hfree]
    exact h.freeblock
  · rw [hfree]
    exact h.hi

/-- The bit map on the disk marks the blocks below `freeblock`. -/
def Marked (s : State) : Prop :=
  ∀ b, b < bpb → getBit (s.disk mkfsSuper.bmapstart) b = decide (b < s.freeblock)

/-- **The program up to the end**: the image before the size of the root directory is rounded,
and what happens then. -/
theorem main_cases (heq : main files = some s') (hn : files.length + 2 ≤ imageSuper.ninodes) :
    ∃ s s₁, Built s (image files) ∧
      winode s root { (store s).dinode root with
        size := BitVec.ofNat 32 (roundSize (rootNode files).data.length) } = some s₁ ∧
      (store s').blk = (store s₁).blk ∧ (store s').dinode = (store s₁).dinode ∧
      s'.freeblock = s₁.freeblock ∧ Marked s' := by
  simp only [main, Option.bind_eq_bind, Option.bind_eq_some_iff, Prod.exists] at heq
  obtain ⟨r, s₀, hroot, s, hfiles, hfin⟩ := heq
  obtain ⟨rfl, h₀, hfree⟩ := built_makeRoot hroot
  have h := h₀.addFiles hfree (by simpa using hn) hfiles
  rw [List.nil_append] at h
  obtain ⟨hu, hnode⟩ := h.used (imageWith_root (rootNode files) files)
  have hlen : ((store s).dinode root).size.toNat = (rootNode files).data.length := by
    rw [hnode, nodeOf, length_fileData]
  rw [finish, rinode_eq hu.1] at hfin
  simp only [Option.bind_eq_bind, Option.bind_some, Option.bind_eq_some_iff, hlen] at hfin
  obtain ⟨s₁, hw, hballoc⟩ := hfin
  obtain ⟨-, -, hfb⟩ := winode_spec hu.1 hw
  refine ⟨s, s₁, h, hw, ?_⟩
  rw [balloc] at hballoc
  split at hballoc
  · next hlt =>
    cases hballoc
    refine ⟨store_bitmap.1, store_bitmap.2, rfl, fun b hb => ?_⟩
    show getBit (update s₁.disk mkfsSuper.bmapstart (bitmap s₁.freeblock)
      mkfsSuper.bmapstart) b = _
    rw [update_self, getBit_bitmap (Nat.le_of_lt hlt)]
    rfl
  · cases hballoc

/-- **The image, if the entries of the root directory do not fill its last block.** -/
theorem main_spec (heq : main files = some s') (hn : files.length + 2 ≤ imageSuper.ninodes)
    (hne : (rootNode files).data.length % bsize ≠ 0) :
    Built s' (imageWith (paddedRoot files) files) ∧ Marked s' := by
  obtain ⟨s, s₁, h, hw, hblk, hdin, hfree, hmark⟩ := main_cases heq hn
  exact ⟨(h.round hne hw).congr hblk hdin hfree, hmark⟩

theorem roundSize_of_dvd (h : len % bsize = 0) : roundSize len = len + bsize := by
  rw [roundSize, Nat.succ_mul, Nat.div_mul_cancel (Nat.dvd_of_mod_eq_zero h)]

/-- **The image, if the entries of the root directory fill its last block**: its size is one
block more than the blocks it has. -/
theorem main_full (heq : main files = some s') (hn : files.length + 2 ≤ imageSuper.ninodes)
    (hfull : (rootNode files).data.length % bsize = 0) :
    ∃ s, Built s (image files) ∧ (store s').blk = (store s).blk ∧
      (store s').dinode = update (store s).dinode root { (store s).dinode root with
        size := BitVec.ofNat 32 ((rootNode files).data.length + bsize) } ∧
      s'.freeblock = s.freeblock ∧ Marked s' := by
  obtain ⟨s, s₁, h, hw, hblk, hdin, hfree, hmark⟩ := main_cases heq hn
  obtain ⟨hu, -⟩ := h.used (imageWith_root (rootNode files) files)
  obtain ⟨hstore, -, hfb⟩ := winode_spec hu.1 hw
  refine ⟨s, h, ?_, ?_, hfree.trans hfb, hmark⟩
  · rw [hblk, hstore]
  · rw [hdin, hstore, roundSize_of_dvd hfull]

/-- The block after the last one of a file that ends with a full block is not there. -/
theorem Built.addr_end {bn : ℕ} (h : Built s N) (hi : N i = some nd)
    (hlen : nd.data.length = bn * bsize) (hbn : bn < ndirect) :
    ((store s).dinode i).addr bn = 0 := by
  obtain ⟨hu, rfl⟩ := h.used hi
  rw [nodeOf, length_fileData] at hlen
  have htight := h.tight i hu (slotOf bn) (by
    rw [slotOf, if_pos hbn]
    exact Nat.lt_trans hbn (by decide))
  rw [firstByte_slotOf, hlen, refs_of_used hu, ← blockOf, blockOf_direct hbn] at htight
  by_contra hne
  exact Nat.lt_irrefl _ (htight.mp hne)

/-! ### The entries of the root directory -/

theorem inum_rootEntries (hk : k < (rootEntries files).length) (hn : files.length + 2 ≤ 2 ^ 16) :
    (rootEntries files)[k].inum.toNat = if k < 2 then root else k := by
  have hlen : (rootEntries files).length = files.length + 2 := length_rootEntries
  match k, hk with
  | 0, _ => rfl
  | 1, _ => rfl
  | k + 2, hk =>
    rw [if_neg (by omega)]
    have hk' : k < (files.mapIdx fun k f => newEntry (nameOf f) (k + 2)).length := by
      rw [List.length_mapIdx]
      omega
    have hget : (rootEntries files)[k + 2]
        = (files.mapIdx fun k f => newEntry (nameOf f) (k + 2))[k] := rfl
    rw [hget, List.getElem_mapIdx]
    exact newEntry_inum (n := 2 ^ 16) (by omega) (Nat.le_refl _)

/-- **What an entry of the root directory holds.** -/
theorem inum_paddedRoot (hn : files.length + 2 ≤ 2 ^ 16) :
    (dirent (paddedRoot files).data k).inum.toNat
      = if k < 2 then root else if k < files.length + 2 then k else 0 := by
  have hlen : (rootEntries files).length = files.length + 2 := length_rootEntries
  have hslots : slots (rootNode files).data = files.length + 2 := slots_rootNode
  unfold paddedRoot
  dsimp only
  by_cases hk : k < files.length + 2
  · rw [dirent_append (by omega), rootNode, dirent_row name_rootEntries (by omega),
      inum_rootEntries (by omega) hn, if_pos hk]
  · have hdvd : direntSize ∣ (rootNode files).data.length := ⟨_, length_rootNode⟩
    rw [padding, dirent_zeroes hdvd (by omega), if_neg (by omega), if_neg hk]
    rfl

/-- The nodes of an image are its root directory and its files. -/
theorem imageWith_isSome (hi : i = root ∨ 2 ≤ i ∧ i < files.length + 2) :
    ∃ nd, imageWith rootDir files i = some nd := by
  obtain rfl | ⟨h₁, h₂⟩ := hi
  · exact ⟨_, imageWith_root ..⟩
  · obtain ⟨k, rfl⟩ : ∃ k, i = k + 2 := ⟨i - 2, by omega⟩
    exact ⟨_, imageWith_file (by omega)⟩

end Image

end Xv6.Mkfs
