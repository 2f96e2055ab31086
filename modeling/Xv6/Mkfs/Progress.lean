import Xv6.Mkfs.Image

/-!
# When mkfs completes

The program ends early if a file is too large, if a name has a slash left in it, or if the
blocks do not suffice.  Otherwise it completes.

## Main definitions

* `usedBlocks` — the blocks the input files take, with the root directory.

## Main results

* `cost_image` — the image takes that many blocks.
* `main_isSome` — input files that fit make an image.
-/

namespace Xv6.Mkfs

open Fs

theorem blocksFor_mono {m n : ℕ} (h : m ≤ n) : blocksFor m ≤ blocksFor n := by
  have hdiv : (m + (bsize - 1)) / bsize ≤ (n + (bsize - 1)) / bsize :=
    Nat.div_le_div_right (Nat.add_le_add_right h _)
  unfold blocksFor
  split_ifs <;> omega

section Progress

variable {s s' : State} {i : ℕ} {d : Dinode} {N : Nodes} {nd : Node} {files : List Input}
  {f : Input}

/-! ### Appending -/

theorem Room.ptr_lt {k : ℕ} (h : Room s i d) (h0 : ptr (store s).blk d k ≠ 0) :
    ptr (store s).blk d k < fssize := by
  rw [h.ptr_eq] at h0 ⊢
  exact (h.blocks.exact.range _ h0).2

/-- There is a sector for the block a file ends in, if the blocks suffice. -/
theorem Room.appendBlock_some {off m : ℕ} (h : Room s i d) (ht : Tight (refsWith s i d) i off)
    (hmax : off / bsize < maxfile) (hm : 0 < m) (hle : off + m ≤ (off / bsize + 1) * bsize)
    (hfit : s.freeblock + blocksFor (off + m) ≤ fssize + blocksFor off) :
    ∃ x d' s', appendBlock s d (off / bsize) = some (x, d', s') ∧ x < fssize := by
  have hadd := blocksFor_add rfl hm hle
  have hsmall : fssize < 2 ^ 32 := by decide
  have hslot := ht (slotOf (off / bsize)) (by
    unfold slotOf nslots
    unfold maxfile at hmax
    split <;> omega)
  rw [firstByte_slotOf, ← h.ptr_eq] at hslot
  by_cases hdir : off / bsize < ndirect
  · have hptr : ptr (store s).blk d (slotOf (off / bsize)) = d.addr (off / bsize) :=
      blockOf_direct hdir
    rw [hptr] at hslot
    rw [appendBlock, if_pos hdir]
    by_cases h0 : d.addr (off / bsize) = 0
    · rw [if_pos (by omega)] at hadd
      rw [if_pos h0]
      refine ⟨_, _, _, rfl, ?_⟩
      rw [Dinode.addr_setAddr_self _ (Nat.lt_succ_of_lt hdir) (by omega)]
      omega
    · rw [if_neg h0]
      refine ⟨_, _, _, rfl, ?_⟩
      rw [← hptr] at h0 ⊢
      exact h.ptr_lt h0
  have hind := ht ndirect (by decide)
  rw [firstByte, if_pos (Nat.le_refl _), ← h.ptr_eq, ptr_addr (Nat.le_refl _)] at hind
  have hj : off / bsize - ndirect < nindirect := by
    unfold maxfile at hmax
    omega
  have hmul : ndirect * bsize ≤ off :=
    Nat.le_trans (Nat.mul_le_mul_right _ (Nat.le_of_not_lt hdir)) (Nat.div_mul_le_self ..)
  rw [appendBlock, if_neg hdir]
  obtain ⟨⟨d₁, s₁⟩, hpair⟩ : ∃ r, (if d.addr ndirect = 0 then
      (d.setAddr ndirect s.freeblock, { s with freeblock := s.freeblock + 1 })
    else (d, s)) = r := ⟨_, rfl⟩
  rw [hpair]
  -- the indirect block is there, or there is one left for it
  have hlt : d₁.addr ndirect < fssize := by
    by_cases h0 : d.addr ndirect = 0
    · rw [if_pos h0] at hpair
      cases hpair
      rw [Dinode.addr_setAddr_self _ (Nat.lt_succ_self _) (by have := h.hi; omega)]
      have hcond : ndirect ≤ off / bsize ∧ off ≤ ndirect * bsize := by omega
      rw [if_pos hcond] at hadd
      omega
    · rw [if_neg h0] at hpair
      cases hpair
      have hptr := h.ptr_lt (k := ndirect)
      rw [ptr_addr (Nat.le_refl _)] at hptr
      exact hptr h0
  obtain ⟨hroom, -, ha, hother, hfree, -, -⟩ := h.ensureIndirect hpair hlt
  have hmeta : nmeta ≤ d₁.addr ndirect := by
    have hle := hroom.nmeta_le (k := ndirect)
    rw [ptr_addr (Nat.le_refl _)] at hle
    exact hle ha
  have hr : rsect s₁ (d₁.addr ndirect) = some (s₁.disk (d₁.addr ndirect)) := if_pos hlt
  have hslotOf := slotOf_indirect hdir
  have hentry : ptr (store s₁).blk d₁ (slotOf (off / bsize))
      = ((s₁.disk (d₁.addr ndirect)).get32 (4 * (off / bsize - ndirect))).toNat := by
    rw [hslotOf, ptr_entry hj, if_neg ha, store_blk hmeta]
  have hsame : ptr (store s₁).blk d₁ (slotOf (off / bsize))
      = ptr (store s).blk d (slotOf (off / bsize)) := by
    rw [hroom.ptr_eq, h.ptr_eq, hother]
    intro hc
    have := (Prod.mk.inj hc).2
    omega
  simp only [hr, Option.bind_eq_bind, Option.bind_some]
  by_cases h0 : ((s₁.disk (d₁.addr ndirect)).get32 (4 * (off / bsize - ndirect))).toNat = 0
  · rw [if_pos h0]
    refine ⟨_, _, _, rfl, ?_⟩
    have hb : nindirect * 4 = bsize := rfl
    have hhi := hroom.hi
    rw [Bytes.get32_put32_self _ (by omega), BitVec.toNat_ofNat, Nat.mod_eq_of_lt (by omega),
      hfree]
    have hcond : off ≤ off / bsize * bsize := by
      rw [← hentry, hsame] at h0
      omega
    rw [if_pos hcond] at hadd
    have href : (if refsWith s i d (i, ndirect) = 0 then 1 else 0)
        = if ndirect ≤ off / bsize ∧ off ≤ ndirect * bsize then 1 else 0 := by
      refine if_congr ?_ rfl rfl
      rw [← h.ptr_eq, ptr_addr (Nat.le_refl _)]
      omega
    rw [href]
    omega
  · rw [if_neg h0]
    refine ⟨_, _, _, rfl, ?_⟩
    rw [← hentry] at h0 ⊢
    exact hroom.ptr_lt h0

/-- **The loop of `iappend` ends**, if the file stays small enough and the blocks suffice. -/
theorem Room.appendLoop_some {off : ℕ} {p : List UInt8} (h : Room s i d) (fuel : ℕ)
    (ht : Tight (refsWith s i d) i off) (hmax : off + p.length ≤ maxfile * bsize)
    (hfit : s.freeblock + blocksFor (off + p.length) ≤ fssize + blocksFor off) :
    ∃ r, appendLoop fuel s d off p = some r := by
  induction fuel generalizing s d off p with
  | zero => exact ⟨_, rfl⟩
  | succ fuel ih =>
    rw [appendLoop]
    by_cases hp : p = []
    · rw [if_pos hp]
      exact ⟨_, rfl⟩
    have hlen : 0 < p.length := List.length_pos_iff.mpr hp
    have hbn : off / bsize < maxfile := by
      rw [Nat.div_lt_iff_lt_mul (by decide)]
      omega
    rw [if_neg hp, if_pos hbn]
    obtain ⟨m, hm⟩ : ∃ m, m = min p.length ((off / bsize + 1) * bsize - off) := ⟨_, rfl⟩
    have hend : off < (off / bsize + 1) * bsize :=
      Nat.lt_mul_of_div_lt (Nat.lt_succ_self _) (by decide)
    have hmono : blocksFor (off + m) ≤ blocksFor (off + p.length) := blocksFor_mono (by omega)
    obtain ⟨x, d', s₁, hblock, hx⟩ := h.appendBlock_some (m := m) ht hbn (by omega) (by omega)
      (by omega)
    have hr : rsect s₁ x = some (s₁.disk x) := if_pos hx
    rw [hblock]
    simp only [Option.bind_eq_bind, Option.bind_some, hr, ← hm]
    have htake : (p.take m).length = m := by
      rw [List.length_take]
      omega
    have hne : p.take m ≠ [] := fun hc => by
      rw [hc, List.length_nil] at htake
      omega
    have hchunk := h.appendChunk ht hbn hne (by rw [htake]; omega) hblock hx rfl
    have htight := hchunk.tight
    have hfree := hchunk.freeblock
    rw [htake] at htight hfree
    have hrest : off + m + (p.drop m).length = off + p.length := by
      rw [List.length_drop]
      omega
    exact ih hchunk.room htight (by rw [hrest]; exact hmax) (by rw [hrest]; omega)

/-- **A file can take more bytes**, if it stays small enough and the blocks suffice. -/
theorem Built.iappend_some {p : List UInt8} (h : Built s N) (hi : N i = some nd)
    (hmax : nd.data.length + p.length ≤ maxfile * bsize)
    (hfit : nmeta + cost N + blocksFor (nd.data.length + p.length)
      ≤ fssize + blocksFor nd.data.length) : ∃ s', Mkfs.iappend s i p = some s' := by
  obtain ⟨hu, rfl⟩ := h.used hi
  rw [nodeOf, length_fileData] at hmax hfit
  have hwith : refsWith s i ((store s).dinode i)
      = refs imageSuper (store s).blk (store s).dinode := by
    rw [refsWith, Built.inodesWith_eq]
  obtain ⟨⟨off, d', s₁⟩, hloop⟩ := (h.room hu).appendLoop_some p.length
    (hwith ▸ h.tight i hu) hmax (by rw [h.freeblock]; exact hfit)
  have hr : rsect s₁ (mkfsSuper.iblock i) = some (s₁.disk (mkfsSuper.iblock i)) :=
    if_pos (iblock_lt_fssize hu.1)
  rw [Mkfs.iappend, rinode_eq hu.1]
  simp only [Option.bind_eq_bind, Option.bind_some, hloop, winode, hr]
  exact ⟨_, rfl⟩

theorem ialloc_some (hlt : s.freeinode < imageSuper.ninodes) (type : BitVec 16) :
    ∃ r, ialloc s type = some r := by
  have hr : ∀ s₁ : State, rsect s₁ (mkfsSuper.iblock s.freeinode)
      = some (s₁.disk (mkfsSuper.iblock s.freeinode)) := fun _ => if_pos (iblock_lt_fssize hlt)
  rw [ialloc]
  simp only [Option.bind_eq_bind, winode, hr, Option.bind_some]
  exact ⟨_, rfl⟩

theorem Built.appendChunks_some (h : Built s N) (chunks : List (List UInt8)) (hi : N i = some nd)
    (hmax : nd.data.length + chunks.flatten.length ≤ maxfile * bsize)
    (hfit : nmeta + cost N + blocksFor (nd.data.length + chunks.flatten.length)
      ≤ fssize + blocksFor nd.data.length) : ∃ s', Mkfs.appendChunks s i chunks = some s' := by
  induction chunks generalizing s N nd with
  | nil => exact ⟨s, rfl⟩
  | cons c cs ih =>
    rw [List.flatten_cons, List.length_append] at hmax hfit
    have hmono : blocksFor (nd.data.length + c.length)
        ≤ blocksFor (nd.data.length + (c.length + cs.flatten.length)) := blocksFor_mono (by omega)
    obtain ⟨s₁, happ⟩ := h.iappend_some (p := c) hi (by omega) (by omega)
    obtain ⟨h₁, -⟩ := h.iappend hi happ
    have hcost := cost_update (N := N) (h.used hi).1.1
      (some { nd with data := nd.data ++ c })
    rw [hi] at hcost
    simp only [Option.elim_some, List.length_append] at hcost
    rw [Mkfs.appendChunks, happ]
    refine ih h₁ (Function.update_self ..) ?_ ?_
    · simp only [List.length_append]
      omega
    · simp only [List.length_append]
      rw [Nat.add_assoc nd.data.length]
      omega

/-! ### The blocks of an image -/

/-- The blocks the input files take, with the root directory. -/
def usedBlocks (files : List Input) : ℕ :=
  blocksFor (direntSize * (files.length + 2))
    + (files.map fun f => blocksFor f.chunks.flatten.length).sum

theorem usedBlocks_append (files : List Input) (f : Input) : usedBlocks (files ++ [f])
      + blocksFor (direntSize * (files.length + 2))
    = usedBlocks files + blocksFor (direntSize * (files.length + 3))
      + blocksFor f.chunks.flatten.length := by
  have hlen : (files ++ [f]).length + 2 = files.length + 3 := by
    rw [List.length_append, List.length_singleton]
  simp only [usedBlocks, hlen, List.map_append, List.sum_append, List.map_cons, List.map_nil,
    List.sum_singleton]
  omega

theorem usedBlocks_le (files rest : List Input) :
    usedBlocks files ≤ usedBlocks (files ++ rest) := by
  have hmono : blocksFor (direntSize * (files.length + 2))
      ≤ blocksFor (direntSize * ((files ++ rest).length + 2)) :=
    blocksFor_mono (Nat.mul_le_mul_left _ (by rw [List.length_append]; omega))
  simp only [usedBlocks, List.map_append, List.sum_append]
  omega

theorem cost_root (rootDir : Node) :
    cost (imageWith rootDir []) = blocksFor rootDir.data.length := by
  have hnone : cost (fun _ => none) = 0 := by simp [cost]
  have hupd : imageWith rootDir [] = Function.update (fun _ => none) root (some rootDir) := by
    funext i
    by_cases hi : i = root
    · rw [hi, Function.update_self]
      exact imageWith_root ..
    · rw [Function.update_of_ne hi, imageWith, if_neg hi]
      split <;> rfl
  have hcost := cost_update (N := fun _ => none) (i := root) (by decide) (some rootDir)
  rw [← hupd, hnone] at hcost
  simpa using hcost

/-- **The blocks an image takes.** -/
theorem cost_imageWith (rootDir : Node) (hn : files.length + 2 ≤ imageSuper.ninodes) :
    cost (imageWith rootDir files) = blocksFor rootDir.data.length
      + (files.map fun f => blocksFor f.chunks.flatten.length).sum := by
  induction files using List.reverseRecOn with
  | nil => rw [cost_root, List.map_nil, List.sum_nil, Nat.add_zero]
  | append_singleton files f ih =>
    rw [List.length_append, List.length_singleton] at hn
    have hcost := cost_update (N := imageWith rootDir files) (i := files.length + 2) (by omega)
      (some (fileNode f))
    rw [imageWith_append, imageWith_of_ge (Nat.le_refl _)] at hcost
    simp only [Option.elim_none, Option.elim_some, fileNode] at hcost
    rw [List.map_append, List.sum_append, List.map_cons, List.map_nil, List.sum_singleton]
    have := ih (by omega)
    omega

theorem cost_image (hn : files.length + 2 ≤ imageSuper.ninodes) :
    cost (image files) = usedBlocks files := by
  rw [image, cost_imageWith _ hn, length_rootNode, usedBlocks]

/-! ### The whole program -/

/-- The input files that can be stored: names have no slash left, and no file is too large. -/
structure Storable (f : Input) : Prop where
  name : shortname f.name ≠ none
  size : f.chunks.flatten.length ≤ maxfile * bsize

/-- One file can be added. -/
theorem Built.addFile_some (h : Built s (image files)) (hfree : s.freeinode = files.length + 2)
    (hlt : files.length + 2 < imageSuper.ninodes) (hf : Storable f)
    (hfit : nmeta + usedBlocks (files ++ [f]) ≤ fssize) :
    ∃ s', Mkfs.addFile root s f = some s' := by
  have hroot : root = 1 := rfl
  have hcost := cost_image (Nat.le_of_lt hlt)
  have hused := usedBlocks_append files f
  obtain ⟨name, hname⟩ := Option.ne_none_iff_exists'.mp hf.name
  obtain ⟨⟨inum, s₁⟩, halloc⟩ := ialloc_some (s := s) (by omega) tFile
  have hnone : image files s.freeinode = none := by
    rw [hfree]
    exact imageWith_of_ge (Nat.le_refl _)
  obtain ⟨rfl, h₁, hfi₁⟩ := h.ialloc (by decide) (by omega) hnone halloc
  rw [hfree] at h₁
  have hentry : Function.update (image files) (files.length + 2) (some ⟨tFile, 0, 0, 1, []⟩) root
      = some (rootNode files) := by
    rw [Function.update_of_ne (by omega)]
    exact imageWith_root ..
  have hcost₁ := cost_update (N := image files) hlt (some ⟨tFile, 0, 0, 1, []⟩)
  rw [show image files (files.length + 2) = none from imageWith_of_ge (Nat.le_refl _)] at hcost₁
  have hzero : blocksFor 0 = 0 := rfl
  simp only [Option.elim_none, Option.elim_some, List.length_nil, hzero] at hcost₁
  have hbytes : (newEntry name (files.length + 2)).bytes.length = direntSize :=
    length_bytes length_newEntry
  have hlen : (rootNode files).data.length + (newEntry name (files.length + 2)).bytes.length
      = direntSize * (files.length + 3) := by
    rw [length_rootNode, hbytes, Nat.mul_succ direntSize (files.length + 2)]
  have hn : imageSuper.ninodes = 208 := rfl
  have hd := direntSize_eq
  have hb := bsize_eq
  have hm := maxfile_eq
  -- the entry in the root, then the bytes of the file
  obtain ⟨s₂, happ⟩ := h₁.iappend_some (p := (newEntry name (files.length + 2)).bytes) hentry
    (by rw [hlen, hd, hb, hm]; omega) (by rw [hlen, length_rootNode]; omega)
  obtain ⟨h₂, -⟩ := h₁.iappend hentry happ
  have hcost₂ := cost_update (N := Function.update (image files) (files.length + 2)
    (some ⟨tFile, 0, 0, 1, []⟩)) (i := root) (by decide) (some { rootNode files with
      data := (rootNode files).data ++ (newEntry name (files.length + 2)).bytes })
  rw [hentry] at hcost₂
  simp only [Option.elim_some, List.length_append] at hcost₂
  rw [hlen, length_rootNode] at hcost₂
  have hfile : Function.update (Function.update (image files) (files.length + 2)
      (some ⟨tFile, 0, 0, 1, []⟩)) root (some { rootNode files with
        data := (rootNode files).data ++ (newEntry name (files.length + 2)).bytes })
        (files.length + 2) = some ⟨tFile, 0, 0, 1, []⟩ := by
    rw [Function.update_of_ne (by omega), Function.update_self]
  obtain ⟨s₃, hchunks⟩ := h₂.appendChunks_some f.chunks hfile
    (by simpa using hf.size) (by simp only [List.length_nil, Nat.zero_add, hzero]; omega)
  have happ' : Mkfs.iappend s₁ root
      (Dirent.bytes ⟨BitVec.ofNat 16 s.freeinode, strncpy dirsiz name⟩) = some s₂ := by
    rw [hfree]
    exact happ
  rw [← hfree] at hchunks
  refine ⟨s₃, ?_⟩
  rw [Mkfs.addFile, hname]
  simp only [Option.bind_eq_bind, Option.bind_some, halloc, happ', hchunks]

theorem Built.addFiles_some {rest : List Input} (h : Built s (image files))
    (hfree : s.freeinode = files.length + 2)
    (hlt : files.length + rest.length + 2 ≤ imageSuper.ninodes) (hrest : ∀ f ∈ rest, Storable f)
    (hfit : nmeta + usedBlocks (files ++ rest) ≤ fssize) :
    ∃ s', Mkfs.addFiles root s rest = some s' := by
  induction rest generalizing s files with
  | nil => exact ⟨s, rfl⟩
  | cons f rest ih =>
    rw [List.forall_mem_cons] at hrest
    rw [List.length_cons] at hlt
    have happend : files ++ f :: rest = files ++ [f] ++ rest := by
      rw [List.append_assoc, List.singleton_append]
    rw [happend] at hfit
    have hle := usedBlocks_le (files ++ [f]) rest
    obtain ⟨s₁, hone⟩ := h.addFile_some hfree (by omega) hrest.1 (by omega)
    obtain ⟨h₁, hfi₁⟩ := h.addFile hfree (by omega) hone
    have hlen : (files ++ [f]).length = files.length + 1 := List.length_append
    rw [Mkfs.addFiles, hone]
    exact ih h₁ (by rw [hfi₁, hlen]) (by rw [hlen]; omega) hrest.2 hfit

/-- **mkfs completes**, if the input files can be stored and the blocks suffice. -/
theorem main_isSome (files : List Input) (hn : files.length + 2 ≤ imageSuper.ninodes)
    (hf : ∀ f ∈ files, Storable f)
    (hfit : nmeta + usedBlocks files ≤ fssize) : ∃ s, main files = some s := by
  obtain ⟨⟨r, s₀⟩, hroot⟩ : ∃ r, makeRoot = some r :=
    Option.isSome_iff_exists.mp (by decide +kernel)
  obtain ⟨rfl, h₀, hfree⟩ := built_makeRoot hroot
  obtain ⟨s, hfiles⟩ := h₀.addFiles_some hfree (by simpa using hn) hf (by simpa using hfit)
  have h := h₀.addFiles hfree (by simpa using hn) hfiles
  rw [List.nil_append] at h
  obtain ⟨hu, -⟩ := h.used (imageWith_root (rootNode files) files)
  have hr : rsect s (mkfsSuper.iblock root) = some (s.disk (mkfsSuper.iblock root)) :=
    if_pos (iblock_lt_fssize hu.1)
  have hlt : s.freeblock < bsize * 8 := Nat.lt_of_le_of_lt h.hi (by decide)
  rw [main, hroot]
  simp only [Option.bind_eq_bind, Option.bind_some, hfiles, finish, rinode_eq hu.1, winode, hr]
  exact ⟨_, if_pos hlt⟩

end Progress

end Xv6.Mkfs
