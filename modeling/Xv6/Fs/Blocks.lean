import Xv6.Fs.Format
import Xv6.Lib.Alloc
import Mathlib.Data.Finset.Card
import Mathlib.Data.Finset.Union

/-!
# Which inode owns which block

An inode refers to disk blocks from its slots: the entries of `addrs`, and the entries of
its indirect block.  On a well-formed disk every block referred to is a data block, is
referred to from one slot only, and is one of those the bit map marks.

## Main definitions

* `ptr`, `slotOf`, `blockOf` — the block number in a slot, and that of a block of the file.
* `fileByte` — a byte of the file.
* `refs` — the references of all inodes in use.
* `BlockInv` — the blocks of a disk are well-formed.

## Main results

* `refs_allocAddr`, `refs_allocEntry`, `fileByte_alloc` — storing the number of a new
  block in a slot adds one reference, and no file changes.
* `refs_write`, `fileByte_write` — storing into a data block changes one file, and no
  reference.
* `Took` — what was taken from the map went into slots.
-/

namespace Xv6.Fs

open Function

theorem ndirect_eq : ndirect = 12 := rfl

theorem maxfile_eq : maxfile = 268 := rfl

theorem bsize_eq : bsize = 1024 := rfl

/-! ### Slots -/

/-- The number of slots: `addrs[0..NDIRECT]`, then the entries of the indirect block. -/
def nslots : ℕ := ndirect + 1 + nindirect

/-- The block number in slot `k` of an inode. -/
def ptr (blk : ℕ → Block) (d : Dinode) (k : ℕ) : ℕ :=
  if k ≤ ndirect then d.addr k
  else if k < nslots ∧ d.addr ndirect ≠ 0 then
    ((blk (d.addr ndirect)).get32 (4 * (k - (ndirect + 1)))).toNat
  else 0

/-- The slot for block `bn` of a file.  Slot `NDIRECT` is for the indirect block. -/
def slotOf (bn : ℕ) : ℕ := if bn < ndirect then bn else bn + 1

/-- The disk block that holds block `bn` of a file, or `0`. -/
def blockOf (blk : ℕ → Block) (d : Dinode) (bn : ℕ) : ℕ := ptr blk d (slotOf bn)

/-- Byte `x` of a file; a byte of a block that is not there reads as zero. -/
def fileByte (blk : ℕ → Block) (d : Dinode) (x : ℕ) : UInt8 :=
  if blockOf blk d (x / bsize) = 0 then 0 else (blk (blockOf blk d (x / bsize))).get (x % bsize)

theorem slotOf_ne (bn : ℕ) : slotOf bn ≠ ndirect := by
  unfold slotOf
  split <;> omega

theorem slotOf_inj {bn bn' : ℕ} (h : slotOf bn = slotOf bn') : bn = bn' := by
  unfold slotOf at h
  split at h <;> split at h <;> omega

section Ptr

variable {blk blk' : ℕ → Block} {d d' : Dinode} {j k : ℕ}

theorem ptr_addr (hk : k ≤ ndirect) : ptr blk d k = d.addr k := if_pos hk

theorem ptr_entry (hj : j < nindirect) : ptr blk d (ndirect + 1 + j)
    = if d.addr ndirect = 0 then 0 else ((blk (d.addr ndirect)).get32 (4 * j)).toNat := by
  have hlt : ndirect + 1 + j < nslots := by
    unfold nslots
    omega
  rw [ptr, if_neg (by omega), Nat.add_sub_cancel_left]
  by_cases h0 : d.addr ndirect = 0
  · rw [if_neg fun h => h.2 h0, if_pos h0]
  · rw [if_pos ⟨hlt, h0⟩, if_neg h0]

theorem ptr_of_ge (hk : nslots ≤ k) : ptr blk d k = 0 := by
  unfold nslots at hk
  rw [ptr, if_neg (by omega), if_neg fun h => by have := h.1; unfold nslots at this; omega]

/-- Every slot is an entry of `addrs`, an entry of the indirect block, or no slot at all. -/
theorem slot_cases (k : ℕ) :
    k ≤ ndirect ∨ (∃ j, j < nindirect ∧ k = ndirect + 1 + j) ∨ nslots ≤ k := by
  by_cases h₁ : k ≤ ndirect
  · exact .inl h₁
  · by_cases h₂ : k < nslots
    · refine .inr (.inl ⟨k - (ndirect + 1), ?_, by omega⟩)
      unfold nslots at h₂
      omega
    · exact .inr (.inr (by omega))

theorem ptr_congr (haddr : ∀ k ≤ ndirect, d'.addr k = d.addr k)
    (hblk : d.addr ndirect ≠ 0 → ∀ j < nindirect,
      (blk' (d.addr ndirect)).get32 (4 * j) = (blk (d.addr ndirect)).get32 (4 * j)) :
    ptr blk' d' k = ptr blk d k := by
  obtain hk | ⟨j, hj, rfl⟩ | hk := slot_cases k
  · rw [ptr_addr hk, ptr_addr hk, haddr k hk]
  · rw [ptr_entry hj, ptr_entry hj, haddr ndirect (Nat.le_refl _)]
    by_cases h0 : d.addr ndirect = 0
    · rw [if_pos h0, if_pos h0]
    · rw [if_neg h0, if_neg h0, hblk h0 j hj]
  · rw [ptr_of_ge hk, ptr_of_ge hk]

theorem blockOf_direct {bn : ℕ} (h : bn < ndirect) : blockOf blk d bn = d.addr bn := by
  rw [blockOf, slotOf, if_pos h, ptr_addr (Nat.le_of_lt h)]

theorem slotOf_indirect {bn : ℕ} (h : ¬ bn < ndirect) :
    slotOf bn = ndirect + 1 + (bn - ndirect) := by
  rw [slotOf, if_neg h]
  omega

end Ptr

/-! ### References -/

variable {sb : Super}

/-- The inodes in use. -/
def Used (sb : Super) (D : ℕ → Dinode) (i : ℕ) : Prop := i < sb.ninodes ∧ (D i).type ≠ 0

instance (D : ℕ → Dinode) (i : ℕ) : Decidable (Used sb D i) :=
  inferInstanceAs (Decidable (_ ∧ _))

/-- The block number in slot `k` of inode `i`, if that is in use. -/
def refs (sb : Super) (blk : ℕ → Block) (D : ℕ → Dinode) (x : ℕ × ℕ) : ℕ :=
  if Used sb D x.1 then ptr blk (D x.1) x.2 else 0

/-- The blocks of a disk are well-formed: references and bit map agree, no file has a
hole, and none is too large. -/
structure BlockInv (sb : Super) (bit : ℕ → Bool) (blk : ℕ → Block) (D : ℕ → Dinode) : Prop where
  exact : Exact bit sb.nmeta sb.size (refs sb blk D)
  noHoles : ∀ i, Used sb D i → ∀ bn, bn * bsize < (D i).size.toNat → blockOf blk (D i) bn ≠ 0
  size_le : ∀ i, Used sb D i → (D i).size.toNat ≤ maxfile * bsize

section Refs

variable {blk blk' : ℕ → Block} {D : ℕ → Dinode} {bit : ℕ → Bool} {b i i' j k bn : ℕ}
  {d d' : Dinode} {D' : ℕ → Dinode}

theorem refs_of_used (hu : Used sb D i) : refs sb blk D (i, k) = ptr blk (D i) k := if_pos hu

theorem refs_of_not (hu : ¬ Used sb D i) : refs sb blk D (i, k) = 0 := if_neg hu

/-- A block in a slot other than the one for the indirect block is no inode's indirect
block. -/
theorem indirect_ne (h : Exact bit sb.nmeta sb.size (refs sb blk D)) (hu : Used sb D i)
    (hk : k ≠ ndirect) (h0 : ptr blk (D i) k ≠ 0) (hu' : Used sb D i') :
    (D i').addr ndirect ≠ ptr blk (D i) k := by
  intro heq
  have hx : refs sb blk D (i, k) ≠ 0 := by rwa [refs_of_used hu]
  have hsame : refs sb blk D (i, k) = refs sb blk D (i', ndirect) := by
    rw [refs_of_used hu, refs_of_used hu', ptr_addr (Nat.le_refl _), heq]
  exact hk (Prod.ext_iff.mp (h.inj _ _ hx hsame)).2

theorem refs_congr (hused : ∀ i, Used sb D' i ↔ Used sb D i)
    (hptr : ∀ i k, Used sb D i → ptr blk' (D' i) k = ptr blk (D i) k) :
    refs sb blk' D' = refs sb blk D := by
  funext ⟨i, k⟩
  by_cases hu : Used sb D i
  · rw [refs_of_used hu, refs_of_used ((hused i).mpr hu), hptr i k hu]
  · rw [refs_of_not hu, refs_of_not (mt (hused i).mp hu)]

/-! ### Storing into a data block -/

/-- **Storing into a data block changes no reference.** -/
theorem refs_write (h : Exact bit sb.nmeta sb.size (refs sb blk D)) (hu : Used sb D i)
    (h0 : blockOf blk (D i) bn ≠ 0) (v : Block) :
    refs sb (update blk (blockOf blk (D i) bn) v) D = refs sb blk D := by
  refine refs_congr (fun _ => Iff.rfl) fun i' k hu' => ptr_congr (fun _ _ => rfl) fun _ j _ => ?_
  have hne : (D i').addr ndirect ≠ blockOf blk (D i) bn :=
    indirect_ne h hu (slotOf_ne bn) h0 hu'
  rw [update_of_ne hne]

theorem blockOf_write (h : Exact bit sb.nmeta sb.size (refs sb blk D)) (hu : Used sb D i)
    (h0 : blockOf blk (D i) bn ≠ 0) (hu' : Used sb D i') (v : Block) (bn' : ℕ) :
    blockOf (update blk (blockOf blk (D i) bn) v) (D i') bn' = blockOf blk (D i') bn' := by
  have hrefs := congrFun (refs_write h hu h0 v) (i', slotOf bn')
  rwa [refs_of_used hu', refs_of_used hu'] at hrefs

/-- **Storing into a data block changes that part of one file.** -/
theorem fileByte_write (h : Exact bit sb.nmeta sb.size (refs sb blk D)) (hu : Used sb D i)
    (h0 : blockOf blk (D i) bn ≠ 0) (hu' : Used sb D i') (v : Block) (x : ℕ) :
    fileByte (update blk (blockOf blk (D i) bn) v) (D i') x
      = if i' = i ∧ x / bsize = bn then v.get (x % bsize) else fileByte blk (D i') x := by
  unfold fileByte
  rw [blockOf_write h hu h0 hu']
  by_cases hx : i' = i ∧ x / bsize = bn
  · obtain ⟨rfl, rfl⟩ := hx
    rw [if_neg h0, if_pos ⟨rfl, rfl⟩, update_self]
  rw [if_neg hx]
  by_cases hz : blockOf blk (D i') (x / bsize) = 0
  · rw [if_pos hz, if_pos hz]
  rw [if_neg hz, if_neg hz, update_of_ne]
  -- the block stored into belongs to one slot only
  intro heq
  have hsame : refs sb blk D (i', slotOf (x / bsize)) = refs sb blk D (i, slotOf bn) := by
    rw [refs_of_used hu, refs_of_used hu']
    exact heq
  have hpair := h.inj _ _ (by rwa [refs_of_used hu']) hsame
  exact hx ⟨(Prod.ext_iff.mp hpair).1, slotOf_inj (Prod.ext_iff.mp hpair).2⟩

theorem BlockInv.write (h : BlockInv sb bit blk D) (hu : Used sb D i)
    (h0 : blockOf blk (D i) bn ≠ 0) (v : Block) :
    BlockInv sb bit (update blk (blockOf blk (D i) bn) v) D := by
  refine ⟨?_, fun j hj bn' hbn' => ?_, h.size_le⟩
  · rw [refs_write h.exact hu h0]
    exact h.exact
  · rw [blockOf_write h.exact hu h0 hj]
    exact h.noHoles j hj bn' hbn'

/-! ### Storing the number of a new block -/

/-- A block no slot refers to. -/
structure Fresh (sb : Super) (blk : ℕ → Block) (D : ℕ → Dinode) (b : ℕ) : Prop where
  pos : b ≠ 0
  lt : b < 2 ^ 32
  ne : ∀ x, refs sb blk D x ≠ b

theorem Fresh.ptr_ne (hb : Fresh sb blk D b) (hu : Used sb D i) : ptr blk (D i) k ≠ b := by
  rw [← refs_of_used hu]
  exact hb.ne (i, k)

theorem used_update (ht : d.type ≠ 0 ↔ (D i).type ≠ 0) (i' : ℕ) :
    Used sb (update D i d) i' ↔ Used sb D i' := by
  unfold Used
  by_cases hi : i' = i
  · rw [hi, update_self, ht]
  · rw [update_of_ne hi]

/-- **A new block in `addrs[k]`.** -/
theorem refs_allocAddr (hb : Fresh sb blk D b) (hu : Used sb D i) (hk : k ≤ ndirect)
    (h0 : (D i).addr k = 0) :
    refs sb (update blk b Bytes.zero) (update D i ((D i).setAddr k b))
      = update (refs sb blk D) (i, k) b := by
  have hused : ∀ i', Used sb (update D i ((D i).setAddr k b)) i' ↔ Used sb D i' :=
    used_update Iff.rfl
  -- no indirect block is the new block
  have hind : ∀ i', Used sb D i' → (D i').addr ndirect ≠ b := fun i' hu' => by
    have := hb.ptr_ne (k := ndirect) hu'
    rwa [ptr_addr (Nat.le_refl _)] at this
  funext ⟨i', k'⟩
  by_cases hi : i' = i
  · subst hi
    rw [refs_of_used ((hused i').mpr hu), update_self]
    by_cases hkk : k' = k
    · rw [hkk, update_self, ptr_addr hk, Dinode.addr_setAddr_self _ (by omega) hb.lt]
    rw [update_of_ne fun h => hkk (Prod.ext_iff.mp h).2, refs_of_used hu]
    obtain hk' | ⟨j, hj, rfl⟩ | hk' := slot_cases k'
    · rw [ptr_addr hk', ptr_addr hk', Dinode.addr_setAddr_of_ne _ _ hkk]
    · rw [ptr_entry hj, ptr_entry hj]
      by_cases hkn : ndirect = k
      · -- the new indirect block holds zeroes, and there was none before
        subst hkn
        rw [Dinode.addr_setAddr_self _ (by omega) hb.lt, if_neg hb.pos, if_pos h0,
          update_self]
        simp [Bytes.get32]
      · rw [Dinode.addr_setAddr_of_ne _ _ hkn, update_of_ne (hind i' hu)]
    · rw [ptr_of_ge hk', ptr_of_ge hk']
  · rw [update_of_ne fun h => hi (Prod.ext_iff.mp h).1]
    by_cases hu' : Used sb D i'
    · rw [refs_of_used hu', refs_of_used ((hused i').mpr hu'), update_of_ne hi]
      exact ptr_congr (fun _ _ => rfl) fun _ j _ => by rw [update_of_ne (hind i' hu')]
    · rw [refs_of_not hu', refs_of_not (mt (hused i').mp hu')]

/-- **A new block in an entry of the indirect block.** -/
theorem refs_allocEntry (h : Exact bit sb.nmeta sb.size (refs sb blk D)) (hb : Fresh sb blk D b)
    (hu : Used sb D i) (hj : j < nindirect) (ha : (D i).addr ndirect ≠ 0) :
    refs sb (update (update blk b Bytes.zero) ((D i).addr ndirect)
        ((blk ((D i).addr ndirect)).put32 (4 * j) (BitVec.ofNat 32 b))) D
      = update (refs sb blk D) (i, ndirect + 1 + j) b := by
  have hind : ∀ i', Used sb D i' → (D i').addr ndirect ≠ b := fun i' hu' => by
    have := hb.ptr_ne (k := ndirect) hu'
    rwa [ptr_addr (Nat.le_refl _)] at this
  have hmax : nindirect * 4 = bsize := rfl
  funext ⟨i', k'⟩
  by_cases hi : i' = i
  · subst hi
    rw [refs_of_used hu]
    by_cases hkk : k' = ndirect + 1 + j
    · have hlt := hb.lt
      rw [hkk, update_self, ptr_entry hj, if_neg ha, update_self,
        Bytes.get32_put32_self _ (by omega), BitVec.toNat_ofNat, Nat.mod_eq_of_lt hlt]
    rw [update_of_ne fun h => hkk (Prod.ext_iff.mp h).2, refs_of_used hu]
    obtain hk' | ⟨j', hj', rfl⟩ | hk' := slot_cases k'
    · rw [ptr_addr hk', ptr_addr hk']
    · have hne : j' ≠ j := fun h => hkk (by rw [h])
      rw [ptr_entry hj', ptr_entry hj', if_neg ha, if_neg ha, update_self,
        Bytes.get32, Bytes.put32, Bytes.getLE_putLE_of_disjoint _ _ (by omega), ← Bytes.get32]
    · rw [ptr_of_ge hk', ptr_of_ge hk']
  · rw [update_of_ne fun h => hi (Prod.ext_iff.mp h).1]
    by_cases hu' : Used sb D i'
    · rw [refs_of_used hu', refs_of_used hu']
      refine ptr_congr (fun _ _ => rfl) fun h0 j _ => ?_
      -- another inode has another indirect block
      have hne : (D i').addr ndirect ≠ (D i).addr ndirect := by
        intro heq
        have hsame : refs sb blk D (i', ndirect) = refs sb blk D (i, ndirect) := by
          rw [refs_of_used hu, refs_of_used hu', ptr_addr (Nat.le_refl _),
            ptr_addr (Nat.le_refl _), heq]
        have hx : refs sb blk D (i', ndirect) ≠ 0 := by
          rwa [refs_of_used hu', ptr_addr (Nat.le_refl _)]
        exact hi (Prod.ext_iff.mp (h.inj _ _ hx hsame)).1
      rw [update_of_ne hne, update_of_ne (hind i' hu')]
    · rw [refs_of_not hu', refs_of_not hu']

/-- **A new block changes no file.**  It holds zeroes, which is what the missing block
read as. -/
theorem fileByte_alloc (hused : ∀ i, Used sb D' i ↔ Used sb D i)
    (hrefs : refs sb blk' D' = update (refs sb blk D) (i, k) b)
    (h0 : refs sb blk D (i, k) = 0) (hzero : k = ndirect ∨ blk' b = Bytes.zero)
    (hsame : ∀ i k, k ≠ ndirect → refs sb blk D (i, k) ≠ 0 →
      blk' (refs sb blk D (i, k)) = blk (refs sb blk D (i, k))) (hu' : Used sb D i') (x : ℕ) :
    fileByte blk' (D' i') x = fileByte blk (D i') x := by
  have hnew : blockOf blk' (D' i') (x / bsize)
      = update (refs sb blk D) (i, k) b (i', slotOf (x / bsize)) := by
    rw [← hrefs, refs_of_used ((hused i').mpr hu')]
    rfl
  have hold : blockOf blk (D i') (x / bsize) = refs sb blk D (i', slotOf (x / bsize)) := by
    rw [refs_of_used hu']
    rfl
  unfold fileByte
  rw [hnew, hold]
  by_cases hx : (i', slotOf (x / bsize)) = (i, k)
  · obtain ⟨-, hslot⟩ := Prod.mk.inj hx
    have hk : k ≠ ndirect := hslot ▸ slotOf_ne _
    rw [hx, update_self, h0, if_pos rfl, hzero.resolve_left hk, Bytes.get_zero, ite_self]
  · rw [update_of_ne hx]
    by_cases hz : refs sb blk D (i', slotOf (x / bsize)) = 0
    · rw [if_pos hz, if_pos hz]
    · rw [if_neg hz, if_neg hz, hsame i' _ (slotOf_ne _) hz]

/-- Inode `i` became `d'` by taking new blocks: no reference is lost, and no file
changes. -/
structure Grown (sb : Super) (i : ℕ) (blk : ℕ → Block) (D : ℕ → Dinode) (blk' : ℕ → Block)
    (d' : Dinode) : Prop where
  fields : d' = { D i with addrs := d'.addrs }
  kept : ∀ j k, Used sb D j → ptr blk (D j) k ≠ 0 →
    ptr blk' (update D i d' j) k = ptr blk (D j) k
  bytes : ∀ j, Used sb D j → ∀ x,
    fileByte blk' (update D i d' j) x = fileByte blk (D j) x

theorem Grown.refl (sb : Super) (i : ℕ) (blk : ℕ → Block) (D : ℕ → Dinode) :
    Grown sb i blk D blk (D i) := by
  refine ⟨rfl, fun j k _ _ => ?_, fun j _ x => ?_⟩
  · rw [update_eq_self]
  · rw [update_eq_self]

theorem Grown.type_eq (h : Grown sb i blk D blk' d') : d'.type = (D i).type := by
  rw [h.fields]

theorem Grown.size_eq (h : Grown sb i blk D blk' d') : d'.size = (D i).size := by
  rw [h.fields]

theorem Grown.used_iff (h : Grown sb i blk D blk' d') (j : ℕ) :
    Used sb (update D i d') j ↔ Used sb D j :=
  used_update (by rw [h.type_eq]) j

theorem Grown.trans {d₁ d₂ : Dinode} {blk₁ blk₂ : ℕ → Block} (h₁ : Grown sb i blk D blk₁ d₁)
    (h₂ : Grown sb i blk₁ (update D i d₁) blk₂ d₂) : Grown sb i blk D blk₂ d₂ := by
  have hupd : update (update D i d₁) i d₂ = update D i d₂ :=
    update_idem ..
  refine ⟨?_, fun j k hu h0 => ?_, fun j hu x => ?_⟩
  · rw [h₂.fields, update_self, h₁.fields]
  · have hk := h₁.kept j k hu h0
    rw [← hupd, h₂.kept j k ((h₁.used_iff j).mpr hu) (hk ▸ h0), hk]
  · rw [← hupd, h₂.bytes j ((h₁.used_iff j).mpr hu) x, h₁.bytes j hu x]

theorem BlockInv.of_grown (bit' : ℕ → Bool) (h : BlockInv sb bit blk D)
    (hg : Grown sb i blk D blk' d')
    (hexact : Exact bit' sb.nmeta sb.size (refs sb blk' (update D i d'))) :
    BlockInv sb bit' blk' (update D i d') := by
  have hsize : ∀ j, (update D i d' j).size = (D j).size := by
    intro j
    by_cases hj : j = i
    · rw [hj, update_self, hg.size_eq]
    · rw [update_of_ne hj]
  refine ⟨hexact, fun j hu bn hbn => ?_, fun j hu => ?_⟩
  · rw [hg.used_iff] at hu
    rw [hsize] at hbn
    have h0 := h.noHoles j hu bn hbn
    rw [blockOf, hg.kept j _ hu h0]
    exact h0
  · rw [hg.used_iff] at hu
    rw [hsize]
    exact h.size_le j hu

theorem fresh_of_exact (h : Exact bit sb.nmeta sb.size (refs sb blk D)) (hbit : bit b = false)
    (hlt : b < sb.size) : Fresh sb blk D b := by
  obtain ⟨hlo, hne⟩ := h.fresh hbit hlt
  have hpos := h.pos
  have hsize := sb.size_le
  exact ⟨by omega, by omega, hne⟩

theorem BlockInv.fresh (h : BlockInv sb bit blk D) (hbit : bit b = false) (hlt : b < sb.size) :
    Fresh sb blk D b := fresh_of_exact h.exact hbit hlt

theorem kept_of_refs (hused : ∀ j, Used sb (update D i d') j ↔ Used sb D j)
    (hrefs : refs sb blk' (update D i d') = update (refs sb blk D) (i, k) b)
    (h0 : refs sb blk D (i, k) = 0) (j k' : ℕ) (hu : Used sb D j) (hne : ptr blk (D j) k' ≠ 0) :
    ptr blk' (update D i d' j) k' = ptr blk (D j) k' := by
  have hx : (j, k') ≠ (i, k) := by
    intro heq
    rw [← heq, refs_of_used hu] at h0
    exact hne h0
  rw [← refs_of_used hu, ← refs_of_used ((hused j).mpr hu), hrefs, update_of_ne hx]

/-- **A new block in `addrs[k]`** keeps references and bit map in agreement, and no file
changes. -/
theorem exact_allocAddr (h : Exact bit sb.nmeta sb.size (refs sb blk D)) (hu : Used sb D i)
    (hk : k ≤ ndirect) (h0 : (D i).addr k = 0) (hbit : bit b = false) (hlt : b < sb.size) :
    Exact (update bit b true) sb.nmeta sb.size (refs sb (update blk b Bytes.zero)
        (update D i ((D i).setAddr k b))) ∧
      Grown sb i blk D (update blk b Bytes.zero) ((D i).setAddr k b) := by
  have hb := fresh_of_exact h hbit hlt
  have hused : ∀ j, Used sb (update D i ((D i).setAddr k b)) j ↔ Used sb D j :=
    used_update Iff.rfl
  have hrefs := refs_allocAddr hb hu hk h0
  have hx : refs sb blk D (i, k) = 0 := by rw [refs_of_used hu, ptr_addr hk, h0]
  refine ⟨?_, rfl, kept_of_refs hused hrefs hx, fun j hu' x => ?_⟩
  · rw [hrefs]
    exact h.alloc hx hbit hlt
  · refine fileByte_alloc hused hrefs hx (.inr (update_self ..)) ?_ hu' x
    intro i' k' _ _
    rw [update_of_ne (hb.ne _)]

/-- **A new block in `addrs[k]` keeps the disk well-formed.** -/
theorem BlockInv.allocAddr (h : BlockInv sb bit blk D) (hu : Used sb D i) (hk : k ≤ ndirect)
    (h0 : (D i).addr k = 0) (hbit : bit b = false) (hlt : b < sb.size) :
    BlockInv sb (update bit b true) (update blk b Bytes.zero)
        (update D i ((D i).setAddr k b)) ∧
      Grown sb i blk D (update blk b Bytes.zero) ((D i).setAddr k b) := by
  obtain ⟨hexact, hg⟩ := exact_allocAddr h.exact hu hk h0 hbit hlt
  exact ⟨h.of_grown _ hg hexact, hg⟩

/-- **A new block in an entry of the indirect block keeps the disk well-formed.** -/
theorem BlockInv.allocEntry (h : BlockInv sb bit blk D) (hu : Used sb D i) (hj : j < nindirect)
    (ha : (D i).addr ndirect ≠ 0) (h0 : ptr blk (D i) (ndirect + 1 + j) = 0)
    (hbit : bit b = false) (hlt : b < sb.size) :
    BlockInv sb (update bit b true)
        (update (update blk b Bytes.zero) ((D i).addr ndirect)
          ((blk ((D i).addr ndirect)).put32 (4 * j) (BitVec.ofNat 32 b))) D ∧
      Grown sb i blk D (update (update blk b Bytes.zero) ((D i).addr ndirect)
        ((blk ((D i).addr ndirect)).put32 (4 * j) (BitVec.ofNat 32 b))) (D i) := by
  have hb := h.fresh hbit hlt
  have hrefs := refs_allocEntry h.exact hb hu hj ha
  have hx : refs sb blk D (i, ndirect + 1 + j) = 0 := by rw [refs_of_used hu, h0]
  have hind : (D i).addr ndirect ≠ b := by
    have := hb.ptr_ne (k := ndirect) hu
    rwa [ptr_addr (Nat.le_refl _)] at this
  have hself : update D i (D i) = D := update_eq_self i D
  have hg : Grown sb i blk D (update (update blk b Bytes.zero)
      ((D i).addr ndirect) ((blk ((D i).addr ndirect)).put32 (4 * j) (BitVec.ofNat 32 b)))
      (D i) := by
    refine ⟨rfl, kept_of_refs (by simp) (by rw [hself]; exact hrefs) hx, fun j' hu' x => ?_⟩
    rw [hself]
    refine fileByte_alloc (fun _ => Iff.rfl) hrefs hx (.inr ?_) ?_ hu' x
    · rw [update_of_ne (Ne.symm hind), update_self]
    -- the blocks of files are neither the new block nor the indirect block
    intro i' k' hk' hne
    have hu'' : Used sb D i' := by
      by_contra hnot
      exact hne (refs_of_not hnot)
    rw [refs_of_used hu''] at hne ⊢
    rw [update_of_ne (Ne.symm (indirect_ne h.exact hu'' hk' hne hu)),
      update_of_ne (hb.ptr_ne hu'')]
  refine ⟨?_, hg⟩
  have hinv := h.of_grown (update bit b true) hg
    (by rw [hself, hrefs]; exact h.exact.alloc hx hbit hlt)
  rwa [hself] at hinv

/-! ### Replacing an inode -/

theorem ptr_of_addr_zero (h : ∀ k ≤ ndirect, d.addr k = 0) : ptr blk d k = 0 := by
  obtain hk | ⟨j, hj, rfl⟩ | hk := slot_cases k
  · rw [ptr_addr hk, h k hk]
  · rw [ptr_entry hj, if_pos (h ndirect (Nat.le_refl _))]
  · exact ptr_of_ge hk

/-- An inode with all slots empty refers to nothing, whether it is in use or not. -/
theorem refs_update_empty (hd : ∀ k ≤ ndirect, d.addr k = 0) :
    refs sb blk (update D i d) = fun x => if x.1 = i then 0 else refs sb blk D x := by
  funext ⟨i', k⟩
  by_cases hi : i' = i
  · subst hi
    rw [if_pos rfl, refs]
    split
    · rw [update_self, ptr_of_addr_zero hd]
    · rfl
  · have hused : Used sb (update D i d) i' ↔ Used sb D i' := by
      unfold Used
      rw [update_of_ne hi]
    rw [if_neg hi]
    by_cases hu : Used sb D i'
    · rw [refs_of_used hu, refs_of_used (hused.mpr hu), update_of_ne hi]
    · rw [refs_of_not hu, refs_of_not (mt hused.mp hu)]

theorem refs_update_fields (ht : d.type ≠ 0 ↔ (D i).type ≠ 0) (hd : d.addrs = (D i).addrs) :
    refs sb blk (update D i d) = refs sb blk D := by
  refine refs_congr (used_update ht) fun i' k _ => ptr_congr (fun k _ => ?_) fun _ _ _ => rfl
  by_cases hi : i' = i
  · rw [hi, update_self, Dinode.addr, Dinode.addr, hd]
  · rw [update_of_ne hi]

end Refs

/-! ### Room for more blocks -/

/-- The slots `bmap` looks at for block `bn` of a file. -/
def slotsFor (bn : ℕ) : Finset ℕ := if bn < ndirect then {bn} else {ndirect, slotOf bn}

/-- The slots for the `n` bytes of a file from offset `off` on. -/
def touched (off n : ℕ) : Finset ℕ :=
  (Finset.range n).biUnion fun t => slotsFor ((off + t) / bsize)

/-- How many of some slots of an inode are empty. -/
def missing (blk : ℕ → Block) (d : Dinode) (S : Finset ℕ) : ℕ :=
  (S.filter fun k => ptr blk d k = 0).card

/-- How many blocks the map does not mark. -/
def freeBlocks (sb : Super) (bit : ℕ → Bool) : ℕ :=
  ((Finset.range sb.size).filter fun b => bit b = false).card

/-- An inode took blocks from the map for some of the slots `T`: whatever the map lost, the
slots gained. -/
def Took (sb : Super) (T : Finset ℕ) (bit : ℕ → Bool) (blk : ℕ → Block) (d : Dinode)
    (bit' : ℕ → Bool) (blk' : ℕ → Block) (d' : Dinode) : Prop :=
  ∀ S, T ⊆ S → freeBlocks sb bit + missing blk' d' S = freeBlocks sb bit' + missing blk d S

section Room

variable {blk blk₁ blk₂ : ℕ → Block} {d d₁ d₂ : Dinode} {bit bit₁ bit₂ : ℕ → Bool} {b k : ℕ}
  {S T : Finset ℕ}

theorem missing_mono (h : S ⊆ T) : missing blk d S ≤ missing blk d T :=
  Finset.card_le_card (Finset.filter_subset_filter _ h)

theorem missing_pos (hk : k ∈ S) (h0 : ptr blk d k = 0) : 0 < missing blk d S :=
  Finset.card_pos.mpr ⟨k, Finset.mem_filter.mpr ⟨hk, h0⟩⟩

theorem missing_congr (h : ∀ k, ptr blk₁ d₁ k = ptr blk d k) (S : Finset ℕ) :
    missing blk₁ d₁ S = missing blk d S := by
  unfold missing
  simp only [h]

theorem freeBlocks_eq_zero (h : ∀ b, b < sb.size → bit b = true) : freeBlocks sb bit = 0 := by
  refine Finset.card_eq_zero.mpr (Finset.filter_eq_empty_iff.mpr fun b hb => ?_)
  rw [h b (Finset.mem_range.mp hb)]
  exact Bool.noConfusion

theorem freeBlocks_update (hbit : bit b = false) (hlt : b < sb.size) :
    freeBlocks sb bit = freeBlocks sb (update bit b true) + 1 := by
  have hmem : b ∈ (Finset.range sb.size).filter fun b => bit b = false :=
    Finset.mem_filter.mpr ⟨Finset.mem_range.mpr hlt, hbit⟩
  have herase : (Finset.range sb.size).filter (fun c => update bit b true c = false)
      = ((Finset.range sb.size).filter fun c => bit c = false).erase b := by
    ext c
    by_cases hc : c = b
    · simp [hc]
    · simp [hc]
  rw [freeBlocks, freeBlocks, herase, Finset.card_erase_add_one hmem]

theorem Took.mono (h : Took sb S bit blk d bit₁ blk₁ d₁) (hST : S ⊆ T) :
    Took sb T bit blk d bit₁ blk₁ d₁ := fun U hU => h U (hST.trans hU)

theorem Took.trans (h₁ : Took sb T bit blk d bit₁ blk₁ d₁)
    (h₂ : Took sb T bit₁ blk₁ d₁ bit₂ blk₂ d₂) : Took sb T bit blk d bit₂ blk₂ d₂ := by
  intro S hS
  have hS₁ := h₁ S hS
  have hS₂ := h₂ S hS
  omega

theorem took_single (hbit : bit b = false) (hlt : b < sb.size) (h0 : ptr blk d k = 0)
    (hk : ptr blk₁ d₁ k ≠ 0) (hsame : ∀ k', k' ≠ k → ptr blk₁ d₁ k' = ptr blk d k') :
    Took sb {k} bit blk d (update bit b true) blk₁ d₁ := by
  intro S hS
  have hmem : k ∈ S.filter fun k => ptr blk d k = 0 :=
    Finset.mem_filter.mpr ⟨hS (Finset.mem_singleton_self k), h0⟩
  have herase : S.filter (fun k' => ptr blk₁ d₁ k' = 0)
      = (S.filter fun k' => ptr blk d k' = 0).erase k := by
    ext k'
    by_cases hk' : k' = k
    · simp [hk', hk]
    · simp [hk', hsame k' hk']
  have hcard := Finset.card_erase_add_one hmem
  rw [freeBlocks_update hbit hlt, missing, missing, herase, ← hcard]
  omega

/-- The new reference is the block taken. -/
theorem took_of_refs {D : ℕ → Dinode} {i : ℕ} (hu : Used sb D i) (hu' : Used sb D' i)
    (hfresh : Fresh sb blk D b) (hbit : bit b = false) (hlt : b < sb.size)
    (h0 : ptr blk (D i) k = 0)
    (hrefs : refs sb blk₁ D' = update (refs sb blk D) (i, k) b) :
    Took sb {k} bit blk (D i) (update bit b true) blk₁ (D' i) := by
  refine took_single hbit hlt h0 ?_ fun k' hk' => ?_
  · rw [← refs_of_used hu', hrefs, update_self]
    exact hfresh.pos
  · rw [← refs_of_used hu', ← refs_of_used hu, hrefs,
      update_of_ne fun h => hk' (Prod.ext_iff.mp h).2]

/-- There is room for the rest if there was room for the whole. -/
theorem Took.lt_missing {U : Finset ℕ} (h : Took sb T bit blk d bit₁ blk₁ d₁) (hT : T ⊆ S)
    (hU : U ⊆ S) (hlt : freeBlocks sb bit₁ < missing blk₁ d₁ U) :
    freeBlocks sb bit < missing blk d S := by
  have hS := h S hT
  have hle : missing blk₁ d₁ U ≤ missing blk₁ d₁ S := missing_mono hU
  omega

theorem slotsFor_direct {bn : ℕ} (h : bn < ndirect) : slotsFor bn = {bn} := if_pos h

theorem slotsFor_indirect {bn : ℕ} (h : ¬ bn < ndirect) : slotsFor bn = {ndirect, slotOf bn} :=
  if_neg h

theorem slotsFor_subset {off n : ℕ} (hn : 0 < n) : slotsFor (off / bsize) ⊆ touched off n :=
  Finset.subset_biUnion_of_mem (fun t => slotsFor ((off + t) / bsize)) (Finset.mem_range.mpr hn)

theorem touched_mono {n m : ℕ} (h : m ≤ n) (off : ℕ) : touched off m ⊆ touched off n :=
  Finset.biUnion_subset_biUnion_of_subset_left _ (Finset.range_subset_range.mpr h)

theorem touched_add (off m l : ℕ) : touched (off + m) l ⊆ touched off (m + l) := by
  intro k hk
  obtain ⟨t, ht, hkt⟩ := Finset.mem_biUnion.mp hk
  refine Finset.mem_biUnion.mpr ⟨m + t, Finset.mem_range.mpr ?_, ?_⟩
  · have := Finset.mem_range.mp ht
    omega
  · rwa [← Nat.add_assoc]

end Room

end Xv6.Fs
