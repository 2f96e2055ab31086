import Xv6.Fs.Abs
import Xv6.Fs.Blocks
import Mathlib.Data.List.GetD

/-!
# The contents of inodes

What `balloc`, `bmap`, `readi`, `writei` and `itrunc` do to a structured disk that is
well-formed: files are strings of bytes, and the disk stays well-formed.

Throughout, `D` has the inodes as they are *now*: an inode that is locked may differ in
memory from what the disk holds.

## Main definitions

* `Store.put` — a store after the blocks of one inode changed.
* `Holds` — entry `e` of the inode table holds inode `i`, on a well-formed disk.

## Main results

* `wp_bmap` — `bmap` finds the block, or takes a new one.
* `Reads.wp_readLoop`, `wp_writeLoop` — the loops of `readi` and `writei`.
* `wp_itrunc` — `itrunc` gives up all blocks.
-/

namespace Xv6.Fs

open Function

variable {sb : Super} {A : Option Panic → Prop} {D : ℕ → Dinode} {e : Fin ninode} {i : ℕ}
  {off bn left k n fuel : ℕ} {d d' : Dinode} {blk blk' : ℕ → Block} {bit bit' : ℕ → Bool}
  {dst : Dst} {src : Src} {R : ℕ × ℕ → ℕ} {Q : Unit → Store → Prop} {s : Store}

/-! ### Steps -/

section Steps

variable {α : Type}

theorem wp_getInode {Q : Inode → Store → Prop} :
    (getInode e).wp (checked sb) A s Q ↔ Q (s.mem.inode e) s := Prog.wp_call_ok rfl

theorem wp_setInode {f : Inode → Inode} :
    (setInode e f).wp (checked sb) A s Q ↔ Q () { s with mem := s.mem.setInode e f } :=
  Prog.wp_call_ok rfl

theorem wp_panic {x : Panic} {Q : α → Store → Prop} :
    (panic x).wp (checked sb) A s Q ↔ A (some x) := Iff.rfl

end Steps

/-- The store with the map, the blocks and the copy of an inode in memory replaced. -/
def Store.put (s : Store) (e : Fin ninode) (bit : ℕ → Bool) (blk : ℕ → Block) (d : Dinode) :
    Store :=
  { s with bit := bit, blk := blk, mem := s.mem.setInode e fun ip => { ip with d := d } }

section Put

variable {bit bit' : ℕ → Bool} {blk blk' : ℕ → Block} {d d' : Dinode}

@[simp] theorem put_bit : (s.put e bit blk d).bit = bit := rfl

@[simp] theorem put_blk : (s.put e bit blk d).blk = blk := rfl

theorem put_inode : (s.put e bit blk d).mem.inode e = { s.mem.inode e with d := d } :=
  update_self ..

@[simp] theorem put_d : ((s.put e bit blk d).mem.inode e).d = d := by
  rw [put_inode]

@[simp] theorem put_inum : ((s.put e bit blk d).mem.inode e).inum = (s.mem.inode e).inum := by
  rw [put_inode]

@[simp] theorem put_put : (s.put e bit blk d).put e bit' blk' d' = s.put e bit' blk' d' := by
  unfold Store.put Mem.setInode
  simp only [update_self, update_idem]

theorem setInode_put (f : Dinode → Dinode) : ({ s.put e bit blk d with
    mem := (s.put e bit blk d).mem.setInode e fun ip => { ip with d := f ip.d } } : Store)
      = s.put e bit blk (f d) := by
  unfold Store.put Mem.setInode
  simp only [update_self, update_idem]

theorem put_self (h : (s.mem.inode e).d = d) : s.put e s.bit s.blk d = s := by
  subst h
  unfold Store.put Mem.setInode
  rw [update_eq_self]

end Put

/-- Entry `e` of the inode table holds a copy of inode `i`, and the disk is well-formed. -/
structure Holds (sb : Super) (D : ℕ → Dinode) (e : Fin ninode) (i : ℕ) (s : Store) : Prop where
  blocks : BlockInv sb s.bit s.blk D
  used : Used sb D i
  copy : (s.mem.inode e).d = D i

/-- Entry `e` of the inode table holds a copy of inode `i`, and references and bit map agree.
This is what reading needs: files may have holes. -/
structure Loaded (sb : Super) (D : ℕ → Dinode) (e : Fin ninode) (i : ℕ) (s : Store) : Prop where
  exact : Exact s.bit sb.nmeta sb.size (refs sb s.blk D)
  used : Used sb D i
  copy : (s.mem.inode e).d = D i

theorem Holds.loaded (h : Holds sb D e i s) : Loaded sb D e i s := ⟨h.blocks.exact, h.used, h.copy⟩

theorem Holds.put (h : Holds sb D e i s) (hb : BlockInv sb bit blk (update D i d))
    (ht : d.type = (D i).type) : Holds sb (update D i d) e i (s.put e bit blk d) := by
  refine ⟨hb, (used_update (by rw [ht]) i).mpr h.used, ?_⟩
  rw [put_d, update_self]

theorem Loaded.nmeta_le (h : Loaded sb D e i s) (h0 : ptr s.blk (D i) k ≠ 0) :
    sb.nmeta ≤ ptr s.blk (D i) k := by
  rw [← refs_of_used h.used] at h0 ⊢
  exact (h.exact.range _ h0).1

/-! ### Allocating blocks -/

/-- The loop of `balloc` hands out a block that was not marked, filled with zeroes, if there
is one. -/
theorem wp_ballocLoop {Q : ℕ → Store → Prop}
    (hA : (∀ b, b < sb.size → s.bit b = true) → A (some .outOfBlocks))
    (hres : ∀ b, b < sb.size → s.bit b = false → sb.nmeta ≤ b)
    (hQ : ∀ b, s.bit b = false → b < sb.size →
      Q b { s with bit := update s.bit b true
                   blk := update s.blk b Bytes.zero })
    (hfuel : sb.size ≤ (k + fuel) * bpb) (hdone : ∀ b, b < k * bpb → b < sb.size → s.bit b = true) :
    (ballocLoop sb fuel k).wp (checked sb) A s Q := by
  induction fuel generalizing k with
  | zero => exact wp_panic.mpr (hA fun b hb => hdone b (by rw [Nat.add_zero] at hfuel; omega) hb)
  | succ fuel ih =>
    rw [ballocLoop]
    by_cases hk : k * bpb < sb.size
    · rw [if_pos hk, Prog.wp_bind, Prog.wp_call, checked_markBit hk]
      cases hfirst : firstClear sb (fun bi => s.bit (k * bpb + bi)) k with
      | none =>
        refine ih (by rwa [Nat.add_right_comm, Nat.add_assoc]) fun b hb hlt => ?_
        by_cases hold : b < k * bpb
        · exact hdone b hold hlt
        -- a bit of the block just searched
        have hbi : k * bpb + (b - k * bpb) = b := by omega
        have hin : b - k * bpb < bpb := by
          rw [Nat.succ_mul] at hb
          omega
        have hbit := firstClear_eq_none hfirst hin (by rwa [hbi])
        rwa [hbi] at hbit
      | some bi =>
        obtain ⟨-, hlt, hbit⟩ := firstClear_spec hfirst
        rw [Outcome.ensures_ok, Prog.wp_bind, bzero,
          Prog.wp_call_ok (checked_changeBlock (hres _ hlt hbit)), Prog.wp_pure]
        exact hQ _ hbit hlt
    · rw [if_neg hk]
      exact wp_panic.mpr (hA fun b hb => hdone b (by omega) hb)

theorem wp_balloc {Q : ℕ → Store → Prop} (hA : freeBlocks sb s.bit = 0 → A (some .outOfBlocks))
    (h : BlockInv sb s.bit s.blk D)
    (hQ : ∀ b, s.bit b = false → b < sb.size →
      Q b { s with bit := update s.bit b true
                   blk := update s.blk b Bytes.zero }) :
    (balloc sb).wp (checked sb) A s Q := by
  refine wp_ballocLoop (fun hall => hA (freeBlocks_eq_zero hall))
    (fun _ hlt hbit => (h.exact.fresh hbit hlt).1) hQ ?_ fun b hb => ?_
  · have hlt := Nat.lt_div_mul_add (a := sb.size) (b := bpb) bpb_pos
    rw [Nat.zero_add, Nat.succ_mul]
    omega
  · rw [Nat.zero_mul] at hb
    exact absurd hb (Nat.not_lt_zero b)

theorem wp_bmapAddr {Q : ℕ → Store → Prop}
    (hA : freeBlocks sb s.bit < missing s.blk (D i) {k} → A (some .outOfBlocks))
    (h : Holds sb D e i s) (hk : k ≤ ndirect)
    (hQ : ∀ bit' blk' d', BlockInv sb bit' blk' (update D i d') →
      Grown sb i s.blk D blk' d' → Took sb {k} s.bit s.blk (D i) bit' blk' d' →
      d'.addr k ≠ 0 → Q (d'.addr k) (s.put e bit' blk' d')) :
    (bmapAddr sb e k).wp (checked sb) A s Q := by
  rw [bmapAddr, Prog.wp_bind, wp_getInode, h.copy]
  by_cases h0 : (D i).addr k = 0
  · have hptr : ptr s.blk (D i) k = 0 := by rw [ptr_addr hk, h0]
    rw [if_pos h0, Prog.wp_bind]
    refine wp_balloc (fun hfree => hA ?_) h.blocks fun b hbit hlt => ?_
    · rw [hfree]
      exact missing_pos (Finset.mem_singleton_self k) hptr
    rw [Prog.wp_bind, wp_setInode, Prog.wp_pure]
    obtain ⟨hinv, hg⟩ := h.blocks.allocAddr h.used hk h0 hbit hlt
    have hb := h.blocks.fresh hbit hlt
    have htook := took_of_refs h.used ((hg.used_iff i).mpr h.used) hb hbit hlt hptr
      (refs_allocAddr hb h.used hk h0)
    rw [update_self] at htook
    have haddr : ((D i).setAddr k b).addr k = b :=
      Dinode.addr_setAddr_self _ (Nat.lt_succ_of_le hk) hb.lt
    have hq := hQ _ _ _ hinv hg htook (by rw [haddr]; exact hb.pos)
    rw [haddr, ← h.copy] at hq
    exact hq
  · rw [if_neg h0, Prog.wp_pure]
    have hq := hQ s.bit s.blk (D i) (by rw [update_eq_self]; exact h.blocks)
      (Grown.refl ..) (fun _ _ => rfl) h0
    rwa [put_self h.copy] at hq

/-- **`bmap` finds the block, or takes a new one.**  No file changes. -/
theorem wp_bmap {Q : ℕ → Store → Prop}
    (hA : freeBlocks sb s.bit < missing s.blk (D i) (slotsFor bn) → A (some .outOfBlocks))
    (h : Holds sb D e i s) (hbn : bn < maxfile)
    (hQ : ∀ bit' blk' d', BlockInv sb bit' blk' (update D i d') →
      Grown sb i s.blk D blk' d' → Took sb (slotsFor bn) s.bit s.blk (D i) bit' blk' d' →
      blockOf blk' d' bn ≠ 0 → Q (blockOf blk' d' bn) (s.put e bit' blk' d')) :
    (bmap sb e bn).wp (checked sb) A s Q := by
  unfold bmap
  by_cases hdir : bn < ndirect
  · rw [slotsFor_direct hdir] at hA hQ
    rw [if_pos hdir]
    refine wp_bmapAddr hA h (Nat.le_of_lt hdir) fun bit' blk' d' hinv hg htook h0 => ?_
    have hq := hQ bit' blk' d' hinv hg htook
    rw [blockOf_direct hdir] at hq
    exact hq h0
  have hj : bn - ndirect < nindirect := by
    unfold maxfile at hbn
    omega
  rw [slotsFor_indirect hdir] at hA hQ
  have hsub : {ndirect} ⊆ ({ndirect, slotOf bn} : Finset ℕ) := by simp
  rw [if_neg hdir, if_pos hj, Prog.wp_bind]
  refine wp_bmapAddr (fun hlt => hA (Nat.lt_of_lt_of_le hlt (missing_mono hsub))) h
    (Nat.le_refl _) fun bit₁ blk₁ d₁ hinv₁ hg₁ htook₁ ha => ?_
  replace htook₁ := htook₁.mono hsub
  -- from here on, the indirect block is there
  have h₁ : Holds sb (update D i d₁) e i (s.put e bit₁ blk₁ d₁) :=
    h.put hinv₁ hg₁.type_eq
  have hself : update D i d₁ i = d₁ := update_self ..
  have hmeta : sb.nmeta ≤ d₁.addr ndirect := by
    have hle := h₁.loaded.nmeta_le (k := ndirect)
    rw [hself, ptr_addr (Nat.le_refl _)] at hle
    exact hle ha
  have hentry : ptr blk₁ d₁ (ndirect + 1 + (bn - ndirect))
      = ((blk₁ (d₁.addr ndirect)).get32 (4 * (bn - ndirect))).toNat :=
    (ptr_entry hj).trans (if_neg ha)
  rw [Prog.wp_bind, Prog.wp_call_ok (checked_readBlock hmeta), put_blk, ← hentry]
  by_cases h0 : ptr blk₁ d₁ (ndirect + 1 + (bn - ndirect)) = 0
  · have hmem : ndirect + 1 + (bn - ndirect) ∈ ({ndirect, slotOf bn} : Finset ℕ) := by
      rw [slotOf_indirect hdir]
      simp
    rw [if_pos h0, Prog.wp_bind]
    refine wp_balloc (fun hfree => hA ?_) h₁.blocks fun b hbit hlt => ?_
    · refine htook₁.lt_missing (Finset.Subset.refl _) (Finset.Subset.refl _) ?_
      rw [show freeBlocks sb bit₁ = 0 from hfree]
      exact missing_pos hmem h0
    have hfresh := h₁.blocks.fresh hbit hlt
    obtain ⟨hinv₂, hg₂⟩ := h₁.blocks.allocEntry h₁.used hj (by rwa [hself])
      (by rwa [hself]) hbit hlt
    have htook₂ := took_of_refs h₁.used h₁.used hfresh hbit hlt (by rwa [hself])
      (refs_allocEntry h₁.blocks.exact hfresh h₁.used hj (by rwa [hself]))
    rw [hself, put_blk, put_bit] at hinv₂ htook₂
    rw [hself, put_blk] at hg₂
    replace htook₂ := htook₁.trans (htook₂.mono (Finset.singleton_subset_iff.mpr hmem))
    have hne : d₁.addr ndirect ≠ b := by
      have := hfresh.ptr_ne (k := ndirect) h₁.used
      rwa [hself, ptr_addr (Nat.le_refl _)] at this
    rw [Prog.wp_bind, Prog.wp_call_ok (checked_changeBlock hmeta), Prog.wp_pure]
    have hblock : blockOf (update (update blk₁ b Bytes.zero) (d₁.addr ndirect)
        ((blk₁ (d₁.addr ndirect)).put32 (4 * (bn - ndirect)) (BitVec.ofNat 32 b))) d₁ bn = b := by
      have hmax : nindirect * 4 = bsize := rfl
      rw [blockOf, slotOf_indirect hdir, ptr_entry hj, if_neg ha, update_self,
        Bytes.get32_put32_self _ (by omega), BitVec.toNat_ofNat, Nat.mod_eq_of_lt hfresh.lt]
    have hq := hQ _ _ _ hinv₂ (hg₁.trans hg₂) htook₂ (by rw [hblock]; exact hfresh.pos)
    rw [hblock] at hq
    simp only [put_blk, put_bit, update_of_ne hne]
    exact hq
  · rw [if_neg h0, Prog.wp_pure]
    have hq := hQ _ _ _ hinv₁ hg₁ htook₁
    rw [blockOf, slotOf_indirect hdir] at hq
    exact hq h0

/-! ### Looking up blocks -/

/-- What steps that only look find in the state `x` is what the store `s` has. -/
structure Reads {F σ : Type} (sb : Super) (H : Handler DiskOp F σ) (x : σ) (s : Store) : Prop where
  inode : ∀ e, (getInode e).exec H x = .ok (s.mem.inode e, x)
  block : ∀ b, sb.nmeta ≤ b → H (.readBlock b) x = .ok (s.blk b, x)

theorem reads_checked (sb : Super) (s : Store) : Reads sb (checked sb) s s :=
  ⟨fun _ => rfl, fun _ hb => checked_readBlock hb⟩

theorem reads_onImage (sb : Super) (x : Image) : Reads sb (onImage sb) x (decode sb x) :=
  ⟨fun _ => rfl, fun _ hb => by rw [decode_blk_apply x hb]; rfl⟩

section Reads

variable {F σ : Type} {H : Handler DiskOp F σ} {A : F → Prop} {x : σ}

theorem Reads.wp_getInode {Q : Inode → σ → Prop} (hr : Reads sb H x s) :
    (getInode e).wp H A x Q ↔ Q (s.mem.inode e) x := by
  rw [Prog.wp, hr.inode e, Outcome.ensures_ok]

/-- `bmap` on a block that is there changes nothing. -/
theorem Reads.wp_bmap {Q : ℕ → σ → Prop} (hr : Reads sb H x s) (h : Loaded sb D e i s)
    (h0 : blockOf s.blk (D i) bn ≠ 0) :
    (bmap sb e bn).wp H A x Q ↔ Q (blockOf s.blk (D i) bn) x := by
  unfold bmap
  by_cases hdir : bn < ndirect
  · rw [blockOf_direct hdir] at h0 ⊢
    rw [if_pos hdir, bmapAddr, Prog.wp_bind, hr.wp_getInode, h.copy, if_neg h0, Prog.wp_pure]
  rw [blockOf, slotOf_indirect hdir] at h0 ⊢
  have hj : bn - ndirect < nindirect := by
    by_contra hge
    refine h0 (ptr_of_ge ?_)
    unfold nslots
    omega
  have ha : (D i).addr ndirect ≠ 0 := fun hz => h0 ((ptr_entry hj).trans (if_pos hz))
  have hentry : ptr s.blk (D i) (ndirect + 1 + (bn - ndirect))
      = ((s.blk ((D i).addr ndirect)).get32 (4 * (bn - ndirect))).toNat :=
    (ptr_entry hj).trans (if_neg ha)
  have hmeta : sb.nmeta ≤ (D i).addr ndirect := by
    have hle := h.nmeta_le (k := ndirect)
    rw [ptr_addr (Nat.le_refl _)] at hle
    exact hle ha
  rw [if_neg hdir, if_pos hj, Prog.wp_bind, bmapAddr, Prog.wp_bind, hr.wp_getInode, h.copy,
    if_neg ha, Prog.wp_pure, Prog.wp_bind, Prog.wp_call_ok (hr.block _ hmeta), ← hentry,
    if_neg h0, Prog.wp_pure]

end Reads

theorem wp_bmap_mapped {Q : ℕ → Store → Prop} (h : Loaded sb D e i s)
    (h0 : blockOf s.blk (D i) bn ≠ 0) :
    (bmap sb e bn).wp (checked sb) A s Q ↔ Q (blockOf s.blk (D i) bn) s :=
  (reads_checked sb s).wp_bmap h h0

/-! ### Sources and destinations -/

theorem range_add_map {α : Type} (f : ℕ → α) (m l : ℕ) : (List.range (m + l)).map f
    = (List.range m).map f ++ (List.range l).map fun t => f (m + t) := by
  rw [List.range_add, List.map_append, List.map_map]
  rfl

theorem room_le (dst : Dst) (tot m : ℕ) : dst.room tot m ≤ m := by
  cases dst with
  | kernel => exact Nat.le_refl m
  | user va mapped =>
    unfold Dst.room
    have hle := (List.takeWhile_sublist (l := List.range m)
      fun i => mapped (va + BitVec.ofNat 64 (tot + i))).length_le
    rwa [List.length_range] at hle

theorem room_add (dst : Dst) (tot m l : ℕ) : dst.room tot (m + l)
    = if dst.room tot m < m then dst.room tot m else m + dst.room (tot + m) l := by
  cases dst with
  | kernel => exact (if_neg (Nat.lt_irrefl m)).symm
  | user va mapped =>
    have hle := room_le (.user va mapped) tot m
    unfold Dst.room at hle ⊢
    dsimp only at hle ⊢
    rw [List.range_add, List.takeWhile_append, List.length_range, List.takeWhile_map,
      apply_ite List.length, List.length_append, List.length_map, List.length_range]
    by_cases hfull : ((List.range m).takeWhile fun i =>
        mapped (va + BitVec.ofNat 64 (tot + i))).length = m
    · rw [if_pos hfull, if_neg (by omega)]
      simp only [Function.comp_def, Nat.add_assoc]
    · rw [if_neg hfull, if_pos (by omega)]

/-- A source delivers `m + l` bytes as far as it delivers the first `m`, and then the next
`l`. -/
theorem fetch_add (src : Src) (tot m l : ℕ) : src.fetch tot (m + l)
    = if (src.fetch tot m).length < m then src.fetch tot m
      else src.fetch tot m ++ src.fetch (tot + m) l := by
  have hle := length_fetch_le src tot m
  cases src with
  | kernel bytes =>
    rw [if_neg (by simp [Src.fetch])]
    unfold Src.fetch
    dsimp only
    rw [range_add_map]
    simp only [Nat.add_assoc]
  | user va mem =>
    unfold Src.fetch at hle ⊢
    dsimp only at hle ⊢
    rw [length_filterMap_takeWhile] at hle ⊢
    rw [range_add_map, List.takeWhile_append, List.length_map, List.length_range]
    by_cases hfull : (((List.range m).map fun i =>
        mem (va + BitVec.ofNat 64 (tot + i))).takeWhile Option.isSome).length = m
    · have hall : ((List.range m).map fun i => mem (va + BitVec.ofNat 64 (tot + i))).takeWhile
          Option.isSome = (List.range m).map fun i => mem (va + BitVec.ofNat 64 (tot + i)) :=
        (List.takeWhile_sublist _).eq_of_length (by rw [hfull, List.length_map, List.length_range])
      rw [if_pos hfull, if_neg (by omega), List.filterMap_append, hall]
      simp only [Nat.add_assoc]
    · rw [if_neg hfull, if_pos (by omega)]

/-! ### Reading -/

/-- The part of a block that holds bytes of a file. -/
theorem slice_eq_fileByte {m : ℕ} (h0 : blockOf blk d (off / bsize) ≠ 0)
    (hm : off % bsize + m ≤ bsize) :
    (blk (blockOf blk d (off / bsize))).slice (off % bsize) m
      = (List.range m).map fun t => fileByte blk d (off + t) := by
  refine List.map_congr_left fun t ht => ?_
  have ht := List.mem_range.mp ht
  have hb : 0 < bsize := by decide
  have hdiv : (off + t) / bsize = off / bsize := by
    rw [← Nat.div_add_mod off bsize, Nat.add_assoc, Nat.mul_add_div hb, Nat.mul_add_div hb,
      Nat.div_eq_of_lt (by omega : off % bsize + t < bsize),
      Nat.div_eq_of_lt (Nat.mod_lt off hb)]
  have hmod : (off + t) % bsize = off % bsize + t := by
    rw [← Nat.div_add_mod off bsize, Nat.add_assoc, Nat.mul_add_mod, Nat.mul_add_mod,
      Nat.mod_eq_of_lt (Nat.mod_lt off hb), Nat.mod_eq_of_lt (by omega)]
  rw [fileByte, hdiv, hmod, if_neg h0]

/-- What the loop of `readi` returns, with `left` bytes to go of a file with bytes `f`. -/
def readResult (f : ℕ → UInt8) (dst : Dst) (off left : ℕ) (done : List UInt8) : ℤ × List UInt8 :=
  (if dst.room done.length left < left then -1 else (done.length + left : ℕ),
    done ++ (List.range (dst.room done.length left)).map fun t => f (off + t))

section ReadResult

variable {f : ℕ → UInt8} {dst : Dst} {off m l : ℕ} {done : List UInt8}

theorem readResult_zero : readResult f dst off 0 done = ((done.length : ℤ), done) := by
  rw [readResult, Nat.le_zero.mp (room_le dst done.length 0)]
  simp

theorem readResult_stop (h : dst.room done.length m < m) : readResult f dst off (m + l) done
    = (-1, done ++ (List.range (dst.room done.length m)).map fun t => f (off + t)) := by
  rw [readResult, room_add, if_pos h, if_pos (by omega)]

theorem readResult_add (h : ¬ dst.room done.length m < m) : readResult f dst off (m + l) done
    = readResult f dst (off + m) l (done ++ (List.range m).map fun t => f (off + t)) := by
  unfold readResult
  rw [room_add, if_neg h, range_add_map, List.length_append, List.length_map, List.length_range,
    List.append_assoc]
  simp only [Nat.add_lt_add_iff_left, Nat.add_assoc]

end ReadResult

/-- **The loop of `readi`**, over blocks that are there. -/
theorem Reads.wp_readLoop {F σ : Type} {H : Handler DiskOp F σ} {A : F → Prop} {x : σ}
    {Q : ℤ × List UInt8 → σ → Prop} (hr : Reads sb H x s) (h : Loaded sb D e i s)
    {done : List UInt8} (hfuel : left ≤ fuel)
    (hmap : ∀ bn, bn * bsize < off + left → blockOf s.blk (D i) bn ≠ 0) :
    (readLoop sb e dst fuel off left done).wp H A x Q ↔
      Q (readResult (fileByte s.blk (D i)) dst off left done) x := by
  induction fuel generalizing off left done with
  | zero =>
    rw [Nat.le_zero.mp hfuel, readResult_zero, readLoop, Prog.wp_pure]
  | succ fuel ih =>
    rw [readLoop]
    by_cases hleft : left = 0
    · rw [if_pos hleft, hleft, readResult_zero, Prog.wp_pure]
    have hb : 0 < bsize := by decide
    have hmod := Nat.mod_lt off hb
    have hdiv := Nat.div_mul_le_self off bsize
    have h0 := hmap (off / bsize) (by omega)
    have hmeta : sb.nmeta ≤ blockOf s.blk (D i) (off / bsize) := h.nmeta_le h0
    rw [if_neg hleft, Prog.wp_bind, hr.wp_bmap h h0, Prog.wp_bind,
      Prog.wp_call_ok (hr.block _ hmeta)]
    -- the bytes of this block, and those after it
    obtain ⟨m, hm⟩ : ∃ m, m = min left (bsize - off % bsize) := ⟨_, rfl⟩
    obtain ⟨l, hl⟩ : ∃ l, left = m + l := ⟨left - m, by omega⟩
    dsimp only
    rw [← hm]
    by_cases hfull : dst.room done.length m < m
    · have hle := room_le dst done.length m
      rw [if_pos hfull, Prog.wp_pure, hl, readResult_stop hfull,
        slice_eq_fileByte h0 (by omega)]
    · rw [if_neg hfull, hl, readResult_add hfull, slice_eq_fileByte h0 (by omega),
        Nat.add_sub_cancel_left]
      exact ih (by omega) fun bn hbn => hmap bn (by omega)

/-! ### Writing -/

/-- Inode `i` became `d'` by writing `bytes` at offset `off`, and has blocks up to
`stop`. -/
structure Stored (sb : Super) (i : ℕ) (blk : ℕ → Block) (D : ℕ → Dinode) (off : ℕ)
    (bytes : List UInt8) (stop : ℕ) (blk' : ℕ → Block) (d' : Dinode) : Prop where
  fields : d' = { D i with addrs := d'.addrs }
  kept : ∀ k, ptr blk (D i) k ≠ 0 → ptr blk' d' k = ptr blk (D i) k
  mapped : ∀ x, off ≤ x → x < stop → blockOf blk' d' (x / bsize) ≠ 0
  bytes : ∀ j, Used sb D j → ∀ x, fileByte blk' (update D i d' j) x
    = if j = i ∧ off ≤ x ∧ x < off + bytes.length then bytes.getD (x - off) 0
      else fileByte blk (D j) x

section Stored

variable {blk blk₁ blk₂ : ℕ → Block} {bit : ℕ → Bool} {d₁ d₂ : Dinode} {off m stop : ℕ}
  {bytes chunk rest : List UInt8}

theorem Stored.type_eq (h : Stored sb i blk D off bytes stop blk₁ d₁) :
    d₁.type = (D i).type := by
  rw [h.fields]

theorem Stored.refl (sb : Super) (i : ℕ) (blk : ℕ → Block) (D : ℕ → Dinode) (off : ℕ) :
    Stored sb i blk D off [] off blk (D i) := by
  refine ⟨rfl, fun _ _ => rfl, fun x h₁ h₂ => absurd h₁ (by omega), fun j _ x => ?_⟩
  rw [update_eq_self, if_neg]
  rintro ⟨-, h₁, h₂⟩
  rw [List.length_nil] at h₂
  omega

theorem div_of_lt {x : ℕ} (h₁ : off / bsize * bsize ≤ x) (h₂ : x < off / bsize * bsize + bsize) :
    x / bsize = off / bsize :=
  Nat.div_eq_of_lt_le h₁ (by rw [Nat.succ_mul]; exact h₂)

/-- **Writing within one block**, which `bmap` may have had to take. -/
theorem Grown.stored (hg : Grown sb i blk D blk₁ d₁)
    (hinv : BlockInv sb bit blk₁ (update D i d₁)) (hu : Used sb D i)
    (h0 : blockOf blk₁ d₁ (off / bsize) ≠ 0) (hm : off % bsize + m ≤ bsize)
    (hchunk : chunk.length ≤ m) :
    Stored sb i blk D off chunk (off + m)
      (update blk₁ (blockOf blk₁ d₁ (off / bsize))
        ((blk₁ (blockOf blk₁ d₁ (off / bsize))).blit (off % bsize) chunk)) d₁ := by
  have hself : update D i d₁ i = d₁ := update_self ..
  have hu₁ : Used sb (update D i d₁) i := (hg.used_iff i).mpr hu
  have hdm := Nat.div_add_mod' off bsize
  have h0' : blockOf blk₁ (update D i d₁ i) (off / bsize) ≠ 0 := by rwa [hself]
  refine ⟨hg.fields, fun k hk => ?_, fun x h₁ h₂ => ?_, fun j hj x => ?_⟩
  · have hkept := hg.kept i k hu hk
    rw [hself] at hkept
    have hrefs := congrFun (refs_write hinv.exact hu₁ h0'
      ((blk₁ (blockOf blk₁ d₁ (off / bsize))).blit (off % bsize) chunk)) (i, k)
    rw [refs_of_used hu₁, refs_of_used hu₁, hself, hkept] at hrefs
    exact hrefs
  · have hblock := blockOf_write hinv.exact hu₁ h0' hu₁
      ((blk₁ (blockOf blk₁ d₁ (off / bsize))).blit (off % bsize) chunk) (off / bsize)
    rw [hself] at hblock
    have hdiv : x / bsize = off / bsize := div_of_lt (by omega) (by omega)
    rw [hdiv, hblock]
    exact h0
  · have hj₁ := (hg.used_iff j).mpr hj
    have hbyte := fileByte_write hinv.exact hu₁ h0' hj₁
      ((blk₁ (blockOf blk₁ d₁ (off / bsize))).blit (off % bsize) chunk) x
    rw [hself] at hbyte
    rw [hbyte, hg.bytes j hj x]
    by_cases hx : j = i ∧ x / bsize = off / bsize
    · obtain ⟨rfl, hdiv⟩ := hx
      have hxm := Nat.div_add_mod' x bsize
      rw [if_pos ⟨rfl, hdiv⟩]
      rw [hdiv] at hxm
      by_cases hin : off ≤ x ∧ x < off + chunk.length
      · rw [if_pos ⟨rfl, hin⟩, show x % bsize = off % bsize + (x - off) by omega,
          Bytes.get_blit_of_lt _ chunk (by omega) (by omega),
          List.getD_eq_getElem _ _ (by omega : x - off < chunk.length)]
        rfl
      · -- the other bytes of the block are as they were
        rw [if_neg fun h => hin h.2, Bytes.get_blit_of_notMem _ chunk (by omega),
          ← hg.bytes j hj x, hself, fileByte, hdiv, if_neg h0]
    · rw [if_neg hx, if_neg]
      rintro ⟨rfl, h₁, h₂⟩
      exact hx ⟨rfl, div_of_lt (by omega) (by omega)⟩

/-- Writing on where an earlier write ended. -/
theorem Stored.trans (hm : chunk.length = m) (h₁ : Stored sb i blk D off chunk (off + m) blk₁ d₁)
    (h₂ : Stored sb i blk₁ (update D i d₁) (off + m) rest stop blk₂ d₂) :
    Stored sb i blk D off (chunk ++ rest) stop blk₂ d₂ := by
  subst hm
  have hself : update D i d₁ i = d₁ := update_self ..
  have hupd : update (update D i d₁) i d₂ = update D i d₂ :=
    update_idem ..
  refine ⟨?_, fun k hk => ?_, fun x hx₁ hx₂ => ?_, fun j hj x => ?_⟩
  · rw [h₂.fields, hself, h₁.fields]
  · have hk₁ := h₁.kept k hk
    rw [h₂.kept k (by rw [hself, hk₁]; exact hk), hself, hk₁]
  · by_cases hx : x < off + chunk.length
    · have h0 := h₁.mapped x hx₁ hx
      rw [blockOf, h₂.kept _ (by rw [hself]; exact h0), hself]
      exact h0
    · exact h₂.mapped x (by omega) hx₂
  · have hj₁ : Used sb (update D i d₁) j := (used_update (by rw [h₁.type_eq]) j).mpr hj
    rw [← hupd, h₂.bytes j hj₁ x, h₁.bytes j hj x, List.length_append]
    by_cases hji : j = i
    · simp only [hji, true_and]
      by_cases hlo : off + chunk.length ≤ x
      · rw [List.getD_append_right _ _ _ _ (by omega), Nat.sub_sub]
        by_cases hhi : x < off + chunk.length + rest.length
        · rw [if_pos ⟨hlo, hhi⟩, if_pos (by omega)]
        · rw [if_neg (by omega), if_neg (by omega), if_neg (by omega)]
      · rw [if_neg (by omega)]
        by_cases hin : off ≤ x
        · rw [if_pos (by omega), if_pos (by omega), List.getD_append _ _ _ _ (by omega)]
        · rw [if_neg (by omega), if_neg (by omega)]
    · rw [if_neg fun h => hji h.1, if_neg fun h => hji h.1, if_neg fun h => hji h.1]

end Stored

/-- A write that stops within its first block ends where it began. -/
theorem writeStop_of_lt (hk : k < left) (hblk : off % bsize + k < bsize) :
    Node.writeStop off left k = off := by
  have hdm := Nat.div_add_mod' off bsize
  have hle := Nat.div_mul_le_self off bsize
  have hdiv : (off + k) / bsize = off / bsize := div_of_lt (by omega) (by omega)
  rw [Node.writeStop, if_neg (by omega), hdiv]
  omega

/-- A write that completes its first block ends where the rest of it ends. -/
theorem writeStop_add {m l : ℕ} (hm : l = 0 ∨ off % bsize + m = bsize) (hk : k ≤ l) :
    Node.writeStop off (m + l) (m + k) = Node.writeStop (off + m) l k := by
  unfold Node.writeStop
  by_cases hkl : k = l
  · rw [if_pos (by omega), if_pos hkl, Nat.add_assoc]
  have hdm := Nat.div_add_mod' off bsize
  have hend : off + m = (off / bsize + 1) * bsize := by
    rw [Nat.succ_mul]
    omega
  have hle : off + m ≤ (off + (m + k)) / bsize * bsize := by
    rw [← Nat.add_assoc, hend, Nat.add_comm _ k, Nat.add_mul_div_right _ _ (by decide)]
    exact Nat.mul_le_mul_right _ (Nat.le_add_left _ _)
  rw [if_neg (by omega), if_neg hkl, Nat.add_assoc]
  omega

theorem le_writeStop (off n k : ℕ) : off ≤ Node.writeStop off n k := by
  unfold Node.writeStop
  split
  · exact Nat.le_add_right ..
  · exact Nat.le_max_left ..

theorem wp_writeDone {Q : ℕ × ℕ → Store → Prop} {tot : ℕ} (h : Holds sb D e i s)
    (hQ : ∀ bit' blk' d', BlockInv sb bit' blk' (update D i d') →
      Took sb (touched off 0) s.bit s.blk (D i) bit' blk' d' →
      Stored sb i s.blk D off (src.fetch tot 0)
        (Node.writeStop off 0 (src.fetch tot 0).length) blk' d' →
      Q (Node.writeStop off 0 (src.fetch tot 0).length,
        tot + (Node.writeStop off 0 (src.fetch tot 0).length - off)) (s.put e bit' blk' d')) :
    (Pure.pure (off, tot) : DiskProg (ℕ × ℕ)).wp (checked sb) A s Q := by
  have hnil : src.fetch tot 0 = [] :=
    List.length_eq_zero_iff.mp (Nat.le_zero.mp (length_fetch_le src tot 0))
  have hstop : Node.writeStop off 0 0 = off := rfl
  have hq := hQ s.bit s.blk (D i) (by rw [update_eq_self]; exact h.blocks) fun _ _ => rfl
  rw [hnil, List.length_nil, hstop, Nat.sub_self, put_self h.copy] at hq
  exact hq (Stored.refl ..)

/-- **The loop of `writei`.** -/
theorem wp_writeLoop {Q : ℕ × ℕ → Store → Prop} {tot : ℕ}
    (hA : freeBlocks sb s.bit < missing s.blk (D i) (touched off left) → A (some .outOfBlocks))
    (h : Holds sb D e i s) (hfuel : left ≤ fuel) (hmax : off + left ≤ maxfile * bsize)
    (hQ : ∀ bit' blk' d', BlockInv sb bit' blk' (update D i d') →
      Took sb (touched off left) s.bit s.blk (D i) bit' blk' d' →
      Stored sb i s.blk D off (src.fetch tot left)
        (Node.writeStop off left (src.fetch tot left).length) blk' d' →
      Q (Node.writeStop off left (src.fetch tot left).length,
        tot + (Node.writeStop off left (src.fetch tot left).length - off))
        (s.put e bit' blk' d')) : (writeLoop sb e src fuel off left tot).wp (checked sb) A s Q := by
  induction fuel generalizing s D off left tot with
  | zero =>
    rw [Nat.le_zero.mp hfuel] at hQ
    exact wp_writeDone h hQ
  | succ fuel ih =>
    rw [writeLoop]
    by_cases hleft : left = 0
    · rw [hleft] at hQ
      rw [if_pos hleft]
      exact wp_writeDone h hQ
    have hb : 0 < bsize := by decide
    have hmod := Nat.mod_lt off hb
    have hdm := Nat.div_add_mod' off bsize
    have hbn : off / bsize < maxfile := by
      rw [Nat.div_lt_iff_lt_mul hb]
      omega
    rw [if_neg hleft, Prog.wp_bind]
    have hsub : slotsFor (off / bsize) ⊆ touched off left :=
      slotsFor_subset (Nat.pos_of_ne_zero hleft)
    refine wp_bmap (fun hlt => hA (Nat.lt_of_lt_of_le hlt (missing_mono hsub))) h hbn
      fun bit₁ blk₁ d₁ hinv₁ hg htook h0 => ?_
    -- the bytes for this block, and those after it
    obtain ⟨m, hm⟩ : ∃ m, m = min left (bsize - off % bsize) := ⟨_, rfl⟩
    obtain ⟨l, rfl⟩ : ∃ l, left = m + l := ⟨left - m, by omega⟩
    dsimp only
    rw [← hm, Nat.add_sub_cancel_left]
    have h₁ : Holds sb (update D i d₁) e i (s.put e bit₁ blk₁ d₁) :=
      h.put hinv₁ hg.type_eq
    have hself : update D i d₁ i = d₁ := update_self ..
    have h0' : blockOf blk₁ (update D i d₁ i) (off / bsize) ≠ 0 := by rwa [hself]
    have hmeta : sb.nmeta ≤ blockOf blk₁ d₁ (off / bsize) := by
      have hle := h₁.loaded.nmeta_le (k := slotOf (off / bsize)) h0'
      rwa [hself] at hle
    have hle := length_fetch_le src tot m
    have hstored := hg.stored hinv₁ h.used h0 (by omega) hle
    have hinv₂ := hinv₁.write h₁.used h0'
      ((blk₁ (blockOf blk₁ d₁ (off / bsize))).blit (off % bsize) (src.fetch tot m))
    rw [hself] at hinv₂
    -- storing the bytes changes no slot
    have hstay : Took sb (touched off (m + l)) s.bit s.blk (D i) bit₁ (update blk₁
        (blockOf blk₁ d₁ (off / bsize))
        ((blk₁ (blockOf blk₁ d₁ (off / bsize))).blit (off % bsize) (src.fetch tot m))) d₁ := by
      intro S hS
      rw [missing_congr fun k => ?_]
      · exact htook S (hsub.trans hS)
      · have hrefs := congrFun (refs_write hinv₁.exact h₁.used h0'
          ((blk₁ (blockOf blk₁ d₁ (off / bsize))).blit (off % bsize) (src.fetch tot m))) (i, k)
        rwa [refs_of_used h₁.used, refs_of_used h₁.used, hself] at hrefs
    rw [Prog.wp_bind, Prog.wp_call_ok (checked_changeBlock hmeta)]
    dsimp only
    by_cases hfull : (src.fetch tot m).length = m
    · -- this block is done: go on with the next
      rw [decide_eq_true hfull, if_pos rfl]
      have hfetch : src.fetch tot (m + l) = src.fetch tot m ++ src.fetch (tot + m) l := by
        rw [fetch_add, if_neg (by omega)]
      have hstop : Node.writeStop off (m + l) (m + (src.fetch (tot + m) l).length)
          = Node.writeStop (off + m) l (src.fetch (tot + m) l).length :=
        writeStop_add (by omega) (length_fetch_le ..)
      have hle₂ := le_writeStop (off + m) l (src.fetch (tot + m) l).length
      rw [hfetch, List.length_append, hfull, hstop] at hQ
      refine ih (fun hlt => hA (hstay.lt_missing (Finset.Subset.refl _) (touched_add off m l) ?_))
        (h.put hinv₂ hg.type_eq) (by omega) (by omega) fun bit' blk' d' hinv htook' hst => ?_
      · rwa [hself, put_blk, put_bit] at hlt
      rw [update_idem] at hinv
      rw [hself, put_blk, put_bit] at htook'
      have hq := hQ bit' blk' d' hinv (hstay.trans (htook'.mono (touched_add off m l)))
        (Stored.trans hfull hstored hst)
      show Q _ ((s.put e bit₁ _ d₁).put e bit' blk' d')
      rw [put_put, Nat.add_assoc]
      rw [show m + (Node.writeStop (off + m) l (src.fetch (tot + m) l).length - (off + m))
        = Node.writeStop (off + m) l (src.fetch (tot + m) l).length - off by omega]
      exact hq
    · rw [decide_eq_false hfull, if_neg Bool.false_ne_true, Prog.wp_pure]
      have hfetch : src.fetch tot (m + l) = src.fetch tot m := by
        rw [fetch_add, if_pos (by omega)]
      have hstop : Node.writeStop off (m + l) (src.fetch tot m).length = off :=
        writeStop_of_lt (by omega) (by omega)
      have hq := hQ bit₁ _ d₁ hinv₂ hstay
      rw [hfetch, hstop, Nat.sub_self] at hq
      exact hq ⟨hstored.fields, hstored.kept, fun x h₁ h₂ => absurd h₁ (by omega), hstored.bytes⟩

/-! ### Giving up blocks -/

/-- The references left when some slots of inode `i` are given up. -/
def clearSlots (R : ℕ × ℕ → ℕ) (i : ℕ) (l : List ℕ) (x : ℕ × ℕ) : ℕ :=
  if x.1 = i ∧ x.2 ∈ l then 0 else R x

theorem clearSlots_nil (R : ℕ × ℕ → ℕ) (i : ℕ) : clearSlots R i [] = R := by
  funext x
  exact if_neg fun h => List.not_mem_nil h.2

theorem clearSlots_cons (R : ℕ × ℕ → ℕ) (i k : ℕ) (l : List ℕ) :
    clearSlots (update R (i, k) 0) i l = clearSlots R i (k :: l) := by
  funext ⟨j, k'⟩
  unfold clearSlots
  by_cases hl : j = i ∧ k' ∈ l
  · rw [if_pos hl, if_pos ⟨hl.1, List.mem_cons_of_mem k hl.2⟩]
  rw [if_neg hl]
  by_cases hk : j = i ∧ k' = k
  · rw [if_pos ⟨hk.1, hk.2 ▸ List.mem_cons_self⟩, hk.1, hk.2, update_self]
  · rw [if_neg, update_of_ne fun h => hk (Prod.mk.inj h)]
    rintro ⟨hj, hmem⟩
    obtain rfl | hmem := List.mem_cons.mp hmem
    · exact hk ⟨hj, rfl⟩
    · exact hl ⟨hj, hmem⟩

theorem wp_bfree {x : ℕ × ℕ} (hR : Exact s.bit sb.nmeta sb.size R) (hx : R x ≠ 0) :
    (bfree (R x)).wp (checked sb) A s Q ↔
      Q () { s with bit := update s.bit (R x) false } := by
  rw [bfree, Prog.wp_call, checked_clearBit (hR.range x hx).2, if_pos (hR.marked hx)]
  exact Iff.rfl

/-- The first loop of `itrunc` gives up the blocks of `addrs`. -/
theorem wp_truncDirect {l : List ℕ} (hcopy : (s.mem.inode e).d = d) (hl : l.Nodup)
    (hR : ∀ k ∈ l, R (i, k) = d.addr k) (hx : Exact s.bit sb.nmeta sb.size R)
    (hQ : ∀ bit' d', Exact bit' sb.nmeta sb.size (clearSlots R i l) →
      d' = { d with addrs := d'.addrs } → (∀ k, d'.addr k = if k ∈ l then 0 else d.addr k) →
      Q () (s.put e bit' s.blk d')) : (truncDirect e l).wp (checked sb) A s Q := by
  induction l generalizing s d R with
  | nil =>
    have hq := hQ s.bit d (by rwa [clearSlots_nil]) rfl fun k => (if_neg List.not_mem_nil).symm
    rwa [put_self hcopy] at hq
  | cons k l ih =>
    obtain ⟨hkl, hl⟩ := List.nodup_cons.mp hl
    have hk := hR k List.mem_cons_self
    rw [truncDirect, Prog.wp_bind, wp_getInode, hcopy]
    by_cases h0 : d.addr k = 0
    · rw [if_pos h0]
      refine ih hcopy hl (fun k' hk' => hR k' (List.mem_cons_of_mem k hk')) hx
        fun bit' d' hx' hd' haddr => hQ bit' d' ?_ hd' fun k' => ?_
      · rw [← clearSlots_cons, ← h0, ← hk, update_eq_self]
        exact hx'
      · rw [haddr]
        by_cases hkk : k' = k
        · rw [hkk, if_neg hkl, if_pos List.mem_cons_self, h0]
        · simp only [List.mem_cons, hkk, false_or]
    rw [if_neg h0, Prog.wp_bind, ← hk, wp_bfree hx (hk ▸ h0), Prog.wp_bind, wp_setInode]
    have hput : (s.put e (update s.bit (R (i, k)) false) s.blk (d.setAddr k 0))
        = { s with bit := update s.bit (R (i, k)) false
                   mem := s.mem.setInode e fun ip => { ip with d := ip.d.setAddr k 0 } } := by
      rw [← hcopy]
      rfl
    rw [← hput]
    have hx₁ := hx.free (x := (i, k)) (hk ▸ h0)
    refine ih (R := update R (i, k) 0) put_d hl (fun k' hk' => ?_) hx₁
      fun bit' d' hx' hd' haddr => ?_
    · have hne : k' ≠ k := fun h => hkl (h ▸ hk')
      rw [update_of_ne fun h => hne (Prod.mk.inj h).2, Dinode.addr_setAddr_of_ne _ _ hne]
      exact hR k' (List.mem_cons_of_mem k hk')
    · rw [put_put, put_blk]
      refine hQ bit' d' (by rwa [← clearSlots_cons]) (by rw [hd']; rfl) fun k' => ?_
      rw [haddr]
      by_cases hkk : k' = k
      · rw [hkk, if_neg hkl, if_pos List.mem_cons_self, Dinode.addr_setAddr_zero]
      · simp only [List.mem_cons, hkk, false_or, Dinode.addr_setAddr_of_ne _ _ hkk]

/-- The second loop of `itrunc` gives up the blocks of the indirect block `a`. -/
theorem wp_truncIndirect {a : Block} {l : List ℕ} (hl : l.Nodup)
    (hR : ∀ j ∈ l, R (i, ndirect + 1 + j) = (a.get32 (4 * j)).toNat)
    (hx : Exact s.bit sb.nmeta sb.size R) (hQ : ∀ bit', Exact bit' sb.nmeta sb.size
        (clearSlots R i (l.map fun j => ndirect + 1 + j)) → Q () { s with bit := bit' }) :
    (truncIndirect a l).wp (checked sb) A s Q := by
  induction l generalizing s R with
  | nil => exact hQ s.bit (by rwa [List.map_nil, clearSlots_nil])
  | cons j l ih =>
    obtain ⟨hjl, hl⟩ := List.nodup_cons.mp hl
    have hj := hR j List.mem_cons_self
    rw [truncIndirect]
    by_cases h0 : (a.get32 (4 * j)).toNat = 0
    · rw [if_pos h0]
      refine ih hl (fun j' hj' => hR j' (List.mem_cons_of_mem j hj')) hx fun bit' hx' => hQ bit' ?_
      rw [List.map_cons, ← clearSlots_cons, ← h0, ← hj, update_eq_self]
      exact hx'
    rw [if_neg h0, Prog.wp_bind, ← hj, wp_bfree hx (hj ▸ h0)]
    have hx₁ := hx.free (x := (i, ndirect + 1 + j)) (hj ▸ h0)
    refine ih (R := update R (i, ndirect + 1 + j) 0) hl (fun j' hj' => ?_) hx₁
      fun bit' hx' => hQ bit' ?_
    · have hne : j' ≠ j := fun h => hjl (h ▸ hj')
      rw [update_of_ne fun h => hne (by have := (Prod.mk.inj h).2; omega)]
      exact hR j' (List.mem_cons_of_mem j hj')
    · rwa [List.map_cons, ← clearSlots_cons]

/-- The part of `itrunc` for the indirect block. -/
theorem wp_truncTable (hcopy : (s.mem.inode e).d = d)
    (hR : ∀ k, ndirect ≤ k → R (i, k) = ptr s.blk d k) (hx : Exact s.bit sb.nmeta sb.size R)
    (hQ : ∀ bit' d', Exact bit' sb.nmeta sb.size (fun x => if x.1 = i ∧
      ndirect ≤ x.2 then 0 else R x) →
      d' = { d with addrs := d'.addrs } → (∀ k < ndirect, d'.addr k = d.addr k) →
      d'.addr ndirect = 0 → Q () (s.put e bit' s.blk d')) :
    (truncTable e).wp (checked sb) A s Q := by
  rw [truncTable, Prog.wp_bind, wp_getInode, hcopy]
  have hind := hR ndirect (Nat.le_refl _)
  rw [ptr_addr (Nat.le_refl _)] at hind
  by_cases h0 : d.addr ndirect = 0
  · -- without an indirect block these slots are empty
    have hclear : (fun x : ℕ × ℕ => if x.1 = i ∧ ndirect ≤ x.2 then 0 else R x) = R := by
      funext ⟨j, k⟩
      by_cases hx : j = i ∧ ndirect ≤ k
      · rw [if_pos hx, hx.1, hR k hx.2]
        obtain hk | ⟨j, hj, rfl⟩ | hk := slot_cases k
        · rw [ptr_addr hk, Nat.le_antisymm hk hx.2, h0]
        · rw [ptr_entry hj, if_pos h0]
        · rw [ptr_of_ge hk]
      · rw [if_neg hx]
    have hq := hQ s.bit d (by rwa [hclear]) rfl (fun _ _ => rfl) h0
    rw [put_self hcopy] at hq
    rwa [if_pos h0, Prog.wp_pure]
  have hmeta : sb.nmeta ≤ d.addr ndirect := hind ▸ (hx.range (i, ndirect) (hind ▸ h0)).1
  rw [if_neg h0, Prog.wp_bind, Prog.wp_call_ok (checked_readBlock hmeta), Prog.wp_bind]
  refine wp_truncIndirect (R := R) (i := i) List.nodup_range (fun j hj => ?_) hx
    fun bit₁ hx₁ => ?_
  · rw [hR _ (by omega), ptr_entry (List.mem_range.mp hj), if_neg h0]
  -- the slot of the indirect block itself is still there
  have hslot : clearSlots R i ((List.range nindirect).map fun j => ndirect + 1 + j) (i, ndirect)
      = d.addr ndirect := by
    rw [clearSlots, if_neg, hind]
    rintro ⟨-, hmem⟩
    obtain ⟨j, -, hj⟩ := List.mem_map.mp hmem
    omega
  rw [Prog.wp_bind, ← hslot, wp_bfree hx₁ (hslot ▸ h0), wp_setInode, hslot]
  have hx₂ := hx₁.free (x := (i, ndirect)) (hslot ▸ h0)
  rw [hslot] at hx₂
  have hclear : update
      (clearSlots R i ((List.range nindirect).map fun j => ndirect + 1 + j)) (i, ndirect) 0
      = fun x => if x.1 = i ∧ ndirect ≤ x.2 then 0 else R x := by
    funext ⟨j, k⟩
    by_cases hxk : (j, k) = (i, ndirect)
    · obtain ⟨rfl, rfl⟩ := Prod.mk.inj hxk
      rw [update_self, if_pos ⟨rfl, Nat.le_refl _⟩]
    rw [update_of_ne hxk]
    show clearSlots R i _ (j, k) = if j = i ∧ ndirect ≤ k then 0 else R (j, k)
    by_cases hjk : j = i ∧ ndirect ≤ k
    · rw [if_pos hjk]
      obtain hk' | ⟨j', hj', rfl⟩ | hk' := slot_cases k
      · exact absurd (by rw [hjk.1, Nat.le_antisymm hk' hjk.2]) hxk
      · exact if_pos ⟨hjk.1, List.mem_map_of_mem (List.mem_range.mpr hj')⟩
      · have hzero : R (j, k) = 0 := by rw [hjk.1, hR k hjk.2, ptr_of_ge hk']
        rw [clearSlots, hzero, ite_self]
    · rw [if_neg hjk]
      refine if_neg ?_
      rintro ⟨hj, hmem⟩
      obtain ⟨j', -, rfl⟩ := List.mem_map.mp hmem
      exact hjk ⟨hj, by omega⟩
  rw [hclear] at hx₂
  have hq := hQ _ (d.setAddr ndirect 0) hx₂ rfl
    (fun k hk => Dinode.addr_setAddr_of_ne _ _ (Nat.ne_of_lt hk)) (Dinode.addr_setAddr_zero ..)
  rw [← hcopy] at hq
  rw [← hcopy]
  exact hq

/-- An inode with no contents. -/
def Dinode.truncated (d : Dinode) : Dinode := { d with size := 0, addrs := fun _ => 0 }

/-- An inode without blocks in place of another keeps the disk well-formed, if the blocks
of the other are given up. -/
theorem BlockInv.of_empty (h : BlockInv sb bit blk D) (haddr : ∀ k ≤ ndirect, d.addr k = 0)
    (hsize : d.size = 0)
    (hx : Exact bit' sb.nmeta sb.size fun x => if x.1 = i then 0 else refs sb blk D x) :
    BlockInv sb bit' blk (update D i d) := by
  refine ⟨by rwa [refs_update_empty haddr], fun j hu bn hbn => ?_, fun j hu => ?_⟩
  · by_cases hj : j = i
    · rw [hj, update_self, hsize] at hbn
      exact absurd hbn (Nat.not_lt_zero _)
    · rw [Used, update_of_ne hj] at hu
      rw [update_of_ne hj] at hbn ⊢
      exact h.noHoles j hu bn hbn
  · by_cases hj : j = i
    · rw [hj, update_self, hsize]
      exact Nat.zero_le _
    · rw [Used, update_of_ne hj] at hu
      rw [update_of_ne hj]
      exact h.size_le j hu

/-- **`itrunc` gives up all blocks.** -/
theorem wp_itrunc (h : Holds sb D e i s) (hinum : (s.mem.inode e).inum = i)
    (hQ : ∀ bit', BlockInv sb bit' s.blk (update D i (D i).truncated) →
      Q () { s.put e bit' s.blk (D i).truncated with
        dinode := update s.dinode i (D i).truncated }) :
    (itrunc e).wp (checked sb) A s Q := by
  rw [itrunc, Prog.wp_bind]
  refine wp_truncDirect (R := refs sb s.blk D) (i := i) h.copy List.nodup_range (fun k hk => ?_)
    h.blocks.exact fun bit₁ d₁ hx₁ hd₁ haddr₁ => ?_
  · rw [refs_of_used h.used, ptr_addr (Nat.le_of_lt (List.mem_range.mp hk))]
  have hlo : ∀ k < ndirect, d₁.addr k = 0 := fun k hk => by
    rw [haddr₁, if_pos (List.mem_range.mpr hk)]
  have hhi : d₁.addr ndirect = (D i).addr ndirect := by
    rw [haddr₁, if_neg (by simp)]
  rw [Prog.wp_bind]
  refine wp_truncTable (R := clearSlots (refs sb s.blk D) i (List.range ndirect)) (i := i) put_d
    (fun k hk => ?_) hx₁ fun bit₂ d₂ hx₂ hd₂ haddr₂ hind => ?_
  · -- the slots from the indirect block on are as they were
    rw [clearSlots, if_neg fun hmem => absurd (List.mem_range.mp hmem.2) (by omega),
      refs_of_used h.used, put_blk]
    obtain hk' | ⟨j, hj, rfl⟩ | hk' := slot_cases k
    · rw [ptr_addr hk', ptr_addr hk', Nat.le_antisymm hk' hk, hhi]
    · rw [ptr_entry hj, ptr_entry hj, hhi]
    · rw [ptr_of_ge hk', ptr_of_ge hk']
  rw [put_put, put_blk]
  have hzero : ∀ k ≤ ndirect, d₂.addr k = 0 := fun k hk => by
    by_cases hlt : k < ndirect
    · rw [haddr₂ k hlt, hlo k hlt]
    · rw [show k = ndirect by omega, hind]
  have htrunc : { d₂ with size := 0 } = (D i).truncated := by
    rw [hd₂, hd₁, Dinode.truncated, Dinode.addrs_eq_zero hzero]
  have hclear : (fun x : ℕ × ℕ => if x.1 = i ∧ ndirect ≤ x.2 then 0
      else clearSlots (refs sb s.blk D) i (List.range ndirect) x)
      = fun x => if x.1 = i then 0 else refs sb s.blk D x := by
    funext ⟨j, k⟩
    unfold clearSlots
    by_cases hj : j = i
    · by_cases hk : ndirect ≤ k
      · rw [if_pos ⟨hj, hk⟩, if_pos hj]
      · rw [if_neg fun h => hk h.2, if_pos ⟨hj, List.mem_range.mpr (by omega)⟩, if_pos hj]
    · rw [if_neg fun h => hj h.1, if_neg fun h => hj h.1, if_neg hj]
  rw [hclear] at hx₂
  have hinv := h.blocks.of_empty (d := (D i).truncated)
    (fun k _ => by simp [Dinode.truncated, Dinode.addr]) rfl hx₂
  have hq := hQ bit₂ hinv
  rw [Prog.wp_bind, wp_setInode, iupdate, Prog.wp_bind, wp_getInode,
    setInode_put fun d => { d with size := 0 }, htrunc, put_d, put_inum, hinum,
    Prog.wp_call_ok (checked_writeDinode h.used.1)]
  exact hq

/-! ### Files as strings of bytes -/

/-- The contents of a file. -/
def fileData (blk : ℕ → Block) (d : Dinode) : List UInt8 :=
  (List.range d.size.toNat).map (fileByte blk d)

/-- An inode and its contents. -/
def nodeOf (blk : ℕ → Block) (d : Dinode) : Node :=
  ⟨d.type, d.major, d.minor, d.nlink, fileData blk d⟩

@[simp] theorem length_fileData (blk : ℕ → Block) (d : Dinode) :
    (fileData blk d).length = d.size.toNat := by
  rw [fileData, List.length_map, List.length_range]

theorem getD_fileData (blk : ℕ → Block) (d : Dinode) {x : ℕ} (hx : x < d.size.toNat) :
    (fileData blk d).getD x 0 = fileByte blk d x := by
  rw [fileData, List.getD_eq_getElem _ _ (by simpa using hx), List.getElem_map, List.getElem_range]

theorem take_drop_fileData (blk : ℕ → Block) (d : Dinode) (h : off + k ≤ d.size.toNat) :
    ((fileData blk d).drop off).take k
      = (List.range k).map fun t => fileByte blk d (off + t) := by
  refine List.ext_getElem (by simp; omega) fun t h₁ h₂ => ?_
  simp [fileData]

section Grow

variable {d : Dinode} {off : ℕ}

theorem type_grow : (d.grow off).type = d.type := by unfold Dinode.grow; split <;> rfl

theorem addrs_grow : (d.grow off).addrs = d.addrs := by unfold Dinode.grow; split <;> rfl

theorem size_grow (h : off < 2 ^ 32) : (d.grow off).size.toNat = max d.size.toNat off := by
  unfold Dinode.grow
  split
  · rw [BitVec.toNat_ofNat, Nat.mod_eq_of_lt h]
    omega
  · omega

theorem ptr_grow (blk : ℕ → Block) (k : ℕ) : ptr blk (d.grow off) k = ptr blk d k :=
  ptr_congr (fun k _ => by rw [Dinode.addr, Dinode.addr, addrs_grow]) fun _ _ _ => rfl

end Grow

/-- What is left of a read or write after the sum of offset and length was checked. -/
theorem add_mod_eq (hn : n < 2 ^ 32) (hoff : off < 2 ^ 32) (h : ¬ (off + n) % 2 ^ 32 < off) :
    (off + n) % 2 ^ 32 = off + n := by
  omega

/-- **`readi` returns a part of the string**, if the blocks of that part are there. -/
theorem Reads.wp_readi {F σ : Type} {H : Handler DiskOp F σ} {A : F → Prop} {x : σ}
    {Q : ℤ × List UInt8 → σ → Prop} (hr : Reads sb H x s) (h : Loaded sb D e i s)
    (hn : n < 2 ^ 32) (hmap : ∀ bn, bn * bsize < off + n → bn * bsize < (D i).size.toNat →
      blockOf s.blk (D i) bn ≠ 0) :
    (readi sb e dst off n).wp H A x Q ↔ Q ((nodeOf s.blk (D i)).read dst off n) x := by
  have hread : (nodeOf s.blk (D i)).read dst off n
      = (let n := Node.readLength (D i).size.toNat off n
        ((if dst.room 0 n < n then -1 else n : ℤ),
          ((fileData s.blk (D i)).drop off).take (dst.room 0 n))) := by
    rw [Node.read, nodeOf, length_fileData]
  have hlt := (D i).size.isLt
  rw [readi, Prog.wp_bind, hr.wp_getInode, h.copy, hread]
  unfold Node.readLength
  dsimp only
  by_cases hout : (D i).size.toNat < off ∨ (off + n) % 2 ^ 32 < off
  · rw [if_pos hout, if_pos hout, Nat.le_zero.mp (room_le dst 0 0), Prog.wp_pure]
    simp
  rw [not_or] at hout
  have hsum := add_mod_eq hn (by omega) hout.2
  rw [if_neg (not_or.mpr hout), if_neg (not_or.mpr hout), hsum]
  obtain ⟨m, hm⟩ : ∃ m, m = if (D i).size.toNat < off + n then (D i).size.toNat - off else n :=
    ⟨_, rfl⟩
  have hle : off + m ≤ (D i).size.toNat := by
    rw [hm]
    split <;> omega
  have hroom := room_le dst 0 m
  have hmn : m ≤ n := by
    rw [hm]
    split <;> omega
  rw [← hm, hr.wp_readLoop h (Nat.le_refl m) fun bn hbn => hmap bn (by omega) (by omega),
    readResult, take_drop_fileData _ _ (by omega)]
  simp

theorem wp_readi_mapped {Q : ℤ × List UInt8 → Store → Prop} (h : Loaded sb D e i s)
    (hn : n < 2 ^ 32) (hmap : ∀ bn, bn * bsize < off + n → bn * bsize < (D i).size.toNat →
      blockOf s.blk (D i) bn ≠ 0) :
    (readi sb e dst off n).wp (checked sb) A s Q ↔ Q ((nodeOf s.blk (D i)).read dst off n) s :=
  (reads_checked sb s).wp_readi h hn hmap

/-- **`readi` returns a part of the string.** -/
theorem wp_readi {Q : ℤ × List UInt8 → Store → Prop} (h : Holds sb D e i s) (hn : n < 2 ^ 32) :
    (readi sb e dst off n).wp (checked sb) A s Q ↔
      Q ((nodeOf s.blk (D i)).read dst off n) s :=
  wp_readi_mapped h.loaded hn fun bn _ hbn => h.blocks.noHoles i h.used bn hbn

theorem fileData_stored {stop : ℕ} {bytes : List UInt8} (hu : Used sb D i)
    (hst : Stored sb i s.blk D off bytes stop blk' d') (hstop : stop < 2 ^ 32)
    (hoff : off ≤ (D i).size.toNat) (hend : stop ≤ off + bytes.length) :
    fileData blk' (d'.grow stop) = Node.overlay (fileData s.blk (D i)) off bytes stop := by
  have hsize : (d'.grow stop).size.toNat = max (D i).size.toNat stop := by
    have hd' : d'.size = (D i).size := by rw [hst.fields]
    rw [size_grow hstop, hd']
  have hblock : ∀ x, fileByte blk' (d'.grow stop) x = fileByte blk' d' x := by
    intro x
    unfold fileByte blockOf
    rw [ptr_grow]
  rw [fileData, Node.overlay, hsize, length_fileData]
  refine List.map_congr_left fun x hx => ?_
  have hx := List.mem_range.mp hx
  have hbyte := hst.bytes i hu x
  rw [update_self] at hbyte
  rw [hblock, hbyte]
  by_cases hin : off ≤ x ∧ x < off + bytes.length
  · rw [if_pos ⟨rfl, hin⟩, if_pos hin]
  · rw [if_neg fun h => hin h.2, if_neg hin, getD_fileData _ _ (by omega)]

/-- Writing keeps the disk well-formed, with the new size of the file. -/
theorem Stored.blockInv {stop : ℕ} {bytes : List UInt8}
    (hst : Stored sb i s.blk D off bytes stop blk' d')
    (hinv : BlockInv sb bit' blk' (update D i d')) (hoff : off ≤ (D i).size.toNat)
    (hstop : stop ≤ maxfile * bsize) :
    BlockInv sb bit' blk' (update D i (d'.grow stop)) := by
  have hd' : d'.size = (D i).size := by rw [hst.fields]
  have hmax : maxfile * bsize < 2 ^ 32 := by decide
  have hsize : (d'.grow stop).size.toNat = max (D i).size.toNat stop := by
    rw [size_grow (by omega), hd']
  have hself : update D i d' i = d' := update_self ..
  have hupd : update (update D i d') i (d'.grow stop)
      = update D i (d'.grow stop) := update_idem ..
  have hused : ∀ j, Used sb (update D i (d'.grow stop)) j ↔
      Used sb (update D i d') j := by
    intro j
    rw [← hupd]
    exact used_update (by rw [type_grow, hself]) j
  refine ⟨?_, fun j hj bn hbn => ?_, fun j hj => ?_⟩
  · rw [← hupd, refs_update_fields (by rw [type_grow, hself]) (by rw [addrs_grow, hself])]
    exact hinv.exact
  · rw [hused] at hj
    by_cases hji : j = i
    · have hblock : blockOf blk' (d'.grow stop) bn = blockOf blk' d' bn := ptr_grow ..
      rw [hji, update_self, hsize] at hbn
      rw [hji, update_self, hblock]
      by_cases hold : bn * bsize < (D i).size.toNat
      · have h0 := hinv.noHoles i (hji ▸ hj) bn (by rwa [hself, hd'])
        rwa [hself] at h0
      · have h0 := hst.mapped (bn * bsize) (by omega) (by omega)
        rwa [Nat.mul_div_cancel _ (by decide)] at h0
    · have h0 := hinv.noHoles j hj bn
      rw [update_of_ne hji] at hbn h0 ⊢
      exact h0 hbn
  · rw [hused] at hj
    by_cases hji : j = i
    · have hle := hinv.size_le i (hji ▸ hj)
      rw [hself, hd'] at hle
      rw [hji, update_self, hsize]
      omega
    · have hle := hinv.size_le j hj
      rwa [update_of_ne hji] at hle ⊢

theorem writeStop_le (off n k : ℕ) : Node.writeStop off n k ≤ off + k := by
  have hle := Nat.div_mul_le_self (off + k) bsize
  unfold Node.writeStop
  split <;> omega

/-- The size of an inode says nothing about its slots. -/
theorem Took.grow {T : Finset ℕ} (h : Took sb T bit blk d bit' blk' d') (stop : ℕ) :
    Took sb T bit blk d bit' blk' (d'.grow stop) := by
  unfold Dinode.grow
  split
  · exact h
  · exact h

/-- **`writei` replaces a part of the string.** -/
theorem wp_writei {Q : ℤ → Store → Prop}
    (hA : freeBlocks sb s.bit < missing s.blk (D i) (touched off n) → A (some .outOfBlocks))
    (h : Holds sb D e i s) (hinum : (s.mem.inode e).inum = i) (hn : n < 2 ^ 32)
    (hfail : ((nodeOf s.blk (D i)).write src off n).1 = -1 → Q (-1) s)
    (hQ : ∀ bit' blk' d', ((nodeOf s.blk (D i)).write src off n).1 ≠ -1 →
      BlockInv sb bit' blk' (update D i d') →
      Took sb (touched off n) s.bit s.blk (D i) bit' blk' d' →
      d' = { D i with size := d'.size, addrs := d'.addrs } →
      fileData blk' d' = ((nodeOf s.blk (D i)).write src off n).2 →
      (∀ j, j ≠ i → Used sb D j → fileData blk' (D j) = fileData s.blk (D j)) →
      Q ((nodeOf s.blk (D i)).write src off n).1
        { s.put e bit' blk' d' with dinode := update s.dinode i d' }) :
    (writei sb e src off n).wp (checked sb) A s Q := by
  have hlt := (D i).size.isLt
  have hmax : maxfile * bsize < 2 ^ 32 := by decide
  rw [writei, Prog.wp_bind, wp_getInode, h.copy]
  rw [Node.write, nodeOf, length_fileData] at hfail hQ
  by_cases hout : (D i).size.toNat < off ∨ (off + n) % 2 ^ 32 < off
  · rw [if_pos hout] at hfail
    rw [if_pos hout, Prog.wp_pure]
    exact hfail rfl
  rw [if_neg hout] at hfail hQ ⊢
  rw [not_or] at hout
  rw [add_mod_eq hn (by omega) hout.2] at hfail hQ ⊢
  by_cases hbig : maxfile * bsize < off + n
  · rw [if_pos hbig] at hfail ⊢
    exact hfail rfl
  rw [if_neg hbig] at hQ ⊢
  rw [Prog.wp_bind]
  refine wp_writeLoop hA h (Nat.le_refl n) (by omega) fun bit' blk' d' hinv htook hst => ?_
  have hlen := length_fetch_le src 0 n
  have hstop := writeStop_le off n (src.fetch 0 n).length
  rw [Nat.zero_add]
  dsimp only at hQ ⊢
  generalize Node.writeStop off n (src.fetch 0 n).length = stop at *
  rw [Prog.wp_bind, wp_setInode, setInode_put fun d => d.grow stop, Prog.wp_bind, iupdate,
    Prog.wp_bind, wp_getInode, put_inum, put_d, hinum,
    Prog.wp_call_ok (checked_writeDinode h.used.1), Prog.wp_pure]
  refine hQ bit' blk' (d'.grow stop) (by omega) (hst.blockInv hinv (by omega) (by omega))
    (htook.grow stop) ?_ (fileData_stored h.used hst (by omega) (by omega) hstop) fun j hji hj => ?_
  · rw [hst.fields]
    unfold Dinode.grow
    split <;> rfl
  · refine List.map_congr_left fun x _ => ?_
    have hbyte := hst.bytes j hj x
    rwa [update_of_ne hji, if_neg fun h => hji h.1] at hbyte

end Xv6.Fs
