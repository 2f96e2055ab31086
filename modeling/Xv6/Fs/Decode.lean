import Xv6.Fs.System
import Mathlib.Data.List.Find

/-!
# Reading a disk of bytes as a structured disk

`decode` finds the inodes, the bits and the data blocks in a disk of bytes.  As long as
code stays within the bounds the superblock sets, what it does to the bytes is what it
does to the decoded disk.

## Main definitions

* `decode` — the structured disk in a disk of bytes.
* `InRange` — the steps that stay within bounds.
* `checked` — the steps on a structured disk, with a fault where they do not.

## Main results

* `onImage_refines` — steps on bytes refine checked steps on the decoded disk.
-/

namespace Xv6.Fs

open Function

variable (sb : Super)

/-- The structured disk in a disk of bytes. -/
def decode (s : Image) : Store where
  dinode := fun i => if i < sb.ninodes then getDinode (s.blk (sb.iblock i)) (i % ipb) else .empty
  bit := fun b => decide (b < sb.size) && getBit (s.blk (sb.bblock b)) (b % bpb)
  blk := fun b => if sb.nmeta ≤ b then s.blk b else Bytes.zero
  mem := s.mem

/-- The step keeps to the inodes, bits and data blocks there are. -/
def InRange {β : Type} : DiskOp β → Prop
  | .readDinode i | .writeDinode i _ | .claimDinode i _ => i < sb.ninodes
  | .markBit k => k * bpb < sb.size
  | .clearBit b => b < sb.size
  | .readBlock b | .changeBlock b _ => sb.nmeta ≤ b
  | _ => True

instance {β : Type} (o : DiskOp β) : Decidable (InRange sb o) := by
  cases o <;> unfold InRange <;> infer_instance

/-- The steps on a structured disk.  A step out of bounds is a fault, `none`. -/
def checked : Handler DiskOp (Option Panic) Store := fun {_} o s =>
  if InRange sb o then (onStore sb o s).mapPanic some else .panic none

section Checked

variable {sb} {s : Store} {β : Type}

theorem checked_of_inRange {o : DiskOp β} (h : InRange sb o) :
    checked sb o s = (onStore sb o s).mapPanic some := if_pos h

theorem checked_mem (f : Mem → Outcome Panic (β × Mem)) : checked sb (.mem f) s
    = ((f s.mem).bind fun r => .ok (r.1, { s with mem := r.2 })).mapPanic some := rfl

theorem checked_readDinode {i : ℕ} (hi : i < sb.ninodes) :
    checked sb (.readDinode i) s = .ok (s.dinode i, s) := if_pos hi

theorem checked_writeDinode {i : ℕ} {d : Dinode} (hi : i < sb.ninodes) :
    checked sb (.writeDinode i d) s = .ok ((), { s with dinode := update s.dinode i d }) :=
  if_pos hi

theorem checked_claimDinode {i : ℕ} {type : BitVec 16} (hi : i < sb.ninodes) :
    checked sb (.claimDinode i type) s = if (s.dinode i).type = 0 then
      .ok (true, { s with dinode := update s.dinode i { Dinode.empty with type := type } })
      else .ok (false, s) := by
  have hr : InRange sb (.claimDinode i type) := hi
  rw [checked_of_inRange hr]
  unfold onStore
  dsimp only
  split <;> rfl

theorem checked_markBit {k : ℕ} (hk : k * bpb < sb.size) :
    checked sb (.markBit k) s = match firstClear sb (fun bi => s.bit (k * bpb + bi)) k with
      | some bi => .ok (some bi, { s with bit := update s.bit (k * bpb + bi) true })
      | none => .ok (none, s) := by
  have hr : InRange sb (.markBit k) := hk
  rw [checked_of_inRange hr]
  unfold onStore
  dsimp only
  generalize firstClear sb (fun bi => s.bit (k * bpb + bi)) k = x
  cases x <;> rfl

theorem checked_clearBit {b : ℕ} (hb : b < sb.size) :
    checked sb (.clearBit b) s = if s.bit b then
      .ok ((), { s with bit := update s.bit b false })
      else .panic (some .freeingFreeBlock) := by
  have hr : InRange sb (.clearBit b) := hb
  rw [checked_of_inRange hr]
  unfold onStore
  dsimp only
  split <;> rfl

theorem checked_readBlock {b : ℕ} (hb : sb.nmeta ≤ b) :
    checked sb (.readBlock b) s = .ok (s.blk b, s) := if_pos hb

theorem checked_changeBlock {b : ℕ} {f : Block → β × Block × Bool} (hb : sb.nmeta ≤ b) :
    checked sb (.changeBlock b f) s
      = .ok ((f (s.blk b)).1, { s with blk := update s.blk b (f (s.blk b)).2.1 }) :=
  if_pos hb

theorem checked_beginOp : checked sb .beginOp s = .ok ((), s) := rfl

theorem checked_endOp : checked sb .endOp s = .ok ((), s) := rfl

end Checked

variable {b i k bi : ℕ} {s : Image} {α β : Type} {c : DiskProg α}

/-! ### The parts of the disk do not overlap -/

variable {sb}

theorem iblock_lt (hi : i < sb.ninodes) : sb.iblock i < sb.bmapstart := by
  have hdiv : i / ipb ≤ (sb.ninodes - 1) / ipb := Nat.div_le_div_right (by omega)
  have := sb.inodes_lt
  unfold Super.iblock
  omega

theorem bmapstart_lt_nmeta (sb : Super) : sb.bmapstart < sb.nmeta :=
  Nat.lt_add_of_pos_right (Nat.succ_pos _)

theorem bblock_lt (hb : b < sb.size) : sb.bblock b < sb.nmeta := by
  have hdiv : b / bpb ≤ sb.size / bpb := Nat.div_le_div_right (Nat.le_of_lt hb)
  unfold Super.bblock Super.nmeta
  omega

theorem bmapstart_le_bblock (sb : Super) (b : ℕ) : sb.bmapstart ≤ sb.bblock b := Nat.le_add_left _ _

theorem iblock_inj {j : ℕ} (hblk : sb.iblock i = sb.iblock j) (hmod : i % ipb = j % ipb) :
    i = j := by
  have hdiv : i / ipb = j / ipb := by
    unfold Super.iblock at hblk
    omega
  rw [← Nat.div_add_mod i ipb, ← Nat.div_add_mod j ipb, hdiv, hmod]

theorem bblock_inj {c : ℕ} (hblk : sb.bblock b = sb.bblock c) (hmod : b % bpb = c % bpb) :
    b = c := by
  have hdiv : b / bpb = c / bpb := by
    unfold Super.bblock at hblk
    omega
  rw [← Nat.div_add_mod b bpb, ← Nat.div_add_mod c bpb, hdiv, hmod]

theorem ipb_pos : 0 < ipb := by decide

theorem bpb_pos : 0 < bpb := by decide

theorem bblock_mul_add (sb : Super) (k : ℕ) (hbi : bi < bpb) :
    sb.bblock (k * bpb + bi) = sb.bmapstart + k ∧ (k * bpb + bi) % bpb = bi := by
  constructor
  · rw [Super.bblock, Nat.mul_comm, Nat.mul_add_div bpb_pos, Nat.div_eq_of_lt hbi]
    omega
  · rw [Nat.mul_comm, Nat.mul_add_mod, Nat.mod_eq_of_lt hbi]

/-! ### Decoding what was written -/

@[simp] theorem logWrite_blk (s : Image) (b : ℕ) (v : Block) :
    (s.logWrite b v).blk = update s.blk b v := rfl

theorem decode_putDinode (s : Image) (hi : i < sb.ninodes) (d : Dinode) :
    decode sb (s.logWrite (sb.iblock i) (putDinode (s.blk (sb.iblock i)) (i % ipb) d))
      = { decode sb s with dinode := update (decode sb s).dinode i d } := by
  have hlt := iblock_lt hi
  unfold decode
  dsimp only
  rw [logWrite_blk]
  congr 1
  · funext j
    by_cases hji : j = i
    · subst hji
      rw [update_self, if_pos hi, update_self,
        getDinode_putDinode_self _ (Nat.mod_lt j ipb_pos)]
    rw [update_of_ne hji]
    congr 1
    by_cases hblk : sb.iblock j = sb.iblock i
    · -- another inode of the block
      rw [hblk, update_self,
        getDinode_putDinode_of_ne _ _ fun hmod => hji (iblock_inj hblk hmod)]
    · rw [update_of_ne hblk]
  · funext b
    have hne : sb.bblock b ≠ sb.iblock i := by
      have := bmapstart_le_bblock sb b
      omega
    simp only [update_of_ne hne]
  · funext b
    by_cases hb : sb.nmeta ≤ b
    · have hne : b ≠ sb.iblock i := by
        have := bmapstart_lt_nmeta sb
        omega
      rw [if_pos hb, if_pos hb, update_of_ne hne]
    · rw [if_neg hb, if_neg hb]

/-- Storing into a bit map block changes the bits of that block. -/
theorem decode_bit (s : Image) (hb : b < sb.size) (v : Bool) (blk : Block)
    (hblk : ∀ j, getBit blk j = if j = b % bpb then v else getBit (s.blk (sb.bblock b)) j) :
    decode sb (s.logWrite (sb.bblock b) blk)
      = { decode sb s with bit := update (decode sb s).bit b v } := by
  have hlt := bblock_lt hb
  have hle := bmapstart_le_bblock sb b
  unfold decode
  dsimp only
  rw [logWrite_blk]
  congr 1
  · funext i
    by_cases hi : i < sb.ninodes
    · have hne : sb.iblock i ≠ sb.bblock b := by
        have := iblock_lt hi
        omega
      rw [if_pos hi, if_pos hi, update_of_ne hne]
    · rw [if_neg hi, if_neg hi]
  · funext c
    by_cases hcb : c = b
    · subst hcb
      rw [update_self, update_self, hblk, if_pos rfl]
      simp [hb]
    · rw [update_of_ne hcb]
      congr 1
      by_cases hsame : sb.bblock c = sb.bblock b
      · rw [hsame, update_self, hblk, if_neg fun hmod => hcb (bblock_inj hsame hmod)]
      · rw [update_of_ne hsame]
  · funext c
    by_cases hc : sb.nmeta ≤ c
    · have hne : c ≠ sb.bblock b := by omega
      rw [if_pos hc, if_pos hc, update_of_ne hne]
    · rw [if_neg hc, if_neg hc]

theorem decode_blk (s : Image) (hb : sb.nmeta ≤ b) (v : Block) (l : List ℕ) :
    decode sb { s with blk := update s.blk b v, logged := l }
      = { decode sb s with blk := update (decode sb s).blk b v } := by
  have hmeta := bmapstart_lt_nmeta sb
  unfold decode
  dsimp only
  congr 1
  · funext i
    by_cases hi : i < sb.ninodes
    · have hne : sb.iblock i ≠ b := by
        have := iblock_lt hi
        omega
      rw [if_pos hi, if_pos hi, update_of_ne hne]
    · rw [if_neg hi, if_neg hi]
  · funext c
    by_cases hc : c < sb.size
    · have hne : sb.bblock c ≠ b := by
        have := bblock_lt hc
        omega
      simp only [update_of_ne hne]
    · simp [hc]
  · funext c
    by_cases hcb : c = b
    · subst hcb
      rw [update_self, update_self, if_pos hb]
    · rw [update_of_ne hcb, update_of_ne hcb]

/-! ### The steps -/

theorem decode_dinode (s : Image) (hi : i < sb.ninodes) :
    (decode sb s).dinode i = getDinode (s.blk (sb.iblock i)) (i % ipb) := if_pos hi

theorem decode_bit_apply (s : Image) (hb : b < sb.size) :
    (decode sb s).bit b = getBit (s.blk (sb.bblock b)) (b % bpb) := by
  simp [decode, hb]

theorem decode_blk_apply (s : Image) (hb : sb.nmeta ≤ b) :
    (decode sb s).blk b = s.blk b := if_pos hb

/-- `balloc` finds the same bit in the bytes as in the decoded map. -/
theorem firstClear_decode (s : Image) (k : ℕ) :
    firstClear sb (fun bi => (decode sb s).bit (k * bpb + bi)) k
      = firstClear sb (getBit (s.blk (sb.bmapstart + k))) k := by
  unfold firstClear
  refine List.find?_congr fun bi hbi => ?_
  have hbi := List.mem_range.mp hbi
  by_cases hsize : k * bpb + bi < sb.size
  · obtain ⟨hblk, hmod⟩ := bblock_mul_add sb k hbi
    dsimp only
    rw [decode_bit_apply s hsize, hblk, hmod]
  · simp [hsize]

theorem firstClear_spec {bit : ℕ → Bool} (h : firstClear sb bit k = some bi) :
    bi < bpb ∧ k * bpb + bi < sb.size ∧ bit bi = false := by
  have hp := List.find?_some h
  have hmem := List.mem_range.mp (List.mem_of_find?_eq_some h)
  rw [Bool.and_eq_true, decide_eq_true_iff, Bool.not_eq_true'] at hp
  exact ⟨hmem, hp⟩

theorem firstClear_eq_none {bit : ℕ → Bool} (h : firstClear sb bit k = none) (hbi : bi < bpb)
    (hlt : k * bpb + bi < sb.size) : bit bi = true := by
  have hnot := List.find?_eq_none.mp h bi (List.mem_range.mpr hbi)
  simpa [hlt] using hnot

/-- The refinement of bytes by structure: every panic has its counterpart, and a fault on
the structured side is the only excuse. -/
abbrev DecodeRefines (sb : Super) (x : Outcome Panic (α × Image))
    (y : Outcome (Option Panic) (α × Store)) : Prop :=
  Refines (fun _ => False) some (· = none) (fun s t => t = decode sb s) x y

/-- **Steps on bytes are steps on the decoded disk.** -/
theorem onImage_refines (o : DiskOp β) (s : Image) :
    DecodeRefines sb (onImage sb o s) (checked sb o (decode sb s)) := by
  by_cases hr : InRange sb o
  swap
  · exact .inl ⟨none, rfl, if_neg hr⟩
  cases o with
  | mem f =>
    rw [checked_mem, show (decode sb s).mem = s.mem from rfl]
    unfold onImage
    dsimp only
    cases f s.mem with
    | ok r => exact .ok rfl
    | panic e => exact .panic rfl
    | stuck => exact .stuck
  | readDinode i =>
    rw [checked_readDinode hr, decode_dinode s hr]
    exact .ok rfl
  | writeDinode i d =>
    rw [checked_writeDinode hr, ← decode_putDinode s hr]
    exact .ok rfl
  | claimDinode i type =>
    rw [checked_claimDinode hr, decode_dinode s hr, ← decode_putDinode s hr]
    unfold onImage
    dsimp only
    split
    · exact .ok rfl
    · exact .ok rfl
  | markBit k =>
    rw [checked_markBit hr, firstClear_decode]
    unfold onImage
    dsimp only
    cases hfirst : firstClear sb (getBit (s.blk (sb.bmapstart + k))) k with
    | none => exact .ok rfl
    | some bi =>
      obtain ⟨hbi, hsize, -⟩ := firstClear_spec hfirst
      obtain ⟨hblk, hmod⟩ := bblock_mul_add sb k hbi
      dsimp only
      rw [← hblk, ← decode_bit s hsize true _ fun j => by rw [hmod, getBit_setBit _ hbi]]
      exact .ok rfl
  | clearBit b =>
    rw [checked_clearBit hr, decode_bit_apply s hr]
    unfold onImage
    dsimp only
    split
    · rw [← decode_bit s hr false _ fun j => getBit_clearBit _ (Nat.mod_lt b bpb_pos)]
      exact .ok rfl
    · exact .panic rfl
  | readBlock b =>
    rw [checked_readBlock hr, decode_blk_apply s hr]
    exact .ok rfl
  | changeBlock b f =>
    rw [checked_changeBlock hr, decode_blk_apply s hr]
    unfold onImage
    dsimp only
    split
    · rw [← decode_blk s hr _ (b :: s.logged)]
      exact .ok rfl
    · rw [← decode_blk s hr _ s.logged]
      exact .ok rfl
  | beginOp =>
    rw [checked_beginOp]
    exact .ok rfl
  | endOp =>
    rw [checked_endOp]
    exact .ok rfl

/-- **Programs on bytes are programs on the decoded disk.** -/
theorem exec_onImage_refines (sb : Super) (c : DiskProg α) (s : Image) :
    DecodeRefines sb (c.exec (onImage sb) s) (c.exec (checked sb) (decode sb s)) :=
  Prog.refines (fun o s _ hst => hst ▸ onImage_refines o s) c rfl

/-- A step waits on bytes only if it waits on the decoded disk. -/
theorem onImage_stuck {o : DiskOp β} (h : onImage sb o s = .stuck) :
    checked sb o (decode sb s) = .stuck := by
  cases o with
  | mem f =>
    rw [checked_mem, show (decode sb s).mem = s.mem from rfl]
    unfold onImage at h
    dsimp only at h
    cases hf : f s.mem with
    | ok r =>
      rw [hf] at h
      cases h
    | panic e =>
      rw [hf] at h
      cases h
    | stuck => rfl
  | claimDinode i type =>
    unfold onImage at h
    dsimp only at h
    split at h <;> cases h
  | markBit k =>
    unfold onImage at h
    dsimp only at h
    split at h <;> cases h
  | clearBit b =>
    unfold onImage at h
    dsimp only at h
    split at h <;> cases h
  | readDinode i => cases h
  | writeDinode i d => cases h
  | readBlock b => cases h
  | changeBlock b f => cases h
  | beginOp => cases h
  | endOp => cases h

theorem exec_onImage_stuck (sb : Super) (h : c.exec (onImage sb) s = .stuck) :
    c.exec (checked sb) (decode sb s) = .stuck ∨
      c.exec (checked sb) (decode sb s) = .panic none := by
  obtain hs | ⟨e, rfl, he⟩ := Prog.exec_stuck_of_refines (g := checked sb)
    (R := fun s t => t = decode sb s) (fun o s _ hst => hst ▸ onImage_refines o s)
    (fun o s _ hst hx => .inl (hst ▸ onImage_stuck hx)) c rfl h
  · exact .inl hs
  · exact .inr he

/-- **What completes on the decoded disk completes on bytes.** -/
theorem exec_onImage_of_ok {a : α} {t : Store}
    (h : c.exec (checked sb) (decode sb s) = .ok (a, t)) :
    ∃ s', c.exec (onImage sb) s = .ok (a, s') ∧ decode sb s' = t := by
  have href := exec_onImage_refines sb c s
  have hstuck := exec_onImage_stuck sb (c := c) (s := s)
  rw [h] at href hstuck
  obtain ⟨e, -, he⟩ | hmatch := href
  · cases he
  cases hx : c.exec (onImage sb) s with
  | ok r =>
    rw [hx] at hmatch
    obtain ⟨t', ht', rfl⟩ := hmatch
    cases ht'
    exact ⟨r.2, rfl, rfl⟩
  | panic e =>
    rw [hx] at hmatch
    obtain hf | he := hmatch
    · exact hf.elim
    · cases he
  | stuck => obtain hs | hs := hstuck hx <;> cases hs

/-- What panics on the decoded disk panics on bytes. -/
theorem exec_onImage_of_panic {e : Panic}
    (h : c.exec (checked sb) (decode sb s) = .panic (some e)) :
    c.exec (onImage sb) s = .panic e := by
  have href := exec_onImage_refines sb c s
  have hstuck := exec_onImage_stuck sb (c := c) (s := s)
  rw [h] at href hstuck
  obtain ⟨e', rfl, he⟩ | hmatch := href
  · cases he
  cases hx : c.exec (onImage sb) s with
  | ok r =>
    rw [hx] at hmatch
    obtain ⟨t', ht', -⟩ := hmatch
    cases ht'
  | panic e' =>
    rw [hx] at hmatch
    obtain hf | he := hmatch
    · exact hf.elim
    · cases he
      rfl
  | stuck => obtain hs | hs := hstuck hx <;> cases hs

end Xv6.Fs
