import Xv6.Fs.Progress
import Xv6.Mkfs.Boot

/-!
# Reading and writing a file

An inode without holes is a string of bytes.  `readi` returns a part of it, and `writei`
replaces a part of it if its source delivers all bytes and the disk has the blocks.  A source
that stops in the middle of a block leaves the bytes it delivered in the cached block, though
`writei` does not count them.

## Main definitions

* `readString`, `writeString` — a part of a string, and a string with a part replaced.
* `ReadsAs` — what any read of an inode returns.
* `Harmless` — the bytes of a block that could not be completed make no difference.

## Main results

* `file_contents` — `readi` and `writei` on strings of bytes.
* `partial_write_iff` — when a write that stops leaves exactly what it reports.
-/

namespace Xv6.Fs

open Mkfs (mkfsSuper)

variable {sb : Super} {D : ℕ → Dinode} {e : Fin ninode} {i off n : ℕ} {s s' : Image}

/-! ### Strings of bytes -/

/-- What a read of `n` bytes at `off` returns of a string: the count and the bytes. -/
def readString (data : List UInt8) (off n : ℕ) : ℤ × List UInt8 :=
  if data.length < off ∨ 2 ^ 32 ≤ off + n then (0, [])
  else ((min n (data.length - off) : ℕ), (data.drop off).take n)

/-- A string with the bytes from `off` on replaced, and extended if need be. -/
def writeString (data : List UInt8) (off : ℕ) (bytes : List UInt8) : List UInt8 :=
  data.take off ++ bytes ++ data.drop (off + bytes.length)

section Strings

variable {data bytes : List UInt8} {x : ℕ}

theorem length_writeString (h : off ≤ data.length) :
    (writeString data off bytes).length = max data.length (off + bytes.length) := by
  simp only [writeString, List.length_append, List.length_take, List.length_drop]
  omega

theorem getD_writeString (h : off ≤ data.length) : (writeString data off bytes).getD x 0
    = if off ≤ x ∧ x < off + bytes.length then bytes.getD (x - off) 0 else data.getD x 0 := by
  have hlen : (data.take off).length = off := by rw [List.length_take]; omega
  have hlen' : (data.take off ++ bytes).length = off + bytes.length := by
    rw [List.length_append, hlen]
  unfold writeString
  by_cases hlo : x < off
  · rw [List.getD_append _ _ _ _ (by omega), List.getD_append _ _ _ _ (by omega), if_neg (by omega),
      List.getD_eq_getElem?_getD, List.getD_eq_getElem?_getD, List.getElem?_take_of_lt hlo]
  by_cases hhi : x < off + bytes.length
  · rw [List.getD_append _ _ _ _ (by omega), List.getD_append_right _ _ _ _ (by omega), hlen,
      if_pos ⟨by omega, hhi⟩]
  · rw [List.getD_append_right _ _ _ _ (by omega), hlen', if_neg (by omega),
      List.getD_eq_getElem?_getD, List.getD_eq_getElem?_getD, List.getElem?_drop]
    congr 2
    omega

theorem eq_of_getD {a b : List UInt8} (hlen : a.length = b.length)
    (h : ∀ x, x < a.length → a.getD x 0 = b.getD x 0) : a = b := by
  refine List.ext_getElem hlen fun x h₁ h₂ => ?_
  have hx := h x h₁
  rwa [List.getD_eq_getElem _ _ h₁, List.getD_eq_getElem _ _ h₂] at hx

theorem overlay_eq_writeString (h : off ≤ data.length) :
    Node.overlay data off bytes (off + bytes.length) = writeString data off bytes := by
  refine eq_of_getD (by rw [length_overlay, length_writeString h]) fun x hx => ?_
  rw [length_overlay] at hx
  rw [getD_overlay _ _ _ hx, getD_writeString h]

/-- A read whose destination takes all bytes. -/
theorem Node.read_eq {nd : Node} {dst : Dst} (hn : n < 2 ^ 32) (hlt : nd.data.length < 2 ^ 32)
    (hdst : dst.room 0 (min n (nd.data.length - off)) = min n (nd.data.length - off)) :
    nd.read dst off n = readString nd.data off n := by
  by_cases hout : nd.data.length < off ∨ 2 ^ 32 ≤ off + n
  · have hzero : Node.readLength nd.data.length off n = 0 := if_pos (by omega)
    rw [Node.read, hzero, readString, if_pos hout, Nat.le_zero.mp (room_le dst 0 0)]
    simp
  have hlen : Node.readLength nd.data.length off n = min n (nd.data.length - off) := by
    rw [Node.readLength, if_neg (by omega), Nat.mod_eq_of_lt (by omega)]
    split <;> omega
  rw [Node.read, hlen, readString, if_neg hout, hdst, if_neg (Nat.lt_irrefl _)]
  refine Prod.ext rfl ?_
  show (nd.data.drop off).take (min n (nd.data.length - off)) = (nd.data.drop off).take n
  rw [List.take_eq_take_iff, List.length_drop]
  omega

end Strings

/-! ### Writing -/

/-- Inode `i` now has the bytes `data`, and nothing else changed: its other fields, the other
inodes on disk, in memory and in the file system are as they were. -/
structure Written (sb : Super) (D : ℕ → Dinode) (e : Fin ninode) (i : ℕ) (s : Store)
    (data : List UInt8) (d' : Dinode) (s' : Store) : Prop where
  holds : Holds sb (Function.update D i d') e i s'
  fields : d' = { D i with size := d'.size, addrs := d'.addrs }
  data : fileData s'.blk d' = data
  others : ∀ j, j ≠ i → Used sb D j → fileData s'.blk (D j) = fileData s.blk (D j)
  dinode : s'.dinode = Function.update s.dinode i d'
  mem : s'.mem = s.mem.setInode e fun ip => { ip with d := d' }

/-- **What a write returns and leaves.** -/
theorem wp_writei_written {A : Option Panic → Prop} {t : Store} {src : Src}
    (hA : freeBlocks sb t.bit < missing t.blk (D i) (touched off n) → A (some .outOfBlocks))
    (h : Holds sb D e i t) (hinum : (t.mem.inode e).inum = i) (hn : n < 2 ^ 32) :
    (writei sb e src off n).wp (checked sb) A t fun r t' =>
      r = ((nodeOf t.blk (D i)).write src off n).1 ∧ (r ≠ -1 →
        ∃ d', Written sb D e i t ((nodeOf t.blk (D i)).write src off n).2 d' t') := by
  refine wp_writei hA h hinum hn (fun hfail => ⟨hfail.symm, fun hne => absurd rfl hne⟩)
    fun bit' blk' d' _ hinv _ hd' hdata hother =>
      ⟨rfl, fun _ => ⟨d', ⟨?_, hd', hdata, hother, rfl, rfl⟩⟩⟩
  have hput : Holds sb (Function.update D i d') e i (t.put e bit' blk' d') :=
    h.put hinv (by rw [hd'])
  exact ⟨hput.blocks, hput.used, hput.copy⟩

theorem write_of_le {nd : Node} {src : Src} (h : off ≤ nd.data.length) (hn : n < 2 ^ 32)
    (hmax : off + n ≤ maxfile * bsize) : nd.write src off n
      = (((Node.writeStop off n (src.fetch 0 n).length - off : ℕ) : ℤ),
        Node.overlay nd.data off (src.fetch 0 n)
        (Node.writeStop off n (src.fetch 0 n).length)) := by
  have hlt : maxfile * bsize < 2 ^ 32 := by decide
  unfold Node.write
  rw [Nat.mod_eq_of_lt (by omega), if_neg (by omega), if_neg (by omega)]

theorem write_full {nd : Node} {src : Src} (h : off ≤ nd.data.length)
    (hmax : off + n ≤ maxfile * bsize) (hsrc : (src.fetch 0 n).length = n) :
    nd.write src off n = ((n : ℤ), writeString nd.data off (src.fetch 0 n)) := by
  have hlt : maxfile * bsize < 2 ^ 32 := by decide
  rw [write_of_le h (by omega) hmax, hsrc, Node.writeStop, if_pos rfl, Nat.add_sub_cancel_left,
    ← overlay_eq_writeString h, hsrc]

theorem exec_writei_out {src : Src}
    (hout : (s.mem.inode e).d.size.toNat < off ∨ 2 ^ 32 ≤ off + n ∨ maxfile * bsize < off + n)
    (hn : n < 2 ^ 32) : (writei sb e src off n).exec (onImage sb) s = .ok (-1, s) := by
  have hsize := (s.mem.inode e).d.size.isLt
  have hget : (getInode e).exec (onImage sb) s = .ok (s.mem.inode e, s) := rfl
  rw [writei, Prog.exec_bind, hget, Outcome.bind_ok]
  dsimp only
  by_cases h₁ : (s.mem.inode e).d.size.toNat < off ∨ (off + n) % 2 ^ 32 < off
  · rw [if_pos h₁, Prog.exec_pure]
  · have hsum := add_mod_eq hn (by omega) fun h => h₁ (.inr h)
    rw [if_neg h₁, hsum, if_pos (by omega), Prog.exec_pure]

/-- What is known of runs on the decoded disk is known of runs on bytes. -/
theorem wp_onImage {α : Type} {A : Option Panic → Prop} {c : DiskProg α} {Q : α → Store → Prop}
    (hA : ¬ A none) (hc : c.wp (checked sb) A (decode sb s) Q) :
    c.wp (onImage sb) (fun x => A (some x)) s fun a s' => Q a (decode sb s') := by
  have href := exec_onImage_refines sb c s
  unfold Prog.wp at hc ⊢
  cases hx : c.exec (onImage sb) s with
  | ok r =>
    rw [hx] at href
    obtain ⟨x, rfl, hbad⟩ | ⟨t, ht, rfl⟩ := href
    · rw [hbad] at hc
      exact absurd hc hA
    · rw [ht] at hc
      exact hc
  | panic x =>
    rw [hx] at href
    obtain ⟨x', rfl, hbad⟩ | hdrop | ht := href
    · rw [hbad] at hc
      exact absurd hc hA
    · exact hdrop.elim
    · rw [ht] at hc
      exact hc
  | stuck => trivial

theorem exec_writei_ok {src : Src} (h : Holds sb D e i (decode sb s))
    (hinum : (s.mem.inode e).inum = i) (hn : n < 2 ^ 32)
    (hroom : missing (decode sb s).blk (D i) (touched off n) ≤ freeBlocks sb (decode sb s).bit)
    (hoff : off ≤ (D i).size.toNat) (hmax : off + n ≤ maxfile * bsize) :
    ∃ d' s', (writei sb e src off n).exec (onImage sb) s
        = .ok (((nodeOf (decode sb s).blk (D i)).write src off n).1, s') ∧
      Written sb D e i (decode sb s) ((nodeOf (decode sb s).blk (D i)).write src off n).2 d'
        (decode sb s') := by
  have hle : off ≤ (nodeOf (decode sb s).blk (D i)).data.length := by rwa [nodeOf, length_fileData]
  have hok : ((nodeOf (decode sb s).blk (D i)).write src off n).1 ≠ -1 := by
    rw [write_of_le hle hn hmax]
    omega
  obtain ⟨r, t, hx, rfl, hw⟩ := Prog.exec_ok_of_wp
    (wp_writei_written (A := fun _ => False)
      (fun hlt => absurd hroom (Nat.not_le_of_lt hlt)) h hinum
      hn) (neverStuck_writei e src off n)
  obtain ⟨d', hwritten⟩ := hw hok
  obtain ⟨s', hx', rfl⟩ := exec_onImage_of_ok hx
  exact ⟨d', s', hx', hwritten⟩

/-- A read whose destination takes all bytes. -/
theorem exec_readi {dst : Dst} (h : Holds sb D e i (decode sb s)) (hn : n < 2 ^ 32)
    (hdst : dst.room 0 (min n ((D i).size.toNat - off)) = min n ((D i).size.toNat - off)) :
    (readi sb e dst off n).exec (onImage sb) s
      = .ok (readString (fileData (decode sb s).blk (D i)) off n, s) := by
  refine Prog.exec_eq_of_wp fun A Q => ?_
  have hread : (nodeOf (decode sb s).blk (D i)).read dst off n
      = readString (fileData (decode sb s).blk (D i)) off n :=
    Node.read_eq hn (by rw [nodeOf, length_fileData]; exact (D i).size.isLt)
      (by rw [nodeOf, length_fileData]; exact hdst)
  rw [← hread]
  exact (reads_onImage sb s).wp_readi h.loaded hn fun bn _ hbn => h.blocks.noHoles i h.used bn hbn

/-- Writing over bytes of a file takes no block. -/
theorem missing_eq_zero (h : Holds sb D e i (decode sb s)) (hle : off + n ≤ (D i).size.toNat) :
    missing (decode sb s).blk (D i) (touched off n) = 0 := by
  refine Finset.card_eq_zero.mpr (Finset.filter_eq_empty_iff.mpr fun k hk => ?_)
  obtain ⟨t, ht, hkt⟩ := Finset.mem_biUnion.mp hk
  have ht := Finset.mem_range.mp ht
  have hdiv := Nat.div_mul_le_self (off + t) bsize
  have h0 := h.blocks.noHoles i h.used ((off + t) / bsize) (by omega)
  by_cases hdir : (off + t) / bsize < ndirect
  · rw [slotsFor_direct hdir, Finset.mem_singleton] at hkt
    rw [blockOf_direct hdir] at h0
    rwa [hkt, ptr_addr (Nat.le_of_lt hdir)]
  rw [slotsFor_indirect hdir, Finset.mem_insert, Finset.mem_singleton] at hkt
  obtain rfl | rfl := hkt
  · -- an entry of the indirect block is there, so the indirect block is
    intro hz
    rw [ptr_addr (Nat.le_refl _)] at hz
    rw [blockOf, ptr] at h0
    have hslot := slotOf_indirect hdir
    rw [if_neg (by omega), if_neg fun h => h.2 hz] at h0
    exact h0 rfl
  · exact h0

/-- **Files are strings of bytes.**  A write that goes out of bounds does nothing.  Any other
write whose source delivers all bytes, on a disk with as many free blocks as the file lacks for
them, returns their number and replaces a part of the string, and no other file changes.  A
read whose destination takes all bytes returns a part of the string, and changes nothing. -/
theorem file_contents (h : Holds sb D e i (decode sb s)) (hinum : (s.mem.inode e).inum = i)
    (hn : n < 2 ^ 32) :
    (∀ src : Src, (src.fetch 0 n).length = n →
      missing (decode sb s).blk (D i) (touched off n) ≤ freeBlocks sb (decode sb s).bit →
      if (D i).size.toNat < off ∨ 2 ^ 32 ≤ off + n ∨ maxfile * bsize < off + n then
        (writei sb e src off n).exec (onImage sb) s = .ok (-1, s)
      else ∃ d' s', (writei sb e src off n).exec (onImage sb) s = .ok ((n : ℤ), s') ∧
        Written sb D e i (decode sb s)
          (writeString (fileData (decode sb s).blk (D i)) off (src.fetch 0 n)) d' (decode sb s')) ∧
    ∀ dst : Dst,
      dst.room 0 (min n ((D i).size.toNat - off)) = min n ((D i).size.toNat - off) →
      (readi sb e dst off n).exec (onImage sb) s
        = .ok (readString (fileData (decode sb s).blk (D i)) off n, s) := by
  refine ⟨fun src hsrc hroom => ?_, fun dst hdst => exec_readi h hn hdst⟩
  split
  · next hout =>
    rw [← h.copy] at hout
    exact exec_writei_out hout hn
  rename_i hin
  have hlen : (fileData (decode sb s).blk (D i)).length = (D i).size.toNat := length_fileData ..
  have hw : (nodeOf (decode sb s).blk (D i)).write src off n
      = ((n : ℤ), writeString (fileData (decode sb s).blk (D i)) off (src.fetch 0 n)) :=
    write_full (by rw [nodeOf, hlen]; omega) (by omega) hsrc
  obtain ⟨d', s', hx, hwritten⟩ := @exec_writei_ok _ _ _ _ _ _ _ src h hinum hn hroom
    (by omega) (by omega)
  rw [hw] at hx hwritten
  exact ⟨d', s', hx, hwritten⟩

/-! ### A small file -/

/-- A file of twenty bytes. -/
def note : Mkfs.Input := ⟨[110], [List.replicate 20 1]⟩

theorem storable_note : ∀ f ∈ [note], Mkfs.Storable f := by
  intro f hf
  rw [List.mem_singleton.mp hf]
  exact ⟨by decide, by decide⟩

theorem exists_noteImage : ∃ m, Mkfs.main [note] = some m :=
  Mkfs.main_isSome [note] (by decide) storable_note (by decide)

/-- The first entry of the inode table. -/
def noteEntry : Fin ninode := ⟨0, ninode_pos⟩

/-- The inodes on a disk. -/
def noteInodes (disk : ℕ → Block) : ℕ → Dinode := (decode mkfsSuper (boot disk)).dinode

/-- The kernel started on a disk, with inode 2 in the first entry of the inode table. -/
def openNote (disk : ℕ → Block) : Image :=
  { boot disk with
    mem := (boot disk).mem.setInode noteEntry fun ip =>
      { ip with inum := 2, ref := 1, valid := true, d := noteInodes disk 2 } }

section Note

variable {m : Mkfs.State}

theorem inum_openNote (disk : ℕ → Block) : ((openNote disk).mem.inode noteEntry).inum = 2 := rfl

theorem node_openNote (hm : Mkfs.main [note] = some m) :
    Used mkfsSuper (noteInodes m.disk) 2 ∧
      nodeOf (decode mkfsSuper (openNote m.disk)).blk (noteInodes m.disk 2)
        = Mkfs.fileNode note := by
  obtain ⟨-, hview⟩ := Mkfs.wellFormed_mkfs hm (by decide) (by decide)
  have hnode : (view mkfsSuper (boot m.disk)).node 2 = some (Mkfs.fileNode note) := by
    rw [hview]
    rfl
  have hview2 : (view mkfsSuper (boot m.disk)).node 2
      = if Used mkfsSuper (noteInodes m.disk) 2 then
        some (nodeOf (decode mkfsSuper (openNote m.disk)).blk (noteInodes m.disk 2))
        else none := rfl
  rw [hview2] at hnode
  split at hnode
  · next hu => exact ⟨hu, Option.some.inj hnode⟩
  · cases hnode

theorem holds_openNote (hm : Mkfs.main [note] = some m) : Holds mkfsSuper (noteInodes m.disk)
    noteEntry 2 (decode mkfsSuper (openNote m.disk)) := by
  obtain ⟨hwf, -⟩ := Mkfs.wellFormed_mkfs hm (by decide) (by decide)
  exact ⟨hwf.blocks, (node_openNote hm).1, rfl⟩

theorem fileData_openNote (hm : Mkfs.main [note] = some m) :
    fileData (decode mkfsSuper (openNote m.disk)).blk (noteInodes m.disk 2)
      = List.replicate 20 1 := congrArg Node.data (node_openNote hm).2

theorem size_openNote (hm : Mkfs.main [note] = some m) : (noteInodes m.disk 2).size.toNat = 20 := by
  rw [← length_fileData (decode mkfsSuper (openNote m.disk)).blk, fileData_openNote hm,
    List.length_replicate]

end Note

/-- Three bytes written over the start of the file. -/
theorem file_contents_note : ∃ m, Mkfs.main [note] = some m ∧ ∃ d' s',
    (writei mkfsSuper noteEntry (.kernel [7, 8, 9]) 0 3).exec (onImage mkfsSuper)
      (openNote m.disk) = .ok (3, s') ∧
    Written mkfsSuper (noteInodes m.disk) noteEntry 2
      (decode mkfsSuper (openNote m.disk)) ([7, 8, 9] ++ List.replicate 17 1) d'
      (decode mkfsSuper s') := by
  obtain ⟨m, hm⟩ := exists_noteImage
  have hsize := size_openNote hm
  have hroom : missing (decode mkfsSuper (openNote m.disk)).blk (noteInodes m.disk 2)
      (touched 0 3) = 0 := missing_eq_zero (holds_openNote hm) (by omega)
  have hw := (@file_contents _ _ _ _ 0 _ _ (holds_openNote hm) (inum_openNote m.disk)
    (by decide : 3 < 2 ^ 32)).1 (.kernel [7, 8, 9]) rfl (by omega)
  have hmax : ¬ maxfile * bsize < 0 + 3 := by decide
  rw [if_neg (by omega), fileData_openNote hm] at hw
  exact ⟨m, hm, hw⟩

/-! ### Sources that stop -/

/-- Any read of the inode in entry `e` returns the part of `data` that it asks for. -/
def ReadsAs (sb : Super) (e : Fin ninode) (s : Image) (data : List UInt8) : Prop :=
  ∀ off n, n < 2 ^ 32 →
    (readi sb e .kernel off n).exec (onImage sb) s = .ok (readString data off n, s)

theorem Holds.readsAs (h : Holds sb D e i (decode sb s)) :
    ReadsAs sb e s (fileData (decode sb s).blk (D i)) := fun _ _ hn => exec_readi h hn rfl

/-- Reads tell strings apart. -/
theorem ReadsAs.unique {a b : List UInt8} (ha : ReadsAs sb e s a) (hb : ReadsAs sb e s b)
    (hla : a.length < 2 ^ 32) (hlb : b.length < 2 ^ 32) : a = b := by
  have hwhole : ∀ l : List UInt8, l.length < 2 ^ 32 → (readString l 0 (2 ^ 32 - 1)).2 = l := by
    intro l hl
    rw [readString, if_neg (by omega)]
    exact List.take_of_length_le (by rw [List.length_drop]; omega)
  have hx := (ha 0 (2 ^ 32 - 1) (by decide)).symm.trans (hb 0 (2 ^ 32 - 1) (by decide))
  rw [Outcome.ok.injEq, Prod.mk.injEq] at hx
  rw [← hwhole a hla, ← hwhole b hlb, hx.1]

/-- The bytes a source delivers for the block it cannot complete are past the end of the
file, or what the file has there already.  It is so whenever the source stops at the end of a
block. -/
def Harmless (data bytes : List UInt8) (off : ℕ) : Prop :=
  ∀ x, off ≤ x → (off + bytes.length) / bsize * bsize ≤ x → x < off + bytes.length →
    x < data.length → bytes.getD (x - off) 0 = data.getD x 0

instance (data bytes : List UInt8) (off : ℕ) : Decidable (Harmless data bytes off) :=
  decidable_of_iff (∀ x < data.length, off ≤ x → (off + bytes.length) / bsize * bsize ≤ x →
      x < off + bytes.length → bytes.getD (x - off) 0 = data.getD x 0)
    ⟨fun h x h₁ h₂ h₃ h₄ => h x h₄ h₁ h₂ h₃, fun h x h₄ h₁ h₂ h₃ => h x h₁ h₂ h₃ h₄⟩

/-- The file has its other bytes as they were just if the bytes of the last block make no
difference. -/
theorem overlay_eq_iff {data bytes : List UInt8} {m : ℕ} (hoff : off ≤ data.length)
    (hm : off + m = max off ((off + bytes.length) / bsize * bsize)) (hle : m ≤ bytes.length) :
    Node.overlay data off bytes (off + m) = writeString data off (bytes.take m) ↔
      Harmless data bytes off := by
  have hlen : (bytes.take m).length = m := by rw [List.length_take]; omega
  have htake : ∀ x, x - off < m → (bytes.take m).getD (x - off) 0 = bytes.getD (x - off) 0 := by
    intro x hx
    rw [List.getD_eq_getElem?_getD, List.getD_eq_getElem?_getD, List.getElem?_take_of_lt hx]
  constructor
  · intro heq x h₁ h₂ h₃ h₄
    have hx : x < max data.length (off + m) := by omega
    have hget : (Node.overlay data off bytes (off + m)).getD x 0
        = (writeString data off (bytes.take m)).getD x 0 := by rw [heq]
    rw [getD_overlay _ _ _ hx, getD_writeString hoff, if_pos ⟨h₁, h₃⟩, if_neg (by omega)] at hget
    exact hget
  · intro h
    refine eq_of_getD (by rw [length_overlay, length_writeString hoff, hlen]) fun x hx => ?_
    rw [length_overlay] at hx
    rw [getD_overlay _ _ _ hx, getD_writeString hoff, hlen]
    by_cases hlo : off ≤ x ∧ x < off + bytes.length
    · rw [if_pos hlo]
      by_cases hm' : x < off + m
      · rw [if_pos ⟨hlo.1, hm'⟩, htake x (by omega)]
      · rw [if_neg (by omega)]
        exact h x hlo.1 (by omega) hlo.2 (by omega)
    · rw [if_neg hlo, if_neg (by omega)]

/-- A write that stops counts the blocks it completed. -/
theorem write_bounds {nd : Node} {src : Src} (hn : n < 2 ^ 32) (hlt : nd.data.length < 2 ^ 32)
    (h0 : 0 ≤ (nd.write src off n).1) : off ≤ nd.data.length ∧ off + n ≤ maxfile * bsize := by
  by_contra hnot
  have hneg : (nd.write src off n).1 = -1 := by
    unfold Node.write
    by_cases hout : nd.data.length < off ∨ (off + n) % 2 ^ 32 < off
    · rw [if_pos hout]
    · rw [if_neg hout, if_pos (by rw [add_mod_eq hn (by omega) fun h => hout (.inr h)]; omega)]
  omega

/-- **What a write leaves that stops before its end**, because its source does: exactly what
it reports, if and only if the bytes the source delivered for the block it could not complete
make no difference. -/
theorem partial_write_iff {src : Src} {r : ℤ} (h : Holds sb D e i (decode sb s))
    (hinum : (s.mem.inode e).inum = i) (hn : n < 2 ^ 32)
    (hx : (writei sb e src off n).exec (onImage sb) s = .ok (r, s')) (h0 : 0 ≤ r) (hr : r < n) :
    ReadsAs sb e s' (writeString (fileData (decode sb s).blk (D i)) off
        ((src.fetch 0 n).take r.toNat)) ↔
      Harmless (fileData (decode sb s).blk (D i)) (src.fetch 0 n) off := by
  have hlt : (nodeOf (decode sb s).blk (D i)).data.length < 2 ^ 32 := by
    rw [nodeOf, length_fileData]
    exact (D i).size.isLt
  have hmax : maxfile * bsize < 2 ^ 32 := by decide
  have hdata : fileData (decode sb s).blk (D i) = (nodeOf (decode sb s).blk (D i)).data := rfl
  rw [hdata]
  obtain ⟨hr', hw⟩ := (wp_onImage (by decide) (wp_writei_written
    (A := fun x => x = some .outOfBlocks) (fun _ => rfl) h hinum hn)).of_exec hx
  obtain ⟨hoff, hbound⟩ := write_bounds hn hlt (hr' ▸ h0)
  obtain ⟨d', hwritten⟩ := hw (by omega)
  rw [write_of_le hoff hn hbound] at hr' hwritten
  obtain ⟨bytes, hbytes⟩ : ∃ bytes, bytes = src.fetch 0 n := ⟨_, rfl⟩
  have hlen : bytes.length ≤ n := hbytes ▸ length_fetch_le src 0 n
  have hstop := le_writeStop off n bytes.length
  have hstop' := writeStop_le off n bytes.length
  rw [← hbytes] at hr' hwritten ⊢
  -- the source stopped, or the write would have returned `n`
  have hm : off + r.toNat = Node.writeStop off n bytes.length := by omega
  have hne : bytes.length ≠ n := fun heq => by
    rw [heq, Node.writeStop, if_pos rfl] at hm
    omega
  have hnew := hwritten.holds.readsAs
  rw [Function.update_self, hwritten.data, ← hm] at hnew
  rw [← overlay_eq_iff hoff (by rw [hm, Node.writeStop, if_neg hne]) (by omega)]
  constructor
  · intro hread
    refine hnew.unique hread ?_ ?_
    · rw [length_overlay]
      omega
    · rw [length_writeString hoff, List.length_take]
      omega
  · intro heq
    rw [heq] at hnew
    exact hnew

/-- User memory with one page mapped, filled with twos. -/
def onePage : Src := .user 4086 fun a => if a < 4096 then some 2 else none

/-- **A write can leave more than it reports.**  The source has ten bytes before the end of
its page.  They are in the file, though the write returned 0. -/
theorem partial_write_leaves_bytes : ∃ m, Mkfs.main [note] = some m ∧ ∃ s',
    (writei mkfsSuper noteEntry onePage 0 20).exec (onImage mkfsSuper) (openNote m.disk)
      = .ok (0, s') ∧
    ReadsAs mkfsSuper noteEntry (openNote m.disk) (List.replicate 20 1) ∧
    ReadsAs mkfsSuper noteEntry s' (List.replicate 10 2 ++ List.replicate 10 1) := by
  obtain ⟨m, hm⟩ := exists_noteImage
  have hsize := size_openNote hm
  have hroom : missing (decode mkfsSuper (openNote m.disk)).blk (noteInodes m.disk 2)
      (touched 0 20) = 0 := missing_eq_zero (holds_openNote hm) (by omega)
  obtain ⟨d', s', hx, hw⟩ := @exec_writei_ok _ _ _ _ 0 _ _ onePage (holds_openNote hm)
    (inum_openNote m.disk) (by decide : 20 < 2 ^ 32) (by omega) (Nat.zero_le _) (by decide)
  rw [(node_openNote hm).2] at hx hw
  have hold := (holds_openNote hm).readsAs
  have hnew := hw.holds.readsAs
  rw [fileData_openNote hm] at hold
  rw [Function.update_self, hw.data] at hnew
  have hwrite : (Mkfs.fileNode note).write onePage 0 20
      = (0, List.replicate 10 2 ++ List.replicate 10 1) := by decide
  rw [hwrite] at hx hnew
  exact ⟨m, hm, s', hx, hold, hnew⟩

/-- User memory with one page mapped, filled with ones. -/
def onesPage : Src := .user 4086 fun a => if a < 4096 then some 1 else none

/-- A source of twelve bytes that stops after ten, which are those the file has there. -/
theorem partial_write_same : ∃ m, Mkfs.main [note] = some m ∧ ∃ s',
    (writei mkfsSuper noteEntry onesPage 5 12).exec (onImage mkfsSuper)
      (openNote m.disk) = .ok (0, s') ∧ (onesPage.fetch 0 12).length = 10 ∧
    ReadsAs mkfsSuper noteEntry s' (List.replicate 20 1) := by
  obtain ⟨m, hm⟩ := exists_noteImage
  have hsize := size_openNote hm
  have hroom : missing (decode mkfsSuper (openNote m.disk)).blk (noteInodes m.disk 2)
      (touched 5 12) = 0 := missing_eq_zero (holds_openNote hm) (by omega)
  obtain ⟨d', s', hx, hw⟩ := @exec_writei_ok _ _ _ _ 5 _ _ onesPage (holds_openNote hm)
    (inum_openNote m.disk) (by decide : 12 < 2 ^ 32) (by omega) (by omega) (by decide)
  have hwrite : ((Mkfs.fileNode note).write onesPage 5 12).1 = 0 := by decide
  rw [(node_openNote hm).2, hwrite] at hx
  have hiff := partial_write_iff (holds_openNote hm) (inum_openNote m.disk)
    (by decide : 12 < 2 ^ 32) hx (Int.le_refl 0) (by decide)
  rw [fileData_openNote hm] at hiff
  exact ⟨m, hm, s', hx, by decide, hiff.mpr (by decide)⟩

end Xv6.Fs
