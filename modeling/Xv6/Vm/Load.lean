import Xv6.Vm.Copy
import Xv6.Vm.Exec
import Xv6.Vm.Free

/-!
# Loading a program

While `exec` builds the new image, the pages it uses come off the free list and every other page
stays as it is.  The bytes of the image are those of the segments loaded so far, each over the
ones before, and zero elsewhere.

## Main definitions

* `Holds` — the user pages below an address hold given bytes.
* `Loading` — the state of an image that is being built out of free pages.

## Main results

* `ends_loadseg` — a segment is loaded over what is there.
* `ends_loadSegments` — the image after all program headers.
* `foldl_overlay` — loading one segment over another leaves the bytes of the last.
-/

namespace Xv6.Vm

open Kern Trie Fs

variable {K : Layout} {m m' m₀ : Machine} {root f va pa stop tf sz flags : ℕ} {A : Panic → Prop}
  {c : ℕ → UInt8} {file : List UInt8}

/-! ### What a space depends on -/

theorem owns_of_flat (hva : va < trapframe) (h : m.flat root va = some (pa, flags)) :
    m.Owns root pa := by
  refine .inr ⟨pgrounddown va, flags, pgrounddown_mod va, Nat.zero_le _, ?_, ?_⟩
  · exact lt_of_le_of_lt (pgrounddown_le va) hva
  · rw [flat_congr_page (pgrounddown_div va), h]

theorem owns_congr (htables : ∀ f, m'.Tables root f ↔ m.Tables root f)
    (hflat : ∀ va, m'.flat root va = m.flat root va) : m'.Owns root f ↔ m.Owns root f := by
  rw [Machine.Owns, Machine.Owns, htables]
  simp only [Machine.Frames, hflat]

/-- **A space depends only on its page tables**, and on its pages being in use. -/
theorem Space.congr (h : Space K m root stop) (hh : Heap K m')
    (hpage : ∀ f, m.Tables root f → m'.page f = m.page f)
    (hused : ∀ f, m.Owns root f → f ∉ m'.freelist) :
    Space K m' root stop ∧ (∀ f, m'.Owns root f ↔ m.Owns root f) ∧
      ∀ va, m'.flat root va = m.flat root va := by
  obtain ⟨htable, htables, -, hflat⟩ := h.table.congr hpage fun f hf => hused f (.inl hf)
  refine ⟨⟨hh, htable, h.aligned, h.le, fun va hva => ?_, fun va pa fl hva hm => ?_, ?_⟩,
    fun f => owns_congr htables hflat, hflat⟩
  · rw [hflat, h.mapped va hva]
  · rw [hflat] at hm
    obtain ⟨hne, hram, hnot, -⟩ := h.leaf va pa fl hva hm
    exact ⟨hne, hram, fun ht => hnot ((htables pa).mp ht), hused pa (owns_of_flat hva hm)⟩
  · intro va vb pa fl fl' hva hvb hm hm'
    rw [hflat] at hm hm'
    exact h.inj va vb pa fl fl' hva hvb hm hm'

theorem Image.congr (h : Image K m root stop tf) (hh : Heap K m')
    (hpage : ∀ f, m.Tables root f → m'.page f = m.page f)
    (hused : ∀ f, m.Owns root f → f ∉ m'.freelist) :
    Image K m' root stop tf ∧ (∀ f, m'.Owns root f ↔ m.Owns root f) ∧
      ∀ va, m'.flat root va = m.flat root va := by
  obtain ⟨hspace, howns, hflat⟩ := h.space.congr hh hpage hused
  exact ⟨⟨hspace, (hflat _).trans h.trampoline, (hflat _).trans h.trapframe⟩, howns, hflat⟩

theorem Space.used (h : Space K m root stop) (hf : m.Owns root f) : f ∉ m.freelist := by
  rcases hf with ht | ⟨b, fl, -, -, hb, hm⟩
  · exact h.table.used f ht
  · exact (h.leaf b f fl hb hm).2.2.2

theorem Space.ram (h : Space K m root stop) (hf : m.Owns root f) : K.Ram f := by
  rcases hf with ht | ⟨b, fl, -, -, hb, hm⟩
  · exact h.table.ram f ht
  · exact (h.leaf b f fl hb hm).2.1

/-- Only the pages of the space were written. -/
structure Wrote (root : ℕ) (R : ℕ → Prop) (m m' : Machine) : Prop where
  freelist : m'.freelist = m.freelist
  page : ∀ f, f % pgsize = 0 → (¬ ∃ va flags, R va ∧ m.flat root va = some (f, flags)) →
    m'.page f = m.page f

/-- **Writing to user pages** leaves the image and what it is built of as they are. -/
theorem Wrote.image {R : ℕ → Prop} (hw : Wrote root R m m') (hR : ∀ va, R va → va < trapframe)
    (h : Image K m root stop tf) (hb : Built m₀ m root) :
    Image K m' root stop tf ∧ Built m₀ m' root ∧ ∀ va, m'.flat root va = m.flat root va := by
  have hheap : Heap K m' := by
    refine ⟨?_, fun f hf => h.space.heap.ram f (hw.freelist ▸ hf)⟩
    rw [hw.freelist]
    exact h.space.heap.nodup
  obtain ⟨himage, howns, hflat⟩ := h.congr hheap
    (fun f hf => hw.page f (h.space.table.ram f hf).aligned fun ⟨b, fl, hb, hm⟩ =>
      (h.space.leaf b f fl (hR b hb) hm).2.2.1 hf)
    (fun f hf => by rw [hw.freelist]; exact h.space.used hf)
  refine ⟨himage, ⟨fun f => ?_, fun f hal hf => ?_⟩, hflat⟩
  · rw [howns, hw.freelist, hb.keep]
  · rw [hw.page f hal, hb.page f hal hf]
    rintro ⟨b, fl, hRb, hm⟩
    exact hf ((hb.keep f).mp (.inl (owns_of_flat (hR b hRb) hm)))

/-! ### The bytes of an image -/

/-- The user pages below `stop` are mapped, and hold the bytes `c`. -/
def Holds (m : Machine) (root stop : ℕ) (c : ℕ → UInt8) : Prop :=
  ∀ va, va < stop → ∃ pa, m.flat root va = some (pa, userFlags) ∧
    (m.page pa).get (va % pgsize) = c va

theorem Holds.kept (h : Holds m root stop c) (hk : Kept root stop m m') : Holds m' root stop c := by
  intro va hva
  obtain ⟨pa, hflat, hbyte⟩ := h va hva
  exact ⟨pa, (hk.flat va hva).trans hflat, by rw [hk.page va pa _ hva hflat, hbyte]⟩

/-- The state of an image that is being built out of the free pages of `m₀`: its bytes are `c`,
which is zero beyond the image. -/
structure Loading (K : Layout) (m₀ m : Machine) (root stop tf : ℕ) (c : ℕ → UInt8) : Prop where
  image : Image K m root stop tf
  built : Built m₀ m root
  holds : Holds m root stop c
  zero : ∀ va, stop ≤ va → c va = 0

theorem Loading.grow {hi : ℕ} (h : Loading K m₀ m root stop tf c) (hle : stop ≤ hi)
    (hs : Space K m' root hi) (hmv : Moves K root m m') (hk : Kept root stop m m')
    (hfresh : Fresh m' root stop hi) : Loading K m₀ m' root hi tf c := by
  refine ⟨⟨hs, ?_, ?_⟩, h.built.moves hmv, fun va hva => ?_, fun va hva => h.zero va (by omega)⟩
  · rw [hmv.top _ (by decide), h.image.trampoline]
  · rw [hmv.top _ (Nat.le_refl _), h.image.trapframe]
  · by_cases hlow : va < stop
    · exact h.holds.kept hk va hlow
    · obtain ⟨pa, hflat, hzero⟩ := hfresh va (by omega) hva
      refine ⟨pa, hflat, ?_⟩
      rw [hzero, Bytes.get_zero, h.zero va (by omega)]

theorem Loading.kept (h : Loading K m₀ m root stop tf c) (hs : Space K m' root stop)
    (hmv : Moves K root m m') (hk : Kept root stop m m') : Loading K m₀ m' root stop tf c :=
  h.grow (Nat.le_refl _) hs hmv hk fun _ h₁ h₂ => absurd h₁ (Nat.not_le_of_lt h₂)

/-- Bytes `l` at the address `a`, over the bytes `c`. -/
def putAt (c : ℕ → UInt8) (a : ℕ) (l : List UInt8) (x : ℕ) : UInt8 :=
  if a ≤ x ∧ x < a + l.length then l.getD (x - a) 0 else c x

theorem Loading.store {a : ℕ} {l : List UInt8} (h : Loading K m₀ m root stop tf c)
    (ha : a % pgsize = 0)
    (hlt : a < stop) (hflat : m.flat root a = some (pa, userFlags)) (hl : l.length ≤ pgsize) :
    Loading K m₀ (m.storeBytes pa l) root stop tf (putAt c a l) := by
  have hspace := h.image.space
  have hle := hspace.le
  have hal := hspace.aligned
  have hpa := (hspace.leaf a pa userFlags (by omega) hflat).2.1.aligned
  have hwrote : Wrote root (· = a) m (m.storeBytes pa l) := by
    refine ⟨rfl, fun f hf hno => page_storeBytes_of_ne l (div_ne_of_ne hf hpa fun heq => hno ?_)⟩
    exact ⟨a, userFlags, rfl, heq ▸ hflat⟩
  obtain ⟨himage, hbuilt, hflat'⟩ := hwrote.image (fun va hva => by omega) h.image h.built
  refine ⟨himage, hbuilt, fun x hx => ?_, fun x hx => ?_⟩
  · obtain ⟨px, hpx, hbyte⟩ := h.holds x hx
    refine ⟨px, by rw [hflat', hpx], ?_⟩
    by_cases hpage : x / pgsize = a / pgsize
    · -- a byte of the page that was written
      have heq : px = pa := by
        rw [flat_congr_page hpage, hflat] at hpx
        exact (Prod.mk.inj (Option.some.inj hpx)).1.symm
      have hpa0 : pa % pgsize = 0 := hpa
      rw [heq, Machine.storeBytes, page_setPage_self, hpa0, putAt]
      rw [heq] at hbyte
      have hoff : a ≤ x ∧ x - a = x % pgsize := by
        simp only [pgsize] at *
        omega
      split
      · rename_i hin
        have hlen : x % pgsize < l.length := by omega
        have hget : ((m.page pa).blit 0 l).get (0 + x % pgsize) = l.get ⟨x % pgsize, hlen⟩ :=
          Bytes.get_blit_of_lt (m.page pa) l (by omega) hlen
        rw [Nat.zero_add] at hget
        rw [hget, hoff.2, List.getD_eq_getElem _ _ hlen]
        rfl
      · rw [Bytes.get_blit_of_notMem _ _ (by omega), hbyte]
    · -- another page, at another physical address
      have hne : px ≠ pa := by
        rintro rfl
        exact hpage (hspace.inj x a px _ _ (by omega) (by omega) hpx hflat)
      have hxal := (hspace.leaf x px _ (by omega) hpx).2.1.aligned
      rw [page_storeBytes_of_ne _ (div_ne_of_ne hxal hpa hne), hbyte, putAt, if_neg]
      simp only [pgsize] at *
      omega
  · rw [putAt, if_neg, h.zero x hx]
    simp only [pgsize] at *
    omega

/-! ### loadseg -/

theorem readString_full {off n : ℕ} (h : (readString file off n).1 = n) (hn : 0 < n) :
    (readString file off n).2.length = n ∧
      ∀ j < n, (readString file off n).2.getD j 0 = file.getD (off + j) 0 := by
  rw [readString] at h ⊢
  split at h
  · have : (0 : ℤ) = n := h
    omega
  have hmin : min n (file.length - off) = n := Int.ofNat.inj h
  rw [if_neg (by assumption)]
  refine ⟨?_, fun j hj => ?_⟩
  · rw [List.length_take, List.length_drop, hmin]
  · rw [List.getD_eq_getElem?_getD, List.getD_eq_getElem?_getD, List.getElem?_take_of_lt hj,
      List.getElem?_drop]

theorem length_readString_le {off n : ℕ} : (readString file off n).2.length ≤ n := by
  rw [readString]
  split
  · exact Nat.zero_le n
  · exact List.length_take_le _ _

/-- A segment of `sz` bytes of the file from `offset` on, at the address `va`, over the
bytes `c`. -/
def overlayFrom (file : List UInt8) (c : ℕ → UInt8) (va offset lo sz : ℕ) (x : ℕ) : UInt8 :=
  if va + lo ≤ x ∧ x < va + sz then file.getD (offset + (x - va)) 0 else c x

/-- Loading the page at `i`, then the rest. -/
theorem overlayFrom_step {offset i n : ℕ} {l : List UInt8} (hlen : l.length = n)
    (hget : ∀ j < n, l.getD j 0 = file.getD (offset + i + j) 0)
    (hn : n = min pgsize (sz - i)) (hi : i < sz) :
    overlayFrom file (putAt c (va + i) l) va offset (i + pgsize) sz =
      overlayFrom file c va offset i sz := by
  funext x
  simp only [overlayFrom, putAt, hlen]
  by_cases hx : va + i ≤ x ∧ x < va + i + n
  · have hidx : offset + i + (x - (va + i)) = offset + (x - va) := by omega
    rw [if_neg (by omega), if_pos hx, if_pos (by omega), hget _ (by omega), hidx]
  · rw [if_neg hx]
    by_cases hx' : va + (i + pgsize) ≤ x ∧ x < va + sz
    · rw [if_pos hx', if_pos (by omega)]
    · rw [if_neg hx', if_neg (by omega)]

theorem ends_loadsegLoop {offset fuel i : ℕ} (h : Loading K m₀ m root stop tf c)
    (hva : va % pgsize = 0)
    (hstop : va + sz ≤ stop) (hi : i % pgsize = 0) (hfuel : sz ≤ i + fuel * pgsize) :
    Ends A (loadsegLoop root va file offset sz (fuel + 1) i) m fun r m' =>
      ∃ c', Loading K m₀ m' root stop tf c' ∧ (r = -1 ∨ (r = 0 ∧
        (offset + sz < 2 ^ 32 → c' = overlayFrom file c va offset i sz))) := by
  induction fuel generalizing m c i with
  | zero =>
    rw [Nat.zero_mul, Nat.add_zero] at hfuel
    rw [loadsegLoop, if_neg (by omega)]
    refine ⟨c, h, .inr ⟨rfl, fun _ => funext fun x => ?_⟩⟩
    rw [overlayFrom, if_neg (by omega)]
  | succ fuel ih =>
    have hle := h.image.space.stop_le
    have hphys : phystop - kernbase = 134217728 := by decide
    have htf : trapframe = 274877898752 := by decide
    rw [loadsegLoop]
    split
    swap
    · -- the segment is loaded
      refine ⟨c, h, .inr ⟨rfl, fun _ => funext fun x => ?_⟩⟩
      rw [overlayFrom, if_neg (by omega)]
    rename_i hlt
    obtain ⟨pa, hflat, -⟩ := h.holds (va + i) (by omega)
    have hspace := h.image.space
    have hram := (hspace.leaf (va + i) pa _ (by omega) hflat).2.1
    have huser : m.userPage root (va + i) = pa := by
      rw [Machine.userPage, hflat]
      exact if_neg (by decide)
    have hal : (va + i) % pgsize = 0 := by
      simp only [pgsize] at *
      omega
    rw [u64, Nat.mod_eq_of_lt (by omega), ends_bind,
      ends_walkaddr fun f hf => (hspace.table.ram f hf).pos, huser, if_neg hram.pos, ends_bind,
      ends_write]
    -- the last page of the segment may be partial
    have hn : (if sz - i < pgsize then sz - i else pgsize) = min pgsize (sz - i) := by
      by_cases hlast : sz - i < pgsize
      · rw [if_pos hlast, Nat.min_eq_right hlast.le]
      · rw [if_neg hlast, Nat.min_eq_left (by omega)]
    have hpos : 0 < min pgsize (sz - i) := by
      simp only [pgsize]
      omega
    rw [hn]
    have hstored := h.store hal (by omega) hflat
      (le_trans length_readString_le (Nat.min_le_left pgsize (sz - i)))
      (l := (readString file (u32 (offset + i)) (min pgsize (sz - i))).2)
    split
    · -- the file is too short: what was read has been stored all the same
      exact ⟨_, hstored, .inl rfl⟩
    rename_i hfull
    obtain ⟨hlen, hget⟩ := readString_full (not_not.mp hfull) hpos
    rw [u32_of_lt (show i + pgsize < 2 ^ 32 by simp only [pgsize]; omega)]
    refine (ih hstored ?_ ?_).mono fun r m' hr => ?_
    · rw [Nat.add_mod_right, hi]
    · rw [Nat.succ_mul] at hfuel
      omega
    obtain ⟨c', hc', hr⟩ := hr
    refine ⟨c', hc', hr.imp_right fun hr => ⟨hr.1, fun hsum => ?_⟩⟩
    have hoff : u32 (offset + i) = offset + i := u32_of_lt (by omega)
    rw [hoff] at hlen hget
    rw [hr.2 hsum, hoff]
    exact overlayFrom_step hlen hget rfl hlt

/-- **loadseg** loads a segment over what is there, or fails in the middle of it. -/
theorem ends_loadseg {offset : ℕ} (h : Loading K m₀ m root stop tf c) (hva : va % pgsize = 0)
    (hstop : va + sz ≤ stop) :
    Ends A (loadseg root va file offset sz) m fun r m' =>
      ∃ c', Loading K m₀ m' root stop tf c' ∧ (r = -1 ∨ (r = 0 ∧
        (offset + sz < 2 ^ 32 → c' = overlayFrom file c va offset 0 sz))) := by
  have hle := h.image.space.stop_le
  have hphys : phystop - kernbase = 134217728 := by decide
  have hpages : 134217728 ≤ 2 ^ 32 / pgsize * pgsize := by decide
  exact ends_loadsegLoop h hva hstop (Nat.zero_mod _) (by omega)

/-! ### All the segments -/

theorem field_lt (bytes : List UInt8) (off k : ℕ) : field bytes off k < 256 ^ k := by
  have hall : ∀ l : List UInt8, l.foldr (fun b v => b.toNat + 256 * v) 0 < 256 ^ l.length := by
    intro l
    induction l with
    | nil => exact Nat.one_pos
    | cons b l ih =>
      have hb : b.toNat < 256 := b.toNat_lt
      rw [List.foldr_cons, List.length_cons, Nat.pow_succ]
      omega
  refine lt_of_lt_of_le (hall _) (Nat.pow_le_pow_right (by decide) ?_)
  exact List.length_take_le _ _

theorem u64_add_of_le {a b : ℕ} (ha : a < 2 ^ 64) (hb : b < 2 ^ 64) (h : ¬ u64 (a + b) < a) :
    u64 (a + b) = a + b := by
  rw [u64] at h ⊢
  omega

/-- A loadable segment over the bytes `c`. -/
def ProgHdr.overlay (file : List UInt8) (c : ℕ → UInt8) (ph : ProgHdr) (x : ℕ) : UInt8 :=
  if ph.Covers x then file.getD (ph.off + (x - ph.vaddr)) 0 else c x

/-- The size of an image that has to hold a segment. -/
def ProgHdr.extend (sz : ℕ) (ph : ProgHdr) : ℕ :=
  if ph.type = elfProgLoad then max sz (ph.vaddr + ph.memsz) else sz

/-- The offsets of a loadable segment in the file do not wrap. -/
def ProgHdr.Fits (ph : ProgHdr) : Prop := ph.type = elfProgLoad → ph.off + ph.filesz < 2 ^ 32

/-- `uvmalloc` as `exec` calls it: the new size may be below the old one. -/
theorem Loading.ends_uvmalloc {newsz : ℕ} (h : Loading K m₀ m root (pgroundup sz) tf c)
    (hsz : sz ≤ trapframe) :
    Ends A (uvmalloc K root sz newsz) m fun r m' =>
      (r = max sz newsz ∧ r ≤ trapframe ∧ Loading K m₀ m' root (pgroundup r) tf c) ∨
        (r = 0 ∧ Loading K m₀ m' root (pgroundup sz) tf c) := by
  have htf := trapframe_lt
  by_cases hlt : newsz < sz
  · rw [uvmalloc, if_pos hlt]
    exact .inl ⟨(Nat.max_eq_left hlt.le).symm, hsz, h⟩
  refine (Vm.ends_uvmalloc h.image.space hsz (by omega)).mono fun r m' hr => ?_
  rcases hr with ⟨rfl, hr, hs, hmv, hk, hfresh⟩ | ⟨rfl, hs, hmv, hk⟩
  · refine .inl ⟨(Nat.max_eq_right (by omega)).symm, hr, h.grow ?_ hs hmv hk hfresh⟩
    rw [pgroundup_eq (by omega), pgroundup_eq (by omega)]
    omega
  · exact .inr ⟨rfl, h.kept hs hmv hk⟩

/-- What loading segments over an image of size `sz` with the bytes `c` ends with: whether all
went well, and the size. -/
def Loads (K : Layout) (m₀ : Machine) (root tf : ℕ) (file : List UInt8)
    (phs : List ProgHdr) (sz : ℕ)
    (c : ℕ → UInt8) (r : Bool × ℕ) (m : Machine) : Prop :=
  r.2 ≤ trapframe ∧ ∃ c', Loading K m₀ m root (pgroundup r.2) tf c' ∧
    (r.1 = true → r.2 = phs.foldl ProgHdr.extend sz ∧
      ((∀ ph ∈ phs, ph.Fits) → c' = phs.foldl (ProgHdr.overlay file) c))

theorem Loads.bad {phs : List ProgHdr} {sz₀ : ℕ} {c₀ : ℕ → UInt8} (hsz : sz ≤ trapframe)
    (h : Loading K m₀ m root (pgroundup sz) tf c) :
    Loads K m₀ root tf file phs sz₀ c₀ (false, sz) m :=
  ⟨hsz, c, h, fun hf => absurd hf Bool.false_ne_true⟩

theorem Loads.cons {ph : ProgHdr} {phs : List ProgHdr} {sz₀ : ℕ} {c₀ : ℕ → UInt8} {r : Bool × ℕ}
    (h : Loads K m₀ root tf file phs sz c r m) (hsz : sz = ph.extend sz₀)
    (hc : ph.Fits → c = ph.overlay file c₀) : Loads K m₀ root tf file (ph :: phs) sz₀ c₀ r m := by
  obtain ⟨hle, c', hload, hend⟩ := h
  refine ⟨hle, c', hload, fun hr => ?_⟩
  obtain ⟨hsize, hbytes⟩ := hend hr
  refine ⟨by rw [hsize, hsz, List.foldl_cons], fun hfits => ?_⟩
  rw [hbytes fun ph' hph' => hfits ph' (List.mem_cons_of_mem ph hph'),
    hc (hfits ph List.mem_cons_self), List.foldl_cons]

/-- **The image after all program headers**: the segments were loaded one over the other, or one
of them could not be. -/
theorem ends_loadSegments {n off : ℕ} (h : Loading K m₀ m root (pgroundup sz) tf c)
    (hsz : sz ≤ trapframe) :
    Ends A (loadSegments K root file n off sz) m
      (Loads K m₀ root tf file (headers file n off) sz c) := by
  have htf := trapframe_lt
  induction n generalizing m c off sz with
  | zero => exact ⟨hsz, c, h, fun _ => ⟨rfl, fun _ => rfl⟩⟩
  | succ n ih =>
    rw [loadSegments, headers]
    have hfields : ∀ bytes, (progHdr bytes).vaddr < 2 ^ 64 ∧ (progHdr bytes).memsz < 2 ^ 64 :=
      fun bytes => ⟨field_lt bytes 16 8, field_lt bytes 40 8⟩
    obtain ⟨hvaddr, hmemsz⟩ := hfields (readString file off sizeofProghdr).2
    generalize progHdr (readString file off sizeofProghdr).2 = ph at *
    split
    · exact Loads.bad hsz h
    split
    · -- not a segment to load
      rename_i htype
      refine (ih h hsz).mono fun r m' hr => hr.cons ?_ fun _ => ?_
      · rw [ProgHdr.extend, if_neg htype]
      · funext x
        rw [ProgHdr.overlay, if_neg fun hcov => htype hcov.1]
    rename_i htype
    split
    · exact Loads.bad hsz h
    rename_i hmem
    split
    · exact Loads.bad hsz h
    rename_i hwrap
    rw [u64_add_of_le hvaddr hmemsz hwrap, ends_bind]
    refine (h.ends_uvmalloc hsz).mono fun sz1 m₁ h₁ => ?_
    rcases h₁ with ⟨hsz1, hsz1', h₁⟩ | ⟨rfl, h₁⟩
    swap
    · rw [if_pos rfl]
      exact Loads.bad hsz h₁
    split
    · rename_i hzero
      -- a size of 0 is taken for a failure
      obtain rfl : sz = 0 := by omega
      rw [hzero] at h₁
      exact Loads.bad hsz h₁
    split
    · exact Loads.bad hsz1' h₁
    rename_i hal
    have hstop := h₁.image.space.stop_le
    have hphys : phystop - kernbase = 134217728 := by decide
    have hround : sz1 ≤ pgroundup sz1 := by
      rw [pgroundup_eq (by omega)]
      omega
    rw [ends_bind, u32_of_lt (show ph.filesz < 2 ^ 32 by omega)]
    refine (ends_loadseg h₁ (not_not.mp hal) (by omega)).mono fun r m₂ h₂ => ?_
    obtain ⟨c₂, h₂, rfl | ⟨rfl, hbytes⟩⟩ := h₂
    · rw [if_pos (by decide)]
      exact Loads.bad hsz1' h₂
    rw [if_neg (by decide)]
    refine (ih h₂ hsz1').mono fun r m' hr => hr.cons ?_ fun hfits => ?_
    · rw [ProgHdr.extend, if_pos (not_not.mp htype), hsz1]
    have hfile := hfits (not_not.mp htype)
    rw [hbytes (by rw [u32_of_lt (by omega)]; exact hfile), u32_of_lt (by omega)]
    funext x
    have hcov : ph.Covers x ↔ ph.vaddr + 0 ≤ x ∧ x < ph.vaddr + ph.filesz := by
      rw [ProgHdr.Covers, Nat.add_zero, and_iff_right (not_not.mp htype)]
    simp only [overlayFrom, ProgHdr.overlay, hcov]

/-- **Loading one segment over another leaves the bytes of the last.** -/
theorem foldl_overlay (phs : List ProgHdr) (x : ℕ) :
    phs.foldl (ProgHdr.overlay file) (fun _ => 0) x = imageByte file phs x := by
  induction phs using List.reverseRecOn with
  | nil => rfl
  | append_singleton phs ph ih =>
    rw [List.foldl_append, List.foldl_cons, List.foldl_nil, ProgHdr.overlay, imageByte,
      List.reverse_append, List.reverse_singleton, List.singleton_append, List.find?_cons]
    by_cases hcov : ph.Covers x
    · simp only [hcov, if_true, decide_true]
    · simp only [hcov, if_false, decide_false, ih, imageByte]

end Xv6.Vm
