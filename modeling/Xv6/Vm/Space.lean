import Xv6.Vm.Walk
import Mathlib.Order.Interval.Finset.Nat

/-!
# A user's address space

The user memory of a process: the pages below `TRAPFRAME` that its table maps, from address 0
up to some page, each with a frame of its own.  `uvmalloc` and `uvmdealloc` move the end of the
memory, and what they do to memory is moving pages between the space and the free list.

## Main definitions

* `Space K m root stop` — the table maps exactly the user pages below `stop`.
* `Moves K root m m'` — pages moved between the space and the free list, and no others changed.
* `Kept` — the pages below an address are mapped as before, with the same contents.

## Main results

* `Space.stop_le` — a user cannot have more memory than there is.
* `ends_uvmdealloc`, `ends_uvmalloc` — shrinking and growing the space, with all ways to fail.
-/

namespace Xv6.Vm

open Kern Trie

variable {K : Layout} {m m' m'' : Machine} {root f va stop lo hi pa flags : ℕ} {A : Panic → Prop}

/-! ### Spaces -/

/-- The user pages below `stop` are mapped and no others, each to a frame of its own. -/
structure Space (K : Layout) (m : Machine) (root stop : ℕ) : Prop where
  heap : Heap K m
  table : Table K m root
  aligned : stop % pgsize = 0
  le : stop ≤ trapframe
  mapped : ∀ va, va < trapframe → ((m.flat root va).isSome ↔ va < stop)
  leaf : ∀ va pa flags, va < trapframe → m.flat root va = some (pa, flags) →
    flags ≠ pteV ∧ Freeable K m root pa
  inj : ∀ va vb pa flags flags', va < trapframe → vb < trapframe →
    m.flat root va = some (pa, flags) → m.flat root vb = some (pa, flags') →
    va / pgsize = vb / pgsize

/-- The pages of a space: its page-table pages and its frames. -/
def Machine.Owns (m : Machine) (root f : ℕ) : Prop :=
  m.Tables root f ∨ m.Frames root 0 trapframe f

/-- Pages moved between the space and the free list, and no page outside the two changed. -/
structure Moves (K : Layout) (root : ℕ) (m m' : Machine) : Prop where
  keep : ∀ f, m'.Owns root f ∨ f ∈ m'.freelist ↔ m.Owns root f ∨ f ∈ m.freelist
  page : ∀ f, f % pgsize = 0 → ¬ m.Owns root f → f ∉ m.freelist → m'.page f = m.page f
  top : ∀ va, trapframe ≤ va → m'.flat root va = m.flat root va

/-- The pages below `stop` are mapped as before, and hold what they held. -/
structure Kept (root stop : ℕ) (m m' : Machine) : Prop where
  flat : ∀ va, va < stop → m'.flat root va = m.flat root va
  page : ∀ va pa flags, va < stop → m.flat root va = some (pa, flags) → m'.page pa = m.page pa

theorem Moves.refl : Moves K root m m := ⟨fun _ => Iff.rfl, fun _ _ _ _ => rfl, fun _ _ => rfl⟩

theorem Moves.trans (h₁ : Moves K root m m') (h₂ : Moves K root m' m'') : Moves K root m m'' := by
  refine ⟨fun f => (h₂.keep f).trans (h₁.keep f), fun f hal hown hfree => ?_,
    fun va hva => (h₂.top va hva).trans (h₁.top va hva)⟩
  have hnot : ¬ (m'.Owns root f ∨ f ∈ m'.freelist) :=
    fun hor => ((h₁.keep f).mp hor).elim hown hfree
  rw [h₂.page f hal (fun ho => hnot (.inl ho)) fun hf => hnot (.inr hf), h₁.page f hal hown hfree]

theorem Kept.refl : Kept root stop m m := ⟨fun _ _ => rfl, fun _ _ _ _ _ => rfl⟩

theorem Kept.mono (h : Kept root hi m m') (hle : lo ≤ hi) : Kept root lo m m' :=
  ⟨fun va hva => h.flat va (by omega), fun va pa flags hva => h.page va pa flags (by omega)⟩

theorem Kept.trans (h₁ : Kept root stop m m') (h₂ : Kept root stop m' m'') :
    Kept root stop m m'' := by
  refine ⟨fun va hva => (h₂.flat va hva).trans (h₁.flat va hva), fun va pa flags hva hflat => ?_⟩
  rw [h₂.page va pa flags hva ((h₁.flat va hva).trans hflat), h₁.page va pa flags hva hflat]

theorem trapframe_lt : trapframe < maxva := by decide

theorem Space.frame_ne (h : Space K m root stop) (hle : hi ≤ trapframe) (hva : va < trapframe)
    (hout : va < lo ∨ hi ≤ va) (hhi : hi % pgsize = 0) (hflat : m.flat root va = some (pa, flags)) :
    ¬ m.Frames root lo hi pa := by
  rintro ⟨b, fl, hb, hlo, hbhi, hflat'⟩
  have := h.inj va b pa flags fl hva (by omega) hflat hflat'
  simp only [pgsize] at *
  omega

/-- **A user cannot have more memory than there is.** -/
theorem Space.stop_le (h : Space K m root stop) : stop ≤ phystop - kernbase := by
  classical
  have hle := h.le
  have hal := h.aligned
  have hphys : phystop = 2281701376 := by decide
  have hkern : kernbase = 2147483648 := by decide
  -- each page below `stop` has its own frame number
  let g : ℕ → ℕ := fun i => ((m.flat root (i * pgsize)).map Prod.fst).getD 0 / pgsize
  have hex : ∀ i < stop / pgsize, i * pgsize < trapframe ∧
      ∃ e, m.flat root (i * pgsize) = some e := by
    intro i hi
    have hlt : i * pgsize < stop := by
      simp only [pgsize] at *
      omega
    exact ⟨by omega, Option.isSome_iff_exists.mp ((h.mapped _ (by omega)).mpr hlt)⟩
  have hmaps : ∀ i ∈ Finset.range (stop / pgsize),
      g i ∈ Finset.Ico (kernbase / pgsize) (phystop / pgsize) := by
    intro i hi
    obtain ⟨hlt, ⟨pa, fl⟩, he⟩ := hex i (Finset.mem_range.mp hi)
    obtain ⟨hpal, hend, hstop⟩ := (h.leaf _ pa fl hlt he).2.1
    have hk := K.trampoline_lt
    have hk' := K.kernbase_le
    have hgi : g i = pa / pgsize := by simp only [g, he, Option.map_some, Option.getD_some]
    rw [hgi, Finset.mem_Ico]
    simp only [pgsize] at *
    omega
  have hinj : ∀ i ∈ Finset.range (stop / pgsize), ∀ j ∈ Finset.range (stop / pgsize),
      g i = g j → i = j := by
    intro i hi j hj hij
    obtain ⟨hlti, ⟨pa, fl⟩, hei⟩ := hex i (Finset.mem_range.mp hi)
    obtain ⟨hltj, ⟨pa', fl'⟩, hej⟩ := hex j (Finset.mem_range.mp hj)
    have hpal := (h.leaf _ pa fl hlti hei).2.1.aligned
    have hpal' := (h.leaf _ pa' fl' hltj hej).2.1.aligned
    have hgi : g i = pa / pgsize := by simp only [g, hei, Option.map_some, Option.getD_some]
    have hgj : g j = pa' / pgsize := by simp only [g, hej, Option.map_some, Option.getD_some]
    rw [hgi, hgj] at hij
    have hpa : pa = pa' := by
      simp only [pgsize] at *
      omega
    have hdiv := h.inj _ _ pa fl fl' hlti hltj hei (hpa ▸ hej)
    simp only [pgsize] at *
    omega
  have hcard := Finset.card_le_card_of_injOn g hmaps hinj
  rw [Finset.card_range, Nat.card_Ico] at hcard
  simp only [pgsize] at *
  omega

theorem Space.of_none (hh : Heap K m) (ht : Table K m root)
    (hnone : ∀ va, va < trapframe → m.flat root va = none) : Space K m root 0 := by
  refine ⟨hh, ht, rfl, Nat.zero_le _, fun va hva => ?_, fun va pa fl hva hm => ?_,
    fun va vb pa fl fl' hva _ hm _ => ?_⟩
  · rw [hnone va hva]
    exact iff_of_false Bool.false_ne_true (Nat.not_lt_zero va)
  · rw [hnone va hva] at hm
    cases hm
  · rw [hnone va hva] at hm
    cases hm

/-! ### Giving pages back -/

/-- The frames of a space are those of a range and those of the rest. -/
theorem frames_unmapped (hle : hi ≤ trapframe)
    (hflat : ∀ vb, m'.flat root vb = unmapped (m.flat root) lo hi vb) :
    m.Frames root 0 trapframe f ↔ m'.Frames root 0 trapframe f ∨ m.Frames root lo hi f := by
  constructor
  · rintro ⟨b, fl, hb, -, hlt, h⟩
    by_cases hin : lo ≤ b ∧ b < hi
    · exact .inr ⟨b, fl, hb, hin.1, hin.2, h⟩
    · exact .inl ⟨b, fl, hb, Nat.zero_le b, hlt, by rw [hflat, unmapped, if_neg hin, h]⟩
  · rintro (⟨b, fl, hb, -, hlt, h⟩ | ⟨b, fl, hb, hlo, hhi, h⟩)
    · rw [hflat, unmapped] at h
      split at h
      · cases h
      · exact ⟨b, fl, hb, Nat.zero_le b, hlt, h⟩
    · exact ⟨b, fl, hb, Nat.zero_le b, by omega, h⟩

theorem Space.unmap (h : Space K m root hi) (hlo : lo % pgsize = 0) (hle : lo ≤ hi)
    (hs : Shrinks K root (m.Frames root lo hi) m m')
    (hflat : ∀ vb, m'.flat root vb = unmapped (m.flat root) lo hi vb) :
    Space K m' root lo ∧ Moves K root m m' ∧ Kept root lo m m' := by
  have hhi := h.le
  have hback : ∀ va pa fl, m'.flat root va = some (pa, fl) →
      m.flat root va = some (pa, fl) ∧ (va < lo ∨ hi ≤ va) := by
    intro va pa fl hva
    rw [hflat, unmapped] at hva
    split at hva
    · cases hva
    · exact ⟨hva, by omega⟩
  refine ⟨⟨hs.heap, hs.table, hlo, by omega, fun va hva => ?_, fun va pa fl hva hm => ?_, ?_⟩,
    ⟨fun f => ?_, fun f hal hown _ => ?_, fun va hva => ?_⟩,
    ⟨fun va hva => ?_, fun va pa fl hva hm => ?_⟩⟩
  · -- what is mapped below `trapframe` is what lies below `lo`
    rw [hflat, unmapped]
    split
    · refine iff_of_false (by simp) (by omega)
    · rw [h.mapped va hva]
      omega
  · obtain ⟨hm, hout⟩ := hback va pa fl hm
    obtain ⟨hne, hram, hnot, hfree⟩ := h.leaf va pa fl hva hm
    refine ⟨hne, hram, fun ht => hnot ((hs.tables pa).mp ht), fun hmem => ?_⟩
    rcases (hs.free pa).mp hmem with hmem | hgone
    · exact hfree hmem
    · exact h.frame_ne hhi hva hout h.aligned hm hgone
  · intro va vb pa fl fl' hva hvb hm hm'
    exact h.inj va vb pa fl fl' hva hvb (hback va pa fl hm).1 (hback vb pa fl' hm').1
  · -- what the space gave up went to the free list
    rw [Machine.Owns, Machine.Owns, hs.tables, hs.free, frames_unmapped hhi hflat]
    tauto
  · refine hs.page f hal (fun ht => hown (.inl ht)) fun hgone => hown (.inr ?_)
    exact (frames_unmapped hhi hflat).mpr (.inr hgone)
  · rw [hflat, unmapped, if_neg (by omega)]
  · rw [hflat, unmapped, if_neg (by omega)]
  · obtain ⟨-, hram, hnot, -⟩ := h.leaf va pa fl (by omega) hm
    exact hs.page pa hram.aligned hnot (h.frame_ne hhi (by omega) (.inl hva) h.aligned hm)

/-- Unmapping frees at most one page for each page of the range. -/
theorem Shrinks.length_freelist_le {npages : ℕ} (hlo : lo % pgsize = 0)
    (hs : Shrinks K root (m.Frames root lo (lo + npages * pgsize)) m m') :
    m'.freelist.length ≤ m.freelist.length + npages := by
  let frames := (List.range npages).map fun k =>
    ((m.flat root (lo + k * pgsize)).map Prod.fst).getD 0
  have hsub : m'.freelist ⊆ m.freelist ++ frames := by
    intro f hf
    rw [List.mem_append]
    rcases (hs.free f).mp hf with hf | ⟨b, fl, hb, hlob, hbhi, hflat⟩
    · exact .inl hf
    · have hk : lo + (b - lo) / pgsize * pgsize = b ∧ (b - lo) / pgsize < npages := by
        simp only [pgsize] at *
        omega
      exact .inr (List.mem_map.mpr ⟨_, List.mem_range.mpr hk.2, by rw [hk.1, hflat]; rfl⟩)
  have hlen := (hs.heap.nodup.subperm hsub).length_le
  rwa [List.length_append, List.length_map, List.length_range] at hlen

/-- **uvmunmap of the upper part of a space**, with its pages freed. -/
theorem Space.ends_uvmunmap {npages : ℕ} (h : Space K m root hi) (hlo : lo % pgsize = 0)
    (hhi : lo + npages * pgsize = hi) :
    Ends A (uvmunmap K root lo npages true) m fun _ m' =>
      Space K m' root lo ∧ Moves K root m m' ∧ Kept root lo m m' ∧
        m'.freelist.length ≤ m.freelist.length + npages := by
  have hle := h.le
  have htf := trapframe_lt
  have hmax : maxva < 2 ^ 64 := by decide
  -- the pages may be freed: they are frames of the space, each of one address only
  have hrange : FreeableRange K m root lo (lo + npages * pgsize) := by
    refine ⟨?_, ?_⟩
    · rintro f ⟨b, fl, -, -, hb, hm⟩
      exact (h.leaf b f fl (by omega) hm).2
    · intro b b' f fl fl' hb hb' _ hbs _ hbs' hm hm'
      have := h.inj b b' f fl fl' (by omega) (by omega) hm hm'
      simp only [pgsize] at *
      omega
  refine (Vm.ends_uvmunmap h.heap h.table hlo (by omega) fun _ => hrange).imp ?_ ?_
  · rintro e ⟨b, -, hlob, hbhi, hnot⟩
    obtain ⟨⟨pa, fl⟩, hm⟩ := Option.isSome_iff_exists.mp ((h.mapped b (by omega)).mpr (by omega))
    exact absurd ⟨pa, fl, hm, (h.leaf b pa fl (by omega) hm).1⟩ hnot
  rintro - m' ⟨hs, hflat⟩
  simp only [true_and] at hs
  have hlen := hs.length_freelist_le hlo
  rw [hhi] at hflat hs
  obtain ⟨hspace, hmoves, hkept⟩ := h.unmap hlo (by omega) hs hflat
  exact ⟨hspace, hmoves, hkept, hlen⟩

theorem pgroundup_eq {sz : ℕ} (h : sz ≤ maxva) : pgroundup sz = (sz + 4095) / 4096 * 4096 := by
  have hmax : maxva + pgsize < 2 ^ 64 := by decide
  rw [pgroundup, u64, Nat.mod_eq_of_lt (by omega)]
  rfl

theorem pgroundup_mod (sz : ℕ) : pgroundup sz % pgsize = 0 := pgrounddown_mod _

theorem int64_of_lt {x : ℕ} (h : x < 2 ^ 31) : int64 x = x := by
  rw [int64, Nat.mod_eq_of_lt (by omega), if_pos h]

/-- **uvmdealloc** brings the space down to the new size, and frees what was above. -/
theorem ends_uvmdealloc {oldsz newsz : ℕ} (h : Space K m root (pgroundup oldsz))
    (hold : oldsz ≤ trapframe) (hle : newsz ≤ oldsz) :
    Ends A (uvmdealloc K root oldsz newsz) m fun r m' =>
      r = newsz ∧ Space K m' root (pgroundup newsz) ∧ Moves K root m m' ∧
        Kept root (pgroundup newsz) m m' := by
  have htf := trapframe_lt
  rw [uvmdealloc]
  split
  · -- nothing to do
    obtain rfl : newsz = oldsz := by omega
    exact ⟨rfl, h, .refl, .refl⟩
  rw [ends_bind, ends_doIf]
  split
  · rename_i hlt
    have hstop := h.stop_le
    have hphys : phystop - kernbase = 134217728 := by decide
    have h₁ := pgroundup_mod newsz
    have h₂ := pgroundup_mod oldsz
    rw [int64_of_lt (by simp only [pgsize]; omega)]
    refine (h.ends_uvmunmap h₁ ?_).mono fun _ m' h' => ?_
    · simp only [pgsize] at *
      omega
    · exact ⟨rfl, h'.1, h'.2.1, h'.2.2.1⟩
  · -- the new size ends in the same page
    have heq : pgroundup newsz = pgroundup oldsz := by
      rw [pgroundup_eq (by omega), pgroundup_eq (by omega)] at *
      omega
    rw [ends_pure, heq]
    exact ⟨rfl, h, .refl, .refl⟩

/-! ### Adding pages -/

variable {n a : ℕ} {m₁ m₂ : Machine}

/-- A page was taken off the free list. -/
structure Taken (K : Layout) (root : ℕ) (m m₁ : Machine) (n : ℕ) : Prop where
  heap : Heap K m₁
  table : Table K m₁ root
  tables : ∀ f, m₁.Tables root f ↔ m.Tables root f
  flat : ∀ va, m₁.flat root va = m.flat root va
  free : ∀ f, f ∈ m.freelist ↔ f = n ∨ f ∈ m₁.freelist
  page : ∀ f, f % pgsize = 0 → f ≠ n → m₁.page f = m.page f
  new : Freeable K m₁ root n

theorem taken_of_cons {rest : List ℕ} {v : Bytes pgsize} (hh : Heap K m) (ht : Table K m root)
    (hfree : m.freelist = n :: rest) :
    Taken K root m (({ m with freelist := rest }.memset n 5).setPage n v) n := by
  have hmem : n ∈ m.freelist := by
    rw [hfree]
    exact List.mem_cons_self
  have hram := hh.ram n hmem
  have hnd := hh.nodup
  rw [hfree, List.nodup_cons] at hnd
  have hpage : ∀ f, f % pgsize = 0 → f ≠ n →
      (({ m with freelist := rest }.memset n 5).setPage n v).page f = m.page f := by
    intro f hal hne
    have hdiv := div_ne_of_ne hal hram.aligned hne
    rw [page_setPage_of_ne _ hdiv, page_memset_of_ne _ hdiv]
    rfl
  have hrest : ∀ f, f ∈ rest → f ∈ m.freelist := fun f hf => by
    rw [hfree]
    exact List.mem_cons_of_mem n hf
  have hnot : ∀ f, m.Tables root f → f ≠ n := fun f hf heq => ht.used f hf (heq ▸ hmem)
  obtain ⟨htable, htables, -, hflat⟩ :=
    ht.congr (fun f hf => hpage f (ht.ram f hf).aligned (hnot f hf))
    fun f hf hf' => ht.used f hf (hrest f hf')
  refine ⟨⟨hnd.2, fun f hf => hh.ram f (hrest f hf)⟩, htable, htables, hflat, fun f => ?_, hpage,
    hram, fun hn => hnot n ((htables n).mp hn) rfl, hnd.1⟩
  rw [hfree, List.mem_cons]
  rfl

/-- mappages of one page that is not mapped. -/
theorem ends_mappages_page {perm : ℕ} (hh : Heap K m) (ht : Table K m root) (ha : a % pgsize = 0)
    (hmax : a < maxva) (hnone : m.flat root a = none) (hpa : pa % pgsize = 0) (hpa' : pa < 2 ^ 56)
    (hperm : perm < 1024) :
    Ends A (mappages root a pgsize pa perm) m fun r m' => Grows K root m m' ∧
      ((r = 0 ∧ ∀ vb, m'.flat root vb =
          if vb / pgsize = a / pgsize then some (pa, perm ||| pteV) else m.flat root vb) ∨
        (r = -1 ∧ m'.freelist = [] ∧ ∀ vb, m'.flat root vb = m.flat root vb)) := by
  have hlast : pgrounddown (a + pgsize - 1) = a := by
    simp only [pgrounddown, pgsize] at ha ⊢
    omega
  have hfirst : pgrounddown a = a := by
    simp only [pgrounddown, pgsize] at ha ⊢
    omega
  have hsize : a + pgsize - 1 < maxva := by
    simp only [maxva, pgsize, Nat.reduceAdd, Nat.reduceSub, Nat.reducePow] at ha hmax ⊢
    omega
  refine (ends_mappages hh ht hsize hpa hpa' hperm).imp ?_ ?_
  · rintro e (⟨-, h0⟩ | ⟨-, -, b, hb₁, hb₂, hsome⟩)
    · exact absurd h0 (by decide)
    · obtain rfl : b = a := by omega
      rw [hnone] at hsome
      cases hsome
  rintro r m' ⟨hg, ⟨rfl, -, hflat⟩ | ⟨rfl, hnil, stop, h₁, h₂, hflat⟩⟩
  · refine ⟨hg, .inl ⟨rfl, fun vb => ?_⟩⟩
    rw [hflat, hlast, hfirst, mapped]
    by_cases hpage : vb / pgsize = a / pgsize
    · have hin : (a ≤ vb ∧ vb < a + pgsize) ∧ pgrounddown vb = a := by
        simp only [pgrounddown, pgsize] at *
        omega
      rw [if_pos hpage, if_pos hin.1, hin.2, Nat.sub_self, Nat.add_zero]
    · rw [if_neg hpage, if_neg]
      simp only [pgsize] at *
      omega
  · refine ⟨hg, .inr ⟨rfl, hnil, fun vb => ?_⟩⟩
    rw [hflat, mapped, if_neg (by omega)]

/-- What the frames of a space are after pages of the free list became page-table pages. -/
theorem Taken.not_owned (h : Taken K root m m₁ n) (hspace : Space K m root stop) :
    ¬ m.Owns root n ∧ n ∈ m.freelist := by
  have hmem : n ∈ m.freelist := (h.free n).mpr (.inl rfl)
  refine ⟨?_, hmem⟩
  rintro (ht | ⟨b, fl, -, -, hb, hm⟩)
  · exact hspace.table.used n ht hmem
  · exact (hspace.leaf b n fl hb hm).2.2.2 hmem

/-- The frames of a space are still in use, and hold what they held, after a page was taken and
page tables were made. -/
theorem Taken.frame (h : Taken K root m m₁ n) (hg : Grows K root m₁ m₂)
    (hspace : Space K m root stop)
    (hva : va < trapframe) (hm : m.flat root va = some (pa, flags)) :
    Freeable K m₂ root pa ∧ m₂.page pa = m.page pa ∧ pa ≠ n := by
  obtain ⟨-, hram, hnot, hfree⟩ := hspace.leaf va pa flags hva hm
  have hne : pa ≠ n := fun heq => hfree (heq ▸ (h.free n).mpr (.inl rfl))
  have hnot₁ : ¬ m₁.Tables root pa := fun ht => hnot ((h.tables pa).mp ht)
  have hfree₁ : pa ∉ m₁.freelist := fun hmem => hfree ((h.free pa).mpr (.inr hmem))
  refine ⟨⟨hram, fun ht => ?_, fun hmem => hfree₁ (hg.mem_freelist hmem)⟩, ?_, hne⟩
  · exact ((hg.keep pa).mp (.inl ht)).elim hnot₁ hfree₁
  · rw [hg.page pa hram.aligned hnot₁ hfree₁, h.page pa hram.aligned hne]

theorem keep_taken {t t' l l' N R : Prop} (h : t' ∨ l' ↔ t ∨ l) :
    (t' ∨ N ∨ R) ∨ l' ↔ (t ∨ R) ∨ N ∨ l := by
  tauto

theorem keep_released {t t' l l' N R : Prop} (h : t' ∨ l' ↔ t ∨ l) :
    (t' ∨ R) ∨ l' ∨ N ↔ (t ∨ R) ∨ N ∨ l := by
  tauto

theorem Space.grow (h : Space K m root a) (hroom : a + pgsize ≤ trapframe)
    (htaken : Taken K root m m₁ n)
    (hg : Grows K root m₁ m₂) (hflags : flags ≠ pteV)
    (hflat : ∀ vb, m₂.flat root vb =
      if vb / pgsize = a / pgsize then some (n, flags) else m₁.flat root vb) :
    Space K m₂ root (a + pgsize) ∧ Moves K root m m₂ ∧ Kept root a m m₂ ∧
      m₂.page n = m₁.page n := by
  have hal := h.aligned
  obtain ⟨hram, hnt, hnf⟩ := htaken.new
  obtain ⟨hown, hmem⟩ := htaken.not_owned h
  have hflat' : ∀ vb, m₂.flat root vb =
      if vb / pgsize = a / pgsize then some (n, flags) else m.flat root vb := fun vb => by
    rw [hflat, htaken.flat]
  have hnew : Freeable K m₂ root n := by
    refine ⟨hram, fun ht => ?_, fun hf => hnf (hg.mem_freelist hf)⟩
    exact ((hg.keep n).mp (.inl ht)).elim hnt hnf
  -- the frames are those of the space, and the page taken
  have hframes : ∀ f, m₂.Frames root 0 trapframe f ↔ f = n ∨ m.Frames root 0 trapframe f := by
    intro f
    constructor
    · rintro ⟨b, fl, hb, h0, hlt, hm⟩
      rw [hflat'] at hm
      split at hm
      · exact .inl (Prod.mk.inj (Option.some.inj hm)).1.symm
      · exact .inr ⟨b, fl, hb, h0, hlt, hm⟩
    · rintro (rfl | ⟨b, fl, hb, h0, hlt, hm⟩)
      · exact ⟨a, flags, hal, Nat.zero_le a, by simp only [pgsize] at hroom; omega, by
          rw [hflat', if_pos rfl]⟩
      · refine ⟨b, fl, hb, h0, hlt, ?_⟩
        have hba : b < a := (h.mapped b hlt).mp (by rw [hm]; rfl)
        rw [hflat', if_neg, hm]
        simp only [pgsize] at *
        omega
  refine ⟨⟨hg.heap, hg.table, ?_, hroom, fun va hva => ?_, fun va pa fl hva hm => ?_, ?_⟩,
    ⟨fun f => ?_, fun f hfal hfown hffree => ?_, fun va hva => ?_⟩,
    ⟨fun va hva => ?_, fun va pa fl hva hm => ?_⟩, ?_⟩
  · rw [Nat.add_mod_right, hal]
  · rw [hflat']
    split
    · refine iff_of_true rfl ?_
      simp only [pgsize] at *
      omega
    · rw [h.mapped va hva]
      simp only [pgsize] at *
      omega
  · rw [hflat'] at hm
    split at hm
    · obtain ⟨rfl, rfl⟩ := Prod.mk.inj (Option.some.inj hm)
      exact ⟨hflags, hnew⟩
    · exact ⟨(h.leaf va pa fl hva hm).1, (htaken.frame hg h hva hm).1⟩
  · -- no two addresses share a frame: the new one was free
    intro va vb pa fl fl' hva hvb hm hm'
    rw [hflat'] at hm hm'
    split at hm <;> split at hm'
    · omega
    · obtain ⟨rfl, -⟩ := Prod.mk.inj (Option.some.inj hm)
      exact absurd rfl (htaken.frame hg h hvb hm').2.2
    · obtain ⟨rfl, -⟩ := Prod.mk.inj (Option.some.inj hm')
      exact absurd rfl (htaken.frame hg h hva hm).2.2
    · exact h.inj va vb pa fl fl' hva hvb hm hm'
  · rw [Machine.Owns, Machine.Owns, hframes, htaken.free, ← htaken.tables]
    exact keep_taken (hg.keep f)
  · -- pages of others are as they were
    have hfn : f ≠ n := fun heq => hffree (heq ▸ hmem)
    rw [hg.page f hfal (fun ht => hfown (.inl ((htaken.tables f).mp ht)))
      fun hf => hffree ((htaken.free f).mpr (.inr hf)), htaken.page f hfal hfn]
  · rw [hflat', if_neg]
    simp only [pgsize] at *
    omega
  · rw [hflat', if_neg]
    simp only [pgsize] at *
    omega
  · exact (htaken.frame hg h (by simp only [pgsize] at hroom; omega) hm).2.1
  · exact hg.page n hram.aligned hnt hnf

/-- The space after a page was taken, page tables were made, and the page was freed again. -/
theorem Space.giveUp (h : Space K m root a) (htaken : Taken K root m m₁ n) (hg : Grows K root m₁ m₂)
    (hflat : ∀ vb, m₂.flat root vb = m₁.flat root vb) :
    Space K (m₂.release n) root a ∧ Moves K root m (m₂.release n) ∧
      Kept root a m (m₂.release n) := by
  obtain ⟨hram, hnt, hnf⟩ := htaken.new
  obtain ⟨hown, hmem⟩ := htaken.not_owned h
  have hnew : Freeable K m₂ root n := by
    refine ⟨hram, fun ht => ?_, fun hf => hnf (hg.mem_freelist hf)⟩
    exact ((hg.keep n).mp (.inl ht)).elim hnt hnf
  obtain ⟨hs, -, hflat'⟩ := hnew.release hg.heap hg.table
  -- the flat map is the one before the page was taken
  have hall : ∀ vb, (m₂.release n).flat root vb = m.flat root vb := fun vb => by
    rw [hflat', hflat, htaken.flat]
  have hle := h.le
  have hframes : ∀ f, (m₂.release n).Frames root 0 trapframe f ↔ m.Frames root 0 trapframe f :=
    fun f => by simp only [Machine.Frames, hall]
  refine ⟨⟨hs.heap, hs.table, h.aligned, hle, fun va hva => ?_, fun va pa fl hva hm => ?_, ?_⟩,
    ⟨fun f => ?_, fun f hfal hfown hffree => ?_, fun va _ => hall va⟩,
    ⟨fun va _ => hall va, fun va pa fl hva hm => ?_⟩⟩
  · rw [hall, h.mapped va hva]
  · rw [hall] at hm
    obtain ⟨⟨hpr, hpt, hpf⟩, -, hpn⟩ := htaken.frame hg h hva hm
    refine ⟨(h.leaf va pa fl hva hm).1, hpr, fun ht => hpt ((hs.tables pa).mp ht), fun hf => ?_⟩
    exact ((hs.free pa).mp hf).elim hpf hpn
  · intro va vb pa fl fl' hva hvb hm hm'
    rw [hall] at hm hm'
    exact h.inj va vb pa fl fl' hva hvb hm hm'
  · rw [Machine.Owns, Machine.Owns, hs.tables, hs.free, hframes, htaken.free, ← htaken.tables]
    exact keep_released (hg.keep f)
  · have hfn : f ≠ n := fun heq => hffree (heq ▸ hmem)
    have hft : ¬ m₁.Tables root f := fun ht => hfown (.inl ((htaken.tables f).mp ht))
    have hff : f ∉ m₁.freelist := fun hf => hffree ((htaken.free f).mpr (.inr hf))
    rw [hs.page f hfal (fun ht => ((hg.keep f).mp (.inl ht)).elim hft hff) hfn,
      hg.page f hfal hft hff, htaken.page f hfal hfn]
  · obtain ⟨⟨hpr, hpt, -⟩, hpage, hpn⟩ := htaken.frame hg h (by omega) hm
    rw [hs.page pa hpr.aligned hpt hpn, hpage]

/-- The flags of new user pages. -/
def userFlags : ℕ := pteW ||| pteX ||| pteR ||| pteU ||| pteV

/-- The pages of a range are user pages full of zeroes. -/
def Fresh (m : Machine) (root lo hi : ℕ) : Prop :=
  ∀ va, lo ≤ va → va < hi → ∃ pa, m.flat root va = some (pa, userFlags) ∧ m.page pa = Bytes.zero

theorem ends_rollback {base : ℕ} (h : Space K m root a) (hbase : base % pgsize = 0)
    (hle : base ≤ a) :
    Ends A (do let _ ← uvmdealloc K root a base; pure 0) m fun r m' =>
      r = 0 ∧ Space K m' root base ∧ Moves K root m m' ∧ Kept root base m m' := by
  have htf := trapframe_lt
  have hal := h.aligned
  have hround : ∀ x, x % pgsize = 0 → x ≤ trapframe → pgroundup x = x := by
    intro x hx hxle
    rw [pgroundup_eq (by omega)]
    simp only [pgsize] at hx
    omega
  have hle' := h.le
  rw [← hround a hal hle'] at h
  rw [ends_bind]
  refine (ends_uvmdealloc h hle' hle).mono fun r m' h' => ?_
  rw [hround base hbase (by omega)] at h'
  exact ⟨rfl, h'.2⟩

theorem ends_uvmallocLoop {base newsz fuel : ℕ} (h : Space K m root a) (hbase : base % pgsize = 0)
    (hle : base ≤ a) (hroom : a ≤ (newsz + 4095) / 4096 * 4096)
    (hfuel : (phystop - kernbase - a) / pgsize < fuel) :
    Ends A (uvmallocLoop K root base newsz fuel a) m fun r m' =>
      (r = newsz ∧ Space K m' root ((newsz + 4095) / 4096 * 4096) ∧ Moves K root m m' ∧
        Kept root a m m' ∧ Fresh m' root a ((newsz + 4095) / 4096 * 4096)) ∨
      (r = 0 ∧ Space K m' root base ∧ Moves K root m m' ∧ Kept root base m m') := by
  induction fuel generalizing m a with
  | zero => exact absurd hfuel (Nat.not_lt_zero _)
  | succ fuel ih =>
    have hal := h.aligned
    have hstop := h.stop_le
    have hphys : phystop - kernbase = 134217728 := by decide
    have htf : trapframe = 274877898752 := by decide
    rw [uvmallocLoop]
    split
    swap
    · -- the new size is reached
      have heq : (newsz + 4095) / 4096 * 4096 = a := by
        simp only [pgsize] at hal
        omega
      rw [heq]
      refine .inl ⟨rfl, h, .refl, .refl, fun va hlo hhi => ?_⟩
      omega
    rename_i hlt
    rw [ends_bind]
    cases hfree : m.freelist with
    | nil =>
      -- no page is left: what was added is given back
      rw [ends_kalloc_nil hfree, if_pos rfl]
      exact (ends_rollback h hbase hle).mono fun r m' h' => .inr h'
    | cons n rest =>
      have htaken : Taken K root m (({ m with freelist := rest }.memset n 5).memset n 0) n :=
        taken_of_cons h.heap h.table hfree
      have hram := htaken.new.1
      rw [ends_kalloc_cons hfree, if_neg hram.pos, ends_bind, memset, ends_write, ends_bind]
      have hnone : (({ m with freelist := rest }.memset n 5).memset n 0).flat root a = none := by
        rw [htaken.flat]
        have := mt (h.mapped a (by omega)).mp (Nat.lt_irrefl a)
        rwa [Option.not_isSome_iff_eq_none] at this
      have hnlt := hram.lt
      refine (ends_mappages_page htaken.heap htaken.table hal (by have := trapframe_lt; omega) hnone
        hram.aligned (by omega) (by decide)).mono fun r m₂ hm₂ => ?_
      obtain ⟨hg, ⟨rfl, hflat⟩ | ⟨rfl, -, hflat⟩⟩ := hm₂
      · -- the page was mapped
        rw [if_neg (not_not.mpr rfl)]
        obtain ⟨hspace, hmoves, hkept, hzero⟩ := h.grow (by simp only [pgsize]; omega) htaken hg
          (show userFlags ≠ pteV by decide) hflat
        have hstop₂ := hspace.stop_le
        have hnext : a + pgsize ≤ (newsz + 4095) / 4096 * 4096 := by
          simp only [pgsize] at *
          omega
        rw [u64, Nat.mod_eq_of_lt (by omega)]
        refine (ih hspace (by omega) hnext ?_).mono fun r m' hm' => ?_
        · simp only [hphys, pgsize] at *
          omega
        rcases hm' with ⟨rfl, hs, hmv, hk, hfresh⟩ | ⟨rfl, hs, hmv, hk⟩
        · refine .inl ⟨rfl, hs, hmoves.trans hmv, hkept.trans (hk.mono (by omega)), ?_⟩
          intro va hlo hhi
          by_cases hfirst : va < a + pgsize
          · have hsame : va / pgsize = a / pgsize := by
              simp only [pgsize] at *
              omega
            have hva : m₂.flat root va = some (n, userFlags) := (hflat va).trans (if_pos hsame)
            exact ⟨n, (hk.flat va hfirst).trans hva, (hk.page va n userFlags hfirst hva).trans
              (hzero.trans page_memset_zero)⟩
          · exact hfresh va (by omega) hhi
        · exact .inr ⟨rfl, hs, hmoves.trans hmv, (hkept.mono hle).trans hk⟩
      · -- no memory for page tables: the page itself is freed, too
        rw [if_pos (by decide), ends_bind, ends_kfree hram]
        obtain ⟨hspace, hmoves, hkept⟩ := h.giveUp htaken hg hflat
        refine (ends_rollback hspace hbase hle).mono fun r m' hm' => .inr ?_
        obtain ⟨rfl, hs, hmv, hk⟩ := hm'
        exact ⟨rfl, hs, hmoves.trans hmv, (hkept.mono hle).trans hk⟩

/-- **uvmalloc** brings the space up to the new size with pages of zeroes, or leaves it as it
was and gives every page it took back. -/
theorem ends_uvmalloc {oldsz newsz : ℕ} (h : Space K m root (pgroundup oldsz))
    (hold : oldsz ≤ trapframe)
    (hle : oldsz ≤ newsz) :
    Ends A (uvmalloc K root oldsz newsz) m fun r m' =>
      (r = newsz ∧ newsz ≤ trapframe ∧ Space K m' root (pgroundup newsz) ∧ Moves K root m m' ∧
        Kept root (pgroundup oldsz) m m' ∧ Fresh m' root (pgroundup oldsz) (pgroundup newsz)) ∨
      (r = 0 ∧ Space K m' root (pgroundup oldsz) ∧ Moves K root m m' ∧
        Kept root (pgroundup oldsz) m m') := by
  have htf := trapframe_lt
  -- memory has fewer pages than the loop may take
  have hwalks : (phystop - kernbase - pgroundup oldsz) / pgsize < walks := by
    have hb : (phystop - kernbase) / pgsize < walks := by decide
    exact lt_of_le_of_lt (Nat.div_le_div_right (Nat.sub_le _ _)) hb
  have hroom : pgroundup oldsz ≤ (newsz + 4095) / 4096 * 4096 := by
    rw [pgroundup_eq (by omega)]
    omega
  rw [uvmalloc, if_neg (by omega)]
  refine (ends_uvmallocLoop h (pgroundup_mod oldsz) (Nat.le_refl _) hroom hwalks).mono
    fun r m' hm' => ?_
  rcases hm' with ⟨rfl, hs, hmv, hk, hfresh⟩ | hfail
  · have hr : r ≤ trapframe := by
      have := hs.le
      omega
    rw [← pgroundup_eq (by omega)] at hs hfresh
    exact .inl ⟨rfl, hr, hs, hmv, hk, hfresh⟩
  · exact .inr hfail

end Xv6.Vm
