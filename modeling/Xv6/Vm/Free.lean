import Xv6.Vm.Space

/-!
# Freeing a page table

`freewalk` goes down a page table whose mappings have been removed and frees its pages.  It
frees each page once, since the pages hang in one place each.

## Main definitions

* `Bare` — a tree of page tables with no mappings.
* `Image` — a space together with the trampoline and a trapframe above it.
* `Built` — a space was made out of the pages that were free.

## Main results

* `ends_freewalk` — the pages of an empty table go to the free list, and no other page changes.
* `ends_uvmfree`, `ends_procFreepagetable` — so do the pages of a space and of its table.
* `ends_procPagetable` — a new page table is made out of free pages, or nothing is left of it.
-/

namespace Xv6.Vm

open Kern Trie

variable {K : Layout} {m m' : Machine} {root f g l i c : ℕ} {A : Panic → Prop}

/-- A tree of `l` levels above the last, with no mappings: its pages are in use, each hangs in
one place, and its valid entries refer to page tables. -/
structure Bare (K : Layout) (m : Machine) (l f : ℕ) : Prop where
  sep : Separate m.child l f
  ram : ∀ g, Node m.child l f g → K.Ram g
  used : ∀ g, Node m.child l f g → g ∉ m.freelist
  inner : ∀ q g i, q.length < l → descend m.child f q = some g →
    m.load64 (entry g i) &&& pteV ≠ 0 → m.load64 (entry g i) &&& (pteR ||| pteW ||| pteX) = 0
  last : ∀ q g i, q.length = l → descend m.child f q = some g → ¬ m.load64 (entry g i) &&& pteV ≠ 0

theorem Bare.child {j : Fin 512} (h : Bare K m (l + 1) f) (hc : m.child f j = some c) :
    Bare K m l c := by
  have hdesc : ∀ q g, descend m.child c q = some g → descend m.child f (j :: q) = some g := by
    intro q g hq
    rw [descend_cons, hc, Option.bind_some, hq]
  refine ⟨h.sep.subtree hc, fun g hg => h.ram g (hg.succ_child hc),
    fun g hg => h.used g (hg.succ_child hc),
    fun q g i hq hd => h.inner (j :: q) g i (by simpa using hq) (hdesc q g hd),
    fun q g i hq hd => h.last (j :: q) g i (by simpa using hq) (hdesc q g hd)⟩

theorem Bare.congr (h : Bare K m l f) (hpage : ∀ g, Node m.child l f g → m'.page g = m.page g)
    (hfree : ∀ g, Node m.child l f g → g ∉ m'.freelist) :
    Bare K m' l f ∧ ∀ g, Node m'.child l f g ↔ Node m.child l f g := by
  have hagree : ∀ q g j, q.length < l → descend m.child f q = some g →
      m'.child g j = m.child g j := by
    intro q g j hq hd
    have hg : Node m.child l f g := ⟨q, by omega, hd⟩
    exact child_congr (h.ram g hg).aligned (hpage g hg)
  have hnode : ∀ g, Node m'.child l f g ↔ Node m.child l f g := fun g => node_congr hagree
  have hload : ∀ g i, Node m.child l f g → m'.load64 (entry g i) = m.load64 (entry g i) := by
    intro g i hg
    refine load64_congr ?_
    rw [page_entry (h.ram g hg).aligned, page_entry (h.ram g hg).aligned, hpage g hg]
  refine ⟨⟨h.sep.congr hagree, fun g hg => h.ram g ((hnode g).mp hg),
    fun g hg => hfree g ((hnode g).mp hg), fun q g i hq hd hv => ?_, fun q g i hq hd hv =>
    ?_⟩, hnode⟩
  · rw [descend_congr hagree (by omega)] at hd
    rw [hload g i ⟨q, by omega, hd⟩] at hv ⊢
    exact h.inner q g i hq hd hv
  · rw [descend_congr hagree (by omega)] at hd
    rw [hload g i ⟨q, by omega, hd⟩] at hv
    exact h.last q g i hq hd hv

/-- Pages `gone` went to the free list, and no other page in use changed. -/
structure Freed (K : Layout) (gone : ℕ → Prop) (m m' : Machine) : Prop where
  heap : Heap K m'
  free : ∀ g, g ∈ m'.freelist ↔ g ∈ m.freelist ∨ gone g
  page : ∀ g, g % pgsize = 0 → ¬ gone g → g ∉ m.freelist → m'.page g = m.page g

theorem Freed.congr {gone gone' : ℕ → Prop} (h : Freed K gone m m') (hiff : ∀ g, gone g ↔ gone' g) :
    Freed K gone' m m' :=
  ⟨h.heap, fun g => by rw [h.free, hiff], fun g hal hg => h.page g hal fun hgone =>
    hg ((hiff g).mp hgone)⟩

/-- The pages in the trees of the entries before `i`. -/
def Machine.Before (m : Machine) (l f i g : ℕ) : Prop :=
  ∃ (j : Fin 512) (c : ℕ), j.val < i ∧ m.child f j = some c ∧ Node m.child l c g

/-- In the middle of freeing the table at `f`: the trees of the entries before `i` are freed,
and the entries from `i` on are as they were. -/
structure Freeing (K : Layout) (m : Machine) (l f i : ℕ) (m' : Machine) : Prop where
  heap : Heap K m'
  free : ∀ g, g ∈ m'.freelist ↔ g ∈ m.freelist ∨ m.Before l f i g
  page : ∀ g, g % pgsize = 0 → g ≠ f → ¬ m.Before l f i g → g ∉ m.freelist → m'.page g = m.page g
  rest : ∀ j : Fin 512, i ≤ j.val → m'.load64 (entry f j) = m.load64 (entry f j)

theorem before_succ (hi : i < 512) :
    m.Before l f (i + 1) g ↔
      m.Before l f i g ∨ ∃ c, m.child f ⟨i, hi⟩ = some c ∧ Node m.child l c g := by
  constructor
  · rintro ⟨j, c, hj, hc, hg⟩
    by_cases heq : j.val = i
    · obtain rfl : j = ⟨i, hi⟩ := Fin.ext heq
      exact .inr ⟨c, hc, hg⟩
    · exact .inl ⟨j, c, by omega, hc, hg⟩
  · rintro (⟨j, c, hj, hc, hg⟩ | ⟨c, hc, hg⟩)
    · exact ⟨j, c, by omega, hc, hg⟩
    · exact ⟨⟨i, hi⟩, c, Nat.lt_succ_self i, hc, hg⟩

theorem Freeing.skip (h : Freeing K m l f i m') (hi : i < 512) (hnone : m.child f ⟨i, hi⟩ = none) :
    Freeing K m l f (i + 1) m' := by
  have hiff : ∀ g, m.Before l f (i + 1) g ↔ m.Before l f i g := by
    intro g
    rw [before_succ hi, or_iff_left]
    rintro ⟨c, hc, -⟩
    rw [hnone] at hc
    cases hc
  refine ⟨h.heap, fun g => ?_, fun g hal hne hg hused => ?_, fun j hj => h.rest j (by omega)⟩
  · rw [hiff, h.free]
  · exact h.page g hal hne (fun hb => hg ((hiff g).mpr hb)) hused

theorem Freeing.root_notMem (h : Freeing K m l f i m') (hb : Bare K m (l + 1) f) :
    f ∉ m'.freelist := by
  intro hmem
  rcases (h.free f).mp hmem with hmem | ⟨j, d, -, hd, hg⟩
  · exact hb.used f node_root hmem
  · exact hb.sep.root_notMem hd hg

/-- One more tree is freed, and its entry cleared. -/
theorem Freeing.step {m₂ : Machine} (h : Freeing K m l f i m') (hb : Bare K m (l + 1) f)
    (hi : i < 512)
    (hc : m.child f ⟨i, hi⟩ = some c) (hfreed : Freed K (Node m.child l c) m' m₂) :
    Freeing K m l f (i + 1) (m₂.store64 (entry f ⟨i, hi⟩) 0) := by
  have hf := (hb.ram f node_root).aligned
  have hiff : ∀ g, m.Before l f (i + 1) g ↔ m.Before l f i g ∨ Node m.child l c g := by
    intro g
    rw [before_succ hi]
    simp only [hc, Option.some.injEq, exists_eq_left']
  refine ⟨⟨hfreed.heap.nodup, hfreed.heap.ram⟩, fun g => ?_, fun g hal hne hg hused => ?_,
    fun j hj => ?_⟩
  · rw [hiff, ← or_assoc, ← h.free]
    exact hfreed.free g
  · rw [hiff, not_or] at hg
    have hused' : g ∉ m'.freelist := fun hmem => ((h.free g).mp hmem).elim hused hg.1
    rw [page_store64_of_ne, hfreed.page g hal hg.2 hused', h.page g hal hne hg.1 hused]
    rw [entry_div hf]
    exact div_ne_of_ne hal hf hne
  · -- the entries after this one are untouched
    have hne : entry f j ≠ entry f ⟨i, hi⟩ := by
      intro heq
      rw [(entry_inj hf hf heq).2] at hj
      exact absurd hj (Nat.not_succ_le_self i)
    rw [load64_store64_of_ne _ (entry_aligned hf) (entry_aligned hf) hne, ← h.rest j (by omega)]
    refine load64_congr ?_
    rw [page_entry hf, page_entry hf]
    exact hfreed.page f hf (hb.sep.root_notMem hc) (h.root_notMem hb)

theorem Freeing.bare (h : Freeing K m l f i m') (hb : Bare K m (l + 1) f) (hi : i < 512)
    (hc : m.child f ⟨i, hi⟩ = some c) :
    Bare K m' l c ∧ ∀ g, Node m'.child l c g ↔ Node m.child l c g := by
  -- trees of different entries have no page in common
  have hnot : ∀ g, Node m.child l c g → ¬ m.Before l f i g := by
    rintro g hg ⟨j, d, hj, hd, hgd⟩
    have heq := hb.sep.children_disjoint hd hc hgd hg
    rw [heq] at hj
    exact Nat.lt_irrefl i hj
  have hchild := hb.child hc
  refine hchild.congr (fun g hg => ?_) fun g hg hmem => ?_
  · refine h.page g (hchild.ram g hg).aligned (fun heq => ?_) (hnot g hg) (hchild.used g hg)
    exact hb.sep.root_notMem hc (heq ▸ hg)
  · exact ((h.free g).mp hmem).elim (hchild.used g hg) (hnot g hg)

theorem Freeing.finish (h : Freeing K m l f 512 m') (hb : Bare K m (l + 1) f) :
    Freed K (Node m.child (l + 1) f) m (m'.release f) := by
  have hram := hb.ram f node_root
  have hiff : ∀ g, Node m.child (l + 1) f g ↔ g = f ∨ m.Before l f 512 g := by
    intro g
    rw [node_succ]
    exact or_congr_right ⟨fun ⟨j, d, hd, hg⟩ => ⟨j, d, j.isLt, hd, hg⟩,
      fun ⟨j, d, _, hd, hg⟩ => ⟨j, d, hd, hg⟩⟩
  refine ⟨h.heap.release hram (h.root_notMem hb), fun g => ?_, fun g hal hg hused => ?_⟩
  · rw [show (m'.release f).freelist = f :: m'.freelist from rfl, List.mem_cons, h.free, hiff]
    exact or_left_comm
  · rw [hiff, not_or] at hg
    rw [page_release_of_ne (div_ne_of_ne hal hram.aligned hg.1), h.page g hal hg.1 hg.2 hused]

/-- **freewalk** frees the pages of a table with no mappings, each once, and does not panic. -/
theorem ends_freewalk (hh : Heap K m) (hb : Bare K m l f) :
    Ends A (freewalk K (l + 1) f) m fun _ m' => Freed K (Node m.child l f) m m' := by
  -- on the level; below it the loop over the 512 entries has the invariant `Freeing`
  induction l generalizing m f with
  | zero =>
    have hram := hb.ram f node_root
    have hnode : ∀ g, g = f ↔ Node m.child 0 f g := by
      intro g
      refine ⟨fun heq => heq ▸ node_root, ?_⟩
      rintro ⟨q, hq, hd⟩
      rw [List.length_eq_zero_iff.mp (Nat.le_zero.mp hq)] at hd
      exact (Option.some.inj hd).symm
    rw [freewalk, ends_bind]
    refine (ends_forRange (I := fun _ s => s = m) ?_ rfl).mono ?_
    · -- every entry is invalid
      rintro j s hj rfl
      have hinv : ¬ s.load64 (f + 8 * j) &&& pteV ≠ 0 := hb.last [] f ⟨j, hj⟩ rfl rfl
      rw [ends_bind, load64, ends_read, if_neg fun h => hinv h.1, if_neg hinv]
      rfl
    · rintro - s rfl
      rw [ends_kfree hram]
      refine Freed.congr ⟨hh.release hram (hb.used f node_root), fun g => ?_,
        fun g hal hg _ => ?_⟩ hnode
      · rw [show (s.release f).freelist = f :: s.freelist from rfl, List.mem_cons, or_comm]
      · exact page_release_of_ne (div_ne_of_ne hal hram.aligned hg)
  | succ l ih =>
    rw [freewalk, ends_bind]
    refine (ends_forRange (I := fun i s => Freeing K m l f i s) ?_ ?_).mono fun _ s hs => ?_
    · intro i s hi hs
      have hrest : s.load64 (f + 8 * i) = m.load64 (entry f ⟨i, hi⟩) :=
        hs.rest ⟨i, hi⟩ (Nat.le_refl i)
      rw [ends_bind, load64, ends_read, hrest]
      by_cases hvalid : m.load64 (entry f ⟨i, hi⟩) &&& pteV ≠ 0
      · -- a valid entry leads to a table one level below
        have hzero := hb.inner [] f ⟨i, hi⟩ (Nat.succ_pos l) rfl hvalid
        have hc : m.child f ⟨i, hi⟩ = some (pte2pa (m.load64 (entry f ⟨i, hi⟩))) := by
          rw [Machine.child, if_pos hvalid]
        obtain ⟨hbare, hnode⟩ := hs.bare hb hi hc
        rw [if_pos ⟨hvalid, hzero⟩, ends_bind]
        refine (ih hs.heap hbare).mono fun _ m₂ hfreed => ?_
        exact hs.step hb hi hc (hfreed.congr hnode)
      · -- an invalid entry is passed over
        rw [if_neg fun h => hvalid h.1, if_neg hvalid, ends_pure]
        exact hs.skip hi (by rw [Machine.child, if_neg hvalid])
    · have hnone : ∀ g, ¬ m.Before l f 0 g := by
        rintro g ⟨j, -, hj, -⟩
        exact Nat.not_lt_zero j hj
      exact ⟨hh, fun g => (or_iff_left (hnone g)).symm, fun _ _ _ _ _ => rfl, fun _ _ => rfl⟩
    · rw [ends_kfree (hb.ram f node_root)]
      exact hs.finish hb

/-! ### The pages of a space -/

theorem Table.bare (h : Table K m root) (hnone : ∀ va, m.flat root va = none) :
    Bare K m 2 root := by
  refine ⟨h.sep, h.ram, h.used, fun q g i hq hd hv => ?_, fun q g i hq hd hv => ?_⟩
  · have hflags := h.inner q g i hq hd hv
    have hand : 0x3FF &&& (pteR ||| pteW ||| pteX) = pteR ||| pteW ||| pteX := by decide
    rw [pteFlags] at hflags
    rw [← hand, ← Nat.and_assoc, hflags]
    decide
  -- the address whose PTE this is
  obtain ⟨i₂, i₁, rfl⟩ : ∃ i₂ i₁, q = [i₂, i₁] := List.length_eq_two.mp hq
  have hlow : i₂.val < 256 := by
    refine h.low i₂ fun hzero => ?_
    rw [descend_cons, Machine.child, if_neg (not_not.mpr hzero), Option.bind_none] at hd
    cases hd
  have h₁ := i₁.isLt
  have h₀ := i.isLt
  have hva : i₂ * 2 ^ 30 + i₁ * 2 ^ 21 + i * 2 ^ 12 < maxva := by
    simp only [maxva, Nat.reduceAdd, Nat.reduceSub, Nat.reducePow]
    omega
  have hpx : px 2 (i₂ * 2 ^ 30 + i₁ * 2 ^ 21 + i * 2 ^ 12) = i₂ ∧
      px 1 (i₂ * 2 ^ 30 + i₁ * 2 ^ 21 + i * 2 ^ 12) = i₁ ∧
      px 0 (i₂ * 2 ^ 30 + i₁ * 2 ^ 21 + i * 2 ^ 12) = i := by
    refine ⟨Fin.ext ?_, Fin.ext ?_, Fin.ext ?_⟩ <;>
      (rw [px_val]; simp only [Nat.reduceMul, Nat.reduceAdd, Nat.reducePow]; omega)
  have hslot : m.slot root (i₂ * 2 ^ 30 + i₁ * 2 ^ 21 + i * 2 ^ 12) = some (entry g i) := by
    refine slot_eq_some.mpr ⟨g, ?_, by rw [hpx.2.2]⟩
    rw [path, pathFrom, pathFrom, pathFrom, hpx.1, hpx.2.1, hd]
  have hflat := flat_of_slot hva hslot
  rw [hnone, leaf, if_pos hv] at hflat
  cases hflat

/-- **uvmfree** frees the pages of a space and of its table. -/
theorem ends_uvmfree {sz : ℕ} (h : Space K m root (pgroundup sz))
    (htop : ∀ va, trapframe ≤ va → m.flat root va = none) :
    Ends A (uvmfree K root sz) m fun _ m' => Freed K (m.Owns root) m m' := by
  have hal := pgroundup_mod sz
  have hle := h.le
  -- both ways the table is left with no mappings
  have hempty : ∀ m₁, Space K m₁ root 0 → Moves K root m m₁ →
      Ends A (freewalk K 3 root) m₁ fun _ m' => Freed K (m.Owns root) m m' := by
    intro m₁ hs hmv
    have hnone : ∀ va, m₁.flat root va = none := by
      intro va
      by_cases hva : va < trapframe
      · have := mt (hs.mapped va hva).mp (Nat.not_lt_zero va)
        rwa [Option.not_isSome_iff_eq_none] at this
      · rw [hmv.top va (by omega), htop va (by omega)]
    have howns : ∀ f, m₁.Owns root f ↔ m₁.Tables root f := by
      intro f
      refine or_iff_left ?_
      rintro ⟨b, fl, -, -, -, hm⟩
      rw [hnone] at hm
      cases hm
    refine (ends_freewalk hs.heap (hs.table.bare hnone)).mono fun _ m' hfreed => ?_
    refine ⟨hfreed.heap, fun f => ?_, fun f hfal hf hused => ?_⟩
    · rw [hfreed.free, or_comm, or_comm (a := f ∈ m.freelist), ← hmv.keep, howns]
    · have hnot : ¬ (m₁.Owns root f ∨ f ∈ m₁.freelist) := fun hor =>
        ((hmv.keep f).mp hor).elim hf hused
      rw [hfreed.page f hfal (fun ht => hnot (.inl ((howns f).mpr ht))) fun hm => hnot (.inr hm),
        hmv.page f hfal hf hused]
  rw [uvmfree, ends_bind, ends_doIf]
  split
  · refine (h.ends_uvmunmap (Nat.zero_mod _) ?_).mono fun _ m₁ h₁ => hempty m₁ h₁.1 h₁.2.1
    simp only [pgsize] at *
    omega
  · rename_i hsz
    obtain rfl : sz = 0 := by omega
    exact hempty m h .refl

/-! ### The page table of a process -/

variable {m₀ : Machine} {stop va tf sz : ℕ}

/-- A user's memory with the two pages above it that the kernel uses on the way to and from
the user. -/
structure Image (K : Layout) (m : Machine) (root stop tf : ℕ) : Prop where
  space : Space K m root stop
  trampoline : m.flat root Vm.trampoline = some (K.trampoline, pteR ||| pteX ||| pteV)
  trapframe : m.flat root Vm.trapframe = some (tf, pteR ||| pteW ||| pteV)

/-- A page above the user's memory is taken out of the table, and stays in use. -/
theorem Space.ends_unmapTop (h : Space K m root stop) (hva : va % pgsize = 0) (hle : trapframe ≤ va)
    (hmax : va < maxva) (hleaf : IsLeaf m root va) :
    Ends A (uvmunmap K root va 1 false) m fun _ m' =>
      Space K m' root stop ∧ (∀ f, m'.Owns root f ↔ m.Owns root f) ∧
        (∀ f, f ∈ m'.freelist ↔ f ∈ m.freelist) ∧
        (∀ f, f % pgsize = 0 → ¬ m.Owns root f → m'.page f = m.page f) ∧
        ∀ vb, m'.flat root vb = unmapped (m.flat root) va (va + pgsize) vb := by
  have hbig : maxva + pgsize < 2 ^ 64 := by decide
  refine (Vm.ends_uvmunmap h.heap h.table hva (by omega) (by simp)).imp ?_ ?_
  · rintro e ⟨b, hb, hvb, hbv, hnot⟩
    obtain rfl : b = va := by
      simp only [pgsize] at *
      omega
    exact (hnot hleaf).elim
  rintro - m' ⟨hs, hflat⟩
  rw [Nat.one_mul] at hflat
  -- below the trapframe nothing changes
  have hlow : ∀ b, b < trapframe → m'.flat root b = m.flat root b := fun b hb => by
    rw [hflat, unmapped, if_neg (by omega)]
  have hfree : ∀ f, f ∈ m'.freelist ↔ f ∈ m.freelist := fun f => by
    rw [hs.free, Bool.false_eq_true, false_and, or_false]
  have howns : ∀ f, m'.Owns root f ↔ m.Owns root f := by
    refine fun f => or_congr (hs.tables f) ⟨?_, ?_⟩
    · rintro ⟨b, fl, hb, h0, hlt, hm⟩
      exact ⟨b, fl, hb, h0, hlt, (hlow b hlt) ▸ hm⟩
    · rintro ⟨b, fl, hb, h0, hlt, hm⟩
      exact ⟨b, fl, hb, h0, hlt, (hlow b hlt).trans hm⟩
  refine ⟨⟨hs.heap, hs.table, h.aligned, h.le, fun b hb => ?_, fun b pa fl hb hm => ?_, ?_⟩, howns,
    hfree, fun f hal hown => ?_, hflat⟩
  · rw [hlow b hb, h.mapped b hb]
  · rw [hlow b hb] at hm
    obtain ⟨hne, hram, hnot, hused⟩ := h.leaf b pa fl hb hm
    exact ⟨hne, hram, fun ht => hnot ((hs.tables pa).mp ht), fun hf => hused ((hfree pa).mp hf)⟩
  · intro b c pa fl fl' hb hc hm hm'
    rw [hlow b hb] at hm
    rw [hlow c hc] at hm'
    exact h.inj b c pa fl fl' hb hc hm hm'
  · exact hs.page f hal (fun ht => hown (.inl ht)) fun hf => Bool.false_ne_true hf.1

theorem trampoline_eq : trampoline = trapframe + pgsize ∧ trampoline + pgsize = maxva := by decide

/-- **proc_freepagetable** frees the pages of a process's memory and of its page table. -/
theorem ends_procFreepagetable (h : Image K m root (pgroundup sz) tf) :
    Ends A (procFreepagetable K root sz) m fun _ m' => Freed K (m.Owns root) m m' := by
  obtain ⟨htramp, hmax⟩ := trampoline_eq
  rw [procFreepagetable, ends_bind]
  refine (h.space.ends_unmapTop (by decide) (by omega) (by decide)
    ⟨_, _, h.trampoline, by decide⟩).mono fun _ m₁ h₁ => ?_
  obtain ⟨hs₁, howns₁, hfree₁, hpage₁, hflat₁⟩ := h₁
  have htf : m₁.flat root Vm.trapframe = some (tf, pteR ||| pteW ||| pteV) := by
    rw [hflat₁, unmapped, if_neg (by omega), h.trapframe]
  rw [ends_bind]
  refine (hs₁.ends_unmapTop (by decide) (Nat.le_refl _) (by decide)
    ⟨_, _, htf, by decide⟩).mono fun _ m₂ h₂ => ?_
  obtain ⟨hs₂, howns₂, hfree₂, hpage₂, hflat₂⟩ := h₂
  -- both pages above the user memory are unmapped now
  have htop : ∀ va, trapframe ≤ va → m₂.flat root va = none := by
    intro va hva
    rw [hflat₂, unmapped]
    split
    · rfl
    · rw [hflat₁, unmapped]
      split
      · rfl
      · rw [Machine.flat, if_neg (by omega)]
  refine (ends_uvmfree hs₂ htop).mono fun _ m' hfreed =>
    ⟨hfreed.heap, fun f => ?_, fun f hal hf hused => ?_⟩
  · rw [hfreed.free, hfree₂, hfree₁, howns₂, howns₁]
  · have hf₁ : ¬ m₁.Owns root f := mt (howns₁ f).mp hf
    rw [hfreed.page f hal (mt (howns₂ f).mp hf₁) (by rwa [hfree₂, hfree₁]), hpage₂ f hal hf₁,
      hpage₁ f hal hf]

/-- The space at `root` was made out of the free pages of `m₀`. -/
structure Built (m₀ m : Machine) (root : ℕ) : Prop where
  keep : ∀ f, m.Owns root f ∨ f ∈ m.freelist ↔ f ∈ m₀.freelist
  page : ∀ f, f % pgsize = 0 → f ∉ m₀.freelist → m.page f = m₀.page f

theorem Built.moves (h : Built m₀ m root) (hm : Moves K root m m') : Built m₀ m' root := by
  refine ⟨fun f => (hm.keep f).trans (h.keep f), fun f hal hf => ?_⟩
  have hnot := mt (h.keep f).mp hf
  rw [not_or] at hnot
  rw [hm.page f hal hnot.1 hnot.2, h.page f hal hf]

theorem Built.freed (h : Built m₀ m root) (hf : Freed K (m.Owns root) m m') :
    Freed K (fun _ => False) m₀ m' := by
  refine ⟨hf.heap, fun f => ?_, fun f hal _ hused => ?_⟩
  · rw [hf.free, or_comm, h.keep, or_false]
  · have hnot := mt (h.keep f).mp hused
    rw [not_or] at hnot
    rw [hf.page f hal hnot.1 hnot.2, h.page f hal hused]

theorem Built.grows (h : Built m₀ m root) (hg : Grows K root m m')
    (hflat : ∀ va, va < trapframe → m'.flat root va = m.flat root va) : Built m₀ m' root := by
  have hframes : ∀ f, m'.Frames root 0 trapframe f ↔ m.Frames root 0 trapframe f := by
    refine fun f => ⟨?_, ?_⟩
    · rintro ⟨b, fl, hb, h0, hlt, hm⟩
      exact ⟨b, fl, hb, h0, hlt, (hflat b hlt) ▸ hm⟩
    · rintro ⟨b, fl, hb, h0, hlt, hm⟩
      exact ⟨b, fl, hb, h0, hlt, (hflat b hlt).trans hm⟩
  refine ⟨fun f => ?_, fun f hal hf => ?_⟩
  · rw [← h.keep, Machine.Owns, Machine.Owns, hframes, or_right_comm, hg.keep, or_right_comm]
  · have hnot := mt (h.keep f).mp hf
    rw [not_or, Machine.Owns, not_or] at hnot
    rw [hg.page f hal hnot.1.1 hnot.2, h.page f hal hf]

theorem Built.unmapTop (h : Built m₀ m root) (howns : ∀ f, m'.Owns root f ↔ m.Owns root f)
    (hfree : ∀ f, f ∈ m'.freelist ↔ f ∈ m.freelist)
    (hpage : ∀ f, f % pgsize = 0 → ¬ m.Owns root f → m'.page f = m.page f) : Built m₀ m' root := by
  refine ⟨fun f => by rw [howns, hfree, h.keep], fun f hal hf => ?_⟩
  have hnot := mt (h.keep f).mp hf
  rw [not_or] at hnot
  rw [hpage f hal hnot.1, h.page f hal hf]

/-- **uvmcreate** makes an empty table out of a free page. -/
theorem ends_uvmcreate (hh : Heap K m) :
    Ends A uvmcreate m fun r m' => (r = 0 ∧ m' = m) ∨
      (r ≠ 0 ∧ Heap K m' ∧ Table K m' r ∧ (∀ va, m'.flat r va = none) ∧ Built m m' r) := by
  rw [uvmcreate, ends_bind]
  cases hfree : m.freelist with
  | nil =>
    rw [ends_kalloc_nil hfree, if_pos rfl, ends_pure]
    exact .inl ⟨rfl, rfl⟩
  | cons root rest =>
    have hram := hh.ram root (by rw [hfree]; exact List.mem_cons_self)
    have hnd := hh.nodup
    rw [hfree, List.nodup_cons] at hnd
    rw [ends_kalloc_cons hfree, if_neg hram.pos, ends_bind, memset, ends_write, ends_pure]
    have hpage : ∀ f, f % pgsize = 0 → f ≠ root →
        (({ m with freelist := rest }.memset root 5).memset root 0).page f = m.page f := by
      intro f hal hne
      have hdiv := div_ne_of_ne hal hram.aligned hne
      rw [page_memset_of_ne _ hdiv, page_memset_of_ne _ hdiv]
      rfl
    obtain ⟨htable, htables, hnone⟩ := Table.blank (K := K)
      (m := ({ m with freelist := rest }.memset root 5).memset root 0) hram hnd.1 page_memset_zero
    refine .inr ⟨hram.pos, ⟨hnd.2, fun f hf => hh.ram f ?_⟩, htable, hnone, fun f => ?_,
      fun f hal hf => hpage f hal fun heq => hf ?_⟩
    · rw [hfree]
      exact List.mem_cons_of_mem root hf
    · -- the new table maps nothing, so its root is all it owns
      have hno : ¬ (({ m with freelist := rest }.memset root 5).memset root 0).Frames root 0
          trapframe f := by
        rintro ⟨b, fl, -, -, -, hm⟩
        rw [hnone] at hm
        cases hm
      rw [Machine.Owns, or_iff_left hno, htables, hfree, List.mem_cons]
      rfl
    · rw [heq, hfree]
      exact List.mem_cons_self

theorem div_ne_of_lt {a : ℕ} (ha : a % pgsize = 0) (h : va < a) : ¬ va / pgsize = a / pgsize := by
  simp only [pgsize] at *
  omega

/-- **proc_pagetable** makes a table with no user memory out of free pages, or leaves memory as
it was. -/
theorem ends_procPagetable (hh : Heap K m) (htf : tf % pgsize = 0) (htf' : tf < 2 ^ 56) :
    Ends A (procPagetable K tf) m fun r m' =>
      (r = 0 ∧ Freed K (fun _ => False) m m') ∨ (r ≠ 0 ∧ Image K m' r 0 tf ∧ Built m m' r) := by
  obtain ⟨htramp, hmax⟩ := trampoline_eq
  have htrampal : trampoline % pgsize = 0 := by decide
  have htfal : trapframe % pgsize = 0 := by decide
  rw [procPagetable, ends_bind]
  refine (ends_uvmcreate hh).mono fun root m₁ h₁ => ?_
  rcases h₁ with ⟨rfl, rfl⟩ | ⟨hpos, hheap, htable, hnone, hbuilt⟩
  · rw [if_pos rfl]
    exact .inl ⟨rfl, hh, fun _ => (or_false _).to_iff.symm, fun _ _ _ _ => rfl⟩
  have htramp56 : K.trampoline < 2 ^ 56 := by
    have h₁ := K.trampoline_lt
    have h₂ := K.kend_le
    have hstop : phystop < 2 ^ 56 := by decide
    omega
  rw [if_neg hpos, ends_bind]
  refine (ends_mappages_page hheap htable htrampal (by decide) (hnone trampoline)
    K.trampoline_aligned
    htramp56 (show pteR ||| pteX < 1024 by decide)).mono fun r m₂ h₂ => ?_
  obtain ⟨hg₂, ⟨rfl, hflat₂⟩ | ⟨rfl, -, hflat₂⟩⟩ := h₂
  swap
  · -- no page for the table of the trampoline
    have hnone₂ : ∀ va, m₂.flat root va = none := fun va => (hflat₂ va).trans (hnone va)
    rw [if_pos (by decide), ends_bind]
    refine (ends_uvmfree (Space.of_none hg₂.heap hg₂.table fun va _ => hnone₂ va)
      fun va _ => hnone₂ va).mono fun _ m' hfreed => ?_
    exact .inl ⟨rfl, (hbuilt.grows hg₂ fun va _ => hflat₂ va).freed hfreed⟩
  have hlow₂ : ∀ va, va < trampoline → m₂.flat root va = none := fun va hva => by
    rw [hflat₂, if_neg (div_ne_of_lt htrampal hva), hnone]
  have hbuilt₂ : Built m m₂ root := hbuilt.grows hg₂ fun va hva => by
    rw [hlow₂ va (by omega), hnone]
  rw [if_neg (by decide), ends_bind]
  refine (ends_mappages_page hg₂.heap hg₂.table htfal (by decide)
    (hlow₂ trapframe (by decide)) htf htf'
    (show pteR ||| pteW < 1024 by decide)).mono fun r m₃ h₃ => ?_
  obtain ⟨hg₃, ⟨rfl, hflat₃⟩ | ⟨rfl, -, hflat₃⟩⟩ := h₃
  · have hlow₃ : ∀ va, va < trapframe → m₃.flat root va = none := fun va hva => by
      rw [hflat₃, if_neg (div_ne_of_lt htfal hva), hlow₂ va (by omega)]
    rw [if_neg (by decide), ends_pure]
    refine .inr ⟨hpos, ⟨Space.of_none hg₃.heap hg₃.table hlow₃, ?_, ?_⟩,
      hbuilt₂.grows hg₃ fun va hva => ?_⟩
    · rw [hflat₃, if_neg (by decide), hflat₂, if_pos rfl]
    · rw [hflat₃, if_pos rfl]
    · rw [hlow₃ va hva, hlow₂ va (by omega)]
  -- no page for the table of the trapframe
  have hspace₃ : Space K m₃ root 0 := Space.of_none hg₃.heap hg₃.table fun va hva => by
    rw [hflat₃, hlow₂ va (by omega)]
  have htop : m₃.flat root trampoline = some (K.trampoline, pteR ||| pteX ||| pteV) := by
    rw [hflat₃, hflat₂, if_pos rfl]
  rw [if_pos (by decide), ends_bind]
  refine (hspace₃.ends_unmapTop htrampal (by omega) (by decide)
    ⟨_, _, htop, by decide⟩).mono fun _ m₄ h₄ => ?_
  obtain ⟨hs₄, howns₄, hfree₄, hpage₄, hflat₄⟩ := h₄
  have hbuilt₄ : Built m m₄ root :=
    (hbuilt₂.grows hg₃ fun va _ => hflat₃ va).unmapTop howns₄ hfree₄ hpage₄
  rw [ends_bind]
  refine (ends_uvmfree hs₄ fun va hva => ?_).mono fun _ m' hfreed =>
    .inl ⟨rfl, hbuilt₄.freed hfreed⟩
  rw [hflat₄, unmapped]
  split
  · rfl
  · by_cases hva' : va < trampoline
    · rw [hflat₃, hlow₂ va hva']
    · rw [Machine.flat, if_neg (by omega)]

theorem made_of_procPagetable (hh : Heap K m) (htf : tf % pgsize = 0) (htf' : tf < 2 ^ 56)
    (hrun : procPagetable K tf m = .ok (root, m')) (hpos : root ≠ 0) :
    Image K m' root 0 tf ∧ Built m m' root := by
  have hmake : Ends (fun _ => False) (procPagetable K tf) m _ := ends_procPagetable hh htf htf'
  exact ((hmake.of_ok hrun).resolve_left fun hbad => hpos hbad.1).2

end Xv6.Vm
