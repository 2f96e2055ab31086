import Xv6.Vm.Table

/-!
# Page tables refine flat maps

What the operations on page tables do to the flat map, and to the pages of memory: `walk`
moves pages from the free list to the table, `mappages` also writes PTEs, and `uvmunmap`
moves mapped pages to the free list.  No page that is neither free nor concerned changes.

## Main definitions

* `Grows`, `Shrinks` — pages moved from the free list to the table, and to the free list.
* `Hangs` — a free page can be hung into an entry of the table.
* `mapped`, `unmapped` — the flat map with a range of pages added or taken away.

## Main results

* `ends_walk_true`, `ends_walkaddr`, `ends_mappages`, `ends_uvmunmap` — the operations.
* `page_table_refines_flat_map` — the page table as a flat map.
-/

namespace Xv6.Vm

open Kern Trie

variable {K : Layout} {m m' m'' : Machine} {root f g n va vb pte v : ℕ} {i : Fin 512}
  {pa a stop perm : ℕ} {doFree : Bool} {Q : ℕ → Machine → Prop}
  {p : List (Fin 512)} {rest : List ℕ} {A : Panic → Prop}

/-! ### Writing an entry of the last level -/

theorem Table.inner_ne (h : Table K m root) (hp : p.length < 2)
    (hf : descend m.child root p = some f) (hg : descend m.child root (path va) = some g) :
    f ≠ g := by
  rintro rfl
  have heq := h.sep p (path va) f (by omega) length_path.le hf hg
  have := congrArg List.length heq
  rw [length_path] at this
  omega

/-- **Writing the PTE of an address** changes the flat map at the pages of that address only. -/
theorem Table.store (h : Table K m root) (hva : va < maxva) (hs : m.slot root va = some pte)
    (hv : v < 2 ^ 64) :
    Table K (m.store64 pte v) root ∧
      (∀ f, (m.store64 pte v).Tables root f ↔ m.Tables root f) ∧
      (∀ vb, (m.store64 pte v).slot root vb = m.slot root vb) ∧
      ∀ vb, (m.store64 pte v).flat root vb =
        if vb / pgsize = va / pgsize then leaf v else m.flat root vb := by
  obtain ⟨g, hg, rfl⟩ := slot_eq_some.mp hs
  have hgr := h.ram g (tables_of_path hg)
  -- the entry lies in a page of the last level, so the pages above it keep their words
  have hload : ∀ q f j, q.length < 2 → descend m.child root q = some f →
      (m.store64 (entry g (px 0 va)) v).load64 (entry f j) = m.load64 (entry f j) := by
    intro q f j hq hf
    have hfr := h.ram f ⟨q, by omega, hf⟩
    refine load64_congr (page_store64_of_ne v ?_)
    rw [entry_div hfr.aligned, entry_div hgr.aligned]
    exact div_ne_of_ne hfr.aligned hgr.aligned (h.inner_ne hq hf hg)
  have hagree : ∀ q f j, q.length < 2 → descend m.child root q = some f →
      (m.store64 (entry g (px 0 va)) v).child f j = m.child f j := by
    intro q f j hq hf
    rw [Machine.child, Machine.child, hload q f j hq hf]
  have hnode : ∀ f, (m.store64 (entry g (px 0 va)) v).Tables root f ↔ m.Tables root f :=
    fun f => node_congr hagree
  have hslot : ∀ vb, (m.store64 (entry g (px 0 va)) v).slot root vb = m.slot root vb := by
    intro vb
    rw [Machine.slot, Machine.slot, descend_congr hagree length_path.le]
  refine ⟨⟨h.sep.congr hagree, fun f hf => h.ram f ((hnode f).mp hf),
    fun f hf => h.used f ((hnode f).mp hf), ?_, ?_⟩, hnode, hslot, ?_⟩
  · intro q f j hq hf hvalid
    rw [descend_congr hagree (by omega)] at hf
    rw [hload q f j hq hf] at hvalid ⊢
    exact h.inner q f j hq hf hvalid
  · intro j hvalid
    rw [hload [] root j (by decide) rfl] at hvalid
    exact h.low j hvalid
  intro vb
  by_cases hb : vb < maxva
  · rw [Machine.flat, if_pos hb, hslot]
    split
    · -- the page of the address itself, which reads the word stored
      rename_i hpage
      rw [slot_congr hpage, hs, Option.bind_some,
        load64_store64_self (entry_aligned hgr.aligned) hv]
    -- another page has another entry
    rename_i hpage
    rw [Machine.flat, if_pos hb]
    refine Option.bind_congr fun pte hpte => ?_
    obtain ⟨f, hf, rfl⟩ := slot_eq_some.mp hpte
    have hfr := h.ram f (tables_of_path hf)
    rw [load64_store64_of_ne v (entry_aligned hgr.aligned) (entry_aligned hfr.aligned)]
    intro heq
    exact hpage (h.slot_inj hb hva hpte (heq ▸ hs))
  · have hpage : ¬ vb / pgsize = va / pgsize := by
      simp only [maxva, pgsize, Nat.reduceAdd, Nat.reduceSub, Nat.reducePow] at *
      omega
    rw [if_neg hpage, Machine.flat, if_neg hb, Machine.flat, if_neg hb]

/-! ### Making page tables -/

/-- Pages went from the free list to the table, and no page outside the two changed. -/
structure Grows (K : Layout) (root : ℕ) (m m' : Machine) : Prop where
  heap : Heap K m'
  table : Table K m' root
  keep : ∀ f, m'.Tables root f ∨ f ∈ m'.freelist ↔ m.Tables root f ∨ f ∈ m.freelist
  mono : ∀ f, m.Tables root f → m'.Tables root f
  page : ∀ f, f % pgsize = 0 → ¬ m.Tables root f → f ∉ m.freelist → m'.page f = m.page f

theorem Grows.refl (hh : Heap K m) (ht : Table K m root) : Grows K root m m :=
  ⟨hh, ht, fun _ => Iff.rfl, fun _ hf => hf, fun _ _ _ _ => rfl⟩

theorem Grows.trans (h₁ : Grows K root m m') (h₂ : Grows K root m' m'') : Grows K root m m'' := by
  refine ⟨h₂.heap, h₂.table, fun f => (h₂.keep f).trans (h₁.keep f),
    fun f hf => h₂.mono f (h₁.mono f hf), fun f hal hf hfree => ?_⟩
  have hnot : ¬ (m'.Tables root f ∨ f ∈ m'.freelist) := fun hor =>
    ((h₁.keep f).mp hor).elim hf hfree
  rw [h₂.page f hal (fun ht => hnot (.inl ht)) fun hl => hnot (.inr hl), h₁.page f hal hf hfree]

theorem Grows.mem_freelist (h : Grows K root m m') (hf : f ∈ m'.freelist) : f ∈ m.freelist := by
  rcases (h.keep f).mp (.inr hf) with ht | hfree
  · exact absurd hf (h.table.used f (h.mono f ht))
  · exact hfree

/-- The memory after a page of the free list was hung into an entry. -/
def Machine.hang (m : Machine) (pte n : ℕ) (rest : List ℕ) : Machine :=
  (({ m with freelist := rest }.memset n 5).memset n 0).store64 pte (pa2pte n ||| pteV)

/-- A page `n` of the free list can be hung into entry `i` of the page at the path `p`. -/
structure Hangs (K : Layout) (m : Machine) (root : ℕ) (p : List (Fin 512)) (g : ℕ) (i : Fin 512)
    (n : ℕ) (rest : List ℕ) : Prop where
  table : Table K m root
  heap : Heap K m
  free : m.freelist = n :: rest
  at_path : descend m.child root p = some g
  above : p.length < 2
  vacant : ¬ m.load64 (entry g i) &&& pteV ≠ 0
  low : p = [] → i.val < 256

namespace Hangs

variable (h : Hangs K m root p g i n rest)
include h

theorem tables : m.Tables root g := ⟨p, h.above.le, h.at_path⟩

theorem aligned : g % pgsize = 0 := (h.table.ram g h.tables).aligned

theorem ram : K.Ram n := h.heap.ram n (by rw [h.free]; exact List.mem_cons_self)

theorem ne (hf : m.Tables root f) : f ≠ n := by
  rintro rfl
  exact h.table.used f hf (by rw [h.free]; exact List.mem_cons_self)

theorem page_of_ne (hal : f % pgsize = 0) (hfg : f ≠ g) (hfn : f ≠ n) :
    (m.hang (entry g i) n rest).page f = m.page f := by
  have hn := div_ne_of_ne hal h.ram.aligned hfn
  have hg : f / pgsize ≠ entry g i / pgsize := by
    rw [entry_div h.aligned]
    exact div_ne_of_ne hal h.aligned hfg
  rw [Machine.hang, page_store64_of_ne _ hg, page_memset_of_ne _ hn, page_memset_of_ne _ hn]
  rfl

theorem load64_new (j : Fin 512) : (m.hang (entry g i) n rest).load64 (entry n j) = 0 := by
  have hg : n / pgsize ≠ entry g i / pgsize := by
    rw [entry_div h.aligned]
    exact div_ne_of_ne h.ram.aligned h.aligned (h.ne h.tables).symm
  rw [Machine.load64, page_entry h.ram.aligned, Machine.hang, page_store64_of_ne _ hg,
    page_memset_zero, Bytes.getLE_zero]

theorem load64_self : (m.hang (entry g i) n rest).load64 (entry g i) = n / 4096 * 1024 + 1 := by
  have hlt := h.ram.lt
  have hword : pa2pte n ||| pteV = n / 4096 * 1024 + 1 := pa2pte_or (by decide)
  rw [Machine.hang, hword, load64_store64_self (entry_aligned h.aligned) (by omega)]

theorem load64_of_ne {j : Fin 512} (hf : m.Tables root f) (hne : ¬ (f = g ∧ j = i)) :
    (m.hang (entry g i) n rest).load64 (entry f j) = m.load64 (entry f j) := by
  have hal := (h.table.ram f hf).aligned
  have hn := div_ne_of_ne hal h.ram.aligned (h.ne hf)
  have hentry : entry f j ≠ entry g i := fun heq => hne (entry_inj hal h.aligned heq)
  rw [Machine.hang, load64_store64_of_ne _ (entry_aligned h.aligned) (entry_aligned hal) hentry]
  refine load64_congr ?_
  rw [page_entry hal, page_entry hal, page_memset_of_ne _ hn, page_memset_of_ne _ hn]
  rfl

theorem linked : Linked m.child (m.hang (entry g i) n rest).child 2 root g i n := by
  have hal := h.ram.aligned
  have hlt := h.ram.lt
  refine ⟨?_, fun hn => h.ne hn rfl, ?_, fun j => ?_, fun f j hf hne => ?_⟩
  · rw [Machine.child, if_neg h.vacant]
  · rw [Machine.child, h.load64_self, if_pos ((valid_iff _).mpr (by omega)), pte2pa_eq]
    congr 1
    simp only [pgsize] at hal
    omega
  · rw [Machine.child, h.load64_new, if_neg]
    decide
  · rw [Machine.child, Machine.child, h.load64_of_ne hf hne]

theorem descend_eq {q : List (Fin 512)} (hq : q.length ≤ 2) :
    descend (m.hang (entry g i) n rest).child root q =
      if q = p ++ [i] then some n else descend m.child root q :=
  h.table.sep.descend_link h.at_path h.above h.linked hq

theorem tables_iff :
    (m.hang (entry g i) n rest).Tables root f ↔ m.Tables root f ∨ f = n :=
  h.table.sep.node_link h.at_path h.above h.linked

theorem descend_self : descend (m.hang (entry g i) n rest).child root (p ++ [i]) = some n := by
  have hlen : (p ++ [i]).length ≤ 2 := by
    rw [List.length_append, List.length_singleton]
    exact h.above
  rw [h.descend_eq hlen, if_pos rfl]

theorem flat_eq : (m.hang (entry g i) n rest).flat root vb = m.flat root vb := by
  rw [Machine.flat, Machine.flat]
  split
  · rw [Machine.slot, Machine.slot, h.descend_eq length_path.le]
    split
    · rename_i hpath
      rw [Option.map_some, Option.bind_some, h.load64_new, leaf_zero, hpath, descend_concat,
        h.at_path, Option.bind_some, h.linked.vacant, Option.map_none, Option.bind_none]
    cases hd : descend m.child root (path vb) with
    | none => rw [Option.map_none, Option.bind_none, Option.bind_none]
    | some f =>
      have hfg : ¬ (f = g ∧ px 0 vb = i) := fun heq =>
        h.table.inner_ne h.above h.at_path hd heq.1.symm
      rw [Option.map_some, Option.bind_some, Option.bind_some,
        h.load64_of_ne (tables_of_path hd) hfg]
  · rfl

theorem grown_table : Table K (m.hang (entry g i) n rest) root := by
  have hnd := h.heap.nodup
  rw [h.free, List.nodup_cons] at hnd
  refine ⟨h.table.sep.link h.at_path h.above h.linked, fun f hf => ?_, fun f hf => ?_, ?_, ?_⟩
  · rcases h.tables_iff.mp hf with hf | rfl
    · exact h.table.ram f hf
    · exact h.ram
  · rcases h.tables_iff.mp hf with hf | rfl
    · intro hmem
      exact h.table.used f hf (by rw [h.free]; exact List.mem_cons_of_mem n hmem)
    · exact hnd.1
  · intro q f j hq hd hvalid
    rw [h.descend_eq (by omega)] at hd
    split at hd
    · -- the new page is blank
      obtain rfl := Option.some.inj hd
      rw [h.load64_new] at hvalid
      exact absurd rfl hvalid
    · by_cases hij : f = g ∧ j = i
      · -- the entry that was written leads to the new page
        rw [hij.1, hij.2, h.load64_self, pteFlags_eq, pteV]
        omega
      · rw [h.load64_of_ne ⟨q, by omega, hd⟩ hij] at hvalid ⊢
        exact h.table.inner q f j hq hd hvalid
  · intro j hvalid
    by_cases hij : root = g ∧ j = i
    · rw [hij.2]
      exact h.low (h.table.sep p [] g (by have := h.above; omega) (Nat.zero_le 2) h.at_path
        (congrArg some hij.1))
    · rw [h.load64_of_ne node_root hij] at hvalid
      exact h.table.low j hvalid

/-- **Hanging a page of the free list into the table** moves that page and changes no other. -/
theorem grows : Grows K root m (m.hang (entry g i) n rest) := by
  have hnd := h.heap.nodup
  rw [h.free, List.nodup_cons] at hnd
  have hrest : (m.hang (entry g i) n rest).freelist = rest := rfl
  refine ⟨⟨hnd.2, fun f hf => h.heap.ram f ?_⟩, h.grown_table, fun f => ?_,
    fun f hf => h.tables_iff.mpr (.inl hf), fun f hal hf hnf => ?_⟩
  · rw [h.free]
    exact List.mem_cons_of_mem n hf
  · rw [h.tables_iff, hrest, h.free, List.mem_cons, or_assoc]
  · rw [h.free, List.mem_cons, not_or] at hnf
    exact h.page_of_ne hal (fun heq => hf (heq ▸ h.tables)) hnf.1

end Hangs

/-! ### walk -/

theorem ends_kalloc_nil (h : m.freelist = []) : Ends A kalloc m Q ↔ Q 0 m := by
  simp only [Ends, kalloc, h]

theorem ends_kalloc_cons (h : m.freelist = n :: rest) :
    Ends A kalloc m Q ↔ Q n ({ m with freelist := rest }.memset n 5) := by
  simp only [Ends, kalloc, h]

theorem ends_walkFrom_false {level : ℕ} :
    Ends A (walkFrom va false level f) m Q ↔
      Q (((descend m.child f (pathFrom va level)).map (entry · (px 0 va))).getD 0) m := by
  induction level generalizing f with
  | zero => rfl
  | succ level ih =>
    rw [walkFrom, ends_bind, load64, ends_read, pathFrom, descend_cons, Machine.child]
    split
    · rw [ih, Option.bind_some]
    · rw [if_neg Bool.false_ne_true, ends_pure, Option.bind_none, Option.map_none, Option.getD_none]

/-- Without `alloc`, `walk` finds the entry and changes nothing. -/
theorem ends_walk_false (hva : va < maxva) :
    Ends A (walk root va false) m Q ↔ Q ((m.slot root va).getD 0) m := by
  rw [walk, if_neg (by omega), ends_walkFrom_false]
  rfl

/-- The loop of `walk`, from the page at a path of the address down. -/
theorem ends_walkFrom_true {level : ℕ} (hh : Heap K m) (ht : Table K m root) (hva : va < maxva)
    (hp : descend m.child root p = some f) (hpath : p ++ pathFrom va level = path va) :
    Ends A (walkFrom va true level f) m fun pte m' =>
      Grows K root m m' ∧ (∀ vb, m'.flat root vb = m.flat root vb) ∧
        (pte = 0 ∧ m'.freelist = [] ∨ m'.slot root va = some pte) := by
  -- on the level: `p` is the part of the path that was followed
  induction level generalizing f m p with
  | zero =>
    rw [pathFrom, List.append_nil] at hpath
    refine ⟨.refl hh ht, fun _ => rfl, .inr (slot_eq_some.mpr ⟨f, ?_, rfl⟩)⟩
    rw [← hpath, hp]
  | succ level ih =>
    have hlen : p.length < 2 := by
      have := congrArg List.length hpath
      rw [length_path, List.length_append, pathFrom, List.length_cons] at this
      omega
    have hpath' : (p ++ [px (level + 1) va]) ++ pathFrom va level = path va := by
      rw [← hpath, pathFrom, List.append_assoc, List.singleton_append]
    rw [walkFrom, ends_bind, load64, ends_read]
    split
    · rename_i hvalid
      -- the next table is there
      refine ih hh ht ?_ hpath'
      rw [descend_concat, hp, Option.bind_some, Machine.child, if_pos hvalid]
    rename_i hvac
    rw [if_pos rfl, ends_bind]
    cases hfree : m.freelist with
    | nil =>
      -- no page for it
      rw [ends_kalloc_nil hfree, if_pos rfl]
      exact ⟨.refl hh ht, fun _ => rfl, .inl ⟨rfl, hfree⟩⟩
    | cons n rest =>
      -- the table at the top has entries for user addresses in its lower half only
      have hlow : p = [] → (px (level + 1) va).val < 256 := by
        rintro rfl
        have hlevel : level + 1 = 2 := by
          have := congrArg List.length hpath
          rw [length_path, List.nil_append, length_pathFrom] at this
          exact this
        rw [hlevel, px_val]
        simp only [maxva, Nat.reduceAdd, Nat.reduceSub, Nat.reduceMul, Nat.reducePow] at hva ⊢
        omega
      have hang : Hangs K m root p f (px (level + 1) va) n rest :=
        ⟨ht, hh, hfree, hp, hlen, hvac, hlow⟩
      rw [ends_kalloc_cons hfree, if_neg hang.ram.pos, ends_bind, memset, ends_write, ends_bind,
        store64, ends_write]
      have hg := hang.grows
      refine (ih hg.heap hg.table hang.descend_self hpath').mono fun pte m' h' => ?_
      obtain ⟨hgrows, hflat, hend⟩ := h'
      exact ⟨hg.trans hgrows, fun vb => (hflat vb).trans hang.flat_eq, hend⟩

/-- **walk with alloc** makes page tables, and leaves the flat map as it is.  It fails only
when the free list is empty. -/
theorem ends_walk_true (hh : Heap K m) (ht : Table K m root) (hva : va < maxva) :
    Ends A (walk root va true) m fun pte m' =>
      Grows K root m m' ∧ (∀ vb, m'.flat root vb = m.flat root vb) ∧
        (pte = 0 ∧ m'.freelist = [] ∨ m'.slot root va = some pte) := by
  rw [walk, if_neg (by omega)]
  exact ends_walkFrom_true hh ht hva descend_nil (List.nil_append _)

/-! ### walkaddr -/

/-- The user page of an address, as `walkaddr` returns it. -/
def Machine.userPage (m : Machine) (root va : ℕ) : ℕ :=
  match m.flat root va with
  | some (pa, flags) => if flags &&& pteU = 0 then 0 else pa
  | none => 0

theorem flags_and_pteU (e : ℕ) : pteFlags e &&& pteU = e &&& pteU := by
  rw [pteFlags, Nat.and_assoc]
  rfl

/-- **walkaddr** returns what the flat map says of user pages. -/
theorem ends_walkaddr (hnode : ∀ f, m.Tables root f → f ≠ 0) :
    Ends A (walkaddr root va) m Q ↔ Q (m.userPage root va) m := by
  rw [walkaddr, Machine.userPage, Machine.flat]
  by_cases hva : va < maxva
  · rw [if_neg (by omega), if_pos hva, ends_bind, ends_walk_false hva]
    cases hs : m.slot root va with
    | none => rw [Option.getD_none, if_pos rfl, ends_pure, Option.bind_none]
    | some pte =>
      have hpte : pte ≠ 0 := by
        obtain ⟨f, hf, rfl⟩ := slot_eq_some.mp hs
        have := hnode f (tables_of_path hf)
        rw [entry]
        omega
      rw [Option.getD_some, if_neg hpte, ends_bind, load64, ends_read, Option.bind_some, leaf]
      by_cases hv : m.load64 pte &&& pteV = 0
      · rw [if_pos hv, if_neg (not_not.mpr hv), ends_pure]
      · rw [if_neg hv, if_pos hv]
        simp only [flags_and_pteU]
        by_cases hu : m.load64 pte &&& pteU = 0
        · rw [if_pos hu, if_pos hu, ends_pure]
        · rw [if_neg hu, if_neg hu, ends_pure]
  · rw [if_pos (by omega), if_neg hva, ends_pure]

/-! ### mappages -/

theorem Grows.store (hh : Heap K m) (ht : Table K m root) (hva : va < maxva)
    (hs : m.slot root va = some pte) (hv : v < 2 ^ 64) : Grows K root m (m.store64 pte v) := by
  obtain ⟨htable, htables, -, -⟩ := ht.store hva hs hv
  refine ⟨⟨hh.nodup, hh.ram⟩, htable, fun f => or_congr (htables f) Iff.rfl,
    fun f hf => (htables f).mpr hf, fun f hal hf _ => page_store64_of_ne v ?_⟩
  obtain ⟨g, hg, rfl⟩ := slot_eq_some.mp hs
  have hgt := tables_of_path hg
  have hgal := (ht.ram g hgt).aligned
  rw [entry_div hgal]
  exact div_ne_of_ne hal hgal fun heq => hf (heq ▸ hgt)

/-- The flat map with the pages from `a` to `stop` mapped to the pages from `pa` on. -/
def mapped (σ : ℕ → Option (ℕ × ℕ)) (a stop pa perm vb : ℕ) : Option (ℕ × ℕ) :=
  if a ≤ vb ∧ vb < stop then some (pa + (pgrounddown vb - a), perm ||| pteV) else σ vb

/-- Mapping one page, then the pages after it. -/
theorem mapped_step {σ τ : ℕ → Option (ℕ × ℕ)} (ha : a % pgsize = 0) (hstop : a + pgsize ≤ stop)
    (hτ : ∀ vb, τ vb = if vb / pgsize = a / pgsize then some (pa, perm ||| pteV) else σ vb) :
    mapped τ (a + pgsize) stop (pa + pgsize) perm vb = mapped σ a stop pa perm vb := by
  rw [mapped, mapped, hτ]
  by_cases hpage : vb / pgsize = a / pgsize
  · -- the page that was mapped
    have hin : a ≤ vb ∧ vb < stop ∧ ¬ a + pgsize ≤ vb ∧ pgrounddown vb = a := by
      simp only [pgsize, pgrounddown] at *
      omega
    rw [if_neg fun h => hin.2.2.1 h.1, if_pos hpage, if_pos ⟨hin.1, hin.2.1⟩, hin.2.2.2,
      Nat.sub_self, Nat.add_zero]
  rw [if_neg hpage]
  by_cases hin : a + pgsize ≤ vb ∧ vb < stop
  · have hge : a + pgsize ≤ pgrounddown vb := by
      simp only [pgsize, pgrounddown] at *
      omega
    have hsub : pa + pgsize + (pgrounddown vb - (a + pgsize))
        = pa + (pgrounddown vb - a) := by omega
    rw [if_pos hin, if_pos ⟨by omega, hin.2⟩, hsub]
  · have hout : ¬ (a ≤ vb ∧ vb < stop) := by
      simp only [pgsize] at *
      omega
    rw [if_neg hin, if_neg hout]

theorem ends_mappagesLoop {last fuel : ℕ} (hh : Heap K m) (ht : Table K m root)
    (ha : a % pgsize = 0) (hl : last % pgsize = 0) (hal : a ≤ last) (hlast : last < maxva)
    (hfuel : (last - a) / pgsize < fuel) (hpa : pa % pgsize = 0) (hpa' : pa + (last - a) < 2 ^ 64)
    (hperm : perm < 1024) :
    Ends (fun e => e = .mappagesRemap ∧ ∃ b, a ≤ b ∧ b ≤ last ∧ (m.flat root b).isSome)
      (mappagesLoop root last perm fuel a pa) m fun r m' =>
        Grows K root m m' ∧
          ((r = 0 ∧ ∀ vb, m'.flat root vb = mapped (m.flat root) a (last + pgsize) pa perm vb) ∨
            (r = -1 ∧ m'.freelist = [] ∧ ∃ stop, a ≤ stop ∧ stop ≤ last ∧
              ∀ vb, m'.flat root vb = mapped (m.flat root) a stop pa perm vb)) := by
  induction fuel generalizing m a pa with
  | zero => exact absurd hfuel (Nat.not_lt_zero _)
  | succ fuel ih =>
    rw [mappagesLoop, ends_bind]
    refine (ends_walk_true hh ht (by omega)).mono fun pte m₁ h₁ => ?_
    obtain ⟨hg, hflat, hend⟩ := h₁
    rcases hend with ⟨rfl, hnil⟩ | hslot
    · -- `walk` ran out of pages
      rw [if_pos rfl]
      refine ⟨hg, .inr ⟨rfl, hnil, a, Nat.le_refl a, hal, fun vb => ?_⟩⟩
      rw [hflat, mapped, if_neg (by omega)]
    rw [if_neg (hg.table.slot_ne_zero hslot), ends_bind, load64, ends_read]
    have hleaf := flat_of_slot (by omega) hslot
    split
    · rename_i hvalid
      -- the page is mapped already
      refine ⟨rfl, a, Nat.le_refl a, hal, ?_⟩
      rw [← hflat, hleaf, leaf, if_pos hvalid]
      rfl
    rw [ends_bind, store64, ends_write]
    have hword : pa2pte pa ||| perm ||| pteV < 2 ^ 64 := by
      have := perm_or_lt hperm
      rw [Nat.or_assoc, pa2pte_or this]
      omega
    have hg₂ := Grows.store hg.heap hg.table (by omega) hslot hword
    obtain ⟨-, -, -, hflat₂⟩ := hg.table.store (by omega) hslot hword
    have hτ : ∀ vb, (m₁.store64 pte (pa2pte pa ||| perm ||| pteV)).flat root vb =
        if vb / pgsize = a / pgsize then some (pa, perm ||| pteV) else m.flat root vb := by
      intro vb
      rw [hflat₂, leaf_mk hpa (by omega) hperm, hflat]
    split
    · rename_i heq
      -- this was the last page
      subst heq
      refine ⟨hg.trans hg₂, .inl ⟨rfl, fun vb => ?_⟩⟩
      rw [← mapped_step ha (Nat.le_refl _) hτ, mapped, if_neg (by omega)]
    rename_i hne
    have hstep : a + pgsize ≤ last := by
      simp only [pgsize] at *
      omega
    have hmax : maxva < 2 ^ 64 := by decide
    rw [u64, u64, Nat.mod_eq_of_lt (by omega), Nat.mod_eq_of_lt (by omega)]
    refine (ih hg₂.heap hg₂.table ?_ hstep ?_ ?_ ?_).imp ?_ ?_
    · rw [Nat.add_mod_right, ha]
    · simp only [pgsize] at *
      omega
    · rw [Nat.add_mod_right, hpa]
    · omega
    · -- a page found mapped later was mapped before the loop
      rintro e ⟨rfl, b, hb, hbl, hsome⟩
      refine ⟨rfl, b, by omega, hbl, ?_⟩
      have hpage : ¬ b / pgsize = a / pgsize := by
        simp only [pgsize] at *
        omega
      rwa [hτ, if_neg hpage] at hsome
    · rintro r m' ⟨hg₃, hcase⟩
      refine ⟨(hg.trans hg₂).trans hg₃, ?_⟩
      rcases hcase with ⟨rfl, hall⟩ | ⟨rfl, hnil, stop, hs₁, hs₂, hall⟩
      · exact .inl ⟨rfl, fun vb => (hall vb).trans (mapped_step ha (by omega) hτ)⟩
      · exact .inr ⟨rfl, hnil, stop, by omega, hs₂, fun vb =>
          (hall vb).trans (mapped_step ha hs₁ hτ)⟩

/-- **mappages** maps the pages of a range, or fails when the free list is empty.  It panics
only on an empty range and on a page that is mapped already. -/
theorem ends_mappages {size : ℕ} (hh : Heap K m) (ht : Table K m root)
    (hva : va + size - 1 < maxva) (hpa : pa % pgsize = 0) (hpa' : pa < 2 ^ 56)
    (hperm : perm < 1024) :
    Ends (fun e => e = .mappagesSize ∧ size = 0 ∨ e = .mappagesRemap ∧ 0 < size ∧
        ∃ b, pgrounddown va ≤ b ∧ b ≤ pgrounddown (va + size - 1) ∧ (m.flat root b).isSome)
      (mappages root va size pa perm) m fun r m' =>
        Grows K root m m' ∧
          ((r = 0 ∧ 0 < size ∧ ∀ vb, m'.flat root vb = mapped (m.flat root) (pgrounddown va)
              (pgrounddown (va + size - 1) + pgsize) pa perm vb) ∨
            (r = -1 ∧ m'.freelist = [] ∧
              ∃ stop, pgrounddown va ≤ stop ∧ stop ≤ pgrounddown (va + size - 1) ∧
              ∀ vb, m'.flat root vb = mapped (m.flat root) (pgrounddown va) stop pa perm vb)) := by
  rw [mappages]
  split
  · rename_i hsize
    exact .inl ⟨rfl, hsize⟩
  have hmax : maxva < 2 ^ 39 := by decide
  rw [u64, Nat.mod_eq_of_lt (by omega)]
  have hle := pgrounddown_mono (show va ≤ va + size - 1 by omega)
  have hlast := pgrounddown_le (va + size - 1)
  -- the loop ends within the bound: it goes over pages below `MAXVA`
  have hwalks : (pgrounddown (va + size - 1) - pgrounddown va) / pgsize < walks := by
    have : (pgrounddown (va + size - 1) - pgrounddown va) / pgsize ≤ maxva / pgsize :=
      Nat.div_le_div_right (by omega)
    rw [walks]
    omega
  refine (ends_mappagesLoop hh ht (pgrounddown_mod _) (pgrounddown_mod _) hle (by omega)
    hwalks hpa (by omega) hperm).imp ?_ ?_
  · rintro e ⟨rfl, hb⟩
    exact .inr ⟨rfl, by omega, hb⟩
  · rintro r m' ⟨hg, ⟨rfl, hall⟩ | hfail⟩
    · exact ⟨hg, .inl ⟨rfl, by omega, hall⟩⟩
    · exact ⟨hg, .inr hfail⟩

/-! ### uvmunmap -/

/-- The memory after a page was freed. -/
def Machine.release (m : Machine) (pa : ℕ) : Machine :=
  { m.memset pa 1 with freelist := pa :: m.freelist }

theorem ends_kfree (h : K.Ram pa) {Q : Unit → Machine → Prop} :
    Ends A (kfree K pa) m Q ↔ Q () (m.release pa) := by
  obtain ⟨h₁, h₂, h₃⟩ := h
  rw [kfree, if_neg (by omega), ends_write]
  rfl

theorem page_release_of_ne (h : f / pgsize ≠ pa / pgsize) :
    (m.release pa).page f = m.page f := page_memset_of_ne 1 h

theorem Heap.release (h : Heap K m) (hpa : K.Ram pa) (hfree : pa ∉ m.freelist) :
    Heap K (m.release pa) := by
  refine ⟨List.nodup_cons.mpr ⟨hfree, h.nodup⟩, fun f hf => ?_⟩
  rcases List.mem_cons.mp hf with rfl | hf
  · exact hpa
  · exact h.ram f hf

/-- Pages `gone` went to the free list; only they and the table's pages changed. -/
structure Shrinks (K : Layout) (root : ℕ) (gone : ℕ → Prop) (m m' : Machine) : Prop where
  heap : Heap K m'
  table : Table K m' root
  tables : ∀ f, m'.Tables root f ↔ m.Tables root f
  free : ∀ f, f ∈ m'.freelist ↔ f ∈ m.freelist ∨ gone f
  page : ∀ f, f % pgsize = 0 → ¬ m.Tables root f → ¬ gone f → m'.page f = m.page f

theorem Shrinks.trans {gone gone' : ℕ → Prop} (h₁ : Shrinks K root gone m m')
    (h₂ : Shrinks K root gone' m' m'') : Shrinks K root (fun f => gone f ∨ gone' f) m m'' := by
  refine ⟨h₂.heap, h₂.table, fun f => (h₂.tables f).trans (h₁.tables f), fun f => ?_,
    fun f hal hf hgone => ?_⟩
  · rw [h₂.free, h₁.free, or_assoc]
  · rw [not_or] at hgone
    rw [h₂.page f hal (fun ht => hf ((h₁.tables f).mp ht)) hgone.2, h₁.page f hal hf hgone.1]

/-- A page that can be freed: a page of memory in use that is not part of the table. -/
def Freeable (K : Layout) (m : Machine) (root pa : ℕ) : Prop :=
  K.Ram pa ∧ ¬ m.Tables root pa ∧ pa ∉ m.freelist

theorem Freeable.release (h : Freeable K m root pa) (hh : Heap K m) (ht : Table K m root) :
    Shrinks K root (· = pa) m (m.release pa) ∧
      (∀ vb, (m.release pa).slot root vb = m.slot root vb) ∧
      ∀ vb, (m.release pa).flat root vb = m.flat root vb := by
  obtain ⟨hram, hnot, hfree⟩ := h
  have hpage : ∀ f, f % pgsize = 0 → f ≠ pa → (m.release pa).page f = m.page f := fun f hal hne =>
    page_release_of_ne (div_ne_of_ne hal hram.aligned hne)
  have hne : ∀ f, m.Tables root f → f ≠ pa := fun f hf heq => hnot (heq ▸ hf)
  have hused : ∀ f, m.Tables root f → f ∉ (m.release pa).freelist := by
    intro f hf hmem
    rcases List.mem_cons.mp hmem with heq | hmem
    · exact hne f hf heq
    · exact ht.used f hf hmem
  obtain ⟨htable, htables, hslot, hflat⟩ :=
    ht.congr (fun f hf => hpage f (ht.ram f hf).aligned (hne f hf)) hused
  refine ⟨⟨hh.release hram hfree, htable, htables, fun f => ?_, fun f hal _ hf => hpage f hal hf⟩,
    hslot, hflat⟩
  rw [show (m.release pa).freelist = pa :: m.freelist from rfl, List.mem_cons, or_comm]

theorem Shrinks.store (hh : Heap K m) (ht : Table K m root) (hva : va < maxva)
    (hs : m.slot root va = some pte) (hv : v < 2 ^ 64) :
    Shrinks K root (fun _ => False) m (m.store64 pte v) := by
  have hg := Grows.store hh ht hva hs hv
  refine ⟨hg.heap, hg.table, (ht.store hva hs hv).2.1, fun f => (or_false _).to_iff.symm,
    fun f hal hf _ => ?_⟩
  by_cases hfree : f ∈ m.freelist
  · refine page_store64_of_ne v ?_
    obtain ⟨g, hgp, rfl⟩ := slot_eq_some.mp hs
    have hgt := tables_of_path hgp
    have hgal := (ht.ram g hgt).aligned
    rw [entry_div hgal]
    exact div_ne_of_ne hal hgal fun heq => hf (heq ▸ hgt)
  · exact hg.page f hal hf hfree

/-- A page of a range is mapped as `uvmunmap` wants it. -/
def IsLeaf (m : Machine) (root b : ℕ) : Prop :=
  ∃ pa flags, m.flat root b = some (pa, flags) ∧ flags ≠ pteV

/-- What the pages from `a` to `stop` are mapped to. -/
def Machine.Frames (m : Machine) (root a stop f : ℕ) : Prop :=
  ∃ b flags, b % pgsize = 0 ∧ a ≤ b ∧ b < stop ∧ m.flat root b = some (f, flags)

/-- The pages of a range can be freed, each once. -/
def FreeableRange (K : Layout) (m : Machine) (root a stop : ℕ) : Prop :=
  (∀ f, m.Frames root a stop f → Freeable K m root f) ∧
  ∀ b b' f flags flags', b % pgsize = 0 → b' % pgsize = 0 → a ≤ b → b < stop → a ≤ b' → b' < stop →
    m.flat root b = some (f, flags) → m.flat root b' = some (f, flags') → b = b'

/-- The flat map without the pages from `a` to `stop`. -/
def unmapped (σ : ℕ → Option (ℕ × ℕ)) (a stop vb : ℕ) : Option (ℕ × ℕ) :=
  if a ≤ vb ∧ vb < stop then none else σ vb

/-- The pages of a range are the first one's and those of the rest. -/
theorem frames_step {flags : ℕ} (ha : a % pgsize = 0) (hlt : a < stop)
    (hfirst : m.flat root a = some (pa, flags))
    (hτ : ∀ vb, m'.flat root vb = if vb / pgsize = a / pgsize then none else m.flat root vb) :
    m.Frames root a stop f ↔ f = pa ∨ m'.Frames root (a + pgsize) stop f := by
  have hpage : ∀ b, b % pgsize = 0 → a + pgsize ≤ b → ¬ b / pgsize = a / pgsize := by
    intro b hb hab
    simp only [pgsize] at *
    omega
  constructor
  · rintro ⟨b, fl, hb, hab, hbs, hflat⟩
    by_cases heq : b = a
    · rw [heq, hfirst] at hflat
      exact .inl (congrArg Prod.fst (Option.some.inj hflat)).symm
    · have hge : a + pgsize ≤ b := by
        simp only [pgsize] at *
        omega
      exact .inr ⟨b, fl, hb, hge, hbs, by rw [hτ, if_neg (hpage b hb hge), hflat]⟩
  · rintro (rfl | ⟨b, fl, hb, hab, hbs, hflat⟩)
    · exact ⟨a, flags, ha, Nat.le_refl a, hlt, hfirst⟩
    · rw [hτ, if_neg (hpage b hb hab)] at hflat
      exact ⟨b, fl, hb, by omega, hbs, hflat⟩

/-- Unmapping one page, then the pages after it. -/
theorem unmapped_step {σ τ : ℕ → Option (ℕ × ℕ)} (ha : a % pgsize = 0) (hstop : a + pgsize ≤ stop)
    (hτ : ∀ vb, τ vb = if vb / pgsize = a / pgsize then none else σ vb) :
    unmapped τ (a + pgsize) stop vb = unmapped σ a stop vb := by
  rw [unmapped, unmapped, hτ]
  by_cases hpage : vb / pgsize = a / pgsize
  · have hin : a ≤ vb ∧ vb < stop := by
      simp only [pgsize] at *
      omega
    rw [if_pos hpage, if_pos hin, ite_self]
  · have hiff : a + pgsize ≤ vb ∧ vb < stop ↔ a ≤ vb ∧ vb < stop := by
      simp only [pgsize] at *
      omega
    simp only [if_neg hpage, hiff]

/-- **One round of `uvmunmap`**, on a page that is mapped as it should be. -/
theorem Shrinks.unmap (hh : Heap K m) (ht : Table K m root) (ha : a < maxva)
    (hs : m.slot root a = some pte) (hfree : doFree → Freeable K m root pa)
    {Q : Unit → Machine → Prop} (hQ : ∀ m', Shrinks K root (fun f => doFree ∧ f = pa) m m' →
      (∀ vb, m'.flat root vb = if vb / pgsize = a / pgsize then none else m.flat root vb) →
      Q () m') :
    Ends A (do doIf doFree (kfree K pa); store64 pte 0) m Q := by
  rw [ends_bind, ends_doIf]
  cases doFree with
  | false =>
    rw [if_neg Bool.false_ne_true, store64, ends_write]
    refine hQ _ ?_ fun vb => ?_
    · have h := Shrinks.store hh ht ha hs (v := 0) (by decide)
      exact ⟨h.heap, h.table, h.tables, fun f => by rw [h.free]; simp, fun f hal hf _ =>
        h.page f hal hf fun hfalse => hfalse⟩
    · rw [(ht.store ha hs (by decide)).2.2.2, leaf_zero]
  | true =>
    have hf := hfree rfl
    obtain ⟨h₁, hslot, hflat₁⟩ := hf.release hh ht
    rw [if_pos rfl, ends_kfree hf.1, store64, ends_write]
    have hs₁ : (m.release pa).slot root a = some pte := by rw [hslot, hs]
    have h₂ := Shrinks.store h₁.heap h₁.table ha hs₁ (v := 0) (by decide)
    refine hQ _ ?_ fun vb => ?_
    · have h := h₁.trans h₂
      exact ⟨h.heap, h.table, h.tables, fun f => by rw [h.free]; simp, fun f hal ht' hne =>
        h.page f hal ht' (by simpa using hne)⟩
    · rw [(h₁.table.store ha hs₁ (by decide)).2.2.2, leaf_zero, hflat₁]

theorem ends_uvmunmapLoop {fuel : ℕ} (hh : Heap K m) (ht : Table K m root) (ha : a % pgsize = 0)
    (hstop : stop % pgsize = 0) (has : a ≤ stop) (hlt : stop < 2 ^ 64)
    (hfuel : (maxva - a) / pgsize < fuel) (hfree : doFree → FreeableRange K m root a stop) :
    Ends (fun _ => ∃ b, b % pgsize = 0 ∧ a ≤ b ∧ b < stop ∧ ¬ IsLeaf m root b)
      (uvmunmapLoop K root stop doFree fuel a) m fun _ m' =>
        Shrinks K root (fun f => doFree ∧ m.Frames root a stop f) m m' ∧
          ∀ vb, m'.flat root vb = unmapped (m.flat root) a stop vb := by
  induction fuel generalizing m a with
  | zero => exact absurd hfuel (Nat.not_lt_zero _)
  | succ fuel ih =>
    rw [uvmunmapLoop]
    by_cases hlt' : a < stop
    swap
    · -- nothing is left of the range
      rw [if_neg hlt']
      refine ⟨⟨hh, ht, fun _ => Iff.rfl, fun f => ?_, fun _ _ _ _ => rfl⟩, fun vb => ?_⟩
      · rw [or_iff_left]
        rintro ⟨-, b, flags, -, h₁, h₂, -⟩
        omega
      · rw [unmapped, if_neg (by omega)]
    rw [if_pos hlt']
    -- a page that is not mapped as it should be is one the panic may name
    have hbad : ¬ IsLeaf m root a → ∃ b, b % pgsize = 0 ∧ a ≤ b ∧ b < stop ∧ ¬ IsLeaf m root b :=
      fun hnot => ⟨a, ha, Nat.le_refl a, hlt', hnot⟩
    by_cases hmax : a < maxva
    swap
    · -- `walk` panics above `MAXVA`
      rw [ends_bind, walk, if_pos (by omega), ends_panic]
      refine hbad ?_
      rintro ⟨pa, flags, hflat, -⟩
      rw [Machine.flat, if_neg hmax] at hflat
      cases hflat
    rw [ends_bind, ends_walk_false hmax]
    cases hs : m.slot root a with
    | none =>
      rw [Option.getD_none, if_pos rfl, ends_panic]
      refine hbad ?_
      rintro ⟨pa, flags, hflat, -⟩
      rw [Machine.flat, if_pos hmax, hs] at hflat
      cases hflat
    | some pte =>
      have hleaf := flat_of_slot hmax hs
      rw [Option.getD_some, if_neg (ht.slot_ne_zero hs), ends_bind, load64, ends_read]
      split
      · rename_i hv
        refine hbad ?_
        rintro ⟨pa, flags, hflat, -⟩
        rw [hleaf, leaf, if_neg (not_not.mpr hv)] at hflat
        cases hflat
      rename_i hv
      rw [leaf, if_pos hv] at hleaf
      split
      · rename_i hflags
        refine hbad ?_
        rintro ⟨pa, flags, hflat, hne⟩
        rw [hleaf] at hflat
        exact hne ((congrArg Prod.snd (Option.some.inj hflat)).symm.trans hflags)
      -- the page is unmapped, and the loop goes on with the rest of the range
      have hfirst : doFree → Freeable K m root (pte2pa (m.load64 pte)) := fun hd =>
        (hfree hd).1 _ ⟨a, _, ha, Nat.le_refl a, hlt', hleaf⟩
      have hstep : a + pgsize ≤ stop := by
        simp only [pgsize] at *
        omega
      rw [ends_bind_assoc]
      refine Shrinks.unmap hh ht hmax hs hfirst fun m₁ h₁ hτ => ?_
      rw [u64, Nat.mod_eq_of_lt (by omega)]
      have hfr : ∀ f, m.Frames root a stop f ↔ f = pte2pa (m.load64 pte) ∨
          m₁.Frames root (a + pgsize) stop f := fun f => frames_step ha hlt' hleaf hτ
      have hpage : ∀ b, b % pgsize = 0 → a + pgsize ≤ b → ¬ b / pgsize = a / pgsize := by
        intro b hb hab
        simp only [pgsize] at *
        omega
      refine (ih h₁.heap h₁.table ?_ hstep ?_ ?_).imp ?_ ?_
      · rw [Nat.add_mod_right, ha]
      · simp only [pgsize, maxva, Nat.reduceAdd, Nat.reduceSub, Nat.reducePow] at *
        omega
      · intro hd
        obtain ⟨hall, hinj⟩ := hfree hd
        have hback : ∀ b fl f, b % pgsize = 0 → a + pgsize ≤ b →
            m₁.flat root b = some (f, fl) → m.flat root b = some (f, fl) := by
          intro b fl f hb hab hflat
          rwa [hτ, if_neg (hpage b hb hab)] at hflat
        refine ⟨fun f hf => ?_, fun b b' f fl fl' hb hb' hab hbs hab' hbs' h h' => ?_⟩
        · obtain ⟨hram, hnot, hused⟩ := hall f ((hfr f).mpr (.inr hf))
          refine ⟨hram, fun ht' => hnot ((h₁.tables f).mp ht'), fun hmem => ?_⟩
          rcases (h₁.free f).mp hmem with hmem | ⟨-, rfl⟩
          · exact hused hmem
          -- the page of `a` is not the page of another address
          obtain ⟨b, fl, hb, hab, hbs, hflat⟩ := hf
          have heq := hinj a b _ _ _ ha hb (Nat.le_refl a) hlt' (by omega) hbs hleaf
            (hback b fl _ hb hab hflat)
          simp only [pgsize] at hab
          omega
        · exact hinj b b' f fl fl' hb hb' (by omega) hbs (by omega) hbs'
            (hback b fl f hb hab h) (hback b' fl' f hb' hab' h')
      · rintro e ⟨b, hb, hab, hbs, hnot⟩
        refine ⟨b, hb, by omega, hbs, fun hl => hnot ?_⟩
        rwa [IsLeaf, hτ, if_neg (hpage b hb hab)]
      · rintro - m' ⟨h₂, hall⟩
        have h := h₁.trans h₂
        refine ⟨⟨h.heap, h.table, h.tables, fun f => ?_, fun f hal hf hne => ?_⟩, fun vb => ?_⟩
        · rw [h.free, hfr, ← and_or_left]
        · exact h.page f hal hf (by rwa [← and_or_left, ← hfr])
        · exact (hall vb).trans (unmapped_step ha hstep hτ)

/-- **uvmunmap** removes the pages of a range.  It panics only if one of them is not mapped
as it should be. -/
theorem ends_uvmunmap {npages : ℕ} (hh : Heap K m) (ht : Table K m root) (hva : va % pgsize = 0)
    (hlt : va + npages * pgsize < 2 ^ 64)
    (hfree : doFree → FreeableRange K m root va (va + npages * pgsize)) :
    Ends (fun _ => ∃ b, b % pgsize = 0 ∧ va ≤ b ∧ b < va + npages * pgsize ∧ ¬ IsLeaf m root b)
      (uvmunmap K root va npages doFree) m fun _ m' =>
        Shrinks K root (fun f => doFree ∧ m.Frames root va (va + npages * pgsize) f) m m' ∧
          ∀ vb, m'.flat root vb = unmapped (m.flat root) va (va + npages * pgsize) vb := by
  have hfuel : (maxva - va) / pgsize < walks := Nat.lt_succ_of_le (Nat.div_le_div_right (by omega))
  rw [uvmunmap, if_neg (not_not.mpr hva), u64, u64, Nat.mod_eq_of_lt
    (by omega : npages * pgsize < _), Nat.mod_eq_of_lt hlt]
  exact ends_uvmunmapLoop hh ht hva (by rw [Nat.add_mul_mod_self_right, hva]) (by omega) hlt
    hfuel hfree

/-! ### Empty tables -/

/-- A page of zeroes is an empty page table. -/
theorem Table.blank (hram : K.Ram root) (hfree : root ∉ m.freelist)
    (hpage : m.page root = Bytes.zero) :
    Table K m root ∧ (∀ f, m.Tables root f ↔ f = root) ∧ ∀ va, m.flat root va = none := by
  have hload : ∀ i, m.load64 (entry root i) = 0 := by
    intro i
    rw [Machine.load64, page_entry hram.aligned, hpage, Bytes.getLE_zero]
  have hchild : ∀ i, m.child root i = none := by
    intro i
    rw [Machine.child, hload, if_neg]
    decide
  have hdesc : ∀ q f, descend m.child root q = some f → q = [] ∧ f = root := by
    intro q f hq
    cases q with
    | nil => exact ⟨rfl, (Option.some.inj hq).symm⟩
    | cons i q =>
      rw [descend_cons, hchild, Option.bind_none] at hq
      cases hq
  have htables : ∀ f, m.Tables root f ↔ f = root := by
    intro f
    constructor
    · rintro ⟨q, -, hq⟩
      exact (hdesc q f hq).2
    · rintro rfl
      exact node_root
  refine ⟨⟨fun q q' f _ _ hq hq' => ?_, fun f hf => ?_, fun f hf => ?_, fun q f i _ hq hv => ?_,
    fun i hv => ?_⟩, htables, fun va => ?_⟩
  · rw [(hdesc q f hq).1, (hdesc q' f hq').1]
  · rwa [(htables f).mp hf]
  · rwa [(htables f).mp hf]
  · rw [(hdesc q f hq).2, hload] at hv
    exact absurd rfl hv
  · rw [hload] at hv
    exact absurd rfl hv
  · have hpath : descend m.child root (path va) = none := by
      rw [path, pathFrom, descend_cons, hchild, Option.bind_none]
    rw [Machine.flat, Machine.slot, hpath, Option.map_none, Option.bind_none, ite_self]

/-! ### The page table as a flat map -/

/-- The page at `a` has one of the `size` bytes from `va` on. -/
def Touches (va size a : ℕ) : Prop := 0 < size ∧ va < a + pgsize ∧ a < va + size

instance {size a : ℕ} : Decidable (Touches va size a) := inferInstanceAs (Decidable (_ ∧ _ ∧ _))

theorem touches_iff {size : ℕ} (hsize : 0 < size) (ha : a % pgsize = 0) :
    Touches va size a ↔ pgrounddown va ≤ a ∧ a < pgrounddown (va + size - 1) + pgsize := by
  simp only [Touches, pgrounddown, pgsize] at *
  omega

/-- **The three-level page table refines a flat map.**  `mappages` adds exactly the mappings of
the pages the range touches, and fails only with the allocator; `uvmunmap` removes exactly the
pages it is given; `walkaddr` reads the map at user pages; and `walk` with `alloc` leaves the
map as it is.  The tables stay well-formed. -/
theorem page_table_refines_flat_map (hh : Heap K m) (ht : Table K m root) :
    (∀ va size pa perm, va + size - 1 < maxva → pa % pgsize = 0 → pa < 2 ^ 56 → perm < 1024 →
      Ends (fun e => e = .mappagesSize ∧ size = 0 ∨ e = .mappagesRemap ∧
          ∃ a, a % pgsize = 0 ∧ Touches va size a ∧ (m.flat root a).isSome)
        (mappages root va size pa perm) m fun r m' => Heap K m' ∧ Table K m' root ∧
          ((r = 0 ∧ ∀ a, a % pgsize = 0 → a < maxva → m'.flat root a =
              if Touches va size a then some (pa + a - pgrounddown va, perm ||| pteV)
              else m.flat root a) ∨
            (r = -1 ∧ m'.freelist = []))) ∧
    (∀ va npages (doFree : Bool), va % pgsize = 0 → va + npages * pgsize < 2 ^ 64 →
      (doFree → FreeableRange K m root va (va + npages * pgsize)) →
      Ends (fun _ => ∃ i < npages, ¬ IsLeaf m root (va + i * pgsize))
        (uvmunmap K root va npages doFree) m fun _ m' => Heap K m' ∧ Table K m' root ∧
          ∀ a, a % pgsize = 0 → a < maxva → m'.flat root a =
            if va ≤ a ∧ a < va + npages * pgsize then none else m.flat root a) ∧
    (∀ va, Ends (fun _ => False) (walkaddr root va) m fun r m' => m' = m ∧
      (∀ pa flags, va < maxva → m.flat root (pgrounddown va) = some (pa, flags) →
        flags &&& pteU ≠ 0 → r = pa) ∧
      ((∀ pa flags, va < maxva → m.flat root (pgrounddown va) = some (pa, flags) →
        flags &&& pteU = 0) → r = 0)) ∧
    (∀ va < maxva, Ends (fun _ => False) (walk root va true) m fun _ m' =>
      Heap K m' ∧ Table K m' root ∧ ∀ a, m'.flat root a = m.flat root a) := by
  refine ⟨fun va size pa perm hva hpa hpa' hperm => ?_, fun va npages doFree hva hlt hfree => ?_,
    fun va => ?_, fun va hva => ?_⟩
  · -- `mappages`
    refine (ends_mappages hh ht hva hpa hpa' hperm).imp ?_ ?_
    · rintro e (hsize | ⟨rfl, hsize, b, h₁, h₂, hsome⟩)
      · exact .inl hsize
      · refine .inr ⟨rfl, pgrounddown b, pgrounddown_mod b, ?_, ?_⟩
        · rw [touches_iff hsize (pgrounddown_mod b)]
          simp only [pgrounddown, pgsize] at *
          omega
        · rwa [flat_congr_page (pgrounddown_div b)]
    · rintro r m' ⟨hg, ⟨rfl, hsize, hall⟩ | ⟨rfl, hnil, -⟩⟩
      · refine ⟨hg.heap, hg.table, .inl ⟨rfl, fun a ha _ => ?_⟩⟩
        rw [hall, mapped]
        simp only [touches_iff hsize ha]
        split
        · rename_i hin
          have hsub : pa + (pgrounddown a - pgrounddown va) = pa + a - pgrounddown va := by
            simp only [pgrounddown, pgsize] at *
            omega
          rw [hsub]
        · rfl
      · exact ⟨hg.heap, hg.table, .inr ⟨rfl, hnil⟩⟩
  · -- `uvmunmap`
    refine (ends_uvmunmap hh ht hva hlt hfree).imp ?_ ?_
    · rintro - ⟨b, hb, h₁, h₂, hnot⟩
      have hb' : va + (b - va) / pgsize * pgsize = b := by
        simp only [pgsize] at *
        omega
      refine ⟨(b - va) / pgsize, ?_, by rwa [hb']⟩
      simp only [pgsize] at *
      omega
    · rintro - m' ⟨hs, hall⟩
      exact ⟨hs.heap, hs.table, fun a _ _ => hall a⟩
  · -- `walkaddr`
    rw [ends_walkaddr fun f hf => (ht.ram f hf).pos, Machine.userPage]
    have hpage : m.flat root va = m.flat root (pgrounddown va) :=
      flat_congr_page (pgrounddown_div va).symm
    refine ⟨rfl, fun pa flags _ hflat hu => ?_, fun hno => ?_⟩
    · rw [hpage, hflat]
      exact if_neg hu
    cases hflat : m.flat root va with
    | none => rfl
    | some e =>
      have hva : va < maxva := by
        by_contra hge
        rw [Machine.flat, if_neg hge] at hflat
        cases hflat
      exact if_pos (hno e.1 e.2 hva (hpage ▸ hflat))
  · exact (ends_walk_true hh ht hva).mono fun _ m' h => ⟨h.1.heap, h.1.table, h.2.1⟩

/-- A kernel of two pages, the first of which is the trampoline. -/
def smallLayout : Layout where
  kend := kernbase + 2 * pgsize
  trampoline := kernbase
  trampoline_aligned := by decide
  kernbase_le := by decide
  trampoline_lt := by decide
  kend_le := by decide

/-- Memory full of zeroes, with the page after the kernel in use and two free pages. -/
def smallMachine : Machine where
  mem := fun _ => Bytes.zero
  freelist := [kernbase + 3 * pgsize, kernbase + 4 * pgsize]

theorem smallMachine_heap : Heap smallLayout smallMachine := by
  refine ⟨by decide, fun f hf => ?_⟩
  rcases List.mem_cons.mp hf with rfl | hf
  · exact ⟨by decide, by decide, by decide⟩
  · obtain rfl := List.mem_singleton.mp hf
    exact ⟨by decide, by decide, by decide⟩

theorem smallMachine_table : Table smallLayout smallMachine (kernbase + 2 * pgsize) ∧
    (∀ f, smallMachine.Tables (kernbase + 2 * pgsize) f ↔ f = kernbase + 2 * pgsize) ∧
      ∀ va, smallMachine.flat (kernbase + 2 * pgsize) va = none :=
  Table.blank ⟨by decide, by decide, by decide⟩ (by decide) rfl

/-- A page is mapped, which takes both free pages, found by `walkaddr`, and unmapped again. -/
theorem page_table_refines_flat_map_page : ∃ m₁ m₂,
    mappages (kernbase + 2 * pgsize) 0 pgsize kernbase (pteR ||| pteU) smallMachine = .ok (0, m₁) ∧
      m₁.flat (kernbase + 2 * pgsize) 0 = some (kernbase, pteR ||| pteU ||| pteV) ∧
      Ends (fun _ => False) (walkaddr (kernbase + 2 * pgsize) 0) m₁ (fun r _ => r = kernbase) ∧
      uvmunmap smallLayout (kernbase + 2 * pgsize) 0 1 false m₁ = .ok ((), m₂) ∧
      m₂.flat (kernbase + 2 * pgsize) 0 = none := by
  have hrun : (mappages (kernbase + 2 * pgsize) 0 pgsize kernbase (pteR ||| pteU)
    smallMachine).check
      (fun r => r.1 = 0 && (uvmunmap smallLayout (kernbase + 2 * pgsize) 0 1 false r.2).check
        fun _ => true) = true := by decide +kernel
  obtain ⟨⟨r, m₁⟩, hmap, hrun⟩ := Outcome.exists_of_check hrun
  obtain ⟨hr, hrun⟩ := Bool.and_eq_true_iff.mp hrun
  obtain rfl : r = 0 := of_decide_eq_true hr
  obtain ⟨⟨⟨⟩, m₂⟩, hunmap, -⟩ := Outcome.exists_of_check hrun
  have hheap := smallMachine_heap
  obtain ⟨htable, -, -⟩ := smallMachine_table
  -- the memory is not looked into any more
  generalize smallMachine = m at *
  obtain ⟨hmaps, -⟩ := page_table_refines_flat_map hheap htable
  obtain ⟨hheap₁, htable₁, ⟨-, hflat⟩ | ⟨hbad, -⟩⟩ :=
    (hmaps 0 pgsize kernbase (pteR ||| pteU) (by decide) (by decide) (by decide)
      (by decide)).of_ok hmap
  swap
  · cases hbad
  have hzero : m₁.flat (kernbase + 2 * pgsize) 0 = some (kernbase, pteR ||| pteU ||| pteV) :=
    hflat 0 rfl (by decide)
  obtain ⟨-, hunmaps, hwalkaddr, -⟩ := page_table_refines_flat_map hheap₁ htable₁
  refine ⟨m₁, m₂, hmap, hzero, (hwalkaddr 0).mono fun r _ h => ?_, hunmap, ?_⟩
  · exact h.2.1 kernbase _ (by decide) hzero (by decide)
  · exact ((hunmaps 0 1 false rfl (by decide) nofun).of_ok hunmap).2.2 0 rfl (by decide)

end Xv6.Vm
