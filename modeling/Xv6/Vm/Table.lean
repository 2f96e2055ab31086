import Xv6.Lib.Trie
import Xv6.Vm.Model
import Mathlib.Data.Nat.Bitwise

/-!
# Page tables as trees

A page table is a trie of page-table pages in physical memory: two levels of pages that refer
to further pages, and a last level of entries that map pages.  Read through, it is a flat map
from virtual addresses to physical pages with flags.

## Main definitions

* `Machine.child`, `Machine.Tables` — the pages an entry refers to, and the pages of a table.
* `Machine.slot`, `Machine.flat` — the PTE of a virtual address, and the flat map.
* `Heap`, `Table` — well-formed free lists and page tables.

## Main results

* `leaf_mk` — a PTE holds the physical page and the flags it was made from.
* `Table.slot_inj` — different pages have different PTEs.
* `Table.congr` — a table depends only on its own pages.
-/

namespace Xv6.Vm

open Kern Trie

/-! ### Words of a page table -/

theorem pte2pa_eq (e : ℕ) : pte2pa e = e / 1024 * 4096 % 2 ^ 64 := by
  rw [pte2pa, u64, Nat.shiftRight_eq_div_pow, Nat.shiftLeft_eq]

theorem pteFlags_eq (e : ℕ) : pteFlags e = e % 1024 := Nat.and_two_pow_sub_one_eq_mod e 10

theorem pa2pte_or {pa flags : ℕ} (hf : flags < 1024) :
    pa2pte pa ||| flags = pa / 4096 * 1024 + flags := by
  rw [pa2pte, ← Nat.shiftLeft_add_eq_or_of_lt (b := flags) (i := 10) hf, Nat.shiftLeft_eq,
    Nat.shiftRight_eq_div_pow]

theorem perm_or_lt {perm : ℕ} (hp : perm < 1024) : perm ||| pteV < 1024 :=
  Nat.or_lt_two_pow (n := 10) hp (by decide)

theorem valid_iff (e : ℕ) : e &&& pteV ≠ 0 ↔ e % 2 = 1 := by
  rw [pteV, Nat.shiftLeft_zero, Nat.and_one_is_mod]
  omega

theorem px_val (level va : ℕ) : (px level va : ℕ) = va / 2 ^ (12 + 9 * level) % 512 := by
  rw [px, Fin.val_ofNat, Nat.shiftRight_eq_div_pow]

theorem pgrounddown_mod (a : ℕ) : pgrounddown a % pgsize = 0 := Nat.mul_mod_left _ _

theorem pgrounddown_le (a : ℕ) : pgrounddown a ≤ a := Nat.div_mul_le_self a pgsize

theorem pgrounddown_div (a : ℕ) : pgrounddown a / pgsize = a / pgsize :=
  Nat.mul_div_cancel _ (by decide)

theorem pgrounddown_mono {a b : ℕ} (h : a ≤ b) : pgrounddown a ≤ pgrounddown b :=
  Nat.mul_le_mul_right _ (Nat.div_le_div_right h)

/-- The three indices of an address determine its page. -/
theorem page_eq_of_px {a b : ℕ} (ha : a < maxva) (hb : b < maxva) (h₂ : px 2 a = px 2 b)
    (h₁ : px 1 a = px 1 b) (h₀ : px 0 a = px 0 b) : a / pgsize = b / pgsize := by
  have e₂ := congrArg Fin.val h₂
  have e₁ := congrArg Fin.val h₁
  have e₀ := congrArg Fin.val h₀
  simp only [px_val, Nat.reduceMul, Nat.reduceAdd, Nat.reducePow] at e₂ e₁ e₀
  simp only [maxva, pgsize, Nat.reduceAdd, Nat.reduceSub, Nat.reducePow] at ha hb ⊢
  omega

/-! ### Pages and words of memory -/

section Memory

variable {m : Machine} {a b f g : ℕ} {i j : Fin 512}

theorem page_setPage_self (x : Bytes pgsize) : (m.setPage a x).page a = x :=
  Function.update_self _ _ _

theorem page_setPage_of_ne (x : Bytes pgsize) (h : b / pgsize ≠ a / pgsize) :
    (m.setPage a x).page b = m.page b := Function.update_of_ne h _ _

theorem page_store64_of_ne (v : ℕ) (h : b / pgsize ≠ a / pgsize) :
    (m.store64 a v).page b = m.page b := page_setPage_of_ne _ h

theorem page_memset_of_ne (c : UInt8) (h : b / pgsize ≠ a / pgsize) :
    (m.memset a c).page b = m.page b := page_setPage_of_ne _ h

theorem page_storeBytes_of_ne (l : List UInt8) (h : b / pgsize ≠ a / pgsize) :
    (m.storeBytes a l).page b = m.page b := page_setPage_of_ne _ h

theorem get_page_memset {k : ℕ} (hk : k < pgsize) (c : UInt8) :
    ((m.memset a c).page a).get k = c := by
  rw [Machine.memset, page_setPage_self]
  have hlen : k < (List.replicate pgsize c).length := by rwa [List.length_replicate]
  have hget : ((Bytes.zero : Bytes pgsize).blit 0 (List.replicate pgsize c)).get (0 + k) = _ :=
    Bytes.get_blit_of_lt Bytes.zero (List.replicate pgsize c) (by simp) hlen
  rw [Nat.zero_add] at hget
  rw [hget, List.get_eq_getElem, List.getElem_replicate]

theorem page_memset_zero : (m.memset a 0).page a = Bytes.zero :=
  Bytes.ext_get fun k hk => by rw [get_page_memset hk, Bytes.get_zero]

theorem load64_congr {m' : Machine} (h : m'.page a = m.page a) : m'.load64 a = m.load64 a := by
  rw [Machine.load64, Machine.load64, h]

theorem load64_lt : m.load64 a < 2 ^ 64 := Bytes.getLE_lt _ _ 8

theorem load64_store64_of_ne (v : ℕ) (ha : a % 8 = 0) (hb : b % 8 = 0) (h : b ≠ a) :
    (m.store64 a v).load64 b = m.load64 b := by
  by_cases hp : b / pgsize = a / pgsize
  · have hpage : ∀ n : Machine, n.page b = n.page a :=
      fun n => by rw [Machine.page, Machine.page, hp]
    rw [Machine.load64, Machine.load64, hpage, hpage, Machine.store64, page_setPage_self]
    refine Bytes.getLE_putLE_of_disjoint _ v ?_
    simp only [pgsize] at *
    omega
  · exact load64_congr (page_store64_of_ne v hp)

theorem load64_store64_self {v : ℕ} (ha : a % 8 = 0) (hv : v < 2 ^ 64) :
    (m.store64 a v).load64 a = v := by
  rw [Machine.load64, Machine.store64, page_setPage_self,
    Bytes.getLE_putLE_self _ (by simp only [pgsize]; omega)]
  exact Nat.mod_eq_of_lt hv

theorem entry_aligned (hf : f % pgsize = 0) : entry f i % 8 = 0 := by
  simp only [entry, pgsize] at *
  omega

theorem entry_div (hf : f % pgsize = 0) : entry f i / pgsize = f / pgsize := by
  have := i.isLt
  simp only [entry, pgsize] at *
  omega

theorem entry_inj (hf : f % pgsize = 0) (hg : g % pgsize = 0) (h : entry f i = entry g j) :
    f = g ∧ i = j := by
  have hi := i.isLt
  have hj := j.isLt
  simp only [entry, pgsize] at *
  exact ⟨by omega, Fin.ext (by omega)⟩

theorem div_ne_of_ne (hf : f % pgsize = 0) (hg : g % pgsize = 0) (h : f ≠ g) :
    f / pgsize ≠ g / pgsize := by
  simp only [pgsize] at *
  omega

theorem page_entry (hf : f % pgsize = 0) : m.page (entry f i) = m.page f := by
  rw [Machine.page, Machine.page, entry_div hf]

end Memory

/-! ### The tree and its flat map -/

/-- The page-table page an entry refers to. -/
def Machine.child (m : Machine) (f : ℕ) (i : Fin 512) : Option ℕ :=
  if m.load64 (entry f i) &&& pteV ≠ 0 then some (pte2pa (m.load64 (entry f i))) else none

/-- The indices of a virtual address from a level down to level 1. -/
def pathFrom (va : ℕ) : ℕ → List (Fin 512)
  | 0 => []
  | level + 1 => px (level + 1) va :: pathFrom va level

/-- The path from the root to the last page table of a virtual address. -/
def path (va : ℕ) : List (Fin 512) := pathFrom va 2

/-- The address of the PTE of a virtual address. -/
def Machine.slot (m : Machine) (root va : ℕ) : Option ℕ :=
  (descend m.child root (path va)).map fun f => entry f (px 0 va)

/-- What a PTE maps its page to: a physical page, with flags. -/
def leaf (e : ℕ) : Option (ℕ × ℕ) :=
  if e &&& pteV ≠ 0 then some (pte2pa e, pteFlags e) else none

/-- **The flat map**: what a virtual address below `MAXVA` is mapped to. -/
def Machine.flat (m : Machine) (root va : ℕ) : Option (ℕ × ℕ) :=
  if va < maxva then (m.slot root va).bind fun pte => leaf (m.load64 pte) else none

/-- The pages the allocator hands out. -/
def Layout.Ram (K : Layout) (f : ℕ) : Prop := f % pgsize = 0 ∧ K.kend ≤ f ∧ f < phystop

/-- The page-table pages of a table. -/
abbrev Machine.Tables (m : Machine) (root f : ℕ) : Prop := Node m.child 2 root f

/-- The free list holds pages of memory, each once. -/
structure Heap (K : Layout) (m : Machine) : Prop where
  nodup : m.freelist.Nodup
  ram : ∀ f ∈ m.freelist, K.Ram f

/-- **A well-formed page table**: its pages are pages of memory in use, each hangs in one
place, the entries above the last level carry no flags but `PTE_V`, and the upper half of the
root, which is for addresses from `MAXVA` on, is empty. -/
structure Table (K : Layout) (m : Machine) (root : ℕ) : Prop where
  sep : Separate m.child 2 root
  ram : ∀ f, m.Tables root f → K.Ram f
  used : ∀ f, m.Tables root f → f ∉ m.freelist
  inner : ∀ p f i, p.length < 2 → descend m.child root p = some f →
    m.load64 (entry f i) &&& pteV ≠ 0 → pteFlags (m.load64 (entry f i)) = pteV
  low : ∀ i : Fin 512, m.load64 (entry root i) &&& pteV ≠ 0 → i.val < 256

section Tree

variable {K : Layout} {m m' : Machine} {root f g n va vb pte : ℕ} {i : Fin 512} {p : List (Fin 512)}

theorem Layout.Ram.aligned (h : K.Ram f) : f % pgsize = 0 := h.1

theorem Layout.Ram.pos (h : K.Ram f) : f ≠ 0 := by
  have h₁ := h.2.1
  have h₂ := K.trampoline_lt
  have h₃ := K.kernbase_le
  simp only [kernbase, pgsize] at *
  omega

theorem Layout.Ram.lt (h : K.Ram f) : f < 2 ^ 32 := by
  have hstop : phystop < 2 ^ 32 := by decide
  exact lt_trans h.2.2 hstop

@[simp] theorem leaf_zero : leaf 0 = none := by
  rw [leaf, if_neg]
  decide

theorem leaf_mk {pa perm : ℕ} (hal : pa % pgsize = 0) (hpa : pa < 2 ^ 64) (hperm : perm < 1024) :
    leaf (pa2pte pa ||| perm ||| pteV) = some (pa, perm ||| pteV) := by
  have hlt := perm_or_lt hperm
  have hodd : (perm ||| pteV) % 2 = 1 := by
    rw [pteV, Nat.shiftLeft_zero, Nat.or_mod_two_eq_one]
    exact .inr rfl
  simp only [pgsize] at hal
  rw [Nat.or_assoc, pa2pte_or hlt, leaf, if_pos ((valid_iff _).mpr (by omega)), pte2pa_eq,
    pteFlags_eq]
  congr 2 <;> omega

theorem length_pathFrom {level : ℕ} : (pathFrom va level).length = level := by
  induction level with
  | zero => rfl
  | succ level ih => rw [pathFrom, List.length_cons, ih]

theorem length_path : (path va).length = 2 := length_pathFrom

theorem tables_of_path (h : descend m.child root (path va) = some f) : m.Tables root f :=
  ⟨path va, length_path.le, h⟩

theorem child_congr (hf : f % pgsize = 0) (h : m'.page f = m.page f) :
    m'.child f i = m.child f i := by
  have hload : m'.load64 (entry f i) = m.load64 (entry f i) := by
    refine load64_congr ?_
    rw [page_entry hf, page_entry hf, h]
  rw [Machine.child, Machine.child, hload]

theorem slot_eq_some : m.slot root va = some pte ↔
    ∃ f, descend m.child root (path va) = some f ∧ pte = entry f (px 0 va) := by
  rw [Machine.slot, Option.map_eq_some_iff]
  constructor
  · rintro ⟨f, hf, rfl⟩
    exact ⟨f, hf, rfl⟩
  · rintro ⟨f, hf, rfl⟩
    exact ⟨f, hf, rfl⟩

theorem flat_of_slot (hva : va < maxva) (h : m.slot root va = some pte) :
    m.flat root va = leaf (m.load64 pte) := by
  rw [Machine.flat, if_pos hva, h, Option.bind_some]

theorem slot_congr (h : va / pgsize = vb / pgsize) : m.slot root va = m.slot root vb := by
  have hpx : ∀ level, px level va = px level vb := by
    intro level
    refine Fin.ext ?_
    simp only [px_val, pow_add, ← Nat.div_div_eq_div_mul]
    simp only [pgsize] at h
    rw [show 2 ^ 12 = 4096 by rfl, h]
  rw [Machine.slot, Machine.slot, path, path, pathFrom, pathFrom, pathFrom, pathFrom, pathFrom,
    pathFrom, hpx, hpx, hpx]

theorem flat_congr_page (h : va / pgsize = vb / pgsize) : m.flat root va = m.flat root vb := by
  have hiff : va < maxva ↔ vb < maxva := by
    simp only [maxva, pgsize, Nat.reduceAdd, Nat.reduceSub, Nat.reducePow] at *
    omega
  rw [Machine.flat, Machine.flat, slot_congr h]
  simp only [hiff]

theorem Table.slot_inj (h : Table K m root) (ha : va < maxva) (hb : vb < maxva)
    (hsa : m.slot root va = some pte) (hsb : m.slot root vb = some pte) :
    va / pgsize = vb / pgsize := by
  obtain ⟨f, hf, hpf⟩ := slot_eq_some.mp hsa
  obtain ⟨g, hg, hpg⟩ := slot_eq_some.mp hsb
  have hrf := h.ram f (tables_of_path hf)
  have hrg := h.ram g (tables_of_path hg)
  obtain ⟨rfl, h₀⟩ := entry_inj hrf.aligned hrg.aligned (hpf.symm.trans hpg)
  have hpath := h.sep _ _ f length_path.le length_path.le hf hg
  have h₂ := (List.cons.inj hpath).1
  have h₁ := (List.cons.inj (List.cons.inj hpath).2).1
  exact page_eq_of_px ha hb h₂ h₁ h₀

theorem Table.slot_ne_zero (h : Table K m root) (hs : m.slot root va = some pte) : pte ≠ 0 := by
  obtain ⟨f, hf, rfl⟩ := slot_eq_some.mp hs
  have := (h.ram f (tables_of_path hf)).pos
  rw [entry]
  omega

/-- The flat map depends only on the pages of the table. -/
theorem tables_congr (hal : ∀ f, m.Tables root f → f % pgsize = 0)
    (hpage : ∀ f, m.Tables root f → m'.page f = m.page f) :
    (∀ p, p.length ≤ 2 → descend m'.child root p = descend m.child root p) ∧
      (∀ f, m'.Tables root f ↔ m.Tables root f) ∧
      (∀ va, m'.slot root va = m.slot root va) ∧ ∀ va, m'.flat root va = m.flat root va := by
  have hagree : ∀ q f j, q.length < 2 → descend m.child root q = some f →
      m'.child f j = m.child f j := by
    intro q f j hq hf
    have hnode : m.Tables root f := ⟨q, by omega, hf⟩
    exact child_congr (hal f hnode) (hpage f hnode)
  have hslot : ∀ va, m'.slot root va = m.slot root va := by
    intro va
    rw [Machine.slot, Machine.slot, descend_congr hagree length_path.le]
  refine ⟨fun p hp => descend_congr hagree hp, fun f => node_congr hagree, hslot, fun va => ?_⟩
  rw [Machine.flat, Machine.flat, hslot]
  split
  · refine Option.bind_congr fun pte hpte => ?_
    obtain ⟨f, hf, rfl⟩ := slot_eq_some.mp hpte
    have hft := tables_of_path hf
    rw [load64_congr]
    rw [page_entry (hal f hft), page_entry (hal f hft), hpage f hft]
  · rfl

/-- **A table depends only on its own pages.** -/
theorem Table.congr (h : Table K m root) (hpage : ∀ f, m.Tables root f → m'.page f = m.page f)
    (hfree : ∀ f, m.Tables root f → f ∉ m'.freelist) :
    Table K m' root ∧ (∀ f, m'.Tables root f ↔ m.Tables root f) ∧
      (∀ va, m'.slot root va = m.slot root va) ∧ ∀ va, m'.flat root va = m.flat root va := by
  have hal : ∀ f, m.Tables root f → f % pgsize = 0 := fun f hf => (h.ram f hf).aligned
  obtain ⟨hdesc, hnode, hslot, hflat⟩ := tables_congr hal hpage
  have hload : ∀ f i, m.Tables root f → m'.load64 (entry f i) = m.load64 (entry f i) := by
    intro f i hf
    refine load64_congr ?_
    rw [page_entry (hal f hf), page_entry (hal f hf), hpage f hf]
  refine ⟨⟨fun p q f hp hq hdp hdq => ?_, fun f hf => h.ram f ((hnode f).mp hf),
    fun f hf => hfree f ((hnode f).mp hf), fun p f i hp hd hv => ?_, fun i hv => ?_⟩, hnode,
    hslot, hflat⟩
  · rw [hdesc p hp] at hdp
    rw [hdesc q hq] at hdq
    exact h.sep p q f hp hq hdp hdq
  · rw [hdesc p hp.le] at hd
    rw [hload f i ⟨p, hp.le, hd⟩] at hv ⊢
    exact h.inner p f i hp hd hv
  · rw [hload root i node_root] at hv
    exact h.low i hv

end Tree

end Xv6.Vm
