import Xv6.Umalloc.Model

/-!
# The free list of the allocator

The blocks on the free list are in the order of their addresses, and no two of them touch.
Together with the blocks in use they tile the regions that `sbrk` returned.

## Main definitions

* `FreeList base h l` — the list from `base` on is `l`.
* `Inv base h l live regions` — the free blocks and those in use tile the regions.

## Main results

* `Inv.free` — `free` puts a block on the list.
-/

namespace Xv6.Umalloc

open Vm (u32)

variable {κ : Type} {base : ℕ} {h h' : Heap κ} {l t live : List ℕ} {regions : List (ℕ × ℕ)}
  {size ptr : ℕ → ℕ} {b p q x y nunits : ℕ} {sbrk : ℕ → κ → Option ℕ × κ}

/-- How many of the blocks hold the byte at `x`. -/
def covers (size : ℕ → ℕ) (l : List ℕ) (x : ℕ) : ℕ :=
  l.countP fun b => b ≤ x ∧ x < b + 16 * size b

/-- How many of the regions hold the byte at `x`. -/
def covered (regions : List (ℕ × ℕ)) (x : ℕ) : ℕ :=
  regions.countP fun r => r.1 ≤ x ∧ x < r.1 + r.2

/-- The blocks are in order, and between two of them there are other bytes. -/
def Apart (size : ℕ → ℕ) (l : List ℕ) : Prop := l.Pairwise fun p q => p + 16 * size p < q

/-- The pointers lead through the list and back to `base`. -/
def Leads (ptr : ℕ → ℕ) (base : ℕ) (l : List ℕ) : Prop :=
  List.IsChain (fun p q => ptr p = q) (l ++ [base])

/-- **The free list**: circular, in increasing order but for the step back to `base`, and with no
two blocks that touch. -/
structure FreeList (base : ℕ) (h : Heap κ) (l : List ℕ) : Prop where
  head : l.head? = some base
  leads : Leads h.ptr base l
  apart : Apart h.size l
  empty : h.size base = 0
  pos : ∀ p ∈ l, p ≠ base → 0 < h.size p
  freep : h.freep ∈ l

/-- **The free blocks and those in use tile the regions.** -/
structure Inv (base : ℕ) (h : Heap κ) (l live : List ℕ) (regions : List (ℕ × ℕ)) : Prop
    extends FreeList base h l where
  used : ∀ b ∈ live, 0 < h.size b
  tiles : ∀ x, covers h.size (l ++ live) x = covered regions x
  disjoint : ∀ x, covered regions x ≤ 1
  above : ∀ x, 0 < covered regions x → base + 16 ≤ x
  below : ∀ x, 0 < covered regions x → x < 2 ^ 36

theorem covers_append {l t : List ℕ} :
    covers size (l ++ t) x = covers size l x + covers size t x := List.countP_append

theorem covers_cons : covers size (b :: l) x =
    (if b ≤ x ∧ x < b + 16 * size b then 1 else 0) + covers size l x := by
  rw [covers, covers, List.countP_cons, Nat.add_comm]
  simp only [decide_eq_true_eq]

theorem covers_congr {size' : ℕ → ℕ} (hsize : ∀ b ∈ l, size' b = size b) :
    covers size' l x = covers size l x := by
  refine List.countP_congr fun b hb => ?_
  rw [hsize b hb]

theorem covers_pos (hb : b ∈ l) (hx : b ≤ x) (hx' : x < b + 16 * size b) :
    0 < covers size l x := List.countP_pos_iff.mpr ⟨b, hb, decide_eq_true ⟨hx, hx'⟩⟩

/-- The order of the list does not matter. -/
theorem Inv.perm {live' : List ℕ} (hi : Inv base h l live regions) (hp : live.Perm live') :
    Inv base h l live' regions where
  toFreeList := hi.toFreeList
  used b hb := hi.used b (hp.mem_iff.mpr hb)
  tiles x := by
    rw [← hi.tiles x, covers_append, covers_append]
    exact congrArg _ (hp.countP_eq _).symm
  disjoint := hi.disjoint
  above := hi.above
  below := hi.below

theorem Inv.bounds (hi : Inv base h l live regions) (hp : p ∈ l ++ live) (hpos : 0 < h.size p) :
    base + 16 ≤ p ∧ p + 16 * h.size p ≤ 2 ^ 36 := by
  have hin : ∀ x, p ≤ x → x < p + 16 * h.size p → 0 < covered regions x := by
    intro x h₁ h₂
    rw [← hi.tiles x]
    exact covers_pos hp h₁ h₂
  have hfirst := hi.above p (hin p (le_refl p) (by omega))
  have hlast := hi.below (p + 16 * h.size p - 1) (hin _ (by omega) (by omega))
  exact ⟨hfirst, by omega⟩

theorem Inv.beside (hi : Inv base h l (b :: live) regions) (hp : p ∈ l ++ live) :
    p + 16 * h.size p ≤ b ∨ b + 16 * h.size b ≤ p := by
  have hb := hi.used b List.mem_cons_self
  have hlow := (hi.bounds (p := b) (by simp) hb).1
  by_cases hpos : 0 < h.size p
  swap
  · -- only `base` is empty
    have hbase : p = base := by
      by_contra hne
      rcases List.mem_append.mp hp with hp | hp
      · exact hpos (hi.pos p hp hne)
      · exact hpos (hi.used p (List.mem_cons_of_mem b hp))
    omega
  by_contra hno
  push Not at hno
  have htwo := hi.tiles (max p b)
  have hone := hi.disjoint (max p b)
  have hp' : 0 < covers h.size (l ++ live) (max p b) := covers_pos hp (by omega) (by omega)
  rw [covers_append, covers_cons, if_pos (by omega)] at htwo
  rw [covers_append] at hp'
  omega

theorem Inv.not_mem (hi : Inv base h l (b :: live) regions) : b ∉ l ++ live := by
  intro hb
  have hpos := hi.used b List.mem_cons_self
  have hbeside := hi.beside hb
  omega

theorem Inv.not_mem_live (hi : Inv base h l live regions) (hp : p ∈ l) : p ∉ live := by
  intro hlive
  have hperm := hi.perm (List.perm_cons_erase hlive)
  exact hperm.not_mem (List.mem_append_left _ hp)

/-- The list is not longer than the loops can be. -/
theorem Inv.length_lt (hi : Inv base h l live regions) : l.length < 2 ^ 37 := by
  have hnodup : l.Nodup := hi.apart.imp fun {p q} hpq => by omega
  have hsub : l ⊆ base :: List.range (2 ^ 36) := by
    intro p hp
    by_cases hbase : p = base
    · exact List.mem_cons.mpr (.inl hbase)
    · have hpos := hi.pos p hp hbase
      have hle := (hi.bounds (List.mem_append_left _ hp) hpos).2
      exact List.mem_cons_of_mem _ (List.mem_range.mpr (by omega))
  have hle := (List.subperm_of_subset hnodup hsub).length_le
  rw [List.length_cons, List.length_range] at hle
  omega

/-! ### Following the pointers -/

theorem leads_cons : Leads ptr base (p :: t) ↔ ptr p = t.headD base ∧ Leads ptr base t := by
  cases t with
  | nil => exact ⟨fun hl => ⟨(List.isChain_cons_cons.mp hl).1, List.isChain_singleton _⟩,
      fun hl => List.isChain_cons_cons.mpr ⟨hl.1, List.isChain_singleton _⟩⟩
  | cons q t => exact List.isChain_cons_cons

theorem leads_append : Leads ptr base (l ++ p :: t) ↔ Leads ptr p l ∧ Leads ptr base (p :: t) := by
  rw [Leads, List.append_assoc, List.cons_append]
  exact List.isChain_split

theorem Leads.congr {ptr' : ℕ → ℕ} (hl : Leads ptr base l) (hptr : ∀ p ∈ l, ptr' p = ptr p) :
    Leads ptr' base l := by
  induction l with
  | nil => exact List.isChain_singleton _
  | cons p t ih =>
    rw [leads_cons] at hl ⊢
    exact ⟨(hptr p List.mem_cons_self).trans hl.1, ih hl.2 fun q hq =>
      hptr q (List.mem_cons_of_mem p hq)⟩

/-- The list, read from `freep` on. -/
theorem FreeList.rotate (hf : FreeList base h l) :
    ∃ c, Leads h.ptr h.freep (h.freep :: c) ∧ (h.freep :: c).Perm l := by
  obtain ⟨m₁, m₂, rfl⟩ := List.append_of_mem hf.freep
  obtain ⟨hl₁, hl₂⟩ := leads_append.mp hf.leads
  refine ⟨m₂ ++ m₁, ?_, @List.perm_append_comm _ (h.freep :: m₂) m₁⟩
  have hhead := hf.head
  cases m₁ with
  | nil =>
    obtain rfl : h.freep = base := Option.some.inj hhead
    rwa [List.append_nil]
  | cons a s =>
    obtain rfl : a = base := Option.some.inj hhead
    exact (leads_append (l := h.freep :: m₂)).mpr ⟨hl₂, hl₁⟩

/-- A search along the pointers finds a block if there is one. -/
theorem seek_eq {stop : ℕ → Bool} {n : ℕ} (hl : Leads ptr base (p :: t))
    (hex : ∃ x ∈ p :: t, stop x) (hn : t.length < n) :
    ∃ x ∈ p :: t, stop x ∧ seek stop ptr n p = some x := by
  induction t generalizing p n with
  | nil =>
    obtain ⟨x, hx, hstop⟩ := hex
    obtain rfl := List.mem_singleton.mp hx
    obtain ⟨n, rfl⟩ := Nat.exists_eq_add_one_of_ne_zero (by omega : n ≠ 0)
    exact ⟨x, hx, hstop, by rw [seek, if_pos hstop]⟩
  | cons a t ih =>
    obtain ⟨hptr, hl⟩ := leads_cons.mp hl
    obtain ⟨n, rfl⟩ := Nat.exists_eq_add_one_of_ne_zero (by omega : n ≠ 0)
    by_cases hstop : stop p
    · exact ⟨p, List.mem_cons_self, hstop, by rw [seek, if_pos hstop]⟩
    rw [List.length_cons] at hn
    have hex' : ∃ x ∈ a :: t, stop x := by
      obtain ⟨x, hx, hx'⟩ := hex
      rcases List.mem_cons.mp hx with rfl | hx
      · exact absurd hx' hstop
      · exact ⟨x, hx, hx'⟩
    obtain ⟨x, hx, hx', hseek⟩ := ih hl hex' (show t.length < n by omega)
    refine ⟨x, List.mem_cons_of_mem p hx, hx', ?_⟩
    rw [seek, if_neg hstop, hptr]
    exact hseek

/-! ### Giving back a block -/

/-- The block comes after one of the list. -/
theorem exists_before (ha : Apart h.size (p :: t)) (hp : p < b) (hb : b ∉ t) :
    ∃ l₁ q l₂, p :: t = l₁ ++ q :: l₂ ∧ q < b ∧ ∀ a ∈ l₂, b < a := by
  induction t generalizing p with
  | nil => exact ⟨[], p, [], rfl, hp, nofun⟩
  | cons a t ih =>
    obtain ⟨-, ha'⟩ := List.pairwise_cons.mp ha
    by_cases hab : a < b
    · obtain ⟨l₁, q, l₂, heq, hq, hl₂⟩ := ih ha' hab fun hmem => hb (List.mem_cons_of_mem a hmem)
      exact ⟨p :: l₁, q, l₂, by rw [heq, List.cons_append], hq, hl₂⟩
    refine ⟨[], p, a :: t, rfl, hp, fun c hc => ?_⟩
    have hne : a ≠ b := fun heq => hb (heq ▸ List.mem_cons_self)
    rcases List.mem_cons.mp hc with rfl | hc
    · omega
    · have := (List.pairwise_cons.mp ha').1 c hc
      omega

/-- The loop of `free` finds the place of the block. -/
theorem Inv.seek (hi : Inv base h l (b :: live) regions) :
    ∃ l₁ p l₂, l = l₁ ++ p :: l₂ ∧ p < b ∧ (∀ q ∈ l₂, b < q) ∧
      Umalloc.seek (after h.ptr b) h.ptr loopBound h.freep = some p := by
  obtain ⟨hlow, -⟩ := hi.bounds (p := b) (by simp) (hi.used b List.mem_cons_self)
  have hnot : b ∉ l := fun hb => hi.not_mem (List.mem_append_left _ hb)
  have hapart := hi.apart
  obtain ⟨c, hlead, hperm⟩ := hi.rotate
  -- what the test says of a block of the list
  have hafter : ∀ l₁ p l₂, l = l₁ ++ p :: l₂ →
      (after h.ptr b p = true ↔ p < b ∧ ∀ q ∈ l₂, b < q) := by
    intro l₁ p l₂ heq
    have hptr := (leads_cons.mp (leads_append.mp (heq ▸ hi.leads)).2).1
    rw [heq] at hapart
    have hlater := (List.pairwise_cons.mp (List.pairwise_append.mp hapart).2.1)
    rw [after, decide_eq_true_eq, hptr]
    cases l₂ with
    | nil =>
      have hp : base ≤ p := by
        by_cases hbase : p = base
        · exact hbase.ge
        have hmem : p ∈ l := by simp [heq]
        have := hi.bounds (List.mem_append_left _ hmem) (hi.pos p hmem hbase)
        omega
      simp only [List.headD_nil, List.not_mem_nil, false_implies, implies_true, and_true]
      omega
    | cons q l₂ =>
      have hpq := hlater.1 q List.mem_cons_self
      rw [List.headD_cons]
      constructor
      · intro hor
        refine ⟨by omega, fun a ha => ?_⟩
        rcases List.mem_cons.mp ha with rfl | ha
        · omega
        · have := (List.pairwise_cons.mp hlater.2).1 a ha
          omega
      · rintro ⟨hp, hall⟩
        exact .inl ⟨hp, hall q List.mem_cons_self⟩
  have hex : ∃ x ∈ h.freep :: c, after h.ptr b x = true := by
    obtain ⟨as, hl⟩ : ∃ as, l = base :: as := List.head?_eq_some_iff.mp hi.head
    obtain ⟨l₁, p, l₂, heq, hp, hall⟩ := exists_before (hl ▸ hapart) (by omega)
      fun hb => hnot (hl ▸ List.mem_cons_of_mem base hb)
    refine ⟨p, hperm.mem_iff.mpr (by simp [hl, heq]), (hafter l₁ p l₂ (hl.trans heq)).mpr
      ⟨hp, hall⟩⟩
  have hlen := hi.length_lt
  rw [← hperm.length_eq, List.length_cons] at hlen
  obtain ⟨x, hx, hstop, hseek⟩ :=
    seek_eq hlead hex (show c.length < loopBound by rw [loopBound]; omega)
  obtain ⟨l₁, l₂, heq⟩ := List.append_of_mem (hperm.mem_iff.mp hx)
  obtain ⟨hlt, hall⟩ := (hafter l₁ x l₂ heq).mp hstop
  exact ⟨l₁, x, l₂, heq, hlt, hall, hseek⟩

theorem link_ptr_of_ne (hne : p ≠ x) : (link h x y).ptr p = h.ptr p := by
  unfold link
  split <;> exact Function.update_of_ne hne _ _

theorem link_size_of_ne (hne : p ≠ x) : (link h x y).size p = h.size p := by
  unfold link
  split
  · exact Function.update_of_ne hne _ _
  · rfl

theorem link_kernel : (link h x y).kernel = h.kernel := by
  unfold link
  split <;> rfl

/-- **Linking a block to what comes after it**: the block after it stays on the list, or has become
part of it. -/
theorem link_spec (hl : Leads h.ptr base t) (ha : Apart h.size t) (hx : x ∉ t)
    (hle : ∀ q ∈ t, x + 16 * h.size x ≤ q) (hbase : t = [] → base < x)
    (hfit : ∀ q ∈ t, h.size x + h.size q < 2 ^ 32) :
    ∃ t', t' ⊆ t ∧ Leads (link h x (t.headD base)).ptr base (x :: t') ∧
      Apart (link h x (t.headD base)).size (x :: t') ∧
      (∀ z, covers (link h x (t.headD base)).size (x :: t') z = covers h.size (x :: t) z) ∧
      h.size x ≤ (link h x (t.headD base)).size x ∧
      ∀ q ∈ t.head?, q ∈ t' ∨ h.size q ≤ (link h x (t.headD base)).size x := by
  generalize hy : t.headD base = y
  by_cases htouch : x + 16 * h.size x = y
  · -- the next block becomes part of `x`
    cases t with
    | nil =>
      have hlt := hbase rfl
      rw [List.headD_nil] at hy
      omega
    | cons q t =>
      obtain rfl : q = y := hy
      have hother : ∀ p ∈ t, p ≠ x := fun p hp heq => hx (heq ▸ List.mem_cons_of_mem q hp)
      obtain ⟨hqt, ht⟩ := List.pairwise_cons.mp ha
      have hsize : (link h x q).size x = h.size x + h.size q := by
        rw [link, if_pos htouch]
        exact (Function.update_self _ _ _).trans (Nat.mod_eq_of_lt (hfit q List.mem_cons_self))
      have hptr : (link h x q).ptr x = h.ptr q := by
        rw [link, if_pos htouch]
        exact Function.update_self _ _ _
      obtain ⟨hq, hlt⟩ := leads_cons.mp hl
      refine ⟨t, List.subset_cons_self q t, ?_, ?_, fun z => ?_, by omega, fun p hp => .inr ?_⟩
      · exact leads_cons.mpr ⟨hptr.trans hq, hlt.congr fun p hp => link_ptr_of_ne (hother p hp)⟩
      · refine List.pairwise_cons.mpr ⟨fun p hp => ?_, ht.imp_of_mem fun {a c} ha' _ hac => ?_⟩
        · have := hqt p hp
          omega
        · rwa [link_size_of_ne (hother a ha')]
      · have hcov : covers (link h x q).size t z = covers h.size t z :=
          covers_congr fun p hp => link_size_of_ne (hother p hp)
        rw [covers_cons, covers_cons, covers_cons, hcov, hsize]
        split_ifs <;> omega
      · obtain rfl : q = p := Option.some.inj hp
        omega
  · have hother : ∀ p ∈ t, p ≠ x := fun p hp heq => hx (heq ▸ hp)
    have hsize : (link h x y).size = h.size := by rw [link, if_neg htouch]
    have hptr : (link h x y).ptr x = y := by
      rw [link, if_neg htouch]
      exact Function.update_self _ _ _
    rw [hsize]
    refine ⟨t, List.Subset.refl t, ?_, ?_, fun z => rfl, le_rfl,
      fun p hp => .inl (List.mem_of_mem_head? hp)⟩
    · exact leads_cons.mpr ⟨hptr.trans hy.symm, hl.congr fun p hp => link_ptr_of_ne (hother p hp)⟩
    refine List.pairwise_cons.mpr ⟨fun p hp => ?_, ha⟩
    have hp' := hle p hp
    cases t with
    | nil => exact absurd hp List.not_mem_nil
    | cons q t =>
      obtain rfl : q = y := hy
      have hq := hle q List.mem_cons_self
      rcases List.mem_cons.mp hp with rfl | hp
      · omega
      · have := (List.pairwise_cons.mp ha).1 p hp
        omega

/-- **`free` puts a block on the list.** -/
theorem Inv.free (hi : Inv base h l (b :: live) regions) :
    ∃ h' l', free h (b + 16) = some h' ∧ Inv base h' l' live regions ∧ h'.kernel = h.kernel ∧
      (∀ c ∈ live, h'.size c = h.size c) ∧ ∃ p ∈ l', h.size b ≤ h'.size p := by
  obtain ⟨l₁, p, l₂, rfl, hpb, hall, hseek⟩ := hi.seek
  obtain ⟨hlow, hhigh⟩ := hi.bounds (p := b) (by simp) (hi.used b List.mem_cons_self)
  have hnot := hi.not_mem
  obtain ⟨hlead₁, hlead₂⟩ := leads_append.mp hi.leads
  obtain ⟨hptr, hlead₂⟩ := leads_cons.mp hlead₂
  obtain ⟨hap₁, hap₂, hap₁₂⟩ := List.pairwise_append.mp hi.apart
  obtain ⟨hpl₂, hap₂⟩ := List.pairwise_cons.mp hap₂
  have hpos := hi.used b List.mem_cons_self
  have hmem : ∀ q ∈ p :: l₂, q ∈ l₁ ++ p :: l₂ := fun q hq => List.mem_append_right _ hq
  have hb₂ : b ∉ l₂ := fun hb => hnot (by simp [hb])
  have hnear : p + 16 * h.size p ≤ b := by
    have := hi.beside (List.mem_append_left live (hmem p List.mem_cons_self))
    omega
  have hnext : ∀ q ∈ l₂, b + 16 * h.size b ≤ q ∧ q + 16 * h.size q ≤ 2 ^ 36 := by
    intro q hq
    have hbq := hall q hq
    have hq' := hmem q (List.mem_cons_of_mem p hq)
    have hside := hi.beside (List.mem_append_left live hq')
    have hend := (hi.bounds (List.mem_append_left _ hq') (hi.pos q hq' (by omega))).2
    omega
  have hlowp : p = base ∧ h.size p = 0 ∨ base + 16 ≤ p := by
    by_cases hbase : p = base
    · exact .inl ⟨hbase, hbase ▸ hi.empty⟩
    · have hp := hmem p List.mem_cons_self
      exact .inr (hi.bounds (List.mem_append_left _ hp) (hi.pos p hp hbase)).1
  -- the block and what comes after it
  obtain ⟨t₁, hsub₁, hlt₁, hat₁, hcov₁, hsz₁, -⟩ := link_spec (x := b) hlead₂ hap₂ hb₂
    (fun q hq => (hnext q hq).1) (fun _ => by omega) (fun q hq => by have := hnext q hq; omega)
  have hsame₁ : ∀ q, q ≠ b → (link h b (l₂.headD base)).size q = h.size q :=
    fun q => link_size_of_ne
  have hptr₁ : ∀ q, q ≠ b → (link h b (l₂.headD base)).ptr q = h.ptr q := fun q => link_ptr_of_ne
  have hk₁ : (link h b (l₂.headD base)).kernel = h.kernel := link_kernel
  rw [← hptr] at hlt₁ hat₁ hcov₁ hsz₁ hsame₁ hptr₁ hk₁
  generalize hh₁ : link h b (h.ptr p) = h₁ at *
  have hend₁ : b + 16 * h₁.size b ≤ 2 ^ 36 := by
    have hlast : 0 < covers h₁.size (b :: t₁) (b + 16 * h₁.size b - 1) :=
      covers_pos List.mem_cons_self (by omega) (by omega)
    have htiles := hi.tiles (b + 16 * h₁.size b - 1)
    rw [hcov₁, covers_cons] at hlast
    rw [covers_append, covers_append, covers_cons, covers_cons] at htiles
    have := hi.below (b + 16 * h₁.size b - 1) (by omega)
    omega
  -- the one before it, and the block
  have hp₁ : p ∉ b :: t₁ := by
    intro hp
    rcases List.mem_cons.mp hp with rfl | hp
    · omega
    · have := hpl₂ p (hsub₁ hp)
      omega
  obtain ⟨t₂, hsub₂, hlt₂, hat₂, hcov₂, hsz₂, hkept⟩ := link_spec (x := p) hlt₁ hat₁ hp₁
    (fun q hq => by
      rw [hsame₁ p (by omega)]
      rcases List.mem_cons.mp hq with rfl | hq
      · exact hnear
      · exact (hpl₂ q (hsub₁ hq)).le)
    (fun hnil => absurd hnil (List.cons_ne_nil _ _))
    (fun q hq => by
      rw [hsame₁ p (by omega)]
      rcases List.mem_cons.mp hq with rfl | hq
      · omega
      · have := hnext q (hsub₁ hq)
        have := hpl₂ q (hsub₁ hq)
        rw [hsame₁ q fun heq => hb₂ (heq ▸ hsub₁ hq)]
        omega)
  rw [List.headD_cons] at hlt₂ hat₂ hcov₂ hsz₂ hkept
  have hsame₂ : ∀ q, q ≠ p → (link h₁ p b).size q = h₁.size q := fun q => link_size_of_ne
  have hptr₂ : ∀ q, q ≠ p → (link h₁ p b).ptr q = h₁.ptr q := fun q => link_ptr_of_ne
  have hk₂ : (link h₁ p b).kernel = h₁.kernel := link_kernel
  have hempty : (link h₁ p b).size base = 0 := by
    by_cases hbase : base = p
    · subst hbase
      have hzero : h₁.size base = 0 := (hsame₁ base (by omega)).trans hi.empty
      rw [link, if_neg (by omega)]
      exact hzero
    · rw [hsame₂ base hbase, hsame₁ base (by omega), hi.empty]
  have hfree : Umalloc.free h (b + 16) = some { link h₁ p b with freep := p } := by
    rw [Umalloc.free, Nat.add_sub_cancel]
    dsimp only
    rw [hseek, ← hh₁]
  generalize link h₁ p b = h₂ at *
  have hl₁ : ∀ q ∈ l₁, q ≠ p ∧ q ≠ b ∧ q < p := by
    intro q hq
    have hqp := hap₁₂ q hq p List.mem_cons_self
    omega
  have hlive : ∀ c ∈ live, c ≠ p ∧ c ≠ b := fun c hc =>
    ⟨fun heq => hi.not_mem_live (hmem p List.mem_cons_self) (heq ▸ List.mem_cons_of_mem b hc),
      fun heq => hnot (List.mem_append_right _ (heq ▸ hc))⟩
  have hsz : ∀ q, q ≠ p → q ≠ b → h₂.size q = h.size q := fun q hp hb =>
    (hsame₂ q hp).trans (hsame₁ q hb)
  refine ⟨_, l₁ ++ p :: t₂, hfree,
    ⟨⟨?_, ?_, ?_, hempty, ?_, by simp⟩, ?_, ?_, hi.disjoint, hi.above,
    hi.below⟩, hk₂.trans hk₁, fun c hc => hsz c (hlive c hc).1 (hlive c hc).2, ?_⟩
  · have hhead := hi.head
    cases l₁ <;> exact hhead
  · refine leads_append.mpr ⟨hlead₁.congr fun q hq => ?_, hlt₂⟩
    exact (hptr₂ q (hl₁ q hq).1).trans (hptr₁ q (hl₁ q hq).2.1)
  · refine List.pairwise_append.mpr ⟨hap₁.imp_of_mem fun {q c} hq _ hqc => ?_, hat₂,
      fun q hq c hc => ?_⟩
    · rwa [hsz q (hl₁ q hq).1 (hl₁ q hq).2.1]
    have hqp := hap₁₂ q hq p List.mem_cons_self
    rw [hsz q (hl₁ q hq).1 (hl₁ q hq).2.1]
    rcases List.mem_cons.mp hc with rfl | hc
    · exact hqp
    · have := (List.pairwise_cons.mp hat₂).1 c hc
      omega
  · intro q hq hne
    rcases List.mem_append.mp hq with hq | hq
    · rw [hsz q (hl₁ q hq).1 (hl₁ q hq).2.1]
      exact hi.pos q (List.mem_append_left _ hq) hne
    rcases List.mem_cons.mp hq with rfl | hq
    · have := hi.pos q (hmem q List.mem_cons_self) hne
      rw [hsame₁ q (by omega)] at hsz₂
      exact this.trans_le hsz₂
    have hqp : q ≠ p := fun heq => hp₁ (heq ▸ hsub₂ hq)
    rcases List.mem_cons.mp (hsub₂ hq) with rfl | hq
    · exact (hpos.trans_le hsz₁).trans_eq (hsame₂ q hqp).symm
    · have hq₂ := hsub₁ hq
      rw [hsz q hqp fun heq => hb₂ (heq ▸ hq₂)]
      exact hi.pos q (hmem q (List.mem_cons_of_mem p hq₂)) hne
  · intro c hc
    rw [hsz c (hlive c hc).1 (hlive c hc).2]
    exact hi.used c (List.mem_cons_of_mem b hc)
  · intro z
    have hc₁ : covers h₂.size l₁ z = covers h.size l₁ z :=
      covers_congr fun q hq => hsz q (hl₁ q hq).1 (hl₁ q hq).2.1
    have hc₂ : covers h₂.size live z = covers h.size live z :=
      covers_congr fun c hc => hsz c (hlive c hc).1 (hlive c hc).2
    have hc₃ := hcov₂ z
    have hc₄ := hcov₁ z
    have htiles := hi.tiles z
    have e₁ : covers h₁.size (p :: b :: t₁) z = _ := covers_cons
    have e₂ : covers h.size (b :: l₂) z = _ := covers_cons
    have e₃ : covers h.size (p :: l₂) z = _ := covers_cons
    have e₄ : covers h.size (b :: live) z = _ := covers_cons
    rw [hsame₁ p (by omega)] at e₁
    rw [covers_append, covers_append] at htiles ⊢
    change covers h₂.size l₁ z + covers h₂.size (p :: t₂) z + covers h₂.size live z = _
    omega
  · rcases hkept b rfl with hb | hb
    · have hbp : b ≠ p := by omega
      exact ⟨b, by simp [hb], by rw [hsame₂ b hbp]; exact hsz₁⟩
    · exact ⟨p, by simp, hsz₁.trans hb⟩

end Xv6.Umalloc
