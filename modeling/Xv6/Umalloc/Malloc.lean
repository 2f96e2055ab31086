import Xv6.Umalloc.FreeList

/-!
# Allocation

`malloc` goes round the free list from `freep` on and takes a block that is large enough, or its
tail.  If it comes back to `freep` it asks for a new region, once: the region is then part of a
free block that is large enough.

## Main results

* `Inv.take` — taking a block, or its tail.
* `Inv.mallocLoop` — `malloc` ends with a block of the size asked for, or because `sbrk` failed.
-/

namespace Xv6.Umalloc

open Function

open Vm (u32)

variable {κ : Type} {base : ℕ} {h h' : Heap κ} {l t live : List ℕ} {regions regions' : List (ℕ × ℕ)}
  {b p q x n nunits : ℕ} {sbrk : ℕ → κ → Option ℕ × κ} {k : κ}

theorem FreeList.exists_pair (hf : FreeList base h l) (hq : q ∈ l) (hptr : h.ptr q = p)
    (hp : p ≠ base) :
    ∃ l₁ l₂, l = l₁ ++ q :: p :: l₂ := by
  obtain ⟨l₁, l₂, rfl⟩ := List.append_of_mem hq
  have hnext := (leads_cons.mp (leads_append.mp hf.leads).2).1
  cases l₂ with
  | nil => exact absurd (hptr.symm.trans hnext) hp
  | cons a l₂ =>
    obtain rfl : p = a := hptr.symm.trans hnext
    exact ⟨l₁, l₂, rfl⟩

/-- The whole block is taken. -/
theorem Inv.take_all (hi : Inv base h l live regions) (hq : q ∈ l) (hptr : h.ptr q = p)
    (hpos : 0 < h.size p) :
    ∃ l', Inv base { h with ptr := update h.ptr q (h.ptr p), freep := q } l' (p :: live)
      regions := by
  have hp : p ≠ base := by
    rintro rfl
    exact hpos.ne' hi.empty
  obtain ⟨l₁, l₂, rfl⟩ := hi.exists_pair hq hptr hp
  obtain ⟨hlead₁, hlead₂⟩ := leads_append.mp hi.leads
  obtain ⟨-, hlead₂⟩ := leads_cons.mp hlead₂
  obtain ⟨hnext, hlead₂⟩ := leads_cons.mp hlead₂
  have hsub : (l₁ ++ q :: l₂).Sublist (l₁ ++ q :: p :: l₂) :=
    ((List.sublist_cons_self p l₂).cons_cons q).append_left l₁
  have hnodup : (l₁ ++ q :: p :: l₂).Nodup := hi.apart.imp fun {a c} hac => by omega
  have hq₁ : q ∉ l₁ := fun hmem =>
    (List.nodup_append.mp hnodup).2.2 q hmem q List.mem_cons_self rfl
  have hq₂ : q ∉ p :: l₂ := (List.nodup_cons.mp (List.nodup_append.mp hnodup).2.1).1
  refine ⟨l₁ ++ q :: l₂, ⟨⟨?_, ?_, hi.apart.sublist hsub, hi.empty,
    fun a ha => hi.pos a (hsub.subset ha), by simp⟩, ?_, fun z => ?_, hi.disjoint, hi.above,
    hi.below⟩⟩
  · have hhead := hi.head
    cases l₁ <;> exact hhead
  · refine leads_append.mpr
      ⟨hlead₁.congr fun a ha => ?_, leads_cons.mpr ⟨?_, hlead₂.congr fun a ha => ?_⟩⟩
    · exact update_of_ne (show a ≠ q from fun heq => hq₁ (heq ▸ ha)) _ _
    · exact (update_self _ _ _).trans hnext
    · exact update_of_ne (show a ≠ q from fun heq => hq₂ (heq ▸ List.mem_cons_of_mem p ha)) _ _
  · intro b hb
    rcases List.mem_cons.mp hb with rfl | hb
    · exact hpos
    · exact hi.used b hb
  · rw [← hi.tiles z]
    simp only [covers_append, covers_cons]
    omega

/-- The tail of the block is taken. -/
theorem Inv.take_tail (hi : Inv base h l live regions) (hp : p ∈ l) (hq : q ∈ l) (hn : 0 < nunits)
    (hlt : nunits < h.size p) (hb : b = p + 16 * (h.size p - nunits)) :
    Inv base
      { h with
        size := update (update h.size p (h.size p - nunits)) b nunits
        freep := q }
      l (b :: live) regions ∧ b ∉ live := by
  have hpb : p ≠ b := by omega
  have hbase : p ≠ base := by
    rintro rfl
    rw [hi.empty] at hlt
    omega
  obtain ⟨l₁, l₂, rfl⟩ := List.append_of_mem hp
  obtain ⟨hap₁, hap₂, hap₁₂⟩ := List.pairwise_append.mp hi.apart
  obtain ⟨hpl₂, hap₂⟩ := List.pairwise_cons.mp hap₂
  -- the other blocks are not where the tail begins
  have hother : ∀ a ∈ l₁ ++ l₂, a ≠ p ∧ a ≠ b := by
    intro a ha
    rcases List.mem_append.mp ha with ha | ha
    · have := hap₁₂ a ha p List.mem_cons_self
      omega
    · have := hpl₂ a ha
      omega
  have hlive : ∀ c ∈ live, c ≠ p ∧ c ≠ b := by
    intro c hc
    have hpos := hi.used c hc
    have := (hi.perm (List.perm_cons_erase hc)).beside (List.mem_append_left _ hp)
    omega
  have hsize : ∀ a, a ≠ p → a ≠ b →
      update (update h.size p (h.size p - nunits)) b nunits a = h.size a := by
    intro a hap hab
    rw [update_of_ne hab, update_of_ne hap]
  have hsp : update (update h.size p (h.size p - nunits)) b nunits p = h.size p - nunits := by
    rw [update_of_ne hpb, update_self]
  have hsb : update (update h.size p (h.size p - nunits)) b nunits b = nunits :=
    update_self _ _ _
  generalize update (update h.size p (h.size p - nunits)) b nunits = size' at *
  have hle : ∀ a ∈ l₁ ++ p :: l₂, size' a ≤ h.size a ∧ (a ≠ base → 0 < size' a) := by
    intro a ha
    by_cases hap : a = p
    · subst hap
      omega
    have ha' : a ∈ l₁ ++ l₂ := by
      rcases List.mem_append.mp ha with ha | ha
      · exact List.mem_append_left _ ha
      · exact List.mem_append_right _ ((List.mem_cons.mp ha).resolve_left hap)
    rw [hsize a hap (hother a ha').2]
    exact ⟨le_rfl, hi.pos a ha⟩
  have hmem : base ∈ l₁ ++ p :: l₂ := List.mem_of_mem_head? hi.head
  refine ⟨⟨⟨hi.head, hi.leads, hi.apart.imp_of_mem fun {a c} ha _ hac => ?_, ?_, fun a ha =>
    (hle a ha).2,
    hq⟩, ?_, fun z => ?_, hi.disjoint, hi.above, hi.below⟩, fun hmem => (hlive b hmem).2 rfl⟩
  · have := (hle a ha).1
    change a + 16 * size' a < c
    omega
  · have hzero := (hle base hmem).1
    rw [hi.empty] at hzero
    exact Nat.le_zero.mp hzero
  · intro c hc
    rcases List.mem_cons.mp hc with rfl | hc
    · exact hn.trans_eq hsb.symm
    · exact (hi.used c hc).trans_eq (hsize c (hlive c hc).1 (hlive c hc).2).symm
  · have hc₁ : covers size' l₁ z = covers h.size l₁ z := covers_congr fun a ha =>
      hsize a (hother a (List.mem_append_left _ ha)).1 (hother a (List.mem_append_left _ ha)).2
    have hc₂ : covers size' l₂ z = covers h.size l₂ z := covers_congr fun a ha =>
      hsize a (hother a (List.mem_append_right _ ha)).1 (hother a (List.mem_append_right _ ha)).2
    have hc₃ : covers size' live z = covers h.size live z := covers_congr fun c hc =>
      hsize c (hlive c hc).1 (hlive c hc).2
    rw [← hi.tiles z]
    simp only [covers_append, covers_cons, hc₁, hc₂, hc₃, hsp, hsb]
    split_ifs <;> omega

/-- **Taking a block that is large enough**, or its tail. -/
theorem Inv.take (hi : Inv base h l live regions) (hq : q ∈ l) (hp : p ∈ l) (hptr : h.ptr q = p)
    (hn : 0 < nunits) (hfit : nunits ≤ h.size p) :
    ∃ b h' l', take h nunits q p = (b + 16, h') ∧ Inv base h' l' (b :: live) regions ∧
      h'.size b = nunits ∧ (∀ c ∈ live, h'.size c = h.size c) ∧ h'.kernel = h.kernel := by
  rw [Umalloc.take]
  split
  · next heq =>
    obtain ⟨l', hi'⟩ := hi.take_all hq hptr (by omega)
    exact ⟨p, _, l', rfl, hi', heq, fun _ _ => rfl, rfl⟩
  rename_i hne
  dsimp only
  rw [update_self]
  obtain ⟨hi', hlive⟩ := hi.take_tail hp hq hn (by omega) rfl
  refine ⟨_, _, l, rfl, hi', update_self _ _ _, fun c hc => ?_, rfl⟩
  dsimp only
  have hne : c ≠ p + 16 * (h.size p - nunits) := fun heq => hlive (heq ▸ hc)
  rw [update_of_ne hne,
    update_of_ne (show c ≠ p from fun heq => hi.not_mem_live hp (heq ▸ hc))]

/-! ### The loop -/

/-- The loop comes to a block that is large enough, or round to `freep`. -/
theorem mallocLoop_walk (sbrk : ℕ → κ → Option ℕ × κ) (nunits : ℕ) {d : List ℕ}
    (hc : Leads h.ptr h.freep (q :: d)) (hd : h.freep ∉ d)
    (hn : d.length < n) : ∃ q' p m, q' ∈ q :: d ∧ p ∈ h.freep :: d ∧ h.ptr q' = p ∧
      (nunits ≤ h.size p ∨ p = h.freep ∧ ∀ a ∈ d, h.size a < nunits) ∧ n ≤ m + d.length ∧
      mallocLoop sbrk nunits n h q (h.ptr q) = mallocLoop sbrk nunits m h q' p := by
  induction d generalizing q n with
  | nil =>
    have hptr := (leads_cons.mp hc).1
    exact ⟨q, h.freep, n, List.mem_cons_self, List.mem_cons_self, hptr,
      .inr ⟨rfl, nofun⟩, Nat.le_add_right _ _, by rw [hptr]; rfl⟩
  | cons a d ih =>
    obtain ⟨hptr, hc⟩ := leads_cons.mp hc
    rw [List.headD_cons] at hptr
    by_cases hfit : nunits ≤ h.size a
    · exact ⟨q, a, n, List.mem_cons_self, by simp, hptr, .inl hfit,
        Nat.le_add_right _ _, by rw [hptr]⟩
    obtain ⟨n, rfl⟩ := Nat.exists_eq_add_one_of_ne_zero (by omega : n ≠ 0)
    rw [List.length_cons] at hn
    have hne : a ≠ h.freep := fun heq => hd (heq ▸ List.mem_cons_self)
    obtain ⟨q', p, m, hq', hp, hptr', hcase, hm, hloop⟩ := ih hc
      (fun hmem => hd (List.mem_cons_of_mem a hmem)) (show d.length < n by omega)
    refine ⟨q', p, m, List.mem_cons_of_mem q hq', ?_, hptr', hcase.imp_right fun hc =>
      ⟨hc.1, ?_⟩, ?_, ?_⟩
    · exact List.mem_cons.mpr ((List.mem_cons.mp hp).imp_right (List.mem_cons_of_mem a))
    · intro c hmem
      rcases List.mem_cons.mp hmem with rfl | hmem
      · omega
      · exact hc.2 c hmem
    · rw [List.length_cons]
      omega
    · rw [hptr, mallocLoop, if_neg hfit, if_neg hne]
      exact hloop

/-- The loop from `freep` on: it takes a block, or none is large enough. -/
theorem Inv.walk (sbrk : ℕ → κ → Option ℕ × κ) (hi : Inv base h l live regions) (hn : 0 < nunits)
    (hfuel : l.length < n) :
    (∃ b h' l', mallocLoop sbrk nunits n h h.freep (h.ptr h.freep) = some (b + 16, h') ∧
      Inv base h' l' (b :: live) regions ∧ h'.size b = nunits ∧ (∀ c ∈ live, h'.size c = h.size c) ∧
      h'.kernel = h.kernel) ∨
    ((∀ p ∈ l, h.size p < nunits) ∧ ∃ q m, n ≤ m + l.length + 1 ∧
      mallocLoop sbrk nunits n h h.freep (h.ptr h.freep)
      = mallocLoop sbrk nunits (m + 1) h q h.freep) := by
  obtain ⟨c, hlead, hperm⟩ := hi.rotate
  have hnodup : l.Nodup := hi.apart.imp fun {a c} hac => by omega
  have hnot : h.freep ∉ c := (List.nodup_cons.mp (hperm.nodup_iff.mpr hnodup)).1
  have hlen := hperm.length_eq
  rw [List.length_cons] at hlen
  obtain ⟨q, p, m, hq, hp, hptr, hcase, hm, hloop⟩ := mallocLoop_walk sbrk nunits
    hlead hnot (show c.length < n by omega)
  obtain ⟨m, rfl⟩ := Nat.exists_eq_add_one_of_ne_zero (by omega : m ≠ 0)
  by_cases hfit : nunits ≤ h.size p
  · obtain ⟨b, h', l', htake, hrest⟩ := hi.take (hperm.mem_iff.mp hq) (hperm.mem_iff.mp hp)
      hptr hn hfit
    refine .inl ⟨b, h', l', ?_, hrest⟩
    rw [hloop, mallocLoop, if_pos hfit, htake]
  · obtain ⟨rfl, hsmall⟩ := hcase.resolve_left hfit
    refine .inr ⟨fun a ha => ?_, q, m, by omega, hloop⟩
    rcases List.mem_cons.mp (hperm.mem_iff.mpr ha) with rfl | ha
    · omega
    · exact hsmall a ha

/-- The units that `morecore` asks for. -/
def request (nu : ℕ) : ℕ := if nu < 4096 then 4096 else nu

/-- The regions and the kernel's part after a call that may have asked for memory. -/
def Got (sbrk : ℕ → κ → Option ℕ × κ) (h : Heap κ) (nunits : ℕ)
    (regions regions' : List (ℕ × ℕ)) (k : κ) :
    Prop :=
  (regions' = regions ∧ k = h.kernel) ∨
    ∃ a, sbrk (request nunits * 16) h.kernel = (some a, k) ∧
    regions' = (a, request nunits * 16) :: regions

/-- A region lies in free memory. -/
structure Clear (base : ℕ) (regions : List (ℕ × ℕ)) (a n : ℕ) : Prop where
  low : base + 16 ≤ a
  high : a + n ≤ 2 ^ 36
  clear : ∀ x, a ≤ x → x < a + n → covered regions x = 0

theorem covered_cons {r : ℕ × ℕ} : covered (r :: regions) x =
    (if r.1 ≤ x ∧ x < r.1 + r.2 then 1 else 0) + covered regions x := by
  rw [covered, covered, List.countP_cons, Nat.add_comm]
  simp only [decide_eq_true_eq]

/-- A new region is a block in use. -/
theorem Inv.addRegion {a nu : ℕ} (hi : Inv base h l live regions) (hnu : 0 < nu)
    (hc : Clear base regions a (nu * 16)) :
    Inv base { h with size := update h.size a nu, kernel := k } l (a :: live)
      ((a, nu * 16) :: regions) ∧ ∀ c ∈ live, c ≠ a := by
  have hlow := hc.low
  have hhigh := hc.high
  -- the blocks there are lie elsewhere
  have hne : ∀ p ∈ l ++ live, p ≠ a := by
    rintro p hp rfl
    by_cases hpos : 0 < h.size p
    · have hcov := covers_pos hp (le_refl p) (show p < p + 16 * h.size p by omega)
      rw [hi.tiles, hc.clear p (le_refl p) (by omega)] at hcov
      omega
    · rcases List.mem_append.mp hp with hp | hp
      · exact hpos (hi.pos p hp (by omega))
      · exact hpos (hi.used p hp)
  have hsize : ∀ p ∈ l ++ live, update h.size a nu p = h.size p := fun p hp =>
    update_of_ne (hne p hp) _ _
  have hl : ∀ p ∈ l, update h.size a nu p = h.size p := fun p hp =>
    hsize p (List.mem_append_left _ hp)
  refine ⟨⟨⟨hi.head, hi.leads, hi.apart.imp_of_mem fun {p c} hp _ hpc => ?_, ?_, fun p hp hb => ?_,
    hi.freep⟩, fun c hc => ?_, fun x => ?_, fun x => ?_, fun x hx => ?_, fun x hx => ?_⟩,
    fun c hc => hne c (List.mem_append_right _ hc)⟩
  · change p + 16 * update h.size a nu p < c
    rwa [hl p hp]
  · exact (hl base (List.mem_of_mem_head? hi.head)).trans hi.empty
  · exact (hi.pos p hp hb).trans_eq (hl p hp).symm
  · rcases List.mem_cons.mp hc with rfl | hc
    · change 0 < update h.size c nu c
      rwa [update_self]
    · exact (hi.used c hc).trans_eq (hsize c (List.mem_append_right _ hc)).symm
  · have hcov : covers (update h.size a nu) (l ++ live) x = covers h.size (l ++ live) x :=
      covers_congr hsize
    rw [covers_append] at hcov
    rw [covered_cons, ← hi.tiles x, covers_append, covers_cons]
    simp only [update_self, Nat.mul_comm 16 nu]
    omega
  · have hone := hi.disjoint x
    rw [covered_cons]
    split_ifs with hx
    · rw [hc.clear x hx.1 hx.2]
    · omega
  all_goals
    rw [covered_cons] at hx
    split_ifs at hx with hin
    · dsimp only at hin
      omega
  · exact hi.above x (by omega)
  · exact hi.below x (by omega)

theorem morecore_of_none (hs : sbrk (request nunits * 16) h.kernel = (none, k)) :
    morecore sbrk h nunits = some (0, { h with kernel := k }) := by
  rw [request] at hs
  rw [morecore, hs]

theorem morecore_of_some {a : ℕ} (hs : sbrk (request nunits * 16) h.kernel = (some a, k))
    (hf : free { h with size := update h.size a (request nunits), kernel := k } (a + 16)
      = some h') :
    morecore sbrk h nunits = some (h'.freep, h') := by
  rw [request] at hs hf
  rw [morecore, hs]
  dsimp only
  rw [hf]

/-- **The loop of `malloc` ends**: with a block of the size asked for, or because `sbrk` failed.  It
asks for memory at most once. -/
theorem Inv.mallocLoop (hi : Inv base h l live regions) (hbase : 0 < base) (hn : 0 < nunits)
    (hreply : ∀ a k, sbrk (request nunits * 16) h.kernel = (some a, k) →
      Clear base regions a (request nunits * 16)) :
    (∃ b h' l' regions', mallocLoop sbrk nunits loopBound h h.freep (h.ptr h.freep) = some
      (b + 16, h') ∧
      Inv base h' l' (b :: live) regions' ∧ h'.size b = nunits ∧
        (∀ c ∈ live, h'.size c = h.size c) ∧
      Got sbrk h nunits regions regions' h'.kernel) ∨
    ∃ k, sbrk (request nunits * 16) h.kernel = (none, k) ∧
      mallocLoop sbrk nunits loopBound h h.freep (h.ptr h.freep)
      = some (0, { h with kernel := k }) := by
  have hlen := hi.length_lt
  have hbound : loopBound = 2 ^ 64 := by rw [loopBound]
  have hrequest : nunits ≤ request nunits := by
    rw [request]
    split <;> omega
  rcases hi.walk sbrk hn (show l.length < loopBound by omega) with
    ⟨b, h', l', hloop, hi', hb, hlive, hk⟩ | ⟨hsmall, q, m, hm, hloop⟩
  · exact .inl ⟨b, h', l', regions, hloop, hi', hb, hlive, .inl ⟨rfl, hk⟩⟩
  rw [hloop, Umalloc.mallocLoop, if_neg (not_le.mpr (hsmall h.freep hi.freep)), if_pos rfl]
  cases hs : sbrk (request nunits * 16) h.kernel with
  | mk r k =>
    cases r with
    | none =>
      rw [morecore_of_none hs]
      exact .inr ⟨k, rfl, if_pos rfl⟩
    | some a =>
      -- the region is freed, and then part of a block that is large enough
      obtain ⟨hi₁, hne⟩ := hi.addRegion (k := k) (hn.trans_le hrequest) (hreply a k hs)
      obtain ⟨h₁, l₁, hfree, hi₁, hk₁, hsize₁, p, hp, hfit⟩ := hi₁.free
      have hfreep : h₁.freep ≠ 0 := by
        by_cases heq : h₁.freep = base
        · omega
        · have := hi₁.bounds (List.mem_append_left _ hi₁.freep) (hi₁.pos _ hi₁.freep heq)
          omega
      have hlen₁ := hi₁.length_lt
      rw [morecore_of_some hs hfree]
      dsimp only at hfit ⊢
      rw [if_neg hfreep]
      rw [update_self] at hfit
      rcases hi₁.walk sbrk hn (show l₁.length < m by omega) with
        ⟨b, h', l', hloop', hi', hb, hlive, hk⟩ | ⟨hsmall', -⟩
      · refine .inl ⟨b, h', l', _, hloop', hi', hb, fun c hc => ?_, .inr ⟨a, ?_, rfl⟩⟩
        · rw [hlive c hc, hsize₁ c hc]
          exact update_of_ne (hne c hc) _ _
        · rw [hs, hk, hk₁]
      · have := hsmall' p hp
        omega

end Xv6.Umalloc
