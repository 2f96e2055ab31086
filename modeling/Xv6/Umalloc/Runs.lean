import Xv6.Umalloc.Malloc

/-!
# Programs that allocate

Runs of `malloc` and `free`, with any answers of `sbrk`; and `malloc` on top of the kernel's own
`sbrk`.  The size field of a header counts units in 32 bits, so the memory of a program has to end
below 2^36.  The argument of `sbrk` is an `int`: from a request of 2^31 bytes on it is not positive,
and `sbrk` succeeds without adding memory.

## Main definitions

* `Sys`, `Event`, `step` — a program that allocates and frees.
* `Sound` — the free list is in order, and with the blocks in use it tiles the memory obtained.
* `Honest` — `malloc` fails, or returns memory that `sbrk` has added.

## Main results

* `heap_sound` — along every run in memory below 2^36 the heap is sound, and every call ends.
* `size_wraps` — a run with more memory, after which a size has wrapped around.
* `malloc_honest_iff` — `malloc` is honest exactly below 2^31 bytes.
* `malloc_overpromises` — a call that is not.
-/

namespace Xv6.Umalloc

variable {base nbytes : ℕ}

section

variable {κ : Type} {h : Heap κ} {live : List ℕ} {regions : List (ℕ × ℕ)}
  {sbrk : ℕ → κ → Option ℕ × κ}

/-- Before the first call, or with a free list. -/
def Ready (base : ℕ) (h : Heap κ) (live : List ℕ) (regions : List (ℕ × ℕ)) : Prop :=
  (h.freep = 0 ∧ live = [] ∧ regions = []) ∨ ∃ l, Inv base h l live regions

theorem inv_init : Inv base (init base h) [base] [] [] where
  head := rfl
  leads := leads_cons.mpr ⟨Function.update_self _ _ _, List.isChain_singleton _⟩
  apart := List.pairwise_singleton _ _
  empty := Function.update_self _ _ _
  pos p hp hne := absurd (List.mem_singleton.mp hp) hne
  freep := List.mem_cons_self
  used b hb := absurd hb List.not_mem_nil
  tiles x := by
    have hempty : (init base h).size base = 0 := Function.update_self _ _ _
    rw [List.append_nil, covers_cons, hempty, if_neg (by omega)]
    rfl
  disjoint x := Nat.zero_le 1
  above x hx := absurd hx (Nat.lt_irrefl 0)
  below x hx := absurd hx (Nat.lt_irrefl 0)

theorem units_eq (hn : nbytes < 2 ^ 32) : units nbytes = (nbytes + 15) / 16 + 1 :=
  Nat.mod_eq_of_lt (by omega)

/-- **`malloc` ends** with a block for the bytes asked for, or because `sbrk` failed. -/
theorem Ready.malloc (hr : Ready base h live regions) (hbase : 0 < base) (hn : nbytes < 2 ^ 32)
    (hreply : ∀ a k, sbrk (request (units nbytes) * 16) h.kernel = (some a, k) →
      Clear base regions a (request (units nbytes) * 16)) :
    (∃ b h' l' regions', malloc sbrk base h nbytes = some (b + 16, h') ∧
      Inv base h' l' (b :: live) regions' ∧ h'.size b = units nbytes ∧
      (∀ c ∈ live, h'.size c = h.size c) ∧
      Got sbrk h (units nbytes) regions regions' h'.kernel) ∨
    ∃ h', malloc sbrk base h nbytes = some (0, h') ∧ Ready base h' live regions ∧
      (∀ c ∈ live, h'.size c = h.size c) ∧
      sbrk (request (units nbytes) * 16) h.kernel = (none, h'.kernel) := by
  obtain ⟨h₀, l, hi, hk, hsize, hmalloc⟩ : ∃ h₀ l, Inv base h₀ l live regions ∧
      h₀.kernel = h.kernel ∧
      (∀ c ∈ live, h₀.size c = h.size c) ∧
      Umalloc.malloc sbrk base h nbytes = mallocLoop sbrk (units nbytes) loopBound h₀ h₀.freep
        (h₀.ptr h₀.freep) := by
    rcases hr with ⟨hfreep, rfl, rfl⟩ | ⟨l, hi⟩
    · refine ⟨init base h, [base], inv_init, rfl, nofun, ?_⟩
      rw [Umalloc.malloc, if_pos hfreep]
    have hfreep : h.freep ≠ 0 := by
      by_cases heq : h.freep = base
      · omega
      · have := hi.bounds (List.mem_append_left _ hi.freep) (hi.pos _ hi.freep heq)
        omega
    refine ⟨h, l, hi, rfl, fun _ _ => rfl, ?_⟩
    rw [Umalloc.malloc, if_neg hfreep]
  have hunits := units_eq hn
  rw [← hk] at hreply
  rcases hi.mallocLoop hbase (by omega : 0 < units nbytes) hreply with
    ⟨b, h', l', regions', hloop, hi', hb, hlive, hgot⟩ | ⟨k, hs, hloop⟩
  · refine .inl ⟨b, h', l', regions', hmalloc.trans hloop, hi', hb,
      fun c hc => (hlive c hc).trans (hsize c hc), ?_⟩
    rw [Got, hk] at hgot
    exact hgot
  · rw [hk] at hs
    refine .inr ⟨_, hmalloc.trans hloop, .inr ⟨l, ?_⟩, hsize, hs⟩
    exact ⟨⟨hi.head, hi.leads, hi.apart, hi.empty, hi.pos, hi.freep⟩, hi.used, hi.tiles,
      hi.disjoint, hi.above, hi.below⟩

end

/-! ### Runs -/

/-- A program and its heap.  The kernel's part is the list of the calls of `sbrk`, the latest
first: how many bytes were asked for, and the answer. -/
structure Sys where
  heap : Heap (List (ℕ × Option ℕ))
  live : List (ℕ × ℕ) -- what `malloc` returned, and for how many bytes

/-- The regions that `sbrk` returned. -/
def Sys.regions (x : Sys) : List (ℕ × ℕ) :=
  x.heap.kernel.filterMap fun c => c.2.map fun a => (a, c.1)

/-- The blocks in use. -/
def Sys.blocks (x : Sys) : List ℕ := x.live.map fun b => b.1 - 16

/-- A call; `reply` says what `sbrk` answers meanwhile. -/
inductive Event
  | malloc (nbytes : ℕ) (reply : ℕ → Option ℕ)
  | free (ap : ℕ)

/-- `sbrk`, by its answers. -/
def answer (reply : ℕ → Option ℕ) (n : ℕ) (calls : List (ℕ × Option ℕ)) :
    Option ℕ × List (ℕ × Option ℕ) := (reply n, (n, reply n) :: calls)

/-- One call; it is stuck if it does not end. -/
def step (base : ℕ) (x : Sys) : Event → Outcome Empty Sys
  | .malloc nbytes reply =>
    match malloc (answer reply) base x.heap nbytes with
    | none => .stuck
    | some (r, h) => .ok ⟨h, if r = 0 then x.live else (r, nbytes) :: x.live⟩
  | .free ap =>
    match free x.heap ap with
    | none => .stuck
    | some h => .ok ⟨h, x.live.eraseP fun b => b.1 == ap⟩

/-- A program that has not allocated yet. -/
def start : Sys := ⟨⟨fun _ => 0, fun _ => 0, 0, []⟩, []⟩

/-- Requests stay below 2^31 bytes, `sbrk` returns regions above those it returned before, and only
what is in use is freed. -/
def Proper (base : ℕ) (x : Sys) : Event → Prop
  | .malloc nbytes reply => nbytes < 2 ^ 32 ∧ request (units nbytes) * 16 < 2 ^ 31 ∧
      ∀ a ∈ reply (request (units nbytes) * 16), base + 16 ≤ a ∧ ∀ r ∈ x.regions, r.1 + r.2 ≤ a
  | .free ap => ap ∈ x.live.map Prod.fst

instance (base : ℕ) (x : Sys) : (e : Event) → Decidable (Proper base x e)
  | .malloc .. => inferInstanceAs (Decidable (_ ∧ _ ∧ _))
  | .free _ => inferInstanceAs (Decidable (_ ∈ _))

/-- The region that `sbrk` returns ends below 2^36. -/
def Low : Event → Prop
  | .malloc nbytes reply =>
    ∀ a ∈ reply (request (units nbytes) * 16), a + request (units nbytes) * 16 ≤ 2 ^ 36
  | .free _ => True

instance : (e : Event) → Decidable (Low e)
  | .malloc .. => inferInstanceAs (Decidable (∀ a ∈ _, _))
  | .free _ => .isTrue trivial

/-- **A sound heap**: nothing was allocated yet, or the free list is in order, the free blocks and
those in use tile the regions, and every block in use is large enough. -/
def Sound (base : ℕ) (x : Sys) : Prop :=
  (x.heap.freep = 0 ∧ x.live = [] ∧ x.regions = []) ∨
    ∃ l, FreeList base x.heap l ∧
      (∀ y, covers x.heap.size (l ++ x.blocks) y = covered x.regions y ∧ covered x.regions y ≤ 1) ∧
      ∀ b ∈ x.live, 16 ≤ b.1 ∧ 16 + b.2 ≤ 16 * x.heap.size (b.1 - 16)

/-- What a run keeps. -/
def Holds (base : ℕ) (x : Sys) : Prop :=
  Ready base x.heap x.blocks x.regions ∧
    ∀ b ∈ x.live, 16 ≤ b.1 ∧ 16 + b.2 ≤ 16 * x.heap.size (b.1 - 16)

theorem Holds.sound {x : Sys} (hx : Holds base x) : Sound base x := by
  rcases hx with ⟨⟨hfreep, hlive, hregions⟩ | ⟨l, hi⟩, hbig⟩
  · exact .inl ⟨hfreep, List.map_eq_nil_iff.mp hlive, hregions⟩
  · exact .inr ⟨l, hi.toFreeList, fun y => ⟨hi.tiles y, hi.disjoint y⟩, hbig⟩

/-- Every call ends and keeps the heap sound, and asks for memory at most once. -/
theorem Holds.step {x : Sys} {e : Event} (hbase : 0 < base) (hx : Holds base x)
    (hp : Proper base x e)
    (hlow : Low e) : ∃ y, step base x e = .ok y ∧ Holds base y ∧
      y.heap.kernel.length ≤ x.heap.kernel.length + 1 := by
  obtain ⟨hr, hbig⟩ := hx
  cases e with
  | malloc nbytes reply =>
    obtain ⟨hn, -, habove⟩ := hp
    have hunits := units_eq hn
    -- memory from the kernel lies above everything it gave before
    have hreply : ∀ a k, answer reply (request (units nbytes) * 16) x.heap.kernel = (some a, k) →
        Clear base x.regions a (request (units nbytes) * 16) := by
      intro a k hs
      have ha : reply (request (units nbytes) * 16) = some a := congrArg Prod.fst hs
      refine ⟨(habove a ha).1, hlow a ha, fun y hy _ => List.countP_eq_zero.mpr fun r hr => ?_⟩
      have := (habove a ha).2 r hr
      rw [decide_eq_true_eq]
      omega
    simp only [Umalloc.step]
    rcases hr.malloc hbase hn hreply with
      ⟨b, h', l', regions', hmalloc, hi, hb, hsize, hgot⟩ | ⟨h', hmalloc, hr', hsize, hs⟩
    · -- a block was found, in the list or after `morecore`
      rw [hmalloc]
      have hregions : Sys.regions ⟨h', (b + 16, nbytes) :: x.live⟩ = regions' ∧
          h'.kernel.length ≤ x.heap.kernel.length + 1 := by
        rcases hgot with ⟨rfl, hk⟩ | ⟨a, hs, rfl⟩
        · rw [Sys.regions, hk]
          exact ⟨rfl, Nat.le_succ _⟩
        · have ha : reply (request (units nbytes) * 16) = some a := congrArg Prod.fst hs
          have hk : _ = h'.kernel := congrArg Prod.snd hs
          rw [Sys.regions, ← hk, answer, ha]
          exact ⟨rfl, le_rfl⟩
      refine ⟨_, rfl, ?_, hregions.2⟩
      rw [if_neg (Nat.succ_ne_zero _)]
      refine ⟨.inr ⟨l', ?_⟩, fun c hc => ?_⟩
      · rw [hregions.1]
        exact hi
      rcases List.mem_cons.mp hc with rfl | hc
      · dsimp only
        rw [Nat.add_sub_cancel, hb]
        omega
      · rw [hsize _ (List.mem_map_of_mem hc)]
        exact hbig c hc
    · -- the kernel refused
      rw [hmalloc]
      have hnone : reply (request (units nbytes) * 16) = none := congrArg Prod.fst hs
      have hk : _ = h'.kernel := congrArg Prod.snd hs
      have hregions : Sys.regions ⟨h', x.live⟩ = x.regions := by
        rw [Sys.regions, ← hk, answer, hnone]
        rfl
      refine ⟨_, rfl, ?_, ?_⟩
      · rw [if_pos rfl]
        refine ⟨?_, fun c hc => ?_⟩
        · rw [hregions]
          exact hr'
        · rw [hsize _ (List.mem_map_of_mem hc)]
          exact hbig c hc
      · dsimp only
        rw [← hk]
        exact le_rfl
  | free ap =>
    obtain ⟨b, hb, rfl⟩ := List.mem_map.mp hp
    -- the first live block at this address is the one that is freed
    obtain ⟨c, l₁, l₂, -, hc, hlive, herase⟩ := List.exists_of_eraseP (p := fun c => c.1 == b.1) hb
      (beq_self_eq_true b.1)
    have hcb : c.1 = b.1 := eq_of_beq hc
    have hbig' : 16 ≤ b.1 := (hbig b hb).1
    have hperm : x.live.Perm (c :: (l₁ ++ l₂)) := hlive ▸ List.perm_middle
    rcases hr with ⟨-, hnil, -⟩ | ⟨l, hi⟩
    · rw [List.map_eq_nil_iff.mp hnil] at hb
      exact absurd hb List.not_mem_nil
    obtain ⟨h', l', hfree, hi', hk, hsize, -⟩ := (hi.perm (hperm.map _)).free
    dsimp only at hfree
    rw [hcb, Nat.sub_add_cancel hbig'] at hfree
    simp only [Umalloc.step]
    rw [hfree, herase]
    refine ⟨_, rfl, ⟨.inr ⟨l', ?_⟩, fun d hd => ?_⟩, ?_⟩
    · have hregions : Sys.regions ⟨h', l₁ ++ l₂⟩ = x.regions := by rw [Sys.regions, hk]; rfl
      rw [hregions]
      exact hi'
    · rw [hsize _ (List.mem_map_of_mem hd)]
      exact hbig d (hperm.mem_iff.mpr (List.mem_cons_of_mem c hd))
    · dsimp only
      rw [hk]
      exact Nat.le_succ _

/-- **The heap is sound along every run**, in memory below 2^36; every call of `malloc` and `free`
ends, and `malloc` asks for memory at most once. -/
theorem heap_sound {x : Sys} (hbase : 0 < base)
    (hx : Reach (step base) (fun x e => Proper base x e ∧ Low e) start x) :
    Sound base x ∧ ∀ e, Proper base x e → Low e → ∃ y, step base x e = .ok y ∧
      y.heap.kernel.length ≤ x.heap.kernel.length + 1 := by
  have hstart : Holds base start := ⟨.inl ⟨rfl, rfl, rfl⟩, nofun⟩
  have hholds : Holds base x := by
    refine hx.invariant hstart fun s e s' hs hok hstep => ?_
    obtain ⟨y, hy, hinv, -⟩ := hs.step hbase hok.1 hok.2
    rw [hy] at hstep
    exact Outcome.ok.inj hstep ▸ hinv
  refine ⟨hholds.sound, fun e hp hlow => ?_⟩
  obtain ⟨y, hy, -, hcalls⟩ := hholds.step hbase hp hlow
  exact ⟨y, hy, hcalls⟩

/-- A program allocates twice out of one region, and reuses a block it has freed. -/
def shortRun : List Event :=
  [.malloc 16 fun _ => some 4096, .malloc 100 fun _ => none, .free 69616, .malloc 8 fun _ => none]

theorem heap_sound_short : ∃ x, run (step 2048) start shortRun = .ok x ∧
    x.live = [(69616, 8), (69488, 100)] ∧ Sound 2048 x := by
  obtain ⟨x, hx, hlive⟩ := Outcome.exists_of_check (x := run (step 2048) start shortRun)
    (p := fun x => x.live = [(69616, 8), (69488, 100)]) (by decide +kernel)
  exact ⟨x, hx, of_decide_eq_true hlive,
    (heap_sound (by decide) (reach_of_run .refl (by decide +kernel) hx)).1⟩

/-- A program allocates 33 blocks of almost 2^31 bytes, next to each other, and frees them. -/
def largeRun : List Event :=
  (List.range 33).map (fun i => .malloc (2 ^ 31 - 32) fun _ => some (4096 + i * (2 ^ 31 - 16))) ++
    (List.range 33).map fun i => .free (4096 + i * (2 ^ 31 - 16) + 16)

/-- **A size wraps around**: the one free block of 33 * (2^27 - 1) units says that it has 2^32 less,
so it does not tile the regions. -/
theorem size_wraps : Permitted (step 2048) (Proper 2048) start largeRun ∧
    ∃ x, run (step 2048) start largeRun = .ok x ∧ ¬ Sound 2048 x := by
  refine ⟨by decide +kernel, ?_⟩
  have hrun : (run (step 2048) start largeRun).check (fun x => x.heap.freep ≠ 0 ∧ x.live = [] ∧
      x.heap.ptr 2048 = 4096 ∧ x.heap.ptr 4096 = 2048 ∧ x.heap.size 4096 = 134217695 ∧
      covered x.regions (4096 + 16 * 134217695) = 1) = true := by decide +kernel
  obtain ⟨x, hrun, hx⟩ := Outcome.exists_of_check hrun
  obtain ⟨hfreep, hlive, hbase, hptr, hsize, hcov⟩ := of_decide_eq_true hx
  refine ⟨x, hrun, ?_⟩
  rintro (⟨hzero, -⟩ | ⟨l, hf, htiles, -⟩)
  · exact hfreep hzero
  -- the list is that of `base` and one block
  obtain ⟨t, rfl⟩ := List.head?_eq_some_iff.mp hf.head
  obtain ⟨hfirst, hleads⟩ := leads_cons.mp hf.leads
  rw [hbase] at hfirst
  cases t with
  | nil => cases hfirst
  | cons a t =>
    obtain rfl : 4096 = a := hfirst
    cases t with
    | nil =>
      have htile := (htiles (4096 + 16 * 134217695)).1
      rw [hcov, Sys.blocks, hlive] at htile
      simp only [List.map_nil, List.append_nil, covers_cons, hf.empty, hsize] at htile
      rw [if_neg (by omega), if_neg (by omega)] at htile
      cases htile
    | cons c t =>
      have hsecond := (leads_cons.mp hleads).1
      rw [hptr] at hsecond
      obtain rfl : 2048 = c := hsecond
      have := (List.pairwise_cons.mp hf.apart).1 2048 (by simp)
      omega

/-! ### The kernel's sbrk -/

/-- The heap of a process is in order: what the allocator holds is what `sbrk` has added, below the
size of the process. -/
structure Valid (base : ℕ) (h : Heap Process) (live : List ℕ) : Prop where
  ready : Ready base h live h.kernel.added
  below : ∀ r ∈ h.kernel.added, r.1 + r.2 ≤ h.kernel.sz
  above : base + 16 ≤ h.kernel.sz
  size : h.kernel.sz < 2 ^ 31

/-- **What `malloc` promises**: it returns 0 and the heap is in order, or it returns a block whose
bytes all lie in memory that `sbrk` has added, and the heap is in order. -/
def Honest (base : ℕ) (grows : Bool) (h : Heap Process) (live : List ℕ) (nbytes : ℕ) : Prop :=
  ∃ r h', malloc (sysSbrk grows) base h nbytes = some (r, h') ∧
    ((r = 0 ∧ Valid base h' live) ∨ (r ≠ 0 ∧ Valid base h' ((r - 16) :: live) ∧
      ∀ x, r ≤ x → x < r + nbytes → 0 < covered h'.kernel.added x))

variable {h : Heap Process} {live : List ℕ} {grows : Bool}

theorem covered_eq_zero {regions : List (ℕ × ℕ)} {sz x : ℕ} (hbelow : ∀ r ∈ regions, r.1 + r.2 ≤ sz)
    (hx : sz ≤ x) : covered regions x = 0 := by
  refine List.countP_eq_zero.mpr fun r hr => ?_
  have := hbelow r hr
  rw [decide_eq_true_eq]
  omega

theorem request_cases (hn : nbytes < 2 ^ 32) : 0 < request (units nbytes) * 16 ∧
    (nbytes ≤ 2 ^ 31 - 32 ∧ request (units nbytes) * 16 < 2 ^ 31 ∨
      2 ^ 31 - 32 < nbytes ∧ nbytes ≤ 2 ^ 32 - 16 ∧ 2 ^ 31 ≤ request (units nbytes) * 16 ∧
        request (units nbytes) * 16 ≤ 2 ^ 32 ∨
      2 ^ 32 - 16 < nbytes ∧ request (units nbytes) * 16 = 2 ^ 32 + 16) := by
  have hunits := units_eq hn
  rw [request]
  split <;> omega

theorem sysSbrk_of_pos {n : ℕ} {k : Process} (hpos : 0 < toInt n) (hsz : k.sz + toInt n < 2 ^ 31) :
    sysSbrk true n k = (some k.sz,
    ⟨k.sz + (toInt n).toNat, (k.sz, (toInt n).toNat) :: k.added⟩) := by
  have hadd : Vm.addInt k.sz (toInt n) = k.sz + (toInt n).toNat := by
    rw [Vm.addInt]
    omega
  rw [sysSbrk, newSize, if_pos hpos, if_pos rfl]
  dsimp only
  rw [hadd, if_pos (by omega), Nat.add_sub_cancel_left]

theorem sysSbrk_of_full {n : ℕ} {k : Process} (hpos : 0 < toInt n) :
    sysSbrk false n k = (none, k) := by
  rw [sysSbrk, newSize, if_pos hpos]
  rfl

theorem sysSbrk_of_nonpos {n : ℕ} {k : Process} (hn : toInt n ≤ 0) :
    ∃ sz, sysSbrk grows n k = (some k.sz, ⟨sz, k.added⟩) := by
  rw [sysSbrk, newSize, if_neg (by omega)]
  split_ifs
  · exact ⟨k.sz, by dsimp only; rw [if_neg (Nat.lt_irrefl _)]⟩
  · next h =>
    refine ⟨Vm.addInt k.sz (toInt n), ?_⟩
    dsimp only
    rw [if_neg (by omega)]
  · exact ⟨k.sz, by dsimp only; rw [if_neg (Nat.lt_irrefl _)]⟩

/-- If `sbrk` fails, or adds what it was asked for, then `malloc` is honest. -/
theorem Valid.honest (hv : Valid base h live) (hbase : 0 < base) (hn : nbytes < 2 ^ 32)
    (hnone : ∀ k, sysSbrk grows (request (units nbytes) * 16) h.kernel = (none, k) → k = h.kernel)
    (hsome : ∀ a k, sysSbrk grows (request (units nbytes) * 16) h.kernel = (some a, k) →
      a = h.kernel.sz ∧ k = ⟨h.kernel.sz + request (units nbytes) * 16,
        (h.kernel.sz, request (units nbytes) * 16) :: h.kernel.added⟩ ∧ k.sz < 2 ^ 31) :
    Honest base grows h live nbytes := by
  have hunits := units_eq hn
  have habove := hv.above
  have hclear : ∀ a k, sysSbrk grows (request (units nbytes) * 16) h.kernel = (some a, k) →
      Clear base h.kernel.added a (request (units nbytes) * 16) := by
    intro a k hs
    obtain ⟨rfl, rfl, hsz⟩ := hsome a k hs
    dsimp only at hsz
    exact ⟨habove, by omega, fun x hx _ => covered_eq_zero hv.below hx⟩
  rcases hv.ready.malloc hbase hn hclear with
    ⟨b, h', l', regions', hmalloc, hi, hb, -, hgot⟩ | ⟨h', hmalloc, hr, -, hs⟩
  · have hadded : h'.kernel.added = regions' ∧ (∀ r ∈ regions', r.1 + r.2 ≤ h'.kernel.sz) ∧
        h.kernel.sz ≤ h'.kernel.sz ∧ h'.kernel.sz < 2 ^ 31 := by
      rcases hgot with ⟨rfl, hk⟩ | ⟨a, hs, rfl⟩
      · rw [hk]
        exact ⟨rfl, hv.below, le_rfl, hv.size⟩
      obtain ⟨rfl, hk, hsz⟩ := hsome a _ hs
      refine ⟨by rw [hk], fun r hr => ?_, by rw [hk]; exact Nat.le_add_right _ _, hsz⟩
      rw [hk]
      rcases List.mem_cons.mp hr with rfl | hr
      · exact le_rfl
      · exact (hv.below r hr).trans (Nat.le_add_right _ _)
    obtain ⟨rfl, hbelow, hle, hsz⟩ := hadded
    refine ⟨b + 16, h', hmalloc, .inr ⟨Nat.succ_ne_zero _, ?_, fun x h₁ h₂ => ?_⟩⟩
    · rw [Nat.add_sub_cancel]
      exact ⟨.inr ⟨l', hi⟩, hbelow, habove.trans hle, hsz⟩
    · rw [← hi.tiles x]
      exact covers_pos (b := b) (by simp) (by omega) (by omega)
  · have hk := hnone _ hs
    refine ⟨0, h', hmalloc, .inl ⟨rfl, ?_⟩⟩
    rw [← hk] at hr
    exact ⟨hr, hk ▸ hv.below, hk ▸ habove, hk ▸ hv.size⟩

/-- `malloc` is honest below 2^31 bytes. -/
theorem Valid.honest_of_le (hv : Valid base h live) (hbase : 0 < base)
    (hsmall : nbytes ≤ 2 ^ 31 - 32)
    (hgrow : grows = true → h.kernel.sz + toInt (request (units nbytes) * 16) < 2 ^ 31) :
    Honest base grows h live nbytes := by
  obtain ⟨hpos, hcases⟩ := request_cases (show nbytes < 2 ^ 32 by omega)
  have hint : toInt (request (units nbytes) * 16) = (request (units nbytes) * 16 : ℕ) := by
    rw [toInt]
    split <;> omega
  refine hv.honest hbase (by omega) (fun k hs => ?_) fun a k hs => ?_
  · cases grows with
    | false => exact (congrArg Prod.snd ((sysSbrk_of_full (by omega)).symm.trans hs)).symm
    | true => cases (sysSbrk_of_pos (by omega) (hgrow rfl)).symm.trans hs
  cases grows with
  | false => cases (sysSbrk_of_full (by omega)).symm.trans hs
  | true =>
    have hrun := sysSbrk_of_pos (by omega) (hgrow rfl)
    have hsz := hgrow rfl
    rw [hint, Int.toNat_natCast] at hrun
    rw [hint] at hsz
    obtain ⟨ha, rfl⟩ := Prod.mk.inj (hrun.symm.trans hs)
    refine ⟨(Option.some.inj ha).symm, rfl, ?_⟩
    dsimp only
    omega

/-- If `sbrk` succeeds then `malloc` is not honest about 2^31 bytes. -/
theorem Valid.not_honest {k : Process} (hv : Valid base h live) (hbase : 0 < base)
    (hn : nbytes < 2 ^ 32)
    (hbig : 2 ^ 31 - 32 < nbytes)
    (hs : sysSbrk grows (request (units nbytes) * 16) h.kernel = (some h.kernel.sz, k))
    (hk : ∀ r ∈ k.added, r.1 + r.2 ≤ 2 ^ 31) : ¬ Honest base grows h live nbytes := by
  have hunits := units_eq hn
  have hrequest := request_cases hn
  have hsize := hv.size
  have hclear : ∀ a k, sysSbrk grows (request (units nbytes) * 16) h.kernel = (some a, k) →
      Clear base h.kernel.added a (request (units nbytes) * 16) := by
    intro a k' hs'
    obtain rfl : h.kernel.sz = a := Option.some.inj (congrArg Prod.fst (hs.symm.trans hs'))
    exact ⟨hv.above, by omega, fun x hx _ => covered_eq_zero hv.below hx⟩
  rcases hv.ready.malloc hbase hn hclear with
    ⟨b, h', l', regions', hmalloc, hi, hb, -, hgot⟩ | ⟨h', hmalloc, -, -, hs'⟩
  swap
  · cases hs.symm.trans hs'
  rintro ⟨r, h'', hmalloc', hcase⟩
  obtain ⟨rfl, rfl⟩ : b + 16 = r ∧ h' = h'' := by
    rw [hmalloc, Option.some.injEq, Prod.mk.injEq] at hmalloc'
    exact hmalloc'
  rcases hcase with ⟨hzero, -⟩ | ⟨-, -, hin⟩
  · exact Nat.succ_ne_zero _ hzero
  -- the last byte of the block lies above all memory
  have hlow := (hi.bounds (p := b) (by simp) (by omega)).1
  have hlast := hin (b + 16 + nbytes - 1) (by omega) (by omega)
  have hadded : ∀ r ∈ h'.kernel.added, r.1 + r.2 ≤ 2 ^ 31 := by
    rcases hgot with ⟨-, hk'⟩ | ⟨a, hs', -⟩
    · rw [hk']
      exact fun r hr => (hv.below r hr).trans hsize.le
    · have hk' : k = h'.kernel := congrArg Prod.snd (hs.symm.trans hs')
      rwa [← hk']
  rw [covered_eq_zero hadded (by omega)] at hlast
  omega

/-- **`malloc` is honest exactly below 2^31 bytes**, or if the kernel refuses to grow the process.
`grows` says whether the kernel has memory; the process stays below 2^31 bytes. -/
theorem malloc_honest_iff (hbase : 0 < base) (hv : Valid base h live) (hn : nbytes < 2 ^ 32)
    (hgrow : grows = true → h.kernel.sz + toInt (request (units nbytes) * 16) < 2 ^ 31) :
    Honest base grows h live nbytes ↔ nbytes ≤ 2 ^ 31 - 32 ∨
      (2 ^ 32 - 16 < nbytes ∧ grows = false) := by
  have hsize := hv.size
  obtain ⟨hpos, hcases⟩ := request_cases hn
  rcases hcases with ⟨hsmall, hlt⟩ | ⟨hbig, hle, hlo, hhi⟩ | ⟨hbig, heq⟩
  · exact iff_of_true (hv.honest_of_le hbase hsmall hgrow) (.inl hsmall)
  · have hint : toInt (request (units nbytes) * 16) ≤ 0 := by
      rw [toInt]
      split <;> omega
    obtain ⟨sz, hs⟩ : ∃ sz, sysSbrk grows _ h.kernel = _ := sysSbrk_of_nonpos hint
    refine iff_of_false (hv.not_honest hbase hn hbig hs fun r hr =>
      (hv.below r hr).trans hsize.le) ?_
    omega
  have hint : toInt (request (units nbytes) * 16) = 16 := by
    rw [heq]
    decide
  cases grows with
  | false =>
    refine iff_of_true (hv.honest hbase hn (fun k hs => ?_) fun a k hs => ?_) (.inr ⟨hbig, rfl⟩)
    · exact (congrArg Prod.snd ((sysSbrk_of_full (by omega)).symm.trans hs)).symm
    · cases (sysSbrk_of_full (by omega)).symm.trans hs
  | true =>
    have hsz := hgrow rfl
    have hs := sysSbrk_of_pos (k := h.kernel) (by omega) hsz
    refine iff_of_false (hv.not_honest hbase hn (by omega) hs fun r hr => ?_) (by simp; omega)
    rcases List.mem_cons.mp hr with rfl | hr
    · dsimp only
      omega
    · exact (hv.below r hr).trans hsize.le

/-- A process of three pages that has not allocated yet. -/
def fresh : Heap Process := ⟨fun _ => 0, fun _ => 0, 0, ⟨12288, []⟩⟩

theorem valid_fresh : Valid 2048 fresh [] :=
  ⟨.inl ⟨rfl, rfl, rfl⟩, nofun, by decide, by decide⟩

/-- The first allocation of the process. -/
theorem malloc_honest_iff_fresh : Valid 2048 fresh [] ∧ Honest 2048 true fresh [] 65536 :=
  ⟨valid_fresh, (malloc_honest_iff (by decide) valid_fresh (by decide) fun _ => by decide).mpr
    (.inl (by decide))⟩

/-- **`malloc` returns memory that is not there.**  After a first block has been allocated the
process ends at 77840, in a page that has room for a header.  `malloc(4294967280)` asks `sbrk` for
2^32 bytes, which is 0 as an `int`.  The process does not grow, and `malloc` returns 77856. -/
theorem malloc_overpromises : ∃ h live, Valid 2048 h live ∧ h.kernel.sz = 77840 ∧
    (∃ h', malloc (sysSbrk true) 2048 h 4294967280 = some (77856, h') ∧ h'.kernel.sz = 77840) ∧
    ¬ Honest 2048 true h live 4294967280 := by
  have hrun : (malloc (sysSbrk true) 2048 fresh 65536).any (fun r =>
      r.1 = 12304 ∧ r.2.kernel.sz = 77840 ∧
      (malloc (sysSbrk true) 2048 r.2 4294967280).any fun r' =>
        r'.1 = 77856 ∧ r'.2.kernel.sz = 77840) = true := by
    decide +kernel
  obtain ⟨r, h, hfirst, hcase⟩ : Honest 2048 true fresh [] 65536 :=
    valid_fresh.honest_of_le (by decide) (by decide) fun _ => by decide
  rw [hfirst, Option.any_some, decide_eq_true_eq] at hrun
  dsimp only at hrun
  obtain ⟨rfl, hsz, hsecond⟩ := hrun
  obtain ⟨⟨r', h'⟩, hsecond, hr'⟩ : ∃ s, malloc (sysSbrk true) 2048 h 4294967280 = some s ∧
      s.1 = 77856 ∧ s.2.kernel.sz = 77840 := by
    cases hs : malloc (sysSbrk true) 2048 h 4294967280 with
    | none =>
      rw [hs] at hsecond
      cases hsecond
    | some s =>
      rw [hs] at hsecond
      exact ⟨s, rfl, of_decide_eq_true hsecond⟩
  obtain ⟨rfl, hsz'⟩ := hr'
  have hv : Valid 2048 h [12288] := by
    rcases hcase with ⟨hzero, -⟩ | ⟨-, hv, -⟩
    · cases hzero
    · exact hv
  obtain ⟨sz, hs⟩ : ∃ sz, sysSbrk true _ h.kernel = _ :=
    sysSbrk_of_nonpos (show toInt (request (units 4294967280) * 16) ≤ 0 by decide)
  exact ⟨h, [12288], hv, hsz, ⟨h', hsecond, hsz'⟩, hv.not_honest (by decide) (by decide)
    (by decide) hs
    fun r hr => (hv.below r hr).trans hv.size.le⟩

/-- `sbrk` as modelled here does with the size of a process what the kernel does. -/
theorem growproc_newSize {K : Vm.Layout} {m : Vm.Machine} {p : Vm.Proc} {n : ℤ} (hp : p.Ready K m)
    (hlo : -2 ^ 31 ≤ n) (hhi : n < 2 ^ 31) :
    Kern.Ends (fun _ => False) (Vm.growproc K p n) m fun r _ =>
      (r.1 = 0 ∧ ∃ grows, newSize grows p.sz n = some r.2.sz) ∨
        (r.1 = -1 ∧ r.2 = p ∧ newSize false p.sz n = none) := by
  have hsz := hp.sz_le
  refine (Vm.ends_growproc hp hlo hhi).mono fun r m' hr => ?_
  obtain ⟨-, -, ⟨h0, -, hsize⟩ | ⟨rfl, hpos⟩⟩ := hr
  · refine .inl ⟨h0, true, ?_⟩
    rw [newSize, Vm.addInt]
    split_ifs at hsize ⊢ <;> simp only [Option.some.injEq, not_true] at * <;> omega
  · exact .inr ⟨rfl, rfl, by rw [newSize, if_pos hpos]; rfl⟩

end Xv6.Umalloc
