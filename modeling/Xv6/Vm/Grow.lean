import Xv6.Vm.Space

/-!
# Growing and shrinking a process

`growproc` is what `sbrk` does.  It computes the new size in a 32-bit unsigned number.  A
process that is asked to give back more than it has is therefore left as it is, and told that
this went well.

## Main definitions

* `Proc`, `growproc` — the memory of a process, and changing its size.
* `GrowsExactly` — what `sbrk` promises.

## Main results

* `growproc_exact_iff` — the promise is kept exactly when the new size is not negative.
* `growproc_below_zero` — a run that breaks it.
-/

namespace Xv6.Vm

open Kern Trie

/-- The memory of a process. -/
structure Proc where
  pagetable : ℕ -- user page table
  sz : ℕ -- size of process memory (bytes)
  trapframe : ℕ -- data page for trampoline.S
  name : List UInt8 -- process name (debugging)
  deriving DecidableEq

/-- The value of a 32-bit unsigned computation. -/
def u32 (x : ℕ) : ℕ := x % 2 ^ 32

/-- The sum of a `uint` and an `int`, a `uint`. -/
def addInt (sz : ℕ) (n : ℤ) : ℕ := ((sz + n) % 2 ^ 32).toNat

/-- Grow or shrink user memory by `n` bytes: the result, and the process. -/
def growproc (K : Layout) (p : Proc) (n : ℤ) : Code (ℤ × Proc) :=
  let sz := u32 p.sz
  if 0 < n then do
    let r ← uvmalloc K p.pagetable sz (addInt sz n)
    if u32 r = 0 then
      pure (-1, p)
    else
      pure (0, { p with sz := u32 r })
  else if n < 0 then do
    let r ← uvmdealloc K p.pagetable sz (addInt sz n)
    pure (0, { p with sz := u32 r })
  else
    pure (0, { p with sz := sz })

variable {K : Layout} {m : Machine} {p : Proc} {n : ℤ} {A : Panic → Prop}

/-- The memory of a process is in order: the user pages mapped are exactly those below its
size. -/
structure Proc.Ready (K : Layout) (m : Machine) (p : Proc) : Prop where
  space : Space K m p.pagetable (pgroundup p.sz)
  size : p.sz ≤ Vm.trapframe

/-- **What `sbrk` promises.**  Either the size is the old one plus `n`, with exactly the user
pages below it mapped, new pages full of zeroes and the pages that stay as they were; or the
call fails, and the process and all it maps are as they were, with every data page given back. -/
def GrowsExactly (K : Layout) (m : Machine) (p : Proc) (n : ℤ) : Prop :=
  Ends (fun _ => False) (growproc K p n) m fun r m' =>
    (r.1 = 0 ∧ (r.2.sz : ℤ) = p.sz + n ∧ r.2.pagetable = p.pagetable ∧ r.2.Ready K m' ∧
      Kept p.pagetable (min (pgroundup p.sz) (pgroundup r.2.sz)) m m' ∧
      Fresh m' p.pagetable (pgroundup p.sz) (pgroundup r.2.sz)) ∨
    (r.1 = -1 ∧ r.2 = p ∧ p.Ready K m' ∧ (∀ va, m'.flat p.pagetable va = m.flat p.pagetable va) ∧
      Kept p.pagetable (pgroundup p.sz) m m' ∧
      ∀ f, m'.Tables p.pagetable f ∨ f ∈ m'.freelist ↔ m.Tables p.pagetable f ∨ f ∈ m.freelist)

theorem Proc.Ready.sz_le (h : p.Ready K m) : p.sz ≤ 134217728 := by
  have hstop := h.space.stop_le
  have hphys : phystop - kernbase = 134217728 := by decide
  have hsize := h.size
  have htf := trapframe_lt
  rw [pgroundup_eq (by omega)] at hstop
  omega

theorem u32_of_lt {x : ℕ} (h : x < 2 ^ 32) : u32 x = x := Nat.mod_eq_of_lt h

/-- A failed `uvmalloc` leaves the flat map as it was, and the pages where they were. -/
theorem Space.unchanged {root stop : ℕ} {m' : Machine} (h : Space K m root stop)
    (h' : Space K m' root stop)
    (hmoves : Moves K root m m') (hkept : Kept root stop m m') :
    (∀ va, m'.flat root va = m.flat root va) ∧
      ∀ f, m'.Tables root f ∨ f ∈ m'.freelist ↔ m.Tables root f ∨ f ∈ m.freelist := by
  have hflat : ∀ va, m'.flat root va = m.flat root va := by
    intro va
    by_cases hva : va < stop
    · exact hkept.flat va hva
    by_cases htop : va < trapframe
    · have hnone := mt (h.mapped va htop).mp hva
      have hnone' := mt (h'.mapped va htop).mp hva
      rw [Option.not_isSome_iff_eq_none] at hnone hnone'
      rw [hnone, hnone']
    · exact hmoves.top va (by omega)
  refine ⟨hflat, fun f => ?_⟩
  have hframes : m'.Frames root 0 trapframe f ↔ m.Frames root 0 trapframe f := by
    simp only [Machine.Frames, hflat]
  by_cases hf : m.Frames root 0 trapframe f
  · -- a frame of the space is neither a page-table page nor free, before and after
    obtain ⟨b, fl, -, -, hb, hm⟩ := hf
    obtain ⟨-, -, ht, hfree⟩ := h.leaf b f fl hb hm
    obtain ⟨-, -, ht', hfree'⟩ := h'.leaf b f fl hb ((hflat b).trans hm)
    exact iff_of_false (not_or.mpr ⟨ht', hfree'⟩) (not_or.mpr ⟨ht, hfree⟩)
  · have hkeep := hmoves.keep f
    rw [Machine.Owns, Machine.Owns, or_iff_left hf, or_iff_left (mt hframes.mp hf)] at hkeep
    exact hkeep

theorem growproc_of_neg (h : p.Ready K m) (hn : -2 ^ 31 ≤ n) (hneg : (p.sz : ℤ) + n < 0) :
    growproc K p n m = .ok ((0, p), m) := by
  have hsz := h.sz_le
  have hwrap : p.sz ≤ addInt p.sz n := by
    rw [addInt]
    omega
  have hdealloc : uvmdealloc K p.pagetable p.sz (addInt p.sz n) = pure p.sz := by
    rw [uvmdealloc, if_pos hwrap]
  rw [growproc, u32_of_lt (by omega), if_neg (by omega), if_pos (by omega), hdealloc]
  have hp : { p with sz := u32 p.sz } = p := by rw [u32_of_lt (by omega)]
  exact congrArg (fun q => Outcome.ok ((0, q), m)) hp

/-- **What `growproc` does**, whatever it is asked for. -/
theorem ends_growproc (h : p.Ready K m) (hlo : -2 ^ 31 ≤ n) (hhi : n < 2 ^ 31) :
    Ends A (growproc K p n) m fun r m' => Moves K p.pagetable m m' ∧ r.2.Ready K m' ∧
      ((r.1 = 0 ∧ r.2 = { p with sz := r.2.sz } ∧
          (r.2.sz : ℤ) = if (p.sz : ℤ) + n < 0 then (p.sz : ℤ) else p.sz + n) ∨
          (r = (-1, p) ∧ 0 < n)) := by
  have hsz := h.sz_le
  by_cases hneg : (p.sz : ℤ) + n < 0
  · -- the sum wraps round to a large one, and `uvmdealloc` does nothing
    rw [Ends, growproc_of_neg h hlo hneg]
    exact ⟨.refl, h, .inl ⟨rfl, rfl, (if_pos hneg).symm⟩⟩
  have hadd : (addInt p.sz n : ℤ) = p.sz + n := by
    rw [addInt]
    omega
  rw [growproc, u32_of_lt (by omega), if_neg hneg]
  by_cases hpos : 0 < n
  · -- memory is added
    rw [if_pos hpos, ends_bind]
    refine (ends_uvmalloc h.space h.size (by omega)).mono fun r m' hr => ?_
    rcases hr with ⟨rfl, hle, hs, hm, -⟩ | ⟨rfl, hs, hm, -⟩
    · rw [u32_of_lt (by omega), if_neg (by omega)]
      exact ⟨hm, ⟨hs, hle⟩, .inl ⟨rfl, rfl, hadd⟩⟩
    · rw [if_pos (show u32 0 = 0 from rfl)]
      exact ⟨hm, ⟨hs, h.size⟩, .inr ⟨rfl, hpos⟩⟩
  rw [if_neg hpos]
  by_cases hlt : n < 0
  · -- memory is given back
    rw [if_pos hlt, ends_bind]
    refine (ends_uvmdealloc h.space h.size (by omega)).mono fun r m' hr => ?_
    obtain ⟨rfl, hs, hm, -⟩ := hr
    have hsize := h.size
    rw [u32_of_lt (by omega)]
    exact ⟨hm, ⟨hs, show addInt p.sz n ≤ trapframe by omega⟩, .inl ⟨rfl, rfl, hadd⟩⟩
  · rw [if_neg hlt]
    exact ⟨.refl, h, .inl ⟨rfl, rfl, show (p.sz : ℤ) = p.sz + n by omega⟩⟩

theorem growsExactly_of_nonneg (h : p.Ready K m) (hn : n < 2 ^ 31) (hnonneg : 0 ≤ (p.sz : ℤ) + n) :
    GrowsExactly K m p n := by
  have hsz := h.sz_le
  have hsize := h.size
  have hspace := h.space
  have hadd : (addInt p.sz n : ℤ) = p.sz + n := by
    rw [addInt]
    omega
  rw [GrowsExactly, growproc, u32_of_lt (by omega)]
  split
  · rename_i hpos
    rw [ends_bind]
    refine (ends_uvmalloc hspace hsize (by omega)).mono fun r m' hm' => ?_
    rcases hm' with ⟨rfl, hr, hs, -, hk, hfresh⟩ | ⟨rfl, hs, hmv, hk⟩
    · rw [u32_of_lt (by omega), if_neg (by omega)]
      exact .inl ⟨rfl, hadd, rfl, ⟨hs, hr⟩, hk.mono (Nat.min_le_left _ _), hfresh⟩
    · rw [if_pos (show u32 0 = 0 from rfl)]
      obtain ⟨hflat, hpages⟩ := hspace.unchanged hs hmv hk
      exact .inr ⟨rfl, rfl, ⟨hs, hsize⟩, hflat, hk, hpages⟩
  split
  · rename_i hneg
    rw [ends_bind]
    refine (ends_uvmdealloc hspace hsize (by omega)).mono fun r m' hm' => ?_
    obtain ⟨rfl, hs, -, hk⟩ := hm'
    rw [u32_of_lt (by omega)]
    refine .inl ⟨rfl, hadd, rfl, ⟨hs, ?_⟩, hk.mono (Nat.min_le_right _ _), fun va hlo hhi => ?_⟩
    · show addInt p.sz n ≤ trapframe
      omega
    -- the space has shrunk, so there are no new pages
    have hle : pgroundup (addInt p.sz n) ≤ pgroundup p.sz := by
      have htf := trapframe_lt
      rw [pgroundup_eq (by omega), pgroundup_eq (by omega)]
      omega
    exact absurd hhi (by show ¬ va < pgroundup (addInt p.sz n); omega)
  · obtain rfl : n = 0 := by omega
    refine .inl ⟨rfl, (Int.add_zero _).symm, rfl, h, .refl, fun va hlo hhi => ?_⟩
    exact absurd hhi (by show ¬ va < pgroundup p.sz; omega)

/-- **`sbrk` is exact exactly when the new size is not negative.** -/
theorem growproc_exact_iff (h : p.Ready K m) (hn : -2 ^ 31 ≤ n) (hn' : n < 2 ^ 31) :
    GrowsExactly K m p n ↔ 0 ≤ (p.sz : ℤ) + n := by
  constructor
  · intro hexact
    by_contra hneg
    have hrun := growproc_of_neg h hn (by omega)
    rcases hexact.of_ok hrun with ⟨-, hsz, -⟩ | ⟨hbad, -⟩
    · have hsz' : (p.sz : ℤ) = p.sz + n := hsz
      omega
    · have hbad' : (0 : ℤ) = -1 := hbad
      omega
  · exact growsExactly_of_nonneg h hn'

/-- Memory full of zeroes, with the page after the kernel in use and then `n` free pages. -/
def freeMachine (n : ℕ) : Machine where
  mem := fun _ => Bytes.zero
  freelist := (List.range n).map fun i => kernbase + (3 + i) * pgsize

theorem freeMachine_heap {n : ℕ} (hn : n ≤ 16) : Heap smallLayout (freeMachine n) := by
  refine ⟨List.nodup_range.map fun i j hij => ?_, fun f hf => ?_⟩
  · simp only [pgsize] at hij
    omega
  obtain ⟨i, hi, rfl⟩ := List.mem_map.mp hf
  have hi' := List.mem_range.mp hi
  have hend : smallLayout.kend = 2147491840 := by decide
  have hstop : phystop = 2281701376 := by decide
  have hbase : kernbase = 2147483648 := by decide
  refine ⟨?_, ?_, ?_⟩ <;> simp only [hend, hstop, hbase, pgsize] <;> omega

/-- A process with one page of memory. -/
theorem exists_onePage_ready : ∃ m p, Proc.Ready smallLayout m p ∧ p.sz = pgsize := by
  have hrun : ((uvmalloc smallLayout (kernbase + 2 * pgsize) 0 pgsize) (freeMachine 4)).check
      (fun r => r.1 = pgsize) = true := by decide +kernel
  obtain ⟨⟨r, m⟩, hrun, hr⟩ := Outcome.exists_of_check hrun
  obtain rfl : r = pgsize := of_decide_eq_true hr
  have hram : smallLayout.Ram (kernbase + 2 * pgsize) := ⟨by decide, by decide, by decide⟩
  have hblank := Table.blank hram (show _ ∉ (freeMachine 4).freelist by decide) rfl
  have hspace : Space smallLayout (freeMachine 4) (kernbase + 2 * pgsize) (pgroundup 0) :=
    .of_none (freeMachine_heap (by decide)) hblank.1 fun va _ => hblank.2.2 va
  generalize freeMachine 4 = m₀ at *
  have hgrow : Ends (fun _ => False) (uvmalloc smallLayout (kernbase + 2 * pgsize) 0 pgsize) m₀ _ :=
    ends_uvmalloc hspace (Nat.zero_le _) (Nat.zero_le _)
  rcases hgrow.of_ok hrun with ⟨-, hle, hs, -⟩ | ⟨hbad, -⟩
  · exact ⟨m, ⟨kernbase + 2 * pgsize, pgsize, 0, []⟩, ⟨hs, hle⟩, rfl⟩
  · exact absurd hbad (by decide)

/-- A process with one page of memory gives it back. -/
theorem growproc_exact_iff_onePage : ∃ m p, Proc.Ready smallLayout m p ∧ p.sz = pgsize ∧
    GrowsExactly smallLayout m p (-4096) := by
  obtain ⟨m, p, hready, hsz⟩ := exists_onePage_ready
  refine ⟨m, p, hready, hsz, (growproc_exact_iff hready (by decide) (by decide)).mpr ?_⟩
  rw [hsz]
  decide

/-- **Giving back more than there is.**  A process of one page asks to shrink by two.  The call
returns 0, although nothing has changed. -/
theorem growproc_below_zero : ∃ m p, Proc.Ready smallLayout m p ∧ p.sz = pgsize ∧
    growproc smallLayout p (-8192) m = .ok ((0, p), m) ∧
    ¬ GrowsExactly smallLayout m p (-8192) := by
  obtain ⟨m, p, hready, hsz⟩ := exists_onePage_ready
  have hrun : growproc smallLayout p (-8192) m = .ok ((0, p), m) := by
    refine growproc_of_neg hready (by decide) ?_
    rw [hsz]
    decide
  refine ⟨m, p, hready, hsz, hrun, fun hexact => ?_⟩
  rcases hexact.of_ok hrun with ⟨-, hbad, -⟩ | ⟨hbad, -⟩
  · have hbad' : (p.sz : ℤ) = p.sz + -8192 := hbad
    omega
  · have hbad' : (0 : ℤ) = -1 := hbad
    omega

end Xv6.Vm
