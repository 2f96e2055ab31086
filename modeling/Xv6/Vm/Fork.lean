import Xv6.Vm.Load

/-!
# The memory of a child

`fork` copies the memory of a process page by page into the page table of its child.  No page of
the one is a page of the other afterwards, so what is written through one table cannot be seen
through the other.

## Main definitions

* `Copied` — the child maps what the parent maps, with the same flags and the same contents.
* `Machine.poke`, `Machine.peek` — writing and reading a byte through a page table.

## Main results

* `Space.poke_private` — writes through one of two tables without a page in common are not seen
  through the other.
* `fork_copies` — `uvmcopy` gives an independent copy, or takes back all it has done.
* `lifetime_frees` — a child leaves no page behind.
-/

namespace Xv6.Vm

open Kern

variable {K : Layout} {m m' : Machine} {root old new stop stop' sz i va pa flags f : ℕ}
  {A : Panic → Prop}

/-! ### Two spaces -/

/-- The two tables have no page in common. -/
def Separate (m : Machine) (old new : ℕ) : Prop := ∀ f, m.Owns old f → ¬ m.Owns new f

/-- **One space while another one changes.** -/
theorem Space.other (h : Space K m old stop) (hsep : Separate m old new) (hmv : Moves K new m m')
    (hheap : Heap K m') : Space K m' old stop ∧ Separate m' old new ∧
      (∀ va, m'.flat old va = m.flat old va) ∧ (∀ f, m'.Owns old f ↔ m.Owns old f) ∧
      ∀ f, m.Owns old f → m'.page f = m.page f := by
  have hpage : ∀ f, m.Owns old f → m'.page f = m.page f := fun f ho =>
    hmv.page f (h.ram ho).aligned (hsep f ho) (h.used ho)
  have hkeep : ∀ f, m.Owns old f → ¬ (m'.Owns new f ∨ f ∈ m'.freelist) := fun f ho hor =>
    ((hmv.keep f).mp hor).elim (hsep f ho) (h.used ho)
  obtain ⟨hspace, howns, hflat⟩ := h.congr hheap (fun f ht => hpage f (.inl ht))
    fun f ho hf => hkeep f ho (.inr hf)
  exact ⟨hspace, fun f ho hn => hkeep f ((howns f).mp ho) (.inl hn), hflat, howns, hpage⟩

/-- Write a byte through a page table, at an address that is mapped. -/
def Machine.poke (m : Machine) (root : ℕ) (w : ℕ × UInt8) : Machine :=
  match m.flat root w.1 with
  | some (pa, _) => m.setByte (pa + w.1 % pgsize) w.2
  | none => m

/-- Read a byte through a page table. -/
def Machine.peek (m : Machine) (root va : ℕ) : Option UInt8 :=
  (m.flat root va).map fun e => (m.page e.1).get (va % pgsize)

/-- **Writes are private.**  Writes through one table, to any user addresses, are not seen through
another table without a page in common. -/
theorem Space.poke_private {ws : List (ℕ × UInt8)} (h : Space K m old stop)
    (h' : Space K m new stop')
    (hsep : Separate m old new) (hws : ∀ w ∈ ws, w.1 < trapframe) (hva : va < trapframe) :
    (ws.foldl (Machine.poke · new) m).peek old va = m.peek old va := by
  induction ws generalizing m with
  | nil => rfl
  | cons w ws ih =>
    have hw := hws w List.mem_cons_self
    have hrest : ∀ w ∈ ws, w.1 < trapframe := fun x hx => hws x (List.mem_cons_of_mem w hx)
    rw [List.foldl_cons, Machine.poke]
    split
    swap
    · exact ih h h' hsep hrest
    rename_i pa flags hflat
    have hleaf := h'.leaf w.1 pa flags hw hflat
    have hown : m.Owns new pa := owns_of_flat hw hflat
    -- one page changes, which is neither a page of the old table nor a page-table page
    have hdiv : (pa + w.1 % pgsize) / pgsize = pa / pgsize := by
      have := hleaf.2.1.aligned
      simp only [pgsize] at *
      omega
    have hpage : ∀ f, f % pgsize = 0 → f ≠ pa →
        (m.setByte (pa + w.1 % pgsize) w.2).page f = m.page f := by
      intro f hal hne
      refine page_setPage_of_ne _ ?_
      rw [hdiv]
      exact div_ne_of_ne hal hleaf.2.1.aligned hne
    have hne : ∀ f, m.Owns old f → f ≠ pa := fun f ho heq => hsep f ho (heq ▸ hown)
    have hheap : Heap K (m.setByte (pa + w.1 % pgsize) w.2) := ⟨h.heap.nodup, h.heap.ram⟩
    obtain ⟨hs, ho, hf⟩ := h.congr hheap
      (fun f ht => hpage f (h.ram (.inl ht)).aligned (hne f (.inl ht))) fun f ho => h.used ho
    obtain ⟨hs', ho', -⟩ := h'.congr hheap
      (fun f ht => hpage f (h'.ram (.inl ht)).aligned fun heq => hleaf.2.2.1 (heq ▸ ht))
      fun f ho => h'.used ho
    rw [ih hs hs' (fun f hof hnf => hsep f ((ho f).mp hof) ((ho' f).mp hnf)) hrest, Machine.peek,
      Machine.peek, hf]
    cases hva' : m.flat old va with
    | none => rfl
    | some e =>
      have hown' : m.Owns old e.1 := owns_of_flat hva hva'
      rw [Option.map_some, Option.map_some, hpage e.1 (h.ram hown').aligned (hne e.1 hown')]

/-! ### The copy -/

/-- The pages below `i` have been copied. -/
def Copied (m : Machine) (old new i : ℕ) : Prop :=
  ∀ va, va < i → ∃ pa pa' flags, m.flat old va = some (pa, flags) ∧
    m.flat new va = some (pa', flags) ∧
    m.page pa' = m.page pa

/-- The state of `uvmcopy` when the pages below `i` have been copied, from `m₀` on. -/
structure Copying (K : Layout) (m₀ m : Machine) (old new stop i : ℕ) : Prop where
  parent : Space K m old stop
  child : Space K m new i
  separate : Separate m old new
  flat : ∀ va, m.flat old va = m₀.flat old va
  owns : ∀ f, m.Owns old f ↔ m₀.Owns old f
  page : ∀ f, m₀.Owns old f → m.page f = m₀.page f
  copied : Copied m old new i
  moves : Moves K new m₀ m

theorem Copying.moved {m₀ : Machine} {j : ℕ} (h : Copying K m₀ m old new stop i)
    (hmv : Moves K new m m')
    (hs : Space K m' new j) (hc : Copied m' old new j) : Copying K m₀ m' old new stop j := by
  obtain ⟨hp, hsep, hflat, howns, hpage⟩ := h.parent.other h.separate hmv hs.heap
  refine ⟨hp, hs, hsep, fun va => (hflat va).trans (h.flat va), fun f => (howns f).trans (h.owns f),
    fun f ho => ?_, hc, h.moves.trans hmv⟩
  rw [hpage f ((h.owns f).mpr ho), h.page f ho]

/-- What has been copied stays so while the child keeps its pages. -/
theorem Copying.kept {m₀ : Machine} (h : Copying K m₀ m old new stop i) (hmv : Moves K new m m')
    (hheap : Heap K m') (hk : Kept new i m m') : Copied m' old new i := by
  have hle := h.child.le
  obtain ⟨-, -, hflat, -, hpage⟩ := h.parent.other h.separate hmv hheap
  intro va hva
  obtain ⟨pa, pa', flags, hold, hchild, hsame⟩ := h.copied va hva
  refine ⟨pa, pa', flags, (hflat va).trans hold, (hk.flat va hva).trans hchild, ?_⟩
  rw [hk.page va pa' flags hva hchild, hsame, hpage pa (owns_of_flat (by omega) hold)]

/-- `err`: what was copied is unmapped and freed. -/
theorem Copying.ends_err {m₀ : Machine} (h : Copying K m₀ m old new stop i) :
    Ends A (do uvmunmap K new 0 (i / pgsize) true; pure (-1 : ℤ)) m fun r m' =>
      r = -1 ∧ Copying K m₀ m' old new stop 0 ∧
        m'.freelist.length ≤ m.freelist.length + i / pgsize := by
  have hal := h.child.aligned
  rw [ends_bind]
  refine (h.child.ends_uvmunmap (show 0 % pgsize = 0 from rfl) ?_).mono fun _ m' hm' => ?_
  · simp only [pgsize] at *
    omega
  · exact ⟨rfl, h.moved hm'.2.1 hm'.1 fun va hva => absurd hva (Nat.not_lt_zero va), hm'.2.2.2⟩

theorem Copying.page_copied {m₀ m₁ m₂ : Machine} {n : ℕ} (h : Copying K m₀ m old new stop i)
    (hi : i < trapframe) (hflat : m.flat old i = some (pa, flags)) (htaken : Taken K new m m₁ n)
    (hpage : m₁.page n = m.page pa) (hg : Grows K new m₁ m₂)
    (hnew : ∀ va, m₂.flat new va = if va / pgsize = i / pgsize then some (n, flags)
      else m₁.flat new va)
    (hroom : i + pgsize ≤ trapframe) : Copying K m₀ m₂ old new stop (i + pgsize) := by
  have hflags := (h.parent.leaf i pa flags hi hflat).1
  obtain ⟨hs, hmv, hk, hn⟩ := h.child.grow hroom htaken hg hflags hnew
  have hal := h.child.aligned
  obtain ⟨-, -, hflat', -, hpage'⟩ := h.parent.other h.separate hmv hs.heap
  refine h.moved hmv hs fun va hva => ?_
  by_cases hlow : va < i
  · exact h.kept hmv hs.heap hk va hlow
  rw [hflat']
  have hin : va / pgsize = i / pgsize := by
    simp only [pgsize] at *
    omega
  refine ⟨pa, n, flags, (flat_congr_page hin).trans hflat, (hnew va).trans (if_pos hin), ?_⟩
  rw [hn, hpage, hpage' pa (owns_of_flat hi hflat)]

/-- `mappages` sets the valid bit, which the flags of a valid entry already have. -/
theorem pteFlags_or_pteV {e : ℕ} (he : e &&& pteV ≠ 0) : pteFlags e ||| pteV = pteFlags e := by
  rw [valid_iff] at he
  rw [pteFlags_eq, pteV, Nat.shiftLeft_zero]
  refine Nat.eq_of_testBit_eq fun k => ?_
  rw [Nat.testBit_or]
  cases k with
  | zero => simp [Nat.testBit_zero, show e % 1024 % 2 = 1 by omega]
  | succ k => simp [Nat.testBit_succ]

/-- **The loop of `uvmcopy`.** -/
theorem ends_uvmcopyLoop {m₀ : Machine} {fuel : ℕ} (h : Copying K m₀ m old new (pgroundup sz) i)
    (hsz : sz ≤ trapframe) (hle : i ≤ pgroundup sz)
    (hfuel : (phystop - kernbase - i) / pgsize < fuel) :
    Ends A (uvmcopyLoop K old new sz fuel i) m fun r m' =>
      (r = 0 ∧ Copying K m₀ m' old new (pgroundup sz) (pgroundup sz)) ∨
        (r = -1 ∧ Copying K m₀ m' old new (pgroundup sz) 0 ∧
          m'.freelist.length ≤ pgroundup sz / pgsize) := by
  have htf := trapframe_lt
  have htf' : trapframe = 274877898752 := by decide
  have hphys : phystop - kernbase = 134217728 := by decide
  have hround := pgroundup_eq (show sz ≤ maxva by omega)
  induction fuel generalizing m i with
  | zero => exact absurd hfuel (Nat.not_lt_zero _)
  | succ fuel ih =>
    have hal := h.child.aligned
    have hstop := h.parent.le
    rw [uvmcopyLoop]
    split
    swap
    · -- every page has been copied
      have heq : pgroundup sz = i := by
        simp only [pgsize] at hal
        omega
      exact .inl ⟨rfl, heq.symm ▸ h⟩
    next hlt =>
    have hmax : i < maxva := by omega
    have hnext : i + pgsize ≤ pgroundup sz := by
      simp only [pgsize] at *
      omega
    obtain ⟨⟨pa, flags⟩, hflat⟩ := Option.isSome_iff_exists.mp
      ((h.parent.mapped i (by omega)).mpr (show i < pgroundup sz by omega))
    rw [ends_bind, ends_walk_false hmax]
    cases hslot : m.slot old i with
    | none =>
      rw [Machine.flat, if_pos hmax, hslot, Option.bind_none] at hflat
      cases hflat
    | some pte =>
      have hleaf := (flat_of_slot hmax hslot).symm.trans hflat
      rw [leaf] at hleaf
      split at hleaf
      swap
      · cases hleaf
      next hvalid =>
      obtain ⟨rfl, rfl⟩ := Prod.mk.inj (Option.some.inj hleaf)
      have hperm : pteFlags (m.load64 pte) < 1024 := by
        rw [pteFlags_eq]
        exact Nat.mod_lt _ (by decide)
      rw [Option.getD_some, if_neg (h.parent.table.slot_ne_zero hslot), ends_bind, load64,
        ends_read, if_neg hvalid, ends_bind]
      cases hfree : m.freelist with
      | nil =>
        -- no page for the copy: all that is free at the end are the copies made before
        rw [ends_kalloc_nil hfree, if_pos rfl]
        refine h.ends_err.mono fun r m' hr => .inr ⟨hr.1, hr.2.1, hr.2.2.trans ?_⟩
        simp only [hfree, List.length_nil, pgsize] at *
        omega
      | cons n rest =>
        have htaken := taken_of_cons
          (v := ({ m with freelist := rest }.memset n 5).page (pte2pa (m.load64 pte)))
          h.child.heap h.child.table hfree
        have hram := htaken.new.1
        have hnlt := hram.lt
        have hown := owns_of_flat (show i < trapframe by omega) hflat
        have hne : pte2pa (m.load64 pte) ≠ n := fun heq =>
          h.parent.used hown (heq ▸ hfree ▸ List.mem_cons_self)
        have hpage : ({ m with freelist := rest }.memset n 5).page (pte2pa (m.load64 pte)) =
            m.page (pte2pa (m.load64 pte)) :=
          page_setPage_of_ne _ (div_ne_of_ne (h.parent.ram hown).aligned hram.aligned hne)
        have hnone := htaken.flat i
        rw [Option.not_isSome_iff_eq_none.mp
          (mt (h.child.mapped i (by omega)).mp (Nat.lt_irrefl i))]
          at hnone
        rw [ends_kalloc_cons hfree, if_neg hram.pos, ends_bind, ends_write, ends_bind]
        refine (ends_mappages_page htaken.heap htaken.table hal hmax hnone hram.aligned (by omega)
          hperm).mono fun r m₂ hm₂ => ?_
        rw [pteFlags_or_pteV hvalid] at hm₂
        obtain ⟨hg, ⟨rfl, hnew⟩ | ⟨rfl, hnil, hsame⟩⟩ := hm₂
        · rw [if_neg (not_not.mpr rfl), u64, Nat.mod_eq_of_lt (by omega)]
          have hc := h.page_copied (by omega) hflat htaken ((page_setPage_self _).trans hpage) hg
            hnew (by omega)
          have hstop₂ := hc.child.stop_le
          refine ih hc hnext ?_
          simp only [hphys, pgsize] at *
          omega
        · -- no page for the page table: this copy is freed, and then those made before
          rw [if_pos (by decide), ends_bind, ends_kfree hram]
          obtain ⟨hs, hmv, hk⟩ := h.child.giveUp htaken hg hsame
          refine (h.moved hmv hs (h.kept hmv hs.heap hk)).ends_err.mono fun r m' hr =>
            .inr ⟨hr.1, hr.2.1, hr.2.2.trans ?_⟩
          have hone : (m₂.release n).freelist.length = 1 := congrArg (List.length ∘ (n :: ·)) hnil
          simp only [hone, pgsize] at *
          omega

/-- What `fork` promises of the memory of the child at `new`.  The parent's is as it was.  If the
copy succeeds, the child maps every page with the flags and the contents it has in the parent to a
frame of its own, and no writes through one table are seen through the other.  If it fails, the
child maps nothing and has no pages but those of its page table, all others being free again; it
fails only for want of memory, so that no more pages are free then than the parent has. -/
def CopiesMemory (K : Layout) (m : Machine) (old new sz : ℕ) : Prop :=
  Ends (fun _ => False) (uvmcopy K old new sz) m fun r m' =>
    ((∀ va, m'.flat old va = m.flat old va) ∧ ∀ f, m.Owns old f → m'.page f = m.page f) ∧
    ((r = 0 ∧
      (∀ va, va < pgroundup sz → ∃ pa pa' flags, m'.flat old va = some (pa, flags) ∧
        m'.flat new va = some (pa', flags) ∧ m'.page pa' = m'.page pa ∧ ¬ m'.Owns old pa' ∧
        ∀ vb flags', vb < trapframe → m'.flat new vb = some (pa', flags') →
          va / pgsize = vb / pgsize) ∧
      ∀ ws : List (ℕ × UInt8), (∀ w ∈ ws, w.1 < trapframe) → ∀ va, va < trapframe →
        (ws.foldl (Machine.poke · new) m').peek old va = m'.peek old va ∧
          (ws.foldl (Machine.poke · old) m').peek new va = m'.peek new va) ∨
    (r = -1 ∧ (∀ va, va < trapframe → m'.flat new va = none) ∧
      (∀ f, m'.Tables new f ∨ f ∈ m'.freelist ↔ m.Tables new f ∨ f ∈ m.freelist) ∧
      m'.freelist.length ≤ pgroundup sz / pgsize))

/-- **A child has a copy of its own.** -/
theorem fork_copies (h : Space K m old (pgroundup sz)) (hsz : sz ≤ trapframe) (hc : Space K m new 0)
    (hsep : Separate m old new) : CopiesMemory K m old new sz := by
  have hstart : Copying K m m old new (pgroundup sz) 0 :=
    ⟨h, hc, hsep, fun _ => rfl, fun _ => Iff.rfl, fun _ _ => rfl,
      fun va hva => absurd hva (Nat.not_lt_zero va), .refl⟩
  refine (ends_uvmcopyLoop hstart hsz (Nat.zero_le _) (by decide)).mono fun r m' hm' => ?_
  rcases hm' with ⟨rfl, hend⟩ | ⟨rfl, hend, hlen⟩
  · have hle := hend.child.le
    refine ⟨⟨hend.flat, hend.page⟩, .inl ⟨rfl, fun va hva => ?_, fun ws hws va hva => ⟨?_, ?_⟩⟩⟩
    · obtain ⟨pa, pa', flags, hold, hnew, hsame⟩ := hend.copied va hva
      refine ⟨pa, pa', flags, hold, hnew, hsame, fun ho => ?_, fun vb flags' hvb hvb' => ?_⟩
      · exact hend.separate pa' ho (owns_of_flat (by omega) hnew)
      · exact hend.child.inj va vb pa' flags flags' (by omega) hvb hnew hvb'
    · exact hend.parent.poke_private hend.child hend.separate hws hva
    · exact hend.child.poke_private hend.parent (fun f hn ho => hend.separate f ho hn) hws hva
  · have hkept : Kept new 0 m m' :=
      ⟨fun va hva => absurd hva (Nat.not_lt_zero va), fun va _ _ hva =>
        absurd hva (Nat.not_lt_zero va)⟩
    refine ⟨⟨hend.flat, hend.page⟩, .inr ⟨rfl, fun va hva => ?_,
      (hc.unchanged hend.child hend.moves hkept).2, hlen⟩⟩
    exact Option.not_isSome_iff_eq_none.mp (mt (hend.child.mapped va hva).mp (Nat.not_lt_zero va))

/-- A parent with one page, and an empty child; there is memory enough, and the copy succeeds. -/
theorem fork_copies_onePage : ∃ m old new, Space smallLayout m old (pgroundup 1) ∧ 1 ≤ trapframe ∧
    Space smallLayout m new 0 ∧ Separate m old new ∧ CopiesMemory smallLayout m old new 1 ∧
      ∃ m', uvmcopy smallLayout old new 1 m = .ok (0, m') := by
  have hrun : (procPagetable smallLayout (kernbase + 2 * pgsize) (freeMachine 16)).check
      (fun r => r.1 ≠ 0 && (uvmalloc smallLayout r.1 0 1 r.2).check fun r' => r'.1 ≠ 0 &&
        (procPagetable smallLayout (kernbase + 2 * pgsize) r'.2).check fun r'' => r''.1 ≠ 0 &&
          (uvmcopy smallLayout r.1 r''.1 1 r''.2).check fun x => x.1 = 0) = true := by
    decide +kernel
  obtain ⟨⟨old, m⟩, hold, hrun⟩ := Outcome.exists_of_check hrun
  obtain ⟨hpos, hrun⟩ := Bool.and_eq_true_iff.mp hrun
  obtain ⟨⟨sz, m₁⟩, halloc, hrun⟩ := Outcome.exists_of_check hrun
  obtain ⟨hpos₁, hrun⟩ := Bool.and_eq_true_iff.mp hrun
  obtain ⟨⟨new, m₂⟩, hnew, hrun⟩ := Outcome.exists_of_check hrun
  obtain ⟨hpos₂, hrun⟩ := Bool.and_eq_true_iff.mp hrun
  obtain ⟨⟨r, m₃⟩, hcopy, hzero⟩ := Outcome.exists_of_check hrun
  obtain rfl : r = 0 := of_decide_eq_true hzero
  obtain ⟨himage, -⟩ := made_of_procPagetable (freeMachine_heap le_rfl) (by decide) (by decide) hold
    (of_decide_eq_true hpos)
  have hgrow : Ends (fun _ => False) (uvmalloc smallLayout old 0 1) m _ :=
    ends_uvmalloc himage.space (Nat.zero_le _) (Nat.zero_le _)
  obtain ⟨-, -, hspace, -⟩ := (hgrow.of_ok halloc).resolve_right
    fun hbad => of_decide_eq_true hpos₁ hbad.1
  obtain ⟨hchild, hbuilt⟩ := made_of_procPagetable hspace.heap (by decide) (by decide) hnew
    (of_decide_eq_true hpos₂)
  have hkeep : ∀ f, m₁.Owns old f → ¬ (m₂.Owns new f ∨ f ∈ m₂.freelist) := fun f ho hor =>
    hspace.used ho ((hbuilt.keep f).mp hor)
  obtain ⟨hparent, howns, -⟩ := hspace.congr hchild.space.heap
    (fun f ht => hbuilt.page f (hspace.ram (.inl ht)).aligned (hspace.used (.inl ht)))
    fun f ho hf => hkeep f ho (.inr hf)
  have hsep : Separate m₂ old new := fun f ho hn => hkeep f ((howns f).mp ho) (.inl hn)
  exact ⟨m₂, old, new, hparent, by decide, hchild.space, hsep,
    fork_copies hparent (by decide) hchild.space hsep, m₃, hcopy⟩

/-! ### From fork to freeproc -/

/-- A process calls `sbrk` for each of `ns`, and its memory is freed. -/
def live (K : Layout) : List ℤ → Proc → Code Unit
  | [], p => procFreepagetable K p.pagetable p.sz
  | n :: ns, p => do
    let r ← growproc K p n
    live K ns r.2

/-- The memory of a child, from `fork` by a parent with the table `old` to `freeproc`. -/
def lifetime (K : Layout) (old sz tf : ℕ) (ns : List ℤ) : Code Unit := do
  let new ← procPagetable K tf
  if new = 0 then
    pure ()
  else
    let r ← uvmcopy K old new sz
    if r < 0 then live K [] ⟨new, 0, tf, []⟩ else live K ns ⟨new, sz, tf, []⟩

/-- An image built out of free pages gives them back. -/
theorem Built.ends_live {ns : List ℤ} (hns : ∀ n ∈ ns, -2 ^ 31 ≤ n ∧ n < 2 ^ 31) {p : Proc}
    (hi : Image K m' p.pagetable (pgroundup p.sz) p.trapframe) (hle : p.sz ≤ trapframe)
    (hb : Built m m' p.pagetable) :
    Ends A (live K ns p) m' fun _ m' => Freed K (fun _ => False) m m' := by
  induction ns generalizing p m' with
  | nil => exact (ends_procFreepagetable hi).mono fun _ m' hf => hb.freed hf
  | cons n ns ih =>
    obtain ⟨hlo, hhi⟩ := hns n List.mem_cons_self
    rw [live, ends_bind]
    refine (ends_growproc ⟨hi.space, hle⟩ hlo hhi).mono fun r m₃ h₃ => ?_
    obtain ⟨hm, hready, hr⟩ := h₃
    have hp : r.2 = { p with sz := r.2.sz } := by
      rcases hr with ⟨-, hr, -⟩ | ⟨rfl, -⟩
      · exact hr
      · rfl
    have htramp := trampoline_eq
    rw [hp] at hready ⊢
    refine ih (fun k hk => hns k (List.mem_cons_of_mem n hk)) ⟨hready.space, ?_, ?_⟩ hready.size
      (hb.moves hm)
    · exact (hm.top _ (by omega)).trans hi.trampoline
    · exact (hm.top _ (Nat.le_refl _)).trans hi.trapframe

/-- **A child leaves nothing behind.**  Whatever `sbrk` calls it makes, and wherever memory runs
out on the way, no function panics, the free pages are those from before, and no page that was in
use has changed. -/
theorem lifetime_frees {tf : ℕ} {ns : List ℤ} (h : Space K m old (pgroundup sz))
    (hsz : sz ≤ trapframe)
    (htf : tf % pgsize = 0) (htf' : tf < 2 ^ 56) (hns : ∀ n ∈ ns, -2 ^ 31 ≤ n ∧ n < 2 ^ 31) :
    Ends (fun _ => False) (lifetime K old sz tf ns) m fun _ m' => Freed K (fun _ => False)
      m m' := by
  rw [lifetime, ends_bind]
  refine (ends_procPagetable h.heap htf htf').mono fun new m₁ h₁ => ?_
  rcases h₁ with ⟨rfl, hfreed⟩ | ⟨hpos, hi, hb⟩
  · -- no memory for the page table
    exact hfreed
  rw [if_neg hpos, ends_bind]
  have hkeep : ∀ f, m.Owns old f → ¬ (m₁.Owns new f ∨ f ∈ m₁.freelist) := fun f ho hor =>
    h.used ho ((hb.keep f).mp hor)
  obtain ⟨hold, howns, -⟩ := h.congr hi.space.heap
    (fun f ht => hb.page f (h.ram (.inl ht)).aligned (h.used (.inl ht))) fun f ho hf =>
    hkeep f ho (.inr hf)
  have hstart : Copying K m₁ m₁ old new (pgroundup sz) 0 :=
    ⟨hold, hi.space, fun f ho hn => hkeep f ((howns f).mp ho) (.inl hn), fun _ => rfl,
      fun _ => Iff.rfl, fun _ _ => rfl, fun va hva => absurd hva (Nat.not_lt_zero va), .refl⟩
  have htramp := trampoline_eq
  have himage : ∀ m₂ stop, Copying K m₁ m₂ old new (pgroundup sz) stop → Image K m₂ new stop tf :=
    fun m₂ stop hc => ⟨hc.child, (hc.moves.top _ (by omega)).trans hi.trampoline,
      (hc.moves.top _ (Nat.le_refl _)).trans hi.trapframe⟩
  refine (ends_uvmcopyLoop hstart hsz (Nat.zero_le _) (by decide)).mono fun r m₂ h₂ => ?_
  rcases h₂ with ⟨rfl, hc⟩ | ⟨rfl, hc, -⟩
  · -- the child lives
    exact (hb.moves hc.moves).ends_live hns (himage _ _ hc) hsz
  · -- the copy failed: the child has no memory, and ends at once
    rw [← show pgroundup 0 = 0 by decide] at hc
    exact (hb.moves hc.moves).ends_live (fun n hn => absurd hn List.not_mem_nil) (himage _ _ hc)
      (Nat.zero_le _)

/-- A process grows by a page, gives back more than it has, and ends. -/
theorem lifetime_frees_page : ∃ m old, Space smallLayout m old (pgroundup 1) ∧
    Ends (fun _ => False) (lifetime smallLayout old 1 0 [4096, -8192]) m fun _ m' =>
      Freed smallLayout (fun _ => False) m m' := by
  obtain ⟨m, p, hready, hsz⟩ := exists_onePage_ready
  have h := hready.space
  rw [hsz] at h
  exact ⟨m, p.pagetable, h, lifetime_frees h (by decide) rfl (by decide) (by decide)⟩

end Xv6.Vm
