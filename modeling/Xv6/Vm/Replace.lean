import Xv6.Vm.Stack

/-!
# exec replaces the image or nothing

Up to the commit `exec` works on pages that were free, so going to `bad` gives back what it took
and leaves no trace.  The commit writes the trapframe, which belongs to neither image, and frees
the pages of the old one, which are not pages of the new.

## Main definitions

* `Proc.Runs` — the memory of a process is in order.
* `Untouched`, `Replaced` — the two ways in which `exec` ends.

## Main results

* `exec_all_or_nothing` — for any file, any arguments and any amount of memory.
-/

namespace Xv6.Vm

open Kern Trie Fs

variable {K : Layout} {m m' m₀ : Machine} {root f va pa stop tf sz sp flags : ℕ} {A : Panic → Prop}
  {c : ℕ → UInt8} {file path : List UInt8} {p : Proc} {argv : List (List UInt8)}

/-! ### The commit -/

/-- The memory of a process is in order: its image, and a page for its trapframe that is no part
of the image. -/
structure Proc.Runs (K : Layout) (m : Machine) (p : Proc) : Prop where
  image : Image K m p.pagetable (pgroundup p.sz) p.trapframe
  size : p.sz ≤ Vm.trapframe
  ram : K.Ram p.trapframe
  used : p.trapframe ∉ m.freelist
  apart : ¬ m.Owns p.pagetable p.trapframe

/-- The process and all that it uses are as they were, and so is the set of free pages. -/
structure Untouched (K : Layout) (p : Proc) (m m' : Machine) : Prop where
  runs : p.Runs K m'
  free : ∀ f, f ∈ m'.freelist ↔ f ∈ m.freelist
  page : ∀ f, f % pgsize = 0 → f ∉ m.freelist → m'.page f = m.page f
  flat : ∀ va, m'.flat p.pagetable va = m.flat p.pagetable va
  trapframe : m'.page p.trapframe = m.page p.trapframe
  byte : ∀ va, UserAddr m p.pagetable va →
    UserAddr m' p.pagetable va ∧ m'.userByte p.pagetable va = m.userByte p.pagetable va

/-- The process runs the program in the file, and nothing is left of what it ran before. -/
structure Replaced (K : Layout) (file : List UInt8) (p p' : Proc) (m m' : Machine) : Prop where
  runs : p'.Runs K m'
  trapframe : p'.trapframe = p.trapframe
  byte : (∀ ph ∈ programHeaders file, ph.Fits) → ∀ va < imageEnd (programHeaders file),
    UserAddr m' p'.pagetable va ∧
      m'.userByte p'.pagetable va = imageByte file (programHeaders file) va
  room : 2 * pgsize ≤ p'.sz
  guard : ∀ va, p'.sz ≤ va + 2 * pgsize → va + pgsize < p'.sz → ¬ UserAddr m' p'.pagetable va
  freed : ∀ f, m.Owns p.pagetable f → f ∈ m'.freelist

/-- The process starts with `sp` in its stack pointer and as its second argument, and with the
bytes `c` on its stack. -/
structure Started (m : Machine) (p : Proc) (sp : ℕ) (c : ℕ → UInt8) : Prop where
  a1 : m.load64 (p.trapframe + 120) = sp
  sp : m.load64 (p.trapframe + 48) = sp
  byte : ∀ va, va < p.sz → p.sz ≤ va + pgsize →
    UserAddr m p.pagetable va ∧ m.userByte p.pagetable va = c va

theorem not_userAddr {x : ℕ} (h : m.flat root x = some (pa, guardFlags)) : ¬ UserAddr m root x := by
  rintro ⟨-, q, fl, hq, -, hu⟩
  rw [flat_congr_page (pgrounddown_div x), h] at hq
  rw [← (Prod.mk.inj (Option.some.inj hq)).2] at hu
  exact hu (by decide)

theorem userAddr_of_flat {x : ℕ} (h : m.flat root x = some (pa, userFlags)) : UserAddr m root x :=
  ⟨lt_maxva_of_flat h, pa, userFlags, (flat_congr_page (pgrounddown_div x)).trans
    h, by decide, by decide⟩

/-- **What is left after going to `bad`.** -/
theorem Proc.Runs.untouched (h : p.Runs K m) (hf : Freed K (fun _ => False) m m') :
    Untouched K p m m' := by
  have hfree : ∀ f, f ∈ m'.freelist ↔ f ∈ m.freelist := fun f => by rw [hf.free, or_false]
  have hpage : ∀ f, f % pgsize = 0 → f ∉ m.freelist → m'.page f = m.page f := fun f hal =>
    hf.page f hal not_false
  have hspace := h.image.space
  obtain ⟨himage, howns, hflat⟩ := h.image.congr hf.heap
    (fun f ht => hpage f (hspace.table.ram f ht).aligned (hspace.table.used f ht))
    (fun f ho => by rw [hfree]; exact hspace.used ho)
  refine ⟨⟨himage, h.size, h.ram, by rw [hfree]; exact h.used, by rw [howns]; exact h.apart⟩, hfree,
    hpage, hflat, hpage _ h.ram.aligned h.used, fun va hva => ?_⟩
  have huser : ∀ x, m'.userPage p.pagetable x = m.userPage p.pagetable x := fun x => by
    rw [Machine.userPage, Machine.userPage, hflat]
  refine ⟨by rwa [UserAddr, hflat], ?_⟩
  have hne := h.image.proper.nonnull.userAddr_iff.mp hva
  obtain ⟨fl, hfl, hu⟩ := userPage_spec hne
  obtain ⟨-, hram, -, hused⟩ := hspace.leaf va _ fl (h.image.lt_trapframe hfl hu) hfl
  have hphys : m'.phys p.pagetable va = m.phys p.pagetable va := by
    rw [Machine.phys, Machine.phys, huser]
  have hsame : m'.page (m.phys p.pagetable va) = m.page (m.phys p.pagetable va) := by
    rw [page_phys hne, page_phys hne, hpage _ hram.aligned hused]
  rw [Machine.userByte, Machine.userByte, hphys, Machine.byte, Machine.byte, hsame]

theorem page_store64_trapframe {off v : ℕ} (htf : tf % pgsize = 0) (hoff : off < pgsize)
    (hf : f % pgsize = 0) (hne : f ≠ tf) : (m.store64 (tf + off) v).page f = m.page f := by
  refine page_store64_of_ne v ?_
  simp only [pgsize] at *
  omega

/-- **The commit**: the new image is as it was built, and the old one is freed. -/
theorem ends_execCommit {entry argc : ℕ} (h : p.Runs K m₀) (hsp : sp < 2 ^ 64)
    (hs : Stacked K m₀ m root stop p.trapframe c)
    (hbytes : (∀ ph ∈ programHeaders file, ph.Fits) →
      ∀ x, x + 2 * pgsize < stop → c x = imageByte file (programHeaders file) x)
    (hend : imageEnd (programHeaders file) + 2 * pgsize ≤ stop) :
    Ends A (execCommit K p path entry root stop sp argc) m fun r m' =>
      r.1 = argc ∧ r.2.sz = stop ∧ Replaced K file p r.2 m₀ m' ∧ Started m' r.2 sp c := by
  have htf := trapframe_lt
  have hold := h.image.space
  have hnew := hs.image.space
  have hle := hnew.le
  have hal := hnew.aligned
  have hround : pgroundup stop = stop := by
    rw [pgroundup_eq (by omega)]
    simp only [pgsize] at hal
    omega
  rw [execCommit, ends_bind, store64, ends_write, ends_bind, store64, ends_write,
    ends_bind, store64, ends_write]
  generalize hm₁ : ((m.store64 (p.trapframe + 120) sp).store64 (p.trapframe + 24) entry).store64
    (p.trapframe + 48) sp = m₁
  have hpage₁ : ∀ f, f % pgsize = 0 → f ≠ p.trapframe → m₁.page f = m.page f := by
    intro f hf hne
    rw [← hm₁, page_store64_trapframe h.ram.aligned (by decide) hf hne,
      page_store64_trapframe h.ram.aligned (by decide) hf hne,
      page_store64_trapframe h.ram.aligned (by decide) hf hne]
  have hfree₁ : m₁.freelist = m.freelist := by
    rw [← hm₁]
    rfl
  have hheap₁ : Heap K m₁ := ⟨hfree₁ ▸ hnew.heap.nodup, fun f hf => hnew.heap.ram f (hfree₁ ▸ hf)⟩
  -- the pages of the new image were free, those of the old one were not
  have hwas : ∀ f, m.Owns root f → f ∈ m₀.freelist := fun f hf => (hs.built.keep f).mp (.inl hf)
  obtain ⟨hnew₁, hownsnew₁, hflatnew₁⟩ := hs.image.congr hheap₁
    (fun f ht => hpage₁ f (hnew.table.ram f ht).aligned fun heq => h.used (heq ▸ hwas f (.inl ht)))
    (fun f ho => by rw [hfree₁]; exact hnew.used ho)
  obtain ⟨hold₁, hownsold₁, -⟩ := h.image.congr hheap₁
    (fun f ht => by
      rw [hpage₁ f (hold.table.ram f ht).aligned fun heq => h.apart (heq ▸ .inl ht),
        hs.built.page f (hold.table.ram f ht).aligned (hold.table.used f ht)])
    (fun f ho hmem => hold.used ho ((hs.built.keep f).mp (.inr (hfree₁ ▸ hmem))))
  rw [ends_bind]
  refine (ends_procFreepagetable hold₁).mono fun _ m' hfreed => ?_
  have hapart : ∀ f, m₁.Owns root f → ¬ m₁.Owns p.pagetable f := fun f ho ho' =>
    hold.used ((hownsold₁ f).mp ho') (hwas f ((hownsnew₁ f).mp ho))
  have hkeep : ∀ f, m₁.Owns root f → m'.page f = m₁.page f ∧ f ∉ m'.freelist := by
    intro f ho
    have hused := hnew₁.space.used ho
    refine ⟨hfreed.page f (hnew₁.space.ram ho).aligned (hapart f ho) hused, fun hmem => ?_⟩
    exact ((hfreed.free f).mp hmem).elim hused (hapart f ho)
  obtain ⟨himage, howns, hflat⟩ := hnew₁.congr hfreed.heap (fun f ht => (hkeep f (.inl ht)).1)
    (fun f ho => (hkeep f ho).2)
  have hflat' : ∀ va, m'.flat root va = m.flat root va := fun va => (hflat va).trans (hflatnew₁ va)
  have hbyte : ∀ va, va < stop → va + 2 * pgsize < stop ∨ stop ≤ va + pgsize →
      UserAddr m' root va ∧ m'.userByte root va = c va := by
    intro va hva hout
    obtain ⟨pa, hpa, hbyte⟩ := hs.holds va hva hout
    have hpa' : m'.flat root va = some (pa, userFlags) := (hflat' va).trans hpa
    have ho : m.Owns root pa := owns_of_flat (by omega) hpa
    refine ⟨userAddr_of_flat hpa', ?_⟩
    rw [userByte_of_flat hpa', (hkeep pa ((hownsnew₁ pa).mpr ho)).1,
      hpage₁ pa (hnew.ram ho).aligned fun heq => h.used (heq ▸ hwas pa ho), hbyte]
  have hunfreed : p.trapframe ∉ m'.freelist := by
    intro hmem
    rcases (hfreed.free _).mp hmem with hmem | hmem
    · exact h.used ((hs.built.keep _).mp (.inr (hfree₁ ▸ hmem)))
    · exact h.apart ((hownsold₁ _).mp hmem)
  -- the trapframe is as the three assignments left it
  have hframe : ∀ off, off < pgsize →
      m'.load64 (p.trapframe + off) = m₁.load64 (p.trapframe + off) := by
    intro off hoff
    refine load64_congr ?_
    have hdiv : (p.trapframe + off) / pgsize = p.trapframe / pgsize := by
      have := h.ram.aligned
      simp only [pgsize] at *
      omega
    rw [Machine.page, Machine.page, hdiv]
    refine hfreed.page _ h.ram.aligned (fun ho => h.apart ((hownsold₁ _).mp ho)) fun hmem => ?_
    exact h.used ((hs.built.keep _).mp (.inr (hfree₁ ▸ hmem)))
  have h8 : p.trapframe % 8 = 0 := by
    have := h.ram.aligned
    simp only [pgsize] at *
    omega
  refine ⟨rfl, rfl, ⟨⟨?_, hle, h.ram, hunfreed, fun ho => ?_⟩, rfl, fun hfits va hva => ?_, hs.room,
    fun va h₁ h₂ => ?_, fun f hf => ?_⟩, ?_, ?_, fun va hva hin => hbyte va hva (.inr hin)⟩
  · rw [hround]
    exact himage
  · exact h.used (hwas _ ((hownsnew₁ _).mp ((howns _).mp ho)))
  · obtain ⟨huser, hbyte⟩ := hbyte va (by omega) (.inl (by omega))
    exact ⟨huser, hbyte.trans (hbytes hfits va (by omega))⟩
  · obtain ⟨pa, hpa⟩ := hs.guard va h₁ h₂
    exact not_userAddr ((hflat' va).trans hpa)
  · exact (hfreed.free f).mpr (.inr ((hownsold₁ f).mpr hf))
  · rw [hframe 120 (by decide), ← hm₁, load64_store64_of_ne _ (by omega) (by omega) (by omega),
      load64_store64_of_ne _ (by omega) (by omega) (by omega), load64_store64_self (by omega) hsp]
  · rw [hframe 48 (by decide), ← hm₁, load64_store64_self (by omega) hsp]

/-! ### All or nothing -/

theorem ends_execBad (h : p.Runs K m₀) (himage : Image K m root (pgroundup sz) tf)
    (hb : Built m₀ m root) :
    Ends A (execBad K p root sz) m fun r m' => r = (-1, p) ∧ Untouched K p m₀ m' := by
  rw [execBad, ends_bind]
  exact (ends_procFreepagetable himage).mono fun _ m' hfreed => ⟨rfl, h.untouched (hb.freed hfreed)⟩

theorem pgroundup_of_mod {x : ℕ} (hx : x % pgsize = 0) (hle : x ≤ maxva) : pgroundup x = x := by
  rw [pgroundup_eq hle]
  simp only [pgsize] at hx
  omega

/-- **With the two pages allocated, `exec` succeeds exactly if the arguments fit.** -/
theorem ends_execStack_of_alloc {entry sz1 : ℕ} (h : p.Runs K m₀) (hargv : Argv argv)
    (hsz : sz ≤ trapframe) (hsz1 : sz1 ≠ 0)
    (halloc : uvmalloc K root (pgroundup sz) (pgroundup sz + 2 * pgsize) m' = .ok (sz1, m))
    (heq : sz1 = pgroundup sz + 2 * pgsize) (hl : Loading K m₀ m root sz1 p.trapframe c)
    (hend : sz = imageEnd (programHeaders file))
    (hbytes : (∀ ph ∈ programHeaders file, ph.Fits) → c = imageByte file (programHeaders file)) :
    Ends A (execStack K p path argv entry root sz) m' fun r m' =>
      if argvSize argv ≤ pgsize then
        r.1 = argv.length ∧ r.2.sz = sz1 ∧ Replaced K file p r.2 m₀ m' ∧
          Started m' r.2 (sz1 - argvSize argv) (argvBytes c sz1 argv)
      else r = (-1, p) ∧ Untouched K p m₀ m' := by
  have htf : trapframe = 274877898752 := by decide
  have hmax := trapframe_lt
  have hpg : pgsize = 4096 := rfl
  have hle := hl.image.space.le
  have hup : sz ≤ pgroundup sz := by
    rw [pgroundup_eq (by omega)]
    omega
  rw [execStack, u64, Nat.mod_eq_of_lt (by omega), ends_bind_of_ok halloc, if_neg hsz1, ends_bind,
    sub64_of_le (by omega) (by omega), sub64_of_le (by omega) (by omega)]
  have hguard : sz1 - 2 * pgsize = pgroundup sz := by omega
  have hbase : sz1 - pgsize = pgroundup sz + pgsize := by omega
  rw [hguard, hbase]
  refine (hl.ends_uvmclear heq.symm).mono fun _ m₂ h₂ => ?_
  rw [ends_bind]
  refine (ends_pushArgv h₂ (by omega) hargv).mono fun r m₃ h₃ => ?_
  obtain ⟨c', h₃, hagree, rfl, hc'⟩ := h₃
  by_cases hfits : argvSize argv ≤ pgsize
  · rw [if_pos hfits]
    rw [hc' hfits] at h₃ hagree
    -- the arguments lie in the stack page, above the bytes of the file
    have hkept : (∀ ph ∈ programHeaders file, ph.Fits) → ∀ x, x + 2 * pgsize < sz1 →
        argvBytes c sz1 argv x = imageByte file (programHeaders file) x := by
      intro hok x hx
      rw [hagree x hx, hbytes hok]
    refine (ends_execCommit h (by omega) h₃ hkept (by omega)).mono fun r m' hr => ?_
    rw [if_pos hfits]
    exact hr
  · rw [if_neg hfits]
    -- they do not fit: the new image is given up
    have himage : Image K m₃ root (pgroundup sz1) p.trapframe := by
      rw [pgroundup_of_mod hl.image.space.aligned (by omega)]
      exact h₃.image
    refine (ends_execBad h himage h₃.built).mono fun r m' hr => ?_
    rw [if_neg hfits]
    exact hr

/-- The two pages for the guard and the stack are added, or not. -/
theorem ends_uvmalloc_stack (hl : Loading K m₀ m root (pgroundup sz) tf c) :
    Ends (fun _ => False) (uvmalloc K root (pgroundup sz) (pgroundup sz + 2 * pgsize)) m
    fun sz1 m₁ =>
      (sz1 ≠ 0 ∧ sz1 = pgroundup sz + 2 * pgsize ∧ Loading K m₀ m₁ root sz1 tf c) ∨
        (sz1 = 0 ∧ Loading K m₀ m₁ root (pgroundup sz) tf c) := by
  have htf : trapframe = 274877898752 := by decide
  have hmax := trapframe_lt
  have hpg : pgsize = 4096 := rfl
  have hle := hl.image.space.le
  have hal := pgroundup_mod sz
  have hround := pgroundup_of_mod hal (by omega)
  have hl' : Loading K m₀ m root (pgroundup (pgroundup sz)) tf c := by
    rwa [hround]
  refine (hl'.ends_uvmalloc hle).mono fun sz1 m₁ h₁ => ?_
  rcases h₁ with ⟨hsz1, hle₁, h₁⟩ | ⟨rfl, h₁⟩
  · obtain rfl : sz1 = pgroundup sz + 2 * pgsize := by omega
    rw [pgroundup_of_mod (by rw [Nat.add_mul_mod_self_right, hal]) (by omega)] at h₁
    exact .inl ⟨by omega, rfl, h₁⟩
  · rw [hround] at h₁
    exact .inr ⟨rfl, h₁⟩

theorem ends_execStack {entry : ℕ} (h : p.Runs K m₀) (hargv : Argv argv) (hsz : sz ≤ trapframe)
    (hl : Loading K m₀ m root (pgroundup sz) p.trapframe c)
    (hend : sz = imageEnd (programHeaders file))
    (hbytes : (∀ ph ∈ programHeaders file, ph.Fits) → c = imageByte file (programHeaders file)) :
    Ends A (execStack K p path argv entry root sz) m fun r m' =>
      (r = (-1, p) ∧ Untouched K p m₀ m') ∨ (r.1 = argv.length ∧ Replaced K file p r.2 m₀ m') := by
  have htf : trapframe = 274877898752 := by decide
  have hmax := trapframe_lt
  have hpg : pgsize = 4096 := rfl
  have hle := hl.image.space.le
  have hal := pgroundup_mod sz
  obtain ⟨sz1, m₁, halloc, h₁⟩ := (ends_uvmalloc_stack hl).exists_ok
  rcases h₁ with ⟨hsz1, rfl, h₁⟩ | ⟨rfl, h₁⟩
  · refine (ends_execStack_of_alloc h hargv hsz hsz1 halloc rfl h₁ hend hbytes).mono
      fun r m' hr => ?_
    split at hr
    · exact .inr ⟨hr.1, hr.2.2.1⟩
    · exact .inl hr
  · -- no memory for the stack: the new image is given up
    rw [execStack, u64, Nat.mod_eq_of_lt (by omega), ends_bind_of_ok halloc, if_pos rfl]
    have himage : Image K m₁ root (pgroundup (pgroundup sz)) p.trapframe := by
      rw [pgroundup_of_mod hal (by omega)]
      exact h₁.image
    exact (ends_execBad h himage h₁.built).mono fun r m' hr => .inl hr

/-- **exec replaces the image or nothing.**  For any file, any arguments that `sys_exec` can pass
and any amount of free memory it ends without a panic.  If it fails then the process, its page
table, its trapframe and its memory are as they were, and so is the set of free pages.  If it
succeeds then every byte of the new image up to the end of its segments is the byte of the file
given by the last segment that covers it, or 0; the page below the stack is not for the user; and
the pages of the old image are free. -/
theorem exec_all_or_nothing (h : p.Runs K m) (path : List UInt8) (ip : Option (List UInt8))
    (hargv : Argv argv) :
    Ends (fun _ => False) (exec K p path ip argv) m fun r m' =>
      (r = (-1, p) ∧ Untouched K p m m') ∨
        (r.1 = argv.length ∧ ∃ file, ip = some file ∧ Replaced K file p r.2 m m') := by
  have hrefl : Freed K (fun _ => False) m m :=
    ⟨h.image.space.heap, fun _ => (or_false _).to_iff.symm, fun _ _ _ _ => rfl⟩
  have hfail : Untouched K p m m := h.untouched hrefl
  cases ip with
  | none => exact .inl ⟨rfl, hfail⟩
  | some file =>
    rw [exec]
    split
    · -- the header cannot be read
      exact .inl ⟨rfl, hfail⟩
    split
    · -- it is no ELF header
      exact .inl ⟨rfl, hfail⟩
    rw [ends_bind]
    refine (ends_procPagetable h.image.space.heap h.ram.aligned (by have := h.ram.lt; omega)).mono
      fun root m₁ h₁ => ?_
    rcases h₁ with ⟨rfl, hfreed⟩ | ⟨hpos, himage, hbuilt⟩
    · -- no memory for the page table
      rw [if_pos rfl]
      exact .inl ⟨rfl, h.untouched hfreed⟩
    have hl : Loading K m m₁ root (pgroundup 0) p.trapframe fun _ => 0 :=
      ⟨himage, hbuilt, fun va hva => absurd hva (Nat.not_lt_zero va), fun _ _ => rfl⟩
    rw [if_neg hpos, ends_bind]
    refine (ends_loadSegments hl (Nat.zero_le _)).mono fun r m₂ h₂ => ?_
    obtain ⟨hsz, c, hl₂, hend⟩ := h₂
    split
    · rename_i hok
      obtain ⟨hsize, hbytes⟩ := hend hok
      have hsize' : r.2 = imageEnd (programHeaders file) := hsize
      refine (ends_execStack h hargv hsz hl₂ hsize' fun hfits => ?_).mono fun r m' hr => ?_
      · rw [hbytes hfits]
        exact funext fun x => foldl_overlay _ x
      · exact hr.imp_right fun hr => ⟨hr.1, file, rfl, hr.2⟩
    · -- a segment could not be loaded
      exact (ends_execBad h hl₂.image hl₂.built).mono fun r m' hr => .inl hr

theorem runs_of_procPagetable (hheap : Heap K m₀) (hram : K.Ram tf) (hused : tf ∉ m₀.freelist)
    (hrun : procPagetable K tf m₀ = .ok (root, m)) (hpos : root ≠ 0) :
    Proc.Runs K m ⟨root, 0, tf, []⟩ := by
  have hlt := hram.lt
  obtain ⟨himage, hbuilt⟩ := made_of_procPagetable hheap hram.aligned (by omega) hrun hpos
  have hzero : pgroundup 0 = 0 := by decide
  rw [← hzero] at himage
  refine ⟨himage, Nat.zero_le _, hram, fun hmem => ?_, fun ho => ?_⟩
  · exact hused ((hbuilt.keep _).mp (.inr hmem))
  · exact hused ((hbuilt.keep _).mp (.inl ho))

/-- A file with one segment, of three bytes at address 0 with two more of zeroes. -/
def smallFile : List UInt8 :=
  [0x7f, 0x45, 0x4c, 0x46] ++ List.replicate 28 0 ++ 64 :: List.replicate 23 0 ++
    1 :: List.replicate 7 0 ++ 1 :: List.replicate 7 0 ++ 120 :: List.replicate 23 0 ++
    3 :: List.replicate 7 0 ++ 5 :: List.replicate 15 0 ++ [9, 8, 7]

/-- A test: with `n` free pages a process is made, and running `smallFile` with two arguments has
the result `r`. -/
def execs (n : ℕ) (r : ℤ) : Bool :=
  (procPagetable smallLayout (kernbase + 2 * pgsize) (freeMachine n)).check fun x =>
    x.1 ≠ 0 && (exec smallLayout ⟨x.1, 0, kernbase + 2 * pgsize, []⟩ [97] (some smallFile)
      [[97], [98, 99]] x.2).check fun y => y.1.1 = r

theorem exists_exec {n : ℕ} {r : ℤ} (hn : n ≤ 16) (hrun : execs n r = true) :
    ∃ m p p' m', Proc.Runs smallLayout m p ∧
      exec smallLayout p [97] (some smallFile) [[97], [98, 99]] m = .ok ((r, p'), m') := by
  obtain ⟨⟨root, m⟩, hroot, hrun⟩ := Outcome.exists_of_check hrun
  obtain ⟨hpos, hrun⟩ := Bool.and_eq_true_iff.mp hrun
  obtain ⟨⟨⟨r', p'⟩, m'⟩, hexec, hr⟩ := Outcome.exists_of_check hrun
  obtain rfl : r' = r := of_decide_eq_true hr
  have hused : kernbase + 2 * pgsize ∉ (freeMachine n).freelist := by
    intro hmem
    obtain ⟨i, -, hi⟩ := List.mem_map.mp hmem
    simp only [pgsize] at hi
    omega
  exact ⟨m, _, p', m', runs_of_procPagetable (freeMachine_heap hn)
    ⟨by decide, by decide, by decide⟩ hused hroot (of_decide_eq_true hpos), hexec⟩

theorem argv_two : Argv [[97], [98, 99]] := ⟨by decide, by decide, by decide⟩

/-- With seven free pages memory runs out when the new page table has been made and a page for the
segment taken; with eleven the file is run. -/
theorem exec_all_or_nothing_smallFile :
    (∃ m p m', Proc.Runs smallLayout m p ∧ exec smallLayout p [97] (some smallFile)
      [[97], [98, 99]] m = .ok ((-1, p), m') ∧ Untouched smallLayout p m m') ∧
    ∃ m p p' m', Proc.Runs smallLayout m p ∧ exec smallLayout p [97] (some smallFile)
      [[97], [98, 99]] m = .ok ((2, p'), m') ∧ Replaced smallLayout smallFile p p' m m' := by
  constructor
  · have hrun : execs 7 (-1) = true := by decide +kernel
    obtain ⟨m, p, p', m', hruns, hexec⟩ := exists_exec (by decide) hrun
    generalize smallFile = file at hexec ⊢
    obtain ⟨heq, hsame⟩ | ⟨hbad, -⟩ :=
      (exec_all_or_nothing hruns [97] (some file) argv_two).of_ok hexec
    · obtain rfl : p' = p := congrArg Prod.snd heq
      exact ⟨m, p', m', hruns, hexec, hsame⟩
    · cases hbad
  · have hrun : execs 11 2 = true := by decide +kernel
    obtain ⟨m, p, p', m', hruns, hexec⟩ := exists_exec (by decide) hrun
    generalize smallFile = file at hexec ⊢
    obtain ⟨hbad, -⟩ | ⟨-, _, heq, hnew⟩ :=
      (exec_all_or_nothing hruns [97] (some file) argv_two).of_ok hexec
    · cases hbad
    · obtain rfl := Option.some.inj heq
      exact ⟨m, p, p', m', hruns, hexec, hnew⟩

end Xv6.Vm
