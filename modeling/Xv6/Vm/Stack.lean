import Xv6.Vm.Load

/-!
# The stack of a new image

`exec` adds two pages to the image.  The lower one is made inaccessible; the upper one is the
stack, to which the argument strings are pushed, the first one highest, each at an address that is
a multiple of 16, and below them the array of pointers to them.

## Main definitions

* `Stacked` — the new image with its guard page and stack page.
* `Argv` — the argument vectors that `sys_exec` passes.
* `argvSize`, `addrs`, `pushed` — the room the arguments take, where the strings start, and the
  contents of the stack.

## Main results

* `ends_pushArgv` — the arguments are pushed exactly if they fit in the stack page.
* `strings_pushed`, `strings_apart` — the strings are there, one below the other.
-/

namespace Xv6.Vm

open Kern Trie Fs

variable {K : Layout} {m m' m₀ : Machine} {root f va pa stop tf sz sp flags : ℕ} {A : Panic → Prop}
  {c : ℕ → UInt8} {argv : List (List UInt8)}

/-! ### The guard page -/

/-- The flags of a page that the user cannot use. -/
def guardFlags : ℕ := pteW ||| pteX ||| pteR ||| pteV

theorem leaf_clear {e : ℕ} (he : e < 2 ^ 64) (h : leaf e = some (pa, userFlags)) :
    leaf (e &&& (2 ^ 64 - 1 - pteU)) = some (pa, guardFlags) := by
  rw [leaf] at h ⊢
  split at h
  · rename_i hv
    obtain ⟨hpa, hflags⟩ := Prod.mk.inj (Option.some.inj h)
    have hvalid : e &&& (2 ^ 64 - 1 - pteU) &&& pteV = e &&& pteV := by
      rw [Nat.and_assoc]
      rfl
    have hword : (e &&& (2 ^ 64 - 1 - pteU)) / 1024 = e / 1024 := by
      have hshift := Nat.shiftRight_and_distrib (a := e) (b := 2 ^ 64 - 1 - pteU) (i := 10)
      have hmask : (2 ^ 64 - 1 - pteU) >>> 10 = 2 ^ 54 - 1 := by decide
      rw [hmask, Nat.and_two_pow_sub_one_of_lt_two_pow] at hshift
      · simpa only [Nat.shiftRight_eq_div_pow] using hshift
      · rw [Nat.shiftRight_eq_div_pow]
        omega
    have hclear : pteFlags (e &&& (2 ^ 64 - 1 - pteU)) = pteFlags e &&& (2 ^ 64 - 1 - pteU) := by
      rw [pteFlags, pteFlags, Nat.and_right_comm]
    rw [hvalid, if_pos hv, pte2pa_eq, hword, ← pte2pa_eq, hpa, hclear, hflags]
    rfl
  · cases h

/-- The space after the flags of a page changed. -/
theorem Space.reflag {fl fl' : ℕ} (h : Space K m root stop) (hh : Heap K m') (ht : Table K m' root)
    (htables : ∀ f, m'.Tables root f ↔ m.Tables root f) (hfree : m'.freelist = m.freelist)
    (hm : m.flat root va = some (pa, fl)) (hfl : fl' ≠ pteV)
    (hflat : ∀ vb, m'.flat root vb =
      if vb / pgsize = va / pgsize then some (pa, fl') else m.flat root vb) :
    Space K m' root stop ∧ ∀ f, m'.Owns root f ↔ m.Owns root f := by
  -- every mapping now was one before, and its flags changed in the page of `va` only
  have hback : ∀ b q fb, m'.flat root b = some (q, fb) → ∃ fb', m.flat root b = some (q, fb') ∧
      (fb ≠ fb' → fb = fl') := by
    intro b q fb hb
    rw [hflat] at hb
    split at hb
    · rename_i hpage
      obtain ⟨rfl, rfl⟩ := Prod.mk.inj (Option.some.inj hb)
      exact ⟨fl, (flat_congr_page hpage).trans hm, fun _ => rfl⟩
    · exact ⟨fb, hb, fun hne => absurd rfl hne⟩
  have hforth : ∀ b q fb, m.flat root b = some (q, fb) → ∃ fb', m'.flat root b = some (q, fb') := by
    intro b q fb hb
    rw [hflat]
    split
    · rename_i hpage
      rw [flat_congr_page hpage, hm] at hb
      rw [(Prod.mk.inj (Option.some.inj hb)).1]
      exact ⟨fl', rfl⟩
    · exact ⟨fb, hb⟩
  refine ⟨⟨hh, ht, h.aligned, h.le, fun b hb => ?_, fun b q fb hb hq => ?_, ?_⟩, fun f => ?_⟩
  · rw [← h.mapped b hb]
    constructor
    · intro hs
      obtain ⟨⟨q, fb⟩, hq⟩ := Option.isSome_iff_exists.mp hs
      obtain ⟨fb', hq', -⟩ := hback b q fb hq
      rw [hq']
      rfl
    · intro hs
      obtain ⟨⟨q, fb⟩, hq⟩ := Option.isSome_iff_exists.mp hs
      obtain ⟨fb', hq'⟩ := hforth b q fb hq
      rw [hq']
      rfl
  · obtain ⟨fb', hq', hne⟩ := hback b q fb hq
    obtain ⟨hfb, hram, hnot, hused⟩ := h.leaf b q fb' hb hq'
    refine ⟨?_, hram, fun htq => hnot ((htables q).mp htq), by rwa [hfree]⟩
    by_cases heq : fb = fb'
    · rwa [heq]
    · rwa [hne heq]
  · intro b b' q fb fb' hb hb' hq hq'
    obtain ⟨gb, hq, -⟩ := hback b q fb hq
    obtain ⟨gb', hq', -⟩ := hback b' q fb' hq'
    exact h.inj b b' q gb gb' hb hb' hq hq'
  · refine or_congr (htables f) ⟨?_, ?_⟩
    · rintro ⟨b, fb, hb, h0, hlt, hq⟩
      obtain ⟨fb', hq', -⟩ := hback b f fb hq
      exact ⟨b, fb', hb, h0, hlt, hq'⟩
    · rintro ⟨b, fb, hb, h0, hlt, hq⟩
      obtain ⟨fb', hq'⟩ := hforth b f fb hq
      exact ⟨b, fb', hb, h0, hlt, hq'⟩

/-- **The new image with its stack**: a guard page that the user cannot use, the stack page above
it, and the bytes `c` in the pages that the user can use. -/
structure Stacked (K : Layout) (m₀ m : Machine) (root stop tf : ℕ) (c : ℕ → UInt8) : Prop where
  image : Image K m root stop tf
  built : Built m₀ m root
  room : 2 * pgsize ≤ stop
  holds : ∀ va, va < stop → va + 2 * pgsize < stop ∨ stop ≤ va + pgsize →
    ∃ pa, m.flat root va = some (pa, userFlags) ∧ (m.page pa).get (va % pgsize) = c va
  guard : ∀ va, stop ≤ va + 2 * pgsize → va + pgsize < stop →
    ∃ pa, m.flat root va = some (pa, guardFlags)

/-- **uvmclear** makes the second page from the top the guard page. -/
theorem Loading.ends_uvmclear (h : Loading K m₀ m root stop tf c) (hva : va + 2 * pgsize = stop) :
    Ends A (uvmclear root va) m fun _ m' => Stacked K m₀ m' root stop tf c := by
  have hspace := h.image.space
  have hle := hspace.le
  have hal := hspace.aligned
  have htf := trapframe_lt
  have hpg : 0 < pgsize := by decide
  obtain ⟨pa, hflat, -⟩ := h.holds va (by omega)
  rw [uvmclear, ends_bind, ends_walk_false (by omega)]
  cases hs : m.slot root va with
  | none =>
    rw [Machine.flat, if_pos (by omega), hs, Option.bind_none] at hflat
    cases hflat
  | some pte =>
    have hmax : va < maxva := by omega
    have hleaf := flat_of_slot hmax hs
    rw [hflat] at hleaf
    -- the entry keeps its address and all flags but `PTE_U`
    have hclear := leaf_clear load64_lt hleaf.symm
    have hlt : m.load64 pte &&& (2 ^ 64 - 1 - pteU) < 2 ^ 64 :=
      lt_of_le_of_lt Nat.and_le_left load64_lt
    rw [Option.getD_some, if_neg (hspace.table.slot_ne_zero hs), ends_bind, load64,
      ends_read, store64, ends_write]
    obtain ⟨ht, htables, -, hflat'⟩ := hspace.table.store hmax hs hlt
    have hshrinks := Shrinks.store hspace.heap hspace.table hmax hs hlt
    generalize hm' : m.store64 pte (m.load64 pte &&& (2 ^ 64 - 1 - pteU)) = m' at *
    have hfree : m'.freelist = m.freelist := by
      rw [← hm']
      rfl
    rw [hclear] at hflat'
    obtain ⟨hspace', howns⟩ := hspace.reflag hshrinks.heap ht htables hfree hflat
      (show guardFlags ≠ pteV by decide) hflat'
    have hother : ∀ b, b / pgsize ≠ va / pgsize → m'.flat root b = m.flat root b := fun b hb => by
      rw [hflat', if_neg hb]
    -- the pages above the user memory are not the guard page
    have hapart : ∀ b, trapframe ≤ b → b / pgsize ≠ va / pgsize := by
      intro b hb
      simp only [pgsize] at *
      omega
    refine ⟨⟨hspace', ?_, ?_⟩, ⟨fun f => ?_, fun f hfal hf => ?_⟩, by omega, fun b hb hout => ?_,
      fun b h₁ h₂ => ⟨pa, ?_⟩⟩
    · rw [hother _ (hapart _ (by decide)), h.image.trampoline]
    · rw [hother _ (hapart _ (Nat.le_refl _)), h.image.trapframe]
    · rw [howns, hfree, h.built.keep]
    · have hnot := mt (h.built.keep f).mp hf
      rw [not_or, Machine.Owns, not_or] at hnot
      rw [hshrinks.page f hfal hnot.1.1 not_false, h.built.page f hfal hf]
    · obtain ⟨q, hq, hbyte⟩ := h.holds b hb
      obtain ⟨-, hram, hnot, -⟩ := hspace.leaf b q _ (by omega) hq
      refine ⟨q, ?_, by rw [hshrinks.page q hram.aligned hnot not_false, hbyte]⟩
      rw [hother b, hq]
      simp only [pgsize] at *
      omega
    · rw [hflat', if_pos]
      simp only [pgsize] at *
      omega

/-! ### The stack page -/

theorem phys_of_flat {x : ℕ} (h : m.flat root x = some (pa, userFlags)) :
    m.phys root x = pa + x % pgsize := by
  rw [Machine.phys, Machine.userPage, h]
  rfl

theorem userByte_of_flat {x : ℕ} (h : m.flat root x = some (pa, userFlags)) :
    m.userByte root x = (m.page pa).get (x % pgsize) := by
  have hal := aligned_of_flat h
  have hdiv : (pa + x % pgsize) / pgsize = pa / pgsize ∧
      (pa + x % pgsize) % pgsize = x % pgsize := by
    simp only [pgsize] at *
    omega
  rw [Machine.userByte, phys_of_flat h, Machine.byte, Machine.page, hdiv.1, hdiv.2, Machine.page]

theorem page_phys {x : ℕ} (hx : m.userPage root x ≠ 0) :
    m'.page (m.phys root x) = m'.page (m.userPage root x) := by
  rw [Machine.page, Machine.page, phys_div hx]

theorem Space.phys_inj {x y q : ℕ} (h : Space K m root stop) (hx : x < trapframe)
    (hy : y < trapframe)
    (hpx : m.flat root x = some (pa, userFlags)) (hpy : m.flat root y = some (q, userFlags))
    (heq : m.phys root x = m.phys root y) : x = y := by
  have hpa := aligned_of_flat hpx
  have hq := aligned_of_flat hpy
  rw [phys_of_flat hpx, phys_of_flat hpy] at heq
  have hsame : pa = q ∧ x % pgsize = y % pgsize := by
    simp only [pgsize] at *
    omega
  have hpage := h.inj x y pa _ _ hx hy hpx (hsame.1 ▸ hpy)
  obtain ⟨-, hmod⟩ := hsame
  simp only [pgsize] at *
  omega

theorem byte_writes_of_ne {phys : ℕ → ℕ} {src : ℕ → UInt8} {a k : ℕ} (h : ∀ j < k, a ≠ phys j) :
    (m.writes phys src k).byte a = m.byte a := by
  induction k with
  | zero => rfl
  | succ k ih =>
    rw [Machine.writes, byte_setByte_of_ne _ (h k (Nat.lt_succ_self k)),
      ih fun j hj => h j (Nat.lt_succ_of_lt hj)]

/-- The two pages above the user's memory are not for the user. -/
theorem Image.lt_trapframe (h : Image K m root stop tf) (hm : m.flat root va = some (pa, flags))
    (hu : flags &&& pteU ≠ 0) : va < Vm.trapframe := by
  by_contra hva
  obtain ⟨htramp, hmax⟩ := trampoline_eq
  have hlt := lt_maxva_of_flat hm
  have hal : Vm.trapframe % pgsize = 0 := by decide
  by_cases hpage : va / pgsize = Vm.trapframe / pgsize
  · rw [flat_congr_page hpage, h.trapframe] at hm
    rw [← (Prod.mk.inj (Option.some.inj hm)).2] at hu
    exact hu (by decide)
  have hpage' : va / pgsize = Vm.trampoline / pgsize := by
    simp only [pgsize] at *
    omega
  rw [flat_congr_page hpage', h.trampoline] at hm
  rw [← (Prod.mk.inj (Option.some.inj hm)).2] at hu
  exact hu (by decide)

theorem Image.proper (h : Image K m root stop tf) : Proper K m root := by
  refine ⟨h.space.table.ram, fun va pa flags hm hu => ?_⟩
  obtain ⟨-, hram, hnot, -⟩ := h.space.leaf va pa flags (h.lt_trapframe hm hu) hm
  exact ⟨hram, hnot⟩

/-- **copyout to the stack page** does not fail. -/
theorem Stacked.ends_copyout {src : ℕ → UInt8} {len : ℕ} (h : Stacked K m₀ m root stop tf c)
    (hlo : stop ≤ sp + pgsize) (hhi : sp + len ≤ stop) :
    Ends A (copyout root sp src len) m fun r m' =>
      r = 0 ∧ Stacked K m₀ m' root stop tf (putAt c sp ((List.range len).map src)) := by
  have hspace := h.image.space
  have hle := hspace.le
  have huser : ∀ j < len, ∃ pa, m.flat root (sp + j) = some (pa, userFlags) := fun j hj => by
    obtain ⟨pa, hflat, -⟩ := h.holds (sp + j) (by omega) (.inr (by omega))
    exact ⟨pa, hflat⟩
  refine (Vm.ends_copyout h.image.proper).mono fun r m' hend => ?_
  obtain ⟨k, hk, rfl, hall, ⟨rfl, rfl⟩ | ⟨-, hlt, hzero⟩⟩ := hend
  swap
  · -- every page of the range is there, so the copy cannot stop early
    obtain ⟨pa, hflat⟩ := huser k hlt
    have hram := (hspace.leaf (sp + k) pa _ (by omega) hflat).2.1
    rw [Machine.userPage, hflat] at hzero
    exact absurd hzero hram.pos
  refine ⟨rfl, ?_⟩
  generalize hm' : m.writes (fun j => m.phys root (sp + j)) src k = m'
  have hwrote : Wrote root (fun va => sp ≤ va ∧ va < sp + k) m m' := by
    refine ⟨hm' ▸ freelist_writes, fun f hf hno => ?_⟩
    rw [← hm']
    refine page_writes_of_ne fun j hj heq => ?_
    obtain ⟨fl, hfl, -⟩ := userPage_spec (hall j hj)
    rw [phys_div (hall j hj)] at heq
    refine div_ne_of_ne hf (aligned_of_flat hfl) (fun hpa => hno ?_) heq
    exact ⟨sp + j, fl, ⟨Nat.le_add_right _ _, by omega⟩, hpa ▸ hfl⟩
  obtain ⟨himage, hbuilt, hflat'⟩ := hwrote.image (fun va hva => by omega) h.image h.built
  refine ⟨himage, hbuilt, h.room, fun x hx hout => ?_, fun x h₁ h₂ => ?_⟩
  · obtain ⟨pa, hpa, hbyte⟩ := h.holds x hx hout
    have hpa' : m'.flat root x = some (pa, userFlags) := (hflat' x).trans hpa
    refine ⟨pa, hpa', ?_⟩
    rw [← userByte_of_flat hpa', Machine.userByte, phys_of_flat hpa', ← phys_of_flat hpa,
      ← hm', putAt, List.length_map, List.length_range]
    split
    · rename_i hin
      have hj : x - sp < k := by omega
      -- a byte that was written, and by no later write
      have hinj : ∀ i j, i < k → j < k → m.phys root (sp + i) = m.phys root (sp + j) → i = j := by
        intro i j hi hj heq
        obtain ⟨pi, hpi⟩ := huser i hi
        obtain ⟨pj, hpj⟩ := huser j hj
        have := hspace.phys_inj (by omega) (by omega) hpi hpj heq
        omega
      have hsrc : (m.writes (fun j => m.phys root (sp + j)) src k).byte
          (m.phys root (sp + (x - sp))) =
          src (x - sp) := byte_writes hinj hj
      rw [Nat.add_sub_cancel' hin.1] at hsrc
      rw [hsrc, List.getD_eq_getElem _ _ (by simpa using hj), List.getElem_map, List.getElem_range]
    · rename_i hnot
      -- any other byte has another physical address
      rw [byte_writes_of_ne, ← hbyte, ← userByte_of_flat hpa, Machine.userByte]
      intro j hj heq
      obtain ⟨pj, hpj⟩ := huser j hj
      have := hspace.phys_inj (by omega) (by omega) hpa hpj heq
      omega
  · obtain ⟨pa, hpa⟩ := h.guard x h₁ h₂
    exact ⟨pa, (hflat' x).trans hpa⟩

/-- An argument vector as `sys_exec` passes it: fewer than `MAXARG` strings, each of them with its
NUL in a page. -/
structure Argv (argv : List (List UInt8)) : Prop where
  count : argv.length < maxarg
  length : ∀ arg ∈ argv, arg.length < pgsize
  nulFree : ∀ arg ∈ argv, 0 ∉ arg

theorem sub64_of_le {a b : ℕ} (ha : a < 2 ^ 64) (h : b ≤ a) : sub64 a b = a - b := by
  rw [sub64]
  omega

/-- The two functions agree below the guard page. -/
def AgreeBelow (stop : ℕ) (c c' : ℕ → UInt8) : Prop := ∀ x, x + 2 * pgsize < stop → c' x = c x

theorem AgreeBelow.trans {c' c'' : ℕ → UInt8} (h₁ : AgreeBelow stop c c')
    (h₂ : AgreeBelow stop c' c'') :
    AgreeBelow stop c c'' := fun x hx => (h₂ x hx).trans (h₁ x hx)

theorem agreeBelow_putAt {l : List UInt8} (hlo : stop ≤ sp + pgsize) :
    AgreeBelow stop c (putAt c sp l) := by
  intro x hx
  rw [putAt, if_neg]
  omega

/-! ### The arguments -/

/-- The room that `n` bytes take on the stack. -/
def up16 (n : ℕ) : ℕ := (n + 15) / 16 * 16

/-- The room that strings take, each with its NUL. -/
def depth : List (List UInt8) → ℕ
  | [] => 0
  | arg :: argv => up16 (arg.length + 1) + depth argv

/-- The room that the strings and the array of pointers take. -/
def argvSize (argv : List (List UInt8)) : ℕ := depth argv + up16 (8 * (argv.length + 1))

/-- Where the strings start, pushed from `sp` on. -/
def addrs (sp : ℕ) : List (List UInt8) → List ℕ
  | [] => []
  | arg :: argv => (sp - up16 (arg.length + 1)) :: addrs (sp - up16 (arg.length + 1)) argv

/-- The contents of memory after strings were pushed from `sp` on. -/
def pushed (c : ℕ → UInt8) (sp : ℕ) : List (List UInt8) → ℕ → UInt8
  | [] => c
  | arg :: argv =>
    pushed (putAt c (sp - up16 (arg.length + 1)) ((List.range (arg.length + 1)).map (cstring arg)))
      (sp - up16 (arg.length + 1)) argv

theorem length_addrs : (addrs sp argv).length = argv.length := by
  induction argv generalizing sp with
  | nil => rfl
  | cons arg argv ih => rw [addrs, List.length_cons, ih, List.length_cons]

theorem depth_mod : depth argv % 16 = 0 := by
  induction argv with
  | nil => rfl
  | cons arg argv ih =>
    rw [depth, up16]
    omega

theorem addrs_lt {a : ℕ} (ha : a ∈ addrs sp argv) : a ≤ sp := by
  induction argv generalizing sp with
  | nil => exact absurd ha List.not_mem_nil
  | cons arg argv ih =>
    obtain rfl | ha := List.mem_cons.mp ha
    · exact Nat.sub_le _ _
    · exact (ih ha).trans (Nat.sub_le _ _)

theorem pushed_of_ge {x : ℕ} (hsp : depth argv ≤ sp) (hx : sp ≤ x) : pushed c sp argv x = c x := by
  induction argv generalizing c sp with
  | nil => rfl
  | cons arg argv ih =>
    rw [depth] at hsp
    have hup : arg.length + 1 ≤ up16 (arg.length + 1) := by
      rw [up16]
      omega
    rw [pushed, ih (by omega) (by omega), putAt, if_neg]
    rw [List.length_map, List.length_range]
    omega

/-- **The strings are on the stack**, each between the end of the array and `sp`. -/
theorem strings_pushed (hsp : depth argv ≤ sp) :
    ∀ x ∈ (addrs sp argv).zip argv, sp - depth argv ≤ x.1 ∧ x.1 + x.2.length + 1 ≤ sp ∧
      ∀ j ≤ x.2.length, pushed c sp argv (x.1 + j) = cstring x.2 j := by
  induction argv generalizing c sp with
  | nil => exact nofun
  | cons arg argv ih =>
    rw [depth] at hsp ⊢
    have hup : arg.length + 1 ≤ up16 (arg.length + 1) := by
      rw [up16]
      omega
    intro x hx
    rw [addrs, List.zip_cons_cons] at hx
    obtain rfl | hx := List.mem_cons.mp hx
    · -- the strings pushed after this one lie below it
      dsimp only
      refine ⟨by omega, by omega, fun j hj => ?_⟩
      rw [pushed, pushed_of_ge (by omega) (Nat.le_add_right _ _), putAt, List.length_map,
        List.length_range, if_pos ⟨Nat.le_add_right _ _, by omega⟩, Nat.add_sub_cancel_left,
        List.getD_eq_getElem _ _ (by rw [List.length_map, List.length_range]; omega),
        List.getElem_map, List.getElem_range]
    · obtain ⟨hlo, hhi, hbyte⟩ := @ih _ (putAt c (sp - up16 (arg.length + 1))
        ((List.range (arg.length + 1)).map (cstring arg))) (by omega) x hx
      exact ⟨by omega, by omega, hbyte⟩

theorem strings_apart (hsp : depth argv ≤ sp) :
    ((addrs sp argv).zip argv).Pairwise fun x y => y.1 + y.2.length + 1 ≤ x.1 := by
  induction argv generalizing sp with
  | nil => exact List.Pairwise.nil
  | cons arg argv ih =>
    rw [depth] at hsp
    rw [addrs, List.zip_cons_cons, List.pairwise_cons]
    exact ⟨fun y hy => (strings_pushed (c := fun _ => 0) (by omega) y hy).2.1, ih (by omega)⟩

theorem sub_up16 {n : ℕ} (hsp : sp % 16 = 0) (hn : n ≤ sp) :
    sp - n - (sp - n) % 16 = sp - up16 n ∧ up16 n ≤ sp ∧ (sp - up16 n) % 16 = 0 := by
  rw [up16]
  omega

/-- **The strings are pushed if they fit.** -/
theorem ends_pushArgs {base : ℕ} {ustack : List ℕ} (h : Stacked K m₀ m root stop tf c)
    (hbase : base + pgsize = stop) (hargs : ∀ arg ∈ argv, arg.length < pgsize)
    (hcount : ustack.length + argv.length ≤ maxarg) (hlo : stop ≤ sp + pgsize) (hhi : sp ≤ stop)
    (hsp : sp % 16 = 0) :
    Ends A (pushArgs root base argv sp ustack) m fun r m' =>
      ∃ c', Stacked K m₀ m' root stop tf c' ∧ AgreeBelow stop c c' ∧
        (r = if base + depth argv ≤ sp then some (sp - depth argv, ustack ++ addrs sp argv)
        else none) ∧
        (base + depth argv ≤ sp → c' = pushed c sp argv) := by
  have htf : trapframe = 274877898752 := by decide
  have hle := h.image.space.le
  have hroom := h.room
  induction argv generalizing m c sp ustack with
  | nil =>
    refine ⟨c, h, fun _ _ => rfl, ?_, fun _ => rfl⟩
    rw [depth, if_pos (by omega), addrs, List.append_nil, Nat.sub_zero]
  | cons arg argv ih =>
    have hlen : arg.length < pgsize := hargs arg List.mem_cons_self
    have hpg : pgsize = 4096 := rfl
    have hu : u64 (arg.length + 1) = arg.length + 1 := Nat.mod_eq_of_lt (by omega)
    obtain ⟨hdown, hup, hsp₁⟩ := sub_up16 hsp (show arg.length + 1 ≤ sp by omega)
    rw [List.length_cons] at hcount
    rw [pushArgs, hu, sub64_of_le (by omega) (by omega), hdown, if_neg (by omega), depth,
      addrs, pushed]
    have hbelow : sp - up16 (arg.length + 1) + (arg.length + 1) ≤ sp := by
      rw [← hdown]
      omega
    generalize hsp' : sp - up16 (arg.length + 1) = sp₁ at *
    by_cases hsp : sp₁ < base
    · -- there is no room for this string, and none of the later ones matters
      rw [if_pos hsp]
      exact ⟨c, h, fun _ _ => rfl, by rw [if_neg (by omega)], fun hfits => by omega⟩
    rw [if_neg hsp, ends_bind]
    refine (h.ends_copyout (by omega) (by omega)).mono fun r m₁ h₁ => ?_
    obtain ⟨rfl, h₁⟩ := h₁
    rw [if_neg (by decide)]
    refine (ih h₁ (fun a ha => hargs a (List.mem_cons_of_mem arg ha))
      (by rw [List.length_append, List.length_singleton]; omega) (by omega) (by omega) hsp₁).mono
      fun r m' hr => ?_
    obtain ⟨c', hs, hagree, hr, hc'⟩ := hr
    have hiff : base + (up16 (arg.length + 1) + depth argv) ≤ sp ↔
        base + depth argv ≤ sp₁ := by omega
    refine ⟨c', hs, (agreeBelow_putAt (by omega)).trans hagree, ?_,
      fun hfits => hc' (hiff.mp hfits)⟩
    rw [hr, List.append_assoc, List.singleton_append, if_congr hiff rfl rfl, ← hsp', Nat.sub_sub]

/-- The contents of memory after all was pushed. -/
def argvBytes (c : ℕ → UInt8) (top : ℕ) (argv : List (List UInt8)) : ℕ → UInt8 :=
  putAt (pushed c top argv) (top - argvSize argv)
    ((List.range (8 * (argv.length + 1))).map (wordBytes (addrs top argv ++ [0])))

/-- **The arguments are pushed exactly if they fit in the stack page.**  In any case the image below
is as it was. -/
theorem ends_pushArgv {base : ℕ} (h : Stacked K m₀ m root stop tf c) (hbase : base + pgsize = stop)
    (hargv : Argv argv) : Ends A (pushArgv root base argv stop) m fun r m' =>
      ∃ c', Stacked K m₀ m' root stop tf c' ∧ AgreeBelow stop c c' ∧
        (r = if argvSize argv ≤ pgsize then some (stop - argvSize argv) else none) ∧
        (argvSize argv ≤ pgsize → c' = argvBytes c stop argv) := by
  have htf : trapframe = 274877898752 := by decide
  have hle := h.image.space.le
  have hroom := h.room
  have hpg : pgsize = 4096 := rfl
  have hcount : argv.length < 32 := hargv.count
  have hal : stop % 16 = 0 := by
    have hpage := h.image.space.aligned
    rw [hpg] at hpage
    omega
  rw [pushArgv, ends_bind]
  refine (ends_pushArgs h hbase hargv.length (by rw [List.length_nil, maxarg]; omega) (by omega)
    (Nat.le_refl _) hal).mono fun r m₁ h₁ => ?_
  obtain ⟨c₁, h₁, hagree, rfl, hc₁⟩ := h₁
  by_cases hfits : base + depth argv ≤ stop
  swap
  · -- the strings do not fit
    rw [if_neg hfits]
    have hno : ¬ argvSize argv ≤ pgsize := by
      rw [argvSize]
      omega
    exact ⟨c₁, h₁, hagree, (if_neg hno).symm, fun hyes => absurd hyes hno⟩
  rw [if_pos hfits]
  have hdepth : (stop - depth argv) % 16 = 0 := by
    have := @depth_mod argv
    omega
  have hu : u64 (((addrs stop argv).length + 1) * 8) = 8 * (argv.length + 1) := by
    rw [length_addrs, Nat.mul_comm]
    exact Nat.mod_eq_of_lt (by omega)
  obtain ⟨hdown, hup, -⟩ :=
    sub_up16 hdepth (show 8 * (argv.length + 1) ≤ stop - depth argv by omega)
  have hsize : stop - depth argv - up16 (8 * (argv.length + 1)) = stop - argvSize argv := by
    rw [argvSize, Nat.sub_sub]
  have hiff : stop - argvSize argv < base ↔ ¬ argvSize argv ≤ pgsize := by
    rw [argvSize] at *
    omega
  simp only [List.nil_append, hu]
  rw [sub64_of_le (by omega) (by omega), hdown, hsize]
  by_cases hsp : stop - argvSize argv < base
  · -- the strings fit, and the array of pointers does not
    rw [if_pos hsp]
    exact ⟨c₁, h₁, hagree, (if_neg (hiff.mp hsp)).symm, fun hyes => absurd hyes (hiff.mp hsp)⟩
  have hyes : argvSize argv ≤ pgsize := not_not.mp (mt hiff.mpr hsp)
  have hend : stop - argvSize argv + 8 * (argv.length + 1) ≤ stop := by
    rw [← hsize, ← hdown]
    omega
  rw [if_neg hsp, ends_bind]
  refine (h₁.ends_copyout (by omega) hend).mono fun r m₂ h₂ => ?_
  obtain ⟨rfl, h₂⟩ := h₂
  rw [if_neg (by decide)]
  refine ⟨_, h₂, hagree.trans (agreeBelow_putAt (by omega)), (if_pos hyes).symm, fun _ => ?_⟩
  rw [hc₁ hfits]
  rfl

end Xv6.Vm
