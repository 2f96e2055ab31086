import Xv6.Vm.Replace

/-!
# The argument stack of exec

`exec` pushes the argument strings, then the array of pointers to them, and gives the program the
address of the array as its second argument.  Here the stack is read back through the page table
of the new image: the words from the stack pointer on lead to copies of the strings.

## Main definitions

* `Machine.userWord`, a 64-bit word at a user address.
* `ArgStack`, what `main(argc, argv)` finds on its stack.

## Main results

* `exec_arguments`: if the image loads and memory suffices then `exec` succeeds exactly if the
  arguments fit in the stack page, and `ArgStack` holds then.
-/

namespace Xv6.Vm

open Kern

variable {K : Layout} {m : Machine} {root sz va i : ℕ} {c : ℕ → UInt8} {p : Proc}
  {file : List UInt8}
  {argv : List (List UInt8)}

/-- The little-endian 64-bit word at a user address. -/
def Machine.userWord (m : Machine) (root va : ℕ) : ℕ :=
  (List.range 8).foldr (fun k v => (m.userByte root (va + k)).toNat + 256 * v) 0

theorem userWord_eq {w : ℕ} (hw : w < 2 ^ 64)
    (hbyte : ∀ k < 8, m.userByte root (va + k) = UInt8.ofNat (w / 256 ^ k)) :
    m.userWord root va = w := by
  have hnat : ∀ k < 8, (m.userByte root (va + k)).toNat = w / 256 ^ k % 256 := by
    intro k hk
    rw [hbyte k hk]
    exact UInt8.toNat_ofNat'
  have h₀ := hnat 0 (by decide)
  rw [Nat.add_zero] at h₀
  simp only [Machine.userWord, List.range_succ, List.range_zero, List.nil_append, List.cons_append,
    List.foldr_cons, List.foldr_nil, hnat, h₀, Nat.add_zero, Nat.reduceLT]
  omega

/-- What `main(argc, argv)` finds on its stack: from `sp` on the array of `argc` pointers and a 0,
and above it the strings, each after its pointer and none over another. -/
structure ArgStack (m : Machine) (root sz sp : ℕ) (argv : List (List UInt8)) : Prop where
  aligned : sp % 16 = 0
  low : sz ≤ sp + pgsize -- the stack is one page
  array : sp + 8 * (argv.length + 1) ≤ sz
  user : ∀ va, sp ≤ va → va < sz → UserAddr m root va
  null : m.userWord root (sp + 8 * argv.length) = 0
  string : ∀ i arg, argv[i]? = some arg → ∀ j ≤ arg.length,
    m.userByte root (m.userWord root (sp + 8 * i) + j) = cstring arg j
  above : ∀ i arg, argv[i]? = some arg → sp + 8 * (argv.length + 1) ≤ m.userWord root (sp + 8 * i)
  below : ∀ i arg, argv[i]? = some arg → m.userWord root (sp + 8 * i) + arg.length + 1 ≤ sz
  apart : ∀ i j argi argj, i < j → argv[i]? = some argi → argv[j]? = some argj →
    m.userWord root (sp + 8 * j) + argj.length + 1 ≤ m.userWord root (sp + 8 * i)

/-- The bytes of the array, read as words. -/
theorem userWord_argvBytes (hfits : argvSize argv ≤ pgsize) (hroom : pgsize ≤ sz)
    (hsz : sz < 2 ^ 64)
    (hbyte : ∀ va, va < sz → sz ≤ va + pgsize → m.userByte root va = argvBytes c sz argv va)
    (hi : i ≤ argv.length) :
    m.userWord root (sz - argvSize argv + 8 * i) = (addrs sz argv ++ [0]).getD i 0 := by
  have hup : 8 * (argv.length + 1) ≤ argvSize argv := by
    rw [argvSize, up16]
    omega
  refine userWord_eq ?_ fun k hk => ?_
  · rw [List.getD_eq_getElem?_getD]
    cases hw : (addrs sz argv ++ [0])[i]? with
    | none => exact Nat.two_pow_pos 64
    | some w =>
      rcases List.mem_append.mp (List.mem_of_getElem? hw) with hmem | hmem
      · exact (addrs_lt hmem).trans_lt hsz
      · rw [List.mem_singleton.mp hmem]
        exact Nat.two_pow_pos 64
  · have hlen : sz - argvSize argv + 8 * i + k < sz := by omega
    rw [hbyte _ hlen (by omega), argvBytes, putAt, List.length_map, List.length_range,
      if_pos ⟨by omega, by omega⟩, List.getD_eq_getElem _ _ (by
        rw [List.length_map, List.length_range]
        omega), List.getElem_map, List.getElem_range, wordBytes]
    have hindex : sz - argvSize argv + 8 * i + k - (sz - argvSize argv) = 8 * i + k := by omega
    have hdiv : (8 * i + k) / 8 = i := by omega
    have hmod : (8 * i + k) % 8 = k := by omega
    rw [hindex, hdiv, hmod]

/-- **The stack decodes to the arguments.** -/
theorem argStack_of_bytes (hfits : argvSize argv ≤ pgsize) (hroom : pgsize ≤ sz) (hsz : sz < 2 ^ 64)
    (hal : sz % 16 = 0)
    (hbyte : ∀ va, va < sz → sz ≤ va + pgsize →
      UserAddr m root va ∧ m.userByte root va = argvBytes c sz argv va) :
    ArgStack m root sz (sz - argvSize argv) argv := by
  have hup : 8 * (argv.length + 1) ≤ up16 (8 * (argv.length + 1)) := by
    rw [up16]
    omega
  have hdepth : depth argv ≤ sz := by
    rw [argvSize] at hfits
    omega
  have hsize : argvSize argv = depth argv + up16 (8 * (argv.length + 1)) := rfl
  have hstart : argvSize argv % 16 = 0 := by
    have hmod := @depth_mod argv
    rw [hsize, up16]
    omega
  have hword : ∀ i ≤ argv.length,
      m.userWord root (sz - argvSize argv + 8 * i) = (addrs sz argv ++ [0]).getD i 0 := by
    intro i hi
    exact userWord_argvBytes hfits hroom hsz (fun va h₁ h₂ => (hbyte va h₁ h₂).2) hi
  -- the pointer to a string, as the pushes recorded it
  have hpointer : ∀ i arg, argv[i]? = some arg →
      ∃ a, m.userWord root (sz - argvSize argv + 8 * i) = a ∧
      ((addrs sz argv).zip argv)[i]? = some (a, arg) := by
    intro i arg harg
    have hi : i < argv.length := (List.getElem?_eq_some_iff.mp harg).1
    have hi' : i < (addrs sz argv).length := by rwa [length_addrs]
    refine ⟨(addrs sz argv)[i], ?_, List.getElem?_zip_eq_some.mpr
      ⟨List.getElem?_eq_getElem hi', harg⟩⟩
    rw [hword i hi.le, List.getD_append _ _ _ _ hi', List.getD_eq_getElem _ _ hi']
  have hstring : ∀ i arg, argv[i]? = some arg →
      sz - depth argv ≤ m.userWord root (sz - argvSize argv + 8 * i) ∧
      m.userWord root (sz - argvSize argv + 8 * i) + arg.length + 1 ≤ sz ∧
      ∀ j ≤ arg.length, pushed c sz argv (m.userWord root (sz - argvSize argv + 8 * i) + j)
        = cstring arg j := by
    intro i arg harg
    obtain ⟨a, ha, hzip⟩ := hpointer i arg harg
    rw [ha]
    exact strings_pushed hdepth (a, arg) (List.mem_of_getElem? hzip)
  refine ⟨by omega, by omega, by omega, fun va h₁ h₂ => (hbyte va h₂ (by omega)).1, ?_, ?_,
    ?_, ?_, ?_⟩
  · rw [hword _ le_rfl, List.getD_append_right _ _ _ _ (by rw [length_addrs]), length_addrs,
      Nat.sub_self]
    rfl
  · intro i arg harg j hj
    obtain ⟨hlo, hhi, hpushed⟩ := hstring i arg harg
    -- the array is below the strings, so writing it left them
    rw [(hbyte _ (by omega) (by omega)).2, argvBytes, putAt, List.length_map, List.length_range,
      if_neg (by omega), hpushed j hj]
  · intro i arg harg
    have hlo := (hstring i arg harg).1
    omega
  · exact fun i arg harg => (hstring i arg harg).2.1
  · intro i j argi argj hij hargi hargj
    obtain ⟨a, ha, hzipi⟩ := hpointer i argi hargi
    obtain ⟨b, hb, hzipj⟩ := hpointer j argj hargj
    obtain ⟨hi, hgeti⟩ := List.getElem?_eq_some_iff.mp hzipi
    obtain ⟨hj, hgetj⟩ := List.getElem?_eq_some_iff.mp hzipj
    have hapart := List.pairwise_iff_getElem.mp (strings_apart hdepth) i j hi hj hij
    rw [hgeti, hgetj] at hapart
    rw [ha, hb]
    exact hapart

/-- The image of a file loads and memory suffices: the header is in order, and the page table, the
segments and the two pages for the stack could be allocated and filled. -/
def Loadable (K : Layout) (p : Proc) (file : List UInt8) (m : Machine) : Prop :=
  let r := Fs.readString file 0 sizeofElfhdr
  let elf := elfHdr r.2
  r.1 = sizeofElfhdr ∧ elf.magic = elfMagic ∧ ∃ root m₁ sz m₂ sz1 m₃,
    procPagetable K p.trapframe m = .ok (root, m₁) ∧ root ≠ 0 ∧
    loadSegments K root file elf.phnum (u32 elf.phoff) 0 m₁ = .ok ((true, sz), m₂) ∧
    uvmalloc K root (pgroundup sz) (u64 (pgroundup sz + 2 * pgsize)) m₂ = .ok (sz1, m₃) ∧ sz1 ≠ 0

/-- **The argument stack decodes to `argv`.**  If the image loads and memory suffices then `exec`
returns `argc` exactly if the strings and the array fit in the stack page, and -1 if not.  On
success the stack pointer and `a1` are the address of the array, which leads to the strings. -/
theorem exec_arguments (h : p.Runs K m) (path : List UInt8) (hargv : Argv argv)
    (hload : Loadable K p file m) :
    Ends (fun _ => False) (exec K p path (some file) argv) m fun r m' =>
      if argvSize argv ≤ pgsize then
        r.1 = argv.length ∧ ∃ sp, m'.load64 (r.2.trapframe + 48) = sp ∧
          m'.load64 (r.2.trapframe + 120) = sp ∧ ArgStack m' r.2.pagetable r.2.sz sp argv
      else r.1 = -1 := by
  obtain ⟨hread, hmagic, root, m₁, sz, m₂, sz1, m₃, hroot, hpos, hsegs, halloc, hsz1⟩ := hload
  have htf : trapframe = 274877898752 := by decide
  have hpg : pgsize = 4096 := rfl
  -- the hypotheses say that these steps of `exec` succeed; their contracts say with what
  have hmake : Ends (fun _ => False) (procPagetable K p.trapframe) m _ :=
    ends_procPagetable h.image.space.heap h.ram.aligned (by have := h.ram.lt; omega)
  rcases hmake.of_ok hroot with ⟨hbad, -⟩ | ⟨-, himage, hbuilt⟩
  · exact absurd hbad hpos
  have hl : Loading K m m₁ root (pgroundup 0) p.trapframe fun _ => 0 :=
    ⟨himage, hbuilt, fun va hva => absurd hva (Nat.not_lt_zero va), fun _ _ => rfl⟩
  obtain ⟨hsz, c, hl₂, hend⟩ :=
    (ends_loadSegments (A := fun _ => False) hl (Nat.zero_le _)).of_ok hsegs
  dsimp only at hsz hl₂
  obtain ⟨hsize, hbytes⟩ := hend rfl
  have hsize' : sz = imageEnd (programHeaders file) := hsize
  have hle := hl₂.image.space.le
  have hmax := trapframe_lt
  rw [u64, Nat.mod_eq_of_lt (by omega)] at halloc
  rcases (ends_uvmalloc_stack hl₂).of_ok halloc with ⟨-, heq, hl₃⟩ | ⟨hbad, -⟩
  swap
  · exact absurd hbad hsz1
  have hal := hl₃.image.space.aligned
  have hle₃ := hl₃.image.space.le
  rw [exec]
  rw [if_neg (not_not_intro hread), if_neg (not_not_intro hmagic), ends_bind_of_ok hroot,
    if_neg hpos, ends_bind_of_ok hsegs, if_pos rfl]
  have hfile : (∀ ph ∈ programHeaders file, ph.Fits) →
      c = imageByte file (programHeaders file) := by
    intro hfits
    rw [hbytes hfits]
    exact funext fun x => foldl_overlay _ x
  -- what is left is the stack, and the arguments decide
  refine (ends_execStack_of_alloc h hargv hsz hsz1 halloc heq hl₃ hsize' hfile).mono
    fun r m' hr => ?_
  by_cases hfits : argvSize argv ≤ pgsize
  · rw [if_pos hfits] at hr ⊢
    obtain ⟨hr, hstop, -, hstart⟩ := hr
    refine ⟨hr, _, hstart.sp, hstart.a1, ?_⟩
    have hbyte := hstart.byte
    rw [hstop] at hbyte ⊢
    rw [hpg] at hal
    exact argStack_of_bytes hfits (by omega) (by omega) (by omega) hbyte
  · rw [if_neg hfits] at hr ⊢
    rw [hr.1]

/-- A process without memory, and enough memory to run `smallFile`. -/
theorem exists_loadable :
    ∃ m p, Proc.Runs smallLayout m p ∧ Loadable smallLayout p smallFile m := by
  have hrun : (procPagetable smallLayout (kernbase + 2 * pgsize) (freeMachine 11)).check
      (fun r => r.1 ≠ 0 && (procPagetable smallLayout (kernbase + 2 * pgsize) r.2).check fun r' =>
        r'.1 ≠ 0 && (loadSegments smallLayout r'.1 smallFile
          (elfHdr (Fs.readString smallFile 0 sizeofElfhdr).2).phnum
          (u32 (elfHdr (Fs.readString smallFile 0 sizeofElfhdr).2).phoff) 0 r'.2).check fun x =>
          x.1.1 && (uvmalloc smallLayout r'.1 (pgroundup x.1.2)
            (u64 (pgroundup x.1.2 + 2 * pgsize)) x.2).check fun y => y.1 ≠ 0) = true := by
    decide +kernel
  obtain ⟨⟨old, m⟩, hold, hrun⟩ := Outcome.exists_of_check hrun
  obtain ⟨hpos, hrun⟩ := Bool.and_eq_true_iff.mp hrun
  obtain ⟨⟨root, m₁⟩, hroot, hrun⟩ := Outcome.exists_of_check hrun
  obtain ⟨hpos₁, hrun⟩ := Bool.and_eq_true_iff.mp hrun
  obtain ⟨⟨⟨ok, sz⟩, m₂⟩, hsegs, hrun⟩ := Outcome.exists_of_check hrun
  obtain ⟨rfl, hrun⟩ := Bool.and_eq_true_iff.mp hrun
  obtain ⟨⟨sz1, m₃⟩, halloc, hsz1⟩ := Outcome.exists_of_check hrun
  have hram : smallLayout.Ram (kernbase + 2 * pgsize) := ⟨by decide, by decide, by decide⟩
  have hused : kernbase + 2 * pgsize ∉ (freeMachine 11).freelist := by decide
  have hhdr : (Fs.readString smallFile 0 sizeofElfhdr).1 = sizeofElfhdr ∧
      (elfHdr (Fs.readString smallFile 0 sizeofElfhdr).2).magic = elfMagic := by decide +kernel
  generalize smallFile = file at *
  exact ⟨m, _, runs_of_procPagetable (freeMachine_heap (by decide)) hram hused hold
    (of_decide_eq_true hpos), hhdr.1, hhdr.2, root, m₁, sz, m₂, sz1, m₃, hroot,
    of_decide_eq_true hpos₁, hsegs, halloc, of_decide_eq_true hsz1⟩

/-- The file is run with two arguments. -/
theorem exec_arguments_smallFile : ∃ m p, Proc.Runs smallLayout m p ∧
    Loadable smallLayout p smallFile m ∧
    Ends (fun _ => False) (exec smallLayout p [97] (some smallFile) [[97], [98, 99]]) m fun r m' =>
      r.1 = 2 ∧ ∃ sp, m'.load64 (r.2.trapframe + 48) = sp ∧ m'.load64 (r.2.trapframe + 120) = sp ∧
        ArgStack m' r.2.pagetable r.2.sz sp [[97], [98, 99]] := by
  obtain ⟨m, p, hruns, hload⟩ := exists_loadable
  generalize smallFile = file at hload ⊢
  refine ⟨m, p, hruns, hload, (exec_arguments hruns [97] argv_two hload).mono fun r m' h => ?_⟩
  exact (if_pos (by decide : argvSize [[97], [98, 99]] ≤ pgsize)).mp h

end Xv6.Vm
