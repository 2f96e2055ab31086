import Xv6.Fs.Descriptors
import Xv6.Fs.Refine

/-!
# Whole system calls on a disk of bytes

Between system calls the abstract state can be read off the disk and the tables: nothing is
dirty.  So what is known of the system calls above the inode layer is known of the kernel that
runs on a disk of bytes, call after call, from any well-formed disk.

## Main definitions

* `view` — the abstract state between system calls.
* `Sound` — what is true between system calls.
* `WellFormed` — the disks a kernel can be started on.

## Main results

* `Sound.runCall` — what a system call does, seen from above.
* `Sound.boot` — a kernel started on a well-formed disk.
* `Sound.of_reach` — what is true after any sequence of system calls.
-/

namespace Xv6.Fs

variable {H : Prop} {sb : Super} {s s' : Image} {p : Pid}

/-! ### The abstract state between system calls -/

/-- The abstract state, read off the disk and the tables. -/
def view (sb : Super) (s : Image) : Abs where
  entry := fun e =>
    ⟨(s.mem.inode e).inum, (s.mem.inode e).ref, (s.mem.inode e).owner, (s.mem.inode e).valid, false⟩
  node := fun i => if Used sb (decode sb s).dinode i then
    some (nodeOf (decode sb s).blk ((decode sb s).dinode i)) else none
  tables := s.mem.tables

/-- What is true between system calls: the disk and the tables agree with the abstract state,
which is at rest. -/
structure Sound (H : Prop) (sb : Super) (s : Image) : Prop where
  sim : Sim sb (decode sb s).dinode (decode sb s) (view sb s)
  rest : Rest H sb (view sb s)

theorem BlockInv.congr {bit : ℕ → Bool} {blk : ℕ → Block} {D D' : ℕ → Dinode}
    (h : BlockInv sb bit blk D) (hD : ∀ i, i < sb.ninodes → D' i = D i) :
    BlockInv sb bit blk D' := by
  have hused : ∀ i, Used sb D' i ↔ Used sb D i := fun i => by
    unfold Used
    exact ⟨fun hu => ⟨hu.1, hD i hu.1 ▸ hu.2⟩, fun hu => ⟨hu.1, (hD i hu.1).symm ▸ hu.2⟩⟩
  refine ⟨?_, fun i hu => ?_, fun i hu => ?_⟩
  · rw [refs_congr hused fun i k hu => by rw [hD i hu.1]]
    exact h.exact
  · rw [hD i hu.1]
    exact h.noHoles i ((hused i).mp hu)
  · rw [hD i hu.1]
    exact h.size_le i ((hused i).mp hu)

/-- **An abstract state in which nothing is dirty is the one on the disk.** -/
theorem Agree.view_eq {t : Abs} (h : Agree sb (decode sb s) t)
    (hclean : ∀ e, (t.entry e).dirty = false) :
    t = view sb s ∧ Sim sb (decode sb s).dinode (decode sb s) (view sb s) := by
  obtain ⟨D, h⟩ := h
  have hD : ∀ i, i < sb.ninodes → (decode sb s).dinode i = D i := by
    intro i hi
    obtain heq | ⟨-, e, -, -, -, hd⟩ := h.disk i hi
    · exact heq
    · rw [hclean e] at hd
      cases hd
  have hused : ∀ i, Used sb (decode sb s).dinode i ↔ Used sb D i := fun i => by
    unfold Used
    exact ⟨fun hu => ⟨hu.1, hD i hu.1 ▸ hu.2⟩, fun hu => ⟨hu.1, (hD i hu.1).symm ▸ hu.2⟩⟩
  have hview : t = view sb s := by
    have hentry : t.entry = (view sb s).entry := by
      funext e
      have h₁ := h.inum e
      have h₂ := h.ref e
      have h₃ := h.owner e
      have h₄ := h.valid e
      have h₅ := hclean e
      cases hte : t.entry e
      rw [hte] at h₁ h₂ h₃ h₄ h₅
      subst h₁ h₂ h₃ h₄ h₅
      rfl
    have hnode : t.node = (view sb s).node := by
      funext i
      rw [h.node]
      show _ = if Used sb (decode sb s).dinode i then _ else none
      by_cases hu : Used sb D i
      · rw [if_pos hu, if_pos ((hused i).mpr hu), hD i hu.1]
      · rw [if_neg hu, if_neg (mt (hused i).mp hu)]
    obtain ⟨entry, node, tables⟩ := t
    have htab := h.tables
    dsimp only at hentry hnode htab
    rw [hentry, hnode, htab]
    rfl
  refine ⟨hview, ?_⟩
  rw [← hview]
  refine ⟨h.blocks.congr hD, h.tables, fun i => ?_, h.inum, h.ref, h.owner, h.valid, h.live, h.uniq,
    fun e he hv => ?_, fun i hi => .inl rfl⟩
  · rw [h.node]
    by_cases hu : Used sb D i
    · rw [if_pos hu, if_pos ((hused i).mpr hu), hD i hu.1]
    · rw [if_neg hu, if_neg (mt (hused i).mp hu)]
  · rw [hD _ (h.live e he).2]
    exact h.copy e he hv

/-! ### One system call -/

/-- What is known of a panic of a system call. -/
def Excused (x : Panic) : Prop := x ≠ .freeingFreeBlock ∧ x ≠ .freedPipe

theorem excused_of_mild {x : Panic} (h : x = .outOfBlocks ∨ Mild (some x)) : Excused x := by
  obtain rfl | ⟨e, he, hm⟩ := h
  · exact ⟨by decide, by decide⟩
  · cases he
    exact hm

theorem not_mild_of_fault {x : Option Panic} (h : x = none) : ¬ Mild x := by
  rintro ⟨e, he, -⟩
  rw [h] at he
  cases he

/-- A system call on a structured disk. -/
theorem Sound.exec_checked (h : Sound H sb s) (c : Call) {Q : ℤ × Abs → Prop}
    (hQ : ((syscall p c).exec (onAbs sb p) (view sb s)).Ensures Mild Q) :
    ((callProg sb p c).exec (checked sb) (decode sb s)).Ensures
      (fun x => x = some .outOfBlocks ∨ Mild x) fun r => ∃ t, Q (r.1, t) ∧ Agree sb r.2 t := by
  obtain ⟨e, hbad, he⟩ | hmatch := callProg_refines (p := p) c ⟨_, h.sim⟩
  · rw [he] at hQ
    exact absurd hQ (not_mild_of_fault hbad)
  cases hx : (callProg sb p c).exec (checked sb) (decode sb s) with
  | ok r =>
    rw [hx] at hmatch
    obtain ⟨t, ht, hag⟩ := hmatch
    rw [ht] at hQ
    exact ⟨t, hQ, hag⟩
  | panic x =>
    rw [hx] at hmatch
    obtain hdrop | he := hmatch
    · exact .inl hdrop
    · rw [he] at hQ
      exact .inr hQ
  | stuck => trivial

/-- A system call on a disk of bytes. -/
theorem Sound.exec_onImage (h : Sound H sb s) (c : Call) {Q : ℤ × Abs → Prop}
    (hQ : ((syscall p c).exec (onAbs sb p) (view sb s)).Ensures Mild Q) :
    ((callProg sb p c).exec (onImage sb) s).Ensures Excused
      fun r => ∃ t, Q (r.1, t) ∧ Agree sb (decode sb r.2) t := by
  have hchecked := h.exec_checked c hQ
  obtain ⟨e, hbad, he⟩ | hmatch := exec_onImage_refines sb (callProg sb p c) s
  · rw [he] at hchecked
    obtain hc | hm := hchecked
    · rw [hbad] at hc
      cases hc
    · exact absurd hm (not_mild_of_fault hbad)
  cases hx : (callProg sb p c).exec (onImage sb) s with
  | ok r =>
    rw [hx] at hmatch
    obtain ⟨t, ht, rfl⟩ := hmatch
    rw [ht] at hchecked
    exact hchecked
  | panic x =>
    rw [hx] at hmatch
    obtain hdrop | he := hmatch
    · exact hdrop.elim
    · rw [he] at hchecked
      exact excused_of_mild (hchecked.imp_left Option.some.inj)
  | stuck => trivial

/-- **A system call of the kernel does what it does to the abstract state**, and ends with
disk, tables and abstract state in agreement. -/
theorem Sound.runCall_of (h : Sound H sb s) (c : Call) {Q : ℤ → Abs → Prop}
    (hQ : (syscall p c).wp (onAbs sb p) Mild (view sb s) Q) :
    (runCall sb s p c).Ensures Excused fun r => Q r.1 (view sb r.2) ∧ Sound False sb r.2 := by
  rw [runCall]
  split
  · trivial
  next hcwd =>
  have hcwd : ((view sb s).tables.proc p).cwd ≠ none := fun hn => hcwd (by
    rw [Option.isNone_iff_eq_none]
    exact hn)
  have hrest := (h.rest.weaken False.elim).wp_syscall hcwd c
  refine (h.exec_onImage c (Outcome.Ensures.and hQ hrest)).mono (fun _ hx => hx) fun r hr => ?_
  obtain ⟨t, ⟨hq, hends⟩, hag⟩ := hr
  have hrest := hends.rest False.elim
  obtain ⟨rfl, hsim⟩ := hag.view_eq hrest.clean
  exact ⟨hq, hsim, hrest⟩

/-- **What every system call leaves**, seen from above. -/
theorem Sound.runCall (h : Sound H sb s) (c : Call) :
    (runCall sb s p c).Ensures Excused fun r => Ends H sb (view sb s) (view sb r.2) ∧
      ((H → ¬ Saturated (view sb s).node) → Sound H sb r.2) := by
  by_cases hcwd : ((view sb s).tables.proc p).cwd = none
  · have hnone : (s.mem.tables.proc p).cwd.isNone := Option.isNone_iff_eq_none.mpr hcwd
    rw [Fs.runCall, if_pos hnone]
    trivial
  · refine (h.runCall_of c (h.rest.wp_syscall hcwd c)).mono (fun _ hx => hx) fun r hr => ?_
    exact ⟨hr.1, fun hsat => ⟨hr.2.sim, hr.1.rest hsat⟩⟩

/-! ### From the start -/

/-- The disks a kernel can be started on: blocks are well-formed, and the entries of
directories hold numbers of inodes. -/
structure WellFormed (sb : Super) (disk : ℕ → Block) : Prop where
  blocks : BlockInv sb (decode sb (boot disk)).bit (decode sb (boot disk)).blk
    (decode sb (boot disk)).dinode
  entries : ∀ i nd, (view sb (boot disk)).node i = some nd → nd.type = tDir →
    DirOk sb.ninodes nd.data

variable {disk : ℕ → Block}

theorem ref_boot {e : Fin ninode} (h : 0 < ((view sb (boot disk)).entry e).ref) : e.val = 0 := by
  by_contra hne
  have : ((view sb (boot disk)).entry e).ref = 0 := by
    show (bootMem.inode e).ref = 0
    rw [show bootMem.inode e = Inode.unused from if_neg hne]
    rfl
  omega

theorem inode_boot {e : Fin ninode} (h : 0 < ((view sb (boot disk)).entry e).ref) :
    bootMem.inode e
      = { Inode.unused with dev := rootdev.toNat, inum := rootino.toNat, ref := 1 } :=
  if_pos (ref_boot h)

theorem sim_boot (h : WellFormed sb disk) :
    Sim sb (decode sb (boot disk)).dinode (decode sb (boot disk)) (view sb (boot disk)) := by
  refine ⟨h.blocks, rfl, fun _ => rfl, fun _ => rfl, fun _ => rfl, fun _ => rfl, fun _ => rfl,
    fun e he => ?_, fun e e' he he' _ => ?_, fun e he hv => ?_, fun _ _ => .inl rfl⟩
  · show (bootMem.inode e).dev = _ ∧ (bootMem.inode e).inum < _
    rw [inode_boot he]
    exact ⟨rfl, sb.root_lt⟩
  · exact Fin.ext ((ref_boot he).trans (ref_boot he').symm)
  · change (bootMem.inode e).valid = true at hv
    rw [inode_boot he] at hv
    cases hv

theorem files_boot : FilesOk bootMem.tables 0 := by
  refine ⟨fun f => ?_, fun _ => rfl, fun ht => (nomatch ht), fun ht => (nomatch ht),
    fun hx => (nomatch hx), fun hx => (nomatch hx)⟩
  have hrefs : fdRefs bootMem.tables f = 0 := by
    unfold fdRefs
    exact Finset.sum_eq_zero fun q _ => Finset.sum_eq_zero fun fd _ => rfl
  rw [hrefs]
  rfl

theorem inodeRefs_boot (e : Fin ninode) :
    inodeRefs bootMem.tables e = if e.val = 0 then 1 else 0 := by
  have hfiles : (∑ f, if (bootMem.tables.file f).inode = some e then 1 else 0) = 0 :=
    Finset.sum_eq_zero fun f _ => rfl
  have hcwd : ∀ q : Pid, (if (bootMem.tables.proc q).cwd = some e then 1 else 0)
      = if q = ⟨0, by decide⟩ then (if e.val = 0 then 1 else 0) else 0 := by
    intro q
    by_cases hq : q = ⟨0, by decide⟩
    · subst hq
      rw [if_pos rfl]
      refine if_congr ?_ rfl rfl
      show some (⟨0, by decide⟩ : Fin ninode) = some e ↔ _
      rw [Option.some.injEq, eq_comm, Fin.ext_iff]
    · rw [if_neg hq]
      refine if_neg ?_
      have hne : q.val ≠ 0 := fun h0 => hq (Fin.ext h0)
      show (if q.val = 0 then some (⟨0, by decide⟩ : Fin ninode) else none) ≠ some e
      rw [if_neg hne]
      exact nofun
  unfold inodeRefs
  rw [hfiles, Finset.sum_congr rfl fun q _ => hcwd q, Finset.sum_ite_eq' Finset.univ,
    if_pos (Finset.mem_univ _), Nat.add_zero]

/-- **A kernel started on a well-formed disk.** -/
theorem Sound.boot (h : WellFormed sb disk)
    (hH : H → ∀ i nd, (view sb (boot disk)).node i = some nd → nd.nlink ≠ 0) :
    Sound H sb (boot disk) := by
  have hsim := sim_boot h
  refine ⟨hsim, fun {e e'} he he' => hsim.uniq e e' he he', fun {e} he => (hsim.live e he).2,
    fun {e} he hv => ?_, fun _ => rfl, fun e => ?_, fun e => ?_, files_boot,
    fun hf => (nomatch hf), fun ht => (nomatch ht), fun {i nd} hi => ?_,
    fun hh i nd hi h0 => absurd h0 (hH hh i nd hi)⟩
  · change (bootMem.inode e).valid = true at hv
    rw [inode_boot he] at hv
    cases hv
  · show (bootMem.inode e).ref = (inodeRefs bootMem.tables e : ℕ)
    rw [inodeRefs_boot]
    show (if e.val = 0 then _ else _ : Inode).ref = _
    split <;> rfl
  · show (if e.val = 0 then _ else _ : Inode).owner = none
    split <;> rfl
  · refine ⟨?_, ?_, h.entries i nd hi⟩
    all_goals
      change (if Used sb (decode sb (Fs.boot disk)).dinode i then _ else none) = some nd at hi
      split at hi
    · next hu => exact hu.1
    · cases hi
    · next hu =>
      cases hi
      rw [nodeOf, length_fileData]
      exact h.blocks.size_le i hu
    · cases hi

theorem Sound.step {a : Pid × Call} (h : Sound H sb s) (hsat : H → ¬ Saturated (view sb s).node)
    (hstep : Fs.step sb s a = .ok s') : Sound H sb s' := by
  rw [Fs.step, Outcome.bind_eq_ok] at hstep
  obtain ⟨r, hr, heq⟩ := hstep
  cases heq
  have hcall := h.runCall (p := a.1) a.2
  rw [hr] at hcall
  exact hcall.2 hsat

/-- **After any sequence of system calls** the disk, the tables and the abstract state agree. -/
theorem Sound.of_reach (h : WellFormed sb disk)
    (hs : Reach (Fs.step sb) (fun _ _ => True) (Fs.boot disk) s) : Sound False sb s :=
  hs.invariant (.boot h False.elim) fun _ _ _ ht _ hstep => ht.step False.elim hstep

/-- A link count that can be read off the disk is not the largest there is. -/
theorem not_saturated_of_all (h : (List.range sb.ninodes).all
    (fun i => ((decode sb s).dinode i).nlink != 0xffff) = true) : ¬ Saturated (view sb s).node := by
  rintro ⟨i, nd, hi, hlink⟩
  change (if Used sb (decode sb s).dinode i then _ else none) = some nd at hi
  split at hi
  · next hu =>
    cases hi
    have := List.all_eq_true.mp h i (List.mem_range.mpr hu.1)
    exact (bne_iff_ne.mp this) hlink
  · cases hi

/-- Along a run in which no link count is the largest there is, inodes without links stay in
use. -/
theorem Sound.of_run {as : List (Pid × Call)} (h : Sound H sb s)
    (hok : Permitted (Fs.step sb) (fun s _ => (List.range sb.ninodes).all
      (fun i => ((decode sb s).dinode i).nlink != 0xffff) = true) s as)
    (hrun : run (Fs.step sb) s as = .ok s') : Sound H sb s' :=
  (reach_of_run .refl hok hrun).invariant h fun _ _ _ ht hall hstep =>
    ht.step (fun _ => not_saturated_of_all hall) hstep

end Xv6.Fs
