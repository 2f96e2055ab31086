import Xv6.Fs.Ownership

/-!
# Calls that fail

A call that returns -1 leaves the files, the descriptors and the current directory of the
caller as they were, with one exception: `sys_open` may make a file before it finds that it
has no descriptor or `struct file` for it.

## Main definitions

* `Unchanged` — what a process can see is as before.

## Main results

* `failed_call_unchanged_iff` — when a call that returns -1 leaves all as it was.
-/

namespace Xv6.Fs

open Mkfs (mkfsSuper)

variable {sb : Super} {s s' : Image} {p : Pid} {c : Call}

/-- The calls that work on names. -/
inductive NameCall : Call → Prop
  | open (path : Option PathArg) (omode : BitVec 32) : NameCall (.open path omode)
  | link (old new : Option PathArg) : NameCall (.link old new)
  | unlink (path : Option PathArg) : NameCall (.unlink path)
  | mkdir (path : Option PathArg) : NameCall (.mkdir path)
  | mknod (path : Option PathArg) (major minor : BitVec 32) : NameCall (.mknod path major minor)
  | chdir (path : Option PathArg) : NameCall (.chdir path)

/-- The inodes with links, with their fields and contents. -/
def linked (N : Nodes) (i : ℕ) : Option Node := (N i).filter fun nd => 0 < nd.nlink.toInt

/-- What process `p` can see is as before: the inodes with links, its descriptors and its
current directory. -/
structure Unchanged (p : Pid) (s s' : Abs) : Prop where
  files : linked s'.node = linked s.node
  ofile : (s'.tables.proc p).ofile = (s.tables.proc p).ofile
  cwd : (s'.tables.proc p).cwd = (s.tables.proc p).cwd

/-- The call is an `open` that has to make a file: its path leads to a directory that does
not have the last element. -/
def Creates (s : Abs) (p : Pid) (c : Call) : Prop :=
  ∃ path omode, c = .open (some path) omode ∧ Makes s p path.chars omode

/-- What a call on names leaves when it fails. -/
theorem NameCall.wp_fail (hc : NameCall c) {t : Abs} (h : Rest True sb t) :
    (syscall p c).wp (onAbs sb p) Mild t fun r t' =>
      r = -1 → Fail True (Creates t p c) p t t' := by
  have hother : (∀ path omode, c ≠ .open path omode) → ¬ Creates t p c := by
    rintro hne ⟨path, omode, heq, -⟩
    exact hne _ _ heq
  have hfail : ¬ Creates t p c → ∀ t', Fail True False p t t' → Fail True (Creates t p c) p t t' :=
    fun hno t' hf => ⟨hf.proc, fun _ _ => hf.node trivial fun hf => hf, fun _ hm => absurd hm hno⟩
  cases hc with
  | «open» path omode =>
    refine h.wp_sysOpen.mono fun r t' hr hm => ?_
    obtain ⟨hproc, hnode, hnew⟩ := hr.2 hm
    have hiff : Creates t p (.open path omode) ↔ ∃ a, path = some a ∧ Makes t p a.chars omode := by
      constructor
      · rintro ⟨a, _, heq, hm⟩
        cases heq
        exact ⟨a, rfl, hm⟩
      · rintro ⟨a, rfl, hm⟩
        exact ⟨a, omode, rfl, hm⟩
    exact ⟨hproc, fun hh hno => hnode hh (mt hiff.mpr hno), fun hh hm => hnew hh (hiff.mp hm)⟩
  | link old new =>
    exact h.wp_sysLink.mono fun r t' hr hm => hfail (hother nofun) t' (hr.2 hm)
  | unlink path =>
    exact h.wp_sysUnlink.mono fun r t' hr hm => hfail (hother nofun) t' (hr.2 hm)
  | mkdir path =>
    exact (h.wp_sysMake (by decide) (by decide)).mono fun r t' hr hm =>
      hfail (hother nofun) t' (hr.2 hm)
  | mknod path major minor =>
    exact (h.wp_sysMake (by decide) (by decide)).mono fun r t' hr hm =>
      hfail (hother nofun) t' (hr.2 hm)
  | chdir path =>
    exact h.wp_sysChdir.mono fun r t' hr hm => hfail (hother nofun) t' (hr.2 hm)

theorem Fail.changed {t t' : Abs} {made : Prop} (h : Fail True made p t t') (hm : made) :
    ¬ Unchanged p t t' := by
  intro hun
  obtain ⟨j, nd, hnone, hsome, hlink⟩ := h.new trivial hm
  have hfile := congrFun hun.files j
  unfold linked at hfile
  rw [hnone, hsome] at hfile
  simp [hlink] at hfile

/-- **Failed calls change nothing**, unless they made a file first.  On a well-formed file
system, a call that returns -1 leaves the inodes with links, with all their fields and
contents, and the descriptors and the current directory of its process as they were, exactly
if it is not an `open` that had to make a file. -/
theorem failed_call_unchanged_iff (h : Sound True sb s) (hc : NameCall c)
    (hr : runCall sb s p c = .ok (-1, s')) :
    Unchanged p (view sb s) (view sb s') ↔ ¬ Creates (view sb s) p c := by
  have hcall := h.runCall_of c (hc.wp_fail (p := p) h.rest)
  rw [hr] at hcall
  have hfail := hcall.1 rfl
  refine ⟨fun hun hm => hfail.changed hm hun, fun hno => ?_⟩
  have hnode := hfail.node trivial hno
  exact ⟨by rw [hnode], by rw [hfail.proc], by rw [hfail.proc]⟩

theorem sound_image {files : List Mkfs.Input} {m : Mkfs.State} (hm : Mkfs.main files = some m)
    (hn : files.length ≤ Mkfs.ninodes - 2) (hne : (files.length + 2) % 64 ≠ 0) :
    Sound True mkfsSuper (boot m.disk) := by
  obtain ⟨hwf, hnode⟩ := Mkfs.wellFormed_mkfs hm hn hne
  refine .boot hwf fun _ i nd hi => ?_
  rw [hnode] at hi
  rw [Mkfs.nlink_image hi]
  decide

theorem sound_emptyImage : Sound True mkfsSuper (boot emptyImage.disk) :=
  sound_image main_emptyImage (by decide) (by decide)

/-- Removing a name that is not there fails, and changes nothing. -/
theorem failed_unlink_unchanged : ∃ s', runCall mkfsSuper (boot emptyImage.disk) init
      (.unlink (pathArg [97])) = .ok (-1, s') ∧
    Unchanged init (view mkfsSuper (boot emptyImage.disk)) (view mkfsSuper s') := by
  have hrun : (runCall mkfsSuper (boot emptyImage.disk) init (.unlink (pathArg [97]))).check
      (fun r => r.1 == -1) = true := by decide +kernel
  obtain ⟨⟨r, s'⟩, hs, hr⟩ := Outcome.exists_of_check hrun
  obtain rfl : r = -1 := by simpa using hr
  refine ⟨s', hs, (failed_call_unchanged_iff sound_emptyImage (.unlink _) hs).mpr ?_⟩
  rintro ⟨_, _, hopen, -⟩
  cases hopen

/-- All descriptors of a process are taken. -/
def fullRun : List (Pid × Call) :=
  (init, .open (pathArg [47]) 0) :: List.replicate 15 (init, .dup 0)

/-- **An `open` without a descriptor for its file** fails, and leaves the file it made. -/
theorem failed_open_creates : ∃ s s', Sound True mkfsSuper s ∧
    runCall mkfsSuper s init (.open (pathArg [120]) (oCreate ||| oRdwr)) = .ok (-1, s') ∧
    ¬ Unchanged init (view mkfsSuper s) (view mkfsSuper s') := by
  have hrun : (run (step mkfsSuper) (boot emptyImage.disk) fullRun).check (fun s =>
      (runCall mkfsSuper s init (.open (pathArg [120]) (oCreate ||| oRdwr))).check fun r =>
        r.1 == -1 && (linked (view mkfsSuper s).node 2).isNone &&
          (linked (view mkfsSuper r.2).node 2).isSome) = true := by decide +kernel
  obtain ⟨s, hs, hcall⟩ := Outcome.exists_of_check hrun
  obtain ⟨⟨r, s'⟩, hr, htest⟩ := Outcome.exists_of_check hcall
  simp only [Bool.and_eq_true, beq_iff_eq] at htest
  obtain ⟨⟨rfl, hnone⟩, hsome⟩ := htest
  refine ⟨s, s', sound_emptyImage.of_run (by decide +kernel) hs, hr, fun hun => ?_⟩
  have hfile := congrFun hun.files 2
  rw [Option.isNone_iff_eq_none.mp hnone] at hfile
  rw [hfile] at hsome
  cases hsome

end Xv6.Fs
