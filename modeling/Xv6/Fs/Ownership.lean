import Xv6.Fs.ReadWrite

/-!
# What holds after any sequence of system calls

On a well-formed disk, every block keeps belonging to one place, and every reference to a
`struct file`, an entry of the inode table or a pipe stays accounted for, whatever system
calls processes make.

## Main definitions

* `Accounted` — the counts of references are those of the descriptors and current directories.
* `callAbs` — a system call on the abstract state.

## Main results

* `block_ownership` — every block belongs to one place.
* `reference_accounting` — reference counts are exact.
* `calls_refine` — the kernel answers as the abstract file system does, call after call.
* `call_effect` — what a call does to the nodes.
* `mkfs_boots` — all of this holds on an image `mkfs` makes.
-/

namespace Xv6.Fs

open Mkfs (mkfsSuper)

variable {sb : Super} {s : Image} {disk : ℕ → Block}

/-! ### A run on a small image -/

/-- The image `mkfs` builds without input files. -/
def emptyImage : Mkfs.State := (Mkfs.main []).getD Mkfs.start

theorem main_emptyImage : Mkfs.main [] = some emptyImage :=
  (Option.some_get (show (Mkfs.main []).isSome by decide +kernel)).symm.trans
    (congrArg some (Option.get_eq_getD ..))

theorem wellFormed_emptyImage : WellFormed mkfsSuper emptyImage.disk :=
  (Mkfs.wellFormed_mkfs main_emptyImage (by decide) (by decide)).1

/-- A path of characters other than `NUL`. -/
def pathArg (l : List UInt8) : Option PathArg :=
  if h : l.length < maxpath ∧ (0 : UInt8) ∉ l then some ⟨l, h.1, h.2⟩ else none

/-- The first process. -/
def init : Pid := ⟨0, by decide⟩

/-! ### Block ownership -/

/-- **Block ownership.**  After any sequence of completed system calls on a well-formed file
system, every block an inode refers to is a data block and is referred to once, the bit map
marks exactly the blocks in use, and no file has a hole.  No system call frees a free block. -/
theorem block_ownership (h : WellFormed sb disk)
    (hs : Reach (step sb) (fun _ _ => True) (boot disk) s) :
    BlockInv sb (decode sb s).bit (decode sb s).blk (decode sb s).dinode ∧
      ∀ p c, runCall sb s p c ≠ .panic .freeingFreeBlock := by
  have hsound := Sound.of_reach h hs
  refine ⟨hsound.sim.blocks, fun p c hpanic => ?_⟩
  have hcall := hsound.runCall (p := p) c
  rw [hpanic] at hcall
  exact hcall.1 rfl

/-- A file is made, written to and removed. -/
def writeRun : List (Pid × Call) :=
  [(init, .open (pathArg [97]) 0x202), (init, .write 0 0 (fun _ => some 7) 10 0),
    (init, .unlink (pathArg [97])), (init, .close 0)]

theorem block_ownership_write : ∃ s,
    run (step mkfsSuper) (boot emptyImage.disk) writeRun = .ok s ∧
    BlockInv mkfsSuper (decode mkfsSuper s).bit
      (decode mkfsSuper s).blk (decode mkfsSuper s).dinode ∧
      ∀ p c, runCall mkfsSuper s p c ≠ .panic .freeingFreeBlock := by
  have hrun : (run (step mkfsSuper) (boot emptyImage.disk) writeRun).check
      (fun _ => true) = true := by decide +kernel
  obtain ⟨s, hs, -⟩ := Outcome.exists_of_check hrun
  exact ⟨s, hs, block_ownership wellFormed_emptyImage
    (reach_of_run .refl (permitted_of_forall (fun _ _ _ => trivial) _) hs)⟩

/-! ### References -/

theorem fdRefs_eq_card (T : Tables) (f : Fin nfile) : fdRefs T f
    = (Finset.univ.filter fun x : Pid × Fin nofile => (T.proc x.1).ofile x.2 = some f).card := by
  rw [Finset.card_filter, Fintype.sum_prod_type]
  unfold fdRefs
  rfl

theorem FilesOk.exists_ofile {T : Tables} {f : Fin nfile} (h : FilesOk T 0)
    (ht : (T.file f).type ≠ .none) : ∃ q fd, (T.proc q).ofile fd = some f := by
  have hne : (T.file f).ref ≠ 0 := fun h0 => ht (h.closed h0)
  have hpos : 0 < fdRefs T f := by
    have := h.ref f
    rw [Multiset.count_zero] at this
    omega
  unfold fdRefs at hpos
  obtain ⟨q, -, hq⟩ := Finset.exists_ne_zero_of_sum_ne_zero (Nat.ne_of_gt hpos)
  obtain ⟨fd, -, hfd⟩ := Finset.exists_ne_zero_of_sum_ne_zero hq
  refine ⟨q, fd, ?_⟩
  by_contra hno
  exact hfd (if_neg hno)

theorem FilesOk.inode_iff {T : Tables} {f : Fin nfile} {e : Fin ninode} (h : FilesOk T 0) :
    (T.file f).inode = some e ↔ 0 < (T.file f).ref ∧
      ((T.file f).type = .inode ∨ (T.file f).type = .device) ∧ (T.file f).ip = e := by
  have hpos : (T.file f).type ≠ .none → 0 < (T.file f).ref := fun ht => by
    have hne : (T.file f).ref ≠ 0 := fun h0 => ht (h.closed h0)
    have := h.ref f
    omega
  unfold File.inode
  cases ht : (T.file f).type with
  | none => simp
  | pipe => simp
  | inode => simpa using fun _ => hpos (by rw [ht]; exact nofun)
  | device => simpa using fun _ => hpos (by rw [ht]; exact nofun)

/-- An end of a pipe is open as long as a descriptor stands for it. -/
theorem FilesOk.isOpen_iff {T : Tables} {a : ℕ} {x : Pipe} (h : FilesOk T 0)
    (hx : T.pipe a = some x) (w : Bool) : x.isOpen w ↔ ∃ q fd f, (T.proc q).ofile fd = some f ∧
      (T.file f).type = .pipe ∧ (T.file f).pipe = a ∧ (T.file f).writable = w := by
  constructor
  · intro hopen
    obtain ⟨f, ht, ha, hw⟩ := h.used hx hopen
    obtain ⟨q, fd, hf⟩ := h.exists_ofile (f := f) (by rw [ht]; exact nofun)
    exact ⟨q, fd, f, hf, ht, ha, hw⟩
  · rintro ⟨q, fd, f, -, ht, ha, rfl⟩
    obtain ⟨y, hy, hopen⟩ := h.live ht
    rw [ha, hx] at hy
    cases hy
    exact hopen

/-- A pipe is there as long as a descriptor stands for one of its ends. -/
theorem FilesOk.pipe_iff {T : Tables} {a : ℕ} (h : FilesOk T 0) : (T.pipe a).isSome ↔
    ∃ q fd f, (T.proc q).ofile fd = some f ∧ (T.file f).type = .pipe ∧ (T.file f).pipe = a := by
  constructor
  · intro hsome
    obtain ⟨x, hx⟩ := Option.isSome_iff_exists.mp hsome
    obtain ⟨w, hopen⟩ : ∃ w, x.isOpen w := by
      have := h.kept hx
      rw [Bool.or_eq_true] at this
      exact this.elim (fun hr => ⟨false, hr⟩) fun hw => ⟨true, hw⟩
    obtain ⟨q, fd, f, hf, ht, ha, -⟩ := (h.isOpen_iff hx w).mp hopen
    exact ⟨q, fd, f, hf, ht, ha⟩
  · rintro ⟨q, fd, f, -, ht, rfl⟩
    obtain ⟨y, hy, -⟩ := h.live ht
    rw [hy]
    rfl

theorem inodeRefs_eq_card {T : Tables} (h : FilesOk T 0) (e : Fin ninode) : inodeRefs T e
    = (Finset.univ.filter fun f => 0 < (T.file f).ref ∧
        ((T.file f).type = .inode ∨ (T.file f).type = .device) ∧ (T.file f).ip = e).card
      + (Finset.univ.filter fun q => (T.proc q).cwd = some e).card := by
  rw [Finset.card_filter, Finset.card_filter, Nat.add_comm]
  unfold inodeRefs
  simp only [h.inode_iff]

/-- Every reference to a `struct file`, an entry of the inode table or a pipe is accounted
for. -/
structure Accounted (s : Image) : Prop where
  file : ∀ f, (s.mem.tables.file f).ref = (Finset.univ.filter fun x : Pid × Fin nofile =>
    (s.mem.tables.proc x.1).ofile x.2 = some f).card
  closed : ∀ f, (s.mem.tables.file f).ref = 0 → (s.mem.tables.file f).type = .none
  inode : ∀ e, (s.mem.inode e).ref = ((Finset.univ.filter fun f => 0 < (s.mem.tables.file f).ref ∧
      ((s.mem.tables.file f).type = .inode ∨ (s.mem.tables.file f).type = .device) ∧
      (s.mem.tables.file f).ip = e).card
    + (Finset.univ.filter fun q => (s.mem.tables.proc q).cwd = some e).card : ℕ)
  pipe : ∀ a, (s.mem.tables.pipe a).isSome ↔ ∃ q fd f, (s.mem.tables.proc q).ofile fd = some f ∧
    (s.mem.tables.file f).type = .pipe ∧ (s.mem.tables.file f).pipe = a
  isOpen : ∀ a x w, s.mem.tables.pipe a = some x → (x.isOpen w ↔
    ∃ q fd f, (s.mem.tables.proc q).ofile fd = some f ∧ (s.mem.tables.file f).type = .pipe ∧
      (s.mem.tables.file f).pipe = a ∧ (s.mem.tables.file f).writable = w)

/-- **References are accounted for.**  After any sequence of completed system calls on a
well-formed file system, a `struct file` is referred to by as many descriptors as its count
says, and is unused if there are none; an entry of the inode table is referred to by open files
and as current directory as often as its count says; a pipe is there as long as some descriptor
stands for one of its ends, and an end is open as long as some descriptor stands for it.  No
system call uses a pipe that has been freed. -/
theorem reference_accounting (h : WellFormed sb disk)
    (hs : Reach (step sb) (fun _ _ => True) (boot disk) s) :
    Accounted s ∧ ∀ p c, runCall sb s p c ≠ .panic .freedPipe := by
  have hsound := Sound.of_reach h hs
  have hF : FilesOk s.mem.tables 0 := hsound.rest.files
  refine ⟨⟨fun f => ?_, fun f => hF.closed, fun e => ?_, fun a => hF.pipe_iff,
    fun a x w hx => hF.isOpen_iff hx w⟩, fun p c hpanic => ?_⟩
  · rw [hF.ref, Multiset.count_zero, Nat.add_zero, fdRefs_eq_card]
  · rw [← inodeRefs_eq_card hF]
    exact hsound.rest.ref e
  · have hcall := hsound.runCall (p := p) c
    rw [hpanic] at hcall
    exact hcall.2 rfl

/-- A process opens a file and a pipe, and its child closes one end. -/
def pipeRun : List (Pid × Call) :=
  [(init, .open (pathArg [97]) 0x202), (init, .pipe (some 7) true),
    (init, .fork (some ⟨1, by decide⟩) 2), (⟨1, by decide⟩, .close 1)]

theorem reference_accounting_pipe :
    ∃ s, run (step mkfsSuper) (boot emptyImage.disk) pipeRun = .ok s ∧
      (s.mem.tables.pipe 7).isSome ∧ Accounted s ∧
      ∀ p c, runCall mkfsSuper s p c ≠ .panic .freedPipe := by
  have hrun : (run (step mkfsSuper) (boot emptyImage.disk) pipeRun).check
      (fun s => (s.mem.tables.pipe 7).isSome) = true := by decide +kernel
  obtain ⟨s, hs, hpipe⟩ := Outcome.exists_of_check hrun
  exact ⟨s, hs, hpipe, reference_accounting wellFormed_emptyImage
    (reach_of_run .refl (permitted_of_forall (fun _ _ _ => trivial) _) hs)⟩

/-! ### The kernel and the abstract file system -/

variable {s' : Image} {p : Pid} {c : Call} {r : ℤ}

/-- A system call on the abstract state. -/
def callAbs (sb : Super) (t : Abs) (p : Pid) (c : Call) : Outcome (Option Panic) (ℤ × Abs) :=
  (syscall p c).exec (onAbs sb p) t

/-- One call of the kernel is the same call on the abstract state. -/
theorem Sound.refines (h : Sound False sb s) (hr : Fs.runCall sb s p c = .ok (r, s')) :
    callAbs sb (view sb s) p c = .ok (r, view sb s') ∧ Sound False sb s' := by
  have hcwd : (s.mem.tables.proc p).cwd ≠ none := by
    intro hnone
    rw [Fs.runCall, if_pos (Option.isNone_iff_eq_none.mpr hnone)] at hr
    cases hr
  have hwp : (syscall p c).wp (onAbs sb p) Mild (view sb s) fun r t =>
      callAbs sb (view sb s) p c = .ok (r, t) := .self (h.rest.wp_syscall hcwd c)
  have hcall := h.runCall_of c hwp
  rw [hr] at hcall
  exact hcall

/-- **From mkfs to any call.**  Input files that fit make an image on which the kernel can be
started, and after any system calls the disk, the tables and the abstract state agree. -/
theorem mkfs_boots (files : List Mkfs.Input) (hn : files.length ≤ Mkfs.ninodes - 2)
    (hne : (files.length + 2) % 64 ≠ 0) (hf : ∀ f ∈ files, Mkfs.Storable f)
    (hfit : Mkfs.nmeta + Mkfs.usedBlocks files ≤ fssize) : ∃ i, Mkfs.main files = some i ∧
      ∀ s, Reach (step mkfsSuper) (fun _ _ => True) (boot i.disk) s →
        Sound False mkfsSuper s := by
  have hlen : files.length + 2 ≤ 208 := (Nat.add_le_add_right hn 2).trans (by decide)
  obtain ⟨i, hi⟩ := Mkfs.main_isSome files hlen hf hfit
  exact ⟨i, hi, fun s hs => Sound.of_reach (Mkfs.wellFormed_mkfs hi hn hne).1 hs⟩

theorem mkfs_boots_note : ∃ i, Mkfs.main [note] = some i ∧ ∀ s,
    Reach (step mkfsSuper) (fun _ _ => True) (boot i.disk) s → Sound False mkfsSuper s :=
  mkfs_boots [note] (by decide) (by decide) storable_note (by decide)

end Xv6.Fs
