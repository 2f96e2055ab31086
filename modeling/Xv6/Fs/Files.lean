import Xv6.Fs.Walk

/-!
# Open files

Reference counts of `struct file`s and the pages of pipes.  Every reference to a file is a
descriptor of some process or belongs to the running call, and a pipe's page is there as long
as a file stands for one of its ends.

## Main definitions

* `fdRefs` — the descriptors that point to a file.
* `FilesOk` — what is true of the tables while a call runs that has references `fs` to files.

## Main results

* `FilesOk.alloc`, `FilesOk.dup`, `FilesOk.install`, `FilesOk.remove`, `FilesOk.drop`,
  `FilesOk.close`, `FilesOk.closePipe`, `FilesOk.newPipe` — the tables, operation by operation.
* `Inv.setTables` — what a change to the tables does to references to inodes.
* `Inv.wp_fileclose` — `fileclose`.
-/

namespace Xv6.Fs

open Function

/-- Whether an end of a pipe is open: the write end or the read end. -/
def Pipe.isOpen (x : Pipe) (writable : Bool) : Bool := if writable then x.writeopen else x.readopen

/-- The number of descriptors that point to a file. -/
@[irreducible] def fdRefs (T : Tables) (f : Fin nfile) : ℕ :=
  ∑ q, ∑ fd, if (T.proc q).ofile fd = some f then 1 else 0

/-- What is true of the tables while a call runs that has references `fs` to files. -/
structure FilesOk (T : Tables) (fs : Multiset (Fin nfile)) : Prop where
  ref : ∀ f, (T.file f).ref = (fdRefs T f + fs.count f : ℕ)
  closed : ∀ {f}, (T.file f).ref = 0 → (T.file f).type = .none
  live : ∀ {f}, (T.file f).type = .pipe →
    ∃ x, T.pipe (T.file f).pipe = some x ∧ x.isOpen (T.file f).writable
  uniq : ∀ {f g}, (T.file f).type = .pipe → (T.file g).type = .pipe →
    (T.file f).pipe = (T.file g).pipe → (T.file f).writable = (T.file g).writable → f = g
  used : ∀ {a x w}, T.pipe a = some x → x.isOpen w →
    ∃ f, (T.file f).type = .pipe ∧ (T.file f).pipe = a ∧ (T.file f).writable = w
  kept : ∀ {a x}, T.pipe a = some x → x.readopen || x.writeopen

section Tables

variable {T : Tables} {f : Fin nfile} {g : File → File} {p : Pid} {fd : Fin nofile}

@[simp] theorem setFile_self : (T.setFile f g).file f = g (T.file f) := update_self ..

theorem setFile_of_ne {f' : Fin nfile} (h : f' ≠ f) : (T.setFile f g).file f' = T.file f' :=
  update_of_ne h ..

@[simp] theorem setFile_proc : (T.setFile f g).proc = T.proc := rfl

@[simp] theorem setFile_pipe : (T.setFile f g).pipe = T.pipe := rfl

@[simp] theorem setOfile_file {v : Option (Fin nfile)} : (T.setOfile p fd v).file = T.file := rfl

@[simp] theorem setOfile_pipe {v : Option (Fin nfile)} : (T.setOfile p fd v).pipe = T.pipe := rfl

@[simp] theorem setOfile_cwd {v : Option (Fin nfile)} (q : Pid) :
    ((T.setOfile p fd v).proc q).cwd = (T.proc q).cwd := by
  by_cases hq : q = p
  · subst hq
    unfold Tables.setOfile Tables.setProc
    dsimp only
    rw [update_self]
  · unfold Tables.setOfile Tables.setProc
    dsimp only
    rw [update_of_ne hq]

@[simp] theorem setPipe_file {a : ℕ} {x : Option Pipe} : (T.setPipe a x).file = T.file := rfl

@[simp] theorem setPipe_proc {a : ℕ} {x : Option Pipe} : (T.setPipe a x).proc = T.proc := rfl

@[simp] theorem setPipe_pipe {a : ℕ} {x : Option Pipe} :
    (T.setPipe a x).pipe = update T.pipe a x := rfl

theorem fdRefs_congr {T' : Tables} (h : T'.proc = T.proc) (f' : Fin nfile) :
    fdRefs T' f' = fdRefs T f' := by
  unfold fdRefs
  rw [h]

theorem fdRefs_setOfile (T : Tables) (p : Pid) (fd : Fin nofile) (v : Option (Fin nfile))
    (f' : Fin nfile) :
    fdRefs (T.setOfile p fd v) f' + (if (T.proc p).ofile fd = some f' then 1 else 0)
      = fdRefs T f' + if v = some f' then 1 else 0 := by
  have houter := sum_update_add
    (fun x : Proc => ∑ k, if x.ofile k = some f' then 1 else 0) T.proc p
    { T.proc p with ofile := update (T.proc p).ofile fd v }
  have hinner := sum_update_add (fun o : Option (Fin nfile) => if o = some f' then 1 else 0)
    (T.proc p).ofile fd v
  have hproc : (T.setOfile p fd v).proc = update T.proc p
      { T.proc p with ofile := update (T.proc p).ofile fd v } := rfl
  unfold fdRefs
  rw [hproc]
  dsimp only at houter hinner ⊢
  omega

end Tables

namespace FilesOk

variable {T : Tables} {fs : Multiset (Fin nfile)} {f : Fin nfile}
  {g : File → File} {v : Option (Fin nfile)} {a : ℕ} {p : Pid} {fd : Fin nofile} {x : Option Pipe}

theorem ref_pos (h : FilesOk T fs) (hf : f ∈ fs) : 0 < (T.file f).ref := by
  have := Multiset.count_pos.mpr hf
  rw [h.ref]
  omega

/-- A change to one file that is not the end of a pipe, before or after. -/
theorem setFile {fs' : Multiset (Fin nfile)} (h : FilesOk T fs)
    (href : (g (T.file f)).ref = (fdRefs T f + fs'.count f : ℕ))
    (hcount : ∀ f', f' ≠ f → fs'.count f' = fs.count f')
    (hclosed : (g (T.file f)).ref = 0 → (g (T.file f)).type = .none)
    (hsame : (g (T.file f)).type = .pipe ∨ (T.file f).type = .pipe →
      (g (T.file f)).type = (T.file f).type ∧ (g (T.file f)).pipe = (T.file f).pipe ∧
        (g (T.file f)).writable = (T.file f).writable) : FilesOk (T.setFile f g) fs' := by
  -- as ends of pipes, files are what they were
  have hend : ∀ {f' : Fin nfile}, ((T.setFile f g).file f').type = .pipe ↔
      (T.file f').type = .pipe := by
    intro f'
    by_cases hf : f' = f
    · subst hf
      rw [setFile_self]
      exact ⟨fun hp => (hsame (.inl hp)).1 ▸ hp, fun hp => (hsame (.inr hp)).1.trans hp⟩
    · rw [setFile_of_ne hf]
  have hpipe : ∀ {f' : Fin nfile}, (T.file f').type = .pipe →
      ((T.setFile f g).file f').pipe = (T.file f').pipe ∧
        ((T.setFile f g).file f').writable = (T.file f').writable := by
    intro f' hp
    by_cases hf : f' = f
    · subst hf
      rw [setFile_self]
      exact (hsame (.inr hp)).2
    · rw [setFile_of_ne hf]
      exact ⟨rfl, rfl⟩
  refine ⟨fun f' => ?_, fun {f'} h0 => ?_, fun {f'} hp => ?_, fun {f₁ f₂} h₁ h₂ ha hw => ?_,
    fun {a x w} ha hx => ?_, h.kept⟩
  · by_cases hf : f' = f
    · subst hf
      rw [setFile_self, fdRefs_congr setFile_proc]
      exact href
    · rw [setFile_of_ne hf, hcount f' hf, fdRefs_congr setFile_proc]
      exact h.ref f'
  · by_cases hf : f' = f
    · subst hf
      rw [setFile_self] at h0 ⊢
      exact hclosed h0
    · rw [setFile_of_ne hf] at h0 ⊢
      exact h.closed h0
  · have hp := hend.mp hp
    rw [(hpipe hp).1, (hpipe hp).2]
    exact h.live hp
  · have h₁ := hend.mp h₁
    have h₂ := hend.mp h₂
    rw [(hpipe h₁).1, (hpipe h₂).1] at ha
    rw [(hpipe h₁).2, (hpipe h₂).2] at hw
    exact h.uniq h₁ h₂ ha hw
  · obtain ⟨f', hp, hfa, hfw⟩ := h.used ha hx
    exact ⟨f', hend.mpr hp, (hpipe hp).1.trans hfa, (hpipe hp).2.trans hfw⟩

theorem alloc (h : FilesOk T fs) (h0 : (T.file f).ref = 0) :
    FilesOk (T.setFile f fun x => { x with ref := 1 }) (f ::ₘ fs) := by
  have href := h.ref f
  refine h.setFile ?_ (fun f' hf => Multiset.count_cons_of_ne hf _) (fun h1 => (nomatch h1))
    fun _ => ⟨rfl, rfl, rfl⟩
  rw [Multiset.count_cons_self]
  show (1 : ℤ) = _
  omega

theorem dup (h : FilesOk T fs) (hpos : 0 < (T.file f).ref) :
    FilesOk (T.setFile f fun x => { x with ref := x.ref + 1 }) (f ::ₘ fs) := by
  have href := h.ref f
  refine h.setFile ?_ (fun f' hf => Multiset.count_cons_of_ne hf _) (fun h1 => ?_)
    fun _ => ⟨rfl, rfl, rfl⟩
  · rw [Multiset.count_cons_self]
    show (T.file f).ref + 1 = _
    omega
  · change (T.file f).ref + 1 = 0 at h1
    omega

theorem drop (h : FilesOk T (f ::ₘ fs)) (hmore : 0 < (T.file f).ref - 1) :
    FilesOk (T.setFile f fun x => { x with ref := x.ref - 1 }) fs := by
  have href := h.ref f
  rw [Multiset.count_cons_self] at href
  refine h.setFile ?_ (fun f' hf => (Multiset.count_cons_of_ne hf _).symm) (fun h1 => ?_)
    fun _ => ⟨rfl, rfl, rfl⟩
  · show (T.file f).ref - 1 = _
    omega
  · change (T.file f).ref - 1 = 0 at h1
    omega

theorem setOfile {fs' : Multiset (Fin nfile)} (h : FilesOk T fs)
    (hcount : ∀ f', (if v = some f' then 1 else 0) + fs'.count f'
      = (if (T.proc p).ofile fd = some f' then 1 else 0) + fs.count f') :
    FilesOk (T.setOfile p fd v) fs' := by
  refine ⟨fun f' => ?_, h.closed, h.live, h.uniq, h.used, h.kept⟩
  have hrefs := fdRefs_setOfile T p fd v f'
  have := hcount f'
  have href := h.ref f'
  show (T.file f').ref = _
  omega

theorem install (h : FilesOk T (f ::ₘ fs)) (hfree : (T.proc p).ofile fd = none) :
    FilesOk (T.setOfile p fd (some f)) fs := by
  refine h.setOfile fun f' => ?_
  rw [hfree, Multiset.count_cons]
  simp only [Option.some.injEq, reduceCtorEq, if_false, eq_comm]
  omega

theorem remove (h : FilesOk T fs) (hold : (T.proc p).ofile fd = some f) :
    FilesOk (T.setOfile p fd none) (f ::ₘ fs) := by
  refine h.setOfile fun f' => ?_
  rw [hold, Multiset.count_cons]
  simp only [Option.some.injEq, reduceCtorEq, if_false, eq_comm]
  omega

theorem ref_pos_of_ofile (h : FilesOk T fs) (hold : (T.proc p).ofile fd = some f) :
    0 < (T.file f).ref :=
  (h.remove hold).ref_pos (Multiset.mem_cons_self ..)

theorem close (h : FilesOk T (f ::ₘ fs)) (hlast : ¬ 0 < (T.file f).ref - 1)
    (hpipe : (T.file f).type ≠ .pipe) :
    FilesOk (T.setFile f File.close) fs := by
  have href := h.ref f
  rw [Multiset.count_cons_self] at href
  refine h.setFile ?_ (fun f' hf => (Multiset.count_cons_of_ne hf _).symm) (fun _ => rfl)
    fun hp => ?_
  · show (0 : ℤ) = _
    omega
  · obtain hp | hp := hp
    · cases hp
    · exact absurd hp hpipe

theorem openInode (h : FilesOk T fs) (hpos : 0 < (T.file f).ref) (htype : (T.file f).type = .none)
    (href : (g (T.file f)).ref = (T.file f).ref) (hpipe : (g (T.file f)).type ≠ .pipe) :
    FilesOk (T.setFile f g) fs := by
  refine h.setFile (href.trans (h.ref f)) (fun _ _ => rfl) (fun h0 => ?_) fun hp => ?_
  · rw [href] at h0
    omega
  · rw [htype] at hp
    obtain hp | hp := hp
    · exact absurd hp hpipe
    · cases hp

/-- The last reference to the end of a pipe is given up: the end is closed, and the page is
freed with the second end. -/
theorem closePipe {x y : Pipe} (h : FilesOk T (f ::ₘ fs)) (hlast : ¬ 0 < (T.file f).ref - 1)
    (hpipe : (T.file f).type = .pipe) (hx : T.pipe (T.file f).pipe = some x)
    (hy : ∀ w, y.isOpen w = (x.isOpen w && w != (T.file f).writable)) :
    FilesOk ((T.setFile f File.close).setPipe (T.file f).pipe
      (if y.readopen || y.writeopen then some y else none)) fs := by
  have href := h.ref f
  rw [Multiset.count_cons_self] at href
  have hfile : ∀ {f' : Fin nfile}, ((T.setFile f File.close).file f').type
      = .pipe → f' ≠ f ∧ (T.file f').type = .pipe := by
    intro f' hp
    by_cases hf : f' = f
    · subst hf
      rw [setFile_self] at hp
      cases hp
    · rw [setFile_of_ne hf] at hp
      exact ⟨hf, hp⟩
  have hopen : ∀ {w}, y.isOpen w → (y.readopen || y.writeopen) = true := by
    intro w hw
    cases w with
    | false => exact Bool.or_eq_true_iff.mpr (.inl hw)
    | true => exact Bool.or_eq_true_iff.mpr (.inr hw)
  refine ⟨fun f' => ?_, fun {f'} h0 => ?_, fun {f'} hp => ?_, fun {f₁ f₂} h₁ h₂ ha hw => ?_,
    fun {a z w} ha hz => ?_, fun {a z} ha => ?_⟩
  · rw [setPipe_file, fdRefs_congr setPipe_proc, fdRefs_congr setFile_proc]
    by_cases hf : f' = f
    · subst hf
      rw [setFile_self]
      show (0 : ℤ) = _
      omega
    · have := h.ref f'
      rw [Multiset.count_cons_of_ne hf] at this
      rw [setFile_of_ne hf]
      exact this
  · rw [setPipe_file] at h0 ⊢
    by_cases hf : f' = f
    · subst hf
      rw [setFile_self]
      rfl
    · rw [setFile_of_ne hf] at h0 ⊢
      exact h.closed h0
  · obtain ⟨hne, hp⟩ := hfile hp
    obtain ⟨z, hz, hzw⟩ := h.live hp
    rw [setPipe_file, setPipe_pipe, setFile_of_ne hne, setFile_pipe]
    by_cases ha : (T.file f').pipe = (T.file f).pipe
    · -- the other end of the same pipe
      rw [ha, hx] at hz
      cases hz
      have hw : (T.file f').writable ≠ (T.file f).writable := fun hw => hne (h.uniq hp hpipe ha hw)
      have hyw : y.isOpen (T.file f').writable := by
        rw [hy, hzw, Bool.true_and]
        exact bne_iff_ne.mpr hw
      refine ⟨y, ?_, hyw⟩
      rw [ha, update_self, if_pos (hopen hyw)]
    · exact ⟨z, by rw [update_of_ne ha, hz], hzw⟩
  · obtain ⟨hn₁, h₁⟩ := hfile h₁
    obtain ⟨hn₂, h₂⟩ := hfile h₂
    rw [setPipe_file, setFile_of_ne hn₁, setFile_of_ne hn₂] at ha hw
    exact h.uniq h₁ h₂ ha hw
  · rw [setPipe_pipe, setFile_pipe] at ha
    have hsome : ∃ f' : Fin nfile, f' ≠ f ∧ (T.file f').type = .pipe ∧ (T.file f').pipe = a ∧
        (T.file f').writable = w := by
      by_cases heq : a = (T.file f).pipe
      · subst heq
        rw [update_self] at ha
        split at ha
        · cases ha
          rw [hy, Bool.and_eq_true] at hz
          obtain ⟨f', hp, hfa, hfw⟩ := h.used hx hz.1
          refine ⟨f', ?_, hp, hfa, hfw⟩
          rintro rfl
          exact (bne_iff_ne.mp hz.2) hfw.symm
        · cases ha
      · rw [update_of_ne heq] at ha
        obtain ⟨f', hp, hfa, hfw⟩ := h.used ha hz
        exact ⟨f', fun hf => heq (by rw [← hfa, hf]), hp, hfa, hfw⟩
    obtain ⟨f', hne, hrest⟩ := hsome
    refine ⟨f', ?_⟩
    rw [setPipe_file, setFile_of_ne hne]
    exact hrest
  · rw [setPipe_pipe, setFile_pipe] at ha
    by_cases heq : a = (T.file f).pipe
    · subst heq
      rw [update_self] at ha
      split at ha
      · cases ha
        assumption
      · cases ha
    · rw [update_of_ne heq] at ha
      exact h.kept ha

/-- Two files that stood for nothing become the ends of a new pipe. -/
theorem newPipe {f₀ f₁ : Fin nfile} (h : FilesOk T fs) (g₀ g₁ : File → File) (hne : f₀ ≠ f₁)
    (h₀ : 0 < (T.file f₀).ref) (h₁ : 0 < (T.file f₁).ref) (ht₀ : (T.file f₀).type = .none)
    (ht₁ : (T.file f₁).type = .none) (ha : T.pipe a = none)
    (hg₀ : ∀ x, (g₀ x).ref = x.ref ∧ (g₀ x).type = .pipe ∧ (g₀ x).pipe = a ∧
      (g₀ x).writable = false)
    (hg₁ : ∀ x, (g₁ x).ref = x.ref ∧ (g₁ x).type = .pipe ∧ (g₁ x).pipe = a ∧
      (g₁ x).writable = true) :
    FilesOk (((T.setPipe a (some ⟨true, true⟩)).setFile f₀ g₀).setFile f₁ g₁) fs := by
  set T' := ((T.setPipe a (some ⟨true, true⟩)).setFile f₀ g₀).setFile f₁ g₁ with hT'
  have hf₀ : T'.file f₀ = g₀ (T.file f₀) := by
    rw [hT', setFile_of_ne hne, setFile_self, setPipe_file]
  have hf₁ : T'.file f₁ = g₁ (T.file f₁) := by
    rw [hT', setFile_self, setFile_of_ne hne.symm, setPipe_file]
  have hf : ∀ {f}, f ≠ f₀ → f ≠ f₁ → T'.file f = T.file f := by
    intro f hn₀ hn₁
    rw [hT', setFile_of_ne hn₁, setFile_of_ne hn₀, setPipe_file]
  have hpipe : T'.pipe = update T.pipe a (some ⟨true, true⟩) := rfl
  have hproc : T'.proc = T.proc := rfl
  -- no file stands for an end of the new pipe yet
  have hold : ∀ {f}, (T.file f).type = .pipe → (T.file f).pipe ≠ a := by
    intro f hp heq
    obtain ⟨x, hx, -⟩ := h.live hp
    rw [heq, ha] at hx
    cases hx
  have hcase : ∀ f, (f = f₀ ∧ T'.file f = g₀ (T.file f)) ∨ (f = f₁ ∧ T'.file f = g₁ (T.file f)) ∨
      (f ≠ f₀ ∧ f ≠ f₁ ∧ T'.file f = T.file f) := by
    intro f
    by_cases h₀ : f = f₀
    · exact .inl ⟨h₀, h₀ ▸ hf₀⟩
    · by_cases h₁ : f = f₁
      · exact .inr (.inl ⟨h₁, h₁ ▸ hf₁⟩)
      · exact .inr (.inr ⟨h₀, h₁, hf h₀ h₁⟩)
  refine ⟨fun f => ?_, fun {f} hz => ?_, fun {f} hp => ?_, fun {f f'} hp hp' hfa hfw => ?_,
    fun {b x w} hb hx => ?_, fun {b x} hb => ?_⟩
  · rw [fdRefs_congr hproc, ← h.ref f]
    obtain ⟨-, heq⟩ | ⟨-, heq⟩ | ⟨-, -, heq⟩ := hcase f
    · rw [heq, (hg₀ _).1]
    · rw [heq, (hg₁ _).1]
    · rw [heq]
  · obtain ⟨rfl, heq⟩ | ⟨rfl, heq⟩ | ⟨-, -, heq⟩ := hcase f
    · rw [heq, (hg₀ _).1] at hz
      omega
    · rw [heq, (hg₁ _).1] at hz
      omega
    · rw [heq] at hz ⊢
      exact h.closed hz
  · rw [hpipe]
    obtain ⟨rfl, heq⟩ | ⟨rfl, heq⟩ | ⟨-, -, heq⟩ := hcase f
    · rw [heq, (hg₀ _).2.2.1, (hg₀ _).2.2.2, update_self]
      exact ⟨_, rfl, rfl⟩
    · rw [heq, (hg₁ _).2.2.1, (hg₁ _).2.2.2, update_self]
      exact ⟨_, rfl, rfl⟩
    · rw [heq] at hp ⊢
      rw [update_of_ne (hold hp)]
      exact h.live hp
  · obtain ⟨rfl, heq⟩ | ⟨rfl, heq⟩ | ⟨-, -, heq⟩ := hcase f <;>
      obtain ⟨rfl, heq'⟩ | ⟨rfl, heq'⟩ | ⟨-, -, heq'⟩ := hcase f' <;>
        rw [heq] at hp hfa hfw <;> rw [heq'] at hp' hfa hfw
    · rw [(hg₀ _).2.2.2, (hg₁ _).2.2.2] at hfw
      cases hfw
    · rw [(hg₀ _).2.2.1] at hfa
      exact absurd hfa.symm (hold hp')
    · rw [(hg₀ _).2.2.2, (hg₁ _).2.2.2] at hfw
      cases hfw
    · rw [(hg₁ _).2.2.1] at hfa
      exact absurd hfa.symm (hold hp')
    · rw [(hg₀ _).2.2.1] at hfa
      exact absurd hfa (hold hp)
    · rw [(hg₁ _).2.2.1] at hfa
      exact absurd hfa (hold hp)
    · exact h.uniq hp hp' hfa hfw
  · rw [hpipe] at hb
    by_cases hba : b = a
    · subst hba
      cases w with
      | false =>
        refine ⟨f₀, ?_⟩
        rw [hf₀]
        exact (hg₀ _).2
      | true =>
        refine ⟨f₁, ?_⟩
        rw [hf₁]
        exact (hg₁ _).2
    · rw [update_of_ne hba] at hb
      obtain ⟨f, hp, hfb, hfw⟩ := h.used hb hx
      refine ⟨f, ?_⟩
      rw [hf, hp]
      · exact ⟨rfl, hfb, hfw⟩
      · rintro rfl
        rw [ht₀] at hp
        cases hp
      · rintro rfl
        rw [ht₁] at hp
        cases hp
  · rw [hpipe] at hb
    by_cases hba : b = a
    · subst hba
      rw [update_self] at hb
      cases hb
      rfl
    · rw [update_of_ne hba] at hb
      exact h.kept hb

end FilesOk

variable {T : Tables} {v : Option (Fin nfile)} {a : ℕ} {x : Option Pipe} {g : File → File}
  {Q : Unit → Abs → Prop}

/-! ### References to inodes -/

variable {H : Prop} {sb : Super} {p : Pid} {c : Option (Fin ninode)}
  {own : Multiset (Fin ninode × ℕ)} {lk : Multiset (Fin ninode)} {fresh : Set ℕ} {s : Abs}
  {fs : Multiset (Fin nfile)} {f : Fin nfile}

theorem others_congr {T' : Tables} (hcwd : ∀ q, q ≠ p → (T'.proc q).cwd = (T.proc q).cwd)
    (hfile : ∀ f, (T'.file f).inode = (T.file f).inode) (e : Fin ninode) :
    others T' p e = others T p e := by
  have hq : ∀ q, (q ≠ p ∧ (T'.proc q).cwd = some e) ↔ (q ≠ p ∧ (T.proc q).cwd = some e) :=
    fun q => and_congr_right fun hq => by rw [hcwd q hq]
  unfold others
  simp only [hq, hfile]

theorem others_setFile (e : Fin ninode) :
    others (T.setFile f g) p e + (if (T.file f).inode = some e then 1 else 0)
      = others T p e + if (g (T.file f)).inode = some e then 1 else 0 := by
  have hsum := sum_update_add (fun x : File => if x.inode = some e then 1 else 0) T.file f
    (g (T.file f))
  have hfile : (T.setFile f g).file = update T.file f (g (T.file f)) := rfl
  unfold others
  rw [hfile, setFile_proc, Nat.add_assoc, hsum, Nat.add_assoc]

theorem others_setCwd {q : Pid} (hq : q ≠ p) {v : Option (Fin ninode)} (e : Fin ninode) :
    others (T.setProc q fun x => { x with cwd := v }) p e
        + (if (T.proc q).cwd = some e then 1 else 0)
      = others T p e + if v = some e then 1 else 0 := by
  have hsum := Finset.add_sum_erase Finset.univ
    (fun r => if r ≠ p ∧ (T.proc r).cwd = some e then 1 else 0) (Finset.mem_univ q)
  have hproc : (T.setProc q fun x => { x with cwd := v }).proc
      = update T.proc q { T.proc q with cwd := v } := rfl
  have hsum' := Finset.add_sum_erase Finset.univ
    (fun r => if r ≠ p ∧ (update T.proc q { T.proc q with cwd := v } r).cwd = some e
      then 1 else 0) (Finset.mem_univ q)
  have hrest : ∑ r ∈ Finset.univ.erase q,
        (if r ≠ p ∧ (update T.proc q { T.proc q with cwd := v } r).cwd = some e
          then 1 else 0)
      = ∑ r ∈ Finset.univ.erase q, if r ≠ p ∧ (T.proc r).cwd = some e then 1 else 0 := by
    refine Finset.sum_congr rfl fun r hr => ?_
    simp only [update_of_ne (Finset.ne_of_mem_erase hr)]
  simp only [update_self, hq, ne_eq, not_false_eq_true, true_and] at hsum hsum' hrest
  have hfiles : (T.setProc q fun x => { x with cwd := v }).file = T.file := rfl
  unfold others
  rw [hfiles, hproc]
  simp only [ne_eq]
  rw [← hsum, ← hsum', hrest]
  generalize (∑ r ∈ Finset.univ.erase q, if ¬r = p ∧ (T.proc r).cwd = some e then 1 else 0) = a
  generalize (∑ f, if (T.file f).inode = some e then 1 else 0) = b
  omega

/-- The tables change, and with them what the call refers to. -/
theorem Inv.setTables {own' : Multiset (Fin ninode × ℕ)} {c' : Option (Fin ninode)}
    {fresh' : Set ℕ} (h : Inv H sb p c own lk fresh s)
    (hcount : ∀ e, (own'.map Prod.fst).count e + others T p e
      = (own.map Prod.fst).count e + others s.tables p e)
    (hnum : ∀ {e i}, (e, i) ∈ own' → (s.entry e).inum = i)
    (hlk : ∀ {e}, e ∈ lk → Referred T p own' e) (hcwd : ∀ {e}, c' = some e → ∃ i, (e, i) ∈ own')
    (hclosed : ∀ f, (T.file f).ref = 0 → (T.file f).type = .none)
    (hfile : ∀ {f e}, (T.file f).inode = some e → (s.entry e).valid)
    (hdir : ∀ {f nd}, (T.file f).type = .inode → (T.file f).writable →
      s.node (s.entry (T.file f).ip).inum = some nd → nd.type ≠ tDir)
    (hheld : ∀ e, (s.entry e).inum ∉ fresh' → Anchored s.tables p c e → Anchored T p c' e)
    (hfresh : fresh ⊆ fresh') : Inv H sb p c' own' lk fresh' { s with tables := T } := by
  refine ⟨h.uniq, h.lt, h.valid, h.clean, fun e => ?_, hnum, h.owner, h.nodup, fun hl => ?_, hcwd,
    hclosed, hfile, hdir, h.node, fun hH i nd hi h0 hnot => ?_⟩
  · have := h.ref e
    have := hcount e
    show (s.entry e).ref = ((own'.map Prod.fst).count e + others T p e : ℕ)
    omega
  · exact ⟨(h.locked hl).1, hlk hl⟩
  · obtain ⟨e, ha, rfl, hv⟩ := h.held hH hi h0 fun hm => hnot (hfresh hm)
    exact ⟨e, hheld e hnot ha, rfl, hv⟩

theorem Inv.withTables (h : Inv H sb p c own lk fresh s)
    (hcwd : ∀ q, (T.proc q).cwd = (s.tables.proc q).cwd)
    (hclosed : ∀ f, (T.file f).ref = 0 → (T.file f).type = .none)
    (hfile : ∀ f, (T.file f).inode = (s.tables.file f).inode)
    (hinode : ∀ f, (T.file f).type = .inode → (s.tables.file f).type = .inode ∧
      (T.file f).ip = (s.tables.file f).ip ∧ (T.file f).writable = (s.tables.file f).writable) :
    Inv H sb p c own lk fresh { s with tables := T } := by
  have hothers := others_congr (p := p) (fun q _ => hcwd q) hfile
  refine h.setTables (fun e => by rw [hothers]) h.num (fun {e} hl => ?_) h.cwd hclosed
    (fun {f e} hf => h.file (hfile f ▸ hf)) (fun {f nd} ht hw hnd => ?_) (fun e _ ha => ?_)
    (Set.Subset.refl _)
  · rw [Referred, hothers]
    exact (h.locked hl).2
  · obtain ⟨ht', hip, hwr⟩ := hinode f ht
    rw [hip] at hnd
    exact h.fileDir ht' (hwr ▸ hw) hnd
  · unfold Anchored at ha ⊢
    rw [hothers]
    exact ha

/-- A node that turned out to be referred to from outside the call, or freed, is fresh no
longer. -/
theorem Inv.settle {i : ℕ} (h : Inv H sb p c own lk (insert i fresh) s)
    (hi : H → ∀ nd, s.node i = some nd → nd.nlink = 0 → i ∉ fresh →
      ∃ e, Anchored s.tables p c e ∧ (s.entry e).inum = i ∧ (s.entry e).valid) :
    Inv H sb p c own lk fresh s := by
  refine ⟨h.uniq, h.lt, h.valid, h.clean, h.ref, h.num, h.owner, h.nodup, h.locked, h.cwd, h.closed,
    h.file, h.fileDir, h.node, fun hH j nd hj h0 hnot => ?_⟩
  by_cases hji : j = i
  · subst hji
    exact hi hH nd hj h0 hnot
  · exact h.held hH hj h0 fun hm => (Set.mem_insert_iff.mp hm).elim hji hnot

/-! ### The functions of `file.c` -/

theorem Inv.setFile (h : Inv H sb p c own lk fresh s)
    (hclosed : (g (s.tables.file f)).ref = 0 → (g (s.tables.file f)).type = .none)
    (hfile : (g (s.tables.file f)).inode = (s.tables.file f).inode)
    (hinode : (g (s.tables.file f)).type = .inode → (s.tables.file f).type = .inode ∧
      (g (s.tables.file f)).ip = (s.tables.file f).ip ∧
      (g (s.tables.file f)).writable = (s.tables.file f).writable) :
    Inv H sb p c own lk fresh { s with tables := s.tables.setFile f g } := by
  refine h.withTables (fun _ => rfl) (fun f' h0 => ?_) (fun f' => ?_) fun f' ht => ?_
  · by_cases hf : f' = f
    · subst hf
      rw [setFile_self] at h0 ⊢
      exact hclosed h0
    · rw [setFile_of_ne hf] at h0 ⊢
      exact h.closed f' h0
  · by_cases hf : f' = f
    · subst hf
      rw [setFile_self]
      exact hfile
    · rw [setFile_of_ne hf]
  · by_cases hf : f' = f
    · subst hf
      rw [setFile_self] at ht ⊢
      exact hinode ht
    · rw [setFile_of_ne hf] at ht ⊢
      exact ⟨ht, rfl, rfl⟩

theorem Inv.setOfile (h : Inv H sb p c own lk fresh s) (q : Pid) (fd : Fin nofile)
    (v : Option (Fin nfile)) :
    Inv H sb p c own lk fresh { s with tables := s.tables.setOfile q fd v } :=
  h.withTables (fun r => setOfile_cwd r) h.closed (fun _ => rfl) fun _ ht => ⟨ht, rfl, rfl⟩

theorem Inv.wp_filealloc (h : Inv H sb p c own lk fresh s) (hF : FilesOk s.tables fs)
    {Q : Option (Fin nfile) → Abs → Prop} (hnone : (∀ f, (s.tables.file f).ref ≠ 0) → Q none s)
    (hsome : ∀ f s', (s.tables.file f).ref = 0 → (s'.tables.file f).type = .none →
      Inv H sb p c own lk fresh s' → FilesOk s'.tables (f ::ₘ fs) → s'.node = s.node →
      s'.entry = s.entry → s'.tables = s.tables.setFile f (fun x => { x with ref := 1 }) →
      Q (some f) s') :
    filealloc.wp (onAbs sb p) Mild s Q := by
  refine wp_onTables (fun o T heq => ?_) fun x heq => ?_
  · split at heq
    · next f hf =>
      have h0 : (s.tables.file f).ref = 0 := beq_iff_eq.mp
        (List.find?_some (p := fun f => (s.tables.file f).ref == 0) hf)
      have htype := hF.closed h0
      obtain ⟨rfl, rfl⟩ := Prod.mk.inj (Outcome.ok.inj heq)
      refine hsome f _ h0 ?_ (h.setFile (fun h1 => (nomatch h1)) rfl fun ht => ⟨ht, rfl, rfl⟩)
        (hF.alloc h0) rfl rfl rfl
      dsimp only
      rw [setFile_self]
      exact htype
    · next hnot =>
      obtain ⟨rfl, rfl⟩ := Prod.mk.inj (Outcome.ok.inj heq)
      refine hnone fun f h0 => ?_
      exact List.find?_eq_none.mp hnot f (List.mem_finRange f) (beq_iff_eq.mpr h0)
  · split at heq <;> cases heq

theorem Inv.wp_filedup (h : Inv H sb p c own lk fresh s) (hF : FilesOk s.tables fs)
    (hQ : ∀ s', Inv H sb p c own lk fresh s' → FilesOk s'.tables (f ::ₘ fs) → s'.node = s.node →
      s'.entry = s.entry → s'.tables.proc = s.tables.proc → Q () s') :
    (filedup f).wp (onAbs sb p) Mild s Q := by
  refine wp_onTables (fun o T heq => ?_) fun x heq => ?_
  · split at heq
    · cases heq
    rename_i hpos
    obtain ⟨rfl, rfl⟩ := Prod.mk.inj (Outcome.ok.inj heq)
    refine hQ _ (h.setFile (fun h0 => ?_) rfl fun ht => ⟨ht, rfl, rfl⟩) (hF.dup (by omega)) rfl rfl
      rfl
    change (s.tables.file f).ref + 1 = 0 at h0
    omega
  · split at heq
    · cases heq
      exact .of_mild rfl
    · cases heq

theorem Inv.wp_fdalloc (h : Inv H sb p c own lk fresh s) (hF : FilesOk s.tables (f ::ₘ fs))
    {Q : Option (Fin nofile) → Abs → Prop}
    (hnone : (∀ fd, ((s.tables.proc p).ofile fd).isSome) → Q none s)
    (hsome : ∀ fd s', Inv H sb p c own lk fresh s' → FilesOk s'.tables fs → s'.node = s.node →
      s'.entry = s.entry → s'.tables = s.tables.setOfile p fd (some f) →
      (s.tables.proc p).ofile fd = none → Q (some fd) s') :
    (fdalloc p f).wp (onAbs sb p) Mild s Q := by
  refine wp_onTables (fun o T heq => ?_) fun x heq => ?_
  · split at heq
    · next fd hfd =>
      have hfree : (s.tables.proc p).ofile fd = none := Option.isNone_iff_eq_none.mp
        (List.find?_some (p := fun fd => ((s.tables.proc p).ofile fd).isNone) hfd)
      obtain ⟨rfl, rfl⟩ := Prod.mk.inj (Outcome.ok.inj heq)
      exact hsome fd _ (h.setOfile p fd _) (hF.install hfree) rfl rfl rfl hfree
    · next hnot =>
      obtain ⟨rfl, rfl⟩ := Prod.mk.inj (Outcome.ok.inj heq)
      refine hnone fun fd => ?_
      have := List.find?_eq_none.mp hnot fd (List.mem_finRange fd)
      rwa [Bool.not_eq_true, Option.isNone_eq_false_iff] at this
  · split at heq <;> cases heq

theorem wp_argfd {fd : ℤ} {Q : Option (Fin nofile × Fin nfile) → Abs → Prop} (hnone : Q none s)
    (hsome : ∀ k f, (s.tables.proc p).ofile k = some f → Q (some (k, f)) s) :
    (argfd p fd).wp (onAbs sb p) Mild s Q := by
  refine wp_onTables (fun o T heq => ?_) fun x heq => ?_
  · split at heq
    · split at heq
      · obtain ⟨rfl, rfl⟩ := Prod.mk.inj (Outcome.ok.inj heq)
        exact hnone
      · next hlt _ =>
        obtain ⟨rfl, rfl⟩ := Prod.mk.inj (Outcome.ok.inj heq)
        cases hf : (s.tables.proc p).ofile ⟨fd.toNat, hlt⟩ with
        | none => exact hnone
        | some f => exact hsome _ f hf
    · obtain ⟨rfl, rfl⟩ := Prod.mk.inj (Outcome.ok.inj heq)
      exact hnone
  · split at heq
    · split at heq <;> cases heq
    · cases heq

/-- When a file that refers to an inode is closed, its reference becomes the call's. -/
theorem Inv.closeInode {e : Fin ninode} (h : Inv H sb p c own lk fresh s)
    (hin : (s.tables.file f).inode = some e) :
    Inv H sb p c ((e, (s.entry e).inum) ::ₘ own) lk (insert (s.entry e).inum fresh)
      { s with tables := s.tables.setFile f File.close } := by
  -- the file gives its reference to the caller
  have hothers : ∀ a, others (s.tables.setFile f File.close) p a
      + (if (s.tables.file f).inode = some a then 1 else 0) = others s.tables p a := by
    intro a
    have hnone : ¬ (File.close (s.tables.file f)).inode = some a := nofun
    rw [others_setFile, if_neg hnone]
    rfl
  refine h.setTables (fun a => ?_) (fun {a i} hm => ?_) (fun {a} hl => ?_) (fun hc => ?_)
    (fun f' h0 => ?_) (fun {f' a} hf' => ?_) (fun {f' nd} ht hw hnd => ?_) (fun a hnot ha => ?_)
    (Set.subset_insert _ _)
  · have := hothers a
    rw [hin] at this
    rw [Multiset.map_cons, Multiset.count_cons]
    simp only [Option.some.injEq, eq_comm] at this ⊢
    omega
  · obtain hm | hm := Multiset.mem_cons.mp hm
    · cases hm
      rfl
    · exact h.num hm
  · obtain ⟨i, hm⟩ | ho := (h.locked hl).2
    · exact .inl ⟨i, Multiset.mem_cons_of_mem hm⟩
    by_cases hae : a = e
    · subst hae
      exact .inl ⟨_, Multiset.mem_cons_self ..⟩
    · right
      have := hothers a
      rw [hin, if_neg fun heq => hae (Option.some.inj heq).symm] at this
      omega
  · obtain ⟨i, hm⟩ := h.cwd hc
    exact ⟨i, Multiset.mem_cons_of_mem hm⟩
  · by_cases hf : f' = f
    · subst hf
      rw [setFile_self]
      rfl
    · rw [setFile_of_ne hf] at h0 ⊢
      exact h.closed f' h0
  · by_cases hf : f' = f
    · subst hf
      rw [setFile_self] at hf'
      cases hf'
    · rw [setFile_of_ne hf] at hf'
      exact h.file hf'
  · by_cases hf : f' = f
    · subst hf
      rw [setFile_self] at ht
      cases ht
    · rw [setFile_of_ne hf] at ht hw hnd
      exact h.fileDir ht hw hnd
  · have hne : ¬ (s.tables.file f).inode = some a := by
      rw [hin]
      intro heq
      cases heq
      exact hnot (Set.mem_insert ..)
    have := hothers a
    rw [if_neg hne, Nat.add_zero] at this
    unfold Anchored at ha ⊢
    rw [this]
    exact ha

/-- A file that referred to no inode takes over a reference of the call. -/
theorem Inv.giveFile {e : Fin ninode} {j : ℕ} (h : Inv H sb p c ((e, j) ::ₘ own) lk fresh s)
    (hnone : (s.tables.file f).inode = none) (hin : (g (s.tables.file f)).inode = some e)
    (href : (g (s.tables.file f)).ref ≠ 0) (hv : (s.entry e).valid)
    (hdir : (g (s.tables.file f)).writable → ∀ nd, s.node j = some nd → nd.type ≠ tDir)
    (hcwd : ∀ {e}, c = some e → ∃ i, (e, i) ∈ own) :
    Inv H sb p c own lk fresh { s with tables := s.tables.setFile f g } := by
  -- the caller gives its reference to the file
  have hothers := fun a => others_setFile (T := s.tables) (f := f) (g := g) (p := p) a
  rw [hin, hnone] at hothers
  have hnum := h.num (Multiset.mem_cons_self ..)
  refine h.setTables (fun a => ?_) (fun hm => h.num (Multiset.mem_cons_of_mem hm))
    (fun {a} hl => ?_)
    hcwd (fun f' h0 => ?_) (fun {f' a} hf' => ?_) (fun {f' nd} ht hw hnd => ?_) (fun a _ ha => ?_)
    (Set.Subset.refl _)
  · have := hothers a
    rw [Multiset.map_cons, Multiset.count_cons]
    simp only [Option.some.injEq, reduceCtorEq, if_false, eq_comm] at this ⊢
    omega
  · have hsum := hothers a
    obtain ⟨i, hm⟩ | ho := (h.locked hl).2
    · obtain heq | hm := Multiset.mem_cons.mp hm
      · right
        rw [(Prod.mk.inj heq).1] at hsum ⊢
        simp only [reduceCtorEq, if_false, if_true] at hsum
        omega
      · exact .inl ⟨i, hm⟩
    · right
      simp only [reduceCtorEq, if_false] at hsum
      omega
  · by_cases hf : f' = f
    · subst hf
      rw [setFile_self] at h0
      exact absurd h0 href
    · rw [setFile_of_ne hf] at h0 ⊢
      exact h.closed f' h0
  · by_cases hf : f' = f
    · subst hf
      rw [setFile_self, hin] at hf'
      cases hf'
      exact hv
    · rw [setFile_of_ne hf] at hf'
      exact h.file hf'
  · by_cases hf : f' = f
    · subst hf
      rw [setFile_self] at ht hw hnd
      have hip := File.inode_of_type ht
      rw [hin] at hip
      cases hip
      rw [hnum] at hnd
      exact hdir hw nd hnd
    · rw [setFile_of_ne hf] at ht hw hnd
      exact h.fileDir ht hw hnd
  · refine ha.imp_left fun ho => ?_
    have := hothers a
    simp only [reduceCtorEq, if_false] at this
    omega

/-- `pipeclose`, after the file that stood for the end has been closed. -/
theorem Inv.wp_pipeclose {x : Pipe} (hF : FilesOk T (f ::ₘ fs)) (hlast : ¬ 0 < (T.file f).ref - 1)
    (hpipe : (T.file f).type = .pipe) (hx : T.pipe (T.file f).pipe = some x)
    (hT : s.tables = T.setFile f File.close) (h : Inv H sb p c own lk fresh s)
    (hQ : ∀ s', Inv H sb p c own lk fresh s' → FilesOk s'.tables fs → s'.node = s.node →
      s'.entry = s.entry → s'.tables.proc = s.tables.proc → Q () s') :
    (pipeclose (T.file f).pipe (T.file f).writable).wp (onAbs sb p) Mild s Q := by
  have hx' : s.tables.pipe (T.file f).pipe = some x := by rw [hT, setFile_pipe, hx]
  refine wp_onTables (fun o T' heq => ?_) fun y heq => ?_
  · rw [hx'] at heq
    obtain ⟨rfl, rfl⟩ := Prod.mk.inj (Outcome.ok.inj heq)
    refine hQ _ (h.withTables (fun _ => rfl) h.closed (fun _ => rfl) fun _ ht => ⟨ht, rfl, rfl⟩)
      ?_ rfl rfl rfl
    rw [hT]
    refine hF.closePipe hlast hpipe hx fun w => ?_
    cases w <;> cases (T.file f).writable <;> simp [Pipe.isOpen]
  · rw [hx'] at heq
    cases heq

/-- **`fileclose` gives a reference to a file back.**  With the last one it gives back what the
file referred to. -/
theorem Inv.wp_fileclose (h : Inv H sb p c own lk fresh s) (hF : FilesOk s.tables (f ::ₘ fs))
    (hown : (s.tables.file f).inode ≠ none → ∀ {e i}, (e, i) ∈ own → c = some e)
    (hlk : (s.tables.file f).inode ≠ none → lk = 0)
    (hQ : ∀ s', Inv H sb p c own lk fresh s' → FilesOk s'.tables fs →
      s'.tables.proc = s.tables.proc → Freed s.node s'.node →
      ((s.tables.file f).inode = none → s'.node = s.node ∧ s'.entry = s.entry) → Q () s') :
    (fileclose f).wp (onAbs sb p) Mild s Q := by
  rw [fileclose, Prog.wp_bind]
  refine wp_onTables (fun o T heq => ?_) fun x heq => ?_
  · unfold filecloseTables at heq
    split at heq
    · cases heq
    split at heq
    · next hmore =>
      obtain ⟨rfl, rfl⟩ := Prod.mk.inj (Outcome.ok.inj heq)
      refine hQ _ (h.setFile (fun h0 => ?_) rfl fun ht => ⟨ht, rfl, rfl⟩) (hF.drop hmore) rfl
        (.refl _) fun _ => ⟨rfl, rfl⟩
      change (s.tables.file f).ref - 1 = 0 at h0
      omega
    rename_i hlast
    obtain ⟨rfl, rfl⟩ := Prod.mk.inj (Outcome.ok.inj heq)
    dsimp only
    -- a file that refers to no inode
    have hplain : (s.tables.file f).inode = none →
        Inv H sb p c own lk fresh { s with tables := s.tables.setFile f File.close } :=
      fun hin => h.setFile (fun _ => rfl) hin.symm fun ht => by cases ht
    have hiput : ∀ e, (s.tables.file f).inode = some e → (s.tables.file f).ip = e →
        (s.tables.file f).type ≠ .pipe →
        (Prog.call (.iput (s.tables.file f).ip)).wp (onAbs sb p) Mild
          { s with tables := s.tables.setFile f File.close } Q := by
      intro e hin hip hnp
      rw [hip]
      have hvalid := h.file hin
      refine (h.closeInode hin).wp_iput (fun hl => ?_) h.cwd
        fun s₂ h₂ hst hfree _ _ hdead => ?_
      · rw [hlk (by rw [hin]; exact Option.some_ne_none _)] at hl
        exact absurd hl (Multiset.notMem_zero _)
      have hinv : Inv H sb p c own lk fresh s₂ := by
        refine h₂.settle fun _ nd hnd h0 _ => ?_
        obtain ⟨hpos, hnum, hv⟩ := hdead nd hnd h0 hvalid
        refine ⟨e, ?_, hnum, hv⟩
        rw [h₂.ref] at hpos
        by_cases hm : 0 < (own.map Prod.fst).count e
        · obtain ⟨⟨a, i⟩, hmem, rfl⟩ := Multiset.mem_map.mp (Multiset.count_pos.mp hm)
          exact .inr (hown (by rw [hin]; exact Option.some_ne_none _) hmem)
        · exact .inl (by omega)
      refine hQ s₂ hinv ?_ ?_ hfree fun hno => by cases hin.symm.trans hno
      · rw [hst.tables]
        exact hF.close hlast hnp
      · rw [hst.tables]
        rfl
    cases ht : (s.tables.file f).type with
    | none =>
      have hin : (s.tables.file f).inode = none := by rw [File.inode, ht]
      exact hQ _ (hplain hin) (hF.close hlast (by rw [ht]; rintro ⟨⟩)) rfl (.refl _)
        fun _ => ⟨rfl, rfl⟩
    | pipe =>
      have hin : (s.tables.file f).inode = none := by rw [File.inode, ht]
      obtain ⟨x, hx, -⟩ := hF.live ht
      refine Inv.wp_pipeclose hF hlast ht hx rfl (hplain hin) fun s' hinv hF' hn he hp => ?_
      exact hQ s' hinv hF' hp (hn ▸ .refl _) fun _ => ⟨hn, he⟩
    | inode =>
      have hin : (s.tables.file f).inode = some (s.tables.file f).ip := by rw [File.inode, ht]
      simp only [Prog.wp_bind]
      refine wp_beginOp ?_
      exact (hiput _ hin rfl (by rw [ht]; rintro ⟨⟩)).mono fun _ s' hq => wp_endOp hq
    | device =>
      have hin : (s.tables.file f).inode = some (s.tables.file f).ip := by rw [File.inode, ht]
      simp only [Prog.wp_bind]
      refine wp_beginOp ?_
      exact (hiput _ hin rfl (by rw [ht]; rintro ⟨⟩)).mono fun _ s' hq => wp_endOp hq
  · unfold filecloseTables at heq
    split at heq
    · cases heq
      exact .of_mild rfl
    · split at heq <;> cases heq

end Xv6.Fs
