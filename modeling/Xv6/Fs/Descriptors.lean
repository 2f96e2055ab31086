import Xv6.Fs.Calls

/-!
# The other system calls

`dup`, `read`, `write`, `close`, `fstat`, `pipe`, `exec`, and what `fork` and `exit` do with the
files of a process.

## Main results

* `Rest.wp_syscall` — every system call that starts at rest ends at rest.
-/

namespace Xv6.Fs

open Function

variable {H : Prop} {sb : Super} {p q : Pid} {c : Option (Fin ninode)} {Q : Unit → Abs → Prop}
  {own : Multiset (Fin ninode × ℕ)} {lk : Multiset (Fin ninode)} {fresh : Set ℕ} {s s' : Abs}
  {e : Fin ninode} {i : ℕ} {nd : Node} {f : Fin nfile} {fd : Fin nofile} {fs : Multiset (Fin nfile)}

theorem Ends.of_node (h : Rest H sb s') (hn : s'.node = s.node) : Ends H sb s s' :=
  ⟨fun _ => h, hn ▸ .freed (.refl _)⟩

theorem Rest.ends (h : Rest H sb s) : Ends H sb s s := .of_node h rfl

theorem Rest.of_files (hinv : Inv H sb p (s.tables.proc p).cwd (cwdOwn s p) 0 ∅ s')
    (hF : FilesOk s'.tables 0) (hcwd : (s'.tables.proc p).cwd = (s.tables.proc p).cwd) :
    Rest H sb s' := hinv.rest hF hcwd (count_cwdOwn s p)

/-! ### `dup`, `close`, `fstat`, `read` -/

theorem Rest.wp_sysDup (h : Rest H sb s) (fd : ℤ) :
    (sysDup p fd).wp (onAbs sb p) Mild s fun _ s' => Ends H sb s s' := by
  rw [sysDup, Prog.wp_bind]
  refine wp_argfd h.ends fun k f hf => ?_
  have hpos := h.files.ref_pos_of_ofile hf
  dsimp only
  rw [Prog.wp_bind]
  -- the descriptor is there before the reference is counted
  refine wp_onTables (fun o T heq => ?_) fun x heq => ?_
  · split at heq
    · next k' hk =>
      have hfree : (s.tables.proc p).ofile k' = none := Option.isNone_iff_eq_none.mp
        (List.find?_some (p := fun k => ((s.tables.proc p).ofile k).isNone) hk)
      obtain ⟨rfl, rfl⟩ := Prod.mk.inj (Outcome.ok.inj heq)
      dsimp only
      rw [Prog.wp_bind]
      refine wp_onTables (fun o T heq => ?_) fun x heq => ?_
      · split at heq
        · cases heq
        obtain ⟨rfl, rfl⟩ := Prod.mk.inj (Outcome.ok.inj heq)
        have hinv := ((h.inv p).setFile (f := f) (g := fun x => { x with ref := x.ref + 1 })
          (fun h0 => ?_) rfl fun ht => ⟨ht, rfl, rfl⟩).setOfile p k' (some f)
        · refine .of_node (Rest.of_files hinv ?_ ?_) rfl
          · exact (h.files.dup hpos).install hfree
          · exact setOfile_cwd (T := s.tables.setFile f fun x => { x with ref := x.ref + 1 }) p
        · change (s.tables.file f).ref + 1 = 0 at h0
          omega
      · split at heq
        · cases heq
          exact .of_mild rfl
        · cases heq
    · obtain ⟨rfl, rfl⟩ := Prod.mk.inj (Outcome.ok.inj heq)
      exact h.ends
  · split at heq <;> cases heq

theorem Rest.wp_sysClose (h : Rest H sb s) (fd : ℤ) :
    (sysClose p fd).wp (onAbs sb p) Mild s fun _ s' => Ends H sb s s' := by
  rw [sysClose, Prog.wp_bind]
  refine wp_argfd h.ends fun k f hf => ?_
  simp only [Prog.wp_bind]
  refine wp_assign ?_
  refine ((h.inv p).setOfile p k none).wp_fileclose (h.files.remove hf)
    (fun _ => cwd_of_mem_cwdOwn) (fun _ => rfl) fun s' hinv hF hproc hfree _ => ?_
  refine ⟨fun _ => Rest.of_files hinv hF ?_, .freed hfree⟩
  rw [hproc]
  exact setOfile_cwd p

/-- The inode an open file refers to can be locked. -/
theorem Inv.wp_ilock_file (h : Inv H sb p c own lk fresh s)
    (hf : (s.tables.file f).inode = some e)
    (hQ : ∀ s' nd, Inv H sb p c own (e ::ₘ lk) fresh s' → Steady p c s s' → s'.node = s.node →
      s'.node (s'.entry e).inum = some nd → Q () s') :
    (Prog.call (.ilock e)).wp (onAbs sb p) Mild s Q := by
  have ha : Anchored s.tables p c e := anchored_of_file hf
  have hsome := h.valid (h.ref_pos_of_anchored ha) (h.file hf)
  have hothers : 0 < others s.tables p e := by
    obtain ho | hc := anchored_of_file (p := p) (c := none) hf
    · exact ho
    · cases hc
  refine h.wp_ilock (.inr hothers) rfl fun s' nd _ hinv hst hnode hnd => ?_
  refine hQ s' nd hinv hst hnode ?_
  rw [hnode, (hst.entry ha).1, hnd]

theorem Rest.wp_sysFstat (h : Rest H sb s) (fd : ℤ) (copied : Bool) :
    (sysFstat p fd copied).wp (onAbs sb p) Mild s fun _ s' => Ends H sb s s' := by
  rw [sysFstat, Prog.wp_bind]
  refine wp_argfd h.ends fun k f _ => ?_
  dsimp only
  rw [Prog.wp_bind, filestat, Prog.wp_bind]
  refine wp_look ?_
  have hstat : (s.tables.file f).inode = some (s.tables.file f).ip →
      (do
        Prog.call (.ilock (s.tables.file f).ip)
        let a ← Prog.call (.attr (s.tables.file f).ip)
        Prog.call (.iunlock (s.tables.file f).ip)
        return if copied then (0, some a) else (-1, none) : FsProg (ℤ × Option Attr)).wp
          (onAbs sb p)
        Mild s fun _ s' => Ends H sb s s' := by
    intro hin
    simp only [Prog.wp_bind]
    refine (h.inv p).wp_ilock_file hin fun s₁ nd h₁ hst₁ hnode₁ hnd => ?_
    refine h₁.wp_attr (Multiset.mem_cons_self ..) rfl hnd ?_
    refine h₁.wp_iunlock fun s₂ h₂ hst₂ hnode₂ _ => ?_
    exact .of_node (h.of_inv h₂ (hst₁.trans hst₂).tables) (hnode₂.trans hnode₁)
  cases ht : (s.tables.file f).type with
  | none => exact h.ends
  | pipe => exact h.ends
  | inode => exact hstat (by rw [File.inode, ht])
  | device => exact hstat (by rw [File.inode, ht])

theorem Inv.wp_advance (h : Inv H sb p c own lk fresh s) (hF : FilesOk s.tables fs) (r : ℤ)
    (hQ : ∀ s', Inv H sb p c own lk fresh s' → FilesOk s'.tables fs →
      (∀ f, (s'.tables.file f).type = (s.tables.file f).type ∧
        (s'.tables.file f).ip = (s.tables.file f).ip ∧
        (s'.tables.file f).writable = (s.tables.file f).writable) →
      s'.tables.proc = s.tables.proc → s'.node = s.node → s'.entry = s.entry → Q () s') :
    (advance f r).wp (onAbs sb p) Mild s Q := by
  refine wp_assign ?_
  split
  · have hF' := hF.setFile (f := f) (g := fun x => { x with off := x.off + BitVec.ofInt 32 r })
      (hF.ref f) (fun _ _ => rfl) hF.closed fun _ => ⟨rfl, rfl, rfl⟩
    refine hQ _ (h.setFile (fun h0 => h.closed f h0) rfl fun ht => ⟨ht, rfl, rfl⟩) hF'
      (fun f' => ?_)
      rfl rfl rfl
    dsimp only
    by_cases hf : f' = f
    · subst hf
      rw [setFile_self]
      exact ⟨rfl, rfl, rfl⟩
    · rw [setFile_of_ne hf]
      exact ⟨rfl, rfl, rfl⟩
  · exact hQ _ h hF (fun _ => ⟨rfl, rfl, rfl⟩) rfl rfl rfl

theorem Rest.wp_sysRead (h : Rest H sb s) (fd : ℤ) (dst : Dst) (n answer : ℤ) :
    (sysRead p fd dst n answer).wp (onAbs sb p) Mild s fun _ s' => Ends H sb s s' := by
  rw [sysRead, Prog.wp_bind]
  refine wp_argfd h.ends fun k f _ => ?_
  dsimp only
  rw [Prog.wp_bind, fileread, Prog.wp_bind]
  refine wp_look ?_
  split
  · exact h.ends
  cases ht : (s.tables.file f).type with
  | none => exact wp_fsPanic (.of_mild rfl)
  | pipe => exact h.ends
  | device =>
    dsimp only
    split <;> exact h.ends
  | inode =>
    simp only [Prog.wp_bind]
    refine (h.inv p).wp_ilock_file (by rw [File.inode, ht]) fun s₁ nd h₁ hst₁ hnode₁ hnd => ?_
    refine wp_look ?_
    have hl : (s.tables.file f).ip ∈ (s.tables.file f).ip ::ₘ (0 : Multiset (Fin ninode)) :=
      Multiset.mem_cons_self ..
    refine h₁.wp_readi hl rfl hnd (BitVec.isLt _) ?_
    refine h₁.wp_advance (hst₁.tables ▸ h.files) _ fun s₂ h₂ hF₂ _ hproc₂ hnode₂ _ => ?_
    refine h₂.wp_iunlock fun s₃ h₃ hst₃ hnode₃ _ => ?_
    refine .of_node (Rest.of_files h₃ (hst₃.tables ▸ hF₂) ?_) ((hnode₃.trans hnode₂).trans hnode₁)
    rw [hst₃.tables, hproc₂, hst₁.tables]

/-! ### `write` -/

/-- The loop of `filewrite` changes the contents of one file. -/
theorem Inv.wp_filewriteLoop {src : Src} {n : ℕ} (h : Inv H sb p c own 0 ∅ s)
    (hF : FilesOk s.tables fs) (ht : (s.tables.file f).type = .inode)
    (hip : (s.tables.file f).ip = e) (hi : (s.entry e).inum = i) (hnd : s.node i = some nd)
    (hdir : nd.type ≠ tDir) {Q : ℕ → Abs → Prop}
    (hQ : ∀ r d s', Inv H sb p c own 0 ∅ s' → FilesOk s'.tables fs →
      s'.tables.proc = s.tables.proc →
      s'.node = update s.node i (some { nd with data := d }) → Q r s') (fuel k : ℕ) :
    (filewriteLoop f e src n fuel k).wp (onAbs sb p) Mild s Q := by
  induction fuel generalizing s nd k with
  | zero => exact hQ k nd.data s h hF rfl (update_eq_self_iff.mpr hnd.symm).symm
  | succ fuel ih =>
    rw [filewriteLoop]
    split
    swap
    · exact hQ k nd.data s h hF rfl (update_eq_self_iff.mpr hnd.symm).symm
    have hin : (s.tables.file f).inode = some e := by rw [File.inode, ht, hip]
    simp only [Prog.wp_bind]
    refine wp_beginOp ?_
    refine h.wp_ilock_file hin fun s₁ nd₁ h₁ hst₁ hnode₁ hnd₁ => ?_
    have hi₁ : (s₁.entry e).inum = i := (hst₁.entry (anchored_of_file hin)).1.trans hi
    rw [hi₁, hnode₁, hnd] at hnd₁
    cases hnd₁
    refine wp_look ?_
    have hmax : writeMax < 2 ^ 32 := by decide
    refine h₁.wp_writei (Multiset.mem_cons_self ..) hi₁ (by rw [hnode₁, hnd])
      (by omega) (fun hd => absurd hd hdir) fun s₂ h₂ hst₂ hnode₂ => ?_
    have hst₂ := hst₁.trans hst₂
    rw [hnode₁] at hnode₂
    refine h₂.wp_advance (hst₂.tables ▸ hF) _ fun s₃ h₃ hF₃ hfile₃ hproc₃ hnode₃ hentry₃ => ?_
    refine h₃.wp_iunlock fun s₄ h₄ hst₄ hnode₄ _ => ?_
    refine wp_endOp ?_
    rw [hst₂.tables] at hproc₃ hfile₃
    have hF₄ : FilesOk s₄.tables fs := hst₄.tables ▸ hF₃
    obtain ⟨d₄, hnode₄⟩ : ∃ d, s₄.node = update s.node i (some { nd with data := d }) :=
      ⟨_, (hnode₄.trans hnode₃).trans hnode₂⟩
    have hnd₄ : s₄.node i = some { nd with data := d₄ } := by rw [hnode₄, update_self]
    have hproc₄ : s₄.tables.proc = s.tables.proc := by rw [hst₄.tables, hproc₃]
    split
    · -- a short write ends the loop
      exact hQ k _ s₄ h₄ hF₄ hproc₄ hnode₄
    -- the file still refers to the same inode in the next transaction
    obtain ⟨ht₃, hip₃, -⟩ := hfile₃ f
    have hin₃ : (s₃.tables.file f).inode = some e := by rw [File.inode, ht₃, ht, hip₃, hip]
    refine ih h₄ hF₄ (by rw [hst₄.tables, ht₃, ht]) (by rw [hst₄.tables, hip₃, hip]) ?_
      hnd₄ hdir (fun r d s' hinv hF' hproc hnode => ?_) _
    · rw [(hst₄.entry (anchored_of_file hin₃)).1, hentry₃, (hst₂.entry (anchored_of_file hin)).1,
        hi]
    · refine hQ r d s' hinv hF' (hproc.trans hproc₄) ?_
      rw [hnode, hnode₄, update_idem]

theorem Rest.wp_sysWrite (h : Rest H sb s) (fd : ℤ) (src : Src) (n answer : ℤ) :
    (sysWrite p fd src n answer).wp (onAbs sb p) Mild s fun _ s' => Ends H sb s s' := by
  rw [sysWrite, Prog.wp_bind]
  refine wp_argfd h.ends fun k f _ => ?_
  dsimp only
  rw [filewrite, Prog.wp_bind]
  refine wp_look ?_
  split
  · exact h.ends
  next hw =>
  cases ht : (s.tables.file f).type with
  | none => exact wp_fsPanic (.of_mild rfl)
  | pipe => exact h.ends
  | device =>
    dsimp only
    split <;> exact h.ends
  | inode =>
    have hin : (s.tables.file f).inode = some (s.tables.file f).ip := by rw [File.inode, ht]
    have hpos := (h.inv p).ref_pos_of_anchored (anchored_of_file hin)
    obtain ⟨nd, hnd⟩ := Option.isSome_iff_exists.mp (h.valid hpos (h.file hin))
    have hdir : nd.type ≠ tDir := h.fileDir ht (by simpa using hw) hnd
    simp only [Prog.wp_bind]
    refine (h.inv p).wp_filewriteLoop h.files ht rfl rfl hnd hdir
      (fun r d s' hinv hF hproc hnode => ?_) _ 0
    refine ⟨fun _ => Rest.of_files hinv hF (by rw [hproc]), ?_⟩
    rw [hnode]
    exact .data (.refl _) hnd hdir (.refl _)

/-! ### `pipe` -/

theorem setOfile_ofile {T : Tables} {v : Option (Fin nfile)} :
    ((T.setOfile p fd v).proc p).ofile = update (T.proc p).ofile fd v := by
  show (update T.proc p _ p).ofile = _
  rw [update_self]

/-- `pipealloc` makes two files, the ends of a new pipe. -/
theorem Inv.wp_pipealloc {page : Option ℕ} (h : Inv H sb p c own 0 ∅ s) (hF : FilesOk s.tables 0)
    (hown : ∀ {e i}, (e, i) ∈ own → c = some e) {Q : Option (Fin nfile × Fin nfile) → Abs → Prop}
    (hnone : ∀ s', Inv H sb p c own 0 ∅ s' → FilesOk s'.tables 0 →
      s'.tables.proc = s.tables.proc → Freed s.node s'.node → Q none s')
    (hsome : ∀ f₀ f₁ s', Inv H sb p c own 0 ∅ s' → FilesOk s'.tables (f₀ ::ₘ f₁ ::ₘ 0) →
      s'.tables.proc = s.tables.proc → s'.node = s.node → Q (some (f₀, f₁)) s') :
    (pipealloc page).wp (onAbs sb p) Mild s Q := by
  rw [pipealloc, Prog.wp_bind]
  refine h.wp_filealloc hF (fun _ => hnone s h hF rfl (.refl _))
    fun f₀ s₁ _ ht₀ h₁ hF₁ hnode₁ _ htab₁ => ?_
  have hproc₁ : s₁.tables.proc = s.tables.proc := by rw [htab₁, setFile_proc]
  dsimp only
  rw [Prog.wp_bind]
  refine h₁.wp_filealloc hF₁ (fun _ => ?_) fun f₁ s₂ h0 ht₁ h₂ hF₂ hnode₂ _ htab₂ => ?_
  · dsimp only
    rw [Prog.wp_bind]
    refine h₁.wp_fileclose hF₁ (fun _ => hown) (fun _ => rfl) fun s₂ h₂ hF₂ hproc₂ hfree₂ _ => ?_
    exact hnone s₂ h₂ hF₂ (hproc₂.trans hproc₁) (hnode₁ ▸ hfree₂)
  have hproc₂ : s₂.tables.proc = s.tables.proc := by rw [htab₂, setFile_proc, hproc₁]
  have hnode₂ := hnode₂.trans hnode₁
  cases page with
  | none =>
    dsimp only
    rw [Multiset.cons_swap] at hF₂
    rw [Prog.wp_bind]
    refine h₂.wp_fileclose hF₂ (fun _ => hown) (fun _ => rfl) fun s₃ h₃ hF₃ hproc₃ hfree₃ _ => ?_
    rw [Prog.wp_bind]
    refine h₃.wp_fileclose hF₃ (fun _ => hown) (fun _ => rfl) fun s₄ h₄ hF₄ hproc₄ hfree₄ _ => ?_
    exact hnone s₄ h₄ hF₄ ((hproc₄.trans hproc₃).trans hproc₂) (hnode₂ ▸ hfree₃.trans hfree₄)
  | some a =>
    -- the two files are different ones, and both are still without a type
    have hpos₀ : 0 < (s₁.tables.file f₀).ref := hF₁.ref_pos (Multiset.mem_cons_self ..)
    have hne : f₀ ≠ f₁ := by
      rintro rfl
      omega
    have hfile₀ : s₂.tables.file f₀ = s₁.tables.file f₀ := by rw [htab₂, setFile_of_ne hne]
    have hpos₁ : 0 < (s₂.tables.file f₁).ref := hF₂.ref_pos (Multiset.mem_cons_self ..)
    have ht₀ : (s₂.tables.file f₀).type = .none := by rw [hfile₀, ht₀]
    simp only [Prog.wp_bind]
    refine wp_onTables (fun _ T heq => ?_) fun x heq => ?_
    · split at heq
      · cases heq
      rename_i hpage
      have hpage : s₂.tables.pipe a = none := by simpa using hpage
      cases heq
      refine wp_assign ?_
      refine wp_assign ?_
      have hF₃ := hF₂.newPipe
        (fun x => { x with type := .pipe, readable := true, writable := false, pipe := a })
        (fun x => { x with type := .pipe, readable := false, writable := true, pipe := a })
        hne (hfile₀ ▸ hpos₀) hpos₁ ht₀ ht₁ hpage (fun _ => ⟨rfl, rfl, rfl, rfl⟩)
        fun _ => ⟨rfl, rfl, rfl, rfl⟩
      rw [Multiset.cons_swap] at hF₃
      refine hsome f₀ f₁ _ ?_ hF₃ hproc₂ hnode₂
      refine h₂.withTables (fun _ => rfl) (fun f => hF₃.closed) (fun f => ?_) fun f ht => ?_
      · by_cases hf₁ : f = f₁
        · subst hf₁
          rw [setFile_self, File.inode, File.inode, ht₁]
        rw [setFile_of_ne hf₁]
        by_cases hf₀ : f = f₀
        · subst hf₀
          rw [setFile_self, File.inode, File.inode, ht₀]
        · rw [setFile_of_ne hf₀]
          rfl
      · by_cases hf₁ : f = f₁
        · subst hf₁
          rw [setFile_self] at ht
          cases ht
        rw [setFile_of_ne hf₁] at ht ⊢
        by_cases hf₀ : f = f₀
        · subst hf₀
          rw [setFile_self] at ht
          cases ht
        · rw [setFile_of_ne hf₀] at ht ⊢
          exact ⟨ht, rfl, rfl⟩
    · split at heq <;> cases heq

theorem Inv.wp_closeBoth {f₀ f₁ : Fin nfile} (h : Inv H sb p c own 0 ∅ s)
    (hF : FilesOk s.tables (f₀ ::ₘ f₁ ::ₘ 0)) (hown : ∀ {e i}, (e, i) ∈ own → c = some e)
    {Q : ℤ → Abs → Prop}
    (hQ : ∀ s', Inv H sb p c own 0 ∅ s' → FilesOk s'.tables 0 →
      s'.tables.proc = s.tables.proc → Freed s.node s'.node → Q (-1) s') :
    (do
      fileclose f₀
      fileclose f₁
      return (-1) : FsProg ℤ).wp (onAbs sb p) Mild s Q := by
  simp only [Prog.wp_bind]
  refine h.wp_fileclose hF (fun _ => hown) (fun _ => rfl) fun s₁ h₁ hF₁ hproc₁ hfree₁ _ => ?_
  refine h₁.wp_fileclose hF₁ (fun _ => hown) (fun _ => rfl) fun s₂ h₂ hF₂ hproc₂ hfree₂ _ => ?_
  exact hQ s₂ h₂ hF₂ (hproc₂.trans hproc₁) (hfree₁.trans hfree₂)

theorem Rest.wp_sysPipe (h : Rest H sb s) (page : Option ℕ) (copied : Bool) :
    (sysPipe p page copied).wp (onAbs sb p) Mild s fun _ s' => Ends H sb s s' := by
  rw [sysPipe, Prog.wp_bind]
  refine (h.inv p).wp_pipealloc h.files cwd_of_mem_cwdOwn (fun s₁ h₁ hF₁ hproc₁ hfree₁ => ?_)
    fun f₀ f₁ s₁ h₁ hF₁ hproc₁ hnode₁ => ?_
  · exact ⟨fun _ => Rest.of_files h₁ hF₁ (by rw [hproc₁]), .freed hfree₁⟩
  -- a way out that has no descriptors left, or has cleared them
  have hout : ∀ t, Inv H sb p (s.tables.proc p).cwd (cwdOwn s p) 0 ∅ t →
      FilesOk t.tables (f₀ ::ₘ f₁ ::ₘ 0) → (t.tables.proc p).cwd = (s.tables.proc p).cwd →
      t.node = s.node →
      (do
        fileclose f₀
        fileclose f₁
        return (-1) : FsProg ℤ).wp (onAbs sb p) Mild t fun _ s' => Ends H sb s s' := by
    intro t ht hFt hcwd hnode
    refine ht.wp_closeBoth hFt cwd_of_mem_cwdOwn fun s' hinv hF hproc hfree => ?_
    exact ⟨fun _ => Rest.of_files hinv hF (by rw [hproc, hcwd]), .freed (hnode ▸ hfree)⟩
  dsimp only
  rw [Prog.wp_bind]
  refine h₁.wp_fdalloc hF₁ (fun _ => hout s₁ h₁ hF₁ (by rw [hproc₁]) hnode₁)
    fun fd₀ s₂ h₂ hF₂ hnode₂ _ htab₂ _ => ?_
  have hnode₂ := hnode₂.trans hnode₁
  have hcwd₂ : (s₂.tables.proc p).cwd = (s.tables.proc p).cwd := by
    rw [htab₂, setOfile_cwd, hproc₁]
  have hofile₂ : (s₂.tables.proc p).ofile fd₀ = some f₀ := by
    rw [htab₂, setOfile_ofile, update_self]
  dsimp only
  rw [Prog.wp_bind]
  refine h₂.wp_fdalloc hF₂ (fun _ => ?_) fun fd₁ s₃ h₃ hF₃ hnode₃ _ htab₃ hfree₃ => ?_
  · dsimp only
    rw [Prog.wp_bind]
    refine wp_assign ?_
    exact hout _ (h₂.setOfile p fd₀ none) (hF₂.remove hofile₂)
      ((setOfile_cwd p).trans hcwd₂) hnode₂
  have hne : fd₀ ≠ fd₁ := by
    rintro rfl
    rw [hofile₂] at hfree₃
    cases hfree₃
  have hcwd₃ : (s₃.tables.proc p).cwd = (s.tables.proc p).cwd := by
    rw [htab₃, setOfile_cwd, hcwd₂]
  dsimp only
  split
  · exact .of_node (Rest.of_files h₃ hF₃ hcwd₃) (hnode₃.trans hnode₂)
  have hofile₃ : (s₃.tables.proc p).ofile fd₀ = some f₀ := by
    rw [htab₃, setOfile_ofile, update_of_ne hne, hofile₂]
  have hofile₃' : ((s₃.tables.setOfile p fd₀ none).proc p).ofile fd₁ = some f₁ := by
    rw [setOfile_ofile, update_of_ne hne.symm, htab₃, setOfile_ofile,
      update_self]
  rw [Prog.wp_bind]
  refine wp_assign ?_
  rw [Prog.wp_bind]
  refine wp_assign ?_
  have hF₄ := (hF₃.remove hofile₃).remove hofile₃'
  rw [Multiset.cons_swap] at hF₄
  exact hout _ ((h₃.setOfile p fd₀ none).setOfile p fd₁ none) hF₄
    (((setOfile_cwd p).trans (setOfile_cwd p)).trans hcwd₃) (hnode₃.trans hnode₂)

/-! ### `fork` -/

theorem setOfile_proc_of_ne {T : Tables} {v : Option (Fin nfile)} (h : p ≠ q) :
    (T.setOfile q fd v).proc p = T.proc p := update_of_ne h ..

/-- The loop of `fork` copies descriptors to a process that has none. -/
theorem Inv.wp_forkFiles (hpq : p ≠ q) (l : List (Fin nofile)) (hnodup : l.Nodup)
    (h : Inv H sb p c own 0 ∅ s) (hF : FilesOk s.tables 0)
    (hempty : ∀ fd ∈ l, (s.tables.proc q).ofile fd = none)
    (hQ : ∀ s', Inv H sb p c own 0 ∅ s' → FilesOk s'.tables 0 →
      s'.tables.proc p = s.tables.proc p → (s'.tables.proc q).cwd = (s.tables.proc q).cwd →
      s'.node = s.node → Q () s') : (forkFiles p q l).wp (onAbs sb p) Mild s Q := by
  induction l generalizing s with
  | nil => exact hQ s h hF rfl rfl rfl
  | cons fd l ih =>
    obtain ⟨hfd, hl⟩ := List.nodup_cons.mp hnodup
    rw [forkFiles, Prog.wp_bind]
    refine wp_look ?_
    cases hf : (s.tables.proc p).ofile fd with
    | none => exact ih hl h hF (fun k hk => hempty k (List.mem_cons_of_mem _ hk)) hQ
    | some f =>
      simp only [Prog.wp_bind]
      refine h.wp_filedup hF fun s₁ h₁ hF₁ hnode₁ _ hproc₁ => ?_
      refine wp_assign ?_
      have hfree : (s₁.tables.proc q).ofile fd = none := by
        rw [hproc₁]
        exact hempty fd (List.mem_cons_self ..)
      refine ih hl (h₁.setOfile q fd (some f)) (hF₁.install hfree) (fun k hk => ?_)
        fun s' hinv hF' hp hcwd hnode => ?_
      · dsimp only
        have hne : k ≠ fd := by
          rintro rfl
          exact hfd hk
        rw [setOfile_ofile, update_of_ne hne, hproc₁]
        exact hempty k (List.mem_cons_of_mem _ hk)
      · refine hQ s' hinv hF' ?_ ?_ (hnode.trans hnode₁)
        · exact hp.trans ((setOfile_proc_of_ne hpq).trans (by rw [hproc₁]))
        · exact hcwd.trans ((setOfile_cwd q).trans (by rw [hproc₁]))

/-- A process made by `fork` gets a reference to the current directory of its parent. -/
theorem Inv.giveCwd (hpq : p ≠ q) (h : Inv H sb p c ((e, i) ::ₘ own) 0 ∅ s)
    (hcwd : ∀ {e}, c = some e → ∃ i, (e, i) ∈ own) (hq : (s.tables.proc q).cwd = none) :
    Inv H sb p c own 0 ∅
      { s with tables := s.tables.setProc q fun x => { x with cwd := some e } } := by
  have hothers := fun a => others_setCwd (T := s.tables) (p := p) hpq.symm (v := some e) a
  rw [hq] at hothers
  simp only [reduceCtorEq, if_false, Option.some.injEq] at hothers
  refine h.setTables (fun a => ?_) (fun hm => h.num (Multiset.mem_cons_of_mem hm))
    (fun hl => absurd hl (Multiset.notMem_zero _)) hcwd h.closed h.file h.fileDir (fun a _ ha => ?_)
    (Set.Subset.refl _)
  · have := hothers a
    rw [Multiset.map_cons, Multiset.count_cons]
    simp only [eq_comm (a := a)]
    omega
  · refine ha.imp_left fun ho => ?_
    have := hothers a
    omega

theorem Rest.wp_sysFork (h : Rest H sb s) (np : Option Pid) (pid : ℤ)
    (hcwd : (s.tables.proc p).cwd ≠ none) :
    (sysFork p np pid).wp (onAbs sb p) Mild s fun _ s' => Ends H sb s s' := by
  cases np with
  | none => exact h.ends
  | some q =>
    rw [sysFork]
    simp only [Prog.wp_bind]
    refine wp_onTables (fun _ T heq => ?_) fun x heq => ?_
    swap
    · split at heq <;> cases heq
    split at heq
    swap
    · cases heq
    next hunused =>
    cases heq
    rw [Bool.and_eq_true, Option.isNone_iff_eq_none, List.all_eq_true] at hunused
    obtain ⟨hqcwd, hqfd⟩ := hunused
    have hpq : p ≠ q := by
      rintro rfl
      exact hcwd hqcwd
    refine (h.inv p).wp_forkFiles hpq _ (List.nodup_finRange nofile) h.files
      (fun fd hfd => Option.isNone_iff_eq_none.mp (hqfd fd hfd))
      fun s₁ h₁ hF₁ hproc₁ hcwd₁ hnode₁ => ?_
    refine wp_myCwd fun cw hcw => ?_
    rw [hproc₁] at hcw
    have hm : (cw, (s.entry cw).inum) ∈ cwdOwn s p := by
      rw [cwdOwn_of_cwd hcw]
      exact Multiset.mem_singleton_self _
    refine h₁.wp_idup hm fun s₂ h₂ hst₂ hnode₂ => ?_
    refine wp_assign ?_
    refine .of_node (Rest.of_files (p := p) (h₂.giveCwd hpq (h.inv p).cwd ?_) ?_ ?_)
      (hnode₂.trans hnode₁)
    · rw [hst₂.tables, hcwd₁, hqcwd]
    · exact (hst₂.tables ▸ hF₁ : FilesOk s₂.tables 0).setCwd q (some cw)
    · show (update s₂.tables.proc q _ p).cwd = _
      rw [update_of_ne hpq, hst₂.tables, hproc₁]

/-! ### `exit` -/

/-- `fileclose` does not look at descriptors. -/
theorem wp_fileclose_frame (q : Pid) (fd : Fin nofile) (v : Option (Fin nfile))
    {A : Option Panic → Prop}
    (h : (fileclose f).wp (onAbs sb p) A { s with tables := s.tables.setOfile q fd v } Q) :
    (fileclose f).wp (onAbs sb p) A s fun r s' =>
      Q r { s' with tables := s'.tables.setOfile q fd v } := by
  rw [fileclose, Prog.wp_bind, onTables, Prog.wp_call] at h ⊢
  -- the reference count, and what the file stands for, are the same
  change Outcome.Ensures A _
    (((filecloseTables f (s.tables.setOfile q fd v)).bind fun r => .ok (r.1,
    { s with tables := r.2 })).mapPanic some) at h
  change Outcome.Ensures A _ (((filecloseTables f s.tables).bind fun r => .ok (r.1,
    { s with tables := r.2 })).mapPanic some)
  unfold filecloseTables at h ⊢
  rw [setOfile_file] at h
  by_cases hpos : (s.tables.file f).ref < 1
  · rw [if_pos hpos] at h ⊢
    exact h
  rw [if_neg hpos] at h ⊢
  by_cases hmore : 0 < (s.tables.file f).ref - 1
  · rw [if_pos hmore] at h ⊢
    exact h
  rw [if_neg hmore] at h ⊢
  have hiput : ∀ (t : Abs) (e : Fin ninode), (do
        Prog.call .beginOp
        Prog.call (.iput e)
        Prog.call .endOp : FsProg Unit).wp (onAbs sb p) A
        { t with tables := t.tables.setOfile q fd v } Q →
      (do
        Prog.call .beginOp
        Prog.call (.iput e)
        Prog.call .endOp : FsProg Unit).wp (onAbs sb p) A t fun r s' =>
          Q r { s' with tables := s'.tables.setOfile q fd v } := by
    intro t e ht
    simp only [Prog.wp_bind, Prog.wp_call] at ht ⊢
    change Outcome.Ensures A _
      (onAbs sb p (.iput e) { t with tables := t.tables.setOfile q fd v }) at ht
    change Outcome.Ensures A _ (onAbs sb p (.iput e) t)
    unfold onAbs at ht ⊢
    dsimp only at ht ⊢
    by_cases h₁ : (t.entry e).ref < 1 ∨ (t.entry e).dirty = true
    · rw [if_pos h₁] at ht ⊢
      exact ht
    rw [if_neg h₁] at ht ⊢
    by_cases h₂ : (t.entry e).ref = 1 ∧ (t.entry e).valid = true ∧ t.unlinked e
    · rw [if_pos h₂] at ⊢
      rw [if_pos (show _ ∧ _ ∧ Abs.unlinked { t with tables := t.tables.setOfile q fd v }
        e from h₂)]
        at ht
      split at ht
      · next h₃ =>
        rw [if_pos h₃]
        exact ht
      · next h₃ =>
        rw [if_neg h₃]
        trivial
    · rw [if_neg h₂]
      rw [if_neg (show ¬ (_ ∧ _ ∧ Abs.unlinked { t with tables := t.tables.setOfile q fd v }
        e) from h₂)]
        at ht
      exact ht
  simp only [Outcome.bind_ok, Outcome.mapPanic, Outcome.ensures_ok] at h ⊢
  cases ht : (s.tables.file f).type with
  | none =>
    rw [ht] at h
    exact h
  | pipe =>
    rw [ht] at h
    dsimp only at h ⊢
    rw [pipeclose, onTables, Prog.wp_call] at h ⊢
    unfold onAbs at h ⊢
    dsimp only at h ⊢
    rw [setFile_pipe, setOfile_pipe] at h
    rw [setFile_pipe]
    cases hp : s.tables.pipe (s.tables.file f).pipe with
    | none =>
      rw [hp] at h
      exact h
    | some x =>
      rw [hp] at h
      exact h
  | inode =>
    rw [ht] at h
    exact hiput { s with tables := s.tables.setFile f File.close } _ h
  | device =>
    rw [ht] at h
    exact hiput { s with tables := s.tables.setFile f File.close } _ h

/-- The loop of `exit` closes what the process has open. -/
theorem Inv.wp_exitFiles (l : List (Fin nofile)) (h : Inv H sb p c own 0 ∅ s)
    (hown : ∀ {e i}, (e, i) ∈ own → c = some e) (hF : FilesOk s.tables 0)
    (hQ : ∀ s', Inv H sb p c own 0 ∅ s' → FilesOk s'.tables 0 →
      (s'.tables.proc p).cwd = (s.tables.proc p).cwd → Freed s.node s'.node → Q () s') :
    (exitFiles p l).wp (onAbs sb p) Mild s Q := by
  induction l generalizing s with
  | nil => exact hQ s h hF rfl (.refl _)
  | cons fd l ih =>
    rw [exitFiles, Prog.wp_bind]
    refine wp_look ?_
    cases hf : (s.tables.proc p).ofile fd with
    | none => exact ih h hF hQ
    | some f =>
      simp only [Prog.wp_bind]
      refine (wp_fileclose_frame p fd none
        (Q := fun _ t => (exitFiles p l).wp (onAbs sb p) Mild t Q) ?_).mono fun _ s' hs' => ?_
      · refine (h.setOfile p fd none).wp_fileclose (hF.remove hf) (fun _ => hown) (fun _ => rfl)
          fun s₁ h₁ hF₁ hproc₁ hfree₁ _ => ?_
        refine ih h₁ hF₁ fun s' hinv hF' hcwd hfree => ?_
        refine hQ s' hinv hF' ?_ (hfree₁.trans hfree)
        rw [hcwd, hproc₁]
        exact setOfile_cwd p
      · refine wp_assign ?_
        exact hs'

theorem Rest.wp_sysExit (h : Rest H sb s) :
    (sysExit p).wp (onAbs sb p) Mild s fun _ s' => Ends H sb s s' := by
  rw [sysExit]
  split
  · exact wp_fsPanic (.of_mild rfl)
  simp only [Prog.wp_bind]
  refine (h.inv p).wp_exitFiles _ cwd_of_mem_cwdOwn h.files fun s₁ h₁ hF₁ hcwd₁ hfree₁ => ?_
  refine wp_beginOp ?_
  refine wp_myCwd fun cw hcw => ?_
  rw [hcwd₁] at hcw
  rw [cwdOwn_of_cwd hcw, hcw, ← Multiset.cons_zero] at h₁
  refine h₁.wp_iput_turn none (fun hc => by cases hc)
    (fun hm => absurd hm (Multiset.notMem_zero _)) fun s₂ h₂ hst₂ hfree₂ => ?_
  refine wp_endOp ?_
  refine wp_assign ?_
  refine ⟨fun _ => h₂.rest_setCwd (hst₂.tables ▸ hF₁) fun e => ?_, .freed (hfree₁.trans hfree₂)⟩
  rfl

/-! ### `exec` -/

theorem Inv.wp_execReads (h : Inv H sb p c own lk fresh s) (hl : e ∈ lk)
    (hnum : (s.entry e).inum = i) (hi : s.node i = some nd) (l : List (BitVec 32 × BitVec 32))
    (hQ : Q () s) : (execReads e l).wp (onAbs sb p) Mild s Q := by
  induction l with
  | nil => exact hQ
  | cons x l ih =>
    rw [execReads, Prog.wp_bind]
    exact h.wp_readi hl hnum hi x.2.isLt ih

theorem Rest.wp_sysExec (h : Rest H sb s) {path : Option PathArg}
    (reads : List (BitVec 32 × BitVec 32)) (answer : ℤ) :
    (sysExec p path reads answer).wp (onAbs sb p) Mild s fun _ s' => Ends H sb s s' := by
  cases path with
  | none => exact h.ends
  | some path =>
    unfold sysExec
    simp only [Prog.wp_bind]
    refine wp_beginOp ?_
    refine (h.inv p).wp_namei rfl (fun s₁ h₁ hst₁ hfree₁ _ => ?_)
      fun ip j s₁ h₁ hst₁ hfree₁ _ _ => ?_
    · simp only [Prog.wp_bind]
      exact wp_endOp ⟨fun _ => h.of_inv h₁ hst₁.tables, .freed hfree₁⟩
    have hm : (ip, j) ∈ (ip, j) ::ₘ cwdOwn s p := Multiset.mem_cons_self ..
    simp only [Prog.wp_bind]
    refine h₁.wp_ilock (.inl ⟨_, hm⟩) (h₁.num hm) fun s₂ x _ h₂ hst₂ hnode₂ hx => ?_
    refine h₂.wp_execReads (Multiset.mem_cons_self ..) (h₂.num hm) (by rw [hnode₂, hx]) reads ?_
    refine h₂.wp_iunlockput (h.inv p).cwd fun s₃ h₃ hst₃ hfree₃ _ _ _ => ?_
    rw [hnode₂] at hfree₃
    exact wp_endOp ⟨fun _ => h.of_inv h₃ ((hst₁.trans hst₂).trans hst₃).tables,
      .freed (hfree₁.trans hfree₃)⟩

/-! ### All calls -/

/-- **Every system call that starts at rest ends at rest.** -/
theorem Rest.wp_syscall (h : Rest H sb s) (hcwd : (s.tables.proc p).cwd ≠ none) (call : Call) :
    (syscall p call).wp (onAbs sb p) Mild s fun _ s' => Ends H sb s s' := by
  cases call with
  | «open» path omode => exact h.wp_sysOpen.mono fun _ _ hr => hr.1
  | close fd => exact h.wp_sysClose fd
  | dup fd => exact h.wp_sysDup fd
  | read fd va mapped n answer => exact h.wp_sysRead fd _ n answer
  | write fd va mem n answer => exact h.wp_sysWrite fd _ n answer
  | fstat fd copied => exact h.wp_sysFstat fd copied
  | link old new => exact h.wp_sysLink.mono fun _ _ hr => hr.1
  | unlink path => exact h.wp_sysUnlink.mono fun _ _ hr => hr.1
  | mkdir path =>
    exact (h.wp_sysMake (by decide) (by decide)).mono fun _ _ hr => hr.1
  | mknod path major minor =>
    exact (h.wp_sysMake (by decide) (by decide)).mono fun _ _ hr => hr.1
  | chdir path => exact h.wp_sysChdir.mono fun _ _ hr => hr.1
  | pipe page copied => exact h.wp_sysPipe page copied
  | fork np pid => exact h.wp_sysFork np pid hcwd
  | exit => exact h.wp_sysExit
  | exec path reads answer => exact h.wp_sysExec reads answer

end Xv6.Fs
