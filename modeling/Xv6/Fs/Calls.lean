import Xv6.Fs.Create

/-!
# The system calls on names

What `sys_open`, `sys_mkdir`, `sys_mknod`, `sys_chdir`, `sys_link` and `sys_unlink` leave behind,
on success and through each of their error exits.

## Main definitions

* `Ends` — what a completed call leaves: the tables at rest, and an effect on the tree.
* `Fail` — what a call that returns -1 leaves.

## Main results

* `Rest.wp_sysOpen`, `Rest.wp_sysMake`, `Rest.wp_sysChdir`, `Rest.wp_sysLink`,
  `Rest.wp_sysUnlink` — the calls.
-/

namespace Xv6.Fs

open Function

/-- What a completed call leaves. -/
structure Ends (H : Prop) (sb : Super) (s s' : Abs) : Prop where
  rest : (H → ¬ Saturated s.node) → Rest H sb s'
  effect : Effect H sb.ninodes s.node s'.node

/-- What a call that returns -1 leaves, if `made` tells whether it made a file before it
failed. -/
structure Fail (H made : Prop) (p : Pid) (s s' : Abs) : Prop where
  proc : s'.tables.proc p = s.tables.proc p
  node : H → ¬ made → s'.node = s.node
  new : H → made → ∃ j nd, s.node j = none ∧ s'.node j = some nd ∧ nd.nlink = 1

variable {H made : Prop} {sb : Super} {p : Pid} {c : Option (Fin ninode)}
  {own : Multiset (Fin ninode × ℕ)} {lk : Multiset (Fin ninode)} {fresh : Set ℕ} {s s' : Abs}
  {e : Fin ninode} {i : ℕ} {nd : Node} {path : Option PathArg} {omode : BitVec 32}

/-! ### Starting and ending -/

theorem Effect.trans_freed {n : ℕ} {N N' N'' : Nodes} (h : Effect H n N N') (hf : Freed N' N'')
    (hH : H → N'' = N') : Effect H n N N'' := by
  cases h with
  | freed h => exact .freed (h.trans hf)
  | data h₁ hi ht h₂ => exact .data h₁ hi ht (h₂.trans hf)
  | link h₁ h h₂ hN =>
    exact .link h₁ h (h₂.trans hf) fun hh => ⟨(hN hh).1, (hN hh).2.imp_left (hH hh).trans⟩
  | create h₁ h h₂ hN =>
    exact .create h₁ h (h₂.trans hf) fun hh => ⟨(hN hh).1, (hN hh).2.imp_left (hH hh).trans⟩
  | unlink h₁ h h₂ hN => exact .unlink h₁ h (h₂.trans hf) hN

theorem Rest.of_inv (h : Rest H sb s) (h' : Inv H sb p (s.tables.proc p).cwd (cwdOwn s p) 0 ∅ s')
    (ht : s'.tables = s.tables) : Rest H sb s' :=
  h'.rest (ht ▸ h.files) (by rw [ht]) (count_cwdOwn s p)

theorem Rest.wp_early (h : Rest H sb s) :
    Ends H sb s s ∧ ((-1 : ℤ) = -1 → Fail H False p s s) :=
  ⟨⟨fun _ => h, .freed (.refl _)⟩, fun _ => ⟨rfl, fun _ _ => rfl, fun _ hc => hc.elim⟩⟩

/-! ### `sys_mkdir` and `sys_mknod` -/

theorem Rest.wp_sysMake (h : Rest H sb s) {type major minor : BitVec 16} (ht0 : type ≠ 0)
    (htf : type ≠ tFile) :
    (sysMake p path type major minor).wp (onAbs sb p) Mild s fun r s' =>
      Ends H sb s s' ∧ (r = -1 → Fail H False p s s') := by
  unfold sysMake
  rw [Prog.wp_bind]
  refine wp_beginOp ?_
  cases path with
  | none =>
    simp only [Prog.wp_bind]
    exact wp_endOp h.wp_early
  | some path =>
    simp only [Prog.wp_bind]
    refine (h.inv p).wp_create rfl cwd_of_mem_cwdOwn ht0
      (fun s₁ h₁ hst₁ hfree₁ hH₁ => ?_) (fun _ _ _ _ _ _ _ _ hf => absurd hf htf)
      fun ip j x N M s₁ h₁ hst₁ hfree₁ hcr hfree₂ hx _ hxl _ hH₁ => ?_
    · simp only [Prog.wp_bind]
      refine wp_endOp ⟨⟨fun _ => h.of_inv h₁ hst₁.tables, .freed hfree₁⟩, fun _ => ?_⟩
      exact ⟨by rw [hst₁.tables], fun hh _ => (hH₁ hh).1, fun _ hc => hc.elim⟩
    · simp only [Prog.wp_bind]
      refine h₁.wp_iunlockput (h.inv p).cwd fun s₂ h₂ hst₂ hfree _ hH₂ _ => ?_
      refine wp_endOp ⟨⟨fun _ => h.of_inv h₂ (hst₁.trans hst₂).tables, ?_⟩, fun hc => by cases hc⟩
      refine .create hfree₁ hcr (hfree₂.trans hfree) fun hh => ⟨(hH₁ hh).1, ?_⟩
      rw [hH₂ hh fun hf => absurd hf (Set.notMem_empty _)]
      exact (hH₁ hh).2.1

/-! ### `sys_chdir` -/

theorem Inv.turn (h : Inv H sb p (some e) own lk ∅ s) (hi : (s.entry e).inum = i)
    (c' : Option (Fin ninode)) (hc' : ∀ {e'}, c' = some e' → ∃ j, (e', j) ∈ own) :
    Inv H sb p c' own lk {i} s := by
  refine h.setTables (T := s.tables) (fun _ => rfl) h.num (fun hl => (h.locked hl).2) hc' h.closed
    h.file h.fileDir (fun a hnot ha => ?_) (Set.empty_subset _)
  obtain ho | hce := ha
  · exact .inl ho
  · cases hce
    exact absurd hi hnot

/-- `iput` of the directory a call has turned away from. -/
theorem Inv.wp_iput_turn (h : Inv H sb p (some e) ((e, i) ::ₘ own) 0 ∅ s) (c' : Option (Fin ninode))
    (hc' : ∀ {e'}, c' = some e' → ∃ j, (e', j) ∈ own) (hown : ∀ {e' j}, (e', j) ∈ own →
      c' = some e')
    {Q : Unit → Abs → Prop}
    (hQ : ∀ s', Inv H sb p c' own 0 ∅ s' → Steady p c' s s' → Freed s.node s'.node → Q () s') :
    (Prog.call (.iput e)).wp (onAbs sb p) Mild s Q := by
  have hm : (e, i) ∈ (e, i) ::ₘ own := Multiset.mem_cons_self ..
  have hpos := h.ref_pos_of_mem hm
  have hturn := h.turn (h.num hm) c' fun hc => by
    obtain ⟨j, hj⟩ := hc' hc
    exact ⟨j, Multiset.mem_cons_of_mem hj⟩
  refine hturn.wp_iput (fun hl => absurd hl (Multiset.notMem_zero _)) hc'
    fun s' hinv hst hfree _ _ hdead => hQ s' ?_ hst hfree
  refine Inv.settle (i := i) (by rwa [insert_empty_eq]) fun hh nd hnd h0 _ => ?_
  -- a directory without links has been locked by the process that keeps it
  obtain ⟨a, ha, hai, hav⟩ := h.held hh (hfree.get hnd) h0 (Set.notMem_empty _)
  obtain rfl : a = e := h.uniq (h.ref_pos_of_anchored ha) hpos (hai.trans (h.num hm).symm)
  obtain ⟨hpos', hnum, hv⟩ := hdead nd hnd h0 hav
  exact ⟨a, hinv.anchored hpos' hown, hnum, hv⟩

theorem others_setCwd_self {T : Tables} {v : Option (Fin ninode)} (e : Fin ninode) :
    others (T.setProc p fun x => { x with cwd := v }) p e = others T p e := by
  have hfile : ∀ f, ((T.setProc p fun x => { x with cwd := v }).file f).inode = (T.file f).inode :=
    fun _ => rfl
  refine others_congr (fun q hq => ?_) hfile e
  show (update T.proc p _ q).cwd = _
  rw [update_of_ne hq]

theorem fdRefs_setCwd {T : Tables} {q : Pid} {v : Option (Fin ninode)} (f : Fin nfile) :
    fdRefs (T.setProc q fun x => { x with cwd := v }) f = fdRefs T f := by
  unfold fdRefs
  refine Finset.sum_congr rfl fun r _ => ?_
  by_cases hr : r = q
  · subst hr
    simp only [Tables.setProc, update_self]
  · simp only [Tables.setProc, update_of_ne hr]

theorem FilesOk.setCwd {T : Tables} {fs : Multiset (Fin nfile)} (h : FilesOk T fs) (q : Pid)
    (v : Option (Fin ninode)) : FilesOk (T.setProc q fun x => { x with cwd := v }) fs :=
  ⟨fun f => by rw [fdRefs_setCwd]; exact h.ref f, h.closed, h.live, h.uniq, h.used, h.kept⟩

theorem Inv.rest_setCwd (h : Inv H sb p c own 0 ∅ s) (hF : FilesOk s.tables 0)
    (hown : ∀ e, (own.map Prod.fst).count e = if c = some e then 1 else 0) :
    Rest H sb { s with tables := s.tables.setProc p fun x => { x with cwd := c } } := by
  have hcwd : ((s.tables.setProc p fun x => { x with cwd := c }).proc p).cwd = c := by
    show (update s.tables.proc p _ p).cwd = c
    rw [update_self]
  refine Inv.rest (p := p) (c := c) ?_ (hF.setCwd p c) hcwd hown
  refine h.setTables (fun e => by rw [others_setCwd_self]) h.num
    (fun hl => absurd hl (Multiset.notMem_zero _)) h.cwd h.closed h.file h.fileDir
    (fun e _ ha => ?_) (Set.Subset.refl _)
  unfold Anchored
  rw [others_setCwd_self]
  exact ha

theorem wp_myCwd {Q : Fin ninode → Abs → Prop}
    (hQ : ∀ e, (s.tables.proc p).cwd = some e → Q e s) :
    (myCwd p).wp (onAbs sb p) Mild s Q := by
  refine wp_onTables (fun e T heq => ?_) fun x heq => ?_
  · cases hc : (s.tables.proc p).cwd with
    | none =>
      rw [hc] at heq
      cases heq
    | some e' =>
      rw [hc] at heq
      cases heq
      exact hQ _ hc
  · cases hc : (s.tables.proc p).cwd <;> rw [hc] at heq <;> cases heq

theorem Inv.wp_namei (h : Inv H sb p c own 0 ∅ s) (hc : (s.tables.proc p).cwd = c)
    {path : List UInt8} {Q : Option (Fin ninode) → Abs → Prop}
    (hnone : ∀ s', Inv H sb p c own 0 ∅ s' → Steady p c s s' → Freed s.node s'.node →
      (H → s'.node = s.node) → Q none s')
    (hsome : ∀ e j s', Inv H sb p c ((e, j) ::ₘ own) 0 ∅ s' → Steady p c s s' →
      Freed s.node s'.node → (∀ x ∈ own, s'.node x.2 = s.node x.2) →
      (H → s'.node = s.node) → Q (some e) s') :
    (namei p path).wp (onAbs sb p) Mild s Q := by
  rw [namei, Prog.wp_bind]
  refine h.wp_namex hc (fun m hm => absurd hm (Set.notMem_empty m))
    (fun s₁ h₁ hst₁ hfree₁ _ hH₁ => ?_) fun e j name s₁ h₁ hst₁ hfree₁ hkeep₁ _ hH₁ => ?_
  · exact hnone s₁ h₁ hst₁ hfree₁ fun hh => (hH₁ hh).1
  · exact hsome e j s₁ h₁ hst₁ hfree₁ hkeep₁ fun hh => (hH₁ hh).1

theorem Rest.wp_sysChdir (h : Rest H sb s) :
    (sysChdir p path).wp (onAbs sb p) Mild s fun r s' =>
      Ends H sb s s' ∧ (r = -1 → Fail H False p s s') := by
  unfold sysChdir
  rw [Prog.wp_bind]
  refine wp_beginOp ?_
  cases path with
  | none =>
    simp only [Prog.wp_bind]
    exact wp_endOp h.wp_early
  | some path =>
    simp only [Prog.wp_bind]
    refine (h.inv p).wp_namei rfl (fun s₁ h₁ hst₁ hfree₁ hH₁ => ?_)
      fun ip j s₁ h₁ hst₁ hfree₁ _ hH₁ => ?_
    · simp only [Prog.wp_bind]
      refine wp_endOp ⟨⟨fun _ => h.of_inv h₁ hst₁.tables, .freed hfree₁⟩, fun _ => ?_⟩
      exact ⟨by rw [hst₁.tables], fun hh _ => hH₁ hh, fun _ hc => hc.elim⟩
    have hm : (ip, j) ∈ (ip, j) ::ₘ cwdOwn s p := Multiset.mem_cons_self ..
    simp only [Prog.wp_bind]
    refine h₁.wp_ilock (.inl ⟨_, hm⟩) (h₁.num hm) fun s₂ x _ h₂ hst₂ hnode₂ hx => ?_
    have hl : ip ∈ ip ::ₘ (0 : Multiset (Fin ninode)) := Multiset.mem_cons_self ..
    refine h₂.wp_attr hl (h₂.num hm) (by rw [hnode₂, hx]) ?_
    have hst₂ := hst₁.trans hst₂
    split
    · simp only [Prog.wp_bind]
      refine h₂.wp_iunlockput (h.inv p).cwd fun s₃ h₃ hst₃ hfree₃ _ hH₃ _ => ?_
      rw [hnode₂] at hfree₃ hH₃
      refine wp_endOp ⟨⟨fun _ => h.of_inv h₃ (hst₂.trans hst₃).tables,
        .freed (hfree₁.trans hfree₃)⟩, fun _ => ?_⟩
      refine ⟨by rw [(hst₂.trans hst₃).tables], fun hh _ => ?_, fun _ hc => hc.elim⟩
      rw [hH₃ hh fun hf => absurd hf (Set.notMem_empty _), hH₁ hh]
    simp only [Prog.wp_bind]
    refine h₂.wp_iunlock fun s₃ h₃ hst₃ hnode₃ _ => ?_
    have hst₃ := hst₂.trans hst₃
    refine wp_myCwd fun cw hcw => ?_
    rw [hst₃.tables] at hcw
    rw [cwdOwn_of_cwd hcw, hcw, ← Multiset.singleton_add, add_comm, Multiset.singleton_add] at h₃
    refine h₃.wp_iput_turn (some ip) (fun hc => ?_) (fun hm => ?_)
      fun s₄ h₄ hst₄ hfree₄ => ?_
    · cases hc
      exact ⟨j, Multiset.mem_singleton_self _⟩
    · rw [(Prod.mk.inj (Multiset.mem_singleton.mp hm)).1]
    refine wp_endOp ?_
    rw [hnode₃, hnode₂] at hfree₄
    refine wp_assign ?_
    refine ⟨⟨fun _ => ?_, .freed (hfree₁.trans hfree₄)⟩, fun hc => by cases hc⟩
    refine h₄.rest_setCwd ?_ fun e => ?_
    · rw [hst₄.tables, hst₃.tables]
      exact h.files
    · rw [Multiset.map_singleton, Multiset.count_singleton]
      simp only [Option.some.injEq, eq_comm]

/-! ### `sys_open` -/

/-- `sys_open` has to make a file. -/
def Makes (s : Abs) (p : Pid) (path : List UInt8) (omode : BitVec 32) : Prop :=
  omode &&& oCreate ≠ 0 ∧ FreshName s p path

/-- What `sys_open` found, or made: inode `j`, which it has locked. -/
structure Opened (H : Prop) (sb : Super) (p : Pid) (path : List UInt8) (omode : BitVec 32) (s : Abs)
    (j : ℕ) (nd : Node) (s' : Abs) : Prop where
  node : s'.node j = some nd
  dir : nd.type = tDir → omode = 0
  effect : Effect H sb.ninodes s.node s'.node
  old : Freed s.node s'.node ∨ nd.data = []
  same : H → ¬ Makes s p path omode → s'.node = s.node
  new : H → Makes s p path omode → ∃ j nd, s.node j = none ∧ s'.node j = some nd ∧ nd.nlink = 1

theorem Created.exists_new {n : ℕ} {N M : Nodes} (h : Created n N M) :
    ∃ j nd, N j = none ∧ M j = some nd ∧ nd.nlink = 1 := by
  cases h with
  | @file i j k nd name type major minor hi hp hj hlt h0 ht =>
    have hij : j ≠ i := by
      rintro rfl
      rw [hi] at hj
      cases hj
    refine ⟨j, ⟨type, major, minor, 1, []⟩, hj, ?_, rfl⟩
    rw [update_of_ne hij, update_self]
  | @dir i j k nd name major minor hi hp hj hlt h0 =>
    exact ⟨j, _, hj, update_self .., rfl⟩

theorem Inv.wp_openInode {path : List UInt8} (h : Inv H sb p c own 0 ∅ s)
    (hc : (s.tables.proc p).cwd = c) (hown : ∀ {e i}, (e, i) ∈ own → c = some e)
    {Q : Option (Fin ninode) → Abs → Prop}
    (hnone : ∀ s', Inv H sb p c own 0 ∅ s' → Steady p c s s' → Freed s.node s'.node →
      (H → s'.node = s.node ∧ ¬ Makes s p path omode) → Q none s')
    (hsome : ∀ ip j nd s', Inv H sb p c ((ip, j) ::ₘ own) (ip ::ₘ 0) ∅ s' → Steady p c s s' →
      Opened H sb p path omode s j nd s' → Q (some ip) s') :
    (openInode p path omode).wp (onAbs sb p) Mild s Q := by
  rw [openInode]
  split
  · next hcreate =>
    refine h.wp_create hc hown (by decide) (fun s' hinv hst hfree hH => ?_)
      (fun ip j nd s' hinv hst hfree hnd _ htype hH => ?_)
      fun ip j nd N M s' hinv hst hfree₁ hcr hfree₂ hnd htype hlink hdata hH => ?_
    · exact hnone s' hinv hst hfree fun hh => ⟨(hH hh).1, fun hm => (hH hh).2 hm.2⟩
    · refine hsome ip j nd s' hinv hst ⟨hnd, fun hd => ?_, .freed hfree, .inl hfree,
        fun hh _ => (hH hh).1, fun hh hm => absurd hm.2 (hH hh).2⟩
      rw [hd] at htype
      exact absurd htype (by decide)
    · have heffect : Effect H sb.ninodes s.node s'.node :=
        .create hfree₁ hcr hfree₂ fun hh => ⟨(hH hh).1, (hH hh).2.1⟩
      refine hsome ip j nd s' hinv hst ⟨hnd, fun hd => ?_, heffect, .inr (hdata (by decide)),
        fun hh hm => absurd ⟨hcreate, (hH hh).2.2⟩ hm, fun hh _ => ?_⟩
      · rw [htype] at hd
        exact absurd hd (by decide)
      · obtain ⟨rfl, -, -⟩ := hH hh
        obtain ⟨j', x, hj', hx, hxl⟩ := hcr.exists_new
        exact ⟨j', x, hj', hfree₂.live hx (by rw [hxl]; decide), hxl⟩
  · next hcreate =>
    have hmake : ¬ Makes s p path omode := fun hm => hcreate hm.1
    rw [Prog.wp_bind]
    refine h.wp_namei hc (fun s₁ h₁ hst₁ hfree₁ hH₁ => ?_)
      fun ip j s₁ h₁ hst₁ hfree₁ _ hH₁ => ?_
    · exact hnone s₁ h₁ hst₁ hfree₁ fun hh => ⟨hH₁ hh, hmake⟩
    have hm : (ip, j) ∈ (ip, j) ::ₘ own := Multiset.mem_cons_self ..
    have hl : ip ∈ ip ::ₘ (0 : Multiset (Fin ninode)) := Multiset.mem_cons_self ..
    simp only [Prog.wp_bind]
    refine h₁.wp_ilock (.inl ⟨_, hm⟩) (h₁.num hm) fun s₂ x _ h₂ hst₂ hnode₂ hx => ?_
    refine h₂.wp_attr hl (h₂.num hm) (by rw [hnode₂, hx]) ?_
    split
    · simp only [Prog.wp_bind]
      refine h₂.wp_iunlockput h.cwd fun s₃ h₃ hst₃ hfree₃ _ hH₃ _ => ?_
      rw [hnode₂] at hfree₃ hH₃
      refine hnone s₃ h₃ ((hst₁.trans hst₂).trans hst₃) (hfree₁.trans hfree₃) fun hh => ⟨?_, hmake⟩
      rw [hH₃ hh fun hf => absurd hf (Set.notMem_empty _), hH₁ hh]
    · next hdir =>
      refine hsome ip j x s₂ h₂ (hst₁.trans hst₂) ⟨by rw [hnode₂, hx], fun hd => ?_,
        .freed (hnode₂ ▸ hfree₁), .inl (hnode₂ ▸ hfree₁), fun hh _ => by rw [hnode₂, hH₁ hh],
        fun _ hm => absurd hm hmake⟩
      by_contra hmode
      exact hdir ⟨hd, hmode⟩

/-- The exits of `sys_open` that give the inode back. -/
theorem Opened.wp_giveUp {path : List UInt8} {j : ℕ} {ip : Fin ninode} {s₁ : Abs}
    (h : Rest H sb s) (ho : Opened H sb p path omode s j nd s₁) (hnode : s'.node = s₁.node)
    (hF : FilesOk s'.tables 0) (hproc : s'.tables.proc p = s.tables.proc p)
    (hinv : Inv H sb p (s.tables.proc p).cwd ((ip, j) ::ₘ cwdOwn s p) (ip ::ₘ 0) ∅ s') :
    (do
      iunlockput ip
      Prog.call .endOp
      return (-1) : FsProg ℤ).wp (onAbs sb p) Mild s' fun r s' =>
        Ends H sb s s' ∧ (r = -1 → Fail H (Makes s p path omode) p s s') := by
  simp only [Prog.wp_bind]
  refine hinv.wp_iunlockput (h.inv p).cwd fun s₂ h₂ hst₂ hfree₂ _ hH₂ _ => ?_
  have hH₂ : H → s₂.node = s₁.node := fun hh =>
    (hH₂ hh fun hf => absurd hf (Set.notMem_empty _)).trans hnode
  rw [hnode] at hfree₂
  refine wp_endOp ⟨⟨fun _ => ?_, ho.effect.trans_freed hfree₂ hH₂⟩, fun _ => ⟨?_, fun hh hm => ?_,
    fun hh hm => ?_⟩⟩
  · exact h₂.rest (hst₂.tables ▸ hF) (by rw [hst₂.tables, hproc]) (count_cwdOwn s p)
  · rw [hst₂.tables, hproc]
  · rw [hH₂ hh, ho.same hh hm]
  · rw [hH₂ hh]
    exact ho.new hh hm

theorem openFile_ref (ip : Fin ninode) (omode : BitVec 32) (a : Attr) (x : File) :
    (openFile ip omode a x).ref = x.ref := by
  unfold openFile
  split <;> rfl

theorem openFile_inode (ip : Fin ninode) (omode : BitVec 32) (a : Attr) (x : File) :
    (openFile ip omode a x).inode = some ip := by
  unfold openFile
  split <;> rfl

/-- The end of a successful `sys_open`. -/
theorem Opened.wp_finish {path : List UInt8} {j : ℕ} {ip : Fin ninode} {s₁ : Abs}
    (ho : Opened H sb p path omode s j nd s₁) (hnode : s'.node = s₁.node)
    (hF : FilesOk s'.tables 0) (hcwd : (s'.tables.proc p).cwd = (s.tables.proc p).cwd)
    (hnum : (s'.entry ip).inum = j)
    (hinv : Inv H sb p (s.tables.proc p).cwd (cwdOwn s p) (ip ::ₘ 0) ∅ s') (fd : Fin nofile) :
    (do
      openTrunc ip omode nd.attr.type
      Prog.call (.iunlock ip)
      Prog.call .endOp
      return fd.val : FsProg ℤ).wp (onAbs sb p) Mild s' fun r s' =>
        Ends H sb s s' ∧ (r = -1 → Fail H (Makes s p path omode) p s s') := by
  have hfd : ((fd.val : ℕ) : ℤ) ≠ -1 := by omega
  have hl : ip ∈ ip ::ₘ (0 : Multiset (Fin ninode)) := Multiset.mem_cons_self ..
  -- whatever was done to the contents, the lock is released and the call ends
  have hend : ∀ s₂, Inv H sb p (s.tables.proc p).cwd (cwdOwn s p) (ip ::ₘ 0) ∅ s₂ →
      s₂.tables = s'.tables → Effect H sb.ninodes s.node s₂.node →
      (do
        Prog.call (.iunlock ip)
        Prog.call .endOp
        return fd.val : FsProg ℤ).wp (onAbs sb p) Mild s₂ fun r s' =>
          Ends H sb s s' ∧ (r = -1 → Fail H (Makes s p path omode) p s s') := by
    intro s₂ h₂ ht₂ heffect
    simp only [Prog.wp_bind]
    refine h₂.wp_iunlock fun s₃ h₃ hst₃ hnode₃ _ => ?_
    refine wp_endOp ⟨⟨fun _ => ?_, hnode₃ ▸ heffect⟩, fun hc => absurd hc hfd⟩
    have ht₃ := hst₃.tables.trans ht₂
    exact h₃.rest (ht₃ ▸ hF) (by rw [ht₃, hcwd]) (count_cwdOwn s p)
  rw [Prog.wp_bind, openTrunc]
  split
  · next htrunc =>
    have htype : nd.type ≠ tDir := by
      have : nd.type = tFile := htrunc.2
      rw [this]
      decide
    refine hinv.wp_itrunc hl hnum (by rw [hnode, ho.node]) fun s₂ h₂ hst₂ hnode₂ => ?_
    refine hend s₂ h₂ hst₂.tables ?_
    rw [hnode₂, hnode]
    obtain hfree | hempty := ho.old
    · exact .data hfree ho.node htype (.refl _)
    · rw [update_eq_self_iff.mpr]
      · exact ho.effect
      · rw [ho.node, ← hempty]
  · exact hend s' hinv rfl (hnode ▸ ho.effect)

theorem Rest.wp_sysOpen (h : Rest H sb s) :
    (sysOpen p path omode).wp (onAbs sb p) Mild s fun r s' =>
      Ends H sb s s' ∧
        (r = -1 → Fail H (∃ a, path = some a ∧ Makes s p a.chars omode) p s s') := by
  cases path with
  | none =>
    refine ⟨⟨fun _ => h, .freed (.refl _)⟩, fun _ => ⟨rfl, fun _ _ => rfl, fun _ hm => ?_⟩⟩
    obtain ⟨a, ha, -⟩ := hm
    cases ha
  | some path =>
    have hmakes : (∃ a, some path = some a ∧ Makes s p a.chars omode)
        = Makes s p path.chars omode := by simp
    rw [hmakes]
    unfold sysOpen
    simp only [Prog.wp_bind]
    refine wp_beginOp ?_
    refine (h.inv p).wp_openInode rfl cwd_of_mem_cwdOwn
      (fun s₁ h₁ hst₁ hfree₁ hH₁ => ?_) fun ip j nd s₁ h₁ hst₁ ho => ?_
    · -- no inode: nothing is held
      simp only [Prog.wp_bind]
      refine wp_endOp ⟨⟨fun _ => h.of_inv h₁ hst₁.tables, .freed hfree₁⟩, fun _ => ?_⟩
      exact ⟨by rw [hst₁.tables], fun hh _ => (hH₁ hh).1, fun hh hm => absurd hm (hH₁ hh).2⟩
    have hm : (ip, j) ∈ (ip, j) ::ₘ cwdOwn s p := Multiset.mem_cons_self ..
    have hl : ip ∈ ip ::ₘ (0 : Multiset (Fin ninode)) := Multiset.mem_cons_self ..
    have hF₁ : FilesOk s₁.tables 0 := hst₁.tables ▸ h.files
    have hproc₁ : s₁.tables.proc p = s.tables.proc p := by rw [hst₁.tables]
    simp only [Prog.wp_bind]
    refine h₁.wp_attr hl (h₁.num hm) ho.node ?_
    split
    · -- a device with a bad major number
      exact ho.wp_giveUp h rfl hF₁ hproc₁ h₁
    rw [Prog.wp_bind]
    refine h₁.wp_filealloc hF₁ (fun _ => ?_) fun f s₂ h0 htype₂ h₂ hF₂ hnode₂ hentry₂ htab₂ => ?_
    · -- no free file
      exact ho.wp_giveUp h rfl hF₁ hproc₁ h₁
    have hin₂ : (s₂.tables.file f).inode = none := by rw [File.inode, htype₂]
    have hp₂ : s₂.tables.proc p = s.tables.proc p := by rw [htab₂, setFile_proc, hproc₁]
    have hpos₂ : 0 < (s₂.tables.file f).ref := hF₂.ref_pos (Multiset.mem_cons_self ..)
    dsimp only
    rw [Prog.wp_bind]
    refine h₂.wp_fdalloc hF₂ (fun _ => ?_) fun fd s₃ h₃ hF₃ hnode₃ hentry₃ htab₃ _ => ?_
    · -- no free descriptor: the new file is closed again
      dsimp only
      rw [Prog.wp_bind]
      refine h₂.wp_fileclose hF₂ (fun hc => absurd hin₂ hc) (fun hc => absurd hin₂ hc)
        fun s₃ h₃ hF₃ hproc₃ _ hsame => ?_
      exact ho.wp_giveUp h ((hsame hin₂).1.trans hnode₂) hF₃ (by rw [hproc₃, hp₂]) h₃
    dsimp only
    rw [Prog.wp_bind]
    refine wp_assign ?_
    have hfile₃ : s₃.tables.file f = s₂.tables.file f := by rw [htab₃]; rfl
    have hnum₃ : (s₃.entry ip).inum = j := by rw [hentry₃, hentry₂, h₁.num hm]
    have hvalid₃ : (s₃.entry ip).valid := by
      rw [hentry₃, hentry₂]
      exact (h₁.locked hl).1
    -- the reference of the inode passes to the file
    have hinv := h₃.giveFile (f := f) (g := openFile ip omode nd.attr)
      (by rw [hfile₃, hin₂]) (openFile_inode ..) (by rw [openFile_ref, hfile₃]; omega) hvalid₃
      (fun hw x hx => ?_) (h.inv p).cwd
    · refine ho.wp_finish ?_ ?_ ?_ ?_ hinv fd
      · exact hnode₃.trans hnode₂
      · refine hF₃.openInode (g := openFile ip omode nd.attr) (by rw [hfile₃]; exact hpos₂)
          (by rw [hfile₃]; exact htype₂) (openFile_ref ..) ?_
        unfold openFile
        split <;> exact nofun
      · show (s₃.tables.proc p).cwd = _
        rw [htab₃, setOfile_cwd, hp₂]
      · exact hnum₃
    · rw [hnode₃, hnode₂, ho.node] at hx
      cases hx
      intro hd
      unfold openFile at hw
      simp only [ho.dir hd] at hw
      exact absurd hw (by decide)

/-! ### `sys_link` -/

section Link

variable {ip : Fin ninode} {j : ℕ} {x : Node}

/-- The exit `bad` of `sys_link` takes the link back. -/
theorem Inv.wp_linkBad (h : Inv H sb p c ((ip, j) ::ₘ own) 0 fresh s)
    (hfr : ∀ m ∈ fresh, m = j) (hj : s.node j = some { x with nlink := x.nlink + 1 })
    (hc : c = some ip → ∃ i, (ip, i) ∈ own)
    (hheld : H → x.nlink = 0 →
      ∃ e, Anchored s.tables p c e ∧ (s.entry e).inum = j ∧ (s.entry e).valid)
    {Q : ℤ → Abs → Prop}
    (hQ : ∀ s', Inv H sb p c own 0 ∅ s' → Steady p c s s' →
      Freed (update s.node j (some x)) s'.node →
      (H → s'.node = update s.node j (some x)) → Q (-1) s') :
    (linkBad ip).wp (onAbs sb p) Mild s Q := by
  have hm : (ip, j) ∈ (ip, j) ::ₘ own := Multiset.mem_cons_self ..
  have hl : ip ∈ ip ::ₘ (0 : Multiset (Fin ninode)) := Multiset.mem_cons_self ..
  rw [linkBad]
  simp only [Prog.wp_bind]
  refine h.wp_ilock (.inl ⟨_, hm⟩) (h.num hm) fun s₁ _ _ h₁ hst₁ hnode₁ _ => ?_
  refine h₁.wp_setLinks (f := fun a => { a with nlink := a.nlink - 1 }) {j} hl
    (h₁.num hm) (by rw [hnode₁, hj]) (fun m _ hf => hfr m hf) (fun _ => .inl rfl)
    fun s₂ h₂ hst₂ hnode₂ => ?_
  have hback : Node.setLinks { x with nlink := x.nlink + 1 }
    (fun a => { a with nlink := a.nlink - 1 })
      = x := by
    unfold Node.setLinks
    dsimp only
    rw [BitVec.add_sub_cancel]
  rw [hback, hnode₁] at hnode₂
  have hst₂ := hst₁.trans hst₂
  have h₂ : Inv H sb p c ((ip, j) ::ₘ own) (ip ::ₘ 0) ∅ s₂ := by
    refine Inv.settle (i := j) (by rwa [insert_empty_eq]) fun hh nd hnd h0 _ => ?_
    rw [hnode₂, update_self] at hnd
    cases hnd
    obtain ⟨a, ha, hai, hav⟩ := hheld hh h0
    obtain ⟨h₁, h₂⟩ := hst₂.entry ha
    exact ⟨a, hst₂.tables ▸ ha, h₁.trans hai, h₂ hav⟩
  refine h₂.wp_iunlockput hc fun s₃ h₃ hst₃ hfree₃ _ hH₃ _ => ?_
  rw [hnode₂] at hfree₃ hH₃
  exact wp_endOp (hQ s₃ h₃ (hst₂.trans hst₃) hfree₃ fun hh =>
    hH₃ hh fun hf => absurd hf (Set.notMem_empty _))

theorem Freed.restore {N N₁ N₂ : Nodes} (hfree : Freed N N₁) (hj : N₁ j = some x) {x' : Node}
    (hfree₂ : Freed (Function.update N₁ j (some x')) N₂) (hj₂ : N₂ j = some x') :
    Freed N (Function.update N₂ j (some x)) := by
  have := hfree₂.update hj₂ (some x)
  rw [update_idem, update_eq_self_iff.mpr hj.symm] at this
  exact hfree.trans this

end Link

theorem Rest.wp_sysLink (h : Rest H sb s) {old new : Option PathArg} :
    (sysLink p old new).wp (onAbs sb p) Mild s fun r s' =>
      Ends H sb s s' ∧ (r = -1 → Fail H False p s s') := by
  match old, new with
  | none, _ => exact h.wp_early
  | some _, none => exact h.wp_early
  | some old, some new =>
    unfold sysLink
    simp only [Prog.wp_bind]
    refine wp_beginOp ?_
    refine (h.inv p).wp_namei rfl (fun s₁ h₁ hst₁ hfree₁ hH₁ => ?_)
      fun ip j s₁ h₁ hst₁ hfree₁ hkeep₁ hH₁ => ?_
    · simp only [Prog.wp_bind]
      refine wp_endOp ⟨⟨fun _ => h.of_inv h₁ hst₁.tables, .freed hfree₁⟩, fun _ => ?_⟩
      exact ⟨by rw [hst₁.tables], fun hh _ => hH₁ hh, fun _ hc => hc.elim⟩
    have hm : (ip, j) ∈ (ip, j) ::ₘ cwdOwn s p := Multiset.mem_cons_self ..
    have hl : ip ∈ ip ::ₘ (0 : Multiset (Fin ninode)) := Multiset.mem_cons_self ..
    simp only [Prog.wp_bind]
    refine h₁.wp_ilock (.inl ⟨_, hm⟩) (h₁.num hm) fun s₂ x _ h₂ hst₂ hnode₂ hx => ?_
    have hst₂ := hst₁.trans hst₂
    have hx₂ : s₂.node j = some x := by rw [hnode₂, hx]
    refine h₂.wp_attr hl (h₂.num hm) hx₂ ?_
    split
    · simp only [Prog.wp_bind]
      refine h₂.wp_iunlockput (h.inv p).cwd fun s₃ h₃ hst₃ hfree₃ _ hH₃ _ => ?_
      rw [hnode₂] at hfree₃ hH₃
      have hst₃ := hst₂.trans hst₃
      refine wp_endOp ⟨⟨fun _ => h.of_inv h₃ hst₃.tables, .freed (hfree₁.trans hfree₃)⟩,
        fun _ => ?_⟩
      refine ⟨by rw [hst₃.tables], fun hh _ => ?_, fun _ hc => hc.elim⟩
      rw [hH₃ hh fun hf => absurd hf (Set.notMem_empty _), hH₁ hh]
    next hdir =>
    have hdir : x.type ≠ tDir := hdir
    have hxs : s.node j = some x := hfree₁.get hx
    simp only [Prog.wp_bind]
    -- the link is counted before the name is there
    refine h₂.wp_setLinks (f := fun a => { a with nlink := a.nlink + 1 })
      {m | m = j ∧ x.nlink = 0xffff} hl (h₂.num hm) hx₂
      (fun m _ hf => absurd hf (Set.notMem_empty m))
      (fun h0 => .inl ⟨rfl, by change x.nlink + 1 = 0 at h0; bv_omega⟩)
      fun s₃ h₃ hst₃ hnode₃ => ?_
    rw [hnode₂] at hnode₃
    change s₃.node = update s₁.node j (some { x with nlink := x.nlink + 1 }) at hnode₃
    refine h₃.wp_iunlock fun s₄ h₄ hst₄ hnode₄ _ => ?_
    rw [hnode₃] at hnode₄
    have hst₄ := (hst₂.trans hst₃).trans hst₄
    have hj₄ : s₄.node j = some { x with nlink := x.nlink + 1 } := by
      rw [hnode₄, update_self]
    have hfr : ∀ m ∈ ({m | m = j ∧ x.nlink = 0xffff} : Set ℕ),
        ∃ a, (a, m) ∈ (ip, j) ::ₘ cwdOwn s p := fun m hf => ⟨ip, hf.1 ▸ hm⟩
    have hheld : H → x.nlink = 0 → ∃ e, Anchored s.tables p (s.tables.proc p).cwd e ∧
        (s.entry e).inum = j ∧ (s.entry e).valid :=
      fun hh h0 => (h.inv p).held hh hxs h0 (Set.notMem_empty _)
    -- from here every failure goes through `bad`
    have hbad : ∀ t, Inv H sb p (s.tables.proc p).cwd ((ip, j) ::ₘ cwdOwn s p) 0
          {m | m = j ∧ x.nlink = 0xffff} t → Steady p (s.tables.proc p).cwd s t →
        Freed s₄.node t.node → t.node j = some { x with nlink := x.nlink + 1 } →
        (H → t.node = s₄.node) →
        (linkBad ip).wp (onAbs sb p) Mild t fun r s' =>
          Ends H sb s s' ∧ (r = -1 → Fail H False p s s') := by
      intro t ht hst hfree hj hH
      refine ht.wp_linkBad (fun m hf => hf.1) hj (h.inv p).cwd (fun hh h0 => ?_)
        fun s' hinv hst' hfree' hH' => ?_
      · obtain ⟨a, ha, hai, hav⟩ := hheld hh h0
        obtain ⟨hi, hv⟩ := hst.entry ha
        exact ⟨a, hst.tables ▸ ha, hi.trans hai, hv hav⟩
      have hst' := hst.trans hst'
      have hback := hfree₁.restore hx (hnode₄ ▸ hfree) hj
      refine ⟨⟨fun _ => h.of_inv hinv hst'.tables, .freed (hback.trans hfree')⟩, fun _ => ?_⟩
      refine ⟨by rw [hst'.tables], fun hh _ => ?_, fun _ hc => hc.elim⟩
      rw [hH' hh, hH hh, hnode₄, update_idem, update_eq_self_iff.mpr hx.symm,
        hH₁ hh]
    refine h₄.wp_namex (by rw [hst₄.tables]) hfr (fun s₅ h₅ hst₅ hfree₅ hkeep₅ hH₅ => ?_)
      fun dp i name s₅ h₅ hst₅ hfree₅ hkeep₅ hdir₅ hH₅ => ?_
    · exact hbad s₅ h₅ (hst₄.trans hst₅) hfree₅ ((hkeep₅ _ hm).trans hj₄) fun hh => (hH₅ hh).1
    have hst₅ := hst₄.trans hst₅
    have hj₅ : s₅.node j = some { x with nlink := x.nlink + 1 } := (hkeep₅ _ hm).trans hj₄
    obtain ⟨nd, hnd₅, ht⟩ := hdir₅ rfl
    have hij : i ≠ j := by
      rintro rfl
      rw [hnd₅] at hj₅
      cases hj₅
      exact hdir ht
    have hdm : (dp, i) ∈ (dp, i) ::ₘ (ip, j) ::ₘ cwdOwn s p := Multiset.mem_cons_self ..
    have him : (ip, j) ∈ (dp, i) ::ₘ (ip, j) ::ₘ cwdOwn s p := Multiset.mem_cons_of_mem hm
    have hdl : dp ∈ dp ::ₘ (0 : Multiset (Fin ninode)) := Multiset.mem_cons_self ..
    have hcw : (s.tables.proc p).cwd = some dp → ∃ i, (dp, i) ∈ (ip, j) ::ₘ cwdOwn s p := by
      intro hc
      obtain ⟨m, hm⟩ := (h.inv p).cwd hc
      exact ⟨m, Multiset.mem_cons_of_mem hm⟩
    simp only [Prog.wp_bind]
    refine h₅.wp_ilock (.inl ⟨_, hdm⟩) (h₅.num hdm) fun s₆ _ _ h₆ hst₆ hnode₆ _ => ?_
    have hst₆ := hst₅.trans hst₆
    have hnd₆ : s₆.node i = some nd := by rw [hnode₆, hnd₅]
    rw [linkEntry]
    simp only [Prog.wp_bind]
    refine h₆.wp_ident hdm ?_
    refine h₆.wp_ident him ?_
    rw [if_neg (not_not.mpr rfl)]
    refine h₆.wp_dirlink hdl hdm hnd₆ (h₂.node hx₂).lt
      (fun k s₇ _ _ h₇ hst₇ hfree₇ hkeep₇ hH₇ => ?_)
      fun k s₇ _ hdvd hno hv h₇ hst₇ hnode₇ => ?_
    · -- the name is taken
      rw [hnode₆] at hfree₇ hkeep₇ hH₇
      refine h₇.wp_iunlockput hcw fun s₈ h₈ hst₈ hfree₈ hkeep₈ hH₈ _ => ?_
      rw [if_pos (by decide)]
      refine hbad s₈ h₈ ((hst₆.trans hst₇).trans hst₈) ((hfree₅.trans hfree₇).trans hfree₈) ?_
        fun hh => ?_
      · rw [hkeep₈ _ hm, hkeep₇ _ him, hj₅]
      · rw [hH₈ hh fun hf => hfr i hf, hH₇ hh fun m hf => ⟨ip, hf.1 ▸ him⟩, (hH₅ hh).1]
    rw [hnode₆] at hnode₇
    refine h₇.wp_iunlockput hcw fun s₈ h₈ hst₈ hfree₈ hkeep₈ hH₈ _ => ?_
    rw [if_neg (by decide)]
    simp only [Prog.wp_bind]
    refine h₈.wp_iput (fun hl => absurd hl (Multiset.notMem_zero _)) (h.inv p).cwd
      fun s₉ h₉ hst₉ hfree₉ _ hH₉ _ => ?_
    have hst₉ := ((hst₆.trans hst₇).trans hst₈).trans hst₉
    refine wp_endOp ⟨⟨fun hsat => ?_, ?_⟩, fun hc => by cases hc⟩
    · refine h.of_inv ⟨h₉.uniq, h₉.lt, h₉.valid, h₉.clean, h₉.ref, h₉.num, h₉.owner, h₉.nodup,
        h₉.locked, h₉.cwd, h₉.closed, h₉.file, h₉.fileDir, h₉.node, fun hh _ _ hi h0 _ => ?_⟩
        hst₉.tables
      exact h₉.held hh hi h0 fun hf => hsat hh ⟨j, x, hxs, hf.2⟩
    have hlinked : Linked (update s₅.node j (some x)) s₇.node := by
      have := Linked.mk (N := update s₅.node j (some x)) (i := i) (j := j) (k := k)
        (x := x) (by rw [update_of_ne hij, hnd₅])
        (show Place nd name k from ⟨ht, hdvd, hno, hv⟩) (update_self ..) hdir
      have hself : update s₅.node j (some { x with nlink := x.nlink + 1 }) = s₅.node :=
        update_eq_self_iff.mpr hj₅.symm
      rw [update_idem, hself] at this
      rwa [hnode₇]
    refine .link (hfree₁.restore hx (hnode₄ ▸ hfree₅) hj₅) hlinked (hfree₈.trans hfree₉)
      fun hh => ⟨?_, ?_⟩
    · rw [(hH₅ hh).1, hnode₄, update_idem, update_eq_self_iff.mpr hx.symm,
        hH₁ hh]
    · by_cases hmax : x.nlink = 0xffff
      · exact .inr ⟨j, x, hxs, hmax⟩
      · left
        rw [hH₉ hh fun hf => absurd hf.2 hmax, hH₈ hh fun hf => hfr i hf]

/-! ### `sys_unlink` -/

section Unlink

variable {dp ip : Fin ninode} {j k : ℕ} {x : Node}

/-- A directory has no entries but its first two. -/
def Bare (nd : Node) : Prop :=
  ∀ m, 2 ≤ m → m < slots nd.data → (dirent nd.data m).inum.toNat = 0

theorem Inv.wp_isdiremptyLoop (h : Inv H sb p c own lk fresh s) (hl : ip ∈ lk)
    (hnum : (s.entry ip).inum = j) (hj : s.node j = some x) {Q : Bool → Abs → Prop}
    (htrue : Bare x → Q true s) (hfalse : Q false s) (fuel k : ℕ)
    (hfuel : slots x.data < k + fuel)
    (hb : ∀ m, 2 ≤ m → m < k → (dirent x.data m).inum.toNat = 0) :
    (isdiremptyLoop ip x.data.length fuel (direntSize * k)).wp (onAbs sb p) Mild s Q := by
  induction fuel generalizing k with
  | zero => exact htrue fun m htwo hlt => hb m htwo (by omega)
  | succ fuel ih =>
    rw [isdiremptyLoop]
    split
    · next hlt =>
      rw [Prog.wp_bind]
      refine h.wp_readi hl hnum hj (by decide) ?_
      split
      · exact wp_fsPanic (.of_mild rfl)
      rename_i hr
      obtain ⟨hks, hde⟩ := Node.read_entry (h.node hj).size hlt (not_not.mp hr)
      rw [hde]
      split
      · exact hfalse
      rename_i h0
      refine ih (k + 1) (by omega) fun m htwo hlt => ?_
      obtain rfl | hlt := Nat.eq_or_lt_of_le (Nat.le_of_lt_succ hlt)
      · rw [not_not.mp h0]
        rfl
      · exact hb m htwo hlt
    · next hend =>
      refine htrue fun m htwo hlt => hb m htwo ?_
      have hle : slots x.data ≤ k := Nat.div_le_of_le_mul (Nat.le_of_not_lt hend)
      omega

/-- `sys_unlink` goes on only if it removes a file, or a directory with no entries but its
first two. -/
theorem Inv.wp_unlinkBusy (h : Inv H sb p c own lk fresh s) (hl : ip ∈ lk)
    (hnum : (s.entry ip).inum = j) (hj : s.node j = some x) {Q : Bool → Abs → Prop}
    (hfree : (x.type = tDir → Bare x) → Q false s) (hbusy : Q true s) :
    (unlinkBusy ip x.type).wp (onAbs sb p) Mild s Q := by
  rw [unlinkBusy]
  split
  · rw [Prog.wp_bind, isdirempty, Prog.wp_bind]
    refine h.wp_attr hl hnum hj ?_
    refine h.wp_isdiremptyLoop hl hnum hj (fun hb => hfree fun _ => hb) hbusy _ 2 ?_
      fun m htwo hlt => absurd hlt (by omega)
    show slots x.data < 2 + (slots x.data + 1)
    omega
  · next ht => exact hfree fun hc => absurd hc ht

theorem Rest.wp_unlinkBad (h : Rest H sb s) {t : Abs}
    (hinv : Inv H sb p (s.tables.proc p).cwd ((dp, i) ::ₘ cwdOwn s p) (dp ::ₘ 0) ∅ t)
    (hst : Steady p (s.tables.proc p).cwd s t) (hfree : Freed s.node t.node)
    (hH : H → t.node = s.node) :
    (unlinkBad dp).wp (onAbs sb p) Mild t fun r s' =>
      Ends H sb s s' ∧ (r = -1 → Fail H False p s s') := by
  rw [unlinkBad]
  simp only [Prog.wp_bind]
  refine hinv.wp_iunlockput (h.inv p).cwd fun s₁ h₁ hst₁ hfree₁ _ hH₁ _ => ?_
  have hst₁ := hst.trans hst₁
  refine wp_endOp ⟨⟨fun _ => h.of_inv h₁ hst₁.tables, .freed (hfree.trans hfree₁)⟩, fun _ => ?_⟩
  refine ⟨by rw [hst₁.tables], fun hh _ => ?_, fun _ hc => hc.elim⟩
  rw [hH₁ hh fun hf => absurd hf (Set.notMem_empty _), hH hh]

/-- The parent of what is removed, when `sys_unlink` is done with it. -/
def unlinkedParent (nd x : Node) (k : ℕ) : Node :=
  { nd.setEntry k zeroEntry with nlink := if x.type = tDir then nd.nlink - 1 else nd.nlink }

theorem Inv.wp_unlinkParent (h : Inv H sb p c own lk ∅ s) (hl : dp ∈ lk)
    (hnum : (s.entry dp).inum = i) (hi : s.node i = some (nd.setEntry k zeroEntry))
    {Q : Unit → Abs → Prop}
    (hQ : ∀ s', Inv H sb p c own lk (insert i ∅) s' → Steady p c s s' →
      s'.node = update s.node i (some (unlinkedParent nd x k)) → Q () s') :
    (unlinkParent dp x.type).wp (onAbs sb p) Mild s Q := by
  rw [unlinkParent]
  split
  · next ht =>
    rw [Prog.wp_bind]
    refine h.wp_setLinks (f := fun a => { a with nlink := a.nlink - 1 }) _ hl hnum hi
      (fun m _ hm => absurd hm (Set.notMem_empty m)) (fun _ => .inl (Set.mem_insert ..))
      fun s' hinv hst hnode => hQ s' hinv hst ?_
    rw [hnode, unlinkedParent, if_pos ht]
    rfl
  · next ht =>
    refine hQ s (h.mono _ (Set.empty_subset _)) (.refl ..) ?_
    rw [unlinkedParent, if_neg ht]
    exact (update_eq_self_iff.mpr hi.symm).symm

/-- `sys_unlink` from the point where nothing can fail. -/
theorem Inv.wp_unlinkEntry (h : Inv H sb p c ((ip, j) ::ₘ (dp, i) ::ₘ own) (ip ::ₘ dp ::ₘ 0) ∅ s)
    (hcw : ∀ {e}, c = some e → ∃ i, (e, i) ∈ own) (hown : ∀ {e i}, (e, i) ∈ own → c = some e)
    (hi : s.node i = some nd) (ht : nd.type = tDir) (hk : k < slots nd.data)
    (hj : s.node j = some x) (hij : i ≠ j) (hpi : ip ≠ dp) {Q : ℤ → Abs → Prop}
    (hQ : ∀ s', Inv H sb p c own 0 ∅ s' → Steady p c s s' →
      Freed (update (update s.node i (some (unlinkedParent nd x k))) j
        (some { x with nlink := x.nlink - 1 })) s'.node → Q 0 s') :
    (unlinkEntry dp ip (direntSize * k) x.type).wp (onAbs sb p) Mild s Q := by
  have him : (ip, j) ∈ (ip, j) ::ₘ (dp, i) ::ₘ own := Multiset.mem_cons_self ..
  have hdm : (dp, i) ∈ (ip, j) ::ₘ (dp, i) ::ₘ own :=
    Multiset.mem_cons_of_mem (Multiset.mem_cons_self ..)
  have hdl : dp ∈ ip ::ₘ dp ::ₘ (0 : Multiset (Fin ninode)) :=
    Multiset.mem_cons_of_mem (Multiset.mem_cons_self ..)
  have hlen : zeroEntry.name.length = dirsiz := List.length_replicate
  rw [unlinkEntry, Prog.wp_bind, ← zeroEntry_bytes]
  obtain hw | hw := Node.write_entry hlen (h.node hi).size (Nat.le_of_lt hk)
  · -- a short write of the empty entry is a panic
    refine h.wp_writei hdl (h.num hdm) hi (by decide) (fun _ => ?_) fun s₁ _ _ _ => ?_
    · rw [hw]
      exact (h.node hi).dir ht
    · rw [hw]
      exact wp_fsPanic (.of_mild rfl)
  refine h.wp_writei hdl (h.num hdm) hi (by decide) (fun _ => ?_) fun s₁ h₁ hst₁ hnode₁ => ?_
  · rw [hw]
    have hpos : zeroEntry.inum.toNat < sb.ninodes := Nat.lt_trans Nat.one_pos sb.root_lt
    exact ((h.node hi).dir ht).setDirent hlen (Nat.le_of_lt hk) hpos
  rw [hw] at hnode₁ ⊢
  rw [if_neg (not_not.mpr rfl)]
  simp only [Prog.wp_bind]
  have hnd₁ : s₁.node i = some (nd.setEntry k zeroEntry) := by
    rw [hnode₁, update_self]
    rfl
  refine h₁.wp_unlinkParent hdl (h₁.num hdm) hnd₁ fun s₂ h₂ hst₂ hnode₂ => ?_
  rw [hnode₁, update_idem] at hnode₂
  have hst₂ := hst₁.trans hst₂
  rw [Multiset.cons_swap (ip, j), Multiset.cons_swap ip] at h₂
  -- the parent is done with, then the inode itself
  refine h₂.wp_iunlockput_settle (fun hc => ?_) (fun {m} hm => ?_)
    fun s₃ h₃ hst₃ hfree₃ hkeep₃ => ?_
  · obtain ⟨m, hm⟩ := hcw hc
    exact ⟨m, Multiset.mem_cons_of_mem hm⟩
  · obtain heq | hm := Multiset.mem_cons.mp hm
    · exact absurd (Prod.mk.inj heq).1.symm hpi
    · exact hown hm
  have hst₃ := hst₂.trans hst₃
  have him₃ : (ip, j) ∈ (ip, j) ::ₘ own := Multiset.mem_cons_self ..
  have hil₃ : ip ∈ ip ::ₘ (0 : Multiset (Fin ninode)) := Multiset.mem_cons_self ..
  have hj₃ : s₃.node j = some x := by
    rw [hkeep₃ _ him₃, hnode₂, update_of_ne hij.symm, hj]
  refine h₃.wp_setLinks (f := fun a => { a with nlink := a.nlink - 1 }) (insert j ∅) hil₃
    (h₃.num him₃) hj₃ (fun m _ hm => absurd hm (Set.notMem_empty m))
    (fun _ => .inl (Set.mem_insert ..)) fun s₄ h₄ hst₄ hnode₄ => ?_
  change s₄.node = update s₃.node j (some { x with nlink := x.nlink - 1 }) at hnode₄
  refine h₄.wp_iunlockput_settle hcw hown fun s₅ h₅ hst₅ hfree₅ _ => ?_
  refine wp_endOp (hQ s₅ h₅ ((hst₃.trans hst₄).trans hst₅) (Freed.trans ?_ hfree₅))
  rw [hnode₄, ← hnode₂]
  exact hfree₃.update hj₃ _

end Unlink

theorem Rest.wp_sysUnlink (h : Rest H sb s) :
    (sysUnlink p path).wp (onAbs sb p) Mild s fun r s' =>
      Ends H sb s s' ∧ (r = -1 → Fail H False p s s') := by
  cases path with
  | none => exact h.wp_early
  | some path =>
    unfold sysUnlink
    simp only [Prog.wp_bind]
    refine wp_beginOp ?_
    refine (h.inv p).wp_namex rfl (fun m hm => absurd hm (Set.notMem_empty m))
      (fun s₁ h₁ hst₁ hfree₁ _ hH₁ => ?_) fun dp i name s₁ h₁ hst₁ hfree₁ _ hdir₁ hH₁ => ?_
    · simp only [Prog.wp_bind]
      refine wp_endOp ⟨⟨fun _ => h.of_inv h₁ hst₁.tables, .freed hfree₁⟩, fun _ => ?_⟩
      exact ⟨by rw [hst₁.tables], fun hh _ => (hH₁ hh).1, fun _ hc => hc.elim⟩
    obtain ⟨nd, hnd₁, ht⟩ := hdir₁ rfl
    have hdm : (dp, i) ∈ (dp, i) ::ₘ cwdOwn s p := Multiset.mem_cons_self ..
    have hdl : dp ∈ dp ::ₘ (0 : Multiset (Fin ninode)) := Multiset.mem_cons_self ..
    simp only [Prog.wp_bind]
    refine h₁.wp_ilock (.inl ⟨_, hdm⟩) (h₁.num hdm) fun s₂ _ _ h₂ hst₂ hnode₂ _ => ?_
    have hst₂ := hst₁.trans hst₂
    have hfree₂ : Freed s.node s₂.node := hnode₂ ▸ hfree₁
    have hH₂ : H → s₂.node = s.node := fun hh => hnode₂.trans (hH₁ hh).1
    have hnd₂ : s₂.node i = some nd := by rw [hnode₂, hnd₁]
    split
    · exact h.wp_unlinkBad h₂ hst₂ hfree₂ hH₂
    next hdots =>
    obtain ⟨hdot, hdotdot⟩ := not_or.mp hdots
    rw [namecmp_eq_zero] at hdot hdotdot
    rw [Prog.wp_bind]
    refine h₂.wp_dirlookup hdl hdm hnd₂ (fun _ _ _ => ?_) fun k ip s₃ _ hk h₃ hst₃ hnode₃ => ?_
    · exact h.wp_unlinkBad h₂ hst₂ hfree₂ hH₂
    have him : (ip, (dirent nd.data k).inum.toNat)
        ∈ (ip, (dirent nd.data k).inum.toNat) ::ₘ (dp, i) ::ₘ cwdOwn s p :=
        Multiset.mem_cons_self ..
    have hst₃ := hst₂.trans hst₃
    simp only [Prog.wp_bind]
    refine h₃.wp_ilock (.inl ⟨_, him⟩) (h₃.num him) fun s₄ x hne h₄ hst₄ hnode₄ hx => ?_
    have hil : ip ∈ ip ::ₘ dp ::ₘ (0 : Multiset (Fin ninode)) := Multiset.mem_cons_self ..
    have hst₄ := hst₃.trans hst₄
    have hnode₄ : s₄.node = s₂.node := hnode₄.trans hnode₃
    rw [hnode₃] at hx
    have hx₄ : s₄.node (dirent nd.data k).inum.toNat = some x := by rw [hnode₄, hx]
    refine h₄.wp_attr hil (h₄.num him) hx₄ ?_
    split
    · exact wp_fsPanic (.of_mild rfl)
    next hlink =>
    rw [Prog.wp_bind]
    refine h₄.wp_unlinkBusy hil (h₄.num him) hx₄ (fun hbare => ?_) ?_
    · -- the name is removed
      have hpi : ip ≠ dp := fun heq => hne (heq ▸ hdl)
      have hij : i ≠ (dirent nd.data k).inum.toNat := fun heq =>
        hpi (h₄.eq_of_mem him (heq ▸ Multiset.mem_cons_of_mem hdm))
      refine h₄.wp_unlinkEntry (h.inv p).cwd cwd_of_mem_cwdOwn (by rw [hnode₄, hnd₂]) ht
        (lookup_some hk).1 hx₄ hij hpi fun s₅ h₅ hst₅ hfree₅ => ?_
      have hst₅ := hst₄.trans hst₅
      rw [hnode₄] at hfree₅
      refine ⟨⟨fun _ => h.of_inv h₅ hst₅.tables, ?_⟩, fun hc => by cases hc⟩
      refine .unlink hfree₂ ?_ hfree₅ hH₂
      exact .mk hnd₂ ht hk ⟨hdot, hdotdot⟩ rfl hx hij (not_lt.mp hlink) hbare
    · simp only [if_true, Prog.wp_bind]
      refine h₄.wp_iunlockput (fun hc => ?_) fun s₅ h₅ hst₅ hfree₅ _ hH₅ _ => ?_
      · obtain ⟨m, hm⟩ := (h.inv p).cwd hc
        exact ⟨m, Multiset.mem_cons_of_mem hm⟩
      rw [hnode₄] at hfree₅ hH₅
      refine h.wp_unlinkBad h₅ (hst₄.trans hst₅) (hfree₂.trans hfree₅) fun hh => ?_
      rw [hH₅ hh fun hf => absurd hf (Set.notMem_empty _), hH₂ hh]

end Xv6.Fs
