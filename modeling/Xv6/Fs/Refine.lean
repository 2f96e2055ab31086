import Xv6.Fs.Contents

/-!
# The inode layer does what it is for

The code of the inode layer, run on a structured disk, refines the abstract operations.

## Main definitions

* `Sim` — a structured disk and an abstract state that agree.

## Main results

* `inode_refines` — every operation of the inode layer keeps the agreement, unless the
  caller breaks a rule or the disk is full.
* `inode_exact` — but for writes, no disk is too full.
-/

namespace Xv6.Fs

open Function

/-- A structured disk and an abstract state agree.  `D` has the inodes as they are now: the
disk may lag behind for those that are dirty. -/
structure Sim (sb : Super) (D : ℕ → Dinode) (s : Store) (t : Abs) : Prop where
  blocks : BlockInv sb s.bit s.blk D
  tables : t.tables = s.mem.tables
  node : ∀ i, t.node i = if Used sb D i then some (nodeOf s.blk (D i)) else none
  inum : ∀ e, (t.entry e).inum = (s.mem.inode e).inum
  ref : ∀ e, (t.entry e).ref = (s.mem.inode e).ref
  owner : ∀ e, (t.entry e).owner = (s.mem.inode e).owner
  valid : ∀ e, (t.entry e).valid = (s.mem.inode e).valid
  live : ∀ e, 0 < (t.entry e).ref →
    (s.mem.inode e).dev = rootdev.toNat ∧ (t.entry e).inum < sb.ninodes
  uniq : ∀ e e', 0 < (t.entry e).ref → 0 < (t.entry e').ref →
    (t.entry e).inum = (t.entry e').inum → e = e'
  copy : ∀ e, 0 < (t.entry e).ref → (t.entry e).valid →
    (s.mem.inode e).d = D (t.entry e).inum ∧ (D (t.entry e).inum).type ≠ 0
  disk : ∀ i, i < sb.ninodes → s.dinode i = D i ∨
    (s.dinode i).type = (D i).type ∧
      ∃ e, 0 < (t.entry e).ref ∧ (t.entry e).valid ∧ (t.entry e).inum = i ∧ (t.entry e).dirty

/-- The two agree for some contents of the inodes. -/
def Agree (sb : Super) (s : Store) (t : Abs) : Prop := ∃ D, Sim sb D s t

/-- The refinement of the structured disk by abstract states: the only panic with no
counterpart is that of a full disk. -/
abbrev InodeRefines (sb : Super) {α : Type} (x : Outcome (Option Panic) (α × Store))
    (y : Outcome (Option Panic) (α × Abs)) : Prop :=
  Refines (· = some .outOfBlocks) id (· = none) (Agree sb) x y

/-- The refinement in which every panic has a counterpart. -/
abbrev ExactRefines (sb : Super) {α : Type} (x : Outcome (Option Panic) (α × Store))
    (y : Outcome (Option Panic) (α × Abs)) : Prop :=
  Refines (fun _ => False) id (· = none) (Agree sb) x y

/-- The two agree, and the blocks are those of `s₀`. -/
structure Keeps (sb : Super) (D : ℕ → Dinode) (s₀ s : Store) (t : Abs) : Prop where
  sim : Sim sb D s t
  bit : s.bit = s₀.bit
  blk : s.blk = s₀.blk

/-- The refinement by operations that leave all blocks alone. -/
abbrev KeepRefines (sb : Super) (D : ℕ → Dinode) (s : Store) {α : Type}
    (x : Outcome (Option Panic) (α × Store)) (y : Outcome (Option Panic) (α × Abs)) : Prop :=
  Refines (fun _ => False) id (· = none) (Keeps sb D s) x y

variable {sb : Super} {D : ℕ → Dinode} {s : Store} {t : Abs} {e : Fin ninode} {p : Pid} {nd : Node}
  {α β : Type} {A : Option Panic → Prop} {i off n : ℕ}

theorem KeepRefines.exactRefines {x : Outcome (Option Panic) (α × Store)}
    {y : Outcome (Option Panic) (α × Abs)} (h : KeepRefines sb D s x y) : ExactRefines sb x y :=
  h.mono (fun _ hf => hf) fun _ _ hk => ⟨D, hk.sim⟩

theorem ExactRefines.inodeRefines {x : Outcome (Option Panic) (α × Store)}
    {y : Outcome (Option Panic) (α × Abs)} (h : ExactRefines sb x y) : InodeRefines sb x y :=
  h.mono (fun _ hf => hf.elim) fun _ _ hag => hag

section Fields

variable {f : Inode → Inode}

@[simp] theorem setInode_self (m : Mem) : (m.setInode e f).inode e = f (m.inode e) :=
  update_self ..

theorem setInode_of_ne (m : Mem) {e' : Fin ninode} (h : e' ≠ e) :
    (m.setInode e f).inode e' = m.inode e' := update_of_ne h ..

end Fields

/-! ### Changing an entry of the inode table -/

/-- An assignment to one entry keeps the agreement, if what is assigned agrees. -/
theorem Sim.assign {f : Inode → Inode} {g : Entry → Entry} (h : Sim sb D s t)
    (hinum : (g (t.entry e)).inum = (f (s.mem.inode e)).inum)
    (href : (g (t.entry e)).ref = (f (s.mem.inode e)).ref)
    (howner : (g (t.entry e)).owner = (f (s.mem.inode e)).owner)
    (hvalid : (g (t.entry e)).valid = (f (s.mem.inode e)).valid)
    (hlive : 0 < (g (t.entry e)).ref →
      (f (s.mem.inode e)).dev = rootdev.toNat ∧ (g (t.entry e)).inum < sb.ninodes)
    (huniq : 0 < (g (t.entry e)).ref → ∀ a, a ≠ e → 0 < (t.entry a).ref →
      (t.entry a).inum ≠ (g (t.entry e)).inum)
    (hcopy : 0 < (g (t.entry e)).ref → (g (t.entry e)).valid →
      (f (s.mem.inode e)).d = D (g (t.entry e)).inum ∧ (D (g (t.entry e)).inum).type ≠ 0)
    (hdirty : 0 < (t.entry e).ref → (t.entry e).valid → (t.entry e).dirty →
      0 < (g (t.entry e)).ref ∧ (g (t.entry e)).valid ∧
        (g (t.entry e)).inum = (t.entry e).inum ∧ (g (t.entry e)).dirty) :
    Sim sb D { s with mem := s.mem.setInode e f } (t.setEntry e g) := by
  -- at `e` by the hypotheses, at the other entries as before
  refine ⟨h.blocks, h.tables, h.node, fun a => ?_, fun a => ?_, fun a => ?_, fun a => ?_,
    fun a ha => ?_, fun a b ha hb hab => ?_, fun a ha hv => ?_, fun i hi => ?_⟩
  · by_cases hae : a = e
    · subst hae
      rw [setEntry_self, setInode_self, hinum]
    · rw [setEntry_of_ne hae, setInode_of_ne _ hae, h.inum]
  · by_cases hae : a = e
    · subst hae
      rw [setEntry_self, setInode_self, href]
    · rw [setEntry_of_ne hae, setInode_of_ne _ hae, h.ref]
  · by_cases hae : a = e
    · subst hae
      rw [setEntry_self, setInode_self, howner]
    · rw [setEntry_of_ne hae, setInode_of_ne _ hae, h.owner]
  · by_cases hae : a = e
    · subst hae
      rw [setEntry_self, setInode_self, hvalid]
    · rw [setEntry_of_ne hae, setInode_of_ne _ hae, h.valid]
  · by_cases hae : a = e
    · subst hae
      rw [setEntry_self] at ha ⊢
      rw [setInode_self]
      exact hlive ha
    · rw [setEntry_of_ne hae] at ha ⊢
      rw [setInode_of_ne _ hae]
      exact h.live a ha
  · by_cases hae : a = e
    · by_cases hbe : b = e
      · rw [hae, hbe]
      · rw [hae, setEntry_self] at ha hab
        rw [setEntry_of_ne hbe] at hb hab
        exact absurd hab.symm (huniq ha b hbe hb)
    · rw [setEntry_of_ne hae] at ha hab
      by_cases hbe : b = e
      · rw [hbe, setEntry_self] at hb hab
        exact absurd hab (huniq hb a hae ha)
      · rw [setEntry_of_ne hbe] at hb hab
        exact h.uniq a b ha hb hab
  · by_cases hae : a = e
    · subst hae
      rw [setEntry_self] at ha hv ⊢
      rw [setInode_self]
      exact hcopy ha hv
    · rw [setEntry_of_ne hae] at ha hv ⊢
      rw [setInode_of_ne _ hae]
      exact h.copy a ha hv
  · -- a node ahead of its dinode keeps its dirty entry
    obtain hd | ⟨ht, a, ha, hv, hia, hda⟩ := h.disk i hi
    · exact .inl hd
    refine .inr ⟨ht, a, ?_⟩
    by_cases hae : a = e
    · subst hae
      rw [setEntry_self]
      obtain ⟨h₁, h₂, h₃, h₄⟩ := hdirty ha hv hda
      exact ⟨h₁, h₂, h₃.trans hia, h₄⟩
    · rw [setEntry_of_ne hae]
      exact ⟨ha, hv, hia, hda⟩

theorem Sim.setEntry {f : Inode → Inode} {g : Entry → Entry} (h : Sim sb D s t)
    (hsame : (f (s.mem.inode e)).dev = (s.mem.inode e).dev ∧
      (f (s.mem.inode e)).inum = (s.mem.inode e).inum ∧ (f (s.mem.inode e)).d = (s.mem.inode e).d)
    (hinum : (g (t.entry e)).inum = (t.entry e).inum)
    (href : (g (t.entry e)).ref = (f (s.mem.inode e)).ref)
    (howner : (g (t.entry e)).owner = (f (s.mem.inode e)).owner)
    (hvalid : (g (t.entry e)).valid = (f (s.mem.inode e)).valid)
    (hlive : 0 < (t.entry e).ref)
    (hcopy : (g (t.entry e)).valid → (t.entry e).valid)
    (hdirty : (t.entry e).valid → (t.entry e).dirty →
      0 < (g (t.entry e)).ref ∧ (g (t.entry e)).valid ∧ (g (t.entry e)).dirty) :
    Sim sb D { s with mem := s.mem.setInode e f } (t.setEntry e g) := by
  refine h.assign (by rw [hinum, hsame.2.1, h.inum]) href howner hvalid (fun _ => ?_)
    (fun _ a hae ha => ?_) (fun _ hv => ?_) fun _ hv hd => ?_
  · rw [hsame.1, hinum]
    exact h.live e hlive
  · rw [hinum]
    exact fun heq => hae (h.uniq a e ha hlive heq)
  · rw [hsame.2.2, hinum]
    exact h.copy e hlive (hcopy hv)
  · obtain ⟨h₁, h₂, h₃⟩ := hdirty hv hd
    exact ⟨h₁, h₂, hinum, h₃⟩

/-! ### Changing a node -/

/-- The copy of an inode that has been read is its current contents. -/
theorem Sim.holds (h : Sim sb D s t) (href : 0 < (t.entry e).ref) (hvalid : (t.entry e).valid) :
    Holds sb D e (t.entry e).inum s :=
  ⟨h.blocks, ⟨(h.live e href).2, (h.copy e href hvalid).2⟩, (h.copy e href hvalid).1⟩

theorem Sim.node_eq (h : Sim sb D s t) (hn : t.node i = some nd) :
    Used sb D i ∧ nd = nodeOf s.blk (D i) := by
  rw [h.node] at hn
  split at hn
  · next hu => exact ⟨hu, (Option.some.inj hn).symm⟩
  · exact nomatch hn

/-- **Changing the inode of an entry.**  The new contents are written back, or the entry is
marked dirty. -/
theorem Sim.change (h : Sim sb D s t) (bit' : ℕ → Bool) (blk' : ℕ → Block) (d' : Dinode)
    (dinode' : ℕ → Dinode) (δ : Bool) (href : 0 < (t.entry e).ref) (hvalid : (t.entry e).valid)
    (hinv : BlockInv sb bit' blk' (update D (t.entry e).inum d'))
    (ht : d'.type = (D (t.entry e).inum).type)
    (hother : ∀ j, j ≠ (t.entry e).inum → Used sb D j →
      fileData blk' (D j) = fileData s.blk (D j))
    (hdisk : dinode' = update s.dinode (t.entry e).inum d' ∨
      δ = true ∧ dinode' = s.dinode) :
    Sim sb (update D (t.entry e).inum d') { s.put e bit' blk' d' with dinode := dinode' }
      ((t.setNode (t.entry e).inum (some (nodeOf blk' d'))).setEntry e
        fun x => { x with dirty := δ }) := by
  have hused : ∀ j, Used sb (update D (t.entry e).inum d') j ↔ Used sb D j :=
    used_update (by rw [ht])
  obtain ⟨hcopy, htype⟩ := h.copy e href hvalid
  have hu : Used sb D (t.entry e).inum := ⟨(h.live e href).2, htype⟩
  -- apart from the flag, the table has not changed
  have hent : ∀ a, ((t.setNode (t.entry e).inum (some (nodeOf blk' d'))).setEntry e
      fun x => { x with dirty := δ }).entry a = { t.entry a with
        dirty := if a = e then δ else (t.entry a).dirty } := by
    intro a
    by_cases hae : a = e
    · subst hae
      rw [setEntry_self, setNode_entry, if_pos rfl]
    · rw [setEntry_of_ne hae, setNode_entry, if_neg hae]
  have hino : ∀ a, (s.put e bit' blk' d').mem.inode a = { s.mem.inode a with
      d := if a = e then d' else (s.mem.inode a).d } := by
    intro a
    by_cases hae : a = e
    · subst hae
      rw [put_inode, if_pos rfl]
    · rw [Store.put, setInode_of_ne _ hae, if_neg hae]
  refine ⟨hinv, h.tables, fun i => ?_, fun a => ?_, fun a => ?_, fun a => ?_, fun a => ?_,
    fun a ha => ?_, fun a b ha hb hab => ?_, fun a ha hv => ?_, fun i hi => ?_⟩
  · rw [setEntry_node, setNode_node]
    by_cases hi : i = (t.entry e).inum
    · rw [hi, update_self, if_pos ((hused _).mpr hu), update_self]
      rfl
    · rw [update_of_ne hi, h.node, update_of_ne hi]
      by_cases hui : Used sb D i
      · rw [if_pos hui, if_pos ((hused i).mpr hui), nodeOf, nodeOf, ← hother i hi hui]
        rfl
      · rw [if_neg hui, if_neg (mt (hused i).mp hui)]
  · rw [hent, hino]
    exact h.inum a
  · rw [hent, hino]
    exact h.ref a
  · rw [hent, hino]
    exact h.owner a
  · rw [hent, hino]
    exact h.valid a
  · rw [hent] at ha ⊢
    rw [hino]
    exact h.live a ha
  · rw [hent] at ha
    rw [hent] at hb
    rw [hent, hent] at hab
    exact h.uniq a b ha hb hab
  · rw [hent] at ha hv ⊢
    rw [hino]
    by_cases hae : a = e
    · subst hae
      rw [if_pos rfl]
      dsimp only
      rw [update_self]
      exact ⟨rfl, ht ▸ htype⟩
    · have hne : (t.entry a).inum ≠ (t.entry e).inum := fun heq => hae (h.uniq a e ha href heq)
      rw [if_neg hae]
      dsimp only
      rw [update_of_ne hne]
      exact h.copy a ha hv
  · by_cases hie : i = (t.entry e).inum
    · subst hie
      obtain rfl | ⟨hδ, rfl⟩ := hdisk
      · left
        dsimp only
        rw [update_self, update_self]
      right
      refine ⟨?_, e, ?_⟩
      · rw [update_self, ht]
        obtain hd | hd := h.disk _ hi
        · dsimp only
          rw [hd]
        · exact hd.1
      · rw [hent, if_pos rfl]
        exact ⟨href, hvalid, rfl, hδ⟩
    · have hsame : dinode' i = s.dinode i := by
        obtain rfl | ⟨-, rfl⟩ := hdisk
        · rw [update_of_ne hie]
        · rfl
      dsimp only
      rw [update_of_ne hie, hsame]
      obtain hd | ⟨hty, a, ha, hv, hia, hda⟩ := h.disk i hi
      · exact .inl hd
      · refine .inr ⟨hty, a, ?_⟩
        have hae : a ≠ e := fun heq => hie (by rw [← hia, heq])
        rw [hent, if_neg hae]
        exact ⟨ha, hv, hia, hda⟩

/-! ### The operations -/

/-- `iget` finds the same entry in the inode table as in the abstract one. -/
theorem iget_refines {inum : ℕ} (h : Sim sb D s t) (hi : inum < sb.ninodes) :
    ExactRefines sb ((iget rootdev.toNat inum).exec (checked sb) s) (t.iget inum) := by
  rw [iget, onMem, Prog.exec_call, checked_mem, igetMem, Abs.iget]
  have hfind : ((List.finRange ninode).find? fun e => 0 < (s.mem.inode e).ref &&
        (s.mem.inode e).dev == rootdev.toNat && (s.mem.inode e).inum == inum)
      = (List.finRange ninode).find? fun e => 0 < (t.entry e).ref && (t.entry e).inum == inum := by
    refine List.find?_congr fun e _ => ?_
    rw [h.ref, h.inum]
    by_cases href : 0 < (s.mem.inode e).ref
    · have hdev := (h.live e (by rw [h.ref]; exact href)).1
      simp [hdev]
    · simp [href]
  have hfree : ((List.finRange ninode).find? fun e => (s.mem.inode e).ref == 0)
      = (List.finRange ninode).find? fun e => (t.entry e).ref == 0 := by
    simp only [h.ref]
  rw [hfind, hfree]
  cases hf : (List.finRange ninode).find? fun e =>
      0 < (t.entry e).ref && (t.entry e).inum == inum with
  | some e =>
    have hp := List.find?_some hf
    rw [Bool.and_eq_true, decide_eq_true_iff] at hp
    refine .ok ⟨D, ?_⟩
    dsimp only
    refine h.setEntry ⟨rfl, rfl, rfl⟩ rfl ?_ (h.owner e) (h.valid e) hp.1 id fun hv hd => ?_
    · rw [h.ref]
    · exact ⟨by have := hp.1; dsimp only; omega, hv, hd⟩
  | none =>
    cases hz : (List.finRange ninode).find? fun e => (t.entry e).ref == 0 with
    | none => exact .panic rfl
    | some e =>
      have hzero := List.find?_some hz
      rw [beq_iff_eq] at hzero
      refine .ok ⟨D, ?_⟩
      dsimp only
      refine h.assign rfl rfl (h.owner e) rfl (fun _ => ⟨rfl, hi⟩) (fun _ a _ ha heq => ?_)
        (fun _ hv => nomatch hv) fun href => absurd href (by omega)
      -- no entry in use has the number, or it would have been found
      have hnone := List.find?_eq_none.mp hf a (List.mem_finRange a)
      rw [Bool.and_eq_true, decide_eq_true_iff, beq_iff_eq] at hnone
      exact hnone ⟨ha, heq⟩

theorem idup_refines (h : Sim sb D s t) :
    ExactRefines sb ((inodeImpl sb p (.idup e)).exec (checked sb) s) (onAbs sb p (.idup e) t) := by
  by_cases href : 0 < (t.entry e).ref
  · rw [onAbs, if_pos href]
    refine .ok ⟨D, ?_⟩
    dsimp only
    refine h.setEntry ⟨rfl, rfl, rfl⟩ rfl ?_ (h.owner e) (h.valid e) href id fun hv hd => ?_
    · rw [h.ref]
    · exact ⟨by dsimp only; omega, hv, hd⟩
  · exact .inl ⟨none, rfl, if_neg href⟩

theorem setInode_setInode (m : Mem) (f g : Inode → Inode) :
    (m.setInode e f).setInode e g = m.setInode e fun ip => g (f ip) := by
  unfold Mem.setInode
  simp only [update_self, update_idem]

theorem wp_acquiresleep {Q : Unit → Store → Prop} :
    (acquiresleep p e).wp (checked sb) A s Q ↔ ((s.mem.inode e).owner = none →
      Q () { s with mem := s.mem.setInode e fun ip => { ip with owner := some p } }) := by
  rw [acquiresleep, onMem, Prog.wp_call, checked_mem]
  by_cases h : (s.mem.inode e).owner = none
  · rw [if_pos h]
    exact ⟨fun hq _ => hq, fun hq => hq h⟩
  · rw [if_neg h]
    exact ⟨fun _ h' => absurd h' h, fun _ => trivial⟩

theorem ilock_refines (h : Sim sb D s t) :
    KeepRefines sb D s ((inodeImpl sb p (.ilock e)).exec (checked sb) s)
      (onAbs sb p (.ilock e) t) := by
  show KeepRefines sb D s ((ilock p e).exec (checked sb) s) _
  refine Refines.of_wp ?_
  rw [ilock, Prog.wp_bind, wp_getInode, onAbs, h.ref, h.owner, h.valid]
  by_cases href : (s.mem.inode e).ref < 1
  · rw [if_pos href, if_pos href]
    exact .inr rfl
  rw [if_neg href, if_neg href, Prog.wp_bind, wp_acquiresleep]
  intro howner
  have hlive : 0 < (t.entry e).ref := by
    rw [h.ref]
    omega
  rw [if_neg (not_not.mpr howner), Prog.wp_bind, wp_getInode, setInode_self]
  by_cases hvalid : (s.mem.inode e).valid
  · rw [if_pos hvalid, if_pos (by simp [hvalid]), Prog.wp_pure]
    refine ⟨_, rfl, ?_, rfl, rfl⟩
    refine h.setEntry ⟨rfl, rfl, rfl⟩ rfl (h.ref e) rfl hvalid.symm hlive
      (fun _ => by rw [h.valid, hvalid]) fun _ hd => ⟨hlive, rfl, hd⟩
  -- the inode is read from disk, where it is as it is now
  obtain ⟨-, hlt⟩ := h.live e hlive
  have hdisk : s.dinode (t.entry e).inum = D (t.entry e).inum := by
    obtain hd | ⟨-, a, ha, hv, hia, -⟩ := h.disk _ hlt
    · exact hd
    · rw [h.uniq a e ha hlive hia, h.valid] at hv
      exact absurd hv hvalid
  rw [if_neg hvalid, Prog.wp_bind, ← h.inum, Prog.wp_call_ok (checked_readDinode hlt),
    Prog.wp_bind, wp_setInode, hdisk, setInode_setInode, h.node]
  by_cases htype : (D (t.entry e).inum).type = 0
  · rw [if_pos htype, if_neg fun hu : Used sb D _ => hu.2 htype, if_neg (by simp [hvalid])]
    exact .inr rfl
  have hu : Used sb D (t.entry e).inum := ⟨hlt, htype⟩
  rw [if_neg htype, if_pos hu, if_pos (by simp), Prog.wp_pure]
  refine ⟨_, rfl, ?_, rfl, rfl⟩
  refine h.assign (h.inum e) (h.ref e) rfl rfl (fun _ => h.live e hlive)
    (fun _ a hae ha heq => hae (h.uniq a e ha hlive heq)) (fun _ _ => ⟨rfl, htype⟩)
    fun _ hv => ?_
  rw [h.valid] at hv
  exact absurd hv hvalid

theorem iunlock_refines (h : Sim sb D s t) :
    ExactRefines sb ((inodeImpl sb p (.iunlock e)).exec (checked sb) s)
      (onAbs sb p (.iunlock e) t) := by
  by_cases hbad : (t.entry e).owner ≠ some p ∨ (t.entry e).ref < 1
  · refine Refines.of_wp ?_
    show (iunlock p e).wp (checked sb) _ s _
    rw [iunlock, Prog.wp_bind, wp_getInode, onAbs, if_pos hbad]
    rw [h.owner, h.ref] at hbad
    rw [if_pos hbad]
    exact .inr rfl
  by_cases hdirty : (t.entry e).dirty
  · refine .inl ⟨none, rfl, ?_⟩
    rw [onAbs, if_neg hbad, if_pos hdirty]
  refine Refines.of_wp ?_
  show (iunlock p e).wp (checked sb) _ s _
  rw [iunlock, Prog.wp_bind, wp_getInode, onAbs, if_neg hbad, if_neg hdirty]
  have hlive : 0 < (t.entry e).ref := by omega
  rw [h.owner, h.ref] at hbad
  rw [if_neg hbad, releasesleep, wp_setInode]
  refine ⟨_, rfl, D, ?_⟩
  exact h.setEntry ⟨rfl, rfl, rfl⟩ rfl (h.ref e) rfl (h.valid e) hlive id
    fun _ hd => absurd hd hdirty

/-- The rules for having a node locked, as the operations check them. -/
theorem withLocked_cases (k : Node → Outcome (Option Panic) (β × Abs)) :
    withLocked p t e k = .panic none ∨
      ∃ nd, t.locked p e = some nd ∧ withLocked p t e k = k nd := by
  unfold withLocked
  cases h : t.locked p e with
  | none => exact .inl rfl
  | some nd => exact .inr ⟨nd, rfl, rfl⟩

theorem fileData_of_addrs {blk : ℕ → Block} {d d' : Dinode} (hs : d'.size = d.size)
    (ha : d'.addrs = d.addrs) : fileData blk d' = fileData blk d := by
  have hptr : ∀ k, ptr blk d' k = ptr blk d k := fun k =>
    ptr_congr (fun k _ => by rw [Dinode.addr, Dinode.addr, ha]) fun _ _ _ => rfl
  unfold fileData fileByte blockOf
  simp only [hs, hptr]

theorem BlockInv.setFields {bit : ℕ → Bool} {blk : ℕ → Block} {d : Dinode}
    (h : BlockInv sb bit blk D) (ht : d.type = (D i).type) (hs : d.size = (D i).size)
    (ha : d.addrs = (D i).addrs) : BlockInv sb bit blk (update D i d) := by
  have hused : ∀ j, Used sb (update D i d) j ↔ Used sb D j := used_update (by rw [ht])
  have hsize : ∀ j, (update D i d j).size = (D j).size := by
    intro j
    by_cases hj : j = i
    · rw [hj, update_self, hs]
    · rw [update_of_ne hj]
  refine ⟨?_, fun j hu bn hbn => ?_, fun j hu => ?_⟩
  · rw [refs_update_fields (by rw [ht]) ha]
    exact h.exact
  · rw [hused] at hu
    rw [hsize] at hbn
    have hblock : blockOf blk (update D i d j) bn = blockOf blk (D j) bn := by
      refine ptr_congr (fun k _ => ?_) fun _ _ _ => rfl
      by_cases hj : j = i
      · rw [hj, update_self, Dinode.addr, Dinode.addr, ha]
      · rw [update_of_ne hj]
    rw [hblock]
    exact h.noHoles j hu bn hbn
  · rw [hused] at hu
    rw [hsize]
    exact h.size_le j hu

theorem iupdate_refines (h : Sim sb D s t) :
    ExactRefines sb ((inodeImpl sb p (.iupdate e)).exec (checked sb) s)
      (onAbs sb p (.iupdate e) t) := by
  obtain hbad | ⟨nd, hl, hy⟩ := withLocked_cases (t := t) (p := p) (e := e) fun _ =>
    .ok ((), t.setEntry e fun x => { x with dirty := false })
  · exact .inl ⟨none, rfl, hbad⟩
  refine Refines.of_wp ?_
  rw [show onAbs sb p (.iupdate e) t = _ from hy]
  obtain ⟨⟨href, -, hvalid⟩, hnode⟩ := locked_eq_some.mp hl
  have hh := h.holds href hvalid
  show (iupdate e).wp (checked sb) _ s _
  rw [iupdate, Prog.wp_bind, wp_getInode, ← h.inum, hh.copy,
    Prog.wp_call_ok (checked_writeDinode hh.used.1)]
  refine ⟨_, rfl, D, ?_⟩
  have hsim := h.change s.bit s.blk (D (t.entry e).inum) _ false
    href hvalid (by rw [update_eq_self]; exact h.blocks) rfl (fun _ _ _ => rfl) (.inl rfl)
  rw [update_eq_self, put_self hh.copy] at hsim
  have hself : t.setNode (t.entry e).inum (some (nodeOf s.blk (D (t.entry e).inum))) = t := by
    rw [← (h.node_eq hnode).2, ← hnode, Abs.setNode, update_eq_self]
  rwa [hself] at hsim

theorem setLinks_refines {f : Links → Links} (h : Sim sb D s t) :
    ExactRefines sb ((inodeImpl sb p (.setLinks e f)).exec (checked sb) s)
      (onAbs sb p (.setLinks e f) t) := by
  obtain hbad | ⟨nd, hl, hy⟩ := withLocked_cases (t := t) (p := p) (e := e) fun nd =>
    .ok ((), (t.setNode (t.entry e).inum (some (nd.setLinks f))).setEntry e
      fun x => { x with dirty := true })
  · exact .inl ⟨none, rfl, hbad⟩
  refine Refines.of_wp ?_
  rw [show onAbs sb p (.setLinks e f) t = _ from hy]
  obtain ⟨⟨href, -, hvalid⟩, hnode⟩ := locked_eq_some.mp hl
  have hh := h.holds href hvalid
  obtain ⟨-, hnd⟩ := h.node_eq hnode
  show (setInode e fun ip => { ip with d := ip.d.setLinks f }).wp (checked sb) _ s _
  rw [wp_setInode]
  have hsim := h.change s.bit s.blk ((D (t.entry e).inum).setLinks f) s.dinode true
    href hvalid (h.blocks.setFields rfl rfl rfl) rfl (fun _ _ _ => rfl) (.inr ⟨rfl, rfl⟩)
  have hdata : fileData s.blk ((D (t.entry e).inum).setLinks f)
      = fileData s.blk (D (t.entry e).inum) := fileData_of_addrs rfl rfl
  have hnode' : nodeOf s.blk ((D (t.entry e).inum).setLinks f) = nd.setLinks f := by
    rw [hnd, nodeOf, hdata]
    rfl
  have hput : ({ s.put e s.bit s.blk ((D (t.entry e).inum).setLinks f) with dinode := s.dinode }
      : Store) = { s with mem := s.mem.setInode e fun ip => { ip with d := ip.d.setLinks f } } := by
    rw [← hh.copy]
    rfl
  rw [hnode', hput] at hsim
  exact ⟨_, rfl, _, hsim⟩

theorem itrunc_refines (h : Sim sb D s t) :
    ExactRefines sb ((inodeImpl sb p (.itrunc e)).exec (checked sb) s)
      (onAbs sb p (.itrunc e) t) := by
  obtain hbad | ⟨nd, hl, hy⟩ := withLocked_cases (t := t) (p := p) (e := e) fun nd =>
    .ok ((), (t.setNode (t.entry e).inum (some { nd with data := [] })).setEntry e
      fun x => { x with dirty := false })
  · exact .inl ⟨none, rfl, hbad⟩
  refine Refines.of_wp ?_
  rw [show onAbs sb p (.itrunc e) t = _ from hy]
  obtain ⟨⟨href, -, hvalid⟩, hnode⟩ := locked_eq_some.mp hl
  obtain ⟨-, hnd⟩ := h.node_eq hnode
  refine wp_itrunc (h.holds href hvalid) (h.inum e).symm fun bit' hinv => ?_
  have hsim := h.change bit' s.blk (D (t.entry e).inum).truncated _ false
    href hvalid hinv rfl (fun _ _ _ => rfl) (.inl rfl)
  rw [show nodeOf s.blk (D (t.entry e).inum).truncated = { nd with data := [] } by
    rw [hnd]; rfl] at hsim
  exact ⟨_, rfl, _, hsim⟩

theorem readi_refines {dst : Dst} (h : Sim sb D s t) :
    ExactRefines sb ((inodeImpl sb p (.readi e dst off n)).exec (checked sb) s)
      (onAbs sb p (.readi e dst off n) t) := by
  obtain hbad | ⟨nd, hl, hy⟩ := withLocked_cases (t := t) (p := p) (e := e) fun nd =>
    if n < 2 ^ 32 then .ok (nd.read dst off n, t) else .panic none
  · exact .inl ⟨none, rfl, hbad⟩
  rw [show onAbs sb p (.readi e dst off n) t = _ from hy]
  by_cases hn : n < 2 ^ 32
  · rw [if_pos hn]
    obtain ⟨⟨href, -, hvalid⟩, hnode⟩ := locked_eq_some.mp hl
    obtain ⟨-, hnd⟩ := h.node_eq hnode
    refine Refines.of_wp ((wp_readi (h.holds href hvalid) hn).mpr ?_)
    rw [← hnd]
    exact ⟨t, rfl, D, h⟩
  · exact .inl ⟨none, rfl, if_neg hn⟩

/-- A write to a locked inode, with the blocks it takes. -/
theorem wp_writei_sim {src : Src}
    (hA : freeBlocks sb s.bit < missing s.blk (D (t.entry e).inum) (touched off n) →
      A (some .outOfBlocks)) (h : Sim sb D s t) (hl : t.locked p e = some nd) (hn : n < 2 ^ 32) :
    (writei sb e src off n).wp (checked sb) A s fun r s' => ∃ t' D',
      onAbs sb p (.writei e src off n) t = .ok (r, t') ∧ Sim sb D' s' t' ∧
        Took sb (touched off n) s.bit s.blk (D (t.entry e).inum) s'.bit s'.blk
          (D' (t.entry e).inum) := by
  obtain ⟨⟨href, -, hvalid⟩, hnode⟩ := locked_eq_some.mp hl
  obtain ⟨-, hnd⟩ := h.node_eq hnode
  rw [onAbs, withLocked, hl]
  dsimp only
  rw [if_pos hn]
  refine wp_writei hA (h.holds href hvalid) (h.inum e).symm hn (fun hfail => ?_)
    fun bit' blk' d' hok hinv htook hd' hdata hother => ?_
  · rw [← hnd] at hfail
    rw [if_pos hfail, hfail]
    exact ⟨t, D, rfl, h, fun _ _ => rfl⟩
  rw [← hnd] at hok hdata ⊢
  rw [if_neg hok]
  have hsim := h.change bit' blk' d' _ false href hvalid hinv (by rw [hd']) hother (.inl rfl)
  have hnode' : nodeOf blk' d' = { nd with data := (nd.write src off n).2 } := by
    rw [nodeOf, hdata, hnd, hd']
    rfl
  rw [hnode'] at hsim
  exact ⟨_, _, rfl, hsim, by rwa [update_self]⟩

theorem writei_refines {src : Src} (h : Sim sb D s t) :
    InodeRefines sb ((inodeImpl sb p (.writei e src off n)).exec (checked sb) s)
      (onAbs sb p (.writei e src off n) t) := by
  cases hl : t.locked p e with
  | none =>
    refine .inl ⟨none, rfl, ?_⟩
    rw [onAbs, withLocked, hl]
  | some nd =>
    by_cases hn : n < 2 ^ 32
    · refine Refines.of_wp ((wp_writei_sim (fun _ => .inl rfl) h hl hn).mono fun r s' hr => ?_)
      obtain ⟨t', D', hy, hsim, -⟩ := hr
      exact ⟨t', hy, D', hsim⟩
    · refine .inl ⟨none, rfl, ?_⟩
      rw [onAbs, withLocked, hl]
      exact if_neg hn

theorem attr_refines (h : Sim sb D s t) :
    ExactRefines sb ((inodeImpl sb p (.attr e)).exec (checked sb) s) (onAbs sb p (.attr e) t) := by
  obtain hbad | ⟨nd, hl, hy⟩ := withLocked_cases (t := t) (p := p) (e := e) fun nd =>
    .ok (nd.attr, t)
  · exact .inl ⟨none, rfl, hbad⟩
  rw [show onAbs sb p (.attr e) t = _ from hy]
  obtain ⟨⟨href, -, hvalid⟩, hnode⟩ := locked_eq_some.mp hl
  obtain ⟨-, hnd⟩ := h.node_eq hnode
  have hattr : nd.attr = (s.mem.inode e).d.attr := by
    rw [(h.holds href hvalid).copy, hnd, Node.attr, nodeOf, length_fileData]
    rfl
  rw [hattr]
  exact .ok ⟨D, h⟩

theorem ident_refines (h : Sim sb D s t) :
    ExactRefines sb ((inodeImpl sb p (.ident e)).exec (checked sb) s)
    (onAbs sb p (.ident e) t) := by
  by_cases href : 0 < (t.entry e).ref
  · rw [onAbs, if_pos href, ← (h.live e href).1, h.inum]
    exact .ok ⟨D, h⟩
  · exact .inl ⟨none, rfl, if_neg href⟩

theorem Sim.setTables (h : Sim sb D s t) (T : Tables) :
    Sim sb D { s with mem := { s.mem with tables := T } } { t with tables := T } :=
  ⟨h.blocks, rfl, h.node, h.inum, h.ref, h.owner, h.valid, h.live, h.uniq, h.copy, h.disk⟩

theorem tables_refines {f : Tables → Outcome Panic (β × Tables)} (h : Sim sb D s t) :
    ExactRefines sb ((inodeImpl sb p (.tables f)).exec (checked sb) s)
      (onAbs sb p (.tables f) t) := by
  show ExactRefines sb ((onMem fun m => (f m.tables).bind fun r =>
    .ok (r.1, { m with tables := r.2 })).exec (checked sb) s) _
  rw [onMem, Prog.exec_call, checked_mem, onAbs, h.tables]
  cases f s.mem.tables with
  | ok r => exact .ok ⟨D, h.setTables r.2⟩
  | panic x => exact .panic rfl
  | stuck => exact .stuck

theorem Sim.free {f : Inode → Inode} (h : Sim sb D s t) (bit' : ℕ → Bool) (d' : Dinode)
    (href : (t.entry e).ref = 1) (hvalid : (t.entry e).valid)
    (hinv : BlockInv sb bit' s.blk (update D (t.entry e).inum d')) (ht : d'.type = 0)
    (hf : (f (s.mem.inode e)).inum = (s.mem.inode e).inum ∧ (f (s.mem.inode e)).ref = 0 ∧
      (f (s.mem.inode e)).owner = (s.mem.inode e).owner ∧ (f (s.mem.inode e)).valid = false) :
    Sim sb (update D (t.entry e).inum d')
      { s with dinode := update s.dinode (t.entry e).inum d', bit := bit'
               mem := s.mem.setInode e f }
      ((t.setNode (t.entry e).inum none).setEntry e fun x =>
        { x with ref := 0, valid := false }) := by
  have hlive : 0 < (t.entry e).ref := by omega
  -- an entry still in use is another, and stands for another inode
  have hother : ∀ a, 0 < (((t.setNode (t.entry e).inum none).setEntry e fun x =>
      { x with ref := 0, valid := false }).entry a).ref →
      a ≠ e ∧ 0 < (t.entry a).ref ∧ (t.entry a).inum ≠ (t.entry e).inum := by
    intro a ha
    have hae : a ≠ e := by
      rintro rfl
      rw [setEntry_self] at ha
      exact absurd ha (lt_irrefl 0)
    rw [setEntry_of_ne hae, setNode_entry] at ha
    exact ⟨hae, ha, fun heq => hae (h.uniq a e ha hlive heq)⟩
  refine ⟨hinv, h.tables, fun i => ?_, fun a => ?_, fun a => ?_, fun a => ?_, fun a => ?_,
    fun a ha => ?_, fun a b ha hb hab => ?_, fun a ha hv => ?_, fun i hi => ?_⟩
  · rw [setEntry_node, setNode_node]
    by_cases hi : i = (t.entry e).inum
    · rw [hi, update_self, if_neg]
      rintro ⟨-, hu⟩
      rw [update_self] at hu
      exact hu ht
    · rw [update_of_ne hi, h.node, update_of_ne hi]
      refine if_congr ?_ rfl rfl
      rw [Used, Used, update_of_ne hi]
  · by_cases hae : a = e
    · subst hae
      rw [setEntry_self, setInode_self, hf.1]
      exact h.inum a
    · rw [setEntry_of_ne hae, setInode_of_ne _ hae]
      exact h.inum a
  · by_cases hae : a = e
    · subst hae
      rw [setEntry_self, setInode_self, hf.2.1]
    · rw [setEntry_of_ne hae, setInode_of_ne _ hae]
      exact h.ref a
  · by_cases hae : a = e
    · subst hae
      rw [setEntry_self, setInode_self, hf.2.2.1]
      exact h.owner a
    · rw [setEntry_of_ne hae, setInode_of_ne _ hae]
      exact h.owner a
  · by_cases hae : a = e
    · subst hae
      rw [setEntry_self, setInode_self, hf.2.2.2]
    · rw [setEntry_of_ne hae, setInode_of_ne _ hae]
      exact h.valid a
  · obtain ⟨hae, hpos, -⟩ := hother a ha
    rw [setEntry_of_ne hae, setInode_of_ne _ hae]
    exact h.live a hpos
  · obtain ⟨hae, ha, -⟩ := hother a ha
    obtain ⟨hbe, hb, -⟩ := hother b hb
    rw [setEntry_of_ne hae, setEntry_of_ne hbe] at hab
    exact h.uniq a b ha hb hab
  · obtain ⟨hae, ha, hne⟩ := hother a ha
    rw [setEntry_of_ne hae] at hv ⊢
    rw [setInode_of_ne _ hae, setNode_entry, update_of_ne hne]
    exact h.copy a ha hv
  · by_cases hie : i = (t.entry e).inum
    · left
      rw [hie, update_self]
      exact update_self ..
    dsimp only
    rw [update_of_ne hie, update_of_ne hie]
    obtain hd | ⟨hty, a, ha, hv, hia, hda⟩ := h.disk i hi
    · exact .inl hd
    · refine .inr ⟨hty, a, ?_⟩
      have hae : a ≠ e := fun heq => hie (by rw [← hia, heq])
      rw [setEntry_of_ne hae]
      exact ⟨ha, hv, hia, hda⟩

/-- What `iput` leaves of an inode it frees. -/
def Dinode.freed (d : Dinode) : Dinode := { d.truncated with type := 0 }

/-- `iput` of the last reference to an inode without links frees it. -/
theorem wp_iput_free {Q : Unit → Store → Prop} (h : Sim sb D s t) (href : (t.entry e).ref = 1)
    (hvalid : (t.entry e).valid) (hunlinked : (D (t.entry e).inum).nlink = 0)
    (hQ : (s.mem.inode e).owner = none →
      ∀ bit', BlockInv sb bit' s.blk (update D (t.entry e).inum
          (D (t.entry e).inum).freed) →
      Q () { s with
        dinode := update s.dinode (t.entry e).inum (D (t.entry e).inum).freed
        bit := bit'
        mem := s.mem.setInode e fun ip => { ip with
          d := (D (t.entry e).inum).freed, valid := false, owner := none, ref := ip.ref - 1 } }) :
    (iput p e).wp (checked sb) A s Q := by
  have hh := h.holds (by omega) hvalid
  have hcond : (s.mem.inode e).ref = 1 ∧ (s.mem.inode e).valid = true ∧
      (s.mem.inode e).d.nlink = 0 := by
    rw [← h.ref, ← h.valid, hh.copy]
    exact ⟨href, hvalid, hunlinked⟩
  rw [iput, Prog.wp_bind, onMem, Prog.wp_call, checked_mem, iputEnter, if_pos hcond]
  by_cases howner : (s.mem.inode e).owner = none
  swap
  · rw [if_neg howner]
    trivial
  rw [if_pos howner]
  show ((do
    itrunc e
    setInode e fun ip => { ip with d := { ip.d with type := 0 } }
    iupdate e
    setInode e fun ip => { ip with valid := false }
    releasesleep e
    setInode e fun ip => { ip with ref := ip.ref - 1 }) : DiskProg Unit).wp (checked sb) A
      { s with mem := s.mem.setInode e fun ip => { ip with owner := some p } } Q
  have hh₁ : Holds sb D e (t.entry e).inum
      { s with mem := s.mem.setInode e fun ip => { ip with owner := some p } } :=
    ⟨hh.blocks, hh.used, by rw [setInode_self]; exact hh.copy⟩
  rw [Prog.wp_bind]
  -- the blocks of the file are free, and its dinode refers to none
  refine wp_itrunc hh₁ (by rw [setInode_self]; exact (h.inum e).symm) fun bit' hinv => ?_
  have hinv' : BlockInv sb bit' s.blk
      (update D (t.entry e).inum (D (t.entry e).inum).freed) := by
    have hx := hinv.exact
    rw [refs_update_empty fun k _ => by simp [Dinode.truncated, Dinode.addr]] at hx
    exact h.blocks.of_empty (fun k _ => by simp [Dinode.freed, Dinode.truncated, Dinode.addr])
      rfl hx
  rw [Prog.wp_bind, wp_setInode, Prog.wp_bind, iupdate, Prog.wp_bind, wp_getInode, setInode_self]
  dsimp only
  rw [put_inode]
  dsimp only
  rw [setInode_self]
  dsimp only
  rw [← h.inum, Prog.wp_call_ok (checked_writeDinode hh.used.1), Prog.wp_bind, wp_setInode,
    Prog.wp_bind, releasesleep, wp_setInode, wp_setInode]
  have hq := hQ howner bit' hinv'
  unfold Store.put
  simp only [setInode_setInode, update_idem]
  exact hq

theorem unlinked_iff (h : Sim sb D s t) (href : 0 < (t.entry e).ref) (hvalid : (t.entry e).valid) :
    t.unlinked e ↔ (D (t.entry e).inum).nlink = 0 := by
  have hu : Used sb D (t.entry e).inum := ⟨(h.live e href).2, (h.copy e href hvalid).2⟩
  rw [Abs.unlinked, h.node, if_pos hu]
  exact Option.some_inj

theorem iput_refines (h : Sim sb D s t) :
    ExactRefines sb ((inodeImpl sb p (.iput e)).exec (checked sb) s) (onAbs sb p (.iput e) t) := by
  by_cases hbad : (t.entry e).ref < 1 ∨ (t.entry e).dirty
  · exact .inl ⟨none, rfl, if_pos hbad⟩
  have hpos : 0 < (t.entry e).ref := by
    by_contra hnot
    exact hbad (.inl (by omega))
  have hclean : ¬ (t.entry e).dirty := fun hd => hbad (.inr hd)
  refine Refines.of_wp ?_
  show (iput p e).wp (checked sb) _ s _
  rw [onAbs, if_neg hbad]
  by_cases hfree : (t.entry e).ref = 1 ∧ (t.entry e).valid ∧ t.unlinked e
  · obtain ⟨hone, hvalid, hun⟩ := hfree
    rw [if_pos ⟨hone, hvalid, hun⟩]
    refine wp_iput_free h hone hvalid ((unlinked_iff h hpos hvalid).mp hun)
      fun howner bit' hinv => ?_
    rw [if_pos (by rw [h.owner]; exact howner)]
    refine ⟨_, rfl, _, h.free bit' _ hone hvalid hinv rfl ⟨rfl, ?_, howner.symm, rfl⟩⟩
    show (s.mem.inode e).ref - 1 = 0
    rw [← h.ref, hone]
    rfl
  · rw [if_neg hfree]
    have hcond : ¬ ((s.mem.inode e).ref = 1 ∧ (s.mem.inode e).valid = true ∧
        (s.mem.inode e).d.nlink = 0) := by
      rintro ⟨h₁, h₂, h₃⟩
      rw [← h.ref] at h₁
      rw [← h.valid] at h₂
      rw [(h.holds hpos h₂).copy] at h₃
      exact hfree ⟨h₁, h₂, (unlinked_iff h hpos h₂).mpr h₃⟩
    rw [iput, Prog.wp_bind, onMem, Prog.wp_call, checked_mem, iputEnter, if_neg hcond]
    refine ⟨_, rfl, D, ?_⟩
    show Sim sb D { s with mem := s.mem.setInode e fun ip => { ip with ref := ip.ref - 1 } } _
    refine h.setEntry ⟨rfl, rfl, rfl⟩ rfl ?_ (h.owner e) (h.valid e) hpos id
      fun _ hd => absurd hd hclean
    rw [h.ref]

/-- The loop of `ialloc` takes the first free inode from `inum` on. -/
theorem wp_iallocLoop {Q : Fin ninode → Store → Prop} {dev : ℕ} {type : BitVec 16} {fuel inum : ℕ}
    (hfuel : sb.ninodes ≤ inum + fuel)
    (hnone : ((List.range' inum (sb.ninodes - inum)).find? fun i => (s.dinode i).type == 0) = none →
      A (some .noInodes)) (hsome : ∀ i, ((List.range' inum (sb.ninodes - inum)).find?
        fun i => (s.dinode i).type == 0) = some i →
      (iget dev i).wp (checked sb) A { s with
        dinode := update s.dinode i { Dinode.empty with type := type } } Q) :
    (iallocLoop sb dev type fuel inum).wp (checked sb) A s Q := by
  induction fuel generalizing inum with
  | zero =>
    refine wp_panic.mpr (hnone ?_)
    rw [show sb.ninodes - inum = 0 by omega]
    rfl
  | succ fuel ih =>
    rw [iallocLoop]
    by_cases hlt : inum < sb.ninodes
    · have hrange : List.range' inum (sb.ninodes - inum)
          = inum :: List.range' (inum + 1) (sb.ninodes - (inum + 1)) := by
        rw [show sb.ninodes - inum = sb.ninodes - (inum + 1) + 1 by omega, List.range'_succ]
      rw [hrange] at hnone hsome
      rw [if_pos hlt, Prog.wp_bind, Prog.wp_call, checked_claimDinode hlt]
      by_cases hz : (s.dinode inum).type = 0
      · rw [if_pos hz]
        exact hsome inum (List.find?_cons_of_pos (by simp [hz]))
      · have hcons := List.find?_cons_of_neg (l := List.range' (inum + 1) (sb.ninodes - (inum + 1)))
          (p := fun i => (s.dinode i).type == 0) (a := inum) (by simpa using hz)
        rw [hcons] at hnone hsome
        rw [if_neg hz]
        exact ih (by omega) hnone hsome
    · rw [if_neg hlt]
      refine wp_panic.mpr (hnone ?_)
      rw [show sb.ninodes - inum = 0 by omega]
      rfl

theorem Sim.claim {type : BitVec 16} (h : Sim sb D s t) (hi : i < sb.ninodes)
    (hfree : (D i).type = 0) (ht : type ≠ 0) :
    Sim sb (update D i { Dinode.empty with type := type })
      { s with dinode := update s.dinode i { Dinode.empty with type := type } }
      (t.setNode i (some ⟨type, 0, 0, 0, []⟩)) := by
  have hunused : ¬ Used sb D i := fun hu => hu.2 hfree
  have hinv : BlockInv sb s.bit s.blk (update D i { Dinode.empty with type := type }) := by
    refine h.blocks.of_empty (fun k _ => Dinode.addr_empty k) rfl ?_
    have hrefs : (fun x : ℕ × ℕ => if x.1 = i then 0 else refs sb s.blk D x) = refs sb s.blk D := by
      funext ⟨j, k⟩
      by_cases hj : j = i
      · rw [if_pos hj, hj, refs_of_not hunused]
      · rw [if_neg hj]
    rw [hrefs]
    exact h.blocks.exact
  -- no entry has a copy of it
  have hcopy : ∀ e, 0 < (t.entry e).ref → (t.entry e).valid → (t.entry e).inum ≠ i := by
    intro e he hv heq
    exact (h.copy e he hv).2 (by rw [heq, hfree])
  refine ⟨hinv, h.tables, fun j => ?_, h.inum, h.ref, h.owner, h.valid, h.live, h.uniq,
    fun e he hv => ?_, fun j hj => ?_⟩
  · rw [setNode_node]
    by_cases hji : j = i
    · subst hji
      have hu : Used sb (update D j { Dinode.empty with type := type }) j := by
        refine ⟨hi, ?_⟩
        rw [update_self]
        exact ht
      rw [update_self, if_pos hu, update_self]
      rfl
    · rw [update_of_ne hji, h.node, update_of_ne hji]
      refine if_congr ?_ rfl rfl
      rw [Used, Used, update_of_ne hji]
  · rw [setNode_entry] at he hv ⊢
    rw [update_of_ne (hcopy e he hv)]
    exact h.copy e he hv
  · dsimp only
    by_cases hji : j = i
    · left
      rw [hji, update_self, update_self]
    · rw [update_of_ne hji, update_of_ne hji]
      exact h.disk j hj

theorem ialloc_refines {dev : ℕ} {type : BitVec 16} (h : Sim sb D s t) :
    ExactRefines sb ((inodeImpl sb p (.ialloc dev type)).exec (checked sb) s)
      (onAbs sb p (.ialloc dev type) t) := by
  by_cases hrule : dev = rootdev.toNat ∧ type ≠ 0
  swap
  · exact .inl ⟨none, rfl, if_neg hrule⟩
  obtain ⟨rfl, htype⟩ := hrule
  have hsame : ∀ i, i < sb.ninodes → (s.dinode i).type = (D i).type := fun i hi => by
    obtain hd | hd := h.disk i hi
    · rw [hd]
    · exact hd.1
  have hfind : ((List.range' 1 (sb.ninodes - 1)).find? fun i => (s.dinode i).type == 0)
      = (List.range' 1 (sb.ninodes - 1)).find? fun i => (t.node i).isNone := by
    refine List.find?_congr fun i hi => ?_
    have hlt : i < sb.ninodes := by
      have := List.mem_range'_1.mp hi
      omega
    rw [hsame i hlt, h.node]
    by_cases hz : (D i).type = 0
    · rw [if_neg fun hu : Used sb D i => hu.2 hz]
      simp [hz]
    · have hu : Used sb D i := ⟨hlt, hz⟩
      rw [if_pos hu]
      simpa using hz
  refine Refines.of_wp ?_
  show (ialloc sb rootdev.toNat type).wp (checked sb) _ s _
  rw [onAbs, if_pos ⟨rfl, htype⟩]
  refine wp_iallocLoop (Nat.le_add_left ..) (fun hnone => ?_) fun i hsome => ?_
  · rw [hfind] at hnone
    rw [hnone]
    exact .inr rfl
  have hz := List.find?_some hsome
  rw [beq_iff_eq] at hz
  have hlt : i < sb.ninodes := by
    have := List.mem_range'_1.mp (List.mem_of_find?_eq_some hsome)
    omega
  rw [hfind] at hsome
  rw [hsome]
  rw [hsame i hlt] at hz
  refine (iget_refines (h.claim hlt hz htype) hlt).wp ?_
  rintro - rfl hfault
  rw [Abs.iget] at hfault
  split at hfault
  · cases hfault
  · split at hfault <;> cases hfault

/-- The operation can run out of blocks. -/
def InodeOp.Writes : InodeOp β → Prop
  | .writei .. => True
  | _ => False

/-- **The inode layer refines its abstract operations exactly**, but for writes. -/
theorem inode_exact (o : InodeOp β) (ho : ¬ o.Writes) (h : Agree sb s t) :
    ExactRefines sb ((inodeImpl sb p o).exec (checked sb) s) (onAbs sb p o t) := by
  obtain ⟨D, h⟩ := h
  cases o with
  | iget dev inum =>
    by_cases hrule : dev = rootdev.toNat ∧ inum < sb.ninodes
    · rw [onAbs, if_pos hrule, hrule.1]
      exact iget_refines h hrule.2
    · exact .inl ⟨none, rfl, if_neg hrule⟩
  | idup e => exact idup_refines h
  | ilock e => exact (ilock_refines h).exactRefines
  | iunlock e => exact iunlock_refines h
  | iput e => exact iput_refines h
  | ialloc dev type => exact ialloc_refines h
  | iupdate e => exact iupdate_refines h
  | itrunc e => exact itrunc_refines h
  | ident e => exact ident_refines h
  | attr e => exact attr_refines h
  | setLinks e f => exact setLinks_refines h
  | readi e dst off n => exact readi_refines h
  | writei e src off n => exact absurd trivial ho
  | tables f => exact tables_refines h
  | beginOp => exact .ok ⟨D, h⟩
  | endOp => exact .ok ⟨D, h⟩

/-- **The inode layer refines its abstract operations.** -/
theorem inode_refines (o : InodeOp β) (h : Agree sb s t) :
    InodeRefines sb ((inodeImpl sb p o).exec (checked sb) s) (onAbs sb p o t) := by
  by_cases ho : o.Writes
  · cases o with
    | writei e src off n =>
      obtain ⟨D, h⟩ := h
      exact writei_refines h
    | _ => exact ho.elim
  · exact (inode_exact o ho h).inodeRefines

/-- **System calls refine what they do to the abstract state.** -/
theorem callProg_refines (c : Call) (h : Agree sb s t) :
    InodeRefines sb ((callProg sb p c).exec (checked sb) s)
    ((syscall p c).exec (onAbs sb p) t) := by
  rw [callProg, Prog.exec_expand]
  exact Prog.refines (fun o _ _ hst => inode_refines o hst) _ h

end Xv6.Fs
