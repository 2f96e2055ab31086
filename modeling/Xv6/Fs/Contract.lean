import Mathlib.Algebra.Order.BigOperators.Group.Finset
import Xv6.Fs.Tree

/-!
# Keeping the rules of the inode layer

The code above the inode layer keeps count of the references it takes and the locks it
holds.  This module says what is true while a system call runs: every reference to an entry
of the inode table belongs to the call, to the current directory of another process or to
an open file, and only the call holds locks.  One lemma for each operation says what it
takes and what it gives back.

## Main definitions

* `others` — the references to an entry that do not belong to the running call.
* `Inv` — what is true while a call runs that has references `own` and locks `lk`.
* `Steady` — entries that are referred to from outside the call still stand for what they
  did.
* `Mild` — the panics that are not excluded.

## Main results

* `Inv.wp_iget`, `Inv.wp_ilock`, `Inv.wp_iput`, `Inv.wp_setLinks`, `Inv.wp_writei`, … — the
  operations.
-/

namespace Xv6.Fs

open Function

/-- The entry of the inode table a `struct file` refers to. -/
def File.inode (x : File) : Option (Fin ninode) :=
  match x.type with
  | .inode | .device => some x.ip
  | _ => none

/-- The references to an entry that other processes have for their current directories, and
open files have. -/
@[irreducible] def others (T : Tables) (p : Pid) (e : Fin ninode) : ℕ :=
  (∑ q, if q ≠ p ∧ (T.proc q).cwd = some e then 1 else 0)
    + ∑ f, if (T.file f).inode = some e then 1 else 0

/-- The entry is referred to from outside the running call of `p`, or is the current
directory `c` that the call found. -/
def Anchored (T : Tables) (p : Pid) (c : Option (Fin ninode)) (e : Fin ninode) : Prop :=
  0 < others T p e ∨ c = some e

theorem File.inode_of_type {x : File} (h : x.type = .inode) : x.inode = some x.ip := by
  rw [File.inode, h]

theorem anchored_of_file {T : Tables} {p : Pid} {c : Option (Fin ninode)} {f : Fin nfile}
    {e : Fin ninode} (h : (T.file f).inode = some e) : Anchored T p c e := by
  left
  unfold others
  refine Nat.lt_of_lt_of_le ?_ (Nat.le_add_left ..)
  refine Finset.sum_pos' (fun _ _ => Nat.zero_le _) ⟨f, Finset.mem_univ f, ?_⟩
  rw [if_pos h]
  exact Nat.one_pos

/-- The entry is referred to, by the call or from outside. -/
def Referred (T : Tables) (p : Pid) (own : Multiset (Fin ninode × ℕ)) (e : Fin ninode) : Prop :=
  (∃ i, (e, i) ∈ own) ∨ 0 < others T p e

/-- Entries of a directory hold numbers of inodes. -/
def DirOk (n : ℕ) (data : List UInt8) : Prop :=
  ∀ k, k < slots data → (dirent data k).inum.toNat < n

/-- What is true of nodes at any time. -/
structure NodeOk (n : ℕ) (i : ℕ) (nd : Node) : Prop where
  lt : i < n
  size : nd.data.length ≤ maxfile * bsize
  dir : nd.type = tDir → DirOk n nd.data

/-- What is true while a call of `p` runs that has the references `own` (entries and the
inode numbers they stand for), the locks `lk`, and its current directory `c` among the
references.  If `H` holds, inodes without links other than those in `fresh` are referred to
from outside the call. -/
structure Inv (H : Prop) (sb : Super) (p : Pid) (c : Option (Fin ninode))
    (own : Multiset (Fin ninode × ℕ)) (lk : Multiset (Fin ninode)) (fresh : Set ℕ)
    (s : Abs) : Prop where
  uniq : ∀ {e e'}, 0 < (s.entry e).ref → 0 < (s.entry e').ref →
    (s.entry e).inum = (s.entry e').inum → e = e'
  lt : ∀ {e}, 0 < (s.entry e).ref → (s.entry e).inum < sb.ninodes
  valid : ∀ {e}, 0 < (s.entry e).ref → (s.entry e).valid → (s.node (s.entry e).inum).isSome
  clean : ∀ e, (s.entry e).dirty = false
  ref : ∀ e, (s.entry e).ref = ((own.map Prod.fst).count e + others s.tables p e : ℕ)
  num : ∀ {e i}, (e, i) ∈ own → (s.entry e).inum = i
  owner : ∀ e, (s.entry e).owner = if e ∈ lk then some p else none
  nodup : lk.Nodup
  locked : ∀ {e}, e ∈ lk → (s.entry e).valid ∧ Referred s.tables p own e
  cwd : ∀ {e}, c = some e → ∃ i, (e, i) ∈ own
  closed : ∀ f, (s.tables.file f).ref = 0 → (s.tables.file f).type = .none
  file : ∀ {f e}, (s.tables.file f).inode = some e → (s.entry e).valid
  fileDir : ∀ {f nd}, (s.tables.file f).type = .inode → (s.tables.file f).writable →
    s.node (s.entry (s.tables.file f).ip).inum = some nd → nd.type ≠ tDir
  node : ∀ {i nd}, s.node i = some nd → NodeOk sb.ninodes i nd
  held : H → ∀ {i nd}, s.node i = some nd → nd.nlink = 0 → i ∉ fresh →
    ∃ e, Anchored s.tables p c e ∧ (s.entry e).inum = i ∧ (s.entry e).valid

/-- Entries that are referred to from outside the call still stand for what they did. -/
structure Steady (p : Pid) (c : Option (Fin ninode)) (s s' : Abs) : Prop where
  tables : s'.tables = s.tables
  entry : ∀ {e}, Anchored s.tables p c e →
    (s'.entry e).inum = (s.entry e).inum ∧ ((s.entry e).valid → (s'.entry e).valid)

/-- The panics that are not excluded: never a fault, a block freed twice or a pipe used after
it was freed. -/
def Mild (x : Option Panic) : Prop :=
  ∃ e, x = some e ∧ e ≠ .freeingFreeBlock ∧ e ≠ .freedPipe

/-- The panics of the other layers are not excluded. -/
def Panic.mild : Panic → Bool
  | .freeingFreeBlock | .freedPipe => false
  | _ => true

theorem Mild.of_mild {e : Panic} (h : e.mild = true) : Mild (some e) := by
  refine ⟨e, rfl, ?_, ?_⟩ <;> rintro rfl <;> cases h

theorem Steady.refl (p : Pid) (c : Option (Fin ninode)) (s : Abs) : Steady p c s s :=
  ⟨rfl, fun _ => ⟨rfl, id⟩⟩

theorem Steady.trans {p : Pid} {c : Option (Fin ninode)} {s s' s'' : Abs} (h : Steady p c s s')
    (h' : Steady p c s' s'') : Steady p c s s'' := by
  refine ⟨h'.tables.trans h.tables, fun {e} ha => ?_⟩
  obtain ⟨hi, hv⟩ := h.entry ha
  obtain ⟨hi', hv'⟩ := h'.entry (h.tables ▸ ha)
  exact ⟨hi'.trans hi, fun hx => hv' (hv hx)⟩

variable {H : Prop} {sb : Super} {p : Pid} {c : Option (Fin ninode)}
  {own : Multiset (Fin ninode × ℕ)} {lk : Multiset (Fin ninode)} {fresh : Set ℕ} {s : Abs}
  {e : Fin ninode} {i : ℕ} {nd : Node} {off n : ℕ} {Q : Unit → Abs → Prop}

namespace Inv

variable (h : Inv H sb p c own lk fresh s)
include h

theorem ref_pos_of_mem (hm : (e, i) ∈ own) : 0 < (s.entry e).ref := by
  have : 0 < (own.map Prod.fst).count e :=
    Multiset.count_pos.mpr (Multiset.mem_map.mpr ⟨(e, i), hm, rfl⟩)
  rw [h.ref]
  omega

theorem ref_pos_of_anchored (ha : Anchored s.tables p c e) : 0 < (s.entry e).ref := by
  obtain ho | hc := ha
  · rw [h.ref]
    omega
  · obtain ⟨i, hm⟩ := h.cwd hc
    exact h.ref_pos_of_mem hm

theorem ref_pos_of_referred (hr : Referred s.tables p own e) : 0 < (s.entry e).ref := by
  obtain ⟨i, hm⟩ | ho := hr
  · exact h.ref_pos_of_mem hm
  · exact h.ref_pos_of_anchored (c := c) (.inl ho)

theorem ref_pos_of_locked (hl : e ∈ lk) :
    0 < (s.entry e).ref := h.ref_pos_of_referred (h.locked hl).2

theorem eq_of_mem {e' : Fin ninode} (hm : (e, i) ∈ own) (hm' : (e', i) ∈ own) : e = e' :=
  h.uniq (h.ref_pos_of_mem hm) (h.ref_pos_of_mem hm') ((h.num hm).trans (h.num hm').symm)

theorem locked_eq (hl : e ∈ lk) (hnum : (s.entry e).inum = i) :
    ∃ nd, s.node i = some nd ∧ s.locked p e = some nd := by
  obtain ⟨hv, -⟩ := h.locked hl
  have href := h.ref_pos_of_locked hl
  obtain ⟨nd, hnd⟩ := Option.isSome_iff_exists.mp (h.valid href hv)
  refine ⟨nd, hnum ▸ hnd, locked_eq_some.mpr ⟨⟨href, ?_, hv⟩, hnd⟩⟩
  rw [h.owner, if_pos hl]

/-! ### Changing an entry -/

/-- One entry is assigned to, and the references and locks of the call change with it. -/
theorem assign {own' : Multiset (Fin ninode × ℕ)} {lk' : Multiset (Fin ninode)}
    {g : Entry → Entry} (huniq : 0 < (g (s.entry e)).ref → ∀ a, a ≠ e → 0 < (s.entry a).ref →
      (s.entry a).inum ≠ (g (s.entry e)).inum)
    (hlt : 0 < (g (s.entry e)).ref → (g (s.entry e)).inum < sb.ninodes)
    (hvalid : 0 < (g (s.entry e)).ref → (g (s.entry e)).valid →
      (s.node (g (s.entry e)).inum).isSome) (hclean : (g (s.entry e)).dirty = false)
    (href : (g (s.entry e)).ref = ((own'.map Prod.fst).count e + others s.tables p e : ℕ))
    (hcount : ∀ a, a ≠ e → (own'.map Prod.fst).count a = (own.map Prod.fst).count a)
    (hnum : ∀ i, (e, i) ∈ own' → (g (s.entry e)).inum = i)
    (hmem : ∀ a i, a ≠ e → ((a, i) ∈ own' ↔ (a, i) ∈ own))
    (howner : (g (s.entry e)).owner = if e ∈ lk' then some p else none)
    (hlk : ∀ a, a ≠ e → (a ∈ lk' ↔ a ∈ lk)) (hnodup : lk'.Nodup)
    (hlocked : e ∈ lk' → (g (s.entry e)).valid ∧ Referred s.tables p own' e)
    (hcwd : c = some e → ∃ i, (e, i) ∈ own')
    (hsteady : Anchored s.tables p c e → (g (s.entry e)).inum = (s.entry e).inum ∧
      ((s.entry e).valid → (g (s.entry e)).valid)) :
    Inv H sb p c own' lk' fresh (s.setEntry e g) := by
  -- clause by clause: at `e` by the hypothesis, at the other entries as before
  refine ⟨?_, ?_, ?_, ?_, ?_, ?_, ?_, hnodup, ?_, ?_, h.closed, ?_, ?_, h.node, ?_⟩
  · intro a b ha hb hab
    by_cases hae : a = e
    · by_cases hbe : b = e
      · rw [hae, hbe]
      · rw [hae, setEntry_self] at ha hab
        rw [setEntry_of_ne hbe] at hb hab
        exact absurd hab.symm (huniq ha b hbe hb)
    · rw [setEntry_of_ne hae] at ha hab
      by_cases hbe : b = e
      · rw [hbe, setEntry_self] at hb hab
        exact absurd hab (huniq hb a hae ha)
      · rw [setEntry_of_ne hbe] at hb hab
        exact h.uniq ha hb hab
  · intro a ha
    by_cases hae : a = e
    · subst hae
      rw [setEntry_self] at ha ⊢
      exact hlt ha
    · rw [setEntry_of_ne hae] at ha ⊢
      exact h.lt ha
  · intro a ha hv
    by_cases hae : a = e
    · subst hae
      rw [setEntry_self] at ha hv ⊢
      exact hvalid ha hv
    · rw [setEntry_of_ne hae] at ha hv ⊢
      exact h.valid ha hv
  · intro a
    by_cases hae : a = e
    · subst hae
      rw [setEntry_self]
      exact hclean
    · rw [setEntry_of_ne hae]
      exact h.clean a
  · intro a
    by_cases hae : a = e
    · subst hae
      rw [setEntry_self]
      exact href
    · rw [setEntry_of_ne hae, hcount a hae]
      exact h.ref a
  · intro a i hm
    by_cases hae : a = e
    · subst hae
      rw [setEntry_self]
      exact hnum i hm
    · rw [setEntry_of_ne hae]
      exact h.num ((hmem a i hae).mp hm)
  · intro a
    by_cases hae : a = e
    · subst hae
      rw [setEntry_self]
      exact howner
    · rw [setEntry_of_ne hae, h.owner a]
      simp only [hlk a hae]
  · intro a hl
    by_cases hae : a = e
    · subst hae
      rw [setEntry_self]
      exact hlocked hl
    · rw [setEntry_of_ne hae]
      obtain ⟨hv, hr⟩ := h.locked ((hlk a hae).mp hl)
      exact ⟨hv, hr.imp_left fun ⟨i, hm⟩ => ⟨i, (hmem a i hae).mpr hm⟩⟩
  · intro a hc
    by_cases hae : a = e
    · subst hae
      exact hcwd hc
    · obtain ⟨i, hm⟩ := h.cwd hc
      exact ⟨i, (hmem a i hae).mpr hm⟩
  · intro f a hf
    by_cases hae : a = e
    · subst hae
      rw [setEntry_self]
      exact (hsteady (anchored_of_file hf)).2 (h.file hf)
    · rw [setEntry_of_ne hae]
      exact h.file hf
  · intro f nd hf hw hnd
    by_cases hae : (s.tables.file f).ip = e
    · have hin := File.inode_of_type hf
      refine h.fileDir hf hw ?_
      change s.node ((s.setEntry e g).entry (s.tables.file f).ip).inum = some nd at hnd
      rw [hae, setEntry_self, (hsteady (hae ▸ anchored_of_file hin)).1] at hnd
      rw [hae]
      exact hnd
    · refine h.fileDir hf hw ?_
      change s.node ((s.setEntry e g).entry (s.tables.file f).ip).inum = some nd at hnd
      rw [setEntry_of_ne hae] at hnd
      exact hnd
  · intro hH i nd hi h0 hfr
    obtain ⟨a, ha, hai, hav⟩ := h.held hH hi h0 hfr
    refine ⟨a, ha, ?_⟩
    by_cases hae : a = e
    · subst hae
      rw [setEntry_self]
      obtain ⟨h₁, h₂⟩ := hsteady ha
      exact ⟨h₁.trans hai, h₂ hav⟩
    · rw [setEntry_of_ne hae]
      exact ⟨hai, hav⟩

end Inv

theorem Steady.setNode (i : ℕ) (o : Option Node) : Steady p c s (s.setNode i o) :=
  ⟨rfl, fun _ => ⟨rfl, id⟩⟩

theorem Steady.setEntry {g : Entry → Entry}
    (hsteady : Anchored s.tables p c e → (g (s.entry e)).inum = (s.entry e).inum ∧
      ((s.entry e).valid → (g (s.entry e)).valid)) : Steady p c s (s.setEntry e g) := by
  refine ⟨rfl, fun {a} ha => ?_⟩
  by_cases hae : a = e
  · subst hae
    rw [setEntry_self]
    exact hsteady ha
  · rw [setEntry_of_ne hae]
    exact ⟨rfl, id⟩

namespace Inv

theorem more (h : Inv H sb p c own lk fresh s) (href : 0 < (s.entry e).ref)
    (hi : (s.entry e).inum = i) :
    Inv H sb p c ((e, i) ::ₘ own) lk fresh (s.setEntry e fun x => { x with ref := x.ref + 1 }) := by
  refine h.assign (fun _ a hae ha heq => hae (h.uniq ha href heq)) (fun _ => h.lt href)
    (fun _ hv => h.valid href hv) (h.clean e) ?_ ?_ ?_ ?_ (h.owner e) (fun _ _ => Iff.rfl) h.nodup
    ?_ (fun _ => ⟨i, Multiset.mem_cons_self ..⟩) fun _ => ⟨rfl, id⟩
  · rw [Multiset.map_cons, Multiset.count_cons_self]
    show (s.entry e).ref + 1 = _
    rw [h.ref]
    omega
  · intro a hae
    rw [Multiset.map_cons, Multiset.count_cons_of_ne hae]
  · intro j hm
    obtain heq | hm := Multiset.mem_cons.mp hm
    · exact hi.trans (Prod.mk.inj heq).2.symm
    · exact h.num hm
  · intro a j hae
    rw [Multiset.mem_cons]
    exact ⟨fun ho => ho.resolve_left fun heq => hae (Prod.mk.inj heq).1, .inr⟩
  · intro hl
    exact ⟨(h.locked hl).1, .inl ⟨i, Multiset.mem_cons_self ..⟩⟩

theorem less (h : Inv H sb p c ((e, i) ::ₘ own) lk fresh s)
    (hl : e ∈ lk → Referred s.tables p own e) (hc : c = some e → ∃ i, (e, i) ∈ own) :
    Inv H sb p c own lk fresh (s.setEntry e fun x => { x with ref := x.ref - 1 }) := by
  have hpos := h.ref_pos_of_mem (Multiset.mem_cons_self ..)
  refine h.assign (fun _ a hae ha heq => hae (h.uniq ha hpos heq)) (fun _ => h.lt hpos)
    (fun _ hv => h.valid hpos hv) (h.clean e) ?_ ?_
    (fun j hm => h.num (Multiset.mem_cons_of_mem hm)) ?_ (h.owner e) (fun _ _ => Iff.rfl) h.nodup
    (fun hm => ⟨(h.locked hm).1, hl hm⟩) hc fun _ => ⟨rfl, id⟩
  · show (s.entry e).ref - 1 = _
    rw [h.ref, Multiset.map_cons, Multiset.count_cons_self]
    omega
  · intro a hae
    rw [Multiset.map_cons, Multiset.count_cons_of_ne hae]
  · intro a j hae
    rw [Multiset.mem_cons]
    exact ⟨.inr, fun ho => ho.resolve_left fun heq => hae (Prod.mk.inj heq).1⟩

theorem take (h : Inv H sb p c own lk fresh s) (href : (s.entry e).ref = 0) (hi : i < sb.ninodes)
    (hnew : ∀ a, 0 < (s.entry a).ref → (s.entry a).inum ≠ i) :
    Inv H sb p c ((e, i) ::ₘ own) lk fresh
      (s.setEntry e fun x => { x with inum := i, ref := 1, valid := false }) := by
  have hnot : ∀ j, (e, j) ∉ own := fun j hm => by
    have := h.ref_pos_of_mem hm
    omega
  have hlk : e ∉ lk := fun hl => by
    have := h.ref_pos_of_locked hl
    omega
  refine h.assign (fun _ a _ ha => hnew a ha) (fun _ => hi) (fun _ hv => (nomatch hv)) (h.clean e)
    ?_ ?_ ?_ ?_ (h.owner e) (fun _ _ => Iff.rfl) h.nodup (fun hl => absurd hl hlk)
    (fun _ => ⟨i, Multiset.mem_cons_self ..⟩) fun ha => ?_
  · rw [Multiset.map_cons, Multiset.count_cons_self]
    have := h.ref e
    show (1 : ℤ) = _
    omega
  · intro a hae
    rw [Multiset.map_cons, Multiset.count_cons_of_ne hae]
  · intro j hm
    obtain heq | hm := Multiset.mem_cons.mp hm
    · exact (Prod.mk.inj heq).2.symm
    · exact absurd hm (hnot j)
  · intro a j hae
    rw [Multiset.mem_cons]
    exact ⟨fun ho => ho.resolve_left fun heq => hae (Prod.mk.inj heq).1, .inr⟩
  · have := h.ref_pos_of_anchored ha
    omega

theorem lock (h : Inv H sb p c own lk fresh s) (hr : Referred s.tables p own e) (hl : e ∉ lk)
    (hn : (s.node (s.entry e).inum).isSome) :
    Inv H sb p c own (e ::ₘ lk) fresh
      (s.setEntry e fun x => { x with owner := some p, valid := true }) := by
  have hpos := h.ref_pos_of_referred hr
  refine h.assign (fun _ a hae ha heq => hae (h.uniq ha hpos heq)) (fun _ => h.lt hpos)
    (fun _ _ => hn) (h.clean e) (h.ref e) (fun _ _ => rfl) (fun _ hm => h.num hm)
    (fun _ _ _ => Iff.rfl) ?_ ?_
    (Multiset.nodup_cons.mpr ⟨hl, h.nodup⟩) (fun _ => ⟨rfl, hr⟩) h.cwd fun _ => ⟨rfl, fun _ => rfl⟩
  · rw [if_pos (Multiset.mem_cons_self ..)]
  · intro a hae
    rw [Multiset.mem_cons]
    exact ⟨fun ho => ho.resolve_left hae, .inr⟩

theorem unlock (h : Inv H sb p c own (e ::ₘ lk) fresh s) :
    Inv H sb p c own lk fresh (s.setEntry e fun x => { x with owner := none }) := by
  have hpos := h.ref_pos_of_locked (Multiset.mem_cons_self ..)
  obtain ⟨hne, hnodup⟩ := Multiset.nodup_cons.mp h.nodup
  refine h.assign (fun _ a hae ha heq => hae (h.uniq ha hpos heq)) (fun _ => h.lt hpos)
    (fun _ hv => h.valid hpos hv) (h.clean e) (h.ref e) (fun _ _ => rfl) (fun _ hm => h.num hm)
    (fun _ _ _ => Iff.rfl) ?_ ?_ hnodup (fun hl => absurd hl hne) h.cwd fun _ => ⟨rfl, id⟩
  · rw [if_neg hne]
  · intro a hae
    rw [Multiset.mem_cons]
    exact ⟨.inr, fun ho => ho.resolve_left hae⟩

/-- An entry loses its last reference, and what it stood for may go. -/
theorem last (h : Inv H sb p c ((e, i) ::ₘ own) lk fresh s) (href : (s.entry e).ref = 1)
    (hl : e ∈ lk → Referred s.tables p own e) (hc : c = some e → ∃ i, (e, i) ∈ own) :
    Inv H sb p c own lk fresh (s.setEntry e fun x => { x with ref := 0, valid := false }) := by
  have hcount := h.ref e
  rw [href, Multiset.map_cons, Multiset.count_cons_self] at hcount
  have hnot : ∀ j, (e, j) ∉ own := fun j hm => by
    have : 0 < (own.map Prod.fst).count e :=
      Multiset.count_pos.mpr (Multiset.mem_map.mpr ⟨(e, j), hm, rfl⟩)
    omega
  refine h.assign (fun hlt => absurd hlt (lt_irrefl 0)) (fun hlt => absurd hlt (lt_irrefl 0))
    (fun hlt => absurd hlt (lt_irrefl 0)) (h.clean e) ?_ ?_ (fun j hm => absurd hm (hnot j)) ?_
    (h.owner e) (fun _ _ => Iff.rfl) h.nodup (fun hm => ?_) hc fun ha => ?_
  · show (0 : ℤ) = _
    omega
  · intro a hae
    rw [Multiset.map_cons, Multiset.count_cons_of_ne hae]
  · intro a j hae
    rw [Multiset.mem_cons]
    exact ⟨.inr, fun ho => ho.resolve_left fun heq => hae (Prod.mk.inj heq).1⟩
  · obtain ⟨j, hj⟩ | ho := hl hm
    · exact absurd hj (hnot j)
    · omega
  · obtain ho | hce := ha
    · omega
    · obtain ⟨j, hj⟩ := hc hce
      exact absurd hj (hnot j)

/-! ### Changing a node -/

theorem setNode {fresh' : Set ℕ} {nd' : Node} (h : Inv H sb p c own lk fresh s)
    (hok : NodeOk sb.ninodes i nd') (htype : ∀ nd, s.node i = some nd → nd'.type = nd.type)
    (hfresh : ∀ m, m ≠ i → m ∈ fresh → m ∈ fresh')
    (hlink : nd'.nlink = 0 → i ∈ fresh' ∨ i ∉ fresh ∧ ∃ nd, s.node i = some nd ∧ nd.nlink = 0) :
    Inv H sb p c own lk fresh' (s.setNode i (some nd')) := by
  refine ⟨h.uniq, h.lt, ?_, h.clean, h.ref, h.num, h.owner, h.nodup, h.locked, h.cwd, h.closed,
    h.file, ?_, ?_, ?_⟩
  · intro a ha hv
    show (update s.node i (some nd') (s.entry a).inum).isSome
    by_cases hai : (s.entry a).inum = i
    · rw [hai, update_self]
      rfl
    · rw [update_of_ne hai]
      exact h.valid ha hv
  · intro f x hf hw hx
    change update s.node i (some nd') (s.entry (s.tables.file f).ip).inum = some x at hx
    by_cases hai : (s.entry (s.tables.file f).ip).inum = i
    · rw [hai, update_self] at hx
      cases hx
      have hin := File.inode_of_type hf
      have hpos := h.ref_pos_of_anchored (anchored_of_file hin)
      obtain ⟨nd, hnd⟩ := Option.isSome_iff_exists.mp (h.valid hpos (h.file hin))
      rw [htype nd (hai ▸ hnd)]
      exact h.fileDir hf hw hnd
    · rw [update_of_ne hai] at hx
      exact h.fileDir hf hw hx
  · intro j x hx
    change update s.node i (some nd') j = some x at hx
    by_cases hji : j = i
    · subst hji
      rw [update_self] at hx
      cases hx
      exact hok
    · rw [update_of_ne hji] at hx
      exact h.node hx
  · intro hH j x hx h0 hj
    change update s.node i (some nd') j = some x at hx
    by_cases hji : j = i
    · subst hji
      rw [update_self] at hx
      cases hx
      obtain hin | ⟨hnot, nd, hnd, hz⟩ := hlink h0
      · exact absurd hin hj
      · exact h.held hH hnd hz hnot
    · rw [update_of_ne hji] at hx
      exact h.held hH hx h0 fun hm => hj (hfresh j hji hm)

theorem freeNode (h : Inv H sb p c own lk fresh s)
    (hnot : ∀ a, 0 < (s.entry a).ref → (s.entry a).inum ≠ i) :
    Inv H sb p c own lk fresh (s.setNode i none) := by
  refine ⟨h.uniq, h.lt, ?_, h.clean, h.ref, h.num, h.owner, h.nodup, h.locked, h.cwd, h.closed,
    h.file, ?_, ?_, ?_⟩
  · intro a ha hv
    show (update s.node i none (s.entry a).inum).isSome
    rw [update_of_ne (hnot a ha)]
    exact h.valid ha hv
  · intro f x hf hw hx
    change update s.node i none (s.entry (s.tables.file f).ip).inum = some x at hx
    have hpos := h.ref_pos_of_anchored (anchored_of_file (File.inode_of_type hf))
    rw [update_of_ne (hnot _ hpos)] at hx
    exact h.fileDir hf hw hx
  · intro j x hx
    change update s.node i none j = some x at hx
    by_cases hji : j = i
    · subst hji
      rw [update_self] at hx
      cases hx
    · rw [update_of_ne hji] at hx
      exact h.node hx
  · intro hH j x hx h0 hj
    change update s.node i none j = some x at hx
    by_cases hji : j = i
    · subst hji
      rw [update_self] at hx
      cases hx
    · rw [update_of_ne hji] at hx
      exact h.held hH hx h0 hj

end Inv

/-! ### The operations -/

section Operations

variable {α : Type}

theorem wp_onTables {f : Tables → Outcome Panic (α × Tables)} {Q : α → Abs → Prop}
    (hok : ∀ b T, f s.tables = .ok (b, T) → Q b { s with tables := T })
    (hpanic : ∀ x, f s.tables = .panic x → Mild (some x)) :
    (onTables f).wp (onAbs sb p) Mild s Q := by
  rw [onTables, Prog.wp_call]
  show (((f s.tables).bind fun r => .ok (r.1, { s with tables := r.2 })).mapPanic some).Ensures _ _
  cases hf : f s.tables with
  | ok r => exact hok r.1 r.2 hf
  | panic x => exact hpanic x hf
  | stuck => trivial

theorem wp_assign {f : Tables → α} {g : Tables → Tables} {Q : α → Abs → Prop}
    (hQ : Q (f s.tables) { s with tables := g s.tables }) :
    (onTables fun t => .ok (f t, g t)).wp (onAbs sb p) Mild s Q := by
  refine wp_onTables (fun b T heq => ?_) fun _ heq => by cases heq
  obtain ⟨rfl, rfl⟩ := Prod.mk.inj (Outcome.ok.inj heq)
  exact hQ

theorem wp_look {f : Tables → α} {Q : α → Abs → Prop} (hQ : Q (f s.tables) s) :
    (onTables fun t => .ok (f t, t)).wp (onAbs sb p) Mild s Q :=
  wp_assign hQ

theorem wp_fsPanic {x : Panic} {Q : α → Abs → Prop} (hx : Mild (some x)) :
    (fsPanic x).wp (onAbs sb p) Mild s Q :=
  wp_onTables (fun _ _ heq => (nomatch heq)) fun y heq => by cases heq; exact hx

theorem wp_beginOp (hQ : Q () s) :
    (Prog.call .beginOp).wp (onAbs sb p) Mild s Q := Prog.wp_call.mpr hQ

theorem wp_endOp (hQ : Q () s) :
    (Prog.call .endOp).wp (onAbs sb p) Mild s Q := Prog.wp_call.mpr hQ

/-- What `iget` does, also on the way out of `ialloc`. -/
theorem Inv.ensures_iget (h : Inv H sb p c own lk fresh s) (hi : i < sb.ninodes)
    {Q : Fin ninode → Abs → Prop}
    (hQ : ∀ e s', Inv H sb p c ((e, i) ::ₘ own) lk fresh s' → Steady p c s s' →
      s'.node = s.node → Q e s') :
    (s.iget i).Ensures Mild fun r => Q r.1 r.2 := by
  unfold Abs.iget
  split
  · next e he =>
    have hfound := List.find?_some he
    rw [Bool.and_eq_true, decide_eq_true_eq, beq_iff_eq] at hfound
    simp only [Outcome.ensures_ok]
    exact hQ _ _ (h.more hfound.1 hfound.2) (.setEntry fun _ => ⟨rfl, id⟩) rfl
  rename_i hnone
  have hnew : ∀ a, 0 < (s.entry a).ref → (s.entry a).inum ≠ i := by
    intro a ha heq
    have := List.find?_eq_none.mp hnone a (List.mem_finRange a)
    rw [Bool.and_eq_true, decide_eq_true_eq, beq_iff_eq] at this
    exact this ⟨ha, heq⟩
  split
  · next e he =>
    have href : (s.entry e).ref = 0 := by
      have hfound := List.find?_some he
      exact beq_iff_eq.mp hfound
    simp only [Outcome.ensures_ok]
    refine hQ _ _ (h.take href hi hnew) (.setEntry fun ha => ?_) rfl
    have := h.ref_pos_of_anchored ha
    omega
  · exact .of_mild rfl

theorem Inv.wp_iget (h : Inv H sb p c own lk fresh s) (hi : i < sb.ninodes)
    {Q : Fin ninode → Abs → Prop}
    (hQ : ∀ e s', Inv H sb p c ((e, i) ::ₘ own) lk fresh s' → Steady p c s s' →
      s'.node = s.node → Q e s') :
    (Prog.call (.iget rootdev.toNat i)).wp (onAbs sb p) Mild s Q := by
  rw [Prog.wp_call]
  show (if rootdev.toNat = rootdev.toNat ∧ i < sb.ninodes then s.iget i
    else .panic none).Ensures _ _
  rw [if_pos ⟨rfl, hi⟩]
  exact h.ensures_iget hi hQ

theorem Inv.wp_idup (h : Inv H sb p c own lk fresh s) (hm : (e, i) ∈ own)
    (hQ : ∀ s', Inv H sb p c ((e, i) ::ₘ own) lk fresh s' → Steady p c s s' →
      s'.node = s.node → Q () s') : (Prog.call (.idup e)).wp (onAbs sb p) Mild s Q := by
  have hpos := h.ref_pos_of_mem hm
  rw [Prog.wp_call]
  show (if 0 < (s.entry e).ref then _ else _ : Outcome (Option Panic) (Unit × Abs)).Ensures _ _
  rw [if_pos hpos]
  simp only [Outcome.ensures_ok]
  exact hQ _ (h.more hpos (h.num hm)) (.setEntry fun _ => ⟨rfl, id⟩) rfl

/-- `ilock` succeeds if the inode is there, or waits for ever. -/
theorem Inv.wp_ilock (h : Inv H sb p c own lk fresh s) (hr : Referred s.tables p own e)
    (hnum : (s.entry e).inum = i)
    (hQ : ∀ s' nd, e ∉ lk → Inv H sb p c own (e ::ₘ lk) fresh s' → Steady p c s s' →
      s'.node = s.node → s.node i = some nd → Q () s') :
    (Prog.call (.ilock e)).wp (onAbs sb p) Mild s Q := by
  have hpos := h.ref_pos_of_referred hr
  rw [Prog.wp_call]
  show (if (s.entry e).ref < 1 then _ else if (s.entry e).owner ≠ none then _ else
    if (s.entry e).valid || (s.node (s.entry e).inum).isSome then _ else _ :
    Outcome (Option Panic) (Unit × Abs)).Ensures _ _
  rw [if_neg (by omega)]
  split
  · trivial
  rename_i howner
  have hl : e ∉ lk := fun hl => howner (by rw [h.owner, if_pos hl]; exact Option.some_ne_none p)
  split
  · next hok =>
    have hsome : (s.node i).isSome := by
      rw [Bool.or_eq_true, hnum] at hok
      exact hok.elim (fun hv => hnum ▸ h.valid hpos hv) id
    obtain ⟨nd, hnd⟩ := Option.isSome_iff_exists.mp hsome
    simp only [Outcome.ensures_ok]
    exact hQ _ nd hl (h.lock hr hl (hnum ▸ hsome)) (.setEntry fun _ => ⟨rfl, fun _ => rfl⟩) rfl hnd
  · exact ⟨_, rfl, by decide, by decide⟩

theorem Inv.wp_iunlock (h : Inv H sb p c own (e ::ₘ lk) fresh s)
    (hQ : ∀ s', Inv H sb p c own lk fresh s' → Steady p c s s' → s'.node = s.node →
      (s'.entry e).valid → Q () s') : (Prog.call (.iunlock e)).wp (onAbs sb p) Mild s Q := by
  have hpos := h.ref_pos_of_locked (Multiset.mem_cons_self ..)
  have howner : (s.entry e).owner = some p := by
    rw [h.owner, if_pos (Multiset.mem_cons_self ..)]
  rw [Prog.wp_call]
  show (if (s.entry e).owner ≠ some p ∨ (s.entry e).ref < 1 then _
    else if (s.entry e).dirty then _ else _ : Outcome (Option Panic) (Unit × Abs)).Ensures _ _
  rw [if_neg (not_or.mpr ⟨not_not.mpr howner, by omega⟩), if_neg (by rw [h.clean]; exact nofun)]
  simp only [Outcome.ensures_ok]
  refine hQ _ h.unlock (.setEntry fun _ => ⟨rfl, id⟩) rfl ?_
  rw [setEntry_self]
  exact (h.locked (Multiset.mem_cons_self ..)).1

/-- `iput` gives a reference back, and frees an inode without links if it was the last. -/
theorem Inv.wp_iput (h : Inv H sb p c ((e, i) ::ₘ own) lk fresh s)
    (hl : e ∈ lk → Referred s.tables p own e) (hc : c = some e → ∃ i, (e, i) ∈ own)
    (hQ : ∀ s', Inv H sb p c own lk fresh s' → Steady p c s s' → Freed s.node s'.node →
      (∀ x ∈ own, s'.node x.2 = s.node x.2) →
      (H → (i ∈ fresh → ∃ a, (a, i) ∈ own) → s'.node = s.node) →
      (∀ nd, s'.node i = some nd → nd.nlink = 0 → (s.entry e).valid →
        0 < (s'.entry e).ref ∧ (s'.entry e).inum = i ∧ (s'.entry e).valid) → Q () s') :
    (Prog.call (.iput e)).wp (onAbs sb p) Mild s Q := by
  have hmem : (e, i) ∈ (e, i) ::ₘ own := Multiset.mem_cons_self ..
  have hpos := h.ref_pos_of_mem hmem
  have hnum := h.num hmem
  rw [Prog.wp_call]
  show (if (s.entry e).ref < 1 ∨ (s.entry e).dirty then _
    else if (s.entry e).ref = 1 ∧ (s.entry e).valid ∧ s.unlinked e then
      if (s.entry e).owner = none then _ else _
    else _ : Outcome (Option Panic) (Unit × Abs)).Ensures _ _
  rw [if_neg (not_or.mpr ⟨by omega, by rw [h.clean]; exact nofun⟩)]
  split
  · next hlast =>
    obtain ⟨href, hv, hunl⟩ := hlast
    split
    · -- the inode is freed: nothing else refers to it
      rw [Abs.unlinked, hnum] at hunl
      obtain ⟨nd, hnd, h0⟩ := Option.map_eq_some_iff.mp hunl
      have hrest := h.last href hl hc
      have hnot : ∀ a,
          0 < ((s.setEntry e fun x => { x with ref := 0, valid := false }).entry a).ref →
          ((s.setEntry e fun x => { x with ref := 0, valid := false }).entry a).inum ≠ i := by
        intro a ha
        have hae : a ≠ e := by
          rintro rfl
          rw [setEntry_self] at ha
          exact lt_irrefl 0 ha
        rw [setEntry_of_ne hae] at ha ⊢
        exact fun heq => hae (h.uniq ha hpos (heq.trans hnum.symm))
      have hown : ∀ x ∈ own, x.2 ≠ i := by
        rintro ⟨a, j⟩ hx rfl
        exact hnot a (hrest.ref_pos_of_mem hx) (hrest.num hx)
      have hfinal := hrest.freeNode hnot
      rw [hnum]
      refine hQ _ hfinal ⟨rfl, fun {a} ha => ?_⟩ ((Freed.refl _).step hnd h0) (fun x hx => ?_)
        (fun hH hf => ?_) ?_
      · have hae : a ≠ e := by
          rintro rfl
          have := hrest.ref_pos_of_anchored ha
          rw [setEntry_self] at this
          exact lt_irrefl 0 this
        rw [setEntry_of_ne hae]
        exact ⟨rfl, id⟩
      · exact update_of_ne (hown x hx) ..
      · have hf : i ∉ fresh := fun hm => by
          obtain ⟨a, ha⟩ := hf hm
          exact hown _ ha rfl
        obtain ⟨a, ha, hai, -⟩ := h.held hH hnd h0 hf
        have hpos' := hrest.ref_pos_of_anchored ha
        by_cases hae : a = e
        · rw [hae, setEntry_self] at hpos'
          exact absurd hpos' (lt_irrefl 0)
        · refine absurd ?_ (hnot a hpos')
          rw [setEntry_of_ne hae]
          exact hai
      · intro nd' hnd'
        change update s.node i none i = some nd' at hnd'
        rw [update_self] at hnd'
        cases hnd'
    · trivial
  · next hnot =>
    simp only [Outcome.ensures_ok]
    refine hQ _ (h.less hl hc) (.setEntry fun _ => ⟨rfl, id⟩) (.refl _) (fun _ _ => rfl)
      (fun _ _ => rfl) ?_
    intro nd hnd h0 hv
    rw [setEntry_self]
    refine ⟨?_, hnum, hv⟩
    have hne : (s.entry e).ref ≠ 1 := fun href => hnot ⟨href, hv, by
      rw [Abs.unlinked, hnum]
      exact (congrArg (Option.map Node.nlink) hnd).trans (congrArg some h0)⟩
    show 0 < (s.entry e).ref - 1
    omega

theorem Inv.wp_iunlockput (h : Inv H sb p c ((e, i) ::ₘ own) (e ::ₘ lk) fresh s)
    (hc : c = some e → ∃ i, (e, i) ∈ own)
    (hQ : ∀ s', Inv H sb p c own lk fresh s' → Steady p c s s' → Freed s.node s'.node →
      (∀ x ∈ own, s'.node x.2 = s.node x.2) →
      (H → (i ∈ fresh → ∃ a, (a, i) ∈ own) → s'.node = s.node) →
      (∀ nd, s'.node i = some nd → nd.nlink = 0 →
        0 < (s'.entry e).ref ∧ (s'.entry e).inum = i ∧ (s'.entry e).valid) → Q () s') :
    (iunlockput e).wp (onAbs sb p) Mild s Q := by
  have hnot := (Multiset.nodup_cons.mp h.nodup).1
  rw [iunlockput, Prog.wp_bind]
  refine h.wp_iunlock fun s₁ h₁ hst₁ hnode₁ hvalid₁ => ?_
  refine h₁.wp_iput (fun hl => absurd hl hnot) hc fun s₂ h₂ hst₂ hfree hkeep hH hdead => ?_
  rw [hnode₁] at hfree hkeep hH
  exact hQ s₂ h₂ (hst₁.trans hst₂) hfree hkeep hH fun nd hnd h0 => hdead nd hnd h0 hvalid₁

section Locked

variable (h : Inv H sb p c own lk fresh s)
include h

theorem Inv.wp_attr (hl : e ∈ lk) (hnum : (s.entry e).inum = i) (hi : s.node i = some nd)
    {Q : Attr → Abs → Prop} (hQ : Q nd.attr s) :
    (Prog.call (.attr e)).wp (onAbs sb p) Mild s Q := by
  obtain ⟨nd', hi', hlocked⟩ := h.locked_eq hl hnum
  rw [hi] at hi'
  cases hi'
  rw [Prog.wp_call]
  show (withLocked p s e _).Ensures _ _
  rw [withLocked, hlocked]
  exact hQ

theorem Inv.wp_ident (hm : (e, i) ∈ own) {Q : ℕ × ℕ → Abs → Prop} (hQ : Q (rootdev.toNat, i) s) :
    (Prog.call (.ident e)).wp (onAbs sb p) Mild s Q := by
  rw [Prog.wp_call]
  show (if 0 < (s.entry e).ref then .ok ((rootdev.toNat, (s.entry e).inum), s)
    else .panic none : Outcome (Option Panic) ((ℕ × ℕ) × Abs)).Ensures _ _
  rw [if_pos (h.ref_pos_of_mem hm), h.num hm]
  exact hQ

theorem Inv.wp_readi (hl : e ∈ lk) (hnum : (s.entry e).inum = i) (hi : s.node i = some nd)
    {dst : Dst} (hn : n < 2 ^ 32) {Q : ℤ × List UInt8 → Abs → Prop} (hQ : Q (nd.read dst off n) s) :
    (Prog.call (.readi e dst off n)).wp (onAbs sb p) Mild s Q := by
  obtain ⟨nd', hi', hlocked⟩ := h.locked_eq hl hnum
  rw [hi] at hi'
  cases hi'
  rw [Prog.wp_call]
  show (withLocked p s e _).Ensures _ _
  rw [withLocked, hlocked]
  dsimp only
  rw [if_pos hn]
  exact hQ

/-- `setLinks` and the `iupdate` that follows it. -/
theorem Inv.wp_setLinks {f : Links → Links} (fresh' : Set ℕ) (hl : e ∈ lk)
    (hnum : (s.entry e).inum = i) (hi : s.node i = some nd)
    (hfresh : ∀ m, m ≠ i → m ∈ fresh → m ∈ fresh')
    (hlink : (nd.setLinks f).nlink = 0 → i ∈ fresh' ∨ i ∉ fresh ∧ nd.nlink = 0)
    (hQ : ∀ s', Inv H sb p c own lk fresh' s' → Steady p c s s' →
      s'.node = update s.node i (some (nd.setLinks f)) → Q () s') :
    (Prog.call (.setLinks e f)).wp (onAbs sb p) Mild s fun _ s₁ =>
      (Prog.call (.iupdate e)).wp (onAbs sb p) Mild s₁ Q := by
  obtain ⟨nd', hi', hlocked⟩ := h.locked_eq hl hnum
  rw [hi] at hi'
  cases hi'
  rw [Prog.wp_call]
  show (withLocked p s e _).Ensures _ _
  rw [withLocked, hlocked]
  dsimp only
  show (Prog.call (.iupdate e)).wp (onAbs sb p) Mild _ Q
  set s₁ := (s.setNode (s.entry e).inum (some (nd.setLinks f))).setEntry e
    fun x => { x with dirty := true } with hs₁
  -- still locked, and clean once it is written back
  have hlocked₁ : s₁.locked p e = some (nd.setLinks f) := by
    obtain ⟨⟨h₁, h₂, h₃⟩, -⟩ := locked_eq_some.mp hlocked
    refine locked_eq_some.mpr ⟨?_, ?_⟩
    · rw [hs₁, setEntry_self]
      exact ⟨h₁, h₂, h₃⟩
    · rw [hs₁, setEntry_self]
      exact update_self ..
  have hback : s₁.setEntry e (fun x => { x with dirty := false })
      = s.setNode i (some (nd.setLinks f)) := by
    have hentry : update s₁.entry e { s₁.entry e with dirty := false } = s.entry := by
      funext a
      by_cases hae : a = e
      · subst hae
        rw [update_self, hs₁, setEntry_self]
        have hclean := h.clean a
        show ({ s.entry a with dirty := false } : Entry) = s.entry a
        rw [← hclean]
      · rw [update_of_ne hae, hs₁, setEntry_of_ne hae]
        rfl
    rw [Abs.setEntry, hentry, hs₁, hnum]
    rfl
  rw [Prog.wp_call]
  show (withLocked p s₁ e _).Ensures _ _
  rw [withLocked, hlocked₁]
  dsimp only
  rw [hback]
  refine hQ _ (h.setNode ⟨(h.node hi).lt, (h.node hi).size, (h.node hi).dir⟩ ?_ hfresh ?_)
    (.setNode ..) rfl
  · intro x hx
    rw [hi] at hx
    cases hx
    rfl
  · intro h0
    exact (hlink h0).imp_right fun hz => ⟨hz.1, nd, hi, hz.2⟩

theorem Inv.setData {data : List UInt8} (hi : s.node i = some nd)
    (hsize : data.length ≤ maxfile * bsize) (hdir : nd.type = tDir → DirOk sb.ninodes data) :
    Inv H sb p c own lk fresh (s.setNode i (some { nd with data := data })) := by
  refine h.setNode ⟨(h.node hi).lt, hsize, hdir⟩ ?_ (fun _ _ hm => hm) fun h0 => ?_
  · intro x hx
    rw [hi] at hx
    cases hx
    rfl
  · by_cases hf : i ∈ fresh
    · exact .inl hf
    · exact .inr ⟨hf, nd, hi, h0⟩

/-- An operation that writes the inode back leaves the entries as they are. -/
theorem Inv.setEntry_clean (e : Fin ninode) :
    s.setEntry e (fun x => { x with dirty := false }) = s := by
  have hentry : update s.entry e { s.entry e with dirty := false } = s.entry := by
    funext a
    by_cases hae : a = e
    · subst hae
      rw [update_self, ← h.clean a]
    · rw [update_of_ne hae]
  rw [Abs.setEntry, hentry]

end Locked

theorem length_write_le (nd : Node) (src : Src) (hn : n < 2 ^ 32)
    (hsize : nd.data.length ≤ maxfile * bsize) :
    (nd.write src off n).2.length ≤ maxfile * bsize := by
  have hmax : maxfile * bsize < 2 ^ 32 := by decide
  unfold Node.write
  split
  · exact hsize
  rename_i hoff
  split
  · exact hsize
  rename_i hbig
  have hfetch := length_fetch_le src 0 n
  rw [length_overlay]
  have hstop : Node.writeStop off n (src.fetch 0 n).length ≤ off + n := by
    rw [Node.writeStop]
    split
    · exact le_rfl
    · have := Nat.div_mul_le_self (off + (src.fetch 0 n).length) bsize
      omega
  omega

theorem Inv.wp_writei (h : Inv H sb p c own lk fresh s) (hl : e ∈ lk)
    (hnum : (s.entry e).inum = i) (hi : s.node i = some nd) {src : Src} (hn : n < 2 ^ 32)
    (hdir : nd.type = tDir → DirOk sb.ninodes (nd.write src off n).2) {Q : ℤ → Abs → Prop}
    (hQ : ∀ s', Inv H sb p c own lk fresh s' → Steady p c s s' →
      s'.node = update s.node i (some { nd with data := (nd.write src off n).2 }) →
      Q (nd.write src off n).1 s') :
    (Prog.call (.writei e src off n)).wp (onAbs sb p) Mild s Q := by
  obtain ⟨nd', hi', hlocked⟩ := h.locked_eq hl hnum
  rw [hi] at hi'
  cases hi'
  have hdata := h.setData hi (length_write_le nd src hn (h.node hi).size) hdir
  rw [Prog.wp_call]
  show (withLocked p s e _).Ensures _ _
  rw [withLocked, hlocked]
  dsimp only
  rw [if_pos hn]
  split
  · next hfail =>
    -- nothing is written
    have hsame : (nd.write src off n).2 = nd.data := by
      unfold Node.write at hfail ⊢
      split
      · rfl
      rename_i hoff
      rw [if_neg hoff] at hfail
      split
      · rfl
      · next hbig =>
        rw [if_neg hbig] at hfail
        dsimp only at hfail
        omega
    refine hQ _ h (.refl ..) ?_
    rw [hsame]
    exact (update_eq_self_iff.mpr hi.symm).symm
  · rw [hnum, hdata.setEntry_clean]
    exact hQ _ hdata (.setNode ..) rfl

theorem Inv.wp_itrunc (h : Inv H sb p c own lk fresh s) (hl : e ∈ lk)
    (hnum : (s.entry e).inum = i) (hi : s.node i = some nd)
    (hQ : ∀ s', Inv H sb p c own lk fresh s' → Steady p c s s' →
      s'.node = update s.node i (some { nd with data := [] }) → Q () s') :
    (Prog.call (.itrunc e)).wp (onAbs sb p) Mild s Q := by
  obtain ⟨nd', hi', hlocked⟩ := h.locked_eq hl hnum
  rw [hi] at hi'
  cases hi'
  have hdata := h.setData hi (show [].length ≤ maxfile * bsize from Nat.zero_le _) fun _ k hk =>
    absurd hk (by rw [slots]; simp)
  rw [Prog.wp_call]
  show (withLocked p s e _).Ensures _ _
  rw [withLocked, hlocked]
  dsimp only
  rw [hnum, hdata.setEntry_clean]
  exact hQ _ hdata (.setNode ..) rfl

/-- `ialloc` makes a node without links, to be given some before it is unlocked. -/
theorem Inv.wp_ialloc (h : Inv H sb p c own lk fresh s) {type : BitVec 16} (ht : type ≠ 0)
    {Q : Fin ninode → Abs → Prop}
    (hQ : ∀ e j s', j ≠ 0 → j < sb.ninodes → s.node j = none →
      Inv H sb p c ((e, j) ::ₘ own) lk (insert j fresh) s' → Steady p c s s' →
      s'.node = update s.node j (some ⟨type, 0, 0, 0, []⟩) → Q e s') :
    (Prog.call (.ialloc rootdev.toNat type)).wp (onAbs sb p) Mild s Q := by
  rw [Prog.wp_call]
  dsimp only [onAbs]
  rw [if_pos ⟨rfl, ht⟩]
  split
  · next j hj =>
    have hnone := Option.isNone_iff_eq_none.mp
      (List.find?_some (p := fun i => (s.node i).isNone) hj)
    have hrange := List.mem_range'_1.mp (List.mem_of_find?_eq_some hj)
    have hlt : j < sb.ninodes := by omega
    have hnew : Inv H sb p c own lk (insert j fresh) (s.setNode j (some ⟨type, 0, 0, 0, []⟩)) := by
      refine h.setNode ⟨hlt, Nat.zero_le _, fun _ k hk => absurd hk (by rw [slots]; simp)⟩ ?_
        (fun m _ hm => Set.mem_insert_of_mem _ hm) fun _ => .inl (Set.mem_insert ..)
      intro x hx
      rw [hnone] at hx
      cases hx
    refine hnew.ensures_iget hlt fun e s' hinv hsteady hnode => ?_
    exact hQ e j s' (by omega) hlt hnone hinv
      ((Steady.setNode j _).trans hsteady) hnode
  · exact .of_mild rfl

end Operations

end Xv6.Fs
