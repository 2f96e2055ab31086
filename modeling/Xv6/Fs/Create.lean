import Xv6.Fs.Change
import Xv6.Fs.Files

/-!
# Between system calls, and how names are made

What is true when no call runs, and the specification of `create`, which `sys_open`, `sys_mkdir`
and `sys_mknod` share.

## Main definitions

* `Rest` — what is true between system calls.
* `FreshName` — the last element of a path is not there yet.

## Main results

* `Rest.inv`, `Inv.rest` — a call starts and ends at rest.
* `Inv.wp_create` — `create` finds a file or makes one.
-/

namespace Xv6.Fs

open Function

/-! ### At rest -/

/-- The references to an entry of the inode table: those of current directories, and those of
open files. -/
@[irreducible] def inodeRefs (T : Tables) (e : Fin ninode) : ℕ :=
  (∑ q, if (T.proc q).cwd = some e then 1 else 0) + ∑ f, if (T.file f).inode = some e then 1 else 0

/-- What is true between system calls.  If `H` holds, inodes without links are in use. -/
structure Rest (H : Prop) (sb : Super) (s : Abs) : Prop where
  uniq : ∀ {e e'}, 0 < (s.entry e).ref → 0 < (s.entry e').ref →
    (s.entry e).inum = (s.entry e').inum → e = e'
  lt : ∀ {e}, 0 < (s.entry e).ref → (s.entry e).inum < sb.ninodes
  valid : ∀ {e}, 0 < (s.entry e).ref → (s.entry e).valid → (s.node (s.entry e).inum).isSome
  clean : ∀ e, (s.entry e).dirty = false
  ref : ∀ e, (s.entry e).ref = (inodeRefs s.tables e : ℕ)
  owner : ∀ e, (s.entry e).owner = none
  files : FilesOk s.tables 0
  file : ∀ {f e}, (s.tables.file f).inode = some e → (s.entry e).valid
  fileDir : ∀ {f nd}, (s.tables.file f).type = .inode → (s.tables.file f).writable →
    s.node (s.entry (s.tables.file f).ip).inum = some nd → nd.type ≠ tDir
  node : ∀ {i nd}, s.node i = some nd → NodeOk sb.ninodes i nd
  held : H → ∀ {i nd}, s.node i = some nd → nd.nlink = 0 →
    ∃ e, 0 < (s.entry e).ref ∧ (s.entry e).inum = i ∧ (s.entry e).valid

/-- The reference a process has for its current directory. -/
def cwdOwn (s : Abs) (p : Pid) : Multiset (Fin ninode × ℕ) :=
  match (s.tables.proc p).cwd with
  | some e => {(e, (s.entry e).inum)}
  | none => 0

variable {H : Prop} {sb : Super} {p : Pid} {c : Option (Fin ninode)}
  {own : Multiset (Fin ninode × ℕ)} {lk : Multiset (Fin ninode)} {fresh : Set ℕ} {s : Abs}
  {e : Fin ninode} {i : ℕ} {nd : Node}

theorem inodeRefs_eq (T : Tables) (p : Pid) (e : Fin ninode) :
    inodeRefs T e = others T p e + if (T.proc p).cwd = some e then 1 else 0 := by
  have hsum := Finset.add_sum_erase Finset.univ
    (fun q => if (T.proc q).cwd = some e then 1 else 0) (Finset.mem_univ p)
  have herase : ∑ q ∈ Finset.univ.erase p, (if (T.proc q).cwd = some e then 1 else 0)
      = ∑ q, if q ≠ p ∧ (T.proc q).cwd = some e then 1 else 0 := by
    rw [← Finset.add_sum_erase Finset.univ
      (fun q => if q ≠ p ∧ (T.proc q).cwd = some e then 1 else 0) (Finset.mem_univ p)]
    rw [if_neg fun h => h.1 rfl, Nat.zero_add]
    refine Finset.sum_congr rfl fun q hq => ?_
    simp only [ne_eq, Finset.ne_of_mem_erase hq, not_false_eq_true, true_and]
  unfold inodeRefs others
  generalize (∑ f, if (T.file f).inode = some e then 1 else 0) = b
  omega

theorem cwdOwn_of_cwd (h : (s.tables.proc p).cwd = some e) :
    cwdOwn s p = {(e, (s.entry e).inum)} := by
  rw [cwdOwn, h]

theorem cwdOwn_of_none (h : (s.tables.proc p).cwd = none) : cwdOwn s p = 0 := by
  rw [cwdOwn, h]

/-- The only reference a call has when it starts is that to its current directory. -/
theorem cwd_of_mem_cwdOwn (hm : (e, i) ∈ cwdOwn s p) : (s.tables.proc p).cwd = some e := by
  cases hc : (s.tables.proc p).cwd with
  | none =>
    rw [cwdOwn_of_none hc] at hm
    exact absurd hm (Multiset.notMem_zero _)
  | some e' =>
    rw [cwdOwn_of_cwd hc, Multiset.mem_singleton] at hm
    rw [(Prod.mk.inj hm).1]

theorem count_cwdOwn (s : Abs) (p : Pid) (e : Fin ninode) :
    ((cwdOwn s p).map Prod.fst).count e = if (s.tables.proc p).cwd = some e then 1 else 0 := by
  cases hc : (s.tables.proc p).cwd with
  | none =>
    rw [cwdOwn_of_none hc]
    rfl
  | some e' =>
    rw [cwdOwn_of_cwd hc, Multiset.map_singleton, Multiset.count_singleton]
    simp only [Option.some.injEq, eq_comm]

theorem Rest.weaken {H' : Prop} (h : Rest H sb s) (hH : H' → H) : Rest H' sb s :=
  ⟨h.uniq, h.lt, h.valid, h.clean, h.ref, h.owner, h.files, h.file, h.fileDir, h.node,
    fun hh => h.held (hH hh)⟩

theorem Rest.inv (h : Rest H sb s) (p : Pid) :
    Inv H sb p (s.tables.proc p).cwd (cwdOwn s p) 0 ∅ s := by
  refine ⟨h.uniq, h.lt, h.valid, h.clean, fun e => ?_, fun {e i} hm => ?_, fun e => ?_,
    Multiset.nodup_zero, fun hm => absurd hm (Multiset.notMem_zero _), fun {e} hc => ?_,
    fun f => h.files.closed, h.file, h.fileDir, h.node, fun hH i nd hi h0 _ => ?_⟩
  · rw [h.ref, inodeRefs_eq s.tables p, count_cwdOwn, Nat.add_comm]
  · rw [cwdOwn_of_cwd (cwd_of_mem_cwdOwn hm), Multiset.mem_singleton] at hm
    exact (Prod.mk.inj hm).2.symm
  · rw [h.owner, if_neg (Multiset.notMem_zero _)]
  · rw [cwdOwn_of_cwd hc]
    exact ⟨_, Multiset.mem_singleton_self _⟩
  · obtain ⟨e, hpos, he⟩ := h.held hH hi h0
    refine ⟨e, ?_, he⟩
    rw [h.ref, inodeRefs_eq s.tables p] at hpos
    by_cases hc : (s.tables.proc p).cwd = some e
    · exact .inr hc
    · rw [if_neg hc] at hpos
      exact .inl (by omega)

theorem Inv.rest (h : Inv H sb p c own 0 ∅ s) (hF : FilesOk s.tables 0)
    (hc : (s.tables.proc p).cwd = c)
    (hown : ∀ e, (own.map Prod.fst).count e = if c = some e then 1 else 0) : Rest H sb s := by
  refine ⟨h.uniq, h.lt, h.valid, h.clean, fun e => ?_, fun e => ?_, hF, h.file, h.fileDir, h.node,
    fun hH i nd hi h0 => ?_⟩
  · rw [h.ref, inodeRefs_eq s.tables p, hown, hc, Nat.add_comm]
  · rw [h.owner, if_neg (Multiset.notMem_zero _)]
  · obtain ⟨e, ha, he⟩ := h.held hH hi h0 (Set.notMem_empty _)
    exact ⟨e, h.ref_pos_of_anchored ha, he⟩

/-! ### Giving up what has lost its links -/

theorem Inv.mono (h : Inv H sb p c own lk fresh s) (fresh' : Set ℕ) (hsub : fresh ⊆ fresh') :
    Inv H sb p c own lk fresh' s :=
  ⟨h.uniq, h.lt, h.valid, h.clean, h.ref, h.num, h.owner, h.nodup, h.locked, h.cwd, h.closed,
    h.file, h.fileDir, h.node, fun hH _ _ hi h0 hf => h.held hH hi h0 fun hm => hf (hsub hm)⟩

theorem Inv.anchored (h : Inv H sb p c own lk fresh s) (hpos : 0 < (s.entry e).ref)
    (hown : ∀ {i}, (e, i) ∈ own → c = some e) : Anchored s.tables p c e := by
  by_cases hc : c = some e
  · exact .inr hc
  left
  have hzero : (own.map Prod.fst).count e = 0 := by
    refine Multiset.count_eq_zero.mpr fun hm => ?_
    obtain ⟨x, hx, rfl⟩ := Multiset.mem_map.mp hm
    exact hc (hown hx)
  have := h.ref e
  omega

/-- `iunlockput` of an inode that may have lost its links. -/
theorem Inv.wp_iunlockput_settle
    (h : Inv H sb p c ((e, i) ::ₘ own) (e ::ₘ lk) (insert i fresh) s)
    (hc : c = some e → ∃ i, (e, i) ∈ own) (hown : ∀ {i}, (e, i) ∈ own → c = some e)
    {Q : Unit → Abs → Prop}
    (hQ : ∀ s', Inv H sb p c own lk fresh s' → Steady p c s s' → Freed s.node s'.node →
      (∀ x ∈ own, s'.node x.2 = s.node x.2) → Q () s') :
    (iunlockput e).wp (onAbs sb p) Mild s Q := by
  refine h.wp_iunlockput hc fun s' hinv hst hfree hkeep _ hdead => ?_
  refine hQ s' (hinv.settle fun _ nd hnd h0 _ => ?_) hst hfree hkeep
  obtain ⟨hpos, hi, hv⟩ := hdead nd hnd h0
  exact ⟨e, hinv.anchored hpos hown, hi, hv⟩

/-! ### `create` -/

/-- The last element of a path is not there yet. -/
def FreshName (s : Abs) (p : Pid) (path : List UInt8) : Prop :=
  ∃ i name nd, resolve s p true path = some (i, name) ∧ s.node i = some nd ∧
    lookup nd.data name = none

theorem not_freshName_of_none {path : List UInt8} (h : resolve s p true path = none) :
    ¬ FreshName s p path := by
  rintro ⟨i, name, nd, hr, -⟩
  rw [h] at hr
  cases hr

theorem not_freshName_of_some {path name : List UInt8} {k : ℕ}
    (h : resolve s p true path = some (i, name)) (hi : s.node i = some nd)
    (hk : lookup nd.data name = some k) : ¬ FreshName s p path := by
  rintro ⟨i', name', nd', hr, hi', hno⟩
  rw [h] at hr
  obtain ⟨rfl, rfl⟩ := Prod.mk.inj (Option.some.inj hr)
  rw [hi] at hi'
  cases hi'
  rw [hk] at hno
  cases hno

/-- The nodes after the part of `create` that is about directories. -/
def withDots (N : Nodes) (i j : ℕ) (nd x : Node) : Nodes :=
  if x.type = tDir then
    update (update N i (some { nd with nlink := nd.nlink + 1 })) j
      (some { x with data := dotEntries j i })
  else N

section Dots

variable {dp ip : Fin ninode} {j : ℕ} {x : Node}

theorem vacant_nil {k : ℕ} (h : Vacant [] k) : k = 0 := Nat.le_zero.mp h.le

theorem vacant_one {k : ℕ} {de : Dirent} (hlen : de.name.length = dirsiz) (h0 : de.inum.toNat ≠ 0)
    (h : Vacant (setDirent [] 0 de) k) : k = 1 := by
  have hslots : slots (setDirent [] 0 de) = 1 := by
    rw [slots_setDirent]
    rfl
  have hle := h.le
  rw [hslots] at hle
  obtain rfl | hk := Nat.eq_zero_or_pos k
  · have hempty := h.empty (by rw [hslots]; exact Nat.one_pos)
    rw [dirent_setDirent hlen (Nat.zero_le _) (by omega), if_pos rfl] at hempty
    exact absurd hempty h0
  · omega

theorem Inv.wp_createDots (h : Inv H sb p c own lk fresh s) (fresh' : Set ℕ) (hdl : dp ∈ lk)
    (hil : ip ∈ lk) (hdm : (dp, i) ∈ own) (him : (ip, j) ∈ own) (hi : s.node i = some nd)
    (hj : s.node j = some x) (hij : i ≠ j) (hdata : x.data = []) (hj0 : j ≠ 0)
    (hfresh : fresh ⊆ fresh')
    (hlink : x.type = tDir → nd.nlink + 1 = 0 → i ∈ fresh')
    {Q : Unit → Abs → Prop}
    (hQ : ∀ s', Inv H sb p c own lk fresh' s' → Steady p c s s' →
      s'.node = withDots s.node i j nd x → Q () s') :
    (createDots dp ip i j x.type).wp (onAbs sb p) Mild s Q := by
  have hilt := (h.node hi).lt
  have hjlt := (h.node hj).lt
  rw [createDots]
  split
  · next ht =>
    simp only [Prog.wp_bind]
    refine h.wp_setLinks (f := fun a => { a with nlink := a.nlink + 1 }) fresh' hdl (h.num hdm) hi
      (fun m _ hm => hfresh hm) (fun h0 => .inl (hlink ht h0)) fun s₁ h₁ hst₁ hnode₁ => ?_
    have hj₁ : s₁.node j = some x := by rw [hnode₁, update_of_ne hij.symm, hj]
    -- "." goes first
    refine h₁.wp_dirlink hil him hj₁ hjlt (fun k s' _ hk _ _ _ _ _ => ?_)
      fun k s₂ _ _ _ hv h₂ hst₂ hnode₂ => ?_
    · have := (lookup_some hk).1
      rw [hdata] at this
      exact absurd this (Nat.not_lt_zero k)
    rw [hdata] at hv
    obtain rfl := vacant_nil hv
    have hj₂ : s₂.node j = some (x.setEntry 0 (newEntry dot j)) := by
      rw [hnode₂, update_self]
    rw [if_neg (by decide)]
    simp only [Prog.wp_bind]
    refine h₂.wp_dirlink hil him hj₂ hilt (fun k s' _ hk _ _ _ _ _ => ?_)
      fun k s₃ _ _ _ hv h₃ hst₃ hnode₃ => ?_
    · obtain ⟨hlt, -, hname⟩ := lookup_some hk
      change k < slots (setDirent x.data 0 (newEntry dot j)) at hlt
      change cname (dirent (setDirent x.data 0 (newEntry dot j)) k).name = _ at hname
      rw [hdata] at hlt hname
      have hk0 : k = 0 := by
        rw [slots_setDirent] at hlt
        change k < max 0 1 at hlt
        omega
      subst hk0
      rw [dirent_setDirent length_newEntry (Nat.zero_le _) (by omega), if_pos rfl,
        cname_newEntry] at hname
      exact absurd hname (by decide)
    change Vacant (setDirent x.data 0 (newEntry dot j)) k at hv
    rw [hdata] at hv
    obtain rfl := vacant_one length_newEntry
      (by rw [newEntry_inum hjlt sb.ninodes_le]; exact hj0) hv
    rw [if_neg (by decide)]
    refine hQ s₃ h₃ ((hst₁.trans hst₂).trans hst₃) ?_
    rw [hnode₃, hnode₂, hnode₁, update_idem, withDots, if_pos ht]
    have hdots : (x.setEntry 0 (newEntry dot j)).setEntry 1 (newEntry dotdot i)
        = { x with data := dotEntries j i } := by
      rw [Node.setEntry, Node.setEntry, hdata]
      rfl
    rw [hdots]
    rfl
  · next ht =>
    refine hQ s (h.mono fresh' hfresh) (.refl ..) ?_
    rw [withDots, if_neg ht]

/-- What `create` made. -/
theorem created_of_withDots {N M : Nodes} {n k : ℕ} {name : List UInt8}
    {type major minor : BitVec 16} (hi : N i = some nd) (hp : Place nd name k) (hj : N j = none)
    (hlt : j < n) (h0 : j ≠ 0) {nd' : Node}
    (hnd' : withDots (update N j (some ⟨type, major, minor, 1, []⟩)) i j nd
      ⟨type, major, minor, 1, []⟩ i = some nd')
    (hM : M = update (withDots (update N j (some ⟨type, major, minor, 1, []⟩)) i j
      nd ⟨type, major, minor, 1, []⟩) i (some (nd'.setEntry k (newEntry name j)))) :
    Created n N M ∧ ∃ x, M j = some x ∧ x.type = type ∧ x.nlink = 1 ∧
      (type ≠ tDir → x.data = []) := by
  have hij : i ≠ j := by
    rintro rfl
    rw [hi] at hj
    cases hj
  by_cases ht : type = tDir
  · subst ht
    rw [withDots, if_pos rfl, update_of_ne hij, update_self] at hnd'
    cases hnd'
    have hM' : M = update
        (update N i (some { nd.setEntry k (newEntry name j) with nlink := nd.nlink + 1 }))
        j (some ⟨tDir, major, minor, 1, dotEntries j i⟩) := by
      rw [hM, withDots, if_pos rfl, update_comm hij.symm, update_idem,
        update_comm hij, update_idem, update_comm hij.symm]
      rfl
    subst hM'
    exact ⟨.dir hi hp hj hlt h0, _, update_self .., rfl, rfl, fun hc => absurd rfl hc⟩
  · have hw : withDots (update N j (some ⟨type, major, minor, 1, []⟩)) i j nd
        ⟨type, major, minor, 1, []⟩ = update N j (some ⟨type, major, minor, 1, []⟩) :=
      if_neg ht
    rw [hw, update_of_ne hij, hi] at hnd'
    cases hnd'
    rw [hw] at hM
    subst hM
    refine ⟨.file hi hp hj hlt h0 ht, ⟨type, major, minor, 1, []⟩, ?_, rfl, rfl, fun _ => rfl⟩
    rw [update_of_ne hij.symm, update_self]

end Dots

section Create

variable {path : List UInt8} {type major minor : BitVec 16}

/-- **`create` finds a file or makes one.**  It returns with the inode locked. -/
theorem Inv.wp_create (h : Inv H sb p c own 0 ∅ s) (hc : (s.tables.proc p).cwd = c)
    (hown : ∀ {e i}, (e, i) ∈ own → c = some e) (htype : type ≠ 0)
    {Q : Option (Fin ninode) → Abs → Prop}
    (hnone : ∀ s', Inv H sb p c own 0 ∅ s' → Steady p c s s' → Freed s.node s'.node →
      (H → s'.node = s.node ∧ ¬ FreshName s p path) → Q none s')
    (hold : ∀ ip j nd s', Inv H sb p c ((ip, j) ::ₘ own) (ip ::ₘ 0) ∅ s' → Steady p c s s' →
      Freed s.node s'.node → s'.node j = some nd → type = tFile →
      (nd.type = tFile ∨ nd.type = tDevice) → (H → s'.node = s.node ∧ ¬ FreshName s p path) →
      Q (some ip) s')
    (hnew : ∀ ip j nd N M s', Inv H sb p c ((ip, j) ::ₘ own) (ip ::ₘ 0) ∅ s' → Steady p c s s' →
      Freed s.node N → Created sb.ninodes N M → Freed M s'.node → s'.node j = some nd →
      nd.type = type → nd.nlink = 1 → (type ≠ tDir → nd.data = []) →
      (H → N = s.node ∧ (s'.node = M ∨ Saturated s.node) ∧ FreshName s p path) →
      Q (some ip) s') :
    (create p path type major minor).wp (onAbs sb p) Mild s Q := by
  rw [create, Prog.wp_bind]
  refine h.wp_namex hc (fun m hm => absurd hm (Set.notMem_empty m))
    (fun s₁ h₁ hst₁ hfree₁ _ hH₁ => ?_) fun dp i name s₁ h₁ hst₁ hfree₁ _ hdir₁ hH₁ => ?_
  · exact hnone s₁ h₁ hst₁ hfree₁ fun hh => ⟨(hH₁ hh).1, not_freshName_of_none (hH₁ hh).2⟩
  have hm₁ : (dp, i) ∈ (dp, i) ::ₘ own := Multiset.mem_cons_self ..
  obtain ⟨nd, hnd₁, ht⟩ := hdir₁ rfl
  simp only [Prog.wp_bind]
  refine h₁.wp_ilock (.inl ⟨_, hm₁⟩) (h₁.num hm₁) fun s₂ _ _ h₂ hst₂ hnode₂ _ => ?_
  have hst₂ := hst₁.trans hst₂
  have hl₂ : dp ∈ dp ::ₘ (0 : Multiset (Fin ninode)) := Multiset.mem_cons_self ..
  have hnd₂ : s₂.node i = some nd := by rw [hnode₂, hnd₁]
  refine h₂.wp_dirlookup hl₂ hm₁ hnd₂ (fun _ hdvd hno => ?_) fun k ip s₃ _ hk h₃ hst₃ hnode₃ => ?_
  · -- the name is new
    simp only [Prog.wp_bind]
    refine h₂.wp_ident hm₁ ?_
    refine h₂.wp_ialloc htype fun ip j s₃ hj0 hjlt hjn h₃ hst₃ hnode₃ => ?_
    have him : (ip, j) ∈ (ip, j) ::ₘ (dp, i) ::ₘ own := Multiset.mem_cons_self ..
    have hdm : (dp, i) ∈ (ip, j) ::ₘ (dp, i) ::ₘ own := Multiset.mem_cons_of_mem hm₁
    have hij : i ≠ j := by
      rintro rfl
      rw [hnd₂] at hjn
      cases hjn
    have hj₃ : s₃.node j = some ⟨type, 0, 0, 0, []⟩ := by rw [hnode₃, update_self]
    refine h₃.wp_ilock (.inl ⟨_, him⟩) (h₃.num him) fun s₄ _ hne h₄ hst₄ hnode₄ _ => ?_
    have hil : ip ∈ ip ::ₘ dp ::ₘ (0 : Multiset (Fin ninode)) := Multiset.mem_cons_self ..
    have hdl : dp ∈ ip ::ₘ dp ::ₘ (0 : Multiset (Fin ninode)) := Multiset.mem_cons_of_mem hl₂
    rw [hnode₃] at hnode₄
    have hj₄ : s₄.node j = some ⟨type, 0, 0, 0, []⟩ := by rw [hnode₄, update_self]
    refine h₄.wp_setLinks (f := fun _ => ⟨major, minor, 1⟩) ∅ hil (h₄.num him) hj₄
      (fun m hm hf => absurd hf fun hf => (Set.mem_insert_iff.mp hf).elim hm id)
      (fun h0 => absurd h0 (show (1 : BitVec 16) ≠ 0 by decide)) fun s₅ h₅ hst₅ hnode₅ => ?_
    rw [hnode₄, update_idem] at hnode₅
    have hj₅ : s₅.node j = some ⟨type, major, minor, 1, []⟩ := by
      rw [hnode₅, update_self]
      rfl
    have hi₅ : s₅.node i = some nd := by rw [hnode₅, update_of_ne hij, hnd₂]
    refine h₅.wp_ident him ?_
    refine h₅.wp_createDots (x := ⟨type, major, minor, 1, []⟩)
      {m | m = i ∧ nd.nlink = 0xffff} hdl hil hdm him hi₅ hj₅ hij rfl hj0
      (Set.empty_subset _) (fun _ hwrap => ⟨rfl, by bv_omega⟩)
      fun s₆ h₆ hst₆ hnode₆ => ?_
    obtain ⟨nd', hnd', hdata'⟩ : ∃ nd', s₆.node i = some nd' ∧ nd'.data = nd.data := by
      rw [hnode₆, withDots]
      split
      · rw [update_of_ne hij, update_self]
        exact ⟨_, rfl, rfl⟩
      · exact ⟨nd, hi₅, rfl⟩
    refine h₆.wp_dirlink hdl hdm hnd' hjlt (fun k s' _ hk _ _ _ _ _ => ?_)
      fun k s₇ _ _ _ hv h₇ hst₇ hnode₇ => ?_
    · rw [hdata', hno] at hk
      cases hk
    rw [hdata'] at hv
    rw [if_neg (by decide)]
    rw [hnode₂] at hnode₅ hjn
    have hplace : Place nd name k := ⟨ht, hdvd, hno, hv⟩
    rw [hnode₆, hnode₅] at hnode₇ hnd'
    obtain ⟨hcreated, x, hx, hxt, hxl, hxd⟩ :=
      created_of_withDots hnd₁ hplace hjn hjlt hj0 hnd' hnode₇
    have hst₇ := (((((hst₂.trans hst₃).trans hst₄).trans hst₅).trans hst₆).trans hst₇)
    rw [Multiset.cons_swap (ip, j), Multiset.cons_swap ip] at h₇
    simp only [Prog.wp_bind]
    refine h₇.wp_iunlockput (fun hce => ?_) fun s₈ h₈ hst₈ hfree₈ hkeep₈ hH₈ hdead₈ => ?_
    · obtain ⟨m, hm⟩ := h.cwd hce
      exact ⟨m, Multiset.mem_cons_of_mem hm⟩
    have hrest : Inv H sb p c ((ip, j) ::ₘ own) (ip ::ₘ 0) ∅ s₈ := by
      refine (h₈.mono (insert i ∅) fun m hm => .inl hm.1).settle fun _ y hy h0 _ => ?_
      obtain ⟨hpos, hinum, hvalid⟩ := hdead₈ y hy h0
      refine ⟨dp, h₈.anchored hpos fun {m} hm => ?_, hinum, hvalid⟩
      obtain heq | hm := Multiset.mem_cons.mp hm
      · exact absurd (Multiset.mem_cons.mpr (.inl (Prod.mk.inj heq).1.symm)) hne
      · exact hown hm
    refine hnew ip j x s₁.node s₇.node s₈ hrest (hst₇.trans hst₈) hfree₁ hcreated hfree₈ ?_ hxt hxl
      hxd fun hh => ?_
    · rw [← hx]
      exact hkeep₈ (ip, j) (Multiset.mem_cons_self ..)
    · obtain ⟨hsame, hres⟩ := hH₁ hh
      refine ⟨hsame, ?_, i, name, nd, hres, hsame ▸ hnd₁, hno⟩
      by_cases hmax : nd.nlink = 0xffff
      · exact .inr ⟨i, nd, hsame ▸ hnd₁, hmax⟩
      · exact .inl (hH₈ hh fun hf => absurd hf.2 hmax)
  · -- the name is there
    simp only [Prog.wp_bind]
    rw [Multiset.cons_swap] at h₃
    refine h₃.wp_iunlockput (fun hce => ?_) fun s₄ h₄ hst₄ hfree₄ hkeep₄ hH₄ _ => ?_
    · obtain ⟨m, hm⟩ := h.cwd hce
      exact ⟨m, Multiset.mem_cons_of_mem hm⟩
    have hnode : s₃.node = s₁.node := hnode₃.trans hnode₂
    rw [hnode] at hfree₄ hkeep₄ hH₄
    have hst₄ := (hst₂.trans hst₃).trans hst₄
    have him : (ip, (dirent nd.data k).inum.toNat) ∈ (ip, (dirent nd.data k).inum.toNat) ::ₘ own :=
      Multiset.mem_cons_self ..
    have hfree := hfree₁.trans hfree₄
    have hH : H → s₄.node = s.node ∧ ¬ FreshName s p path := fun hh => by
      obtain ⟨hsame, hres⟩ := hH₁ hh
      refine ⟨(hH₄ hh fun hf => absurd hf (Set.notMem_empty _)).trans hsame, ?_⟩
      exact not_freshName_of_some hres (hsame ▸ hnd₁) hk
    refine h₄.wp_ilock (.inl ⟨_, him⟩) (h₄.num him) fun s₅ x _ h₅ hst₅ hnode₅ hx => ?_
    have hl₅ : ip ∈ ip ::ₘ (0 : Multiset (Fin ninode)) := Multiset.mem_cons_self ..
    have hx₅ : s₅.node (dirent nd.data k).inum.toNat = some x := by rw [hnode₅, hx]
    refine h₅.wp_attr hl₅ (h₅.num him) hx₅ ?_
    split
    · next hok =>
      refine hold ip _ x s₅ h₅ (hst₄.trans hst₅) (hnode₅ ▸ hfree) hx₅ hok.1 hok.2 fun hh => ?_
      rw [hnode₅]
      exact hH hh
    · simp only [Prog.wp_bind]
      refine h₅.wp_iunlockput h.cwd fun s₆ h₆ hst₆ hfree₆ _ hH₆ _ => ?_
      rw [hnode₅] at hfree₆ hH₆
      refine hnone s₆ h₆ ((hst₄.trans hst₅).trans hst₆) (hfree.trans hfree₆) fun hh => ?_
      rw [hH₆ hh fun hf => absurd hf (Set.notMem_empty _)]
      exact hH hh

end Create

end Xv6.Fs
