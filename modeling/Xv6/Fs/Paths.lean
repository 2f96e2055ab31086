import Mathlib.Data.List.DropRight
import Xv6.Fs.Failure
import Xv6.Fs.Progress
import Xv6.Fs.Total

/-!
# Path resolution

A path names an inode through its elements, the strings between runs of slashes, each cut to
its first `DIRSIZ` characters.  `namei` follows them from the root or the current directory;
`nameiparent` stops at the last.  A walk takes one reference at a time and gives it back, so
all it leaves is a reference to what it returns.

Two things can stop the kernel on the way.  The current directory may have been removed, and
its parent after it; then ".." names an inode that is free, and to search it is a panic.  And
a walk needs an entry of the inode table for the inode it has, and one for the inode it
comes to.

## Main definitions

* `elements` — the elements of a path.
* `follow`, `parentOf` — where elements lead.
* `Passable` — no inode to be searched is free, and the table has room.

## Main results

* `namei_iff` — `namei` and `nameiparent` do what paths mean exactly if the path is passable.
-/

namespace Xv6.Fs

open Kern
open Mkfs (mkfsSuper)

/-! ### The elements of a path -/

/-- The elements of a path: what stands between runs of slashes, each cut to its first
`DIRSIZ` characters. -/
def elements (path : List UInt8) : List (List UInt8) :=
  ((path.splitOn slash).filter fun e => !e.isEmpty).map (List.take dirsiz)

theorem elements_cons_slash (path : List UInt8) : elements (slash :: path) = elements path := by
  have hsplit : (slash :: path).splitOn slash = [] :: path.splitOn slash := by
    rw [List.splitOn, List.splitOnP_cons_eq_if_modifyHead, if_pos (beq_self_eq_true slash)]
    rfl
  rw [elements, hsplit]
  rfl

theorem elements_dropWhile (path : List UInt8) :
    elements (path.dropWhile (· == slash)) = elements path := by
  induction path with
  | nil => rfl
  | cons x path ih =>
    rw [List.dropWhile_cons]
    split
    · next hx =>
      rw [ih, eq_of_beq hx, elements_cons_slash]
    · rfl

/-- The characters before the first slash are an element. -/
theorem elements_of_head {path : List UInt8} {x : UInt8} (hx : x ≠ slash) :
    elements (x :: path) = ((x :: path).takeWhile (· != slash)).take dirsiz
      :: elements ((x :: path).dropWhile (· != slash)) := by
  have hno : ∀ y ∈ (x :: path).takeWhile (· != slash), (y == slash) = false := by
    intro y hy
    have := List.mem_takeWhile_imp hy
    rwa [bne, Bool.not_eq_true'] at this
  have hne : (x :: path).takeWhile (· != slash) ≠ [] := by
    rw [List.takeWhile_cons, if_pos (bne_iff_ne.mpr hx)]
    exact List.cons_ne_nil _ _
  have hcut := List.takeWhile_append_dropWhile (p := (· != slash)) (l := x :: path)
  have hfirst : !((x :: path).takeWhile (· != slash)).isEmpty := by
    rw [Bool.not_eq_true', List.isEmpty_eq_false_iff]
    exact hne
  cases hd : (x :: path).dropWhile (· != slash) with
  | nil =>
    rw [hd, List.append_nil] at hcut
    have hsplit : (x :: path).splitOn slash = [x :: path] := by
      rw [hcut] at hno
      exact List.splitOnP_eq_singleton hno
    rw [hcut] at hfirst ⊢
    rw [elements, hsplit, List.filter_cons, if_pos hfirst]
    rfl
  | cons y rest =>
    have hy : y = slash := by
      have := List.head_dropWhile_not (· != slash) (by rw [hd]; exact List.cons_ne_nil _ _)
      simpa [hd] using this
    subst hy
    rw [hd] at hcut
    have hsplit : (x :: path).splitOn slash
        = (x :: path).takeWhile (· != slash) :: rest.splitOn slash := by
      conv_lhs => rw [← hcut, List.splitOn]
      exact List.splitOnP_append_cons_of_forall_mem hno slash (beq_self_eq_true slash) rest
    rw [elements_cons_slash, elements, hsplit, List.filter_cons, if_pos hfirst]
    rfl

theorem skipelem_eq_none {path : List UInt8} : skipelem path = none ↔ elements path = [] := by
  rw [← elements_dropWhile]
  unfold skipelem
  dsimp only
  cases hs : path.dropWhile (· == slash) with
  | nil => exact ⟨fun _ => rfl, fun _ => if_pos rfl⟩
  | cons x l =>
    have hx : x ≠ slash := by
      have := List.head_dropWhile_not (· == slash) (by rw [hs]; exact List.cons_ne_nil _ _)
      simpa [hs] using this
    rw [if_neg (List.cons_ne_nil _ _), elements_of_head hx]
    exact ⟨fun h => (nomatch h), fun h => (nomatch h)⟩

/-- **`skipelem` takes the first element off.** -/
theorem elements_of_skipelem {path rest name : List UInt8} (h : skipelem path = some (rest, name)) :
    elements path = name :: elements rest ∧ (rest = [] ↔ elements rest = []) := by
  rw [← elements_dropWhile]
  unfold skipelem at h
  dsimp only at h
  cases hs : path.dropWhile (· == slash) with
  | nil =>
    rw [hs, if_pos rfl] at h
    cases h
  | cons x l =>
    have hx : x ≠ slash := by
      have := List.head_dropWhile_not (· == slash) (by rw [hs]; exact List.cons_ne_nil _ _)
      simpa [hs] using this
    rw [hs, if_neg (List.cons_ne_nil _ _)] at h
    obtain ⟨rfl, rfl⟩ := Prod.mk.inj (Option.some.inj h)
    refine ⟨?_, fun hnil => by rw [hnil]; rfl, fun hnil => ?_⟩
    · rw [elements_of_head hx, elements_dropWhile]
    -- what is left starts with a character of an element
    rw [← skipelem_eq_none, skipelem] at hnil
    rw [List.dropWhile_idempotent] at hnil
    by_contra hne
    rw [if_neg hne] at hnil
    cases hnil

/-! ### Where a path leads -/

/-- Follow elements from inode `i`: every inode on the way is a directory that has the next
element. -/
def follow (N : Nodes) : ℕ → List (List UInt8) → Option ℕ
  | i, [] => some i
  | i, name :: names =>
    match N i with
    | none => none
    | some nd =>
      if nd.type = tDir then
        match lookup nd.data name with
        | none => none
        | some k => follow N (dirent nd.data k).inum.toNat names
      else none

/-- The directory all elements but the last lead to, and the last element. -/
def parentOf (N : Nodes) (i : ℕ) (names : List (List UInt8)) : Option (ℕ × List UInt8) :=
  match names.getLast? with
  | none => none
  | some name => (follow N i names.dropLast).bind fun j =>
    if (N j).any fun nd => nd.type = tDir then some (j, name) else none

variable {N : Nodes} {i : ℕ} {path : List UInt8}

theorem walk_false {fuel : ℕ} (hfuel : path.length < fuel) :
    walk N false fuel i path = (follow N i (elements path)).map fun j => (j, []) := by
  induction fuel generalizing i path with
  | zero => exact absurd hfuel (Nat.not_lt_zero _)
  | succ fuel ih =>
    rw [walk]
    cases hskip : skipelem path with
    | none =>
      rw [skipelem_eq_none.mp hskip]
      rfl
    | some r =>
      obtain ⟨rest, name⟩ := r
      have hlen := length_of_skipelem hskip
      rw [(elements_of_skipelem hskip).1, follow]
      dsimp only
      cases N i with
      | none => rfl
      | some nd =>
        dsimp only
        by_cases ht : nd.type = tDir
        · rw [if_neg (not_not.mpr ht), if_pos ht, Bool.false_and, if_neg Bool.false_ne_true]
          cases lookup nd.data name with
          | none => rfl
          | some k => exact ih (by omega)
        · rw [if_pos ht, if_neg ht]
          rfl

theorem walk_true {fuel : ℕ} (hfuel : path.length < fuel) :
    walk N true fuel i path = parentOf N i (elements path) := by
  induction fuel generalizing i path with
  | zero => exact absurd hfuel (Nat.not_lt_zero _)
  | succ fuel ih =>
    rw [walk]
    cases hskip : skipelem path with
    | none =>
      rw [skipelem_eq_none.mp hskip]
      rfl
    | some r =>
      obtain ⟨rest, name⟩ := r
      have hlen := length_of_skipelem hskip
      obtain ⟨hels, hrest⟩ := elements_of_skipelem hskip
      rw [hels]
      dsimp only
      rw [Bool.true_and]
      by_cases hlast : rest = []
      · -- the last element is not looked up
        rw [hlast]
        show _ = if (N i).any fun nd => nd.type = tDir then some (i, name) else none
        cases N i with
        | none => rfl
        | some nd =>
          rw [Option.any_some]
          by_cases ht : nd.type = tDir
          · simp [ht]
          · simp [ht]
      obtain ⟨x, xs, hxs⟩ := List.exists_cons_of_ne_nil (mt hrest.mpr hlast)
      have hparent : parentOf N i (name :: elements rest) = match N i with
          | none => none
          | some nd =>
            if nd.type = tDir then
              match lookup nd.data name with
              | none => none
              | some k => parentOf N (dirent nd.data k).inum.toNat (elements rest)
            else none := by
        rw [hxs, parentOf, List.getLast?_cons_cons, List.dropLast_cons_cons, follow]
        simp only [parentOf]
        cases N i with
        | none => cases (x :: xs).getLast? <;> rfl
        | some nd =>
          dsimp only
          by_cases ht : nd.type = tDir
          · rw [if_pos ht, if_pos ht]
            cases lookup nd.data name with
            | none => cases (x :: xs).getLast? <;> rfl
            | some k => rfl
          · rw [if_neg ht, if_neg ht]
            cases (x :: xs).getLast? <;> rfl
      rw [hparent]
      cases N i with
      | none => rfl
      | some nd =>
        dsimp only
        have hmore : ¬ rest.isEmpty = true := by rwa [List.isEmpty_iff]
        by_cases ht : nd.type = tDir
        · rw [if_neg (not_not.mpr ht), if_pos ht, if_neg hmore]
          cases lookup nd.data name with
          | none => rfl
          | some k => exact ih (by omega)
        · rw [if_pos ht, if_neg ht]

/-! ### The inode table along a walk -/

/-- Inode `j` has an entry of the inode table. -/
def Abs.InUse (s : Abs) (j : ℕ) : Prop := ∃ e, 0 < (s.entry e).ref ∧ (s.entry e).inum = j

instance (s : Abs) (j : ℕ) : Decidable (s.InUse j) := inferInstanceAs (Decidable (∃ _, _))

/-- The entries of the inode table that are not in use. -/
def Abs.unused (s : Abs) : Finset (Fin ninode) := Finset.univ.filter fun e => (s.entry e).ref = 0

/-- There is an entry for inode `j` besides the one for inode `i`: one that is there, or one
that is not in use once inode `i` has its own. -/
def Abs.Spare (s : Abs) (i j : ℕ) : Prop :=
  s.InUse j ∨ j = i ∨ (if s.InUse i then 0 else 1) < s.unused.card

/-- A walk from inode `i` gets to its end.  Each inode that must be searched is there, not
free, and the inode table has room for what is found in it.  A walk for `nameiparent` does not
look up the last element. -/
def Passable (s : Abs) (nameiparent : Bool) : ℕ → List (List UInt8) → Prop
  | _, [] => True
  | i, name :: names => ∃ nd, s.node i = some nd ∧
      (nd.type = tDir → (nameiparent = true → names ≠ []) → ∀ k, lookup nd.data name = some k →
        s.Spare i (dirent nd.data k).inum.toNat ∧
          Passable s nameiparent (dirent nd.data k).inum.toNat names)

/-- A walk of process `p` gets to its end, and to its start. -/
structure PassablePath (s : Abs) (p : Pid) (nameiparent : Bool) (path : List UInt8) : Prop where
  root : path.head? = some slash → s.Room Fs.root
  walk : ∀ i, startInum s p path = some i → Passable s nameiparent i (elements path)

variable {H : Prop} {sb : Super} {p : Pid} {c : Option (Fin ninode)}
  {own : Multiset (Fin ninode × ℕ)} {lk lk' : Multiset (Fin ninode)} {fresh : Set ℕ} {s t : Abs}
  {e ip : Fin ninode} {j : ℕ}

/-- A call that has one reference more than it had: the counts differ by it. -/
theorem Inv.ref_cons (ht : Inv H sb p c own lk fresh t)
    (h : Inv H sb p c ((ip, i) ::ₘ own) lk' fresh s) (hst : Steady p c t s) (e : Fin ninode) :
    (s.entry e).ref = (t.entry e).ref + if ip = e then 1 else 0 := by
  rw [h.ref, ht.ref, hst.tables, Multiset.map_cons, Multiset.count_cons]
  by_cases he : ip = e
  · rw [if_pos he.symm, if_pos he]
    omega
  · rw [if_neg fun hc => he hc.symm, if_neg he]
    omega

/-- Entries that were in use still stand for the same inodes. -/
theorem Inv.inum_eq {own' : Multiset (Fin ninode × ℕ)} (ht : Inv H sb p c own lk fresh t)
    (h : Inv H sb p c own' lk' fresh s) (hsub : own ≤ own') (hst : Steady p c t s)
    (hpos : 0 < (t.entry e).ref) : (s.entry e).inum = (t.entry e).inum := by
  by_cases hown : 0 < others t.tables p e
  · exact (hst.entry (.inl hown)).1
  · rw [ht.ref] at hpos
    have hcount : 0 < (own.map Prod.fst).count e := by omega
    obtain ⟨x, hx, rfl⟩ := Multiset.mem_map.mp (Multiset.count_pos.mp hcount)
    rw [h.num (Multiset.mem_of_le hsub hx), ht.num hx]

/-- **Room for one inode more**, in terms of the table the walk started with. -/
theorem Inv.room_iff (ht : Inv H sb p c own lk fresh t)
    (h : Inv H sb p c ((ip, i) ::ₘ own) lk' fresh s) (hst : Steady p c t s) :
    s.Room j ↔ t.Spare i j := by
  have hself : (ip, i) ∈ (ip, i) ::ₘ own := Multiset.mem_cons_self ..
  have href := ht.ref_cons h hst
  have hinum : ∀ {e}, 0 < (t.entry e).ref → (s.entry e).inum = (t.entry e).inum :=
    fun hpos => ht.inum_eq h (Multiset.le_cons_self ..) hst hpos
  have hnonneg : ∀ e, 0 ≤ (t.entry e).ref := fun e => by rw [ht.ref]; exact Int.natCast_nonneg _
  -- the entry of the walk is new exactly if its inode had none
  have hold : t.InUse i ↔ 0 < (t.entry ip).ref := by
    constructor
    · rintro ⟨e, hpos, hei⟩
      have hpos' : 0 < (s.entry e).ref := by
        rw [href]
        split <;> omega
      have := h.uniq hpos' (h.ref_pos_of_mem hself) (by rw [hinum hpos, hei, h.num hself])
      rwa [this] at hpos
    · intro hpos
      exact ⟨ip, hpos, (hinum hpos).symm.trans (h.num hself)⟩
  have hunused : (if t.InUse i then 0 else 1) < t.unused.card ↔ ∃ e, e ≠ ip ∧
      (t.entry e).ref = 0 := by
    by_cases huse : t.InUse i
    · rw [if_pos huse, Finset.card_pos]
      constructor
      · rintro ⟨e, he⟩
        have he := (Finset.mem_filter.mp he).2
        refine ⟨e, ?_, he⟩
        rintro rfl
        have := hold.mp huse
        omega
      · rintro ⟨e, -, he⟩
        exact ⟨e, Finset.mem_filter.mpr ⟨Finset.mem_univ e, he⟩⟩
    · rw [if_neg huse]
      have hip : ip ∈ t.unused := by
        refine Finset.mem_filter.mpr ⟨Finset.mem_univ ip, ?_⟩
        have := mt hold.mpr huse
        have := hnonneg ip
        omega
      constructor
      · intro hcard
        obtain ⟨e, he, hne⟩ := Finset.exists_mem_ne hcard ip
        exact ⟨e, hne, (Finset.mem_filter.mp he).2⟩
      · rintro ⟨e, hne, he⟩
        exact Finset.one_lt_card.mpr
          ⟨e, Finset.mem_filter.mpr ⟨Finset.mem_univ e, he⟩, ip, hip, hne⟩
  unfold Abs.Room Abs.Spare
  rw [hunused]
  constructor
  · rintro ⟨e, hzero | ⟨hpos, hej⟩⟩
    · rw [href] at hzero
      by_cases he : ip = e
      · rw [if_pos he] at hzero
        have := hnonneg e
        omega
      · rw [if_neg he] at hzero
        exact .inr (.inr ⟨e, fun hc => he hc.symm, by omega⟩)
    · by_cases he : ip = e
      · subst he
        rw [h.num hself] at hej
        exact .inr (.inl hej.symm)
      · rw [href, if_neg he, add_zero] at hpos
        rw [hinum hpos] at hej
        exact .inl ⟨e, hpos, hej⟩
  · rintro (⟨e, hpos, hej⟩ | rfl | ⟨e, hne, hzero⟩)
    · refine ⟨e, .inr ⟨?_, (hinum hpos).trans hej⟩⟩
      rw [href]
      split <;> omega
    · exact ⟨ip, .inr ⟨h.ref_pos_of_mem hself, h.num hself⟩⟩
    · refine ⟨e, .inl ?_⟩
      rw [href, if_neg fun hc => hne hc.symm, hzero]
      rfl

/-! ### The walk -/

/-- What is left of a walk that started in state `t`: nothing but a reference to the inode it
returns. -/
structure Walked (sb : Super) (p : Pid) (c : Option (Fin ninode))
    (own : Multiset (Fin ninode × ℕ)) (t : Abs) (goal : Option (ℕ × List UInt8))
    (r : Option (Fin ninode × List UInt8)) (s : Abs) : Prop where
  steady : Steady p c t s
  node : s.node = t.node
  fails : r = none → goal = none ∧ Inv True sb p c own 0 ∅ s
  returns : ∀ e name, r = some (e, name) → ∃ j, goal = some (j, name) ∧
    Inv True sb p c ((e, j) ::ₘ own) 0 ∅ s

/-- **The loop of `namex`** ends where the path leads if it is passable, and panics if not. -/
theorem Inv.ends_namexLoop {np : Bool} (ht : Inv True sb p c own 0 ∅ t) (hw : WholeDirs t.node)
    (fuel : ℕ) {path : List UInt8} (hfuel : path.length < fuel)
    (h : Inv True sb p c ((ip, i) ::ₘ own) 0 ∅ s) (hst : Steady p c t s) (hnode : s.node = t.node) :
    Kern.Ends (fun x => x ≠ none ∧ ¬ Passable t np i (elements path))
      ((namexLoop np fuel ip path).exec (onAbs sb p)) s fun r s' => Passable t np i
      (elements path) ∧
        Walked sb p c own t (walk t.node np fuel i path) r s' := by
  induction fuel generalizing ip i path s with
  | zero => exact absurd hfuel (Nat.not_lt_zero _)
  | succ fuel ih =>
    have hm : (ip, i) ∈ (ip, i) ::ₘ own := Multiset.mem_cons_self ..
    have hfresh : ∀ {m : ℕ} {P : Prop}, m ∈ (∅ : Set ℕ) → P :=
      fun hm => absurd hm (Set.notMem_empty _)
    rw [namexLoop]
    cases hskip : skipelem path with
    | none =>
      have hels := skipelem_eq_none.mp hskip
      dsimp only
      by_cases hnp : np = true
      · rw [if_pos hnp, ends_exec_bind]
        refine h.ends_iput (fun hl => absurd hl (Multiset.notMem_zero _)) ht.cwd
          fun s' hinv hst' _ _ hsame => ?_
        refine ⟨by rw [hels]; trivial, hst.trans hst', (hsame trivial hfresh).trans hnode,
          fun _ => ⟨?_, hinv⟩, fun _ _ hr => by cases hr⟩
        rw [walk, hskip]
        exact if_pos hnp
      · rw [if_neg hnp]
        refine ⟨by rw [hels]; trivial, hst, hnode, fun hr => (by cases hr), fun e name hr => ?_⟩
        cases hr
        refine ⟨i, ?_, h⟩
        rw [walk, hskip]
        exact if_neg hnp
    | some r =>
      obtain ⟨rest, name⟩ := r
      obtain ⟨hels, hrest⟩ := elements_of_skipelem hskip
      rw [hels]
      simp only [ends_exec_bind]
      refine h.ends_ilock (.inl ⟨_, hm⟩) (Multiset.notMem_zero _) (h.num hm) (fun hfree => ?_)
        fun s₁ nd h₁ hst₁ hnode₁ hnd => ?_
      · refine ⟨Option.some_ne_none _, ?_⟩
        rintro ⟨nd, hnd, -⟩
        rw [← hnode, hfree] at hnd
        cases hnd
      have hl₁ : ip ∈ ip ::ₘ (0 : Multiset (Fin ninode)) := Multiset.mem_cons_self ..
      have hnd₁ : s₁.node i = some nd := by rw [hnode₁, hnd]
      have hndt : t.node i = some nd := by rw [← hnode, hnd]
      have hsame₁ : s₁.node = t.node := hnode₁.trans hnode
      have hst₁ := hst.trans hst₁
      -- from here on the path is passable exactly if the rest of it is
      have hpass : Passable t np i (name :: elements rest) ↔ (nd.type = tDir →
          (np = true → elements rest ≠ []) → ∀ k, lookup nd.data name = some k →
            t.Spare i (dirent nd.data k).inum.toNat ∧
              Passable t np (dirent nd.data k).inum.toNat (elements rest)) := by
        constructor
        · rintro ⟨x, hx, hrest⟩
          rw [hndt] at hx
          cases hx
          exact hrest
        · exact fun hrest => ⟨nd, hndt, hrest⟩
      have hwalk := walk_of_skipelem hskip hndt np fuel
      refine h₁.ends_attr hl₁ (h₁.num hm) hnd₁ ?_
      by_cases htype : nd.attr.type ≠ tDir
      · have hnot : nd.type ≠ tDir := htype
        rw [if_pos hnot] at hwalk
        rw [if_pos htype]
        simp only [ends_exec_bind]
        refine h₁.ends_iunlockput ht.cwd fun s₂ h₂ hst₂ _ _ hsame => ?_
        exact ⟨hpass.mpr fun hc => absurd hc hnot, hst₁.trans hst₂,
          (hsame trivial hfresh).trans hsame₁, fun _ => ⟨hwalk, h₂⟩, fun _ _ hr => by cases hr⟩
      rw [if_neg htype]
      have hdir : nd.type = tDir := not_not.mp htype
      rw [if_neg (not_not.mpr hdir)] at hwalk
      by_cases hstop : (np && rest.isEmpty) = true
      · rw [if_pos hstop] at hwalk ⊢
        rw [Bool.and_eq_true, List.isEmpty_iff] at hstop
        simp only [ends_exec_bind]
        refine h₁.ends_iunlock fun s₂ h₂ hst₂ hnode₂ => ?_
        refine ⟨hpass.mpr fun _ hc => absurd (hrest.mp hstop.2) (hc hstop.1), hst₁.trans hst₂,
          hnode₂.trans hsame₁, fun hr => (by cases hr), fun e name' hr => ?_⟩
        cases hr
        exact ⟨i, hwalk, h₂⟩
      have hmore : np = true → elements rest ≠ [] := fun hnp hnil => hstop (by
        rw [Bool.and_eq_true, List.isEmpty_iff]
        exact ⟨hnp, hrest.mpr hnil⟩)
      rw [if_neg hstop] at hwalk ⊢
      simp only [ends_exec_bind]
      refine h₁.ends_dirlookup hl₁ hm hnd₁ hdir (hw i nd hndt hdir) (fun hno => ?_)
        (fun k hk hroom => ⟨Option.some_ne_none _, fun hp => ?_⟩)
        fun k next s₂ hk hroom h₂ hst₂ hnode₂ => ?_
      · simp only [ends_exec_bind]
        refine h₁.ends_iunlockput ht.cwd fun s₂ h₂ hst₂ _ _ hsame => ?_
        rw [hno] at hwalk
        refine ⟨hpass.mpr fun _ _ k hk => ?_, hst₁.trans hst₂, (hsame trivial hfresh).trans hsame₁,
          fun _ => ⟨hwalk, h₂⟩, fun _ _ hr => by cases hr⟩
        rw [hno] at hk
        cases hk
      · exact hroom ((ht.room_iff h₁ hst₁).mpr (hpass.mp hp hdir hmore k hk).1)
      rw [hk] at hwalk
      simp only [ends_exec_bind]
      rw [Multiset.cons_swap] at h₂
      refine h₂.ends_iunlockput (fun hc => ?_) fun s₃ h₃ hst₃ _ _ hsame => ?_
      · obtain ⟨m, hmem⟩ := ht.cwd hc
        exact ⟨m, Multiset.mem_cons_of_mem hmem⟩
      have hnode₃ : s₃.node = t.node := (hsame trivial hfresh).trans (hnode₂.trans hsame₁)
      -- exactly one inode was found, so the rest decides
      have hiff : Passable t np i (name :: elements rest) ↔
          Passable t np (dirent nd.data k).inum.toNat (elements rest) := by
        rw [hpass]
        constructor
        · exact fun hp => (hp hdir hmore k hk).2
        · rintro hp - - k' hk'
          rw [hk] at hk'
          cases hk'
          exact ⟨(ht.room_iff h₁ hst₁).mp hroom, hp⟩
      rw [hiff, hwalk]
      have hlen := length_of_skipelem hskip
      exact ih (by omega) h₃ ((hst₁.trans hst₂).trans hst₃) hnode₃

theorem Inv.ends_namexStart (ht : Inv True sb p c own 0 ∅ t) (hc : (t.tables.proc p).cwd = c)
    (hcwd : c ≠ none) {A : Option Panic → Prop} {R : Fin ninode → Abs → Prop}
    (hfull : path.head? = some slash → ¬ t.Room root → A (some .igetNoInodes))
    (hR : ∀ e i s, (path.head? = some slash → t.Room root) → startInum t p path = some i →
      Inv True sb p c ((e, i) ::ₘ own) 0 ∅ s → Steady p c t s → s.node = t.node → R e s) :
    Kern.Ends A ((namexStart p path).exec (onAbs sb p)) t R := by
  unfold namexStart
  by_cases hslash : path.head? = some slash
  · rw [if_pos hslash]
    exact ht.ends_iget sb.root_lt (hfull hslash)
      fun e s hroom => hR e root s (fun _ => hroom) (if_pos hslash)
  rw [if_neg hslash]
  obtain ⟨e, he⟩ := Option.ne_none_iff_exists'.mp hcwd
  have hproc : (t.tables.proc p).cwd = some e := hc.trans he
  obtain ⟨i, hm⟩ := ht.cwd he
  have hstart : startInum t p path = some i := by
    rw [startInum, if_neg hslash, hproc, Option.map_some, ht.num hm]
  have hmy : (myCwd p).exec (onAbs sb p) t = .ok (e, t) := by
    rw [myCwd, onTables, Prog.exec_call, onAbs, hproc]
    rfl
  rw [ends_exec_bind, Kern.Ends, hmy]
  dsimp only
  rw [ends_exec_bind]
  exact ht.ends_idup hm fun s => hR e i s (fun hs => absurd hs hslash) hstart

/-- **`namex` ends where the path leads** if it is passable, and panics if not. -/
theorem Inv.ends_namex {np : Bool} (ht : Inv True sb p c own 0 ∅ t) (hw : WholeDirs t.node)
    (hc : (t.tables.proc p).cwd = c) (hcwd : c ≠ none) :
    Kern.Ends (fun x => x ≠ none ∧ ¬ PassablePath t p np path)
      ((namex p path np).exec (onAbs sb p)) t fun r s =>
        PassablePath t p np path ∧ Walked sb p c own t (resolve t p np path) r s := by
  rw [namex, ends_exec_bind]
  refine ht.ends_namexStart hc hcwd
    (fun hslash hroom => ⟨Option.some_ne_none _, fun hp => hroom (hp.root hslash)⟩)
    fun e i s hroot hstart h hst hnode => ?_
  have hiff : PassablePath t p np path ↔ Passable t np i (elements path) := by
    refine ⟨fun hp => hp.walk i hstart, fun hp => ⟨hroot, fun j hj => ?_⟩⟩
    rw [hstart] at hj
    cases hj
    exact hp
  have hresolve : resolve t p np path = walk t.node np (path.length + 1) i path := by
    rw [resolve, hstart, Option.bind_some]
  rw [hiff, hresolve]
  exact ht.ends_namexLoop hw _ (Nat.lt_succ_self _) h hst hnode

/-! ### Walks do not write -/

section Quiet

theorem quiet_fsPanic {α : Type} (x : Panic) : FsProg.Quiet (fsPanic x : FsProg α) := .call id

theorem quiet_dirlookupLoop (dp : Fin ninode) (name : List UInt8) (dev size fuel off : ℕ) :
    FsProg.Quiet (dirlookupLoop dp name dev size fuel off) := by
  induction fuel generalizing off with
  | zero => exact .pure
  | succ fuel ih =>
    rw [dirlookupLoop]
    split
    · refine .bind (.call id) fun r => ?_
      split
      · exact quiet_fsPanic _
      dsimp only
      split
      · exact ih _
      · split
        · exact .bind (.call id) fun ip => .pure
        · exact ih _
    · exact .pure

theorem quiet_dirlookup (dp : Fin ninode) (name : List UInt8) :
    FsProg.Quiet (dirlookup dp name) := by
  refine .bind (.call id) fun a => ?_
  split
  · exact quiet_fsPanic _
  · exact .bind (.call id) fun id => quiet_dirlookupLoop ..

theorem quiet_iunlockput (e : Fin ninode) : FsProg.Quiet (iunlockput e) :=
  .bind (.call id) fun _ => .call id

theorem quiet_namexLoop (np : Bool) (fuel : ℕ) (ip : Fin ninode) (path : List UInt8) :
    FsProg.Quiet (namexLoop np fuel ip path) := by
  induction fuel generalizing ip path with
  | zero => exact .pure
  | succ fuel ih =>
    rw [namexLoop]
    split
    · split
      · exact .bind (.call id) fun _ => .pure
      · exact .pure
    refine .bind (.call id) fun _ => .bind (.call id) fun a => ?_
    split
    · exact .bind (quiet_iunlockput ip) fun _ => .pure
    split
    · exact .bind (.call id) fun _ => .pure
    · refine .bind (quiet_dirlookup ..) fun r => ?_
      split
      · exact .bind (quiet_iunlockput ip) fun _ => .pure
      · exact .bind (quiet_iunlockput ip) fun _ => ih ..

theorem quiet_namex (p : Pid) (path : List UInt8) (np : Bool) :
    FsProg.Quiet (namex p path np) := by
  refine .bind ?_ fun ip => quiet_namexLoop ..
  unfold namexStart
  split
  · exact .call id
  · exact .bind (.call id) fun _ => .bind (.call id) fun _ => .pure

theorem quiet_namei (p : Pid) (path : List UInt8) : FsProg.Quiet (namei p path) :=
  .bind (quiet_namex p path false) fun _ => .pure

end Quiet

/-! ### `namei` and `nameiparent` -/

/-- A walk changed nothing but the reference count of the inode it returned, and no inode is
locked. -/
structure OnlyRef (sb : Super) (s s' : Image) (r : Option (Fin ninode)) : Prop where
  ref : ∀ e, (s'.mem.inode e).ref = (s.mem.inode e).ref + if r = some e then 1 else 0
  inum : ∀ e, 0 < (s.mem.inode e).ref → (s'.mem.inode e).inum = (s.mem.inode e).inum
  owner : ∀ e, (s'.mem.inode e).owner = none
  node : (view sb s').node = (view sb s).node

/-- `namei` returns the inode the elements of the path lead to, or fails if they lead
nowhere. -/
def NameiResolves (sb : Super) (p : Pid) (path : List UInt8) (s : Image) : Prop :=
  ∃ r s', runProg sb p (namei p path) s = .ok (r, s') ∧
    r.map (fun e => (s'.mem.inode e).inum)
      = (startInum (view sb s) p path).bind
          (fun i => follow (view sb s).node i (elements path)) ∧ OnlyRef sb s s' r

/-- `nameiparent` returns the directory all elements but the last lead to, and the last
element, or fails if they lead nowhere or there is no last. -/
def NameiparentResolves (sb : Super) (p : Pid) (path : List UInt8) (s : Image) : Prop :=
  ∃ r s', runProg sb p (nameiparent p path) s = .ok (r, s') ∧
    r.map (fun x => ((s'.mem.inode x.1).inum, x.2))
      = (startInum (view sb s) p path).bind
          (fun i => parentOf (view sb s).node i (elements path)) ∧ OnlyRef sb s s' (r.map Prod.fst)

/-- What a walk leaves of the tables, and what it returns. -/
theorem Walked.facts {goal : Option (ℕ × List UInt8)} {r : Option (Fin ninode × List UInt8)}
    (ht : Inv True sb p c own 0 ∅ t) (h : Walked sb p c own t goal r s) :
    (∀ e, (s.entry e).dirty = false) ∧ r.map (fun x => ((s.entry x.1).inum, x.2)) = goal ∧
      (∀ e, (s.entry e).ref = (t.entry e).ref + if r.map Prod.fst = some e then 1 else 0) ∧
      (∀ e, 0 < (t.entry e).ref → (s.entry e).inum = (t.entry e).inum) ∧
      (∀ e, (s.entry e).owner = none) ∧ s.node = t.node := by
  cases r with
  | none =>
    obtain ⟨hgoal, hinv⟩ := h.fails rfl
    refine ⟨hinv.clean, hgoal.symm, fun e => ?_, fun e => ht.inum_eq hinv le_rfl h.steady,
      fun e => ?_, h.node⟩
    · rw [hinv.ref, ht.ref, h.steady.tables]
      exact (add_zero _).symm
    · rw [hinv.owner, if_neg (Multiset.notMem_zero _)]
  | some x =>
    obtain ⟨e, name⟩ := x
    obtain ⟨j, hgoal, hinv⟩ := h.returns e name rfl
    refine ⟨hinv.clean, ?_, fun a => ?_,
      fun a => ht.inum_eq hinv (Multiset.le_cons_self ..) h.steady, fun a => ?_, h.node⟩
    · rw [hgoal, ← hinv.num (Multiset.mem_cons_self ..)]
      rfl
    · rw [ht.ref_cons hinv h.steady a]
      simp only [Option.map_some, Option.some.injEq]
    · rw [hinv.owner, if_neg (Multiset.notMem_zero _)]

/-- **Path resolution.**  From any directory tree and current directory, `namei` and
`nameiparent` return what the elements of the path lead to, with one more reference and no
lock, exactly if the walk meets no free inode and the inode table has room for it. -/
theorem namei_iff {s : Image} (h : Sound True sb s) (hw : WholeDirs (view sb s).node)
    (hcwd : (s.mem.tables.proc p).cwd ≠ none) (path : List UInt8) :
    (NameiResolves sb p path s ↔ PassablePath (view sb s) p false path) ∧
      (NameiparentResolves sb p path s ↔ PassablePath (view sb s) p true path) := by
  have hinv := h.rest.inv p
  constructor
  · refine h.runProg_iff (quiet_namei p path) (Q := fun r t => ∃ r', r = r'.map Prod.fst ∧
      Walked sb p (s.mem.tables.proc p).cwd (cwdOwn (view sb s) p) (view sb s)
        (resolve (view sb s) p false path) r' t) ?_ ?_
    · rw [namei, ends_exec_bind]
      refine (hinv.ends_namex hw rfl hcwd).mono fun r t hr => ?_
      exact ⟨hr.1, (hr.2.facts hinv).1, r, rfl, hr.2⟩
    rintro - s' ⟨r, rfl, hwalked⟩
    obtain ⟨-, hgoal, href, hinum, howner, hnode⟩ := hwalked.facts hinv
    refine ⟨?_, href, hinum, howner, hnode⟩
    have hdest : (resolve (view sb s) p false path).map Prod.fst
        = (startInum (view sb s) p path).bind
            fun i => follow (view sb s).node i (elements path) := by
      rw [resolve]
      cases startInum (view sb s) p path with
      | none => rfl
      | some i =>
        rw [Option.bind_some, walk_false (Nat.lt_succ_self _), Option.map_map]
        exact Option.map_id' ..
    rw [← hdest, ← hgoal, Option.map_map, Option.map_map]
    rfl
  · refine h.runProg_iff (quiet_namex p path true) (Q := fun r t =>
      Walked sb p (s.mem.tables.proc p).cwd (cwdOwn (view sb s) p) (view sb s)
        (resolve (view sb s) p true path) r t) ?_ ?_
    · refine (hinv.ends_namex hw rfl hcwd).mono fun r t hr => ?_
      exact ⟨hr.1, (hr.2.facts hinv).1, hr.2⟩
    · intro r s' hwalked
      obtain ⟨-, hgoal, href, hinum, howner, hnode⟩ := hwalked.facts hinv
      refine ⟨hgoal.trans ?_, href, hinum, howner, hnode⟩
      rw [resolve]
      cases startInum (view sb s) p path with
      | none => rfl
      | some i => exact walk_true (Nat.lt_succ_self _)

/-- Sizes of directories can be read off the disk. -/
theorem wholeDirs_of_all {s : Image} (h : (List.range sb.ninodes).all (fun i =>
      ((decode sb s).dinode i).type != tDir ||
        ((decode sb s).dinode i).size.toNat % direntSize == 0) = true) :
    WholeDirs (view sb s).node := by
  intro i nd hi htype
  change (if Used sb (decode sb s).dinode i then _ else none) = some nd at hi
  split at hi
  · next hu =>
    cases hi
    have hall := List.all_eq_true.mp h i (List.mem_range.mpr hu.1)
    rw [Bool.or_eq_true, bne_iff_ne, beq_iff_eq] at hall
    rw [nodeOf, length_fileData]
    exact Nat.dvd_of_mod_eq_zero (hall.resolve_left (not_not.mpr htype))
  · cases hi

/-- On a disk with one file both find their way along "/./n". -/
theorem namei_iff_note : ∃ m, Mkfs.main [note] = some m ∧
    NameiResolves mkfsSuper init [47, 46, 47, 110] (boot m.disk) ∧
      NameiparentResolves mkfsSuper init [47, 46, 47, 110] (boot m.disk) := by
  obtain ⟨m, hm⟩ := exists_noteImage
  obtain ⟨-, hview⟩ := Mkfs.wellFormed_mkfs hm (by decide) (by decide)
  have hwhole : WholeDirs (view mkfsSuper (boot m.disk)).node := by
    intro i nd hi hdir
    rw [hview] at hi
    obtain ⟨-, rfl⟩ | ⟨k, hk, -, rfl⟩ := Mkfs.imageWith_cases hi
    · exact (by decide +kernel : direntSize ∣ (Mkfs.paddedRoot [note]).data.length)
    · exact absurd hdir (by decide : tFile ≠ tDir)
  have hcwd : ((boot m.disk).mem.tables.proc init).cwd ≠ none := nofun
  have hspare : ∀ i j, (view mkfsSuper (boot m.disk)).Spare i j := by
    intro i j
    refine .inr (.inr (Nat.lt_of_le_of_lt (by split <;> omega) (Finset.one_lt_card.mpr ?_)))
    exact ⟨⟨1, by decide⟩, Finset.mem_filter.mpr ⟨Finset.mem_univ _, rfl⟩, ⟨2, by decide⟩,
      Finset.mem_filter.mpr ⟨Finset.mem_univ _, rfl⟩, by decide⟩
  have hnode : (view mkfsSuper (boot m.disk)).node root = some (Mkfs.paddedRoot [note]) := by
    rw [hview]
    rfl
  have hpass : ∀ np, PassablePath (view mkfsSuper (boot m.disk)) init np [47, 46, 47, 110] := by
    intro np
    refine ⟨fun _ => ⟨⟨0, by decide⟩, .inr ⟨Int.one_pos, rfl⟩⟩, fun i hi => ?_⟩
    obtain rfl : i = root := (Option.some.inj hi).symm
    rw [show elements [47, 46, 47, 110] = [[46], [110]] by decide +kernel]
    -- the first entry of the root directory leads back to it
    have hdot : lookup (Mkfs.paddedRoot [note]).data [46] = some 0 ∧
        (dirent (Mkfs.paddedRoot [note]).data 0).inum.toNat = root := by decide +kernel
    refine ⟨_, hnode, fun _ _ k hk => ⟨hspare _ _, ?_⟩⟩
    obtain rfl : 0 = k := Option.some.inj (hdot.1.symm.trans hk)
    rw [hdot.2]
    exact ⟨_, hnode, fun _ _ _ _ => ⟨hspare _ _, trivial⟩⟩
  have h := namei_iff (sound_image hm (by decide) (by decide)) hwhole hcwd [47, 46, 47, 110]
  exact ⟨m, hm, h.1.mpr (hpass false), h.2.mpr (hpass true)⟩

/-- The current directory is removed, and then its parent. -/
def orphanRun : List (Pid × Call) :=
  [(init, .mkdir (pathArg [97])), (init, .mkdir (pathArg [97, 47, 98])),
    (init, .chdir (pathArg [97, 47, 98])), (init, .unlink (pathArg [47, 97, 47, 98])),
    (init, .unlink (pathArg [47, 97]))]

/-- "../x" -/
def upPath : List UInt8 := [46, 46, 47, 120]

/-- No link count is the largest there is. -/
def unsaturated (sb : Super) (t : Store) : Bool :=
  (List.range sb.ninodes).all fun i => (t.dinode i).nlink != 0xffff

/-- A test of the state `orphanRun` ends in: directories are whole, and the walk panics. -/
def orphaned (sb : Super) (t : Store) : Bool :=
  ((List.range sb.ninodes).all fun i =>
      (t.dinode i).type != tDir || (t.dinode i).size.toNat % direntSize == 0) &&
    (t.mem.tables.proc init).cwd.isSome &&
    match ((namei init upPath).expand (inodeImpl sb init)).exec (checked sb) t with
    | .panic x => x == some .noType
    | _ => false

/-- **From a removed directory whose parent is removed, too, a path through ".."** stops the
kernel: the entry names an inode that is free. -/
theorem namei_orphan_panics : ∃ s,
    run (step mkfsSuper) (boot emptyImage.disk) orphanRun = .ok s ∧
      Sound True mkfsSuper s ∧ WholeDirs (view mkfsSuper s).node ∧
      (s.mem.tables.proc init).cwd ≠ none ∧
      runProg mkfsSuper init (namei init upPath) s = .panic .noType ∧
      ¬ NameiResolves mkfsSuper init upPath s := by
  have hrun : (run (stepStore mkfsSuper (unsaturated mkfsSuper))
      (decode mkfsSuper (boot emptyImage.disk)) orphanRun).check
        (orphaned mkfsSuper) = true := by decide +kernel
  obtain ⟨t, ht, htest⟩ := Outcome.exists_of_check hrun
  obtain ⟨s, hs, rfl, hperm⟩ := run_of_runStore ht
  rw [orphaned, Bool.and_eq_true, Bool.and_eq_true] at htest
  obtain ⟨⟨hwhole, hcwd⟩, hpanic⟩ := htest
  have hcall : runProg mkfsSuper init (namei init upPath) s = .panic .noType := by
    refine exec_onImage_of_panic ?_
    split at hpanic
    · next x hx => rw [hx, eq_of_beq hpanic]
    · cases hpanic
  refine ⟨s, hs, sound_emptyImage.of_run hperm hs, wholeDirs_of_all hwhole,
    Option.isSome_iff_ne_none.mp hcwd, hcall, ?_⟩
  rintro ⟨r, s', hr, -⟩
  rw [hcall] at hr
  cases hr

end Xv6.Fs
