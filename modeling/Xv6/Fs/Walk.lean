import Xv6.Fs.Contract

/-!
# Directories and paths, from above

What `dirlookup`, `dirlink` and `namex` do, in terms of nodes: they search the entries of a
directory, store one, and follow a path from node to node.  On the way a walk may drop the
last reference to a directory that has been removed, which frees it.

## Main definitions

* `lookup` — the first entry with a name.
* `Vacant` — the slot a new entry goes to.
* `walk` — where a path leads.

## Main results

* `Inv.wp_dirlookup`, `Inv.wp_dirlink`, `Inv.wp_namex` — the functions of the kernel.
-/

namespace Xv6.Fs

/-! ### Entries -/

variable {data name path : List UInt8} {k : ℕ} {nd : Node}

/-- Entry `k` of a directory is in use and has the name. -/
def entryIs (data name : List UInt8) (k : ℕ) : Bool :=
  (dirent data k).inum.toNat != 0 && cname (dirent data k).name == cname name

/-- The first entry with a name. -/
def lookup (data name : List UInt8) : Option ℕ :=
  (List.range (slots data)).find? (entryIs data name)

/-- The first slot of a directory that is not in use, or the one after the last. -/
structure Vacant (data : List UInt8) (k : ℕ) : Prop where
  le : k ≤ slots data
  empty : k < slots data → (dirent data k).inum.toNat = 0
  before : ∀ m, m < k → (dirent data m).inum.toNat ≠ 0

theorem entryIs_iff : entryIs data name k ↔
    (dirent data k).inum.toNat ≠ 0 ∧ cname (dirent data k).name = cname name := by
  rw [entryIs, Bool.and_eq_true, bne_iff_ne, beq_iff_eq]

theorem lookup_eq_none : lookup data name = none ↔
    ∀ k, k < slots data → (dirent data k).inum.toNat ≠ 0 →
      cname (dirent data k).name ≠ cname name := by
  rw [lookup, List.find?_eq_none]
  constructor
  · intro h k hk h0 hn
    exact h k (List.mem_range.mpr hk) (entryIs_iff.mpr ⟨h0, hn⟩)
  · intro h k hk hm
    obtain ⟨h0, hn⟩ := entryIs_iff.mp hm
    exact h k (List.mem_range.mp hk) h0 hn

theorem lookup_some (h : lookup data name = some k) :
    k < slots data ∧ (dirent data k).inum.toNat ≠ 0 ∧ cname (dirent data k).name = cname name :=
  ⟨List.mem_range.mp (List.mem_of_find?_eq_some h), entryIs_iff.mp (List.find?_some h)⟩

theorem lookup_eq_some (hk : k < slots data) (hm : entryIs data name k)
    (hb : ∀ m, m < k → ¬ entryIs data name m) : lookup data name = some k := by
  rw [lookup, List.find?_range_eq_some]
  exact ⟨hm, List.mem_range.mpr hk, fun m hlt => by simpa using hb m hlt⟩

/-- A read of one entry gets all of it only if the directory has it. -/
theorem Node.read_entry (hsize : nd.data.length ≤ maxfile * bsize)
    (hlt : direntSize * k < nd.data.length)
    (hr : (nd.read .kernel (direntSize * k) direntSize).1 = direntSize) :
    k < slots nd.data ∧
      getDirent (nd.read .kernel (direntSize * k) direntSize).2 = dirent nd.data k := by
  have hmax : maxfile * bsize + 16 < 2 ^ 32 := by decide
  have hd := direntSize_eq
  have hmod : (direntSize * k + direntSize) % 2 ^ 32 = direntSize * k + direntSize :=
    Nat.mod_eq_of_lt (by omega)
  have hlen : Node.readLength nd.data.length (direntSize * k) direntSize
      = if nd.data.length < direntSize * k + direntSize then nd.data.length - direntSize * k
        else direntSize := by
    rw [Node.readLength, hmod, if_neg (by omega)]
  unfold Node.read at hr ⊢
  simp only [Dst.room, lt_irrefl, if_false, hlen] at hr ⊢
  by_cases hshort : nd.data.length < direntSize * k + direntSize
  · rw [if_pos hshort] at hr
    omega
  · rw [if_neg hshort]
    refine ⟨?_, rfl⟩
    rw [slots, Nat.lt_div_iff_mul_lt (by decide), hd] at *
    omega

/-- A read of an entry gets all of it. -/
theorem Node.read_entry_of_lt (hsize : nd.data.length ≤ maxfile * bsize) (hk : k < slots nd.data) :
    (nd.read .kernel (direntSize * k) direntSize).1 = direntSize ∧
      getDirent (nd.read .kernel (direntSize * k) direntSize).2 = dirent nd.data k := by
  have hmax : maxfile * bsize + 16 < 2 ^ 32 := by decide
  have hd := direntSize_eq
  have hle : direntSize * k + direntSize ≤ nd.data.length := by
    unfold slots at hk
    rw [hd] at hk ⊢
    omega
  have hlen : Node.readLength nd.data.length (direntSize * k) direntSize = direntSize := by
    rw [Node.readLength, Nat.mod_eq_of_lt (by omega), if_neg (by omega), if_neg (by omega)]
  have hr : (nd.read .kernel (direntSize * k) direntSize).1 = direntSize := by
    unfold Node.read
    simp only [Dst.room, lt_irrefl, if_false, hlen]
  exact ⟨hr, (Node.read_entry hsize (by omega) hr).2⟩

/-- A search that has come to the end has seen whole entries only. -/
theorem whole_of_end (hk : k ≤ slots data) (hend : ¬ direntSize * k < data.length) :
    k = slots data ∧ direntSize ∣ data.length := by
  have hdiv := Nat.div_mul_le_self data.length direntSize
  rw [slots] at hk
  have hd := direntSize_eq
  have hle := Nat.mul_le_mul_left direntSize hk
  rw [Nat.mul_comm _ (data.length / _)] at hle
  have heq : data.length = direntSize * k := by omega
  refine ⟨?_, ⟨k, heq⟩⟩
  rw [slots, heq, Nat.mul_div_cancel_left _ (by decide)]

/-- A write of one entry stores it, or finds no room. -/
theorem Node.write_entry {de : Dirent} (hlen : de.name.length = dirsiz)
    (hsize : nd.data.length ≤ maxfile * bsize) (hk : k ≤ slots nd.data) :
    nd.write (.kernel de.bytes) (direntSize * k) direntSize = (-1, nd.data) ∨
      nd.write (.kernel de.bytes) (direntSize * k) direntSize
        = ((direntSize : ℤ), setDirent nd.data k de) := by
  have hmax : maxfile * bsize + 16 < 2 ^ 32 := by decide
  have hd := direntSize_eq
  have hdiv := Nat.div_mul_le_self nd.data.length direntSize
  have hle := Nat.mul_le_mul_left direntSize hk
  rw [slots, Nat.mul_comm _ (_ / _)] at hle
  have hmod : (direntSize * k + direntSize) % 2 ^ 32 = direntSize * k + direntSize :=
    Nat.mod_eq_of_lt (by omega)
  have hbytes := length_bytes hlen
  have hfetch : Src.fetch (.kernel de.bytes) 0 direntSize = de.bytes := by
    have := take_drop_eq_map (l := de.bytes) (m := direntSize)
      (Nat.le_of_eq (by rw [hbytes, Nat.zero_add]))
    rw [List.drop_zero, List.take_of_length_le (Nat.le_of_eq hbytes)] at this
    exact this.symm
  unfold Node.write
  rw [hmod, if_neg (by omega)]
  split
  · exact .inl rfl
  · dsimp only
    rw [hfetch, Node.writeStop, hbytes, if_pos rfl, Nat.add_sub_cancel_left]
    exact .inr rfl

variable {H : Prop} {sb : Super} {p : Pid} {c : Option (Fin ninode)}
  {own : Multiset (Fin ninode × ℕ)} {lk : Multiset (Fin ninode)} {fresh : Set ℕ} {s : Abs}
  {dp : Fin ninode} {i : ℕ}

/-! ### Searching a directory -/

section Lookup

variable {Q : Option (Fin ninode × ℕ) → Abs → Prop}

theorem Inv.wp_dirlookupLoop (h : Inv H sb p c own lk fresh s) (hl : dp ∈ lk)
    (hm : (dp, i) ∈ own) (hi : s.node i = some nd) (ht : nd.type = tDir)
    (hnone : direntSize ∣ nd.data.length → lookup nd.data name = none → Q none s)
    (hsome : ∀ k ip s', lookup nd.data name = some k →
      Inv H sb p c ((ip, (dirent nd.data k).inum.toNat) ::ₘ own) lk fresh s' → Steady p c s s' →
      s'.node = s.node → Q (some (ip, direntSize * k)) s') (fuel k : ℕ)
    (hfuel : k + fuel = slots nd.data + 1) (hk : k ≤ slots nd.data)
    (hb : ∀ m, m < k → ¬ entryIs nd.data name m) :
    (dirlookupLoop dp name rootdev.toNat nd.data.length fuel (direntSize * k)).wp (onAbs sb p)
      Mild s Q := by
  induction fuel generalizing k with
  | zero => omega
  | succ fuel ih =>
    rw [dirlookupLoop]
    split
    · next hlt =>
      rw [Prog.wp_bind]
      refine h.wp_readi hl (h.num hm) hi (by decide) ?_
      split
      · exact wp_fsPanic (.of_mild rfl)
      rename_i hr
      obtain ⟨hks, hde⟩ := Node.read_entry (h.node hi).size hlt (not_not.mp hr)
      rw [hde]
      dsimp only
      have hnext : direntSize * k + direntSize = direntSize * (k + 1) := rfl
      -- an entry that is free or has another name is passed over
      have hgo : ¬ entryIs nd.data name k → (dirlookupLoop dp name rootdev.toNat nd.data.length
          fuel (direntSize * k + direntSize)).wp (onAbs sb p) Mild s Q := by
        intro hno
        rw [hnext]
        refine ih (k + 1) (by omega) hks fun m hlt => ?_
        obtain rfl | hlt := Nat.eq_or_lt_of_le (Nat.le_of_lt_succ hlt)
        · exact hno
        · exact hb m hlt
      split
      · next h0 => exact hgo fun hc => (entryIs_iff.mp hc).1 (by rw [h0]; rfl)
      rename_i h0
      split
      · next hcmp =>
        have heq : entryIs nd.data name k := entryIs_iff.mpr
          ⟨fun hz => h0 (BitVec.eq_of_toNat_eq hz), ((namecmp_eq_zero _ _).mp hcmp).symm⟩
        rw [Prog.wp_bind]
        refine h.wp_iget ((h.node hi).dir ht k hks) fun ip s' hinv hst hnode => ?_
        exact hsome k ip s' (lookup_eq_some hks heq hb) hinv hst hnode
      · next hcmp =>
        exact hgo fun hc => hcmp ((namecmp_eq_zero _ _).mpr (entryIs_iff.mp hc).2.symm)
    · next hend =>
      -- the size is whole, or `readi` would have come up short
      obtain ⟨rfl, hdvd⟩ := whole_of_end hk hend
      refine hnone hdvd (lookup_eq_none.mpr fun m hlt h0 hn => ?_)
      exact hb m hlt (entryIs_iff.mpr ⟨h0, hn⟩)

/-- **`dirlookup` finds the first entry with the name.** -/
theorem Inv.wp_dirlookup (h : Inv H sb p c own lk fresh s) (hl : dp ∈ lk)
    (hm : (dp, i) ∈ own) (hi : s.node i = some nd)
    (hnone : nd.type = tDir → direntSize ∣ nd.data.length → lookup nd.data name = none →
      Q none s)
    (hsome : ∀ k ip s', nd.type = tDir → lookup nd.data name = some k →
      Inv H sb p c ((ip, (dirent nd.data k).inum.toNat) ::ₘ own) lk fresh s' → Steady p c s s' →
      s'.node = s.node → Q (some (ip, direntSize * k)) s') :
    (dirlookup dp name).wp (onAbs sb p) Mild s Q := by
  rw [dirlookup]
  simp only [Prog.wp_bind]
  refine h.wp_attr hl (h.num hm) hi ?_
  split
  · exact wp_fsPanic (.of_mild rfl)
  rename_i ht
  have ht := not_not.mp ht
  rw [Prog.wp_bind]
  refine h.wp_ident hm ?_
  exact h.wp_dirlookupLoop hl hm hi ht (hnone ht) (fun k ip s' => hsome k ip s' ht) _ 0
    (Nat.zero_add _) (Nat.zero_le _) fun m hlt => absurd hlt (Nat.not_lt_zero m)

end Lookup

/-! ### Storing an entry -/

section Link

theorem Inv.wp_emptyLoop (h : Inv H sb p c own lk fresh s) (hl : dp ∈ lk)
    (hm : (dp, i) ∈ own) (hi : s.node i = some nd) {Q : ℕ → Abs → Prop}
    (hQ : ∀ k, Vacant nd.data k → Q (direntSize * k) s) (fuel k : ℕ)
    (hfuel : k + fuel = slots nd.data + 1) (hk : k ≤ slots nd.data)
    (hb : ∀ m, m < k → (dirent nd.data m).inum.toNat ≠ 0) :
    (emptyLoop dp nd.data.length fuel (direntSize * k)).wp (onAbs sb p) Mild s Q := by
  induction fuel generalizing k with
  | zero => omega
  | succ fuel ih =>
    rw [emptyLoop]
    split
    · next hlt =>
      rw [Prog.wp_bind]
      refine h.wp_readi hl (h.num hm) hi (by decide) ?_
      split
      · exact wp_fsPanic (.of_mild rfl)
      rename_i hr
      obtain ⟨hks, hde⟩ := Node.read_entry (h.node hi).size hlt (not_not.mp hr)
      rw [hde]
      split
      · next h0 => exact hQ k ⟨hk, fun _ => by rw [h0]; rfl, hb⟩
      · next h0 =>
        refine ih (k + 1) (by omega) hks fun m hlt => ?_
        obtain rfl | hlt := Nat.eq_or_lt_of_le (Nat.le_of_lt_succ hlt)
        · exact fun hz => h0 (BitVec.eq_of_toNat_eq hz)
        · exact hb m hlt
    · next hend =>
      obtain ⟨rfl, -⟩ := whole_of_end hk hend
      exact hQ _ ⟨hk, fun hlt => absurd hlt (Nat.lt_irrefl _), hb⟩

theorem DirOk.setDirent {n : ℕ} {de : Dirent} (h : DirOk n data) (hlen : de.name.length = dirsiz)
    (hk : k ≤ slots data) (hde : de.inum.toNat < n) : DirOk n (setDirent data k de) := by
  intro m hm
  rw [slots_setDirent] at hm
  rw [dirent_setDirent hlen hk hm]
  split
  · exact hde
  · exact h m (by omega)

/-- **`dirlink` stores an entry in the first slot that is not in use**, unless the name is
there already. -/
theorem Inv.wp_dirlink (h : Inv H sb p c own lk fresh s) (hl : dp ∈ lk) (hm : (dp, i) ∈ own)
    (hi : s.node i = some nd) {j : ℕ} (hj : j < sb.ninodes) {Q : ℤ → Abs → Prop}
    (hold : ∀ k s', nd.type = tDir → lookup nd.data name = some k →
      Inv H sb p c own lk fresh s' → Steady p c s s' → Freed s.node s'.node →
      (∀ x ∈ own, s'.node x.2 = s.node x.2) →
      (H → (∀ m ∈ fresh, ∃ a, (a, m) ∈ own) → s'.node = s.node) → Q (-1) s')
    (hnew : ∀ k s', nd.type = tDir → direntSize ∣ nd.data.length → lookup nd.data name = none →
      Vacant nd.data k → Inv H sb p c own lk fresh s' → Steady p c s s' →
      s'.node = Function.update s.node i (some (nd.setEntry k (newEntry name j))) → Q 0 s') :
    (dirlink dp name j).wp (onAbs sb p) Mild s Q := by
  rw [dirlink, Prog.wp_bind]
  refine h.wp_dirlookup hl hm hi (fun ht hdvd hno => ?_) fun k ip s₁ ht hk hinv hst hnode => ?_
  · simp only [Prog.wp_bind]
    refine h.wp_attr hl (h.num hm) hi ?_
    refine h.wp_emptyLoop hl hm hi (fun k hv => ?_) _ 0 (Nat.zero_add _) (Nat.zero_le _)
      fun m hlt => absurd hlt (Nat.not_lt_zero m)
    have hlen : (newEntry name j).name.length = dirsiz := length_strncpy ..
    have hde : (newEntry name j).inum.toNat < sb.ninodes := by
      show (BitVec.ofNat 16 j).toNat < _
      rw [BitVec.toNat_ofNat]
      exact (Nat.mod_le ..).trans_lt hj
    obtain hw | hw := Node.write_entry hlen (h.node hi).size hv.le
    · refine h.wp_writei hl (h.num hm) hi (by decide) (fun _ => ?_) fun s' hinv hst hnode => ?_
      · rw [hw]
        exact (h.node hi).dir ht
      · rw [hw]
        exact wp_fsPanic (.of_mild rfl)
    · refine h.wp_writei hl (h.num hm) hi (by decide) (fun _ => ?_) fun s' hinv hst hnode => ?_
      · rw [hw]
        exact ((h.node hi).dir ht).setDirent hlen hv.le hde
      · rw [hw] at hnode ⊢
        exact hnew k s' ht hdvd hno hv hinv hst hnode
  · simp only [Prog.wp_bind]
    refine hinv.wp_iput (fun hl => hst.tables ▸ (h.locked hl).2) h.cwd
      fun s₂ hinv₂ hst₂ hfree hkeep hH _ => ?_
    rw [hnode] at hfree hkeep hH
    exact hold k s₂ ht hk hinv₂ (hst.trans hst₂) hfree hkeep fun hh hf => hH hh (hf _)

end Link

/-! ### Paths -/

/-- Where a path leads from node `i`: the node it names, or for `nameiparent` the directory
that has its last element, and that element. -/
def walk (N : Nodes) (nameiparent : Bool) : ℕ → ℕ → List UInt8 → Option (ℕ × List UInt8)
  | 0, _, _ => none
  | fuel + 1, i, path =>
    match skipelem path with
    | none => if nameiparent then none else some (i, [])
    | some (rest, name) =>
      match N i with
      | none => none
      | some nd =>
        if nd.type ≠ tDir then none
        else if nameiparent && rest.isEmpty then some (i, name)
        else
          match lookup nd.data name with
          | none => none
          | some k => walk N nameiparent fuel (dirent nd.data k).inum.toNat rest

theorem walk_of_skipelem {N : Nodes} {i : ℕ} {rest : List UInt8}
    (hskip : skipelem path = some (rest, name)) (hi : N i = some nd) (np : Bool) (fuel : ℕ) :
    walk N np (fuel + 1) i path = if nd.type ≠ tDir then none
      else if np && rest.isEmpty then some (i, name)
      else match lookup nd.data name with
        | none => none
        | some k => walk N np fuel (dirent nd.data k).inum.toNat rest := by
  rw [walk, hskip]
  dsimp only
  rw [hi]

theorem length_of_skipelem {rest : List UInt8} (h : skipelem path = some (rest, name)) :
    rest.length < path.length := by
  unfold skipelem at h
  dsimp only at h
  split at h
  · cases h
  rename_i hne
  obtain ⟨rfl, -⟩ := Prod.mk.inj (Option.some.inj h)
  have h₁ := (List.dropWhile_sublist (l := path) (· == slash)).length_le
  have h₂ := (List.dropWhile_sublist (l := (path.dropWhile (· == slash)).dropWhile (· != slash))
    (· == slash)).length_le
  refine h₂.trans_lt (lt_of_lt_of_le ?_ h₁)
  -- the first character of the element is not a slash
  cases hs : path.dropWhile (· == slash) with
  | nil => exact absurd hs hne
  | cons x l =>
    have hx : (x == slash) = false := by
      have := List.head_dropWhile_not (· == slash) hne
      simpa [hs] using this
    have hx' : (x != slash) = true := by rw [bne, hx]; rfl
    rw [List.dropWhile_cons, if_pos hx']
    exact Nat.lt_succ_of_le (List.dropWhile_sublist (l := l) (· != slash)).length_le

section Path

variable {np : Bool} {ip : Fin ninode} {Q : Option (Fin ninode × List UInt8) → Abs → Prop}

theorem Inv.wp_namexLoop (hcw : ∀ {e}, c = some e → ∃ i, (e, i) ∈ own)
    (hfr : ∀ m ∈ fresh, ∃ a, (a, m) ∈ own) (fuel : ℕ) (hfuel : path.length < fuel)
    (h : Inv H sb p c ((ip, i) ::ₘ own) 0 fresh s)
    (hnone : ∀ s', Inv H sb p c own 0 fresh s' → Steady p c s s' → Freed s.node s'.node →
      (∀ x ∈ own, s'.node x.2 = s.node x.2) →
      (H → s'.node = s.node ∧ walk s.node np fuel i path = none) → Q none s')
    (hsome : ∀ e j name s', Inv H sb p c ((e, j) ::ₘ own) 0 fresh s' → Steady p c s s' →
      Freed s.node s'.node → (∀ x ∈ own, s'.node x.2 = s.node x.2) →
      (np = true → ∃ nd, s'.node j = some nd ∧ nd.type = tDir) →
      (H → s'.node = s.node ∧ walk s.node np fuel i path = some (j, name)) →
      Q (some (e, name)) s') : (namexLoop np fuel ip path).wp (onAbs sb p) Mild s Q := by
  induction fuel generalizing ip i path s with
  | zero => exact absurd hfuel (Nat.not_lt_zero _)
  | succ fuel ih =>
    have hm : (ip, i) ∈ (ip, i) ::ₘ own := Multiset.mem_cons_self ..
    rw [namexLoop]
    cases hskip : skipelem path with
    | none =>
      dsimp only
      split
      · next hnp =>
        rw [Prog.wp_bind]
        refine h.wp_iput (fun hl => absurd hl (Multiset.notMem_zero _)) hcw
          fun s' hinv hst hfree hkeep hH _ => ?_
        refine hnone s' hinv hst hfree hkeep fun hh => ⟨hH hh (hfr i), ?_⟩
        rw [walk, hskip]
        exact if_pos hnp
      · next hnp =>
        refine hsome ip i [] s h (.refl ..) (.refl _) (fun _ _ => rfl) (fun hc => absurd hc hnp)
          fun _ => ⟨rfl, ?_⟩
        rw [walk, hskip]
        exact if_neg hnp
    | some r =>
      obtain ⟨rest, name⟩ := r
      simp only [Prog.wp_bind]
      refine h.wp_ilock (.inl ⟨_, hm⟩) (h.num hm) fun s₁ nd hnl h₁ hst₁ hnode₁ hnd => ?_
      have hl₁ : ip ∈ ip ::ₘ (0 : Multiset (Fin ninode)) := Multiset.mem_cons_self ..
      have hnd₁ : s₁.node i = some nd := by rw [hnode₁, hnd]
      refine h₁.wp_attr hl₁ (h₁.num hm) hnd₁ ?_
      -- the walk of the model takes the same turns
      have hwalk := walk_of_skipelem hskip hnd np fuel
      split
      · next ht =>
        have ht : nd.type ≠ tDir := ht
        simp only [Prog.wp_bind]
        refine h₁.wp_iunlockput hcw fun s₂ h₂ hst₂ hfree hkeep hH _ => ?_
        rw [hnode₁] at hfree hkeep hH
        refine hnone s₂ h₂ (hst₁.trans hst₂) hfree hkeep fun hh => ⟨hH hh (hfr i), ?_⟩
        rw [hwalk, if_pos ht]
      rename_i ht
      have ht : nd.type = tDir := not_not.mp ht
      rw [if_neg (not_not.mpr ht)] at hwalk
      split
      · next hstop =>
        rw [if_pos hstop] at hwalk
        rw [Bool.and_eq_true] at hstop
        simp only [Prog.wp_bind]
        refine h₁.wp_iunlock fun s₂ h₂ hst₂ hnode₂ _ => ?_
        have hnode : s₂.node = s.node := hnode₂.trans hnode₁
        exact hsome ip i name s₂ h₂ (hst₁.trans hst₂) (hnode ▸ .refl _)
          (fun _ _ => by rw [hnode]) (fun _ => ⟨nd, by rw [hnode, hnd], ht⟩) fun _ => ⟨hnode, hwalk⟩
      rename_i hstop
      rw [if_neg hstop] at hwalk
      simp only [Prog.wp_bind]
      refine h₁.wp_dirlookup hl₁ hm hnd₁ (fun _ _ hno => ?_)
        fun k next s₂ _ hk h₂ hst₂ hnode₂ => ?_
      · simp only [Prog.wp_bind]
        refine h₁.wp_iunlockput hcw fun s₂ h₂ hst₂ hfree hkeep hH _ => ?_
        rw [hnode₁] at hfree hkeep hH
        refine hnone s₂ h₂ (hst₁.trans hst₂) hfree hkeep
          fun hh => ⟨hH hh (hfr i), ?_⟩
        rw [hwalk, hno]
      simp only [Prog.wp_bind]
      rw [Multiset.cons_swap] at h₂
      have hnode : s₂.node = s.node := hnode₂.trans hnode₁
      refine h₂.wp_iunlockput (fun hc => ?_) fun s₃ h₃ hst₃ hfree₃ hkeep₃ hH₃ _ => ?_
      · obtain ⟨m, hmem⟩ := hcw hc
        exact ⟨m, Multiset.mem_cons_of_mem hmem⟩
      rw [hnode] at hfree₃ hkeep₃ hH₃
      have hst : Steady p c s s₃ := (hst₁.trans hst₂).trans hst₃
      have hfr' : i ∈ fresh → ∃ a, (a, i) ∈ (next, (dirent nd.data k).inum.toNat) ::ₘ own := by
        intro hm
        obtain ⟨a, ha⟩ := hfr i hm
        exact ⟨a, Multiset.mem_cons_of_mem ha⟩
      rw [hk] at hwalk
      dsimp only at hwalk
      refine ih (by have := length_of_skipelem hskip; omega) h₃ ?_ ?_
      · intro s' hinv hst' hfree hkeep hH
        refine hnone s' hinv (hst.trans hst') (hfree₃.trans hfree) (fun x hx => ?_)
          fun hh => ?_
        · exact (hkeep x hx).trans (hkeep₃ x (Multiset.mem_cons_of_mem hx))
        · obtain ⟨hsame, hw⟩ := hH hh
          have hsame₃ := hH₃ hh hfr'
          rw [hsame₃] at hsame hw
          exact ⟨hsame, hwalk.trans hw⟩
      · intro e j name' s' hinv hst' hfree hkeep hdir hH
        refine hsome e j name' s' hinv (hst.trans hst') (hfree₃.trans hfree) (fun x hx => ?_)
          hdir fun hh => ?_
        · exact (hkeep x hx).trans (hkeep₃ x (Multiset.mem_cons_of_mem hx))
        · obtain ⟨hsame, hw⟩ := hH hh
          have hsame₃ := hH₃ hh hfr'
          rw [hsame₃] at hsame hw
          exact ⟨hsame, hwalk.trans hw⟩

/-- The node a path of process `p` starts from: the root, or its current directory. -/
def startInum (s : Abs) (p : Pid) (path : List UInt8) : Option ℕ :=
  if path.head? = some slash then some root
  else (s.tables.proc p).cwd.map fun e => (s.entry e).inum

/-- Where a path of process `p` leads. -/
def resolve (s : Abs) (p : Pid) (nameiparent : Bool) (path : List UInt8) :
    Option (ℕ × List UInt8) :=
  (startInum s p path).bind fun i => walk s.node nameiparent (path.length + 1) i path

theorem Inv.wp_namexStart (h : Inv H sb p c own lk fresh s) (hc : (s.tables.proc p).cwd = c)
    {R : Fin ninode → Abs → Prop}
    (hR : ∀ e i s', startInum s p path = some i → Inv H sb p c ((e, i) ::ₘ own) lk fresh s' →
      Steady p c s s' → s'.node = s.node → R e s') :
    (namexStart p path).wp (onAbs sb p) Mild s R := by
  unfold namexStart
  split
  · next hslash =>
    exact h.wp_iget sb.root_lt fun e s' => hR e root s' (if_pos hslash)
  rename_i hslash
  simp only [Prog.wp_bind]
  refine wp_onTables (fun e T heq => ?_) fun x heq => ?_
  · cases hcwd : (s.tables.proc p).cwd with
    | none =>
      rw [hcwd] at heq
      cases heq
    | some e' =>
      rw [hcwd] at heq
      cases heq
      obtain ⟨i, hm⟩ := h.cwd (hc.symm.trans hcwd)
      have hstart : startInum s p path = some i := by
        rw [startInum, if_neg hslash, hcwd, Option.map_some, h.num hm]
      exact h.wp_idup hm fun s' => hR _ i s' hstart
  · cases hcwd : (s.tables.proc p).cwd <;> rw [hcwd] at heq <;> cases heq

/-- **`namex` follows the path.**  With `H` it frees nothing, and ends where `resolve` says. -/
theorem Inv.wp_namex (h : Inv H sb p c own 0 fresh s) (hc : (s.tables.proc p).cwd = c)
    (hfr : ∀ m ∈ fresh, ∃ a, (a, m) ∈ own)
    (hnone : ∀ s', Inv H sb p c own 0 fresh s' → Steady p c s s' → Freed s.node s'.node →
      (∀ x ∈ own, s'.node x.2 = s.node x.2) →
      (H → s'.node = s.node ∧ resolve s p np path = none) → Q none s')
    (hsome : ∀ e j name s', Inv H sb p c ((e, j) ::ₘ own) 0 fresh s' → Steady p c s s' →
      Freed s.node s'.node → (∀ x ∈ own, s'.node x.2 = s.node x.2) →
      (np = true → ∃ nd, s'.node j = some nd ∧ nd.type = tDir) →
      (H → s'.node = s.node ∧ resolve s p np path = some (j, name)) →
      Q (some (e, name)) s') : (namex p path np).wp (onAbs sb p) Mild s Q := by
  rw [namex, Prog.wp_bind]
  refine h.wp_namexStart hc fun ip i s₁ hstart h₁ hst₁ hnode₁ => ?_
  have hresolve : ∀ r, walk s₁.node np (path.length + 1) i path = r → resolve s p np path = r := by
    rintro r rfl
    rw [resolve, hstart, hnode₁]
    rfl
  refine Inv.wp_namexLoop h.cwd hfr (path.length + 1) (Nat.lt_succ_self _) h₁
    (fun s' hinv hst hfree hkeep hH => ?_) fun e j name s' hinv hst hfree hkeep hdir hH => ?_
  · rw [hnode₁] at hfree hkeep
    refine hnone s' hinv (hst₁.trans hst) hfree hkeep fun hh => ?_
    exact ⟨(hH hh).1.trans hnode₁, hresolve _ (hH hh).2⟩
  · rw [hnode₁] at hfree hkeep
    refine hsome e j name s' hinv (hst₁.trans hst) hfree hkeep hdir fun hh => ?_
    exact ⟨(hH hh).1.trans hnode₁, hresolve _ (hH hh).2⟩

end Path

end Xv6.Fs
