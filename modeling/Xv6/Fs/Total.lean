import Xv6.Fs.Walk
import Xv6.Lib.Stateful

/-!
# Code over the inode layer ends

The operations of the inode layer on the abstract state return, but for three cases: the
inode table is full, the inode to be locked is free, or the lock is held.  The lemmas of this
module are those about what the operations do, with these cases spelt out; so they say of
code over the inode layer that it returns, or which panic it ends in.

## Main definitions

* `Abs.Room` — the inode table has an entry for an inode.
* `WholeDirs` — the sizes of directories are multiples of the size of an entry.

## Main results

* `Inv.ends_iget`, `Inv.ends_ilock`, `Inv.ends_iput`, … — the operations.
* `Inv.ends_dirlookup` — searching a directory.
-/

namespace Xv6.Fs

open Kern

/-- The inode table has an entry for inode `i`, or one that is not in use. -/
def Abs.Room (s : Abs) (i : ℕ) : Prop :=
  ∃ e, (s.entry e).ref = 0 ∨ 0 < (s.entry e).ref ∧ (s.entry e).inum = i

/-- Directories hold whole entries. -/
def WholeDirs (N : Nodes) : Prop :=
  ∀ i nd, N i = some nd → nd.type = tDir → direntSize ∣ nd.data.length

theorem iget_ok_of_room {s : Abs} {i : ℕ} (h : s.Room i) : ∃ r, s.iget i = .ok r := by
  unfold Abs.iget
  split
  · exact ⟨_, rfl⟩
  rename_i hnone
  split
  · exact ⟨_, rfl⟩
  rename_i hfull
  obtain ⟨e, hzero | ⟨hpos, hi⟩⟩ := h
  · have := List.find?_eq_none.mp hfull e (List.mem_finRange e)
    exact absurd (beq_iff_eq.mpr hzero) this
  · have := List.find?_eq_none.mp hnone e (List.mem_finRange e)
    rw [Bool.and_eq_true, decide_eq_true_eq, beq_iff_eq] at this
    exact absurd ⟨hpos, hi⟩ this

theorem iget_panic_of_full {s : Abs} {i : ℕ} (h : ¬ s.Room i) :
    s.iget i = .panic (some .igetNoInodes) := by
  unfold Abs.iget
  split
  · next e he =>
    have hfound := List.find?_some he
    rw [Bool.and_eq_true, decide_eq_true_eq, beq_iff_eq] at hfound
    exact absurd ⟨e, .inr hfound⟩ h
  · split
    · next e he =>
      have hfound := List.find?_some he
      exact absurd ⟨e, .inl (beq_iff_eq.mp hfound)⟩ h
    · rfl

variable {H : Prop} {sb : Super} {p : Pid} {c : Option (Fin ninode)}
  {own : Multiset (Fin ninode × ℕ)} {lk : Multiset (Fin ninode)} {fresh : Set ℕ} {s : Abs}
  {e : Fin ninode} {i : ℕ} {nd : Node} {A : Option Panic → Prop}

/-! ### The operations -/

section Operations

variable {α : Type}

theorem ends_call_of_ok {o : InodeOp α} {r : α × Abs} {Q : α → Abs → Prop}
    (hwp : (Prog.call o).wp (onAbs sb p) Mild s Q) (hr : onAbs sb p o s = .ok r) :
    Kern.Ends A ((Prog.call o).exec (onAbs sb p)) s Q :=
  .of_wp_ok hwp (by rw [Prog.exec_call]; exact hr)

theorem ends_call_of_panic {o : InodeOp α} {x : Option Panic} {Q : α → Abs → Prop}
    (hx : onAbs sb p o s = .panic x) (hA : A x) :
    Kern.Ends A ((Prog.call o).exec (onAbs sb p)) s Q := by
  rw [ends_exec_call, Kern.Ends, hx]
  exact hA

/-- `iget` panics if the table is full. -/
theorem Inv.ends_iget (h : Inv H sb p c own lk fresh s) (hi : i < sb.ninodes)
    {Q : Fin ninode → Abs → Prop} (hfull : ¬ s.Room i → A (some .igetNoInodes))
    (hQ : ∀ e s', s.Room i → Inv H sb p c ((e, i) ::ₘ own) lk fresh s' → Steady p c s s' →
      s'.node = s.node → Q e s') :
    Kern.Ends A ((Prog.call (.iget rootdev.toNat i)).exec (onAbs sb p)) s Q := by
  have hcall : onAbs sb p (.iget rootdev.toNat i) s = s.iget i := by rw [onAbs, if_pos ⟨rfl, hi⟩]
  by_cases hroom : s.Room i
  · obtain ⟨r, hr⟩ := iget_ok_of_room hroom
    exact ends_call_of_ok (h.wp_iget hi fun e s' => hQ e s' hroom) (hcall.trans hr)
  · exact ends_call_of_panic (hcall.trans (iget_panic_of_full hroom)) (hfull hroom)

theorem Inv.ends_idup (h : Inv H sb p c own lk fresh s) (hm : (e, i) ∈ own)
    {Q : Unit → Abs → Prop}
    (hQ : ∀ s', Inv H sb p c ((e, i) ::ₘ own) lk fresh s' → Steady p c s s' →
      s'.node = s.node → Q () s') :
    Kern.Ends A ((Prog.call (.idup e)).exec (onAbs sb p)) s Q :=
  ends_call_of_ok (h.wp_idup hm hQ) (if_pos (h.ref_pos_of_mem hm))

/-- `ilock` panics if the inode is free. -/
theorem Inv.ends_ilock (h : Inv H sb p c own lk fresh s) (hr : Referred s.tables p own e)
    (hl : e ∉ lk) (hnum : (s.entry e).inum = i) {Q : Unit → Abs → Prop}
    (hfree : s.node i = none → A (some .noType))
    (hQ : ∀ s' nd, Inv H sb p c own (e ::ₘ lk) fresh s' → Steady p c s s' →
      s'.node = s.node → s.node i = some nd → Q () s') :
    Kern.Ends A ((Prog.call (.ilock e)).exec (onAbs sb p)) s Q := by
  have hpos := h.ref_pos_of_referred hr
  have howner : ¬ (s.entry e).owner ≠ none := by rw [h.owner, if_neg hl]; exact not_not.mpr rfl
  have hcall : onAbs sb p (.ilock e) s
      = if (s.entry e).valid || (s.node (s.entry e).inum).isSome then
          .ok ((), s.setEntry e fun x => { x with owner := some p, valid := true })
        else .panic (some .noType) := by
    rw [onAbs, if_neg (by omega), if_neg howner]
  by_cases hok : (s.entry e).valid || (s.node (s.entry e).inum).isSome
  · rw [if_pos hok] at hcall
    exact ends_call_of_ok (h.wp_ilock hr hnum fun s' nd _ => hQ s' nd) hcall
  · rw [if_neg hok] at hcall
    refine ends_call_of_panic hcall (hfree ?_)
    rw [Bool.or_eq_true, not_or, hnum] at hok
    exact Option.not_isSome_iff_eq_none.mp hok.2

theorem Inv.ends_iunlock (h : Inv H sb p c own (e ::ₘ lk) fresh s) {Q : Unit → Abs → Prop}
    (hQ : ∀ s', Inv H sb p c own lk fresh s' → Steady p c s s' → s'.node = s.node → Q () s') :
    Kern.Ends A ((Prog.call (.iunlock e)).exec (onAbs sb p)) s Q := by
  have hmem : e ∈ e ::ₘ lk := Multiset.mem_cons_self ..
  have hpos := h.ref_pos_of_locked hmem
  have howner : (s.entry e).owner = some p := by rw [h.owner, if_pos hmem]
  have hcall : onAbs sb p (.iunlock e) s
      = .ok ((), s.setEntry e fun x => { x with owner := none }) := by
    rw [onAbs, if_neg (not_or.mpr ⟨not_not.mpr howner, by omega⟩),
      if_neg (by rw [h.clean]; exact nofun)]
  exact ends_call_of_ok (h.wp_iunlock fun s' h' hst hnode _ => hQ s' h' hst hnode) hcall

/-- `iput` returns, but for the last reference to an entry that is locked. -/
theorem Inv.ends_iput (h : Inv H sb p c ((e, i) ::ₘ own) lk fresh s)
    (hl : e ∈ lk → Referred s.tables p own e) (hc : c = some e → ∃ i, (e, i) ∈ own)
    {Q : Unit → Abs → Prop}
    (hQ : ∀ s', Inv H sb p c own lk fresh s' → Steady p c s s' → Freed s.node s'.node →
      (∀ x ∈ own, s'.node x.2 = s.node x.2) →
      (H → (i ∈ fresh → ∃ a, (a, i) ∈ own) → s'.node = s.node) → Q () s') :
    Kern.Ends A ((Prog.call (.iput e)).exec (onAbs sb p)) s Q := by
  have hpos := h.ref_pos_of_mem (Multiset.mem_cons_self ..)
  have hcall : ∃ r, onAbs sb p (.iput e) s = .ok r := by
    rw [onAbs, if_neg (not_or.mpr ⟨by omega, by rw [h.clean]; exact nofun⟩)]
    by_cases hmem : e ∈ lk
    · have hmore : ¬ (s.entry e).ref = 1 := by
        have hrest : 0 < (own.map Prod.fst).count e + others s.tables p e := by
          obtain ⟨j, hj⟩ | ho := hl hmem
          · have : 0 < (own.map Prod.fst).count e :=
              Multiset.count_pos.mpr (Multiset.mem_map.mpr ⟨(e, j), hj, rfl⟩)
            omega
          · omega
        rw [h.ref, Multiset.map_cons, Multiset.count_cons_self]
        omega
      rw [if_neg fun hlast => hmore hlast.1]
      exact ⟨_, rfl⟩
    · rw [if_pos (by rw [h.owner, if_neg hmem] : (s.entry e).owner = none)]
      split <;> exact ⟨_, rfl⟩
  obtain ⟨r, hr⟩ := hcall
  exact ends_call_of_ok (h.wp_iput hl hc
    fun s' h' hst hfree hkeep hsame _ => hQ s' h' hst hfree hkeep hsame) hr

theorem Inv.ends_iunlockput (h : Inv H sb p c ((e, i) ::ₘ own) (e ::ₘ lk) fresh s)
    (hc : c = some e → ∃ i, (e, i) ∈ own) {Q : Unit → Abs → Prop}
    (hQ : ∀ s', Inv H sb p c own lk fresh s' → Steady p c s s' → Freed s.node s'.node →
      (∀ x ∈ own, s'.node x.2 = s.node x.2) →
      (H → (i ∈ fresh → ∃ a, (a, i) ∈ own) → s'.node = s.node) → Q () s') :
    Kern.Ends A ((iunlockput e).exec (onAbs sb p)) s Q := by
  have hnot := (Multiset.nodup_cons.mp h.nodup).1
  rw [iunlockput, ends_exec_bind]
  refine h.ends_iunlock fun s₁ h₁ hst₁ hnode₁ => ?_
  refine h₁.ends_iput (fun hm => absurd hm hnot) hc fun s₂ h₂ hst₂ hfree hkeep hsame => ?_
  rw [hnode₁] at hfree hkeep hsame
  exact hQ s₂ h₂ (hst₁.trans hst₂) hfree hkeep hsame

theorem Inv.ends_attr (h : Inv H sb p c own lk fresh s) (hl : e ∈ lk) (hnum : (s.entry e).inum = i)
    (hi : s.node i = some nd) {Q : Attr → Abs → Prop} (hQ : Q nd.attr s) :
    Kern.Ends A ((Prog.call (.attr e)).exec (onAbs sb p)) s Q := by
  obtain ⟨nd', -, hlocked⟩ := h.locked_eq hl hnum
  exact ends_call_of_ok (h.wp_attr hl hnum hi hQ) (by rw [onAbs, withLocked, hlocked])

theorem Inv.ends_ident (h : Inv H sb p c own lk fresh s) (hm : (e, i) ∈ own)
    {Q : ℕ × ℕ → Abs → Prop} (hQ : Q (rootdev.toNat, i) s) :
    Kern.Ends A ((Prog.call (.ident e)).exec (onAbs sb p)) s Q :=
  ends_call_of_ok (h.wp_ident hm hQ) (if_pos (h.ref_pos_of_mem hm))

theorem Inv.ends_readi (h : Inv H sb p c own lk fresh s) (hl : e ∈ lk)
    (hnum : (s.entry e).inum = i) (hi : s.node i = some nd) {dst : Dst} {off n : ℕ}
    (hn : n < 2 ^ 32) {Q : ℤ × List UInt8 → Abs → Prop} (hQ : Q (nd.read dst off n) s) :
    Kern.Ends A ((Prog.call (.readi e dst off n)).exec (onAbs sb p)) s Q := by
  obtain ⟨nd', -, hlocked⟩ := h.locked_eq hl hnum
  have hcall : onAbs sb p (.readi e dst off n) s = .ok (nd'.read dst off n, s) := by
    rw [onAbs, withLocked, hlocked]
    exact if_pos hn
  exact ends_call_of_ok (h.wp_readi hl hnum hi hn hQ) hcall

end Operations

/-! ### Searching a directory -/

section Lookup

variable {dp : Fin ninode} {name : List UInt8} {Q : Option (Fin ninode × ℕ) → Abs → Prop}
  (h : Inv H sb p c own lk fresh s) (hl : dp ∈ lk) (hm : (dp, i) ∈ own)
  (hi : s.node i = some nd) (ht : nd.type = tDir) (hdvd : direntSize ∣ nd.data.length)
  (hnone : lookup nd.data name = none → Q none s)
  (hfull : ∀ k, lookup nd.data name = some k → ¬ s.Room (dirent nd.data k).inum.toNat →
    A (some .igetNoInodes))
  (hsome : ∀ k ip s', lookup nd.data name = some k → s.Room (dirent nd.data k).inum.toNat →
    Inv H sb p c ((ip, (dirent nd.data k).inum.toNat) ::ₘ own) lk fresh s' → Steady p c s s' →
    s'.node = s.node → Q (some (ip, direntSize * k)) s')
include h hl hm hi ht hdvd hnone hfull hsome

theorem Inv.ends_dirlookupLoop (fuel k : ℕ) (hfuel : k + fuel = slots nd.data + 1)
    (hk : k ≤ slots nd.data) (hb : ∀ m, m < k → ¬ entryIs nd.data name m) :
    Kern.Ends A ((dirlookupLoop dp name rootdev.toNat nd.data.length fuel (direntSize * k)).exec
      (onAbs sb p)) s Q := by
  induction fuel generalizing k with
  | zero => omega
  | succ fuel ih =>
    rw [dirlookupLoop]
    by_cases hlt : direntSize * k < nd.data.length
    · rw [if_pos hlt, ends_exec_bind]
      refine h.ends_readi hl (h.num hm) hi (by decide) ?_
      have hks : k < slots nd.data := by
        obtain ⟨m, hlen⟩ := hdvd
        rw [hlen] at hlt
        rw [slots, hlen, Nat.mul_div_cancel_left m (by decide)]
        exact Nat.lt_of_mul_lt_mul_left hlt
      obtain ⟨hr, hde⟩ := Node.read_entry_of_lt (h.node hi).size hks
      rw [if_neg (not_not.mpr hr), hde]
      have hgo : ¬ entryIs nd.data name k → Kern.Ends A ((dirlookupLoop dp name rootdev.toNat
          nd.data.length fuel (direntSize * k + direntSize)).exec (onAbs sb p)) s Q := by
        intro hno
        refine ih (k + 1) (by omega) hks fun m hlt => ?_
        obtain rfl | hlt := Nat.eq_or_lt_of_le (Nat.le_of_lt_succ hlt)
        · exact hno
        · exact hb m hlt
      dsimp only
      split
      · next h0 => exact hgo fun hc => (entryIs_iff.mp hc).1 (by rw [h0]; rfl)
      rename_i h0
      split
      · next hcmp =>
        have heq : entryIs nd.data name k := entryIs_iff.mpr
          ⟨fun hz => h0 (BitVec.eq_of_toNat_eq hz), ((namecmp_eq_zero _ _).mp hcmp).symm⟩
        have hfound := lookup_eq_some hks heq hb
        rw [ends_exec_bind]
        exact h.ends_iget ((h.node hi).dir ht k hks) (hfull k hfound)
          fun ip s' hroom => hsome k ip s' hfound hroom
      · next hcmp =>
        exact hgo fun hc => hcmp ((namecmp_eq_zero _ _).mpr (entryIs_iff.mp hc).2.symm)
    · rw [if_neg hlt]
      obtain ⟨rfl, -⟩ := whole_of_end hk hlt
      refine hnone (lookup_eq_none.mpr fun m hlt h0 hn => ?_)
      exact hb m hlt (entryIs_iff.mpr ⟨h0, hn⟩)

/-- **`dirlookup` of a directory returns**, unless there is no room for what it finds. -/
theorem Inv.ends_dirlookup :
    Kern.Ends A ((dirlookup dp name).exec (onAbs sb p)) s Q := by
  rw [dirlookup]
  simp only [ends_exec_bind]
  refine h.ends_attr hl (h.num hm) hi ?_
  have htype : ¬ nd.attr.type ≠ tDir := not_not.mpr ht
  rw [if_neg htype, ends_exec_bind]
  refine h.ends_ident hm ?_
  exact h.ends_dirlookupLoop hl hm hi ht hdvd hnone hfull hsome _ 0 (Nat.zero_add _)
    (Nat.zero_le _) fun m hlt => absurd hlt (Nat.not_lt_zero m)

end Lookup

end Xv6.Fs
