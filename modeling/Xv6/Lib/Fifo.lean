import Mathlib.Data.BitVec

/-!
# A queue in a ring, with counters that wrap

A queue of at most `cap` items in an array of `cap` cells.  Two counters say how many items
have been taken and stored so far.  They are `w` bits wide and run freely; the cell an item
lies in is its number modulo `cap`.  As long as `cap` divides `2 ^ w`, a counter that wraps
goes on in the next cell.

## Main definitions

* `Fifo w cap α` — the array and the counters.
* `Fifo.push`, `Fifo.pop`, `Fifo.unpush` — store an item, take one, and take the last one back.
* `Fifo.store`, `Fifo.advance` — the two halves of `Fifo.push`.
* `Fifo.contents` — the items stored and not taken, in order.

## Main results

* `Fifo.contents_push`, `Fifo.contents_pop`, `Fifo.contents_unpush` — the operations on the
  contents.
* `Fifo.count_push`, `Fifo.count_pop` — the number of items stays within bounds.
-/

namespace Xv6

/-- An array of `cap` cells and two counters. -/
structure Fifo (w cap : ℕ) (α : Type*) where
  data : Fin cap → α
  nread : BitVec w -- number of items taken
  nwrite : BitVec w -- number of items stored

namespace Fifo

variable {w cap : ℕ} [NeZero cap] {α : Type*}

/-- The cell of item number `n`. -/
def slot (n : BitVec w) : Fin cap := Fin.ofNat cap n.toNat

/-- Nothing can be taken. -/
def Empty (q : Fifo w cap α) : Prop := q.nread = q.nwrite

/-- Nothing can be stored. -/
def Full (q : Fifo w cap α) : Prop := q.nwrite = q.nread + BitVec.ofNat w cap

instance (q : Fifo w cap α) : Decidable q.Empty := inferInstanceAs (Decidable (_ = _))

instance (q : Fifo w cap α) : Decidable q.Full := inferInstanceAs (Decidable (_ = _))

/-- Store an item. -/
def push (q : Fifo w cap α) (x : α) : Fifo w cap α :=
  { q with data := Function.update q.data (slot q.nwrite) x, nwrite := q.nwrite + 1 }

/-- Write an item where the next one goes.  It counts only when `nwrite` is advanced. -/
def store (q : Fifo w cap α) (x : α) : Fifo w cap α :=
  { q with data := Function.update q.data (slot q.nwrite) x }

/-- Count the item that has been written. -/
def advance (q : Fifo w cap α) : Fifo w cap α := { q with nwrite := q.nwrite + 1 }

/-- The item to be taken next. -/
def front (q : Fifo w cap α) : α := q.data (slot q.nread)

/-- Take an item. -/
def pop (q : Fifo w cap α) : Fifo w cap α := { q with nread := q.nread + 1 }

/-- Take back the item stored last. -/
def unpush (q : Fifo w cap α) : Fifo w cap α := { q with nwrite := q.nwrite - 1 }

/-- The item stored last. -/
def back (q : Fifo w cap α) : α := q.data (slot (q.nwrite - 1))

/-- The number of items. -/
def count (q : Fifo w cap α) : ℕ := (q.nwrite - q.nread).toNat

/-- The items, in order. -/
def contents (q : Fifo w cap α) : List α :=
  (List.range q.count).map fun k => q.data (slot (q.nread + BitVec.ofNat w k))

variable {q : Fifo w cap α}

section Count

omit [NeZero cap]

theorem count_eq_iff {c : ℕ} (hc : c < 2 ^ w) :
    q.count = c ↔ q.nwrite = q.nread + BitVec.ofNat w c := by
  have hnat : q.count = c ↔ q.nwrite - q.nread = BitVec.ofNat w c := by
    rw [count, ← BitVec.toNat_inj, BitVec.toNat_ofNat, Nat.mod_eq_of_lt hc]
  rw [hnat, BitVec.sub_eq_iff_eq_add, BitVec.add_comm]

theorem empty_iff : q.Empty ↔ q.count = 0 := by
  rw [count_eq_iff (Nat.two_pow_pos w), BitVec.add_zero]
  exact eq_comm

theorem full_iff (hcap : cap < 2 ^ w) : q.Full ↔ q.count = cap := (count_eq_iff hcap).symm

theorem nwrite_eq : q.nwrite = q.nread + BitVec.ofNat w q.count :=
  (count_eq_iff (BitVec.isLt _)).mp rfl

theorem count_pop (hempty : ¬ q.Empty) : q.pop.count + 1 = q.count := by
  rw [empty_iff] at hempty
  obtain ⟨c, hc⟩ : ∃ c, q.count = c + 1 := Nat.exists_eq_add_one.mpr (Nat.pos_of_ne_zero hempty)
  have hlt : q.count < 2 ^ w := BitVec.isLt _
  have hpop : q.pop.count = c := by
    rw [count_eq_iff (by omega)]
    show q.nwrite = q.nread + 1 + BitVec.ofNat w c
    rw [q.nwrite_eq, hc, BitVec.add_assoc, BitVec.ofNat_add, BitVec.add_comm (BitVec.ofNat w c)]
    rfl
  omega

theorem count_unpush (hempty : ¬ q.Empty) : q.unpush.count + 1 = q.count := by
  rw [empty_iff] at hempty
  obtain ⟨c, hc⟩ : ∃ c, q.count = c + 1 := Nat.exists_eq_add_one.mpr (Nat.pos_of_ne_zero hempty)
  have hlt : q.count < 2 ^ w := BitVec.isLt _
  have hback : q.unpush.count = c := by
    rw [count_eq_iff (by omega)]
    show q.nwrite - 1 = q.nread + BitVec.ofNat w c
    rw [q.nwrite_eq, hc, BitVec.ofNat_add, ← BitVec.add_assoc]
    exact BitVec.add_sub_cancel ..
  omega

end Count

@[simp] theorem length_contents : q.contents.length = q.count := by
  rw [contents, List.length_map, List.length_range]

theorem count_push (hcap : cap < 2 ^ w) (hle : q.count ≤ cap) (hfull : ¬ q.Full) (x : α) :
    (q.push x).count = q.count + 1 := by
  rw [full_iff hcap] at hfull
  rw [count_eq_iff (by omega)]
  show q.nwrite + 1 = q.nread + _
  rw [q.nwrite_eq, BitVec.add_assoc, BitVec.ofNat_add]
  rfl

/-- Items with numbers close to each other lie in different cells, even where the counter
wraps. -/
theorem slot_ne (hdvd : cap ∣ 2 ^ w) {n : BitVec w} {k l : ℕ} (hkl : k < l) (hl : l < cap + k) :
    (slot (n + BitVec.ofNat w k) : Fin cap) ≠ slot (n + BitVec.ofNat w l) := by
  have hslot : ∀ m, (slot (n + BitVec.ofNat w m) : Fin cap).val = (n.toNat + m) % cap := by
    intro m
    show (n + BitVec.ofNat w m).toNat % cap = _
    rw [BitVec.toNat_add, BitVec.toNat_ofNat, Nat.add_mod_mod, Nat.mod_mod_of_dvd _ hdvd]
  intro heq
  have hmod := congrArg Fin.val heq
  rw [hslot, hslot] at hmod
  have hsub : (n.toNat + l - (n.toNat + k)) % cap = 0 := Nat.sub_mod_eq_zero_of_mod_eq hmod.symm
  rw [Nat.add_sub_add_left, Nat.mod_eq_of_lt (by omega)] at hsub
  omega

/-- An item that does not count yet. -/
theorem contents_store (hdvd : cap ∣ 2 ^ w) (hlt : q.count < cap) (x : α) :
    (q.store x).contents = q.contents := by
  refine List.map_congr_left fun k hk => ?_
  have hk : k < q.count := List.mem_range.mp hk
  have hne := slot_ne (n := q.nread) hdvd hk (by omega)
  rw [← nwrite_eq] at hne
  exact Function.update_of_ne hne ..

/-- The item written last begins to count. -/
theorem contents_advance (hcap : cap < 2 ^ w) (hlt : q.count < cap) :
    q.advance.contents = q.contents ++ [q.data (slot q.nwrite)] := by
  have hcount : q.advance.count = q.count + 1 := by
    rw [count_eq_iff (by omega)]
    show q.nwrite + 1 = q.nread + _
    rw [q.nwrite_eq, BitVec.add_assoc, BitVec.ofNat_add]
    rfl
  rw [contents, hcount, List.range_succ, List.map_append, List.map_singleton]
  show q.contents ++ [q.data (slot (q.nread + BitVec.ofNat w q.count))] = _
  rw [← nwrite_eq]

/-- **Storing an item** adds it at the end. -/
theorem contents_push (hdvd : cap ∣ 2 ^ w) (hcap : cap < 2 ^ w) (hle : q.count ≤ cap)
    (hfull : ¬ q.Full) (x : α) : (q.push x).contents = q.contents ++ [x] := by
  have hlt : q.count < cap := lt_of_le_of_ne hle (mt (full_iff hcap).mpr hfull)
  have hadvance : (q.store x).advance.contents = _ := contents_advance hcap hlt
  rw [contents_store hdvd hlt] at hadvance
  refine hadvance.trans ?_
  rw [show (q.store x).data (slot (q.store x).nwrite) = x from Function.update_self ..]

/-- **Taking an item** removes the first. -/
theorem contents_pop (hempty : ¬ q.Empty) : q.contents = q.front :: q.pop.contents := by
  have hcount := count_pop hempty
  rw [contents, ← hcount, List.range_succ_eq_map, List.map_cons, List.map_map, BitVec.add_zero]
  refine congrArg _ (List.map_congr_left fun k _ => ?_)
  show q.data (slot (q.nread + BitVec.ofNat w (k + 1)))
    = q.data (slot (q.nread + 1 + BitVec.ofNat w k))
  rw [BitVec.ofNat_add, BitVec.add_comm (BitVec.ofNat w k), BitVec.add_assoc]
  rfl

/-- **Taking back an item** removes the last. -/
theorem contents_unpush (hempty : ¬ q.Empty) : q.contents = q.unpush.contents ++ [q.back] := by
  have hcount := count_unpush hempty
  rw [contents, ← hcount, List.range_succ, List.map_append]
  refine congrArg _ ?_
  have hlast : q.nread + BitVec.ofNat w q.unpush.count = q.nwrite - 1 := q.unpush.nwrite_eq.symm
  rw [List.map_singleton, hlast]
  rfl

end Fifo

end Xv6
