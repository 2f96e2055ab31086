import Mathlib.Data.List.Chain
import Mathlib.Data.List.Nodup

/-!
# Circular doubly linked lists

Nodes of type `ι` linked through `next` and `prev` pointers into a ring with one
extra head node, written `none`.  `Ring L l` says that the pointers `L` describe
the list `l`, read from the head along `next`.

## Main definitions

* `Links`, `Links.unlink`, `Links.pushFront` — the pointers, and the pointer
  assignments that take a node out and put one in after the head.
* `Ring L l` — the ring of the list `l`.
* `walk step p fuel x` — a loop that follows pointers from `x` to a node satisfying `p`.

## Main results

* `Ring.unlink`, `Ring.pushFront` — what the assignments do to the list.
* `Ring.walk_next`, `Ring.walk_prev` — a loop round the ring searches the list,
  forwards or backwards, and ends.
-/

namespace Xv6

open Function

/-- The pointers of a ring; `none` is its head node. -/
structure Links (ι : Type*) where
  next : Option ι → Option ι
  prev : Option ι → Option ι

variable {ι : Type*} {L : Links ι} {l : List ι}

/-- Two nodes are neighbours: each points to the other. -/
def Links.Adj (L : Links ι) (x y : Option ι) : Prop := L.next x = y ∧ L.prev y = x

/-- The pointers form a ring of the head and the nodes of `l`, in this order. -/
structure Ring (L : Links ι) (l : List ι) : Prop where
  nodup : l.Nodup
  chain : List.IsChain L.Adj (none :: (l.map some ++ [none]))

/-- The same ring, read backwards. -/
def Links.swap (L : Links ι) : Links ι := ⟨L.prev, L.next⟩

theorem Ring.swap (h : Ring L l) : Ring L.swap l.reverse where
  nodup := List.nodup_reverse.mpr h.nodup
  chain := by
    have hrev := List.isChain_reverse.mpr h.chain
    simp only [List.reverse_cons, List.reverse_append, List.reverse_nil, List.nil_append,
      List.singleton_append, ← List.map_reverse] at hrev
    exact hrev.imp fun x y hxy => ⟨hxy.2, hxy.1⟩

/-! ### Searching -/

/-- Follow pointers from `x` until the head or a node satisfying `p` is met; `none` if
neither happens within `fuel` steps. -/
def walk (step : Option ι → Option ι) (p : ι → Bool) : ℕ → Option ι → Option (Option ι)
  | 0, _ => none
  | _ + 1, none => some none
  | fuel + 1, some i => if p i then some (some i) else walk step p fuel (step (some i))

theorem walk_chain (p : ι → Bool) {x : Option ι}
    (h : List.IsChain L.Adj (x :: (l.map some ++ [none]))) :
    walk L.next p (l.length + 1) (L.next x) = some (l.find? p) := by
  induction l generalizing x with
  | nil =>
    simp only [List.map_nil, List.nil_append, List.isChain_pair] at h
    rw [h.1]
    rfl
  | cons i l ih =>
    simp only [List.map_cons, List.cons_append, List.isChain_cons_cons] at h
    rw [h.1.1, List.length_cons, walk, List.find?_cons]
    cases p i with
    | true => rfl
    | false => exact ih h.2

/-- **A loop along `next` finds the first node of the list satisfying `p`.** -/
theorem Ring.walk_next (h : Ring L l) (p : ι → Bool) :
    walk L.next p (l.length + 1) (L.next none) = some (l.find? p) := walk_chain p h.chain

/-- **A loop along `prev` finds the last node of the list satisfying `p`.** -/
theorem Ring.walk_prev (h : Ring L l) (p : ι → Bool) :
    walk L.prev p (l.length + 1) (L.prev none) = some (l.reverse.find? p) := by
  have := h.swap.walk_next p
  rwa [List.length_reverse] at this

/-! ### Changing the ring -/

/-- The nodes after the head, with the head that closes the ring: a first node and a rest. -/
private theorem exists_first (l : List ι) : ∃ c r, l.map some ++ [none] = c :: r := by
  cases l with
  | nil => exact ⟨none, [], rfl⟩
  | cons i l => exact ⟨some i, l.map some ++ [none], rfl⟩

private theorem nodup_closed (h : l.Nodup) : (l.map some ++ [none]).Nodup := by
  refine List.nodup_append.mpr ⟨h.map (fun _ _ => Option.some.inj), List.nodup_singleton none, ?_⟩
  intro a ha b hb
  rw [List.mem_singleton] at hb
  obtain ⟨j, -, rfl⟩ := List.mem_map.mp ha
  rw [hb]
  exact Option.some_ne_none j

variable [DecidableEq ι]

/-- Take node `i` out: `b->next->prev = b->prev; b->prev->next = b->next`. -/
def Links.unlink (L : Links ι) (i : ι) : Links ι :=
  let L := { L with prev := update L.prev (L.next (some i)) (L.prev (some i)) }
  { L with next := update L.next (L.prev (some i)) (L.next (some i)) }

/-- Put node `i` after the head: `b->next = head.next; b->prev = &head;
head.next->prev = b; head.next = b`. -/
def Links.pushFront (L : Links ι) (i : ι) : Links ι :=
  let L := { L with next := update L.next (some i) (L.next none) }
  let L := { L with prev := update L.prev (some i) none }
  let L := { L with prev := update L.prev (L.next none) (some i) }
  { L with next := update L.next none (some i) }

/-- **Taking a node out of the ring.** -/
theorem Ring.unlink {l₁ l₂ : List ι} {i : ι} (h : Ring L (l₁ ++ i :: l₂)) :
    Ring (L.unlink i) (l₁ ++ l₂) := by
  have hi : i ∉ l₁ ++ l₂ := (List.nodup_cons.mp (List.nodup_middle.mp h.nodup)).1
  refine ⟨(List.nodup_cons.mp (List.nodup_middle.mp h.nodup)).2, ?_⟩
  -- split the ring at the neighbours `a` and `c` of the node
  obtain ⟨c, r, hr⟩ := exists_first l₂
  obtain ⟨f, a, hf⟩ : ∃ f a, none :: l₁.map some = f ++ [a] :=
    ⟨_, _, (List.dropLast_append_getLast (List.cons_ne_nil none (l₁.map some))).symm⟩
  have hshape : none :: ((l₁ ++ i :: l₂).map some ++ [none]) = f ++ a :: some i :: c :: r := by
    rw [List.map_append, List.map_cons, List.append_assoc, List.cons_append, hr, ← List.cons_append,
      hf, List.append_assoc, List.singleton_append]
  have hgoal : none :: ((l₁ ++ l₂).map some ++ [none]) = f ++ a :: c :: r := by
    rw [List.map_append, List.append_assoc, hr, ← List.cons_append, hf, List.append_assoc,
      List.singleton_append]
  have hch := h.chain
  rw [hshape, List.isChain_append_cons_cons, List.isChain_cons_cons] at hch
  obtain ⟨hfa, ⟨hnext_a, hprev_i⟩, ⟨hnext_i, hprev_c⟩, hcr⟩ := hch
  have hiA : some i ∉ f ++ [a] := by
    rw [← hf]
    simpa using fun hmem => hi (List.mem_append_left _ hmem)
  have hiC : some i ∉ c :: r := by
    rw [← hr]
    simpa using fun hmem => hi (List.mem_append_right _ hmem)
  have hci : some i ≠ c := fun heq => hiC (heq ▸ List.mem_cons_self)
  -- the pointers after the assignments
  have hnext : (L.unlink i).next = update L.next a c := by
    simp only [Links.unlink, hnext_i, hprev_i, update_of_ne hci]
  have hprev : (L.unlink i).prev = update L.prev c a := by
    simp only [Links.unlink, hnext_i, hprev_i]
  -- a pair of neighbours that avoids the node keeps its pointers
  have hkeep : ∀ x y, x ≠ some i → y ≠ some i → L.Adj x y → (L.unlink i).Adj x y := by
    intro x y hx hy hxy
    have hxa : x ≠ a := fun heq => hy (by rw [← hxy.1, heq, hnext_a])
    have hyc : y ≠ c := fun heq => hx (by rw [← hxy.2, heq, hprev_c])
    refine ⟨?_, ?_⟩
    · rw [hnext, update_of_ne hxa, hxy.1]
    · rw [hprev, update_of_ne hyc, hxy.2]
  rw [hgoal, List.isChain_append_cons_cons]
  refine ⟨?_, ⟨?_, ?_⟩, ?_⟩
  · exact hfa.imp_of_mem_imp fun x y hx hy =>
      hkeep x y (fun heq => hiA (heq ▸ hx)) fun heq => hiA (heq ▸ hy)
  · rw [hnext, update_self]
  · rw [hprev, update_self]
  · exact hcr.imp_of_mem_imp fun x y hx hy =>
      hkeep x y (fun heq => hiC (heq ▸ hx)) fun heq => hiC (heq ▸ hy)

/-- **Putting a node in after the head.** -/
theorem Ring.pushFront {i : ι} (h : Ring L l) (hi : i ∉ l) : Ring (L.pushFront i) (i :: l) := by
  refine ⟨List.nodup_cons.mpr ⟨hi, h.nodup⟩, ?_⟩
  obtain ⟨c, r, hr⟩ := exists_first l
  have hch := h.chain
  have hnd := nodup_closed h.nodup
  have hiC : some i ∉ c :: r := by
    rw [← hr]
    simpa using hi
  rw [hr, List.isChain_cons_cons] at hch
  rw [hr] at hnd
  obtain ⟨⟨hnext_h, hprev_c⟩, hcr⟩ := hch
  have hci : c ≠ some i := fun heq => hiC (heq ▸ List.mem_cons_self)
  -- the pointers after the assignments
  have hnext : (L.pushFront i).next
      = update (update L.next (some i) c) none (some i) := by
    simp only [Links.pushFront, hnext_h]
  have hprev : (L.pushFront i).prev
      = update (update L.prev (some i) none) c (some i) := by
    have hne : (none : Option ι) ≠ some i := (Option.some_ne_none i).symm
    simp only [Links.pushFront, update_of_ne hne, hnext_h]
  rw [List.map_cons, List.cons_append, hr, List.isChain_cons_cons, List.isChain_cons_cons]
  refine ⟨⟨?_, ?_⟩, ⟨?_, ?_⟩, ?_⟩
  · rw [hnext, update_self]
  · rw [hprev, update_of_ne hci.symm, update_self]
  · rw [hnext, update_of_ne (Option.some_ne_none i), update_self]
  · rw [hprev, update_self]
  refine hcr.imp_of_mem_tail_imp fun x y hx hy hxy => ?_
  rw [List.tail_cons] at hy
  have hyc : y ≠ c := fun heq => (List.nodup_cons.mp hnd).1 (heq ▸ hy)
  have hyi : y ≠ some i := fun heq => hiC (heq ▸ List.mem_cons_of_mem c hy)
  have hxi : x ≠ some i := fun heq => hiC (heq ▸ hx)
  -- the head is followed by `c` alone, so it is not the first of this pair
  have hxn : x ≠ none := fun heq => hyc (by rw [← hxy.1, heq, hnext_h])
  refine ⟨?_, ?_⟩
  · rw [hnext, update_of_ne hxn, update_of_ne hxi, hxy.1]
  · rw [hprev, update_of_ne hyc, update_of_ne hyi, hxy.2]

end Xv6
