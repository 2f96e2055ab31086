import Xv6.Lib.Counting
import Xv6.Fs.Name

/-!
# The nodes of a file system

Directories as rows of entries, and what freeing the nodes without links does.

A node whose link count is zero has been removed, and waits for its last reference to be
dropped; then it is freed.

## Main definitions

* `Nodes` — the nodes of a file system.
* `Node.IsDir` — a row of entries that starts with "." and "..".
* `Freed` — some nodes without links have been freed.

## Main results

* `Freed.get`, `Freed.live` — freeing changes no node, and keeps those with a link.
* `Freed.update` — freeing commutes with a change to a node that stays.
-/

namespace Xv6.Fs

/-- The nodes of a file system, by inode number. -/
abbrev Nodes : Type := ℕ → Option Node

/-- The inode number of the root directory. -/
abbrev root : ℕ := rootino.toNat

namespace Node

/-- The directory that ".." leads to. -/
def parent (nd : Node) : ℕ := (dirent nd.data 1).inum.toNat

/-- A directory is a row of whole entries that starts with "." and "..", and no other
entry has such a name. -/
structure IsDir (i : ℕ) (nd : Node) : Prop where
  whole : direntSize ∣ nd.data.length
  two : 2 ≤ slots nd.data
  self : (dirent nd.data 0).inum.toNat = i
  selfName : cname (dirent nd.data 0).name = dot
  parent_ne : nd.parent ≠ 0
  parentName : cname (dirent nd.data 1).name = dotdot
  other : ∀ k, 2 ≤ k → k < slots nd.data → (dirent nd.data k).inum.toNat ≠ 0 →
    cname (dirent nd.data k).name ≠ dot ∧ cname (dirent nd.data k).name ≠ dotdot

/-- A node with an entry stored in slot `k`. -/
def setEntry (nd : Node) (k : ℕ) (de : Dirent) : Node :=
  { nd with data := setDirent nd.data k de }

end Node

/-! ### Freeing nodes -/

/-- Some nodes without links have been freed. -/
inductive Freed : Nodes → Nodes → Prop
  | refl (N : Nodes) : Freed N N
  | step {N N' : Nodes} {i : ℕ} {nd : Node} : Freed N N' → N' i = some nd → nd.nlink = 0 →
      Freed N (Function.update N' i none)

namespace Freed

variable {N N' N'' : Nodes} {i : ℕ} {nd : Node}

theorem trans (h : Freed N N') (h' : Freed N' N'') : Freed N N'' := by
  induction h' with
  | refl => exact h
  | step _ hi h0 ih => exact ih.step hi h0

theorem get (h : Freed N N') (hi : N' i = some nd) : N i = some nd := by
  induction h with
  | refl => exact hi
  | @step M j x _ hj h0 ih =>
    by_cases hij : i = j
    · subst hij
      rw [Function.update_self] at hi
      cases hi
    · rw [Function.update_of_ne hij] at hi
      exact ih hi

theorem live (h : Freed N N') (hi : N i = some nd) (hl : nd.nlink ≠ 0) : N' i = some nd := by
  induction h with
  | refl => exact hi
  | @step M j x _ hj h0 ih =>
    by_cases hij : i = j
    · subst hij
      rw [ih] at hj
      cases hj
      exact absurd h0 hl
    · rw [Function.update_of_ne hij]
      exact ih

/-- Freeing commutes with a change to a node that stays. -/
theorem update (h : Freed N N') (hi : N' i = some nd) (x : Option Node) :
    Freed (Function.update N i x) (Function.update N' i x) := by
  induction h with
  | refl => exact .refl _
  | @step M j y _ hj h0 ih =>
    have hij : i ≠ j := by
      rintro rfl
      rw [Function.update_self] at hi
      cases hi
    rw [Function.update_of_ne hij] at hi
    rw [Function.update_comm hij.symm]
    refine (ih hi).step (i := j) ?_ h0
    rw [Function.update_of_ne hij.symm, hj]

end Freed

end Xv6.Fs
