import Mathlib.Data.List.Infix

/-!
# Tries laid out in a store

Nodes that refer to one another by address: entry `i` of a node may name a child.  A path of
indices leads from a root to a node.  A table laid out this way behaves like a tree as long as
no two paths lead to the same node; the lemmas below say what writing one entry then does to
every path, and how the nodes below a root divide among its children.

## Main definitions

* `descend child f p` — the node that the path `p` leads to from `f`.
* `Node child l f g` — `g` is reached from `f` in at most `l` steps.
* `Separate child l f` — no two paths of length at most `l` lead to the same node.

## Main results

* `descend_congr` — paths depend only on the entries they go through.
* `Separate.descend_link`, `Separate.link` — hanging a new node into an empty entry adds
  one path, and keeps the nodes apart.
* `node_succ`, `Separate.subtree` — a tree is its root and the trees of its children.
-/

namespace Xv6.Trie

variable {N I : Type*}

/-- The node that a path leads to. -/
def descend (child : N → I → Option N) : N → List I → Option N
  | f, [] => some f
  | f, i :: p => (child f i).bind fun g => descend child g p

/-- `g` is reached from `f` in at most `l` steps. -/
def Node (child : N → I → Option N) (l : ℕ) (f g : N) : Prop :=
  ∃ p : List I, p.length ≤ l ∧ descend child f p = some g

/-- No two paths of length at most `l` lead to the same node. -/
def Separate (child : N → I → Option N) (l : ℕ) (f : N) : Prop :=
  ∀ (p q : List I) (g : N), p.length ≤ l → q.length ≤ l →
    descend child f p = some g → descend child f q = some g → p = q

variable {child child' : N → I → Option N} {l : ℕ} {f g h n : N} {p q : List I} {i : I}

@[simp] theorem descend_nil : descend child f [] = some f := rfl

theorem descend_cons : descend child f (i :: p) = (child f i).bind fun g => descend child g p := rfl

theorem descend_concat : descend child f (p ++ [i]) = (descend child f p).bind (child · i) := by
  induction p generalizing f with
  | nil =>
    rw [List.nil_append, descend_cons, descend_nil, Option.bind_some]
    cases child f i <;> rfl
  | cons j p ih =>
    rw [List.cons_append, descend_cons, descend_cons, Option.bind_assoc]
    exact Option.bind_congr fun g _ => ih

theorem node_root : Node child l f f := ⟨[], Nat.zero_le l, rfl⟩

/-- **Paths depend only on the entries they go through.** -/
theorem descend_congr
    (hagree : ∀ q h j, q.length < l → descend child f q = some h → child' h j = child h j)
    (hp : p.length ≤ l) : descend child' f p = descend child f p := by
  induction p using List.reverseRecOn with
  | nil => rfl
  | append_singleton p i ih =>
    rw [List.length_append, List.length_singleton] at hp
    rw [descend_concat, descend_concat, ih (by omega)]
    exact Option.bind_congr fun h hh => hagree p h i (by omega) hh

theorem node_congr
    (hagree : ∀ q h j, q.length < l → descend child f q = some h → child' h j = child h j) :
    Node child' l f g ↔ Node child l f g := by
  constructor
  · rintro ⟨p, hp, hd⟩
    exact ⟨p, hp, descend_congr hagree hp ▸ hd⟩
  · rintro ⟨p, hp, hd⟩
    exact ⟨p, hp, (descend_congr hagree hp).trans hd⟩

theorem Separate.congr (hsep : Separate child l f)
    (hagree : ∀ q h j, q.length < l → descend child f q = some h → child' h j = child h j) :
    Separate child' l f := by
  intro p q g hp hq hdp hdq
  rw [descend_congr hagree hp] at hdp
  rw [descend_congr hagree hq] at hdq
  exact hsep p q g hp hq hdp hdq

/-! ### Hanging in a new node -/

/-- What hanging the empty node `n` into entry `i` of the node `g` does to the entries. -/
structure Linked (child child' : N → I → Option N) (l : ℕ) (f g : N) (i : I) (n : N) : Prop where
  vacant : child g i = none
  fresh : ¬ Node child l f n
  entry : child' g i = some n
  empty : ∀ j, child' n j = none
  others : ∀ h j, Node child l f h → ¬ (h = g ∧ j = i) → child' h j = child h j

/-- **Hanging in a node adds one path.** -/
theorem Separate.descend_link [DecidableEq I] (hsep : Separate child l f)
    (hp : descend child f p = some g)
    (hl : p.length < l) (hlink : Linked child child' l f g i n) (hq : q.length ≤ l) :
    descend child' f q = if q = p ++ [i] then some n else descend child f q := by
  induction q using List.reverseRecOn with
  | nil =>
    rw [if_neg fun heq => List.append_ne_nil_of_right_ne_nil p (List.cons_ne_nil i []) heq.symm]
    rfl
  | append_singleton q j ih =>
    rw [List.length_append, List.length_singleton] at hq
    rw [descend_concat, ih (by omega)]
    by_cases hqp : q = p ++ [i]
    · -- below the new node there is nothing, and there was nothing before
      have hne : q ++ [j] ≠ p ++ [i] := by
        intro heq
        have := congrArg List.length heq
        simp only [hqp, List.length_append, List.length_singleton] at this
        omega
      rw [if_pos hqp, if_neg hne, Option.bind_some, hlink.empty, hqp, descend_concat,
        descend_concat, hp, Option.bind_some, hlink.vacant, Option.bind_none]
    · rw [if_neg hqp]
      by_cases hj : q ++ [j] = p ++ [i]
      · obtain ⟨rfl, hji⟩ := List.append_inj' hj rfl
        obtain rfl : j = i := by simpa using hji
        rw [if_pos rfl, hp, Option.bind_some, hlink.entry]
      · rw [if_neg hj, descend_concat]
        refine Option.bind_congr fun h hh => hlink.others h j ⟨q, by omega, hh⟩ ?_
        rintro ⟨rfl, rfl⟩
        exact hj (by rw [hsep q p h (by omega) (by omega) hh hp])

theorem Separate.node_link (hsep : Separate child l f) (hp : descend child f p = some g)
    (hl : p.length < l) (hlink : Linked child child' l f g i n) :
    Node child' l f h ↔ Node child l f h ∨ h = n := by
  classical
  constructor
  · rintro ⟨q, hq, hd⟩
    rw [hsep.descend_link hp hl hlink hq] at hd
    split at hd
    · exact .inr (Option.some.inj hd).symm
    · exact .inl ⟨q, hq, hd⟩
  · rintro (⟨q, hq, hd⟩ | rfl)
    · refine ⟨q, hq, ?_⟩
      rw [hsep.descend_link hp hl hlink hq, if_neg, hd]
      rintro rfl
      rw [descend_concat, hp, Option.bind_some, hlink.vacant] at hd
      cases hd
    · have hlen : (p ++ [i]).length ≤ l := by rwa [List.length_append, List.length_singleton]
      exact ⟨p ++ [i], hlen, by rw [hsep.descend_link hp hl hlink hlen, if_pos rfl]⟩

/-- **Hanging in a node keeps the nodes apart.** -/
theorem Separate.link (hsep : Separate child l f) (hp : descend child f p = some g)
    (hl : p.length < l) (hlink : Linked child child' l f g i n) : Separate child' l f := by
  classical
  intro q₁ q₂ h h₁ h₂ hd₁ hd₂
  rw [hsep.descend_link hp hl hlink h₁] at hd₁
  rw [hsep.descend_link hp hl hlink h₂] at hd₂
  split at hd₁ <;> split at hd₂
  · rename_i heq₁ heq₂
    rw [heq₁, heq₂]
  · rw [← Option.some.inj hd₁] at hd₂
    exact absurd ⟨q₂, h₂, hd₂⟩ hlink.fresh
  · rw [← Option.some.inj hd₂] at hd₁
    exact absurd ⟨q₁, h₁, hd₁⟩ hlink.fresh
  · exact hsep q₁ q₂ h h₁ h₂ hd₁ hd₂

/-! ### The children of a root -/

/-- **A tree is its root and the trees of its children.** -/
theorem node_succ :
    Node child (l + 1) f g ↔ g = f ∨ ∃ i c, child f i = some c ∧ Node child l c g := by
  constructor
  · rintro ⟨p, hp, hd⟩
    cases p with
    | nil => exact .inl (Option.some.inj hd).symm
    | cons i p =>
      rw [descend_cons, Option.bind_eq_some_iff] at hd
      obtain ⟨c, hc, hd⟩ := hd
      exact .inr ⟨i, c, hc, p, by simpa using hp, hd⟩
  · rintro (rfl | ⟨i, c, hc, p, hp, hd⟩)
    · exact node_root
    · refine ⟨i :: p, by simpa using hp, ?_⟩
      rw [descend_cons, hc, Option.bind_some, hd]

theorem Node.succ_child {c : N} (hc : child f i = some c) (h : Node child l c g) :
    Node child (l + 1) f g := node_succ.mpr (.inr ⟨i, c, hc, h⟩)

theorem Separate.subtree {c : N} (hsep : Separate child (l + 1) f) (hc : child f i = some c) :
    Separate child l c := by
  intro p q g hp hq hdp hdq
  have heq := hsep (i :: p) (i :: q) g (by simpa using hp) (by simpa using hq)
    (by rw [descend_cons, hc, Option.bind_some, hdp])
    (by rw [descend_cons, hc, Option.bind_some, hdq])
  exact (List.cons.inj heq).2

/-- The root is in none of its children's trees. -/
theorem Separate.root_notMem {c : N} (hsep : Separate child (l + 1) f) (hc : child f i = some c) :
    ¬ Node child l c f := by
  rintro ⟨p, hp, hd⟩
  have heq := hsep [] (i :: p) f (Nat.zero_le _) (by simpa using hp) rfl
    (by rw [descend_cons, hc, Option.bind_some, hd])
  cases heq

/-- Different children have different trees. -/
theorem Separate.children_disjoint {c d : N} {j : I} (hsep : Separate child (l + 1) f)
    (hc : child f i = some c) (hd : child f j = some d) (hgc : Node child l c g)
    (hgd : Node child l d g) : i = j := by
  obtain ⟨p, hp, hdp⟩ := hgc
  obtain ⟨q, hq, hdq⟩ := hgd
  have heq := hsep (i :: p) (j :: q) g (by simpa using hp) (by simpa using hq)
    (by rw [descend_cons, hc, Option.bind_some, hdp])
    (by rw [descend_cons, hd, Option.bind_some, hdq])
  exact (List.cons.inj heq).1

end Xv6.Trie
