import Mathlib.Tactic.Common

/-!
# Allocation maps

Numbered units are handed out and referred to from slots.  A map with one bit per unit
says which are in use.  The map is *exact* when the units in use are the reserved ones,
below `lo`, and those some slot refers to, each from one slot only.  A slot holding `0`
refers to nothing.

## Main definitions

* `Exact bit lo hi R` — the map `bit` over units below `hi` is exact for the slots `R`.

## Main results

* `Exact.alloc`, `Exact.free` — handing out a unit and storing its number, and giving up
  the unit a slot refers to.
-/

namespace Xv6

open Function

/-- The map `bit` marks the units below `lo` and those the slots `R` refer to. -/
structure Exact {ι : Type*} (bit : ℕ → Bool) (lo hi : ℕ) (R : ι → ℕ) : Prop where
  pos : 0 < lo
  range : ∀ x, R x ≠ 0 → lo ≤ R x ∧ R x < hi
  inj : ∀ x y, R x ≠ 0 → R x = R y → x = y
  bit_iff : ∀ b, b < hi → (bit b = true ↔ b < lo ∨ ∃ x, R x = b)

namespace Exact

variable {ι : Type*} {bit : ℕ → Bool} {lo hi : ℕ} {R : ι → ℕ}

theorem fresh (h : Exact bit lo hi R) {b : ℕ} (hb : bit b = false) (hhi : b < hi) :
    lo ≤ b ∧ ∀ x, R x ≠ b := by
  have hnot := mt (h.bit_iff b hhi).mpr (by rw [hb]; exact Bool.false_ne_true)
  rw [not_or] at hnot
  exact ⟨Nat.le_of_not_lt hnot.1, fun x hx => hnot.2 ⟨x, hx⟩⟩

theorem marked (h : Exact bit lo hi R) {x : ι} (hx : R x ≠ 0) : bit (R x) = true :=
  (h.bit_iff _ (h.range x hx).2).mpr (.inr ⟨x, rfl⟩)

variable [DecidableEq ι]

/-- **Handing out a unit.** -/
theorem alloc (h : Exact bit lo hi R) {x : ι} {b : ℕ} (hx : R x = 0) (hb : bit b = false)
    (hhi : b < hi) : Exact (update bit b true) lo hi (update R x b) := by
  obtain ⟨hlo, hfresh⟩ := h.fresh hb hhi
  refine ⟨h.pos, fun y hy => ?_, fun y z hy hyz => ?_, fun c hc => ?_⟩
  · by_cases hyx : y = x
    · rw [hyx, update_self]
      exact ⟨hlo, hhi⟩
    · rw [update_of_ne hyx] at hy ⊢
      exact h.range y hy
  · by_cases hyx : y = x
    · by_cases hzx : z = x
      · rw [hyx, hzx]
      · rw [hyx, update_self, update_of_ne hzx] at hyz
        exact absurd hyz.symm (hfresh z)
    · by_cases hzx : z = x
      · rw [hzx, update_self, update_of_ne hyx] at hyz
        exact absurd hyz (hfresh y)
      · rw [update_of_ne hyx] at hy hyz
        rw [update_of_ne hzx] at hyz
        exact h.inj y z hy hyz
  · by_cases hcb : c = b
    · subst hcb
      rw [update_self]
      exact iff_of_true rfl (.inr ⟨x, update_self ..⟩)
    rw [update_of_ne hcb, h.bit_iff c hc]
    -- the slot that changed referred to nothing before, and does not refer to `c` now
    refine or_congr_right' fun hlt => ⟨?_, ?_⟩
    · rintro ⟨y, hy⟩
      refine ⟨y, ?_⟩
      have hyx : y ≠ x := by
        rintro rfl
        have := h.pos
        omega
      rw [update_of_ne hyx, hy]
    · rintro ⟨y, hy⟩
      have hyx : y ≠ x := by
        rintro rfl
        rw [update_self] at hy
        exact hcb hy.symm
      exact ⟨y, by rwa [update_of_ne hyx] at hy⟩

/-- **Giving up a unit.** -/
theorem free (h : Exact bit lo hi R) {x : ι} (hx : R x ≠ 0) :
    Exact (update bit (R x) false) lo hi (update R x 0) := by
  have hpos := h.pos
  have hrange := h.range x hx
  refine ⟨h.pos, fun y hy => ?_, fun y z hy hyz => ?_, fun c hc => ?_⟩
  · have hyx : y ≠ x := by
      rintro rfl
      exact hy (update_self ..)
    rw [update_of_ne hyx] at hy ⊢
    exact h.range y hy
  · have hyx : y ≠ x := by
      rintro rfl
      exact hy (update_self ..)
    rw [update_of_ne hyx] at hy hyz
    have hzx : z ≠ x := by
      rintro rfl
      rw [update_self] at hyz
      exact hy hyz
    rw [update_of_ne hzx] at hyz
    exact h.inj y z hy hyz
  · by_cases hcb : c = R x
    · rw [hcb, update_self]
      refine iff_of_false Bool.false_ne_true ?_
      rintro (hlt | ⟨y, hy⟩)
      · omega
      · by_cases hyx : y = x
        · rw [hyx, update_self] at hy
          exact hx hy.symm
        · rw [update_of_ne hyx] at hy
          exact hyx (h.inj x y hx hy.symm).symm
    · rw [update_of_ne hcb, h.bit_iff c hc]
      refine or_congr_right' fun hlt => ⟨?_, ?_⟩
      · rintro ⟨y, hy⟩
        have hyx : y ≠ x := by
          rintro rfl
          exact hcb hy.symm
        exact ⟨y, by rw [update_of_ne hyx, hy]⟩
      · rintro ⟨y, hy⟩
        have hyx : y ≠ x := by
          rintro rfl
          rw [update_self] at hy
          omega
        exact ⟨y, by rwa [update_of_ne hyx] at hy⟩

end Exact

end Xv6
