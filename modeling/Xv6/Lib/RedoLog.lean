import Mathlib.Tactic.Common

/-!
# Redo logs

A redo log promises new contents for some addresses of a store: a list `h` of
addresses and, for the `i`-th of them, a saved copy `copy i` of the contents it
is to get.  Until the log is erased the store may hold any mixture of old and
new contents at the addresses of `h`; replaying the log makes it equal to the
promised contents whatever the mixture was.

## Main definitions

* `Replayable home d h copy target` — replaying the log `h`, `copy` over `d`
  gives `target` at all addresses of `home`.
* `Installed d h t target` — the first `t` addresses of the log have been replayed.

## Main results

* `Replayable.install`, `Installed.install` — replaying one more address.
* `Replayable.agree_of_installed` — once all are replayed the store is as promised.
-/

namespace Xv6

variable {A V : Type*} {home : A → Prop} {d target : A → V} {h : List A} {copy : ℕ → V}

/-- Replaying the log with addresses `h` and saved copies `copy` over the store
`d` gives the contents `target` at every address of `home`. -/
structure Replayable (home : A → Prop) (d : A → V) (h : List A) (copy : ℕ → V)
    (target : A → V) : Prop where
  /-- The addresses of the log are home addresses. -/
  mem_home : ∀ a ∈ h, home a
  /-- The saved copies are the promised contents. -/
  copies : ∀ i a, h[i]? = some a → copy i = target a
  /-- What the log does not mention is as promised already. -/
  rest : ∀ a, home a → a ∉ h → d a = target a

/-- The first `t` addresses of the log `h` hold their promised contents. -/
def Installed (d : A → V) (h : List A) (t : ℕ) (target : A → V) : Prop :=
  ∀ i a, i < t → h[i]? = some a → d a = target a

theorem installed_zero : Installed d h 0 target := nofun

theorem Installed.whole {t : ℕ} (hi : Installed d h t target) (ht : h[t]? = none) :
    Installed d h h.length target := fun i a hlt =>
  hi i a (Nat.lt_of_lt_of_le hlt (List.getElem?_eq_none_iff.mp ht))

theorem replayable_nil (hd : ∀ a, home a → d a = target a) :
    Replayable home d [] copy target where
  mem_home := nofun
  copies := fun _ _ hi => by simp at hi
  rest := fun a ha _ => hd a ha

theorem Replayable.agree_of_nil (hr : Replayable home d [] copy target) {a : A} (ha : home a) :
    d a = target a := hr.rest a ha List.not_mem_nil

theorem Replayable.congr {d' : A → V} {copy' : ℕ → V} (hr : Replayable home d h copy target)
    (hd : ∀ a, home a → d' a = d a) (hc : ∀ i, i < h.length → copy' i = copy i) :
    Replayable home d' h copy' target where
  mem_home := hr.mem_home
  copies := fun i a hi => by
    obtain ⟨hlt, -⟩ := List.getElem?_eq_some_iff.mp hi
    rw [hc i hlt, hr.copies i a hi]
  rest := fun a ha hn => by rw [hd a ha, hr.rest a ha hn]

theorem Replayable.agree_of_installed (hr : Replayable home d h copy target)
    (hi : Installed d h h.length target) {a : A} (ha : home a) : d a = target a := by
  by_cases hm : a ∈ h
  · obtain ⟨i, hlt, rfl⟩ := List.getElem_of_mem hm
    exact hi i _ hlt (List.getElem?_eq_getElem hlt)
  · exact hr.rest a ha hm

variable [DecidableEq A]

/-- **Replaying one address keeps the log replayable.** -/
theorem Replayable.install (hr : Replayable home d h copy target) {t : ℕ} {a : A}
    (ht : h[t]? = some a) : Replayable home (Function.update d a (copy t)) h copy target where
  mem_home := hr.mem_home
  copies := hr.copies
  rest := fun b hb hn => by
    have hne : b ≠ a := fun hba => hn (hba ▸ List.mem_of_getElem? ht)
    rw [Function.update_of_ne hne, hr.rest b hb hn]

/-- **Replaying one address extends the part replayed.** -/
theorem Installed.install {t : ℕ} (hi : Installed d h t target)
    (hr : Replayable home d h copy target)
    {a : A} (ht : h[t]? = some a) :
    Installed (Function.update d a (copy t)) h (t + 1) target := by
  intro i b hlt hb
  by_cases hba : b = a
  · -- The address itself: it gets its saved copy, which is what is promised.
    rw [hba, Function.update_self, hr.copies t a ht]
  · rw [Function.update_of_ne hba]
    refine hi i b ?_ hb
    have : i ≠ t := fun hit => hba (Option.some.inj (by rw [← hb, ← ht, hit]))
    omega

end Xv6
