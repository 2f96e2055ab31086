import Xv6.Lib.Prog

/-!
# Code that changes a state and ends

Kernel code that reads and changes a state and may panic, with a judgement that says how it
ends.  Unlike partial correctness the judgement promises an end: code that runs for ever
satisfies nothing.

## Main definitions

* `Kern E σ α` — code over states `σ` that panics with an `E` or returns an `α`.
* `Ends A c s Q` — from `s` the code `c` returns and `Q` holds, or it panics as `A` allows.
* `forRange n body` — the loop `for(i = 0; i < n; i++)`.

## Main results

* `ends_bind`, `Ends.imp` — composition and consequence.
* `ends_forRange` — the invariant rule of the counting loop.
* `ends_exec_bind`, `Ends.of_wp` — the judgement for programs over an interface.
-/

namespace Xv6

instance {E : Type} : Monad (Outcome E) where
  pure := Outcome.ok
  bind := Outcome.bind

/-- Code over states `σ` that panics with an `E` or returns an `α`. -/
abbrev Kern (E σ α : Type) : Type := StateT σ (Outcome E) α

namespace Kern

variable {E σ α β : Type}

/-- Look at the state. -/
def read (f : σ → α) : Kern E σ α := fun s => .ok (f s, s)

/-- Change the state. -/
def write (f : σ → σ) : Kern E σ Unit := fun s => .ok ((), f s)

/-- Stop the machine. -/
def panic (e : E) : Kern E σ α := fun _ => .panic e

/-- Never end. -/
def diverge : Kern E σ α := fun _ => .stuck

/-- A conditional with no other branch. -/
def doIf (b : Prop) [Decidable b] (c : Kern E σ Unit) : Kern E σ Unit := if b then c else pure ()

/-- The body for `i`, `i + 1`, …, `n` times. -/
def forFrom (body : ℕ → Kern E σ Unit) : ℕ → ℕ → Kern E σ Unit
  | _, 0 => pure ()
  | i, n + 1 => do
    body i
    forFrom body (i + 1) n

/-- The loop `for(i = 0; i < n; i++)`. -/
def forRange (n : ℕ) (body : ℕ → Kern E σ Unit) : Kern E σ Unit := forFrom body 0 n

/-- From `s` the code returns and `Q` holds of its result and the new state, or it panics
as `A` allows. -/
def Ends (A : E → Prop) (c : Kern E σ α) (s : σ) (Q : α → σ → Prop) : Prop :=
  match c s with
  | .ok r => Q r.1 r.2
  | .panic e => A e
  | .stuck => False

variable {A : E → Prop} {c : Kern E σ α} {s : σ} {Q : α → σ → Prop}

@[simp] theorem ends_pure {a : α} : Ends A (pure a) s Q ↔ Q a s := Iff.rfl

@[simp] theorem ends_read {f : σ → α} : Ends A (read f) s Q ↔ Q (f s) s := Iff.rfl

@[simp] theorem ends_write {f : σ → σ} {R : Unit → σ → Prop} :
    Ends A (write f) s R ↔ R () (f s) := Iff.rfl

@[simp] theorem ends_panic {e : E} : Ends A (panic e) s Q ↔ A e := Iff.rfl

theorem ends_doIf {b : Prop} [Decidable b] {c : Kern E σ Unit} {R : Unit → σ → Prop} :
    Ends A (doIf b c) s R ↔ if b then Ends A c s R else R () s := by
  by_cases hb : b
  · rw [doIf, if_pos hb, if_pos hb]
  · rw [doIf, if_neg hb, if_neg hb, ends_pure]

/-- **Composition.** -/
@[simp] theorem ends_bind {f : α → Kern E σ β} {R : β → σ → Prop} :
    Ends A (c >>= f) s R ↔ Ends A c s fun a s' => Ends A (f a) s' R := by
  have hbind : (c >>= f) s = (c s).bind fun r => f r.1 r.2 := rfl
  unfold Ends
  rw [hbind]
  cases c s <;> rfl

theorem ends_bind_of_ok {f : α → Kern E σ β} {R : β → σ → Prop} {a : α} {s' : σ}
    (hc : c s = .ok (a, s')) : Ends A (c >>= f) s R ↔ Ends A (f a) s' R := by
  rw [ends_bind, Ends, hc]

theorem ends_bind_assoc {d : Kern E σ β} {e : Kern E σ α} :
    Ends A (do let _ ← c; let _ ← d; e) s Q ↔
      Ends A (do let _ ← c; d) s fun _ s' => Ends A e s' Q := by
  simp only [ends_bind]

/-- **Consequence.** -/
theorem Ends.imp {A' : E → Prop} {Q' : α → σ → Prop} (h : Ends A c s Q) (hA : ∀ e, A e → A' e)
    (hQ : ∀ a s', Q a s' → Q' a s') : Ends A' c s Q' := by
  unfold Ends at h ⊢
  cases hc : c s with
  | ok r =>
    rw [hc] at h
    exact hQ _ _ h
  | panic e =>
    rw [hc] at h
    exact hA e h
  | stuck =>
    rw [hc] at h
    exact h.elim

theorem Ends.mono {Q' : α → σ → Prop} (h : Ends A c s Q) (hQ : ∀ a s', Q a s' → Q' a s') :
    Ends A c s Q' := h.imp (fun _ he => he) hQ

theorem Ends.of_ok {a : α} {s' : σ} (h : Ends A c s Q) (hc : c s = .ok (a, s')) : Q a s' := by
  rw [Ends, hc] at h
  exact h

theorem Ends.exists_ok (h : Ends (fun _ => False) c s Q) : ∃ a s', c s = .ok (a, s') ∧ Q a s' := by
  unfold Ends at h
  cases hc : c s with
  | ok r =>
    rw [hc] at h
    exact ⟨r.1, r.2, rfl, h⟩
  | panic e =>
    rw [hc] at h
    exact h.elim
  | stuck =>
    rw [hc] at h
    exact h.elim

theorem ends_forFrom {body : ℕ → Kern E σ Unit} {I : ℕ → σ → Prop} {i n : ℕ}
    (hbody : ∀ j s, i ≤ j → j < i + n → I j s → Ends A (body j) s fun _ s' => I (j + 1) s')
    (h : I i s) : Ends A (forFrom body i n) s fun _ s' => I (i + n) s' := by
  induction n generalizing i s with
  | zero => exact h
  | succ n ih =>
    rw [forFrom, ends_bind]
    refine (hbody i s (Nat.le_refl i) (by omega) h).mono fun _ s' h' => ?_
    rw [show i + (n + 1) = i + 1 + n by omega]
    exact ih (fun j t hij hj => hbody j t (by omega) (by omega)) h'

/-- **The counting loop**: what holds at the start and is taken from each value of the
counter to the next holds at the end. -/
theorem ends_forRange {body : ℕ → Kern E σ Unit} {I : ℕ → σ → Prop} {n : ℕ}
    (hbody : ∀ j s, j < n → I j s → Ends A (body j) s fun _ s' => I (j + 1) s')
    (h : I 0 s) : Ends A (forRange n body) s fun _ s' => I n s' := by
  have := ends_forFrom (i := 0) (n := n) (fun j t _ hj => hbody j t (by omega)) h
  rwa [Nat.zero_add] at this

/-! ### Programs over an interface -/

section Exec

variable {Op : Type → Type 1} {h : Handler Op E σ}

@[simp] theorem ends_exec_bind {c : Prog Op α} {f : α → Prog Op β} {R : β → σ → Prop} :
    Ends A ((c >>= f).exec h) s R ↔ Ends A (c.exec h) s fun a s' => Ends A ((f a).exec h) s' R := by
  unfold Ends
  rw [Prog.exec_bind]
  cases c.exec h s <;> rfl

theorem ends_exec_call {o : Op α} : Ends A ((Prog.call o).exec h) s Q ↔ Ends A (h o) s Q := by
  unfold Ends
  rw [Prog.exec_call]

/-- A program that is known not to wait, and how it panics. -/
theorem Ends.of_wp {B : E → Prop} {c : Prog Op α} (hc : c.wp h B s Q) (hs : c.exec h s ≠ .stuck)
    (hp : ∀ e, c.exec h s = .panic e → A e) : Ends A (c.exec h) s Q := by
  unfold Prog.wp at hc
  unfold Ends
  cases hx : c.exec h s with
  | ok r =>
    rw [hx] at hc
    exact hc
  | panic e => exact hp e hx
  | stuck => exact absurd hx hs

theorem Ends.of_wp_ok {B : E → Prop} {c : Prog Op α} {r : α × σ} (hc : c.wp h B s Q)
    (hr : c.exec h s = .ok r) : Ends A (c.exec h) s Q :=
  .of_wp hc (by rw [hr]; exact nofun) fun e he => by
    rw [hr] at he
    cases he

end Exec

end Kern

end Xv6
