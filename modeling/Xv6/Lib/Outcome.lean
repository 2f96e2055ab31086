import Mathlib.Algebra.GroupWithZero.Nat
import Mathlib.Tactic.Common

/-!
# Outcomes and machines that may panic

A step of a kernel either completes, stops the machine with a panic, or cannot
be taken now.  This file has the type of such results and the two ways in which
steps are strung together: `run`, which executes a given list of actions, and
`Reach`, the states some sequence of permitted actions leads to.

## Main definitions

* `Outcome E α` — completed with a value, panicked with `E`, or stuck.
* `run step s as` — the actions of `as`, in order, from `s`.
* `Reach step ok s₀ s` — `s` is reached from `s₀` by completed actions `ok` permits.
* `Permitted step ok s as` — `ok` permits every action of a run.

## Main results

* `Reach.invariant` — the induction rule for reachable states.
* `reach_of_run` — a run whose actions are all permitted reaches its end.
-/

namespace Xv6

/-- The actors of closed runs are written as numerals. -/
instance neZeroOne : NeZero 1 := ⟨Nat.one_ne_zero⟩

instance neZeroTwo : NeZero 2 := ⟨Nat.succ_ne_zero 1⟩

/-- The result of a piece of kernel code. -/
inductive Outcome (E : Type*) (α : Type*)
  /-- The code completed. -/
  | ok (a : α)
  /-- The code called `panic`. -/
  | panic (e : E)
  /-- The code cannot proceed: it waits for something, or was not called properly. -/
  | stuck
  deriving DecidableEq, Repr

namespace Outcome

variable {E α β γ : Type*}

/-- Continue with the value of a completed computation. -/
def bind (x : Outcome E α) (f : α → Outcome E β) : Outcome E β :=
  match x with
  | ok a => f a
  | panic e => panic e
  | stuck => stuck

@[simp] theorem bind_ok (a : α) (f : α → Outcome E β) : (ok a : Outcome E α).bind f = f a := rfl

@[simp] theorem bind_panic (e : E) (f : α → Outcome E β) :
    (panic e : Outcome E α).bind f = panic e := rfl

@[simp] theorem bind_stuck (f : α → Outcome E β) : (stuck : Outcome E α).bind f = stuck := rfl

theorem bind_eq_ok {x : Outcome E α} {f : α → Outcome E β} {b : β} :
    x.bind f = ok b ↔ ∃ a, x = ok a ∧ f a = ok b := by
  cases x <;> simp

theorem bind_eq_panic {x : Outcome E α} {f : α → Outcome E β} {e : E} :
    x.bind f = panic e ↔ x = panic e ∨ ∃ a, x = ok a ∧ f a = panic e := by
  cases x <;> simp

/-- Rename the panics. -/
def mapPanic {F : Type*} (f : E → F) : Outcome E α → Outcome F α
  | ok a => ok a
  | panic e => panic (f e)
  | stuck => stuck

/-- Whether the code completed with a value that passes a test. -/
def check (p : α → Bool) : Outcome E α → Bool
  | ok a => p a
  | _ => false

theorem exists_of_check {p : α → Bool} {x : Outcome E α} (h : x.check p = true) :
    ∃ a, x = ok a ∧ p a = true := by
  cases x with
  | ok a => exact ⟨a, rfl, h⟩
  | panic e => cases h
  | stuck => cases h

end Outcome

section Machine

variable {E S A : Type*}

/-- Execute a list of actions in order. -/
def run (step : S → A → Outcome E S) : S → List A → Outcome E S
  | s, [] => .ok s
  | s, a :: as => (step s a).bind fun s' => run step s' as

@[simp] theorem run_nil (step : S → A → Outcome E S) (s : S) : run step s [] = .ok s := rfl

@[simp] theorem run_cons (step : S → A → Outcome E S) (s : S) (a : A) (as : List A) :
    run step s (a :: as) = (step s a).bind fun s' => run step s' as := rfl

/-- The states reached from `s₀` by completed actions, each permitted in the
state it is taken from. -/
inductive Reach (step : S → A → Outcome E S) (ok : S → A → Prop) (s₀ : S) : S → Prop
  | refl : Reach step ok s₀ s₀
  | tail {s s' : S} (a : A) :
      Reach step ok s₀ s → ok s a → step s a = .ok s' → Reach step ok s₀ s'

variable {step : S → A → Outcome E S} {ok : S → A → Prop} {s₀ s : S}

/-- **The invariant rule**: what holds at the start and is kept by every
permitted action holds in every reachable state. -/
theorem Reach.invariant {I : S → Prop} (h₀ : I s₀)
    (hstep : ∀ s a s', I s → ok s a → step s a = .ok s' → I s')
    (h : Reach step ok s₀ s) : I s := by
  induction h with
  | refl => exact h₀
  | tail a _ hok hs ih => exact hstep _ a _ ih hok hs

theorem Reach.mono {ok' : S → A → Prop} (hok : ∀ s a, ok s a → ok' s a)
    (h : Reach step ok s₀ s) : Reach step ok' s₀ s := by
  induction h with
  | refl => exact .refl
  | tail a _ hp hs ih => exact .tail a ih (hok _ _ hp) hs

/-- Every action of a run is permitted in the state it is taken from. -/
def Permitted (step : S → A → Outcome E S) (ok : S → A → Prop) : S → List A → Prop
  | _, [] => True
  | s, a :: as => ok s a ∧
      match step s a with
      | .ok s' => Permitted step ok s' as
      | _ => True

instance Permitted.decidable (step : S → A → Outcome E S) (ok : S → A → Prop)
    [∀ s a, Decidable (ok s a)] : ∀ s as, Decidable (Permitted step ok s as)
  | _, [] => .isTrue trivial
  | s, a :: as =>
    haveI : Decidable (match step s a with
        | .ok s' => Permitted step ok s' as
        | _ => True) := match step s a with
      | .ok s' => Permitted.decidable step ok s' as
      | .panic _ => .isTrue trivial
      | .stuck => .isTrue trivial
    inferInstanceAs (Decidable (_ ∧ _))

/-- Actions permitted whatever the state are permitted along any run. -/
theorem permitted_of_forall {as : List A} (h : ∀ t, ∀ a ∈ as, ok t a) (s : S) :
    Permitted step ok s as := by
  induction as generalizing s with
  | nil => trivial
  | cons a as ih =>
    refine ⟨h s a List.mem_cons_self, ?_⟩
    split
    · exact ih (fun t b hb => h t b (List.mem_cons_of_mem a hb)) _
    · trivial

/-- A completed run whose actions are all permitted reaches its end. -/
theorem reach_of_run {s' : S} {as : List A} (hs : Reach step ok s₀ s)
    (hok : Permitted step ok s as) (h : run step s as = .ok s') : Reach step ok s₀ s' := by
  induction as generalizing s with
  | nil =>
    rw [run_nil, Outcome.ok.injEq] at h
    exact h ▸ hs
  | cons a as ih =>
    rw [run_cons, Outcome.bind_eq_ok] at h
    obtain ⟨t, ht, hrun⟩ := h
    obtain ⟨ha, has⟩ := hok
    rw [ht] at has
    exact ih (.tail a hs ha ht) has hrun

end Machine

end Xv6
