import Xv6.Lib.Outcome

/-!
# Programs over an interface

Code written against a set of operations, kept apart from what the operations do.  A
program is a tree of operation calls; a *handler* says what each call does to a state, and
gives the program a meaning.  The same code can then be run on a concrete state and on an
abstract one, and compared.

## Main definitions

* `Prog Op α` — programs with operations `Op`, returning an `α`.
* `Prog.exec h` — the program under the handler `h`.
* `Prog.expand f` — replace every operation by the program that implements it.
* `Prog.All P` — every operation of a program satisfies `P`.
* `Outcome.Ensures`, `Prog.wp` — what is known of an outcome, and of a program's outcome.
* `Refines` — an outcome and its abstract counterpart.

## Main results

* `Prog.wp_bind`, `Prog.wp_call`, `Prog.wp.mono` — the rules for `wp`.
* `Prog.exec_expand` — running the expansion is running with the expanded handler.
* `Prog.refines` — if the operations of one handler refine those of another, so do programs.
-/

namespace Xv6

/-- A program: a value, or an operation and how to go on with its result. -/
inductive Prog (Op : Type → Type 1) (α : Type) : Type 1
  | pure (a : α)
  | op {β : Type} (o : Op β) (k : β → Prog Op α)

/-- What the operations do to a state. -/
abbrev Handler (Op : Type → Type 1) (E σ : Type) : Type 1 :=
  ∀ {β : Type}, Op β → σ → Outcome E (β × σ)

namespace Prog

variable {Op Op' : Type → Type 1} {E σ α β : Type}

/-- Continue with the result of a program. -/
def bind : Prog Op α → (α → Prog Op β) → Prog Op β
  | pure a, f => f a
  | op o k, f => op o fun b => (k b).bind f

instance : Monad (Prog Op) where
  pure := Prog.pure
  bind := Prog.bind

/-- The program consisting of one operation. -/
def call (o : Op β) : Prog Op β := op o pure

/-- Run a program. -/
def exec (h : Handler Op E σ) : Prog Op α → σ → Outcome E (α × σ)
  | pure a, s => .ok (a, s)
  | op o k, s => (h o s).bind fun r => (k r.1).exec h r.2

@[simp] theorem exec_pure (h : Handler Op E σ) (a : α) (s : σ) :
    (Pure.pure a : Prog Op α).exec h s = .ok (a, s) := rfl

theorem exec_op (h : Handler Op E σ) (o : Op β) (k : β → Prog Op α) (s : σ) :
    (op o k).exec h s = (h o s).bind fun r => (k r.1).exec h r.2 := rfl

@[simp] theorem exec_bind (h : Handler Op E σ) (c : Prog Op α) (f : α → Prog Op β) (s : σ) :
    (c >>= f).exec h s = (c.exec h s).bind fun r => (f r.1).exec h r.2 := by
  show (c.bind f).exec h s = _
  induction c generalizing s with
  | pure a => rfl
  | op o k ih =>
    rw [Prog.bind, exec_op, exec_op]
    cases h o s with
    | ok r => exact ih r.1 r.2
    | panic e => rfl
    | stuck => rfl

@[simp] theorem exec_call (h : Handler Op E σ) (o : Op β) (s : σ) : (call o).exec h s = h o s := by
  rw [call, exec_op]
  cases h o s <;> rfl

/-- Replace every operation by a program. -/
def expand (f : ∀ {β : Type}, Op β → Prog Op' β) : Prog Op α → Prog Op' α
  | pure a => pure a
  | op o k => (f o).bind fun b => (k b).expand f

/-- Running an expansion is running the program under the handler that runs what each
operation was expanded to. -/
theorem exec_expand (f : ∀ {β : Type}, Op β → Prog Op' β) (h : Handler Op' E σ) (c : Prog Op α)
    (s : σ) : (c.expand f).exec h s = c.exec (fun o => (f o).exec h) s := by
  induction c generalizing s with
  | pure a => rfl
  | op o k ih =>
    rw [expand, exec_op]
    have := exec_bind h (f o) (fun b => (k b).expand f) s
    refine this.trans ?_
    cases (f o).exec h s with
    | ok r => exact ih r.1 r.2
    | panic e => rfl
    | stuck => rfl

/-- Every operation a program can call satisfies `P`. -/
def All (P : ∀ {β : Type}, Op β → Prop) : Prog Op α → Prop
  | pure _ => True
  | op o k => P o ∧ ∀ b, (k b).All P

section All

variable {P : ∀ {β : Type}, Op β → Prop}

theorem All.of_forall (h : ∀ {β : Type} (o : Op β), P o) {c : Prog Op α} : c.All P := by
  induction c with
  | pure a => trivial
  | op o k ih => exact ⟨h o, ih⟩

theorem All.pure {a : α} : (Pure.pure a : Prog Op α).All P := trivial

theorem All.call {o : Op β} (h : P o) : (call o).All P := ⟨h, fun _ => trivial⟩

theorem All.bind {c : Prog Op α} {f : α → Prog Op β} (hc : c.All P) (hf : ∀ a, (f a).All P) :
    (c >>= f).All P := by
  show (c.bind f).All P
  induction c with
  | pure a => exact hf a
  | op o k ih => exact ⟨hc.1, fun b => ih b (hc.2 b)⟩

end All

end Prog

/-! ### What a program ensures -/

section Ensures

variable {E α β σ : Type}

/-- If the outcome is a value it satisfies `Q`, and if it is a panic `A` allows it. -/
def Outcome.Ensures (A : E → Prop) (Q : α → Prop) : Outcome E α → Prop
  | .ok a => Q a
  | .panic e => A e
  | .stuck => True

@[simp] theorem Outcome.ensures_ok (A : E → Prop) (Q : α → Prop) (a : α) :
    (Outcome.ok a).Ensures A Q ↔ Q a := Iff.rfl

theorem Outcome.ensures_bind (A : E → Prop) (Q : β → Prop) (x : Outcome E α)
    (f : α → Outcome E β) : (x.bind f).Ensures A Q ↔ x.Ensures A fun a => (f a).Ensures A Q := by
  cases x <;> rfl

theorem Outcome.Ensures.mono {A A' : E → Prop} {Q Q' : α → Prop} {x : Outcome E α}
    (hA : ∀ e, A e → A' e) (hQ : ∀ a, Q a → Q' a) (h : x.Ensures A Q) : x.Ensures A' Q' := by
  cases x with
  | ok a => exact hQ a h
  | panic e => exact hA e h
  | stuck => trivial

theorem Outcome.Ensures.and {A B : E → Prop} {Q R : α → Prop} {x : Outcome E α}
    (h : x.Ensures A Q) (h' : x.Ensures B R) : x.Ensures A fun a => Q a ∧ R a := by
  cases x with
  | ok a => exact ⟨h, h'⟩
  | panic e => exact h
  | stuck => trivial

theorem Outcome.Ensures.self {A : E → Prop} {Q : α → Prop} {x : Outcome E α} (h : x.Ensures A Q) :
    x.Ensures A fun a => x = .ok a := by
  cases x with
  | ok a => rfl
  | panic e => exact h
  | stuck => trivial

variable {Op : Type → Type 1} {h : Handler Op E σ} {A : E → Prop}
  {c : Prog Op α} {s : σ} {Q : α → σ → Prop}

/-- Every completed run from `s` satisfies `Q`, and every panic is one `A` allows. -/
def Prog.wp (h : Handler Op E σ) (A : E → Prop) (c : Prog Op α) (s : σ) (Q : α → σ → Prop) : Prop :=
  (c.exec h s).Ensures A fun r => Q r.1 r.2

@[simp] theorem Prog.wp_pure {a : α} :
    (Pure.pure a : Prog Op α).wp h A s Q ↔ Q a s := Iff.rfl

@[simp] theorem Prog.wp_bind {f : α → Prog Op β} {Q : β → σ → Prop} :
    (c >>= f).wp h A s Q ↔ c.wp h A s fun a s' => (f a).wp h A s' Q := by
  rw [Prog.wp, Prog.exec_bind, Outcome.ensures_bind]
  rfl

theorem Prog.wp_call {o : Op α} :
    (Prog.call o).wp h A s Q ↔ (h o s).Ensures A fun r => Q r.1 r.2 := by
  rw [Prog.wp, Prog.exec_call]

theorem Prog.wp_call_ok {o : Op α} {s' : σ} {a : α} (ho : h o s = .ok (a, s')) :
    (Prog.call o).wp h A s Q ↔ Q a s' := by
  rw [Prog.wp_call, ho]
  rfl

theorem Prog.wp.mono {Q' : α → σ → Prop} (hc : c.wp h A s Q) (hQ : ∀ a s', Q a s' → Q' a s') :
    c.wp h A s Q' :=
  Outcome.Ensures.mono (fun _ he => he) (fun r hr => hQ r.1 r.2 hr) hc

theorem Prog.wp.of_exec {s' : σ} {a : α} (hc : c.wp h A s Q) (hs : c.exec h s = .ok (a, s')) :
    Q a s' := by
  rw [Prog.wp, hs] at hc
  exact hc

/-- A program all of whose postconditions hold of one result runs to its end with it. -/
theorem Prog.exec_eq_of_wp {s' : σ} {a : α}
    (hc : ∀ (A : E → Prop) (Q : α → σ → Prop), c.wp h A s Q ↔ Q a s') :
    c.exec h s = .ok (a, s') := by
  have hq := (hc (fun _ => False) fun a' t => a' = a ∧ t = s').mpr ⟨rfl, rfl⟩
  have hnot := mt (hc (fun _ => False) fun _ _ => False).mp fun hf => hf
  unfold Prog.wp at hq hnot
  cases hx : c.exec h s with
  | ok r =>
    rw [hx] at hq
    obtain ⟨ha, hs⟩ := hq
    rw [← ha, ← hs]
  | panic e =>
    rw [hx] at hq
    exact hq.elim
  | stuck =>
    rw [hx] at hnot
    exact absurd trivial hnot

/-- A program that never waits for ever. -/
structure Prog.NeverStuck (h : Handler Op E σ) (c : Prog Op α) : Prop where
  ne : ∀ s, c.exec h s ≠ .stuck

theorem Prog.neverStuck_pure (a : α) : (Pure.pure a : Prog Op α).NeverStuck h := by
  refine ⟨fun s hs => ?_⟩
  cases hs

theorem Prog.neverStuck_call {o : Op α} (ho : ∀ s, h o s ≠ .stuck) : (call o).NeverStuck h := by
  refine ⟨fun s => ?_⟩
  rw [exec_call]
  exact ho s

theorem Prog.NeverStuck.bind {f : α → Prog Op β} (hc : c.NeverStuck h)
    (hf : ∀ a, (f a).NeverStuck h) : (c >>= f).NeverStuck h := by
  refine ⟨fun s => ?_⟩
  rw [exec_bind]
  cases hx : c.exec h s with
  | ok r => exact (hf r.1).ne r.2
  | panic e =>
    intro hs
    cases hs
  | stuck => exact absurd hx (hc.ne s)

/-- A program that neither panics nor waits for ever completes. -/
theorem Prog.exec_ok_of_wp (hc : c.wp h (fun _ => False) s Q) (hs : c.NeverStuck h) :
    ∃ a s', c.exec h s = .ok (a, s') ∧ Q a s' := by
  unfold Prog.wp at hc
  cases hx : c.exec h s with
  | ok r =>
    rw [hx] at hc
    exact ⟨r.1, r.2, rfl, hc⟩
  | panic e =>
    rw [hx] at hc
    exact hc.elim
  | stuck => exact absurd hx (hs.ne s)

end Ensures

/-! ### Refinement -/

section Refine

variable {E F α β σ τ : Type}

/-- The abstract outcome `y` accounts for the concrete outcome `x`.  Where the abstract
side says that the code is used outside its contract (`bad`) nothing is asserted, and some
concrete panics (`drop`) have no abstract counterpart. -/
def Refines (drop : E → Prop) (tr : E → F) (bad : F → Prop) (R : σ → τ → Prop)
    (x : Outcome E (α × σ)) (y : Outcome F (α × τ)) : Prop :=
  (∃ e, bad e ∧ y = .panic e) ∨
    match x with
    | .ok (a, s) => ∃ t, y = .ok (a, t) ∧ R s t
    | .panic e => drop e ∨ y = .panic (tr e)
    | .stuck => True

variable {drop : E → Prop} {tr : E → F} {bad : F → Prop} {R : σ → τ → Prop} {Op : Type → Type 1}
  {s s' : σ} {t : τ} {y : Outcome F (α × τ)} {c : Prog Op α}

theorem Refines.ok {a : α} (h : R s t) :
    Refines drop tr bad R (.ok (a, s)) (.ok (a, t)) := .inr ⟨t, rfl, h⟩

theorem Refines.panic {e : E} (h : y = .panic (tr e)) :
    Refines drop tr bad R (.panic e) y := .inr (.inr h)

theorem Refines.stuck : Refines drop tr bad R .stuck y := .inr trivial

/-- Fewer panics without a counterpart, and a closer relation. -/
theorem Refines.mono {drop' : E → Prop} {R' : σ → τ → Prop} {x : Outcome E (α × σ)}
    (hx : Refines drop tr bad R x y) (hdrop : ∀ e, drop e → drop' e) (hR : ∀ s t, R s t → R' s t) :
    Refines drop' tr bad R' x y := by
  obtain hbad | hmatch := hx
  · exact .inl hbad
  refine .inr ?_
  cases x with
  | ok r =>
    obtain ⟨t, hy, ht⟩ := hmatch
    exact ⟨t, hy, hR _ _ ht⟩
  | panic e => exact hmatch.imp (hdrop e) id
  | stuck => trivial

/-- A program refines an abstract outcome if its runs end in it. -/
theorem Refines.of_wp {h : Handler Op E σ} (hc : c.wp h (fun e => drop e ∨ y = .panic (tr e)) s
      fun a s' => ∃ t, y = .ok (a, t) ∧ R s' t) : Refines drop tr bad R (c.exec h s) y := by
  unfold Prog.wp at hc
  refine .inr ?_
  cases hx : c.exec h s with
  | ok r =>
    rw [hx] at hc
    exact hc
  | panic e =>
    rw [hx] at hc
    exact hc
  | stuck => trivial

/-- A program that refines an abstract outcome within its contract runs to its end in it. -/
theorem Refines.wp {h : Handler Op E σ} (hc : Refines drop tr bad R (c.exec h s) y)
    (hy : ∀ e, bad e → y ≠ .panic e) :
    c.wp h (fun e => drop e ∨ y = .panic (tr e)) s fun a s' => ∃ t, y = .ok (a, t) ∧ R s' t := by
  obtain ⟨e, he, heq⟩ | hmatch := hc
  · exact absurd heq (hy e he)
  unfold Prog.wp
  cases hx : c.exec h s with
  | ok r =>
    rw [hx] at hmatch
    exact hmatch
  | panic e =>
    rw [hx] at hmatch
    exact hmatch
  | stuck => trivial

/-- Programs refine as their operations do, those they use. -/
theorem Prog.refines_of_all {h : Handler Op E σ} {g : Handler Op F τ}
    {P : ∀ {β : Type}, Op β → Prop} (hop : ∀ {β : Type} (o : Op β) (s : σ) (t : τ), P o → R s t →
      Refines drop tr bad R (h o s) (g o t)) (c : Prog Op α) (hc : c.All P) (hst : R s t) :
    Refines drop tr bad R (c.exec h s) (c.exec g t) := by
  induction c generalizing s t with
  | pure a => exact .inr ⟨t, rfl, hst⟩
  | op o k ih =>
    rw [exec_op, exec_op]
    obtain ⟨e, hbad, he⟩ | hmatch := hop o s t hc.1 hst
    · exact .inl ⟨e, hbad, by rw [he, Outcome.bind_panic]⟩
    cases hx : h o s with
    | ok r =>
      rw [hx] at hmatch
      obtain ⟨t', ht', hR⟩ := hmatch
      rw [ht', Outcome.bind_ok, Outcome.bind_ok]
      exact ih r.1 (hc.2 r.1) hR
    | panic e =>
      rw [hx] at hmatch
      obtain hdrop | he := hmatch
      · exact .inr (.inl hdrop)
      · exact .inr (.inr (by rw [he, Outcome.bind_panic]))
    | stuck => exact .inr trivial

/-- **Programs refine as their operations do.** -/
theorem Prog.refines {h : Handler Op E σ} {g : Handler Op F τ}
    (hop : ∀ {β : Type} (o : Op β) (s : σ) (t : τ), R s t → Refines drop tr bad R (h o s) (g o t))
    (c : Prog Op α) (hst : R s t) : Refines drop tr bad R (c.exec h s) (c.exec g t) :=
  c.refines_of_all (P := fun _ => True) (fun o s t _ => hop o s t) (.of_forall fun _ => trivial) hst

/-- A run that waits for ever does so on the abstract side, too, unless a contract is
broken. -/
theorem Prog.exec_stuck_of_refines {h : Handler Op E σ} {g : Handler Op F τ}
    (hop : ∀ {β : Type} (o : Op β) (s : σ) (t : τ), R s t → Refines drop tr bad R (h o s) (g o t))
    (hstuck : ∀ {β : Type} (o : Op β) (s : σ) (t : τ), R s t → h o s = .stuck →
      g o t = .stuck ∨ ∃ e, bad e ∧ g o t = .panic e) (c : Prog Op α) (hst : R s t)
    (hc : c.exec h s = .stuck) : c.exec g t = .stuck ∨ ∃ e, bad e ∧ c.exec g t = .panic e := by
  induction c generalizing s t with
  | pure a => cases hc
  | op o k ih =>
    rw [exec_op] at hc ⊢
    obtain ⟨e, hbad, he⟩ | hmatch := hop o s t hst
    · exact .inr ⟨e, hbad, by rw [he, Outcome.bind_panic]⟩
    cases hx : h o s with
    | ok r =>
      rw [hx] at hmatch hc
      obtain ⟨t', ht', hR⟩ := hmatch
      rw [ht', Outcome.bind_ok]
      exact ih r.1 hR hc
    | panic e =>
      rw [hx] at hc
      cases hc
    | stuck =>
      obtain hs | ⟨e, hbad, he⟩ := hstuck o s t hst hx
      · exact .inl (by rw [hs]; rfl)
      · exact .inr ⟨e, hbad, by rw [he]; rfl⟩

end Refine

end Xv6
