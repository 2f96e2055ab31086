import Mathlib.Algebra.BigOperators.Group.Finset.Piecewise
import Xv6.Lib.Prog

/-!
# Programs running side by side

Programs over one interface that share a state.  One of them is chosen, does its next
operation, and so on in any order.  A program is verified on its own, against what the others
are trusted to leave alone; that they do is what they in turn are verified for.

## Main definitions

* `Threads`, `Threads.step` — programs and the state they share, and one operation of one of
  them.
* `Rules` — what a program may assume of the others, and what it has to keep to.
* `Prog.Meets` — a program keeps to its rules, whatever the others do meanwhile.
* `Prog.Within` — a bound on the number of operations of a program.
* `Handler.logged` — a handler that writes down what its operations did.

## Main results

* `Threads.meets_of_reach` — programs that keep to compatible rules do so side by side.
* `Threads.length_le_of_run` — how long they can run.
-/

namespace Xv6

variable {ι E α β σ O : Type} {Op : Type → Type 1} {f : β → Prog Op α}

/-- Programs, and the state they share. -/
structure Threads (ι : Type) (Op : Type → Type 1) (α σ : Type) : Type 1 where
  shared : σ
  prog : ι → Prog Op α

/-- One operation of program `p`.  A program that has ended does none. -/
def Threads.step [DecidableEq ι] (h : ι → Handler Op E σ) (s : Threads ι Op α σ) (p : ι) :
    Outcome E (Threads ι Op α σ) :=
  match s.prog p with
  | .pure _ => .stuck
  | .op o k => (h p o s.shared).bind fun r => .ok ⟨r.2, Function.update s.prog p (k r.1)⟩

/-- Keep a log of what the operations of `p` do. -/
def Handler.logged (obs : ∀ {β : Type}, Op β → β → Option O) (p : ι) (h : Handler Op E σ) :
    Handler Op E (σ × List (ι × O)) := fun o s =>
  (h o s.1).bind fun r => .ok (r.1, r.2, s.2 ++ ((obs o r.1).map fun x => (p, x)).toList)

section Logged

variable {obs : ∀ {β : Type}, Op β → β → Option O} {p : ι} {h : Handler Op E σ} {o : Op β}
  {s : σ × List (ι × O)}

theorem Handler.logged_eq_stuck : h.logged obs p o s = .stuck ↔ h o s.1 = .stuck := by
  unfold Handler.logged
  cases h o s.1 <;> simp

theorem Handler.logged_ensures {A : E → Prop} {Q : β × σ × List (ι × O) → Prop} :
    (h.logged obs p o s).Ensures A Q ↔ (h o s.1).Ensures A fun r =>
      Q (r.1, r.2, s.2 ++ ((obs o r.1).map fun x => (p, x)).toList) := by
  rw [Handler.logged, Outcome.ensures_bind]
  rfl

end Logged

/-! ### Rules -/

/-- What a program may assume of the others, and what it has to keep to. -/
structure Rules (E σ : Type) where
  rely : σ → σ → Prop -- what the others do to the state between two operations
  guar : σ → σ → Prop -- what one operation does to it
  panics : E → Prop -- the panics that may happen
  waits : σ → Prop -- where the program may have to wait
  refl : ∀ s, rely s s
  trans : ∀ {s t u}, rely s t → rely t u → rely s u

/-- An operation with outcome `x` in state `t` keeps to the rules, and leaves `P`. -/
def Rules.Allows (c : Rules E σ) (t : σ) (x : Outcome E (β × σ)) (P : β → σ → Prop) : Prop :=
  (x = .stuck → c.waits t) ∧ x.Ensures c.panics fun r => c.guar t r.2 ∧ P r.1 r.2

theorem Rules.allows_of_ok {c : Rules E σ} {x : Outcome E (β × σ)} {t u : σ} {b : β}
    {P : β → σ → Prop} (hx : x = .ok (b, u)) (hg : c.guar t u) (hP : P b u) : c.Allows t x P := by
  subst hx
  exact ⟨fun hs => (nomatch hs), hg, hP⟩

/-- From state `s` on, the program keeps to the rules and ends with `Q`, whatever the others
do before each of its operations and after the last. -/
def Prog.Meets (h : Handler Op E σ) (c : Rules E σ) : Prog Op α → (α → σ → Prop) → σ → Prop
  | .pure a, Q, s => ∀ t, c.rely s t → Q a t
  | .op o k, Q, s => ∀ t, c.rely s t → c.Allows t (h o t) fun b u => (k b).Meets h c Q u

namespace Prog

variable {h : Handler Op E σ} {c : Rules E σ} {Q : α → σ → Prop} {s t : σ}

/-- What the others do makes no difference. -/
theorem Meets.rely {x : Prog Op α} (hx : x.Meets h c Q s) (hst : c.rely s t) :
    x.Meets h c Q t := by
  cases x with
  | pure a => exact fun u hu => hx u (c.trans hst hu)
  | op o k => exact fun u hu => hx u (c.trans hst hu)

theorem meets_pure {a : α} (hQ : ∀ t, c.rely s t → Q a t) :
    (Pure.pure a : Prog Op α).Meets h c Q s := hQ

theorem meets_call_bind {o : Op β} {P : β → σ → Prop}
    (ho : ∀ t, c.rely s t → c.Allows t (h o t) P) (hf : ∀ b t, P b t → (f b).Meets h c Q t) :
    (call o >>= f).Meets h c Q s := fun t hst =>
  ⟨(ho t hst).1, (ho t hst).2.mono (fun _ he => he) fun r hr => ⟨hr.1, hf r.1 r.2 hr.2⟩⟩

theorem meets_bind {x : Prog Op β} {P : β → σ → Prop} (hx : x.Meets h c P s)
    (hf : ∀ b t, P b t → (f b).Meets h c Q t) : (x >>= f).Meets h c Q s := by
  show (x.bind f).Meets h c Q s
  induction x generalizing s with
  | pure b => exact hf b s (hx s (c.refl s))
  | op o k ih =>
    intro t hst
    obtain ⟨hwait, ho⟩ := hx t hst
    exact ⟨hwait, ho.mono (fun _ he => he) fun r hr => ⟨hr.1, ih r.1 hr.2⟩⟩

end Prog

/-! ### Bounds -/

/-- The program does at most `n` operations. -/
def Prog.Within : ℕ → Prog Op α → Prop
  | _, .pure _ => True
  | 0, .op _ _ => False
  | n + 1, .op _ k => ∀ b, (k b).Within n

namespace Prog

theorem within_pure (n : ℕ) (a : α) : (Pure.pure a : Prog Op α).Within n := by
  cases n with
  | zero => trivial
  | succ n => trivial

theorem within_call_bind {n : ℕ} {o : Op β} (hf : ∀ b, (f b).Within n) :
    (call o >>= f).Within (n + 1) := hf

theorem Within.mono {m n : ℕ} {x : Prog Op α} (hx : x.Within m) (hmn : m ≤ n) : x.Within n := by
  induction x generalizing m n with
  | pure a => exact within_pure n a
  | op o k ih =>
    cases m with
    | zero => exact hx.elim
    | succ m =>
      obtain ⟨n, rfl⟩ : ∃ n', n = n' + 1 := ⟨n - 1, by omega⟩
      exact fun b => ih b (hx b) (by omega)

theorem Within.bind {m n : ℕ} {x : Prog Op β} (hx : x.Within m) (hf : ∀ b, (f b).Within n) :
    (x >>= f).Within (m + n) := by
  show (x.bind f).Within (m + n)
  induction x generalizing m with
  | pure b => exact (hf b).mono (by omega)
  | op o k ih =>
    cases m with
    | zero => exact hx.elim
    | succ m =>
      rw [Nat.succ_add]
      exact fun b => ih b (hx b)

end Prog

/-! ### Side by side -/

namespace Threads

variable [DecidableEq ι] {h : ι → Handler Op E σ} {s s₀ t : Threads ι Op α σ} {p : ι}

theorem step_eq_ok (hs : step h s p = .ok t) : ∃ (β : Type) (o : Op β) (k : β → Prog Op α) (b : β),
    s.prog p = .op o k ∧ h p o s.shared = .ok (b, t.shared) ∧
      t.prog = Function.update s.prog p (k b) := by
  unfold step at hs
  cases hp : s.prog p with
  | pure a =>
    rw [hp] at hs
    cases hs
  | op o k =>
    rw [hp] at hs
    obtain ⟨⟨b, u⟩, ho, heq⟩ := Outcome.bind_eq_ok.mp hs
    cases heq
    exact ⟨_, o, k, b, rfl, ho, rfl⟩

/-- **Programs verified one by one, run side by side.**  If what each does is what the others
rely on, each keeps to its rules in every run. -/
theorem meets_of_reach {c : ι → Rules E σ} {Q : ι → α → σ → Prop}
    (hc : ∀ p q, p ≠ q → ∀ s t, (c p).guar s t → (c q).rely s t)
    (h₀ : ∀ p, (s₀.prog p).Meets (h p) (c p) (Q p) s₀.shared)
    (hs : Reach (step h) (fun _ _ => True) s₀ s) (p : ι) :
    (s.prog p).Meets (h p) (c p) (Q p) s.shared := by
  refine Reach.invariant (I := fun s => ∀ p, (s.prog p).Meets (h p) (c p) (Q p) s.shared) h₀
    (fun s q t hI _ ht p => ?_) hs p
  obtain ⟨β, o, k, b, hq, ho, hprog⟩ := step_eq_ok ht
  have hmeets := hI q
  rw [hq] at hmeets
  obtain ⟨-, hens⟩ := hmeets s.shared ((c q).refl _)
  beta_reduce at hens
  rw [ho] at hens
  obtain ⟨hguar, hk⟩ := hens
  rw [hprog]
  by_cases hpq : p = q
  · subst hpq
    rw [Function.update_self]
    exact hk
  · rw [Function.update_of_ne hpq]
    exact (hI p).rely (hc q p (Ne.symm hpq) _ _ hguar)

/-- What every program keeps holds in every run. -/
theorem invariant_of_reach {c : ι → Rules E σ} {Q : ι → α → σ → Prop} {I : σ → Prop}
    (hc : ∀ p q, p ≠ q → ∀ s t, (c p).guar s t → (c q).rely s t)
    (hI : ∀ p s t, (c p).guar s t → I s → I t)
    (h₀ : ∀ p, (s₀.prog p).Meets (h p) (c p) (Q p) s₀.shared) (hI₀ : I s₀.shared)
    (hs : Reach (step h) (fun _ _ => True) s₀ s) : I s.shared := by
  induction hs with
  | refl => exact hI₀
  | tail q hreach _ ht ih =>
    obtain ⟨β, o, k, b, hq, ho, -⟩ := step_eq_ok ht
    have hmeets := meets_of_reach hc h₀ hreach q
    rw [hq] at hmeets
    obtain ⟨-, hens⟩ := hmeets _ ((c q).refl _)
    beta_reduce at hens
    rw [ho] at hens
    exact hI q _ _ hens.1 ih

section Next

variable {c : Rules E σ} {Q : α → σ → Prop}

omit [DecidableEq ι] in
theorem post_of_pure {a : α} (hp : (s.prog p).Meets (h p) c Q s.shared) (ha : s.prog p = .pure a) :
    Q a s.shared := by
  rw [ha] at hp
  exact hp _ (c.refl _)

/-- A program that has not ended waits only where it may. -/
theorem waits_of_stuck (hp : (s.prog p).Meets (h p) c Q s.shared) (ha : ∀ a, s.prog p ≠ .pure a)
    (hs : step h s p = .stuck) : c.waits s.shared := by
  unfold step at hs
  cases hx : s.prog p with
  | pure a => exact absurd hx (ha a)
  | op o k =>
    rw [hx] at hp hs
    refine (hp _ (c.refl _)).1 ?_
    dsimp only at hs
    cases ho : h p o s.shared with
    | ok r =>
      rw [ho] at hs
      cases hs
    | panic e =>
      rw [ho] at hs
      cases hs
    | stuck => exact ho

/-- A program panics only as it may. -/
theorem panics_of_panic {e : E} (hp : (s.prog p).Meets (h p) c Q s.shared)
    (hs : step h s p = .panic e) : c.panics e := by
  unfold step at hs
  cases hx : s.prog p with
  | pure a =>
    rw [hx] at hs
    cases hs
  | op o k =>
    rw [hx] at hp hs
    obtain ⟨-, hens⟩ := hp _ (c.refl _)
    obtain ho | ⟨r, -, hr⟩ := Outcome.bind_eq_panic.mp hs
    · beta_reduce at hens
      rw [ho] at hens
      exact hens
    · cases hr

end Next

/-- The steps a run can take. -/
theorem length_le_of_run [Fintype ι] {b : ι → ℕ} {ps : List ι}
    (hb : ∀ p, (s.prog p).Within (b p)) (hrun : run (step h) s ps = .ok t) :
    ps.length ≤ ∑ p, b p := by
  induction ps generalizing s b with
  | nil => exact Nat.zero_le _
  | cons q ps ih =>
    rw [run_cons, Outcome.bind_eq_ok] at hrun
    obtain ⟨u, hu, hrun⟩ := hrun
    obtain ⟨β, o, k, x, hq, -, hprog⟩ := step_eq_ok hu
    have hbq := hb q
    rw [hq] at hbq
    -- the program that was chosen has used up one of its operations
    obtain ⟨n, hn⟩ : ∃ n, b q = n + 1 := by
      cases hbn : b q with
      | zero =>
        rw [hbn] at hbq
        exact hbq.elim
      | succ n => exact ⟨n, rfl⟩
    rw [hn] at hbq
    have hrest := ih (b := Function.update b q n) (fun p => ?_) hrun
    · have hsum : ∑ p, Function.update b q n p + 1 = ∑ p, b p := by
        rw [Finset.sum_update_of_mem (Finset.mem_univ q), ← Finset.add_sum_erase _ b
          (Finset.mem_univ q), hn, Finset.sdiff_singleton_eq_erase]
        omega
      rw [List.length_cons]
      omega
    · rw [hprog]
      by_cases hpq : p = q
      · subst hpq
        rw [Function.update_self, Function.update_self]
        exact hbq x
      · rw [Function.update_of_ne hpq, Function.update_of_ne hpq]
        exact hb p

end Threads

end Xv6
