import Xv6.Sh.Grammar

/-!
# The parser accepts its grammar

Each function of the parser takes a first part off the tokens that are left.  What it takes is
what the grammar says, with the tree the grammar gives; and if the tokens have such a first
part, followed by a token that can come after it, that part is what it takes.  Both are proved
by induction on the fuel, of which four units for each token are enough.

## Main definitions

* `Yields` — what a function may return, and what it leaves.
* `Parses` — that a function returns a given result, and what it leaves.
* `Ends` — what can come after a part of a line.

## Main results

* `sound` — what the functions of the parser return, the grammar gives.
* `complete` — what the grammar gives, the functions of the parser return.
* `parsecmd_accepts` — the shell accepts the lines of the grammar, and no others.
* `nulterminate_words` — every word is terminated, and no word is cut.
-/

namespace Xv6.Sh

variable {α β : Type} {s : Ptr} {ts us vs : List Token} {fuel : ℕ}

/-! ### What a function may return -/

/-- A result with the tokens left after it satisfies `Q`.  The function does not run out of
fuel, and assigns to no entry past the end of `argv`. -/
def Yields (x : Outcome Panic (α × Ptr)) (Q : α → List Token → Prop) : Prop :=
  match x with
  | .ok (a, s) => ∃ ts, Lexes s ts ∧ Q a ts
  | .panic e => e ≠ .overflow
  | .stuck => False

/-- The function returns `a` and leaves the tokens `ts`. -/
def Parses (x : Outcome Panic (α × Ptr)) (a : α) (ts : List Token) : Prop :=
  ∃ s, x = .ok (a, s) ∧ Lexes s ts

section Rules

variable {Q : α → List Token → Prop} {R : β → List Token → Prop} {p : Parser α} {f : α → Parser β}
  {g : Bool → Parser β} {h : Tok × Slice → Parser β} {a : α} {b : β} {toks : List UInt8} {t : Token}

theorem Yields.pure (hs : Lexes s ts) (hq : Q a ts) : Yields ((Pure.pure a : Parser α) s) Q :=
  ⟨ts, hs, hq⟩

theorem Yields.panic {e : Panic} (he : e ≠ .overflow) :
    Yields ((Sh.panic e : Parser α) s) Q := he

theorem Yields.mono {Q' : α → List Token → Prop} {x : Outcome Panic (α × Ptr)} (hx : Yields x Q)
    (hQ : ∀ a ts, Q a ts → Q' a ts) : Yields x Q' := by
  cases x with
  | ok r =>
    obtain ⟨ts, hts, hq⟩ := hx
    exact ⟨ts, hts, hQ _ _ hq⟩
  | panic e => exact hx
  | stuck => exact hx

theorem Yields.bind (hp : Yields (p s) Q)
    (hf : ∀ a s' ts', Lexes s' ts' → Q a ts' → Yields (f a s') R) : Yields ((p >>= f) s) R := by
  rw [Parser.bind_apply]
  cases hx : p s with
  | ok r =>
    rw [hx] at hp
    obtain ⟨ts', hts', hq⟩ := hp
    exact hf r.1 r.2 ts' hts' hq
  | panic e =>
    rw [hx] at hp
    exact hp
  | stuck =>
    rw [hx] at hp
    exact hp.elim

theorem Yields.peek (hs : Lexes s ts) (hsub : toks ⊆ symbols)
    (hyes : ∀ s', Lexes s' ts → Starts toks ts → Yields (g true s') R)
    (hno : ∀ s', Lexes s' ts → ¬ Starts toks ts → Yields (g false s') R) :
    Yields ((Sh.peek toks >>= g) s) R := by
  obtain ⟨b, s', hb, hts, hiff⟩ := hs.peek hsub
  rw [Parser.bind_apply, hb, Outcome.bind_ok]
  cases b with
  | false => exact hno s' hts fun hst => Bool.false_ne_true (hiff.mpr hst)
  | true => exact hyes s' hts (hiff.mp rfl)

theorem Yields.gettoken (hs : Lexes s (t :: ts))
    (hh : ∀ w s', Lexes s' ts → (∀ w', t = .word w' → w' = w) → Yields (h (t.code, w) s') R) :
    Yields ((Sh.gettoken >>= h) s) R := by
  obtain ⟨w, s', hg, hts, hw⟩ := hs.gettoken
  rw [Parser.bind_apply, hg, Outcome.bind_ok]
  exact hh w s' hts hw

theorem Yields.gettoken_nil (hs : Lexes s []) (hh : ∀ w, Yields (h (.eof, w) []) R) :
    Yields ((Sh.gettoken >>= h) s) R := by
  obtain ⟨w, hg⟩ := hs.gettoken_nil
  rw [Parser.bind_apply, hg, Outcome.bind_ok]
  exact hh w

theorem Parses.pure (hs : Lexes s ts) : Parses ((Pure.pure a : Parser α) s) a ts := ⟨s, rfl, hs⟩

theorem Parses.bind (hp : Parses (p s) a us) (hf : ∀ s', Lexes s' us → Parses (f a s') b ts) :
    Parses ((p >>= f) s) b ts := by
  obtain ⟨s', hx, hus⟩ := hp
  rw [Parser.bind_apply, hx]
  exact hf s' hus

theorem Parses.peek_true (hs : Lexes s us) (hsub : toks ⊆ symbols) (hst : Starts toks us)
    (hg : ∀ s', Lexes s' us → Parses (g true s') b ts) : Parses ((Sh.peek toks >>= g) s) b ts := by
  obtain ⟨x, s', hx, hus, hiff⟩ := hs.peek hsub
  rw [Parser.bind_apply, hx, Outcome.bind_ok, hiff.mpr hst]
  exact hg s' hus

theorem Parses.peek_false (hs : Lexes s us) (hsub : toks ⊆ symbols) (hst : ¬ Starts toks us)
    (hg : ∀ s', Lexes s' us → Parses (g false s') b ts) : Parses ((Sh.peek toks >>= g) s) b ts := by
  obtain ⟨x, s', hx, hus, hiff⟩ := hs.peek hsub
  rw [Parser.bind_apply, hx, Outcome.bind_ok, Bool.eq_false_iff.mpr (mt hiff.mp hst)]
  exact hg s' hus

theorem Parses.gettoken (hs : Lexes s (t :: us))
    (hh : ∀ w s', Lexes s' us → (∀ w', t = .word w' → w' = w) → Parses (h (t.code, w) s') b ts) :
    Parses ((Sh.gettoken >>= h) s) b ts := by
  obtain ⟨w, s', hg, hus, hw⟩ := hs.gettoken
  rw [Parser.bind_apply, hg, Outcome.bind_ok]
  exact hh w s' hus hw

theorem Parses.gettoken_nil (hs : Lexes s []) (hh : ∀ w, Parses (h (.eof, w) []) b ts) :
    Parses ((Sh.gettoken >>= h) s) b ts := by
  obtain ⟨w, hg⟩ := hs.gettoken_nil
  rw [Parser.bind_apply, hg, Outcome.bind_ok]
  exact hh w

end Rules

/-! ### What tokens start with -/

section Starts

variable {toks toks' : List UInt8} {t : Token} {c : UInt8}

theorem starts_cons : Starts toks (t :: ts) ↔ ∃ c ∈ toks, t.byte = some c := Iff.rfl

theorem not_starts_nil : ¬ Starts toks [] := by
  rintro ⟨c, -, hc⟩
  cases hc

theorem starts_single (hbyte : ∀ u : Token, u.byte = some c → u = t) (h : Starts [c] ts) :
    ∃ ts', ts = t :: ts' := by
  cases ts with
  | nil => exact absurd h not_starts_nil
  | cons u ts =>
    obtain ⟨c', hc, hu⟩ := starts_cons.mp h
    rw [List.mem_singleton.mp hc] at hu
    exact ⟨ts, by rw [hbyte u hu]⟩

theorem starts_amp (h : Starts [38] ts) : ∃ ts', ts = .amp :: ts' :=
  starts_single (by rintro (_ | _) hu <;> first | rfl | cases hu) h

theorem starts_semi (h : Starts [59] ts) : ∃ ts', ts = .semi :: ts' :=
  starts_single (by rintro (_ | _) hu <;> first | rfl | cases hu) h

theorem starts_bar (h : Starts [124] ts) : ∃ ts', ts = .bar :: ts' :=
  starts_single (by rintro (_ | _) hu <;> first | rfl | cases hu) h

theorem starts_lpar (h : Starts [40] ts) : ∃ ts', ts = .lpar :: ts' :=
  starts_single (by rintro (_ | _) hu <;> first | rfl | cases hu) h

theorem starts_rpar (h : Starts [41] ts) : ∃ ts', ts = .rpar :: ts' :=
  starts_single (by rintro (_ | _) hu <;> first | rfl | cases hu) h

theorem starts_redir (h : Starts [60, 62] ts) :
    ∃ t ts', ts = t :: ts' ∧ (t = .lt ∨ t = .gt ∨ t = .append) := by
  cases ts with
  | nil => exact absurd h not_starts_nil
  | cons t ts =>
    obtain ⟨c, hc, ht⟩ := starts_cons.mp h
    refine ⟨t, ts, rfl, ?_⟩
    simp only [List.mem_cons, List.not_mem_nil, or_false] at hc
    obtain rfl | rfl := hc
    · cases t <;> first | exact .inl rfl | cases ht
    · cases t <;> first | exact .inr (.inl rfl) | exact .inr (.inr rfl) | cases ht

/-- What can come after a part of a line: its end, or one of some symbols. -/
def Ends (toks : List UInt8) (ts : List Token) : Prop := ts = [] ∨ Starts toks ts

theorem Ends.not_starts (h : Ends toks ts) (hdisj : toks.all (· ∉ toks')) : ¬ Starts toks' ts := by
  intro hst
  obtain rfl | ⟨c, hc, hts⟩ := h
  · exact not_starts_nil hst
  · obtain ⟨c', hc', hts'⟩ := hst
    rw [hts] at hts'
    have hnot : c ∉ toks' := of_decide_eq_true (List.all_eq_true.mp hdisj c hc)
    exact hnot (Option.some.inj hts' ▸ hc')

theorem Ends.mono (h : Ends toks ts) (hsub : toks ⊆ toks') : Ends toks' ts := by
  obtain rfl | ⟨c, hc, hts⟩ := h
  · exact .inl rfl
  · exact .inr ⟨c, hsub hc, hts⟩

theorem ends_cons (hc : c ∈ toks) (ht : t.byte = some c) : Ends toks (t :: ts) := .inr ⟨c, hc, ht⟩

end Starts

/-! ### Redirections and arguments -/

section Args

variable {c cmd : Cmd} {w : Slice} {ws : List Slice} {r : Redirection} {rs rs' : List Redirection}

theorem wraps_cons : cmd.wraps (r :: rs) = (cmd.wrap r).wraps rs := rfl

theorem wraps_append : cmd.wraps (rs ++ rs') = (cmd.wraps rs).wraps rs' := List.foldl_append

theorem setArg_wraps (k : ℕ) (x : Option Slice) :
    (cmd.wraps rs).setArg k x = (cmd.setArg k x).wraps rs := by
  induction rs generalizing cmd with
  | nil => rfl
  | cons r rs ih => exact ih

theorem setArg_some (hws : ws.length < maxargs) :
    (Cmd.exec (argvOf ws)).setArg ws.length (some w) = .exec (argvOf (ws ++ [w])) := by
  obtain ⟨k, hk⟩ : ∃ k, maxargs - ws.length = k + 1 := ⟨maxargs - ws.length - 1, by omega⟩
  rw [Cmd.setArg, argvOf, argvOf, List.set_append_right _ _ (Nat.le_of_eq (List.length_map some)),
    List.length_map, Nat.sub_self, hk, List.replicate_succ, List.set_cons_zero, List.map_append,
    List.length_append, List.length_singleton, ← Nat.sub_sub, hk, List.append_assoc]
  rfl

theorem setArg_none (hws : ws.length < maxargs) :
    (Cmd.exec (argvOf ws)).setArg ws.length none = .exec (argvOf ws) := by
  obtain ⟨k, hk⟩ : ∃ k, maxargs - ws.length = k + 1 := ⟨maxargs - ws.length - 1, by omega⟩
  rw [Cmd.setArg, argvOf, List.set_append_right _ _ (Nat.le_of_eq (List.length_map some)),
    List.length_map, Nat.sub_self, hk, List.replicate_succ, List.set_cons_zero]

/-- The command that holds some words, inside redirections. -/
def simple (ws : List Slice) (rs : List Redirection) : Cmd := (Cmd.exec (argvOf ws)).wraps rs

theorem setArgv_word (hws : ws.length < maxargs) (s : Ptr) :
    setArgv (simple ws rs) ws.length (some w) s = .ok (simple (ws ++ [w]) rs, s) := by
  rw [setArgv, if_pos hws, simple, setArg_wraps, setArg_some hws]
  rfl

theorem setArgv_none (hws : ws.length < maxargs) (s : Ptr) :
    setArgv (simple ws rs) ws.length none s = .ok (simple ws rs, s) := by
  rw [setArgv, if_pos hws, simple, setArg_wraps, setArg_none hws]
  rfl

/-- The first part of the tokens `ts`, up to `vs`, satisfies `P` with the tree `c`. -/
def Takes (P : List Token → Cmd → Prop) (ts : List Token) (c : Cmd) (vs : List Token) : Prop :=
  ∃ us, ts = us ++ vs ∧ P us c

/-- Some redirections, around a given command. -/
def RedirsOn (cmd : Cmd) (us : List Token) (c : Cmd) : Prop := ∃ rs, Redirs us rs ∧ c = cmd.wraps rs

/-- Some arguments, after given words and redirections. -/
def ArgsOn (ws : List Slice) (rs : List Redirection) (us : List Token) (c : Cmd) : Prop :=
  ∃ ws' rs', Args us ws' rs' ∧ (ws ++ ws').length ≤ maxargs - 1 ∧ c = simple (ws ++ ws') (rs ++ rs')

theorem ArgsOn.nil (hws : ws.length < maxargs) : ArgsOn ws rs [] (simple ws rs) := by
  refine ⟨[], [], .nil, ?_, ?_⟩
  · rw [List.append_nil]
    omega
  · rw [List.append_nil, List.append_nil]

theorem ArgsOn.cons (hrs : Redirs us rs') (h : ArgsOn (ws ++ [w]) (rs ++ rs') vs c) :
    ArgsOn ws rs (.word w :: (us ++ vs)) c := by
  obtain ⟨ws₁, rs₁, hargs, hlen, rfl⟩ := h
  refine ⟨w :: ws₁, rs' ++ rs₁, .cons w hrs hargs, ?_, ?_⟩
  · rwa [List.append_assoc] at hlen
  · rw [List.append_assoc, List.append_assoc]
    rfl

theorem eq_word_of_code {t : Token} (ht : t.code = .word) : ∃ w, t = .word w := by
  cases t <;> first | exact ⟨_, rfl⟩ | cases ht

theorem yields_parseredirs (hs : Lexes s ts) (hfuel : ts.length < fuel) :
    Yields (parseredirs fuel cmd s) (Takes (RedirsOn cmd) ts) := by
  induction fuel generalizing s ts cmd with
  | zero => omega
  | succ fuel ih =>
    rw [parseredirs]
    refine .peek hs (by decide) (fun s₁ h₁ hst => ?_) fun s₁ h₁ _ => ?_
    · obtain ⟨t, ts, rfl, ht⟩ := starts_redir hst
      rw [List.length_cons] at hfuel
      rw [if_pos rfl]
      refine .gettoken h₁ fun w₂ s₂ h₂ _ => ?_
      cases ts with
      | nil =>
        refine .gettoken_nil h₂ fun w => ?_
        rw [if_pos fun h => by cases h]
        exact .panic (by decide)
      | cons u ts =>
        rw [List.length_cons] at hfuel
        refine .gettoken h₂ fun w s₃ h₃ hw => ?_
        by_cases hu : u.code = .word
        · obtain ⟨w', rfl⟩ := eq_word_of_code hu
          rw [if_neg fun hne => hne hu, ← hw w' rfl]
          -- one redirection, and then the rest
          have hrest : ∀ {r : Redirection}, Redir [t, .word w'] r →
              Yields (parseredirs fuel (cmd.wrap r) s₃)
                (Takes (RedirsOn cmd) (t :: .word w' :: ts)) := by
            intro r hr
            have hy : Yields (parseredirs fuel (cmd.wrap r) s₃)
                (Takes (RedirsOn (cmd.wrap r)) ts) :=
              ih h₃ (by omega)
            refine hy.mono ?_
            rintro c vs ⟨us, rfl, rs, hrs, hc⟩
            exact ⟨_, rfl, _, .cons hr hrs, hc⟩
          obtain rfl | rfl | rfl := ht
          · exact hrest (.input w')
          · exact hrest (.output w')
          · exact hrest (.append w')
        · rw [if_pos hu]
          exact .panic (by decide)
    · rw [if_neg Bool.false_ne_true]
      exact .pure h₁ ⟨[], rfl, [], .nil, rfl⟩

/-- What `parseargs` takes is words, each with redirections after it. -/
theorem yields_parseargs (hs : Lexes s ts) (hfuel : ts.length < fuel)
    (hws : ws.length < maxargs) :
    Yields (parseargs fuel (simple ws rs) ws.length s) (Takes (ArgsOn ws rs) ts) := by
  induction fuel generalizing s ts ws rs with
  | zero => omega
  | succ fuel ih =>
    have hdone : ∀ {s₁ : Ptr}, Lexes s₁ ts →
        Yields (setArgv (simple ws rs) ws.length none s₁) (Takes (ArgsOn ws rs) ts) := by
      intro s₁ h₁
      rw [setArgv_none hws]
      exact ⟨ts, h₁, [], rfl, .nil hws⟩
    rw [parseargs]
    refine .peek hs (by decide) (fun s₁ h₁ _ => hdone h₁) fun s₁ h₁ _ => ?_
    rw [if_neg Bool.false_ne_true]
    cases ts with
    | nil => exact .gettoken_nil h₁ fun w => hdone .nil
    | cons t ts =>
      rw [List.length_cons] at hfuel
      refine .gettoken h₁ fun w s₂ h₂ hw => ?_
      rw [if_neg fun h => by cases t <;> cases h]
      by_cases ht : t.code = .word
      · obtain ⟨w', rfl⟩ := eq_word_of_code ht
        obtain rfl := hw w' rfl
        rw [if_neg fun hne => hne ht, Parser.bind_apply, setArgv_word hws, Outcome.bind_ok]
        by_cases hmany : maxargs ≤ ws.length + 1
        · -- too many arguments
          rw [if_pos hmany]
          exact .panic (by decide)
        rw [if_neg hmany]
        refine .bind (yields_parseredirs h₂ (by omega)) ?_
        rintro c s₃ vs h₃ ⟨us, rfl, rs₁, hrs₁, rfl⟩
        rw [List.length_append] at hfuel
        have hlen : (ws ++ [w']).length = ws.length + 1 := List.length_append
        have hy : Yields (parseargs fuel (simple (ws ++ [w']) (rs ++ rs₁)) (ws ++ [w']).length s₃)
            (Takes (ArgsOn (ws ++ [w']) (rs ++ rs₁)) vs) := ih h₃ (by omega) (by omega)
        rw [simple, wraps_append, hlen] at hy
        refine hy.mono ?_
        rintro c vs' ⟨us', rfl, hargs⟩
        exact ⟨_, by rw [← List.append_assoc]; rfl, hargs.cons hrs₁⟩
      · -- a symbol that starts no redirection and ends no command
        rw [if_pos ht]
        exact .panic (by decide)

/-- What `parseback` takes is `&`, any number of times. -/
theorem yields_parseback (hs : Lexes s ts) (hfuel : ts.length < fuel) :
    Yields (parseback fuel cmd s)
      (Takes (fun us c => ∃ n, us = List.replicate n .amp ∧ c = Cmd.back^[n] cmd) ts) := by
  induction fuel generalizing s ts cmd with
  | zero => omega
  | succ fuel ih =>
    rw [parseback]
    refine .peek hs (by decide) (fun s₁ h₁ hst => ?_) fun s₁ h₁ _ => ?_
    · obtain ⟨ts, rfl⟩ := starts_amp hst
      rw [List.length_cons] at hfuel
      rw [if_pos rfl]
      refine .gettoken h₁ fun w s₂ h₂ _ => (ih h₂ (by omega)).mono ?_
      rintro c vs ⟨us, rfl, n, rfl, rfl⟩
      exact ⟨_, rfl, n + 1, rfl, rfl⟩
    · rw [if_neg Bool.false_ne_true]
      exact .pure h₁ ⟨[], rfl, 0, rfl, rfl⟩

end Args

/-! ### Soundness -/

/-- **What the functions of the parser return, the grammar gives.** -/
theorem sound (fuel : ℕ) :
    (∀ {s ts}, Lexes s ts → 4 * ts.length + 4 ≤ fuel → Yields (parseline fuel s) (Takes Line ts)) ∧
    (∀ {s ts}, Lexes s ts → 4 * ts.length + 3 ≤ fuel → Yields (parsepipe fuel s) (Takes Pipe ts)) ∧
    (∀ {s ts}, Lexes s ts → 4 * ts.length + 2 ≤ fuel → Yields (parseexec fuel s) (Takes Exec ts)) ∧
    (∀ {s ts}, Lexes s ts → 4 * ts.length + 1 ≤ fuel → Starts [40] ts →
      Yields (parseblock fuel s) (Takes Exec ts)) := by
  induction fuel with
  | zero => exact ⟨fun _ h => by omega, fun _ h => by omega, fun _ h => by omega,
    fun _ h => by omega⟩
  | succ fuel ih =>
    obtain ⟨hline, hpipe, hexec, hblock⟩ := ih
    refine ⟨fun {s ts} hs hfuel => ?_, fun {s ts} hs hfuel => ?_, fun {s ts} hs hfuel => ?_,
      fun {s ts} hs hfuel hst => ?_⟩
    · -- `parseline`
      rw [parseline]
      refine .bind (hpipe hs (by omega)) ?_
      rintro c s₁ vs h₁ ⟨us, rfl, hp⟩
      rw [List.length_append] at hfuel
      refine .bind (yields_parseback h₁ (by omega)) ?_
      rintro d s₂ vs h₂ ⟨amps, rfl, n, rfl, rfl⟩
      rw [List.length_append] at hfuel
      refine .peek h₂ (by decide) (fun s₃ h₃ hst => ?_) fun s₃ h₃ _ => ?_
      · obtain ⟨vs, rfl⟩ := starts_semi hst
        rw [List.length_cons] at hfuel
        rw [if_pos rfl]
        refine .gettoken h₃ fun w s₄ h₄ _ => .bind (hline h₄ (by omega)) ?_
        rintro e s₅ vs' h₅ ⟨us', rfl, hl⟩
        refine .pure h₅ ⟨_, ?_, .seq n hp hl⟩
        simp only [List.append_assoc, List.cons_append]
      · rw [if_neg Bool.false_ne_true]
        exact .pure h₃ ⟨_, (List.append_assoc ..).symm, .last n hp⟩
    · -- `parsepipe`
      rw [parsepipe]
      refine .bind (hexec hs (by omega)) ?_
      rintro c s₁ vs h₁ ⟨us, rfl, he⟩
      rw [List.length_append] at hfuel
      refine .peek h₁ (by decide) (fun s₂ h₂ hst => ?_) fun s₂ h₂ _ => ?_
      · obtain ⟨vs, rfl⟩ := starts_bar hst
        rw [List.length_cons] at hfuel
        rw [if_pos rfl]
        refine .gettoken h₂ fun w s₃ h₃ _ => .bind (hpipe h₃ (by omega)) ?_
        rintro d s₄ vs' h₄ ⟨us', rfl, hp⟩
        refine .pure h₄ ⟨_, ?_, .pipe he hp⟩
        simp only [List.append_assoc, List.cons_append]
      · rw [if_neg Bool.false_ne_true]
        exact .pure h₂ ⟨_, rfl, .last he⟩
    · -- `parseexec`
      rw [parseexec]
      refine .peek hs (by decide) (fun s₁ h₁ hst => hblock h₁ (by omega) hst) fun s₁ h₁ _ => ?_
      rw [if_neg Bool.false_ne_true]
      refine .bind (yields_parseredirs h₁ (by omega)) ?_
      rintro c s₂ vs h₂ ⟨us, rfl, rs, hrs, rfl⟩
      rw [List.length_append] at hfuel
      have hy : Yields (parseargs fuel (simple [] rs) 0 s₂) (Takes (ArgsOn [] rs) vs) :=
        yields_parseargs h₂ (by omega) (by decide)
      refine hy.mono ?_
      rintro d vs' ⟨us', rfl, ws, rs', hargs, hlen, rfl⟩
      exact ⟨_, (List.append_assoc ..).symm, .simple hrs hargs hlen⟩
    · -- `parseblock`
      rw [parseblock]
      refine .peek hs (by decide) (fun s₁ h₁ _ => ?_) fun s₁ h₁ hnot => absurd hst hnot
      obtain ⟨ts, rfl⟩ := starts_lpar hst
      rw [List.length_cons] at hfuel
      rw [if_pos rfl]
      refine .gettoken h₁ fun w s₂ h₂ _ => .bind (hline h₂ (by omega)) ?_
      rintro c s₃ vs h₃ ⟨us, rfl, hl⟩
      rw [List.length_append] at hfuel
      refine .peek h₃ (by decide) (fun s₄ h₄ hst₄ => ?_) fun s₄ h₄ _ => ?_
      · obtain ⟨vs, rfl⟩ := starts_rpar hst₄
        rw [List.length_cons] at hfuel
        rw [if_pos rfl]
        refine .gettoken h₄ fun w' s₅ h₅ _ => (yields_parseredirs h₅ (by omega)).mono ?_
        rintro d vs' ⟨us', rfl, rs, hrs, rfl⟩
        refine ⟨_, ?_, .block hl hrs⟩
        simp only [List.append_assoc, List.cons_append]
      · rw [if_neg Bool.false_ne_true]
        exact .panic (by decide)

/-! ### Completeness -/

section Complete

variable {c cmd : Cmd} {ws ws' : List Slice} {rs rs' : List Redirection}

theorem parses_parseredirs (hrs : Redirs us rs) (hend : ¬ Starts [60, 62] vs)
    (hs : Lexes s (us ++ vs)) (hfuel : us.length < fuel) :
    Parses (parseredirs fuel cmd s) (cmd.wraps rs) vs := by
  induction fuel generalizing s us rs cmd with
  | zero => omega
  | succ fuel ih =>
    rw [parseredirs]
    cases hrs with
    | nil =>
      refine .peek_false hs (by decide) hend fun s₁ h₁ => ?_
      rw [if_neg Bool.false_ne_true]
      exact .pure h₁
    | @cons us₁ us₂ r rs hr hrs =>
      rw [List.append_assoc] at hs
      rw [List.length_append] at hfuel
      rw [wraps_cons]
      have hst : Starts [60, 62] (us₁ ++ (us₂ ++ vs)) := by
        cases hr with
        | input w => exact ⟨60, by decide, rfl⟩
        | output w => exact ⟨62, by decide, rfl⟩
        | append w => exact ⟨62, by decide, rfl⟩
      refine .peek_true hs (by decide) hst fun s₁ h₁ => ?_
      rw [if_pos rfl]
      cases hr
      all_goals
        rw [List.length_cons, List.length_singleton] at hfuel
        refine .gettoken h₁ fun _ s₂ h₂ _ => .gettoken h₂ fun w' s₃ h₃ hw => ?_
        rw [if_neg fun hne => hne rfl, ← hw _ rfl]
        exact ih hrs h₃ (by omega)

theorem Args.not_starts (hargs : Args us ws rs) (hend : Ends [124, 41, 38, 59] vs) :
    ¬ Starts [60, 62] (us ++ vs) := by
  cases hargs with
  | nil => exact hend.not_starts (by decide)
  | cons w _ _ =>
    rintro ⟨c, _, hc⟩
    cases hc

theorem parses_parseargs (hargs : Args us ws' rs') (hend : Ends [124, 41, 38, 59] vs)
    (hlen : (ws ++ ws').length ≤ maxargs - 1) (hs : Lexes s (us ++ vs)) (hfuel : us.length < fuel) :
    Parses (parseargs fuel (simple ws rs) ws.length s) (simple (ws ++ ws') (rs ++ rs')) vs := by
  induction fuel generalizing s us ws ws' rs rs' with
  | zero => omega
  | succ fuel ih =>
    have hws : ws.length < maxargs := by
      rw [List.length_append] at hlen
      have : maxargs = 10 := rfl
      omega
    rw [parseargs]
    cases hargs with
    | nil =>
      have hdone : ∀ {s₁ : Ptr}, Lexes s₁ vs → Parses (setArgv (simple ws rs) ws.length none s₁)
          (simple (ws ++ []) (rs ++ [])) vs := by
        intro s₁ h₁
        rw [setArgv_none hws, List.append_nil, List.append_nil]
        exact .pure h₁
      obtain rfl | hst := hend
      · refine .peek_false hs (by decide) not_starts_nil fun s₁ h₁ => ?_
        rw [if_neg Bool.false_ne_true]
        exact .gettoken_nil h₁ fun w => hdone .nil
      · exact .peek_true hs (by decide) hst fun s₁ h₁ => hdone h₁
    | @cons us₁ us₂ ws₁ rs₁ rs₂ w hrs hargs =>
      rw [List.cons_append, List.append_assoc] at hs
      rw [List.length_cons, List.length_append] at hfuel
      have hlen' : (ws ++ [w]).length = ws.length + 1 := List.length_append
      rw [List.append_cons] at hlen
      have hmany : ¬ maxargs ≤ ws.length + 1 := by
        rw [List.length_append, hlen'] at hlen
        have : maxargs = 10 := rfl
        omega
      refine .peek_false hs (by decide) (by rintro ⟨x, _, hx⟩; cases hx) fun s₁ h₁ => ?_
      rw [if_neg Bool.false_ne_true]
      refine .gettoken h₁ fun w' s₂ h₂ hw => ?_
      obtain rfl := hw w rfl
      rw [if_neg (fun h => by cases h), if_neg fun hne => hne rfl, Parser.bind_apply,
        setArgv_word hws, Outcome.bind_ok, if_neg hmany]
      refine .bind (parses_parseredirs hrs (hargs.not_starts hend) h₂ (by omega)) fun s₃ h₃ => ?_
      have hp : Parses (parseargs fuel (simple (ws ++ [w]) (rs ++ rs₁)) (ws ++ [w]).length s₃)
          (simple (ws ++ [w] ++ ws₁) (rs ++ rs₁ ++ rs₂)) vs := ih hargs hlen h₃ (by omega)
      rw [hlen', ← List.append_cons, List.append_assoc, simple, wraps_append] at hp
      exact hp

theorem parses_parseback (n : ℕ) (hend : ¬ Starts [38] vs)
    (hs : Lexes s (List.replicate n .amp ++ vs)) (hfuel : n < fuel) :
    Parses (parseback fuel cmd s) (Cmd.back^[n] cmd) vs := by
  induction fuel generalizing s n cmd with
  | zero => omega
  | succ fuel ih =>
    rw [parseback]
    cases n with
    | zero =>
      refine .peek_false hs (by decide) hend fun s₁ h₁ => ?_
      rw [if_neg Bool.false_ne_true]
      exact .pure h₁
    | succ n =>
      refine .peek_true hs (by decide) ⟨38, by decide, rfl⟩ fun s₁ h₁ => ?_
      rw [if_pos rfl]
      exact .gettoken h₁ fun w s₂ h₂ _ => ih n h₂ (by omega)

theorem not_starts_simple (hrs : Redirs us rs) (hargs : Args ts ws rs')
    (hend : Ends [124, 41, 38, 59] vs) : ¬ Starts [40] (us ++ ts ++ vs) := by
  cases hrs with
  | nil =>
    cases hargs with
    | nil => exact hend.not_starts (by decide)
    | cons w _ _ =>
      rintro ⟨c, _, hc⟩
      cases hc
  | cons hr _ =>
    rintro ⟨c, hc, hb⟩
    rw [List.mem_singleton.mp hc] at hb
    cases hr <;> cases hb

/-- **What the grammar gives, the functions of the parser return**, if what comes after it can
come after it. -/
theorem complete (fuel : ℕ) :
    (∀ {s us c vs}, Line us c → Ends [41] vs → Lexes s (us ++ vs) → 4 * us.length + 4 ≤ fuel →
      Parses (parseline fuel s) c vs) ∧
    (∀ {s us c vs}, Pipe us c → Ends [41, 38, 59] vs → Lexes s (us ++ vs) →
      4 * us.length + 3 ≤ fuel → Parses (parsepipe fuel s) c vs) ∧
    (∀ {s us c vs}, Exec us c → Ends [124, 41, 38, 59] vs → Lexes s (us ++ vs) →
      4 * us.length + 2 ≤ fuel → Parses (parseexec fuel s) c vs) := by
  -- strong induction: `parseexec` calls `parseline` with less fuel by two
  induction fuel using Nat.strongRecOn with
  | _ fuel ih =>
    refine ⟨fun {s us c vs} hl hend hs hfuel => ?_, fun {s us c vs} hp hend hs hfuel => ?_,
      fun {s us c vs} he hend hs hfuel => ?_⟩
    · obtain ⟨fuel, rfl⟩ : ∃ f, fuel = f + 1 := ⟨fuel - 1, by omega⟩
      obtain ⟨hline, hpipe, -⟩ := ih fuel (Nat.lt_succ_self _)
      rw [parseline]
      cases hl with
      | @last us c n hp =>
        rw [List.append_assoc] at hs
        rw [List.length_append, List.length_replicate] at hfuel
        -- what ends a line also ends its pipeline
        have hamp : Ends [41, 38, 59] (List.replicate n .amp ++ vs) := by
          cases n with
          | zero => exact hend.mono (by decide)
          | succ n => exact ends_cons (c := 38) (by decide) rfl
        refine .bind (hpipe hp hamp hs (by omega)) fun s₁ h₁ => ?_
        refine .bind (parses_parseback n (hend.not_starts (by decide)) h₁ (by omega))
          fun s₂ h₂ => ?_
        refine .peek_false h₂ (by decide) (hend.not_starts (by decide)) fun s₃ h₃ => ?_
        rw [if_neg Bool.false_ne_true]
        exact .pure h₃
      | @seq us vs' c d n hp hl =>
        rw [List.append_assoc, List.append_assoc] at hs
        simp only [List.length_append, List.length_replicate, List.length_cons] at hfuel
        have hamp : Ends [41, 38, 59] (List.replicate n .amp ++ (.semi :: vs' ++ vs)) := by
          cases n with
          | zero => exact ends_cons (c := 59) (by decide) rfl
          | succ n => exact ends_cons (c := 38) (by decide) rfl
        refine .bind (hpipe hp hamp hs (by omega)) fun s₁ h₁ => ?_
        refine .bind (parses_parseback n ?_ h₁ (by omega)) fun s₂ h₂ => ?_
        · rintro ⟨x, hx, hb⟩
          rw [List.mem_singleton.mp hx] at hb
          cases hb
        refine .peek_true h₂ (by decide) ⟨59, by decide, rfl⟩ fun s₃ h₃ => ?_
        rw [if_pos rfl]
        refine .gettoken h₃ fun w s₄ h₄ _ => ?_
        exact .bind (hline hl hend h₄ (by omega)) fun s₅ h₅ => .pure h₅
    · obtain ⟨fuel, rfl⟩ : ∃ f, fuel = f + 1 := ⟨fuel - 1, by omega⟩
      obtain ⟨-, hpipe, hexec⟩ := ih fuel (Nat.lt_succ_self _)
      rw [parsepipe]
      cases hp with
      | last he =>
        refine .bind (hexec he (hend.mono (by decide)) hs (by omega)) fun s₁ h₁ => ?_
        refine .peek_false h₁ (by decide) (hend.not_starts (by decide)) fun s₂ h₂ => ?_
        rw [if_neg Bool.false_ne_true]
        exact .pure h₂
      | @pipe us vs' c d he hp =>
        rw [List.append_assoc] at hs
        rw [List.length_append, List.length_cons] at hfuel
        refine .bind (hexec he (ends_cons (c := 124) (by decide) rfl) hs (by omega)) fun s₁ h₁ => ?_
        refine .peek_true h₁ (by decide) ⟨124, by decide, rfl⟩ fun s₂ h₂ => ?_
        rw [if_pos rfl]
        refine .gettoken h₂ fun w s₃ h₃ _ => ?_
        exact .bind (hpipe hp hend h₃ (by omega)) fun s₄ h₄ => .pure h₄
    · obtain ⟨fuel, rfl⟩ : ∃ f, fuel = f + 2 := ⟨fuel - 2, by omega⟩
      obtain ⟨hline, -⟩ := ih fuel (by omega)
      rw [parseexec]
      cases he with
      | @block us vs' c rs hl hrs =>
        rw [List.cons_append, List.append_assoc] at hs
        simp only [List.length_cons, List.length_append] at hfuel
        refine .peek_true hs (by decide) ⟨40, by decide, rfl⟩ fun s₁ h₁ => ?_
        rw [if_pos rfl, parseblock]
        refine .peek_true h₁ (by decide) ⟨40, by decide, rfl⟩ fun s₂ h₂ => ?_
        rw [if_pos rfl]
        refine .gettoken h₂ fun w s₃ h₃ _ => ?_
        refine .bind (hline hl (ends_cons (c := 41) (by decide) rfl) h₃ (by omega)) fun s₄ h₄ => ?_
        refine .peek_true h₄ (by decide) ⟨41, by decide, rfl⟩ fun s₅ h₅ => ?_
        rw [if_pos rfl]
        refine .gettoken h₅ fun w' s₆ h₆ _ => ?_
        exact parses_parseredirs hrs (hend.not_starts (by decide)) h₆ (by omega)
      | @simple us vs' ws rs rs' hrs hargs hlen =>
        rw [List.length_append] at hfuel
        refine .peek_false hs (by decide) (not_starts_simple hrs hargs hend) fun s₁ h₁ => ?_
        rw [if_neg Bool.false_ne_true]
        rw [List.append_assoc] at h₁
        refine .bind (parses_parseredirs hrs (hargs.not_starts hend) h₁ (by omega)) fun s₂ h₂ => ?_
        have hp : Parses (parseargs (fuel + 1) (simple [] rs) 0 s₂)
            (simple ([] ++ ws) (rs ++ rs')) vs :=
          parses_parseargs hargs hend hlen h₂ (by omega)
        exact hp

end Complete

/-! ### Whole lines -/

/-- **The shell accepts the lines of its grammar, and no others.**  A line without NUL is one
sequence of tokens.  If the grammar gives them a tree, that tree is what `parsecmd` returns;
otherwise `parsecmd` panics.  It always returns, and never assigns past the end of `argv`. -/
theorem parsecmd_accepts (h : (0 : UInt8) ∉ s) :
    (∃ ts, Lexes s ts ∧ ∀ ts', Lexes s ts' → ts' = ts) ∧
    (∀ c, parsecmd s = .ok c ↔ ∃ ts, Lexes s ts ∧ Line ts c) ∧
    ((¬ ∃ c ts, Lexes s ts ∧ Line ts c) → ∃ e, e ≠ .overflow ∧ parsecmd s = .panic e) ∧
    parsecmd s ≠ .stuck ∧ parsecmd s ≠ .panic .overflow := by
  obtain ⟨ts, hts⟩ := exists_lexes h
  have hlen := hts.length_le
  have hend : ∀ {vs : List Token} {s' : Ptr}, Lexes s' vs → (skip s' = [] ↔ vs = []) := by
    intro vs s' hvs
    constructor
    · intro hnil
      have hskip := hvs.skip
      rw [hnil] at hskip
      exact hskip.unique .nil
    · rintro rfl
      exact (lexes_nil_iff (trimmed_skip s')).mp hvs.skip
  have hy := (sound (4 * s.length + 4)).1 hts (by omega)
  have haccept : ∀ {c ts'}, Lexes s ts' → Line ts' c → parsecmd s = .ok c := by
    intro c ts' hts' hl
    obtain rfl := hts'.unique hts
    rw [← List.append_nil ts'] at hts
    obtain ⟨s', hx, hnil⟩ := (complete (4 * s.length + 4)).1 hl (.inl rfl) hts (by omega)
    rw [parsecmd, hx, Outcome.bind_ok, if_pos ((hend hnil).mpr rfl)]
  have hunique : ∃ ts, Lexes s ts ∧ ∀ ts', Lexes s ts' → ts' = ts :=
    ⟨ts, hts, fun _ hts' => hts'.unique hts⟩
  -- the parser panics, or returns a tree with or without tokens left over
  have hcases : (∃ c, parsecmd s = .ok c ∧ Line ts c) ∨
      ∃ e, e ≠ .overflow ∧ parsecmd s = .panic e := by
    rw [parsecmd]
    cases hx : parseline (4 * s.length + 4) s with
    | ok r =>
      rw [hx] at hy
      obtain ⟨vs, hvs, us, rfl, hl⟩ := hy
      rw [Outcome.bind_ok]
      by_cases hnil : skip r.2 = []
      · obtain rfl := (hend hvs).mp hnil
        rw [if_pos hnil, List.append_nil]
        exact .inl ⟨r.1, rfl, hl⟩
      · rw [if_neg hnil]
        exact .inr ⟨.leftovers, by decide, rfl⟩
    | panic e =>
      rw [hx] at hy
      exact .inr ⟨e, hy, rfl⟩
    | stuck =>
      rw [hx] at hy
      exact hy.elim
  refine ⟨hunique, fun c => ⟨fun hc => ?_, fun ⟨ts', hts', hl⟩ => haccept hts' hl⟩,
    fun hnot => ?_, ?_⟩
  · obtain ⟨d, hd, hl⟩ | ⟨e, -, he⟩ := hcases
    · rw [hc] at hd
      cases hd
      exact ⟨ts, hts, hl⟩
    · rw [hc] at he
      cases he
  · obtain ⟨d, -, hl⟩ | hpanic := hcases
    · exact absurd ⟨d, ts, hts, hl⟩ hnot
    · exact hpanic
  · obtain ⟨d, hd, -⟩ | ⟨e, hne, he⟩ := hcases
    · rw [hd]
      exact ⟨by rintro ⟨⟩, by rintro ⟨⟩⟩
    · rw [he]
      exact ⟨by rintro ⟨⟩, fun h => hne (Outcome.panic.inj h)⟩

/-- The line `a>b&`. -/
def sampleLine : Ptr := [97, 62, 98, 38]

/-- A command with its output in a file, in the background. -/
def sampleTree : Cmd :=
  .back (.redir (.exec (some ⟨sampleLine, sampleLine.drop 1⟩ :: List.replicate 9 none))
    ⟨sampleLine.drop 2, sampleLine.drop 3⟩ 0x601 1)

theorem parsecmd_accepts_sample : parsecmd sampleLine = .ok sampleTree ∧
    ∃ ts, Lexes sampleLine ts ∧ Line ts sampleTree := by
  have hparse : parsecmd sampleLine = .ok sampleTree := by decide +kernel
  exact ⟨hparse, ((parsecmd_accepts (by decide)).2.1 _).mp hparse⟩

/-! ### Terminating the words -/

/-- The C string at an address. -/
def stringAt (m : ℕ → UInt8) : ℕ → List UInt8
  | 0 => []
  | n + 1 => if m (n + 1) = 0 then [] else m (n + 1) :: stringAt m n

/-- The counted strings of a tree. -/
def Cmd.words : Cmd → List Slice
  | exec argv => args argv
  | redir cmd file _ _ => cmd.words ++ [file]
  | pipe left right | list left right => left.words ++ right.words
  | back cmd => cmd.words

variable {c : Cmd} {w : Slice} {ws : List Slice} {rs : List Redirection}

theorem nulterminate_apply (c : Cmd) (m : ℕ → UInt8) (n : ℕ) :
    nulterminate c m n = if n ∈ c.words.map (·.eq.length) then 0 else m n := by
  induction c generalizing m with
  | exec argv =>
    rw [nulterminate, Cmd.words]
    induction args argv generalizing m with
    | nil => simp
    | cons w ws ih =>
      rw [List.foldl_cons, ih, terminate]
      grind
  | redir cmd file mode fd ih =>
    rw [nulterminate, terminate, ih]
    grind [Cmd.words]
  | pipe left right ihl ihr | list left right ihl ihr =>
    rw [nulterminate, ihr, ihl]
    grind [Cmd.words]
  | back cmd ih => exact ih m

theorem words_wraps : (c.wraps rs).words = c.words ++ rs.map (·.file) := by
  induction rs generalizing c with
  | nil => exact (List.append_nil _).symm
  | cons r rs ih => simp [wraps_cons, ih, Cmd.wrap, Cmd.words]

theorem words_back (n : ℕ) : (Cmd.back^[n] c).words = c.words := by
  induction n generalizing c with
  | zero => rfl
  | succ n ih => exact ih

theorem args_argvOf (ws : List Slice) (k : ℕ) :
    args (ws.map some ++ List.replicate k none) = ws := by
  induction ws with
  | nil => cases k <;> rfl
  | cons w ws ih => exact congrArg (w :: ·) ih

theorem Redirs.word_mem (h : Redirs us rs) : ∀ w ∈ rs.map (·.file), .word w ∈ us := by
  induction h with
  | nil => simp
  | cons hr _ ih => cases hr <;> grind

theorem Args.word_mem (h : Args us ws rs) : ∀ w ∈ ws ++ rs.map (·.file), .word w ∈ us := by
  induction h with
  | nil => simp
  | cons w hr _ ih => grind [hr.word_mem]

theorem Line.word_mem (h : Line us c) : ∀ w ∈ c.words, .word w ∈ us := by
  let P := fun (us : List Token) (c : Cmd) => ∀ w ∈ c.words, .word w ∈ us
  refine @Line.rec (fun us c _ => P us c) (fun us c _ => P us c) (fun us c _ => P us c)
    ?_ ?_ ?_ ?_ ?_ ?_ us c h -- rule by rule
  · grind [words_back]
  · grind [Cmd.words, words_back]
  · grind
  · grind [Cmd.words]
  · grind [words_wraps, Redirs.word_mem]
  · grind [words_wraps, Cmd.words, argvOf, args_argvOf, Redirs.word_mem, Args.word_mem]

theorem Lexes.of_word_mem (h : Lexes s ts) (hw : .word w ∈ ts) : w.q <:+ s ∧
    (w.eq.headD 0 = 0 ∨ w.eq.headD 0 ∈ whitespace ∨ w.eq.headD 0 ∈ symbols) ∧
    ∃ x, w.q = x ++ w.eq ∧ ∀ b ∈ x, b ≠ 0 ∧ b ∉ whitespace ∧ b ∉ symbols := by
  induction h with
  | nil => cases hw
  | space _ _ ih | gt _ _ ih | append _ ih =>
    obtain ⟨hs, hrest⟩ := ih (by simpa using hw)
    exact ⟨by simp [List.suffix_cons_iff, hs], hrest⟩
  | symbol hsym _ ih =>
    obtain ⟨hs, hrest⟩ := ih (by cases hsym <;> simpa using hw)
    exact ⟨by simp [List.suffix_cons_iff, hs], hrest⟩
  | @word x s ts _ hall hend _ ih =>
    rcases List.mem_cons.mp hw with heq | hw
    · cases heq
      refine ⟨List.suffix_rfl, ?_, x, rfl, hall⟩
      cases s with
      | nil => exact .inl rfl
      | cons b s => exact .inr (hend b rfl)
    · exact ⟨(ih hw).1.trans (List.suffix_append ..), (ih hw).2⟩

theorem line_of_suffix {q : Ptr} (h : q <:+ s) : line s q.length = q.headD 0 := by
  obtain ⟨p, rfl⟩ := h
  rw [line, List.length_append, Nat.add_sub_cancel, List.drop_left]

/-- **Every word is terminated, and no word is cut.**  After `nulterminate` the string at the
start of an argument, or of the file of a redirection, is the text of that token. -/
theorem nulterminate_words (h : (0 : UInt8) ∉ s) (hc : parsecmd s = .ok c) (hw : w ∈ c.words) :
    stringAt (nulterminate c (line s)) w.q.length ++ w.eq = w.q := by
  obtain ⟨ts, hts⟩ := exists_lexes h
  have hlen := hts.length_le
  have hy := (sound (4 * s.length + 4)).1 hts (by omega)
  obtain ⟨⟨d, s'⟩, hx, hd⟩ := Outcome.bind_eq_ok.mp hc
  rw [hx] at hy
  obtain ⟨vs, -, us, rfl, hl⟩ := hy
  split at hd <;> cases hd
  dsimp only at *
  have hlex := fun v hv => hts.of_word_mem (List.mem_append_left vs (hl.word_mem v hv))
  obtain ⟨hs, -, x, hq, hx⟩ := hlex w hw
  rw [hq] at hs ⊢
  clear hq
  refine congrArg (· ++ w.eq) ?_
  induction x with
  | nil =>
    have hzero : nulterminate d (line s) w.eq.length = 0 := by
      rw [nulterminate_apply, if_pos (List.mem_map_of_mem hw)]
    rw [List.nil_append]
    cases hn : w.eq.length with
    | zero => rfl
    | succ n => rw [stringAt, ← hn, if_pos hzero]
  | cons b x ih =>
    obtain ⟨hb, hx⟩ := List.forall_mem_cons.mp hx
    -- no string ends here: what a string ends at is not a byte of a word
    have hnot : (b :: x ++ w.eq).length ∉ d.words.map (·.eq.length) := by
      intro hmem
      obtain ⟨v, hv, hveq⟩ := List.mem_map.mp hmem
      obtain ⟨hsv, hend, y, hy, -⟩ := hlex v hv
      rw [← line_of_suffix ((List.suffix_append y v.eq).trans (hy ▸ hsv)), hveq,
        line_of_suffix hs] at hend
      exact hend.elim hb.1 fun h => h.elim hb.2.1 hb.2.2
    have hbyte : nulterminate d (line s) (b :: x ++ w.eq).length = b := by
      rw [nulterminate_apply, if_neg hnot, line_of_suffix hs]
      rfl
    have hrest := ih ((List.suffix_cons b _).trans hs) hx
    rw [List.cons_append, List.length_cons] at hbyte ⊢
    rw [stringAt, hbyte, if_neg hb.1, hrest]

/-- The line `a>b&`, of which `>` and `&` are overwritten. -/
theorem nulterminate_words_sample :
    stringAt (nulterminate sampleTree (line sampleLine)) 4 ++ [62, 98, 38] = sampleLine := by
  have hparse : parsecmd sampleLine = .ok sampleTree := by decide +kernel
  exact nulterminate_words (w := ⟨sampleLine, sampleLine.drop 1⟩) (by decide) hparse (by decide)

end Xv6.Sh
