import Xv6.Sh.Model
import Mathlib.Logic.Function.Iterate

/-!
# The grammar of command lines

What a command line is, without a parser: a string of bytes is a sequence of tokens, and some
sequences of tokens are lines, each with a tree.

## Main definitions

* `Lexes s ts` — the bytes `s` are the tokens `ts`, each as long as possible.
* `Line`, `Pipe`, `Exec`, `Redirs`, `Args` — the grammar, with the trees it gives.

## Main results

* `exists_lexes`, `Lexes.unique` — a line without NUL is one sequence of tokens.
* `Lexes.gettoken`, `Lexes.peek` — `gettoken` takes the first token off, and `peek` looks at it.
-/

namespace Xv6.Sh

/-! ### Tokens -/

/-- The tokens of a line. -/
inductive Token
  | bar
  | lpar
  | rpar
  | semi
  | amp
  | lt
  | gt
  | append
  | word (w : Slice)

/-- What `gettoken` calls a token. -/
def Token.code : Token → Tok
  | bar => .bar
  | lpar => .lpar
  | rpar => .rpar
  | semi => .semi
  | amp => .amp
  | lt => .lt
  | gt => .gt
  | append => .append
  | word _ => .word

/-- Symbols of one byte that can always be told from that byte. -/
inductive Symbol : UInt8 → Token → Prop
  | bar : Symbol 124 .bar
  | lpar : Symbol 40 .lpar
  | rpar : Symbol 41 .rpar
  | semi : Symbol 59 .semi
  | amp : Symbol 38 .amp
  | lt : Symbol 60 .lt

/-- The bytes `s` are the tokens `ts`.  Words and symbols may have white space between them,
a word is as long as it can be, and ">>" is one token. -/
inductive Lexes : List UInt8 → List Token → Prop
  | nil : Lexes [] []
  | space {c : UInt8} {s : List UInt8} {ts : List Token} : c ∈ whitespace → Lexes s ts →
      Lexes (c :: s) ts
  | symbol {c : UInt8} {t : Token} {s : List UInt8} {ts : List Token} : Symbol c t → Lexes s ts →
      Lexes (c :: s) (t :: ts)
  | append {s : List UInt8} {ts : List Token} : Lexes s ts →
      Lexes (62 :: 62 :: s) (.append :: ts)
  | gt {s : List UInt8} {ts : List Token} : s.head? ≠ some 62 → Lexes s ts →
      Lexes (62 :: s) (.gt :: ts)
  | word {w s : List UInt8} {ts : List Token} : w ≠ [] →
      (∀ c ∈ w, c ≠ 0 ∧ c ∉ whitespace ∧ c ∉ symbols) →
      (∀ c, s.head? = some c → c ∈ whitespace ∨ c ∈ symbols) → Lexes s ts →
      Lexes (w ++ s) (.word ⟨w ++ s, s⟩ :: ts)

/-! ### Trees -/

/-- A redirection: the file, how to open it, and the file descriptor. -/
structure Redirection where
  file : Slice
  mode : ℕ
  fd : ℕ

/-- A redirection around a command. -/
def Cmd.wrap (c : Cmd) (r : Redirection) : Cmd := .redir c r.file r.mode r.fd

/-- Redirections around a command, the first innermost. -/
def Cmd.wraps (c : Cmd) (rs : List Redirection) : Cmd := rs.foldl Cmd.wrap c

/-- The argument vector for some words. -/
def argvOf (ws : List Slice) : List (Option Slice) :=
  ws.map some ++ List.replicate (maxargs - ws.length) none

/-- `redir ::= ('<' | '>' | '>>') word`. -/
inductive Redir : List Token → Redirection → Prop
  | input (w : Slice) : Redir [.lt, .word w] ⟨w, oRdonly, 0⟩
  | output (w : Slice) : Redir [.gt, .word w] ⟨w, oWronly ||| oCreate ||| oTrunc, 1⟩
  | append (w : Slice) : Redir [.append, .word w] ⟨w, oWronly ||| oCreate, 1⟩

/-- `redir*`. -/
inductive Redirs : List Token → List Redirection → Prop
  | nil : Redirs [] []
  | cons {us vs : List Token} {r : Redirection} {rs : List Redirection} : Redir us r →
      Redirs vs rs → Redirs (us ++ vs) (r :: rs)

/-- `(word redir*)*`. -/
inductive Args : List Token → List Slice → List Redirection → Prop
  | nil : Args [] [] []
  | cons {us vs : List Token} {ws : List Slice} {rs rs' : List Redirection} (w : Slice) :
      Redirs us rs → Args vs ws rs' → Args (.word w :: (us ++ vs)) (w :: ws) (rs ++ rs')

mutual

/-- `line ::= pipe '&'* [';' line]`. -/
inductive Line : List Token → Cmd → Prop
  | last {us : List Token} {c : Cmd} (n : ℕ) : Pipe us c →
      Line (us ++ List.replicate n .amp) (Cmd.back^[n] c)
  | seq {us vs : List Token} {c d : Cmd} (n : ℕ) : Pipe us c → Line vs d →
      Line (us ++ List.replicate n .amp ++ .semi :: vs) (.list (Cmd.back^[n] c) d)

/-- `pipe ::= exec ['|' pipe]`. -/
inductive Pipe : List Token → Cmd → Prop
  | last {us : List Token} {c : Cmd} : Exec us c → Pipe us c
  | pipe {us vs : List Token} {c d : Cmd} : Exec us c → Pipe vs d →
      Pipe (us ++ .bar :: vs) (.pipe c d)

/-- `exec ::= '(' line ')' redir* | redir* (word redir*)*`, with fewer than `MAXARGS` words. -/
inductive Exec : List Token → Cmd → Prop
  | block {us vs : List Token} {c : Cmd} {rs : List Redirection} : Line us c → Redirs vs rs →
      Exec (.lpar :: (us ++ .rpar :: vs)) (c.wraps rs)
  | simple {us vs : List Token} {ws : List Slice} {rs rs' : List Redirection} : Redirs us rs →
      Args vs ws rs' → ws.length ≤ maxargs - 1 →
      Exec (us ++ vs) ((Cmd.exec (argvOf ws)).wraps (rs ++ rs'))

end

/-! ### Taking tokens off a line -/

section Lexes

variable {s : List UInt8} {t : Token} {ts ts' : List Token} {c : UInt8}

theorem strchr_iff {l : List UInt8} : strchr l c = true ↔ c ∈ l := List.contains_iff_mem

theorem isWord_iff : isWord c = true ↔ c ∉ whitespace ∧ c ∉ symbols := by
  simp [isWord, ← strchr_iff]

theorem skip_cons_of_mem (h : c ∈ whitespace) : skip (c :: s) = skip s :=
  List.dropWhile_cons_of_pos (strchr_iff.mpr h)

theorem skip_cons_of_notMem (h : c ∉ whitespace) : skip (c :: s) = c :: s :=
  List.dropWhile_cons_of_neg (mt strchr_iff.mp h)

/-- What does not start with white space. -/
def Trimmed (s : List UInt8) : Prop := ∀ c ∈ s.head?, c ∉ whitespace

theorem trimmed_skip (s : List UInt8) : Trimmed (skip s) := by
  induction s with
  | nil => exact fun c hc => by cases hc
  | cons c s ih =>
    by_cases hc : c ∈ whitespace
    · rwa [skip_cons_of_mem hc]
    · rw [skip_cons_of_notMem hc]
      intro c' hc'
      rwa [← Option.some.inj hc']

theorem Lexes.skip (h : Lexes s ts) : Lexes (skip s) ts := by
  induction h with
  | nil => exact .nil
  | space hc _ ih => rwa [skip_cons_of_mem hc]
  | symbol hsym h _ =>
    rw [skip_cons_of_notMem (by cases hsym <;> decide)]
    exact .symbol hsym h
  | append h _ =>
    rw [skip_cons_of_notMem (by decide)]
    exact .append h
  | gt hne h _ =>
    rw [skip_cons_of_notMem (by decide)]
    exact .gt hne h
  | @word w s ts hw hall hend h _ =>
    obtain ⟨c, w, rfl⟩ := List.exists_cons_of_ne_nil hw
    have hc := (hall c List.mem_cons_self).2.1
    rw [List.cons_append, skip_cons_of_notMem hc]
    exact .word hw hall hend h

theorem lexes_nil_iff (hs : Trimmed s) : Lexes s [] ↔ s = [] := by
  constructor
  · intro h
    cases h with
    | nil => rfl
    | space hc _ => exact absurd hc (hs _ rfl)
  · rintro rfl
    exact .nil

/-- The `switch` of `gettoken` finds the first token. -/
theorem Lexes.scan (hs : Trimmed s) (h : Lexes s (t :: ts)) : ∃ s', Sh.scan s = (t.code, s') ∧
    Lexes s' ts ∧ ∀ w, t = .word w → w = ⟨s, s'⟩ := by
  cases h with
  | space hc _ => exact absurd hc (hs _ rfl)
  | symbol hsym h =>
    refine ⟨_, ?_, h, ?_⟩
    · cases hsym <;> rfl
    · rintro w rfl
      cases hsym
  | append h => exact ⟨_, rfl, h, fun w hw => by cases hw⟩
  | @gt s _ hne h =>
    refine ⟨s, ?_, h, fun w hw => by cases hw⟩
    rw [Sh.scan]
    simp [hne]
    rfl
  | @word w s _ hw hall hend h =>
    refine ⟨s, ?_, h, fun w hw => by cases hw; rfl⟩
    -- the word ends before the first blank or symbol
    have hdrop : (w ++ s).dropWhile isWord = s := by
      rw [List.dropWhile_append_of_pos fun c hc => isWord_iff.mpr (hall c hc).2]
      cases s with
      | nil => rfl
      | cons c s =>
        refine List.dropWhile_cons_of_neg fun hc => ?_
        rw [isWord_iff] at hc
        exact (hend c rfl).elim hc.1 hc.2
    obtain ⟨c, w, rfl⟩ := List.exists_cons_of_ne_nil hw
    obtain ⟨h0, -, hsym⟩ := hall c List.mem_cons_self
    have hne : ∀ x ∈ symbols, c ≠ x := fun x hx heq => hsym (heq ▸ hx)
    rw [List.cons_append] at hdrop ⊢
    rw [Sh.scan, if_neg h0, if_neg (hne 124 (by decide)), if_neg (hne 40 (by decide)),
      if_neg (hne 41 (by decide)), if_neg (hne 59 (by decide)), if_neg (hne 38 (by decide)),
      if_neg (hne 60 (by decide)), if_neg (hne 62 (by decide)), hdrop]
    rfl

/-- **`gettoken` takes the first token off.** -/
theorem Lexes.gettoken (h : Lexes s (t :: ts)) : ∃ w s', Sh.gettoken s = .ok ((t.code, w), s') ∧
    Lexes s' ts ∧ ∀ w', t = .word w' → w' = w := by
  obtain ⟨s', hscan, hts, hw⟩ := h.skip.scan (trimmed_skip s)
  refine ⟨⟨Sh.skip s, s'⟩, Sh.skip s', ?_, hts.skip, hw⟩
  rw [Sh.gettoken, hscan]

theorem Lexes.gettoken_nil (h : Lexes s []) :
    ∃ w, Sh.gettoken s = .ok ((.eof, w), []) := by
  have hnil := (lexes_nil_iff (trimmed_skip s)).mp h.skip
  refine ⟨⟨[], []⟩, ?_⟩
  rw [Sh.gettoken, hnil]
  rfl

/-- The first byte of a symbol. -/
def Token.byte : Token → Option UInt8
  | bar => some 124
  | lpar => some 40
  | rpar => some 41
  | semi => some 59
  | amp => some 38
  | lt => some 60
  | gt | append => some 62
  | word _ => none

/-- The tokens start with one of some symbols. -/
def Starts (toks : List UInt8) (ts : List Token) : Prop :=
  ∃ c ∈ toks, ts.head?.bind Token.byte = some c

/-- The first byte tells the symbols apart. -/
theorem Lexes.head (hs : Trimmed s) (h : Lexes s (t :: ts)) :
    ∃ c s', s = c :: s' ∧ c ≠ 0 ∧ ∀ x ∈ symbols, c = x ↔ t.byte = some x := by
  cases h with
  | space hc _ => exact absurd hc (hs _ rfl)
  | @symbol c _ s' _ hsym _ =>
    refine ⟨c, s', rfl, by cases hsym <;> decide, fun x _ => ?_⟩
    cases hsym <;> simp [Token.byte]
  | append _ => exact ⟨62, _, rfl, by decide, fun x _ => by simp [Token.byte]⟩
  | gt _ _ => exact ⟨62, _, rfl, by decide, fun x _ => by simp [Token.byte]⟩
  | @word w s' _ hw hall _ _ =>
    obtain ⟨c, w, rfl⟩ := List.exists_cons_of_ne_nil hw
    obtain ⟨h0, -, hsym⟩ := hall c List.mem_cons_self
    refine ⟨c, w ++ s', rfl, h0, fun x hx => ⟨fun heq => absurd (heq ▸ hx) hsym, fun hb => ?_⟩⟩
    cases hb

/-- **`peek` looks at the first token.** -/
theorem Lexes.peek {toks : List UInt8} (h : Lexes s ts) (hsub : toks ⊆ symbols) :
    ∃ b s', Sh.peek toks s = .ok (b, s') ∧ Lexes s' ts ∧ (b = true ↔ Starts toks ts) := by
  refine ⟨_, Sh.skip s, rfl, h.skip, ?_⟩
  cases ts with
  | nil =>
    rw [(lexes_nil_iff (trimmed_skip s)).mp h.skip]
    simp [Starts]
  | cons t ts =>
    obtain ⟨c, s', heq, h0, hbyte⟩ := h.skip.head (trimmed_skip s)
    rw [heq]
    simp only [Bool.and_eq_true, bne_iff_ne, ne_eq, h0, not_false_eq_true, true_and, strchr_iff]
    constructor
    · intro hc
      exact ⟨c, hc, (hbyte c (hsub hc)).mp rfl⟩
    · rintro ⟨x, hx, hb⟩
      rwa [(hbyte x (hsub hx)).mpr hb]

/-! ### Every line is one sequence of tokens -/

theorem Lexes.length_le (h : Lexes s ts) : ts.length ≤ s.length := by
  induction h with
  | nil => exact Nat.le_refl _
  | space _ _ ih => exact Nat.le_succ_of_le ih
  | symbol _ _ ih => exact Nat.succ_le_succ ih
  | append _ ih =>
    simp only [List.length_cons]
    omega
  | gt _ _ ih => exact Nat.succ_le_succ ih
  | word hw _ _ _ ih =>
    have := List.length_pos_iff.mpr hw
    rw [List.length_append, List.length_cons]
    omega

theorem Token.ext_code {u : Token} {w : Slice} (hcode : t.code = u.code)
    (ht : ∀ w', t = .word w' → w' = w) (hu : ∀ w', u = .word w' → w' = w) : t = u := by
  cases t <;> cases u <;> first | rfl | rw [ht _ rfl, hu _ rfl] | cases hcode

theorem Lexes.unique (h : Lexes s ts) (h' : Lexes s ts') : ts = ts' := by
  induction ts generalizing s ts' with
  | nil =>
    cases ts' with
    | nil => rfl
    | cons t ts' =>
      obtain ⟨w, hg⟩ := h.gettoken_nil
      obtain ⟨w', s', hg', -⟩ := h'.gettoken
      rw [hg] at hg'
      cases t <;> cases hg'
  | cons t ts ih =>
    obtain ⟨w, s₁, hg, hts, hw⟩ := h.gettoken
    cases ts' with
    | nil =>
      obtain ⟨w', hg'⟩ := h'.gettoken_nil
      rw [hg] at hg'
      cases t <;> cases hg'
    | cons t' ts' =>
      obtain ⟨w', s₂, hg', hts', hw'⟩ := h'.gettoken
      rw [hg, Outcome.ok.injEq, Prod.mk.injEq, Prod.mk.injEq] at hg'
      obtain ⟨⟨hcode, rfl⟩, rfl⟩ := hg'
      rw [Token.ext_code hcode hw hw', ih hts hts']

theorem exists_lexes (h : (0 : UInt8) ∉ s) : ∃ ts, Lexes s ts := by
  induction hn : s.length using Nat.strongRecOn generalizing s with
  | _ n ih =>
    subst hn
    cases s with
    | nil => exact ⟨[], .nil⟩
    | cons c s =>
      rw [List.mem_cons, not_or] at h
      obtain ⟨ts, hts⟩ := ih s.length (Nat.lt_succ_self _) h.2 rfl
      by_cases hspace : c ∈ whitespace
      · exact ⟨ts, .space hspace hts⟩
      by_cases hsym : ∃ t, Symbol c t
      · obtain ⟨t, ht⟩ := hsym
        exact ⟨t :: ts, .symbol ht hts⟩
      by_cases hgt : c = 62
      · subst hgt
        by_cases hhead : s.head? = some 62
        · obtain ⟨s, rfl⟩ := List.head?_eq_some_iff.mp hhead
          obtain ⟨ts, hts⟩ := ih s.length (Nat.lt_add_of_pos_right (by decide : 0 < 2))
            (fun h0 => h.2 (List.mem_cons_of_mem _ h0)) rfl
          exact ⟨.append :: ts, .append hts⟩
        · exact ⟨.gt :: ts, .gt hhead hts⟩
      -- a word, and what follows it
      have hnot : c ∉ symbols := by
        intro hc
        simp only [symbols, List.mem_cons, List.not_mem_nil, or_false] at hc
        obtain rfl | rfl | rfl | rfl | rfl | rfl | rfl := hc
        · exact hsym ⟨_, .lt⟩
        · exact hsym ⟨_, .bar⟩
        · exact hgt rfl
        · exact hsym ⟨_, .amp⟩
        · exact hsym ⟨_, .semi⟩
        · exact hsym ⟨_, .lpar⟩
        · exact hsym ⟨_, .rpar⟩
      have hsplit := List.takeWhile_append_dropWhile (p := isWord) (l := s)
      have hmem : ∀ x ∈ s.dropWhile isWord, x ∈ s := fun x hx =>
        (List.dropWhile_sublist isWord).subset hx
      obtain ⟨ts, hts⟩ := ih (s.dropWhile isWord).length
        (Nat.lt_succ_of_le (List.dropWhile_sublist isWord).length_le)
        (fun h0 => h.2 (hmem 0 h0)) rfl
      have hlex := Lexes.word (w := c :: s.takeWhile isWord) (List.cons_ne_nil _ _) ?_ ?_ hts
      · rw [List.cons_append, hsplit] at hlex
        exact ⟨_, hlex⟩
      · intro x hx
        obtain rfl | hx := List.mem_cons.mp hx
        · exact ⟨fun h0 => h.1 h0.symm, hspace, hnot⟩
        · have hx0 : x ≠ 0 := fun h0 => h.2 (h0 ▸ (List.takeWhile_sublist isWord).subset hx)
          exact ⟨hx0, isWord_iff.mp (List.all_eq_true.mp List.all_takeWhile x hx)⟩
      · intro x hx
        have hnw := List.head?_dropWhile_not isWord s
        rw [hx] at hnw
        by_contra hor
        have hword := isWord_iff.mpr (not_or.mp hor)
        exact Bool.false_ne_true ((show isWord x = false from hnw).symm.trans hword)

end Lexes

end Xv6.Sh
