import Xv6.Grep.Match

/-!
# The lines `grep` prints

`grep` reads its input in pieces of whatever size `read` returns, into a buffer of 1024 bytes
that also holds the start of a line whose end has not come yet.  Each round prints the matching
lines that are complete, and moves the rest to the start of the buffer.

A line that fills the buffer leaves no room for another byte: `grep` then asks `read` for
no bytes, takes the 0 it returns for the end of the file, and stops.

## Main definitions

* `grep`, with its loops `scan` and `grepLoop` — the function of `user/grep.c`.
* `text`, `printed` — lines with their newlines, and what `grep` is to print of them.

## Main results

* `scan_spec` — one round consumes some lines, those that are complete, and prints the matching
  ones.
* `grep_prints_iff` — `grep` prints the matching lines and consumes its input exactly if every
  line fits in the buffer, however the input is split.
-/

namespace Xv6.Grep

def newline : UInt8 := 10 -- '\n'

/-- `sizeof(buf)`. -/
def bufsize : ℕ := 1024

/-! ### The code -/

/-- `strchr` from a place of a buffer on: how far away the character is. -/
def strchr (c : UInt8) : List UInt8 → Option ℕ
  | [] => none
  | x :: s => if x = 0 then none else if x = c then some 0 else (strchr c s).map (· + 1)

/-- The C string that starts a buffer. -/
def cstr (s : List UInt8) : List UInt8 := s.takeWhile (· ≠ 0)

/-- The inner loop of `grep`, from the place `p` of the buffer on: the buffer, the place where
the last line starts, and the output. -/
def scan (pattern : List UInt8) :
    ℕ → List UInt8 → ℕ → List UInt8 → Option (List UInt8 × ℕ × List UInt8)
  | 0, _, _, _ => none
  | fuel + 1, buf, p, out =>
    match strchr newline (buf.drop p) with
    | none => some (buf, p, out)
    | some k =>
      let q := p + k
      let buf := buf.set q 0
      if match' pattern (cstr (buf.drop p)) then
        let buf := buf.set q newline
        scan pattern fuel buf (q + 1) (out ++ (buf.drop p).take (q + 1 - p))
      else scan pattern fuel buf (q + 1) out

/-- `memmove(buf, p, m)` inside the buffer. -/
def move (buf : List UInt8) (p m : ℕ) : List UInt8 := (buf.drop p).take m ++ buf.drop m

/-- What `grep` works on. -/
structure St where
  buf : List UInt8
  m : ℕ -- how many bytes of the buffer are in use
  rest : List UInt8 -- the input that has not been read
  out : List UInt8
  deriving DecidableEq

/-- The result of the `i`-th `read`, for `k` bytes: nothing at the end of the input, and
otherwise as many bytes as the file gives, at least one of them if any is asked for. -/
def read (pick : ℕ → ℕ) (i k : ℕ) (rest : List UInt8) : ℕ :=
  if k = 0 ∨ rest = [] then 0 else max 1 (min (pick i) (min k rest.length))

/-- The buffer after a `read` of `n` bytes and the assignment to `buf[m]` that follows it. -/
def fill (s : St) (n : ℕ) : List UInt8 :=
  (s.buf.take s.m ++ s.rest.take n ++ s.buf.drop (s.m + n)).set (s.m + n) 0

/-- The outer loop of `grep`, before its `i`-th `read`. -/
def grepLoop (pattern : List UInt8) (pick : ℕ → ℕ) : ℕ → ℕ → St → Option St
  | 0, _, _ => none
  | fuel + 1, i, s =>
    let n := read pick i (bufsize - s.m - 1) s.rest
    if n = 0 then some s
    else do
      let m := s.m + n
      let (buf, p, out) ← scan pattern (bufsize + 1) (fill s n) 0 s.out
      if m > 0 then
        grepLoop pattern pick fuel (i + 1) ⟨move buf p (m - p), m - p, s.rest.drop n, out⟩
      else grepLoop pattern pick fuel (i + 1) ⟨buf, m, s.rest.drop n, out⟩

/-- `grep`, with what an earlier call left in the buffer. -/
def grep (pattern : List UInt8) (pick : ℕ → ℕ) (buf input : List UInt8) : Option St :=
  grepLoop pattern pick (input.length + 1) 0 ⟨buf, 0, input, []⟩

/-! ### Lines -/

/-- The characters of a line. -/
def Line (l : List UInt8) : Prop := ∀ x ∈ l, x ≠ 0 ∧ x ≠ newline

instance : DecidablePred Line := fun l => inferInstanceAs (Decidable (∀ x ∈ l, x ≠ 0 ∧ x ≠ newline))

/-- Lines, each with its newline. -/
def text (ls : List (List UInt8)) : List UInt8 := ls.flatMap (· ++ [newline])

/-- What `grep` is to print. -/
def printed (pattern : List UInt8) (ls : List (List UInt8)) : List UInt8 :=
  text (ls.filter (match' pattern))

variable (pattern : List UInt8) {pick : ℕ → ℕ} {l c rest tail : List UInt8} {ls : List (List UInt8)}

@[simp] theorem text_nil : text [] = [] := rfl

theorem text_cons : text (l :: ls) = l ++ newline :: text ls := by
  simp [text]

theorem text_append {ls' : List (List UInt8)} : text (ls ++ ls') = text ls ++ text ls' :=
  List.flatMap_append

theorem printed_append {ls' : List (List UInt8)} :
    printed pattern (ls ++ ls') = printed pattern ls ++ printed pattern ls' := by
  rw [printed, List.filter_append, text_append, printed, printed]

theorem strchr_of_line {junk : List UInt8} (hc : Line c) :
    strchr newline (c ++ 0 :: junk) = none := by
  induction c with
  | nil => rfl
  | cons x c ih =>
    obtain ⟨hzero, hnl⟩ := hc x List.mem_cons_self
    rw [List.cons_append, strchr, if_neg hzero, if_neg hnl,
      ih fun y hy => hc y (List.mem_cons_of_mem x hy)]
    rfl

theorem strchr_newline (hl : Line l) : strchr newline (l ++ newline :: rest) = some l.length := by
  induction l with
  | nil => rfl
  | cons x l ih =>
    obtain ⟨hzero, hnl⟩ := hl x List.mem_cons_self
    rw [List.cons_append, strchr, if_neg hzero, if_neg hnl,
      ih fun y hy => hl y (List.mem_cons_of_mem x hy)]
    rfl

theorem cstr_line (hl : Line l) : cstr (l ++ 0 :: rest) = l := by
  rw [cstr, List.takeWhile_append_of_pos fun x hx => decide_eq_true (hl x hx).1]
  simp

theorem set_after {pre : List UInt8} (v x : UInt8) :
    (pre ++ (l ++ x :: rest)).set (pre.length + l.length) v = pre ++ (l ++ v :: rest) := by
  simp

/-- The beginning of lines is the beginning of the first one, or goes past its end. -/
theorem text_split (h : c ++ tail = text (l :: ls)) :
    (∃ a, l = c ++ a ∧ tail = a ++ newline :: text ls) ∨
      ∃ c', c = l ++ newline :: c' ∧ c' ++ tail = text ls := by
  rw [text_cons] at h
  obtain ⟨a, hl, htail⟩ | ⟨b, hc, hb⟩ := List.append_eq_append_iff.mp h
  · exact .inl ⟨a, hl, htail⟩
  · cases b with
    | nil => exact .inl ⟨[], by rw [hc, List.append_nil, List.append_nil], hb.symm⟩
    | cons x c' =>
      obtain ⟨rfl, hrest⟩ := List.cons.inj hb
      exact .inr ⟨c', hc, hrest.symm⟩

/-- **One round.**  Of the lines the bytes `c` in the buffer begin, the round consumes those
that are complete and prints the matching ones; what is left has no newline. -/
theorem scan_spec (pre junk out : List UInt8) {fuel : ℕ} (hls : ∀ l ∈ ls, Line l)
    (hc : c ++ tail = text ls) (hfuel : c.length < fuel) :
    ∃ done left pre' c', ls = done ++ left ∧ c' ++ tail = text left ∧ Line c' ∧
      pre'.length + c'.length = pre.length + c.length ∧ (∀ l ∈ done, l.length < c.length) ∧
      scan pattern fuel (pre ++ (c ++ 0 :: junk)) pre.length out
        = some (pre' ++ (c' ++ 0 :: junk), pre'.length, out ++ printed pattern done) := by
  -- on the lines, of which the bytes in the buffer may begin fewer
  induction ls generalizing fuel pre c out with
  | nil =>
    obtain ⟨rfl, rfl⟩ := List.append_eq_nil_iff.mp hc
    obtain ⟨fuel, rfl⟩ := Nat.exists_eq_add_of_lt hfuel
    have hnil : Line [] := nofun
    refine ⟨[], [], pre, [], rfl, rfl, hnil, rfl, nofun, ?_⟩
    rw [scan, List.drop_left, strchr_of_line hnil]
    simp [printed]
  | cons l ls ih =>
    obtain ⟨fuel, rfl⟩ := Nat.exists_eq_succ_of_ne_zero (Nat.ne_zero_of_lt hfuel)
    have hl : Line l := hls l List.mem_cons_self
    obtain ⟨a, rfl, htail⟩ | ⟨c', rfl, hrest⟩ := text_split hc
    · -- the first line is not complete
      have hline : Line c := fun x hx => hl x (List.mem_append_left a hx)
      refine ⟨[], (c ++ a) :: ls, pre, c, rfl, hc, hline, rfl, nofun, ?_⟩
      rw [scan, List.drop_left, strchr_of_line hline]
      simp [printed]
    have hlen : (l ++ newline :: c').length = l.length + 1 + c'.length := by
      rw [List.length_append, List.length_cons]
      omega
    -- the first line is complete; the search goes on behind its newline
    have hrec : ∀ v out, ∃ done left pre' c'', ls = done ++ left ∧ c'' ++ tail = text left ∧
        Line c'' ∧ pre'.length + c''.length = pre.length + (l ++ newline :: c').length ∧
        (∀ l' ∈ done, l'.length < c'.length) ∧
        scan pattern fuel (pre ++ (l ++ v :: (c' ++ 0 :: junk))) (pre.length + l.length + 1) out
          = some (pre' ++ (c'' ++ 0 :: junk), pre'.length, out ++ printed pattern done) := by
      intro v out
      obtain ⟨done, left, pre', c'', hsplit, htext, hline, hsum, hdone, hscan⟩ :=
        ih (pre ++ l ++ [v]) out (fun l' hl' => hls l' (List.mem_cons_of_mem l hl'))
          hrest (show c'.length < fuel by omega)
      have hpre : (pre ++ l ++ [v]).length = pre.length + l.length + 1 := by
        rw [List.length_append, List.length_append, List.length_singleton]
      rw [hpre] at hsum hscan
      refine ⟨done, left, pre', c'', hsplit, htext, hline, by omega, hdone, ?_⟩
      rw [← hscan, List.append_assoc, List.append_assoc, List.singleton_append]
    have hlt : ∀ {done : List (List UInt8)}, (∀ l' ∈ done, l'.length < c'.length) →
        ∀ l' ∈ l :: done, l'.length < (l ++ newline :: c').length := by
      intro done hdone l' hl'
      obtain rfl | hl' := List.mem_cons.mp hl'
      · omega
      · have := hdone l' hl'
        omega
    rw [scan, List.append_assoc, List.cons_append, List.drop_left, strchr_newline hl]
    dsimp only
    rw [set_after, List.drop_left, cstr_line hl, set_after]
    by_cases hmatch : match' pattern l = true
    · -- the line is printed, with the newline put back in place of the NUL
      obtain ⟨done, left, pre', c'', hsplit, htext, hline, hsum, hdone, hscan⟩ :=
        hrec newline (out ++ (l ++ [newline]))
      refine ⟨l :: done, left, pre', c'', congrArg (l :: ·) hsplit, htext, hline, hsum,
        hlt hdone, ?_⟩
      have htake : (l ++ newline :: (c' ++ 0 :: junk)).take (pre.length + l.length + 1 - pre.length)
          = l ++ [newline] := by
        rw [show pre.length + l.length + 1 - pre.length = l.length + 1 by omega,
          List.take_length_add_append]
        rfl
      have hprinted : printed pattern (l :: done) = l ++ [newline] ++ printed pattern done := by
        rw [printed, List.filter_cons_of_pos hmatch, text_cons, printed]
        simp
      rw [if_pos hmatch, List.drop_left, htake, hscan, hprinted, List.append_assoc out]
    · -- no match: the NUL that ended the line stays in the buffer
      obtain ⟨done, left, pre', c'', hsplit, htext, hline, hsum, hdone, hscan⟩ := hrec 0 out
      refine ⟨l :: done, left, pre', c'', congrArg (l :: ·) hsplit, htext, hline, hsum,
        hlt hdone, ?_⟩
      rw [if_neg hmatch, hscan, printed, printed, List.filter_cons_of_neg hmatch]

/-! ### The rounds -/

theorem read_eq_zero_iff {i k : ℕ} : read pick i k rest = 0 ↔ k = 0 ∨ rest = [] := by
  unfold read
  by_cases h : k = 0 ∨ rest = []
  · rw [if_pos h]
    exact ⟨fun _ => h, fun _ => rfl⟩
  · rw [if_neg h]
    exact ⟨fun h0 => by omega, fun h' => absurd h' h⟩

theorem read_le {i k : ℕ} : read pick i k rest ≤ k ∧ read pick i k rest ≤ rest.length := by
  unfold read
  by_cases h : k = 0 ∨ rest = []
  · rw [if_pos h]
    exact ⟨Nat.zero_le _, Nat.zero_le _⟩
  · rw [if_neg h]
    obtain ⟨hk, hrest⟩ := not_or.mp h
    have hpos : 0 < rest.length := List.length_pos_iff.mpr hrest
    omega

/-- Before a round: the buffer holds the beginning of a line, and the lines `ls` are to come. -/
structure Ready (ls : List (List UInt8)) (s : St) : Prop where
  length : s.buf.length = bufsize
  room : s.m < bufsize
  line : Line (s.buf.take s.m)
  text : s.buf.take s.m ++ s.rest = text ls

theorem Ready.round {s : St} {n : ℕ} (h : Ready ls s) (hls : ∀ l ∈ ls, Line l)
    (hroom : s.m + n < bufsize) (hrest : n ≤ s.rest.length) :
    ∃ done left buf p, ls = done ++ left ∧ (∀ l ∈ done, l.length + 1 < bufsize) ∧
      scan pattern (bufsize + 1) (fill s n) 0 s.out
        = some (buf, p, s.out ++ printed pattern done) ∧
      Ready left ⟨move buf p (s.m + n - p), s.m + n - p, s.rest.drop n,
        s.out ++ printed pattern done⟩ := by
  have htake : (s.buf.take s.m ++ s.rest.take n).length = s.m + n := by
    rw [List.length_append, List.length_take_of_le (by have := h.length; omega),
      List.length_take_of_le hrest]
  obtain ⟨x, junk, hdrop⟩ : ∃ x junk, s.buf.drop (s.m + n) = x :: junk :=
    List.exists_cons_of_length_pos (by rw [List.length_drop, h.length]; omega)
  have hjunk : junk.length + 1 = bufsize - (s.m + n) := by
    rw [← h.length, ← List.length_drop, hdrop, List.length_cons]
  have hfill : fill s n = [] ++ (s.buf.take s.m ++ s.rest.take n ++ 0 :: junk) := by
    rw [fill, hdrop, ← htake, List.set_append_right _ _ (Nat.le_refl _), Nat.sub_self]
    rfl
  have htext : s.buf.take s.m ++ s.rest.take n ++ s.rest.drop n = Grep.text ls := by
    rw [List.append_assoc, List.take_append_drop, h.text]
  obtain ⟨done, left, pre, c, hsplit, hleft, hline, hsum, hdone, hscan⟩ :=
    scan_spec pattern [] junk s.out hls htext
      (show _ < bufsize + 1 by omega)
  rw [htake, List.length_nil, Nat.zero_add] at hsum
  rw [htake] at hdone
  refine ⟨done, left, pre ++ (c ++ 0 :: junk), pre.length, hsplit, fun l hl => ?_, ?_, ?_⟩
  · have := hdone l hl
    omega
  · rw [hfill]
    exact hscan
  -- the beginning of the line that is left is moved to the start of the buffer
  have hm : s.m + n - pre.length = c.length := by omega
  have hmove : move (pre ++ (c ++ 0 :: junk)) pre.length c.length
      = c ++ (pre ++ (c ++ 0 :: junk)).drop c.length := by
    rw [move, List.drop_left, List.take_left]
  rw [hm, hmove]
  refine ⟨?_, by change c.length < bufsize; omega, ?_, ?_⟩
  · rw [List.length_append, List.length_drop, List.length_append, List.length_append,
      List.length_cons]
    omega
  · change Line (List.take c.length _)
    rw [List.take_left]
    exact hline
  · change List.take c.length _ ++ _ = _
    rw [List.take_left]
    exact hleft

/-- If `read` returns nothing, all lines are consumed, or the first of those that are left does
not fit in the buffer. -/
theorem Ready.stop {s : St} (h : Ready ls s) (hread : bufsize - s.m - 1 = 0 ∨ s.rest = []) :
    ls = [] ∧ s.rest = [] ∨ s.rest ≠ [] ∧ ∃ l ∈ ls, bufsize ≤ l.length + 1 := by
  have htext := h.text
  cases ls with
  | nil =>
    rw [text_nil, List.append_eq_nil_iff] at htext
    exact .inl ⟨rfl, htext.2⟩
  | cons l ls =>
    obtain ⟨a, rfl, hrest⟩ | ⟨c', hc, -⟩ := text_split htext
    · -- the beginning of a line fills the buffer, and the rest of it is to come
      have hne : s.rest ≠ [] := by
        rw [hrest]
        exact List.append_ne_nil_of_right_ne_nil a (List.cons_ne_nil _ _)
      refine .inr ⟨hne, _, List.mem_cons_self, ?_⟩
      have hfull := hread.resolve_right hne
      have hlen := h.length
      have hm := h.room
      rw [List.length_append, List.length_take_of_le (by omega)]
      omega
    · -- the buffer has no newline
      have hmem : newline ∈ s.buf.take s.m := by
        rw [hc]
        exact List.mem_append_right l List.mem_cons_self
      exact absurd rfl (h.line newline hmem).2

/-- **The rounds.**  With fuel for the input, `grep` stops; it has printed the matching lines
among those it consumed, all of which fit in the buffer. -/
theorem Ready.grepLoop {s : St} {fuel : ℕ} (i : ℕ) (h : Ready ls s) (hls : ∀ l ∈ ls, Line l)
    (hfuel : s.rest.length < fuel) :
    ∃ s' done left, grepLoop pattern pick fuel i s = some s' ∧ ls = done ++ left ∧
      s'.out = s.out ++ printed pattern done ∧ (∀ l ∈ done, l.length + 1 < bufsize) ∧
      (left = [] ∧ s'.rest = [] ∨ s'.rest ≠ [] ∧ ∃ l ∈ left, bufsize ≤ l.length + 1) := by
  induction fuel generalizing s ls i with
  | zero => exact absurd hfuel (Nat.not_lt_zero _)
  | succ fuel ih =>
    rw [Grep.grepLoop]
    dsimp only
    by_cases hread : read pick i (bufsize - s.m - 1) s.rest = 0
    · -- `read` returns 0
      rw [if_pos hread]
      refine ⟨s, [], ls, rfl, rfl, (List.append_nil _).symm, nofun, ?_⟩
      exact h.stop (read_eq_zero_iff.mp hread)
    rw [if_neg hread]
    obtain ⟨hk, hrest⟩ := @read_le pick s.rest i (bufsize - s.m - 1)
    generalize read pick i (bufsize - s.m - 1) s.rest = n at hread hk hrest
    obtain ⟨done, left, buf, p, rfl, hfit, hscan, hready⟩ :=
      h.round pattern hls (by have := h.room; omega) hrest
    rw [hscan]
    dsimp only [bind, Option.bind]
    rw [if_pos (by omega)]
    obtain ⟨s', done', left', hloop, rfl, hout, hfit', hend⟩ :=
      ih (i + 1) hready (fun l hl => hls l (List.mem_append_right done hl))
        (by rw [List.length_drop]; omega)
    refine ⟨s', done ++ done', left', hloop, (List.append_assoc _ _ _).symm, ?_, ?_, hend⟩
    · rw [hout, printed_append, List.append_assoc]
    · intro l hl
      obtain hl | hl := List.mem_append.mp hl
      · exact hfit l hl
      · exact hfit' l hl

/-- **`grep` prints the matching lines, and consumes its input, exactly if every line fits in the
buffer with its newline and a NUL.**  This is so for every pattern, however `read` splits the
input, and whatever the buffer held before. -/
theorem grep_prints_iff (pattern : List UInt8) (pick : ℕ → ℕ) (buf : List UInt8)
    (ls : List (List UInt8)) (hbuf : buf.length = bufsize) (hls : ∀ l ∈ ls, Line l) :
    ∃ s, grep pattern pick buf (text ls) = some s ∧
      (s.out = printed pattern ls ∧ s.rest = [] ↔ ∀ l ∈ ls, l.length + 1 < bufsize) := by
  have hready : Ready ls ⟨buf, 0, text ls, []⟩ :=
    ⟨hbuf, Nat.zero_lt_succ _, nofun, rfl⟩
  obtain ⟨s, done, left, hgrep, rfl, hout, hfit, hend⟩ :=
    hready.grepLoop pattern 0 hls (Nat.lt_succ_self _)
  refine ⟨s, hgrep, ?_⟩
  obtain ⟨rfl, hrest⟩ | ⟨hrest, l, hl, hlong⟩ := hend
  · -- all lines were consumed
    rw [List.append_nil]
    exact ⟨fun _ => hfit, fun _ => ⟨hout, hrest⟩⟩
  · -- a line that does not fit stopped the loop
    refine ⟨fun h => absurd h.2 hrest, fun h => ?_⟩
    exact absurd (h l (List.mem_append_right done hl)) (Nat.not_lt.mpr hlong)

/-- Two short lines, one of which matches. -/
theorem grep_prints_ab : ∃ s, grep [97] (fun _ => 1) (List.replicate bufsize 0) (text [[97], [98]])
    = some s ∧ s.out = [97, newline] ∧ s.rest = [] := by
  obtain ⟨s, hgrep, hiff⟩ := grep_prints_iff [97] (fun _ => 1) (List.replicate bufsize 0)
    [[97], [98]] List.length_replicate (by decide +kernel)
  exact ⟨s, hgrep, hiff.mpr (by decide +kernel)⟩

/-- A line of 1023 characters, which the pattern matches, is not printed, nor is the line after
it. -/
theorem grep_stops_at_long_line :
    (grep [97] (fun _ => bufsize) (List.replicate bufsize 0)
        (text [List.replicate 1023 97, [97]])).map (fun s => (s.out, s.rest))
      = some ([], [newline, 97, newline]) := by
  decide +kernel

end Xv6.Grep
