import Mathlib.Data.BitVec
import Mathlib.Data.Nat.Digits.Lemmas

/-!
# The user library's `printf`

`vprintf` goes through its format a character at a time; a percent sign puts it in a state in
which the next character is a directive.  Numbers are printed by `printint`, which takes an
`int`, or by `printptr`.

What is to be printed is said without the state machine: a format is a list of pieces, and
each piece expands to a text.  The two agree except for `%l`, whose 64-bit argument is
narrowed to an `int` when it is passed to `printint`.

## Main definitions

* `printint`, `printptr`, `directive`, `vprintf` — the functions of `user/printf.c`, without the
  file descriptor: what they write.
* `Piece`, `pieces`, `expected` — what is to be written.
* `longsFit` — the arguments of all `%l` are below `2 ^ 32`.

## Main results

* `printint_true`, `printint_false` — the numeral is canonical, and the buffer is not overrun.
* `vprintf_iff` — `vprintf` writes what is to be written exactly if the arguments of all `%l` are
  below `2 ^ 32`.
-/

namespace Xv6.Libc

/-- The code of a character. -/
def code (c : Char) : UInt8 := c.toUInt8

/-! ### The code -/

/-- `digits`. -/
def digits : List UInt8 := "0123456789ABCDEF".toList.map code

/-- `digits[k]`. -/
def digit (k : ℕ) : UInt8 := digits.getD k 0

/-- The loop of `printint` that writes the digits of `x` to the buffer, the lowest first, as
long as there is room in it; a store after the end is none. -/
def digitLoop (base : BitVec 32) : ℕ → List UInt8 → BitVec 32 → Option (List UInt8)
  | 0, _, _ => none
  | room + 1, buf, x =>
    let buf := buf ++ [digit (x % base).toNat]
    if x / base ≠ 0 then digitLoop base room buf (x / base) else some buf

/-- `printint`; its buffer has 16 bytes. -/
def printint (xx : BitVec 32) (base : BitVec 32) (sgn : Bool) : Option (List UInt8) := do
  let neg := sgn && xx.toInt < 0
  let x := if neg then -xx else xx
  let buf ← digitLoop base 16 [] x
  let buf ← if neg then if buf.length < 16 then some (buf ++ [code '-']) else none else some buf
  return buf.reverse

/-- The loop of `printptr`. -/
def ptrLoop : ℕ → BitVec 64 → List UInt8
  | 0, _ => []
  | n + 1, x => digit (x >>> 60).toNat :: ptrLoop n (x <<< 4)

/-- `printptr`. -/
def printptr (x : BitVec 64) : List UInt8 := code '0' :: code 'x' :: ptrLoop 16 x

/-- An argument. -/
inductive Arg
  | int (v : BitVec 32) -- an `int` or `uint`
  | uint64 (v : BitVec 64)
  | str (s : Option (List UInt8)) -- a pointer to a string, or a null pointer
  deriving DecidableEq

/-- `va_arg(ap, int)`, or of a `uint`. -/
def vaInt : List Arg → Option (BitVec 32 × List Arg)
  | .int v :: ap => some (v, ap)
  | _ => none

/-- `va_arg(ap, uint64)`. -/
def vaUint64 : List Arg → Option (BitVec 64 × List Arg)
  | .uint64 v :: ap => some (v, ap)
  | _ => none

/-- `va_arg(ap, char*)`. -/
def vaStr : List Arg → Option (Option (List UInt8) × List Arg)
  | .str s :: ap => some (s, ap)
  | _ => none

/-- `"(null)"`. -/
def null : List UInt8 := "(null)".toList.map code

/-- The body of the loop of `vprintf` after a percent sign. -/
def directive (c : UInt8) (ap : List Arg) : Option (List UInt8 × List Arg) :=
  if c = code 'd' then do
    let (v, ap) ← vaInt ap
    return (← printint v 10 true, ap)
  else if c = code 'l' then do
    let (v, ap) ← vaUint64 ap
    -- the parameter of `printint` is an `int`
    return (← printint (v.setWidth 32) 10 false, ap)
  else if c = code 'x' then do
    let (v, ap) ← vaInt ap
    return (← printint v 16 false, ap)
  else if c = code 'p' then do
    let (v, ap) ← vaUint64 ap
    return (printptr v, ap)
  else if c = code 's' then do
    let (s, ap) ← vaStr ap
    return (s.getD null, ap)
  else if c = code 'c' then do
    let (v, ap) ← vaInt ap
    return ([⟨v.setWidth 8⟩], ap)
  else if c = code '%' then some ([c], ap)
  else some ([code '%', c], ap)

/-- The variable `state` of `vprintf`. -/
inductive State
  | text -- 0
  | percent -- '%'
  deriving DecidableEq

/-- The loop of `vprintf` from a place of the format on: what it writes. -/
def vprintfLoop : State → List UInt8 → List Arg → Option (List UInt8)
  | _, [], _ => some []
  | .text, c :: fmt, ap =>
    if c = code '%' then vprintfLoop .percent fmt ap
    else do return c :: (← vprintfLoop .text fmt ap)
  | .percent, c :: fmt, ap => do
    let (s, ap) ← directive c ap
    return s ++ (← vprintfLoop .text fmt ap)

/-- `vprintf`. -/
def vprintf (fmt : List UInt8) (ap : List Arg) : Option (List UInt8) := vprintfLoop .text fmt ap

/-! ### What is to be written -/

/-- The canonical numeral of a number. -/
def numeral (b n : ℕ) : List UInt8 :=
  if n = 0 then [digit 0] else ((Nat.digits b n).map digit).reverse

/-- The canonical decimal of an `int`. -/
def decimal (z : ℤ) : List UInt8 :=
  if z < 0 then code '-' :: numeral 10 z.natAbs else numeral 10 z.natAbs

/-- A pointer, with all its sixteen digits. -/
def pointer (n : ℕ) : List UInt8 :=
  code '0' :: code 'x' :: (List.range 16).map fun i => digit (n / 16 ^ (15 - i) % 16)

/-- A piece of a format. -/
inductive Piece
  | lit (c : UInt8)
  | dec -- %d
  | long -- %l
  | hex -- %x
  | ptr -- %p
  | str -- %s
  | chr -- %c
  | percent -- %%
  | other (c : UInt8) -- a percent sign and any other character
  | lone -- a percent sign at the end
  deriving DecidableEq

/-- The directive that a character after a percent sign stands for. -/
def Piece.ofCode (c : UInt8) : Piece :=
  if c = code 'd' then .dec
  else if c = code 'l' then .long
  else if c = code 'x' then .hex
  else if c = code 'p' then .ptr
  else if c = code 's' then .str
  else if c = code 'c' then .chr
  else if c = code '%' then .percent
  else .other c

/-- The pieces of a format. -/
def pieces : List UInt8 → List Piece
  | [] => []
  | [c] => if c = code '%' then [.lone] else [.lit c]
  | c :: d :: fmt =>
    if c = code '%' then .ofCode d :: pieces fmt else .lit c :: pieces (d :: fmt)

/-- What a piece expands to, and the arguments it leaves; none if the next argument is not one
for it. -/
def Piece.expand : Piece → List Arg → Option (List UInt8 × List Arg)
  | .lit c, ap => some ([c], ap)
  | .dec, .int v :: ap => some (decimal v.toInt, ap)
  | .long, .uint64 v :: ap => some (numeral 10 v.toNat, ap)
  | .hex, .int v :: ap => some (numeral 16 v.toNat, ap)
  | .ptr, .uint64 v :: ap => some (pointer v.toNat, ap)
  | .str, .str s :: ap => some (s.getD null, ap)
  | .chr, .int v :: ap => some ([UInt8.ofNat v.toNat], ap)
  | .percent, ap => some ([code '%'], ap)
  | .other c, ap => some ([code '%', c], ap)
  | .lone, ap => some ([], ap)
  | _, _ => none

/-- What a format and its arguments expand to; none if the arguments do not match the
format. -/
def expected : List Piece → List Arg → Option (List UInt8)
  | [], _ => some []
  | p :: ps, ap => do
    let (s, ap) ← p.expand ap
    return s ++ (← expected ps ap)

/-- The argument of a `%l` is below `2 ^ 32`. -/
def Piece.longFits : Piece → List Arg → Bool
  | .long, .uint64 v :: _ => v.toNat < 2 ^ 32
  | _, _ => true

/-- The arguments of all `%l` are below `2 ^ 32`. -/
def longsFit : List Piece → List Arg → Bool
  | [], _ => true
  | p :: ps, ap =>
    p.longFits ap &&
      match p.expand ap with
      | some (_, ap) => longsFit ps ap
      | none => true

/-! ### Numbers -/

variable {b n : ℕ} {base x : BitVec 32} {buf : List UInt8}

/-- The digits of a numeral, the lowest first. -/
def lowFirst (b n : ℕ) : List ℕ := if n = 0 then [0] else Nat.digits b n

theorem numeral_eq : numeral b n = ((lowFirst b n).map digit).reverse := by
  unfold numeral lowFirst
  by_cases hn : n = 0
  · rw [if_pos hn, if_pos hn]
    rfl
  · rw [if_neg hn, if_neg hn]

theorem lowFirst_eq (hb : 1 < b) :
    lowFirst b n = n % b :: if n / b = 0 then [] else lowFirst b (n / b) := by
  unfold lowFirst
  by_cases hn : n = 0
  · rw [if_pos hn, hn, Nat.zero_mod, Nat.zero_div, if_pos rfl]
  · rw [if_neg hn, Nat.digits_def' hb (Nat.pos_of_ne_zero hn)]
    by_cases hdiv : n / b = 0
    · rw [if_pos hdiv, hdiv, Nat.digits_zero]
    · rw [if_neg hdiv, if_neg hdiv]

theorem length_lowFirst_le (hb : 10 ≤ b) (hn : n < 2 ^ 32) : (lowFirst b n).length ≤ 10 := by
  unfold lowFirst
  by_cases h : n = 0
  · rw [if_pos h]
    exact Nat.le_add_left 1 9
  · rw [if_neg h, Nat.digits_length_le_iff (by omega)]
    calc n < 10 ^ 10 := by omega
      _ ≤ b ^ 10 := Nat.pow_le_pow_left hb 10

theorem digitLoop_eq {room : ℕ} (hb : 1 < base.toNat)
    (hroom : (lowFirst base.toNat x.toNat).length ≤ room) :
    digitLoop base room buf x = some (buf ++ (lowFirst base.toNat x.toNat).map digit) := by
  induction room generalizing buf x with
  | zero =>
    rw [lowFirst_eq hb] at hroom
    exact absurd hroom (Nat.not_succ_le_zero _)
  | succ room ih =>
    have hzero : x / base = 0 ↔ x.toNat / base.toNat = 0 := by
      rw [← BitVec.toNat_inj, BitVec.toNat_udiv]
      rfl
    rw [lowFirst_eq hb] at hroom ⊢
    rw [digitLoop, BitVec.toNat_umod]
    by_cases hdiv : x / base = 0
    · rw [if_neg (not_not.mpr hdiv), if_pos (hzero.mp hdiv)]
      rfl
    · rw [if_neg (mt hzero.mpr hdiv), List.length_cons, Nat.add_le_add_iff_right,
        ← BitVec.toNat_udiv] at hroom
      rw [if_pos hdiv, if_neg (mt hzero.mpr hdiv), ih hroom, BitVec.toNat_udiv, List.append_assoc]
      rfl

theorem printint_false (hb : 10 ≤ base.toNat) :
    printint x base false = some (numeral base.toNat x.toNat) := by
  have hlen := length_lowFirst_le hb x.isLt
  rw [printint, Bool.false_and, if_neg Bool.false_ne_true, digitLoop_eq (by omega) (by omega),
    numeral_eq]
  rfl

/-- A negative number is negated, also the least one. -/
theorem printint_true : printint x 10 true = some (decimal x.toInt) := by
  have hten : (10 : BitVec 32).toNat = 10 := rfl
  rw [printint, Bool.true_and, decimal]
  by_cases hneg : x.toInt < 0
  · have hnat : x.toInt.natAbs = (-x).toNat := by
      rw [BitVec.toInt_eq_toNat_cond] at hneg ⊢
      rw [BitVec.toNat_neg]
      omega
    have hlen := @length_lowFirst_le 10 (-x).toNat (Nat.le_refl 10) (-x).isLt
    rw [if_pos hneg, decide_eq_true hneg, if_pos rfl,
      digitLoop_eq (by omega) (by rw [hten]; omega), hten, hnat, numeral_eq]
    simp only [Option.bind_eq_bind, Option.bind_some, List.nil_append, List.length_map,
      if_pos (show (lowFirst 10 (-x).toNat).length < 16 by omega), ↓reduceIte, List.reverse_append,
      Option.pure_def, List.reverse_singleton, List.singleton_append]
  · have hnat : x.toInt.natAbs = x.toNat := by
      rw [BitVec.toInt_eq_toNat_cond] at hneg ⊢
      omega
    rw [if_neg hneg, decide_eq_false hneg, hnat]
    exact printint_false (Nat.le_refl 10)

/-! ### Pointers -/

theorem shift_digit {i : ℕ} (v : BitVec 64) (hi : i < 16) :
    ((v <<< (4 * i)) >>> 60).toNat = v.toNat / 16 ^ (15 - i) % 16 := by
  have hsplit : 2 ^ 64 = 2 ^ (4 * i) * (2 ^ (60 - 4 * i) * 16) := by
    rw [show (16 : ℕ) = 2 ^ 4 from rfl, ← Nat.pow_add, ← Nat.pow_add]
    congr 1
    omega
  have hhigh : 2 ^ 60 = 2 ^ (4 * i) * 2 ^ (60 - 4 * i) := by
    rw [← Nat.pow_add]
    congr 1
    omega
  have hbase : 16 ^ (15 - i) = 2 ^ (60 - 4 * i) := by
    rw [show (16 : ℕ) = 2 ^ 4 from rfl, ← Nat.pow_mul]
    congr 1
    omega
  rw [BitVec.toNat_ushiftRight, BitVec.toNat_shiftLeft, Nat.shiftLeft_eq, Nat.shiftRight_eq_div_pow,
    hsplit, hhigh, hbase, Nat.mul_comm v.toNat, Nat.mul_mod_mul_left,
    Nat.mul_div_mul_left _ _ (Nat.two_pow_pos _), Nat.mod_mul_right_div_self]

theorem ptrLoop_eq {i k : ℕ} (v : BitVec 64) (hk : i + k = 16) :
    ptrLoop k (v <<< (4 * i))
      = (List.range' i k).map fun j => digit (v.toNat / 16 ^ (15 - j) % 16) := by
  induction k generalizing i with
  | zero => rfl
  | succ k ih =>
    rw [ptrLoop, shift_digit v (by omega), ← BitVec.shiftLeft_add,
      show 4 * i + 4 = 4 * (i + 1) by omega, ih (by omega)]
    rfl

theorem printptr_eq (v : BitVec 64) : printptr v = pointer v.toNat := by
  have hloop : ptrLoop 16 (v <<< (4 * 0)) = _ := ptrLoop_eq v (Nat.zero_add 16)
  rw [Nat.mul_zero, BitVec.shiftLeft_zero] at hloop
  rw [printptr, pointer, hloop, List.range_eq_range']

/-! ### Directives -/

theorem length_numeral_le {m : ℕ} (h : m ≤ n) : (numeral b m).length ≤ (numeral b n).length := by
  have hdigits := Nat.le_length_digits_le b m n h
  rw [numeral_eq, numeral_eq, List.length_reverse, List.length_reverse, List.length_map,
    List.length_map]
  unfold lowFirst
  by_cases hm : m = 0
  · rw [if_pos hm]
    by_cases hn : n = 0
    · rw [if_pos hn]
    · rw [if_neg hn]
      exact List.length_pos_iff.mpr (Nat.digits_ne_nil_iff_ne_zero.mpr hn)
  · rw [if_neg hm, if_neg (show n ≠ 0 by omega)]
    exact hdigits

/-- A decimal numeral, read back. -/
theorem ofDigits_numeral (n : ℕ) :
    Nat.ofDigits 10 ((numeral 10 n).reverse.map fun c => c.toNat - 48) = n := by
  have hdigit : ∀ k < 10, (digit k).toNat - 48 = k := by decide
  have hlow : ∀ k ∈ lowFirst 10 n, k < 10 := by
    intro k hk
    unfold lowFirst at hk
    by_cases hn : n = 0
    · rw [if_pos hn, List.mem_singleton] at hk
      omega
    · rw [if_neg hn] at hk
      exact Nat.digits_lt_base (by omega) hk
  have hmap : (lowFirst 10 n).map ((fun c : UInt8 => c.toNat - 48) ∘ digit) = lowFirst 10 n :=
    (List.map_congr_left fun k hk => hdigit k (hlow k hk)).trans (List.map_id' _)
  rw [numeral_eq, List.reverse_reverse, List.map_map, hmap]
  unfold lowFirst
  by_cases hn : n = 0
  · rw [if_pos hn, hn]
    rfl
  · rw [if_neg hn, Nat.ofDigits_digits]

theorem numeral_inj {m : ℕ} : numeral 10 m = numeral 10 n ↔ m = n := by
  refine ⟨fun h => ?_, congrArg _⟩
  rw [← ofDigits_numeral m, h, ofDigits_numeral]

/-- What a `%l` writes is the numeral of the low half of its argument. -/
theorem long_spec (v : BitVec 64) :
    printint (v.setWidth 32) 10 false = some (numeral 10 (v.toNat % 2 ^ 32)) ∧
      (numeral 10 (v.toNat % 2 ^ 32)).length ≤ (numeral 10 v.toNat).length ∧
      (numeral 10 (v.toNat % 2 ^ 32) = numeral 10 v.toNat ↔ v.toNat < 2 ^ 32) := by
  refine ⟨?_, length_numeral_le (Nat.mod_le _ _), numeral_inj.trans (by omega)⟩
  rw [← BitVec.toNat_setWidth]
  exact printint_false (Nat.le_refl 10)

/-- **A directive.**  With a matching argument, a directive writes something, which is no longer
than what it is to write, and the same if it is not a `%l` whose argument is too large. -/
theorem directive_spec {c : UInt8} {ap ap' : List Arg} {s : List UInt8}
    (h : (Piece.ofCode c).expand ap = some (s, ap')) :
    ∃ o, directive c ap = some (o, ap') ∧ o.length ≤ s.length ∧
      (o = s ↔ (Piece.ofCode c).longFits ap = true) := by
  unfold directive
  unfold Piece.ofCode at h ⊢
  split_ifs at h ⊢ with hd hl hx hp hs hc hpercent
  · obtain _ | ⟨⟨v⟩ | ⟨v⟩ | ⟨v⟩, ap⟩ := ap <;> cases h
    refine ⟨_, ?_, Nat.le_refl _, fun _ => rfl, fun _ => rfl⟩
    change (do return (← printint v 10 true, ap')) = _
    rw [printint_true]
    rfl
  · -- the argument is narrowed
    obtain _ | ⟨⟨v⟩ | ⟨v⟩ | ⟨v⟩, ap⟩ := ap <;> cases h
    obtain ⟨hprint, hlen, hiff⟩ := long_spec v
    refine ⟨_, ?_, hlen, hiff.trans decide_eq_true_iff.symm⟩
    change (do return (← printint (v.setWidth 32) 10 false, ap')) = _
    rw [hprint]
    rfl
  · obtain _ | ⟨⟨v⟩ | ⟨v⟩ | ⟨v⟩, ap⟩ := ap <;> cases h
    refine ⟨_, ?_, Nat.le_refl _, fun _ => rfl, fun _ => rfl⟩
    change (do return (← printint v 16 false, ap')) = _
    rw [printint_false (show 10 ≤ (16 : BitVec 32).toNat by decide)]
    rfl
  · obtain _ | ⟨⟨v⟩ | ⟨v⟩ | ⟨v⟩, ap⟩ := ap <;> cases h
    refine ⟨_, ?_, Nat.le_refl _, fun _ => rfl, fun _ => rfl⟩
    change some (printptr v, ap') = _
    rw [printptr_eq]
  · obtain _ | ⟨⟨v⟩ | ⟨v⟩ | ⟨v⟩, ap⟩ := ap <;> cases h
    exact ⟨_, rfl, Nat.le_refl _, fun _ => rfl, fun _ => rfl⟩
  · obtain _ | ⟨⟨v⟩ | ⟨v⟩ | ⟨v⟩, ap⟩ := ap <;> cases h
    exact ⟨_, rfl, Nat.le_refl _, fun _ => rfl, fun _ => rfl⟩
  · cases h
    exact ⟨_, by rw [hpercent], Nat.le_refl _, fun _ => rfl, fun _ => rfl⟩
  · cases h
    exact ⟨_, rfl, Nat.le_refl _, fun _ => rfl, fun _ => rfl⟩

/-! ### The format -/

theorem append_eq_iff_of_length_le {α : Type} {a b c d : List α} (hac : a.length ≤ c.length)
    (hbd : b.length ≤ d.length) : a ++ b = c ++ d ↔ a = c ∧ b = d := by
  refine ⟨fun h => List.append_inj h ?_, fun ⟨ha, hb⟩ => by rw [ha, hb]⟩
  have hlen := congrArg List.length h
  rw [List.length_append, List.length_append] at hlen
  omega

theorem expected_cons {p : Piece} {ps : List Piece} {ap : List Arg} {e : List UInt8}
    (h : expected (p :: ps) ap = some e) : ∃ s ap' e', p.expand ap = some (s, ap') ∧
      expected ps ap' = some e' ∧ e = s ++ e' := by
  obtain ⟨⟨s, ap'⟩, hp, h⟩ := Option.bind_eq_some_iff.mp h
  obtain ⟨e', he', h⟩ := Option.bind_eq_some_iff.mp h
  exact ⟨s, ap', e', hp, he', (Option.some.inj h).symm⟩

theorem longsFit_cons {p : Piece} {ps : List Piece} {ap ap' : List Arg} {s : List UInt8}
    (h : p.expand ap = some (s, ap')) :
    longsFit (p :: ps) ap = true ↔ p.longFits ap = true ∧ longsFit ps ap' = true := by
  rw [longsFit, h, Bool.and_eq_true]

/-- The loop, from a place of the format on. -/
theorem vprintfLoop_spec (fmt : List UInt8) {ap : List Arg} {e : List UInt8}
    (h : expected (pieces fmt) ap = some e) :
    ∃ o, vprintfLoop .text fmt ap = some o ∧ o.length ≤ e.length ∧
      (o = e ↔ longsFit (pieces fmt) ap = true) := by
  induction fmt using pieces.induct generalizing ap e with
  | case1 =>
    cases h
    exact ⟨[], rfl, Nat.le_refl _, fun _ => rfl, fun _ => rfl⟩
  | case2 =>
    rw [pieces, if_pos rfl] at h ⊢
    cases h
    refine ⟨[], ?_, Nat.le_refl _, fun _ => rfl, fun _ => rfl⟩
    rw [vprintfLoop, if_pos rfl, vprintfLoop]
  | case3 c hc =>
    rw [pieces, if_neg hc] at h ⊢
    cases h
    refine ⟨[c], ?_, Nat.le_refl _, fun _ => rfl, fun _ => rfl⟩
    rw [vprintfLoop, if_neg hc, vprintfLoop]
    rfl
  | case4 d fmt ih =>
    rw [pieces, if_pos rfl] at h ⊢
    obtain ⟨s, ap', e', hp, hrest, rfl⟩ := expected_cons h
    obtain ⟨o, ho, hlen, hiff⟩ := directive_spec hp
    obtain ⟨o', ho', hlen', hiff'⟩ := ih hrest
    refine ⟨o ++ o', ?_, ?_, ?_⟩
    · rw [vprintfLoop, if_pos rfl, vprintfLoop, ho]
      change (do return o ++ (← vprintfLoop .text fmt ap')) = _
      rw [ho']
      rfl
    · rw [List.length_append, List.length_append]
      omega
    · rw [append_eq_iff_of_length_le hlen hlen', hiff, hiff', longsFit_cons hp]
  | case5 c d fmt hc ih =>
    rw [pieces, if_neg hc] at h ⊢
    obtain ⟨s, ap', e', hp, hrest, rfl⟩ := expected_cons h
    cases hp
    obtain ⟨o', ho', hlen', hiff'⟩ := ih hrest
    refine ⟨c :: o', ?_, Nat.succ_le_succ hlen', ?_⟩
    · rw [vprintfLoop, if_neg hc, ho']
      rfl
    · rw [longsFit_cons rfl, ← hiff']
      exact ⟨fun heq => ⟨rfl, (List.cons.inj heq).2⟩, fun heq => congrArg (c :: ·) heq.2⟩

/-- **`vprintf` writes what its format and its arguments expand to, exactly if the arguments of
all `%l` are below `2 ^ 32`.**  It writes something in any case: the digit buffer is not
overrun. -/
theorem vprintf_iff (fmt : List UInt8) (ap : List Arg) (e : List UInt8)
    (h : expected (pieces fmt) ap = some e) :
    ∃ o, vprintf fmt ap = some o ∧ (o = e ↔ longsFit (pieces fmt) ap = true) := by
  obtain ⟨o, ho, -, hiff⟩ := vprintfLoop_spec fmt h
  exact ⟨o, ho, hiff⟩

/-- A format with an `int`, a string and a `%l`. -/
theorem vprintf_iff_size : ∃ o,
    vprintf ("%d %s %l".toList.map code) [.int 5, .str (some [code 'a']), .uint64 2000] = some o ∧
      o = "5 a 2000".toList.map code := by
  obtain ⟨o, ho, hiff⟩ := vprintf_iff ("%d %s %l".toList.map code)
    [.int 5, .str (some [code 'a']), .uint64 2000] ("5 a 2000".toList.map code) (by decide +kernel)
  exact ⟨o, ho, hiff.mpr (by decide +kernel)⟩

/-- The low half of `2 ^ 32` is zero. -/
theorem vprintf_long_narrowed :
    expected (pieces ("%l".toList.map code)) [.uint64 (2 ^ 32)]
        = some ("4294967296".toList.map code) ∧
      vprintf ("%l".toList.map code) [.uint64 (2 ^ 32)] = some ("0".toList.map code) := by
  decide +kernel

end Xv6.Libc
