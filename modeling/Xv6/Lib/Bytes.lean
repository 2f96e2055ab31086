import Mathlib.Data.Nat.ModEq
import Mathlib.Tactic.Ring

/-!
# Byte arrays and little-endian numbers

A buffer of `n` bytes, with the little-endian numbers C code reads and writes
in it through casts.  Reads outside the buffer give zero and writes outside it
do nothing; the lemmas below are about accesses inside.

## Main definitions

* `Bytes n` — `n` bytes; `get` and `set` access one byte, `slice` and `blit` a range.
* `getLE b off k`, `putLE b off k v` — the `k`-byte little-endian number at `off`.
* `get16`, `get32`, `put16`, `put32` — the two sizes the kernel's structures use.

## Main results

* `getLE_putLE_self`, `getLE_putLE_of_disjoint` — reading back a written number,
  and reading a number none of whose bytes was written.
* `get_blit_of_lt`, `get_blit_of_notMem` — the same for byte ranges.
-/

namespace Xv6

/-- A buffer of `n` bytes, held as one number: byte 0 is the lowest. -/
structure Bytes (n : ℕ) where
  bits : BitVec (8 * n)
  deriving DecidableEq

namespace Bytes

variable {n : ℕ} {off i k : ℕ}

/-- The byte at offset `i`. -/
def get (b : Bytes n) (i : ℕ) : UInt8 := ⟨b.bits.extractLsb' (8 * i) 8⟩

/-- The buffer with the byte at offset `i` replaced. -/
def set (b : Bytes n) (i : ℕ) (v : UInt8) : Bytes n :=
  ⟨b.bits &&& ~~~(BitVec.ofNat (8 * n) 255 <<< (8 * i)) |||
    v.toBitVec.setWidth (8 * n) <<< (8 * i)⟩

/-- The buffer of zeroes. -/
def zero : Bytes n := ⟨0⟩

@[simp] theorem get_zero (i : ℕ) : (zero : Bytes n).get i = 0 := by
  simp [get, zero]

theorem getLsbD_get (b : Bytes n) (i j : ℕ) :
    (b.get i).toBitVec.getLsbD j = (decide (j < 8) && b.bits.getLsbD (8 * i + j)) := by
  simp [get]

/-- The bits of a buffer after one byte was replaced. -/
theorem getLsbD_set (b : Bytes n) (i k : ℕ) (v : UInt8) (hk : k < 8 * n) :
    (b.set i v).bits.getLsbD k
      = if 8 * i ≤ k ∧ k < 8 * i + 8 then v.toBitVec.getLsbD (k - 8 * i) else b.bits.getLsbD k := by
  have hmask : ∀ j, (BitVec.ofNat (8 * n) 255).getLsbD j
      = (decide (j < 8 * n) && decide (j < 8)) := by
    intro j
    rw [BitVec.getLsbD_ofNat]
    congr 1
    exact Nat.testBit_two_pow_sub_one 8 j
  simp only [set, BitVec.getLsbD_or, BitVec.getLsbD_and, BitVec.getLsbD_not,
    BitVec.getLsbD_shiftLeft, BitVec.getLsbD_setWidth, hmask, hk, decide_true, Bool.true_and]
  by_cases hlo : k < 8 * i
  · simp [hlo, show ¬ (8 * i ≤ k ∧ k < 8 * i + 8) by omega]
  · by_cases hhi : k < 8 * i + 8
    · simp [hlo, show 8 * i ≤ k ∧ k < 8 * i + 8 by omega, show k - 8 * i < 8 * n by omega,
        show k - 8 * i < 8 by omega]
    · have hv : v.toBitVec.getLsbD (k - 8 * i) = false := BitVec.getLsbD_of_ge _ _ (by omega)
      simp [hlo, show ¬ (8 * i ≤ k ∧ k < 8 * i + 8) by omega, show ¬ k - 8 * i < 8 by omega, hv]

theorem get_set_self (b : Bytes n) (hi : i < n) (v : UInt8) : (b.set i v).get i = v := by
  refine UInt8.toBitVec_inj.mp (BitVec.eq_of_getLsbD_eq fun j hj => ?_)
  rw [getLsbD_get, getLsbD_set _ _ _ _ (by omega), if_pos (by omega), Nat.add_sub_cancel_left]
  simp [hj]

theorem get_set_of_ne (b : Bytes n) {j : ℕ} (h : j ≠ i) (v : UInt8) :
    (b.set i v).get j = b.get j := by
  refine UInt8.toBitVec_inj.mp (BitVec.eq_of_getLsbD_eq fun k hk => ?_)
  rw [getLsbD_get, getLsbD_get]
  by_cases hlt : 8 * j + k < 8 * n
  · rw [getLsbD_set _ _ _ _ hlt, if_neg (by omega)]
  · rw [BitVec.getLsbD_of_ge _ _ (by omega), BitVec.getLsbD_of_ge _ _ (by omega)]

theorem ext_get {b c : Bytes n} (h : ∀ i < n, b.get i = c.get i) : b = c := by
  obtain ⟨x⟩ := b
  obtain ⟨y⟩ := c
  congr 1
  refine BitVec.eq_of_getLsbD_eq fun k hk => ?_
  have hmod : k % 8 < 8 := Nat.mod_lt k (by decide)
  have hbyte := congrArg (fun v : UInt8 => v.toBitVec.getLsbD (k % 8)) (h (k / 8) (by omega))
  simp only [getLsbD_get, hmod, decide_true, Bool.true_and, Nat.div_add_mod] at hbyte
  exact hbyte

/-! ### Little-endian numbers -/

/-- The `k`-byte little-endian number at offset `off`. -/
def getLE (b : Bytes n) (off : ℕ) : ℕ → ℕ
  | 0 => 0
  | k + 1 => (b.get off).toNat + 256 * getLE b (off + 1) k

/-- Store `v` as a `k`-byte little-endian number at offset `off`. -/
def putLE (b : Bytes n) (off : ℕ) : ℕ → ℕ → Bytes n
  | 0, _ => b
  | k + 1, v => putLE (b.set off (UInt8.ofNat v)) (off + 1) k (v / 256)

theorem getLE_lt (b : Bytes n) (off k : ℕ) : b.getLE off k < 256 ^ k := by
  induction k generalizing off with
  | zero => simp [getLE]
  | succ k ih =>
    have h₁ := ih (off + 1)
    have h₂ : (b.get off).toNat < 256 := UInt8.toNat_lt _
    rw [getLE, pow_succ]
    omega

theorem get_putLE_of_notMem (b : Bytes n) (v : ℕ) (h : i < off ∨ off + k ≤ i) :
    (b.putLE off k v).get i = b.get i := by
  induction k generalizing b off v with
  | zero => rfl
  | succ k ih => rw [putLE, ih _ _ (by omega), get_set_of_ne _ (by omega)]

theorem getLE_congr {b c : Bytes n} (h : ∀ i, off ≤ i → i < off + k → b.get i = c.get i) :
    b.getLE off k = c.getLE off k := by
  induction k generalizing off with
  | zero => rfl
  | succ k ih =>
    rw [getLE, getLE, h off (Nat.le_refl _) (by omega),
      ih fun i h₁ h₂ => h i (by omega) (by omega)]

/-- **Reading back a number.** -/
theorem getLE_putLE_self (b : Bytes n) (hk : off + k ≤ n) (v : ℕ) :
    (b.putLE off k v).getLE off k = v % 256 ^ k := by
  induction k generalizing b off v with
  | zero => simp [getLE, Nat.mod_one]
  | succ k ih =>
    rw [putLE, getLE, ih _ (by omega), get_putLE_of_notMem _ _ (by omega),
      get_set_self _ (by omega), UInt8.toNat_ofNat', pow_succ (256 : ℕ) k, Nat.mul_comm (256 ^ k)]
    exact (Nat.mod_mul).symm

/-- **A number apart from the one written is left alone.** -/
theorem getLE_putLE_of_disjoint (b : Bytes n) {off' k' : ℕ} (v : ℕ)
    (h : off' + k' ≤ off ∨ off + k ≤ off') : (b.putLE off k v).getLE off' k' = b.getLE off' k' :=
  getLE_congr fun _ _ _ => get_putLE_of_notMem b v (by omega)

@[simp] theorem getLE_zero (off k : ℕ) : (zero : Bytes n).getLE off k = 0 := by
  induction k generalizing off with
  | zero => rfl
  | succ k ih => rw [getLE, ih, get_zero]; rfl

/-- The 16-bit number at offset `off`. -/
def get16 (b : Bytes n) (off : ℕ) : BitVec 16 := BitVec.ofNat 16 (b.getLE off 2)

/-- The 32-bit number at offset `off`. -/
def get32 (b : Bytes n) (off : ℕ) : BitVec 32 := BitVec.ofNat 32 (b.getLE off 4)

/-- Store a 16-bit number at offset `off`. -/
def put16 (b : Bytes n) (off : ℕ) (v : BitVec 16) : Bytes n := b.putLE off 2 v.toNat

/-- Store a 32-bit number at offset `off`. -/
def put32 (b : Bytes n) (off : ℕ) (v : BitVec 32) : Bytes n := b.putLE off 4 v.toNat

theorem get16_put16_self (b : Bytes n) (h : off + 2 ≤ n) (v : BitVec 16) :
    (b.put16 off v).get16 off = v := by
  have hv := v.isLt
  rw [get16, put16, getLE_putLE_self _ h, Nat.mod_eq_of_lt (by omega), BitVec.ofNat_toNat,
    BitVec.setWidth_eq]

theorem get32_put32_self (b : Bytes n) (h : off + 4 ≤ n) (v : BitVec 32) :
    (b.put32 off v).get32 off = v := by
  have hv := v.isLt
  rw [get32, put32, getLE_putLE_self _ h, Nat.mod_eq_of_lt (by omega), BitVec.ofNat_toNat,
    BitVec.setWidth_eq]

/-! ### Byte ranges -/

/-- The `k` bytes from offset `off` on. -/
def slice (b : Bytes n) (off k : ℕ) : List UInt8 := (List.range k).map fun i => b.get (off + i)

/-- The buffer with the bytes of a list copied to offset `off`. -/
def blit (b : Bytes n) (off : ℕ) : List UInt8 → Bytes n
  | [] => b
  | x :: xs => blit (b.set off x) (off + 1) xs

theorem get_blit_of_notMem (b : Bytes n) (l : List UInt8) (h : i < off ∨ off + l.length ≤ i) :
    (b.blit off l).get i = b.get i := by
  induction l generalizing b off with
  | nil => rfl
  | cons x xs ih =>
    rw [List.length_cons] at h
    rw [blit, ih _ (by omega), get_set_of_ne _ (by omega)]

theorem get_blit_of_lt (b : Bytes n) (l : List UInt8) (hn : off + l.length ≤ n) (h : i < l.length) :
    (b.blit off l).get (off + i) = l.get ⟨i, h⟩ := by
  induction l generalizing b off i with
  | nil => exact absurd h (Nat.not_lt_zero i)
  | cons x xs ih =>
    rw [List.length_cons] at hn h
    rw [blit]
    cases i with
    | zero => rw [get_blit_of_notMem _ _ (by omega)]; exact get_set_self _ (by omega) _
    | succ i =>
      rw [show off + (i + 1) = off + 1 + i by omega, ih _ (by omega) (by omega)]
      rfl

theorem blit_concat (b : Bytes n) (off : ℕ) (l : List UInt8) (x : UInt8) :
    b.blit off (l ++ [x]) = (b.blit off l).set (off + l.length) x := by
  induction l generalizing b off with
  | nil => rfl
  | cons y l ih => rw [List.cons_append, blit, blit, ih, List.length_cons, Nat.add_right_comm,
    Nat.add_assoc]

end Bytes

end Xv6
