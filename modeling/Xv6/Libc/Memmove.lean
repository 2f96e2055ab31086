import Mathlib.Data.BitVec

/-!
# `memmove`, twice

The kernel and the user library each have a `memmove` that copies a byte at a time, in place.
If the ranges overlap, a loop that runs in the wrong direction reads bytes it has already
overwritten.  The kernel copies downwards only if the ranges overlap with the destination
above; the user library copies downwards whenever the destination is not below the source.

## Main definitions

* `copyUp`, `copyDown` — the two loops.
* `Kernel.memmove`, `User.memmove` — the two functions.
* `snapshot` — every byte of the destination gets what the source byte was before.

## Main results

* `memmove_snapshot` — both functions take a snapshot, so they agree.
-/

namespace Xv6.Libc

/-- Memory, byte by byte. -/
abbrev Memory : Type := BitVec 64 → UInt8

/-- The loop `while(n-- > 0) *dst++ = *src++`. -/
def copyUp (m : Memory) (dst src : BitVec 64) : ℕ → Memory
  | 0 => m
  | n + 1 => copyUp (Function.update m dst (m src)) (dst + 1) (src + 1) n

/-- The loop `while(n-- > 0) *--dst = *--src`. -/
def copyDown (m : Memory) (dst src : BitVec 64) : ℕ → Memory
  | 0 => m
  | n + 1 => copyDown (Function.update m (dst - 1) (m (src - 1))) (dst - 1) (src - 1) n

/-- `memmove` of `kernel/string.c`; `n` is unsigned.  The pointer it returns, and memory. -/
def Kernel.memmove (m : Memory) (dst src : BitVec 64) (n : BitVec 32) : BitVec 64 × Memory :=
  if n = 0 then (dst, m)
  else if src < dst ∧ dst < src + n.setWidth 64 then
    (dst, copyDown m (dst + n.setWidth 64) (src + n.setWidth 64) n.toNat)
  else (dst, copyUp m dst src n.toNat)

/-- `memmove` of `user/ulib.c`; `n` is signed, and a loop with a negative count does not
run. -/
def User.memmove (m : Memory) (dst src : BitVec 64) (n : BitVec 32) : BitVec 64 × Memory :=
  if dst < src then (dst, copyUp m dst src n.toInt.toNat)
  else (dst, copyDown m (dst + n.signExtend 64) (src + n.signExtend 64) n.toInt.toNat)

/-- Memory in which each of the `n` bytes from `dst` on is what the byte from `src` on was, and
every other byte as it was. -/
def snapshot (m : Memory) (dst src : BitVec 64) (n : ℕ) : Memory := fun a =>
  if dst.toNat ≤ a.toNat ∧ a.toNat < dst.toNat + n then m (src + (a - dst)) else m a

variable {m : Memory} {dst src a : BitVec 64} {n : ℕ}

/-! ### The loops -/

/-- Copying upwards is right if the destination does not start inside the source. -/
theorem copyUp_eq (hdst : dst.toNat + n ≤ 2 ^ 64) (hsrc : src.toNat + n ≤ 2 ^ 64)
    (hdir : dst.toNat ≤ src.toNat ∨ src.toNat + n ≤ dst.toNat) :
    copyUp m dst src n = snapshot m dst src n := by
  induction n generalizing m dst src with
  | zero =>
    funext a
    rw [copyUp, snapshot, if_neg (by omega)]
  | succ n ih =>
    rw [copyUp]
    by_cases hn : n = 0
    · -- the last byte, which may be the last of the address space
      subst hn
      funext a
      rw [copyUp, snapshot]
      by_cases ha : a = dst
      · rw [ha, Function.update_self, if_pos (by omega), BitVec.sub_self, BitVec.add_zero]
      · have hne : a.toNat ≠ dst.toNat := fun h => ha (BitVec.eq_of_toNat_eq h)
        rw [Function.update_of_ne ha, if_neg (by omega)]
    · have hd : (dst + 1).toNat = dst.toNat + 1 := by bv_omega
      have hs : (src + 1).toNat = src.toNat + 1 := by bv_omega
      rw [ih (by omega) (by omega) (by omega)]
      funext a
      rw [snapshot, snapshot, hd]
      by_cases ha : a = dst
      · rw [ha, if_neg (by omega), Function.update_self, if_pos (by omega), BitVec.sub_self,
          BitVec.add_zero]
      have hne : a.toNat ≠ dst.toNat := fun h => ha (BitVec.eq_of_toNat_eq h)
      by_cases hin : dst.toNat + 1 ≤ a.toNat ∧ a.toNat < dst.toNat + 1 + n
      · -- the source byte is not the one just written
        have hfrom : src + 1 + (a - (dst + 1)) = src + (a - dst) := by bv_omega
        have hkeep : src + (a - dst) ≠ dst := by bv_omega
        rw [if_pos hin, if_pos (by omega), hfrom, Function.update_of_ne hkeep]
      · rw [if_neg hin, if_neg (by omega), Function.update_of_ne ha]

/-- Copying downwards is right if the source does not start inside the destination. -/
theorem copyDown_eq (hdst : dst.toNat + n ≤ 2 ^ 64) (hsrc : src.toNat + n ≤ 2 ^ 64)
    (hdir : src.toNat ≤ dst.toNat) :
    copyDown m (dst + BitVec.ofNat 64 n) (src + BitVec.ofNat 64 n) n = snapshot m dst src n := by
  induction n generalizing m with
  | zero =>
    funext a
    rw [copyDown, snapshot, if_neg (by omega)]
  | succ n ih =>
    have hd : dst + BitVec.ofNat 64 (n + 1) - 1 = dst + BitVec.ofNat 64 n := by bv_omega
    have hs : src + BitVec.ofNat 64 (n + 1) - 1 = src + BitVec.ofNat 64 n := by bv_omega
    rw [copyDown, hd, hs, ih (by omega) (by omega)]
    have hlast : (dst + BitVec.ofNat 64 n).toNat = dst.toNat + n := by bv_omega
    funext a
    rw [snapshot, snapshot]
    by_cases ha : a = dst + BitVec.ofNat 64 n
    · have hfrom : src + (a - dst) = src + BitVec.ofNat 64 n := by
        rw [ha]
        bv_omega
      rw [hfrom, ha, hlast, if_neg (by omega), Function.update_self, if_pos (by omega)]
    · have hne : a.toNat ≠ dst.toNat + n := fun h => ha (BitVec.eq_of_toNat_eq (by omega))
      by_cases hin : dst.toNat ≤ a.toNat ∧ a.toNat < dst.toNat + n
      · have hkeep : src + (a - dst) ≠ dst + BitVec.ofNat 64 n := by bv_omega
        rw [if_pos hin, if_pos (by omega), Function.update_of_ne hkeep]
      · rw [if_neg hin, if_neg (by omega), Function.update_of_ne ha]

/-! ### The functions -/

theorem setWidth_eq (n : BitVec 32) : n.setWidth 64 = BitVec.ofNat 64 n.toNat := by bv_omega

theorem Kernel.memmove_eq {n : BitVec 32} (hdst : dst.toNat + n.toNat ≤ 2 ^ 64)
    (hsrc : src.toNat + n.toNat ≤ 2 ^ 64) :
    Kernel.memmove m dst src n = (dst, snapshot m dst src n.toNat) := by
  unfold Kernel.memmove
  by_cases hzero : n = 0
  · have hnone : snapshot m dst src 0 = m :=
      (copyUp_eq (n := 0) (by omega) (by omega) (by omega)).symm
    rw [if_pos hzero, hzero]
    exact congrArg (Prod.mk dst) hnone.symm
  rw [if_neg hzero]
  by_cases hover : src < dst ∧ dst < src + n.setWidth 64
  · rw [if_pos hover, setWidth_eq, copyDown_eq hdst hsrc]
    exact Nat.le_of_lt (BitVec.lt_def.mp hover.1)
  rw [if_neg hover, copyUp_eq hdst hsrc]
  -- with the destination above the source, the end of the source does not wrap round
  by_contra hnot
  refine hover ⟨BitVec.lt_def.mpr (by omega), ?_⟩
  rw [BitVec.lt_def, setWidth_eq]
  have hend : (src + BitVec.ofNat 64 n.toNat).toNat = src.toNat + n.toNat := by bv_omega
  omega

theorem User.memmove_eq {n : BitVec 32} (hn : 0 ≤ n.toInt) (hdst : dst.toNat + n.toNat ≤ 2 ^ 64)
    (hsrc : src.toNat + n.toNat ≤ 2 ^ 64) :
    User.memmove m dst src n = (dst, snapshot m dst src n.toNat) := by
  have hmsb : n.msb = false := by
    rw [BitVec.msb_eq_toInt]
    exact decide_eq_false (not_lt.mpr hn)
  have hcount : n.toInt.toNat = n.toNat := by
    rw [BitVec.toInt_eq_toNat_of_msb hmsb, Int.toNat_natCast]
  unfold User.memmove
  rw [hcount, BitVec.signExtend_eq_setWidth_of_msb_false hmsb, setWidth_eq]
  by_cases hlt : dst < src
  · rw [if_pos hlt, copyUp_eq hdst hsrc (.inl (Nat.le_of_lt (BitVec.lt_def.mp hlt)))]
  · rw [if_neg hlt, copyDown_eq hdst hsrc]
    rw [BitVec.lt_def] at hlt
    omega

/-- **`memmove` is a snapshot copy in both libraries.**  Whatever the overlap, each byte of
the destination gets what the source byte was before the call, and no other byte changes; so
the two functions agree on every length that is one for both. -/
theorem memmove_snapshot (m : Memory) (dst src : BitVec 64) (n : BitVec 32)
    (hdst : dst.toNat + n.toNat ≤ 2 ^ 64) (hsrc : src.toNat + n.toNat ≤ 2 ^ 64) :
    Kernel.memmove m dst src n = (dst, snapshot m dst src n.toNat) ∧
      (0 ≤ n.toInt → User.memmove m dst src n = (dst, snapshot m dst src n.toNat) ∧
        User.memmove m dst src n = Kernel.memmove m dst src n) := by
  have hkernel : Kernel.memmove m dst src n = (dst, snapshot m dst src n.toNat) :=
    Kernel.memmove_eq hdst hsrc
  refine ⟨hkernel, fun hn => ?_⟩
  have huser : User.memmove m dst src n = (dst, snapshot m dst src n.toNat) :=
    User.memmove_eq hn hdst hsrc
  exact ⟨huser, huser.trans hkernel.symm⟩

/-- Three bytes, moved up by one. -/
theorem memmove_snapshot_three : User.memmove (fun a => UInt8.ofNat a.toNat) 2 1 3
    = Kernel.memmove (fun a => UInt8.ofNat a.toNat) 2 1 3 :=
  ((memmove_snapshot (fun a => UInt8.ofNat a.toNat) 2 1 3 (by decide) (by decide)).2 (by decide)).2

end Xv6.Libc
