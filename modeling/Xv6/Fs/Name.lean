import Mathlib.Data.List.GetD
import Xv6.Fs.Abs

/-!
# Names in directories

A directory entry holds up to `DIRSIZ` characters of a name, padded with zeroes.  Names
are compared with `strncmp`, so two names are the same if they agree up to `DIRSIZ`
characters or to the first `NUL`.

## Main definitions

* `cname` — the characters of a name that count.
* `dirent`, `slots` — the entries of a directory.
* `setDirent` — a directory with one entry replaced or added.

## Main results

* `namecmp_eq_zero` — `namecmp` compares the characters that count.
* `cname_strncpy` — `dirlink` stores them.
* `dirent_setDirent` — replacing an entry leaves the others alone.
-/

namespace Xv6.Fs

/-! ### Strings -/

/-- The first `n` characters of a string, up to the first `NUL`. -/
def cstr (n : ℕ) (l : List UInt8) : List UInt8 := (l.take n).takeWhile (· ≠ 0)

/-- The characters of a name that count. -/
def cname (l : List UInt8) : List UInt8 := cstr dirsiz l

theorem cstr_succ (n : ℕ) (l : List UInt8) :
    cstr (n + 1) l = if l.headD 0 = 0 then [] else l.headD 0 :: cstr n l.tail := by
  cases l with
  | nil => rfl
  | cons x l =>
    unfold cstr
    rw [List.take_succ_cons, List.takeWhile_cons]
    by_cases hx : x = 0 <;> simp [hx]

theorem strncmp_eq_zero (n : ℕ) (p q : List UInt8) :
    strncmp n p q = 0 ↔ cstr n p = cstr n q := by
  induction n generalizing p q with
  | zero => simp [strncmp, cstr]
  | succ n ih =>
    rw [strncmp, cstr_succ, cstr_succ]
    by_cases hp : p.headD 0 = 0
    · rw [if_neg fun h => h.1 hp, if_pos hp, hp]
      by_cases hq : q.headD 0 = 0
      · rw [if_pos hq, hq]
        exact iff_of_true rfl rfl
      · rw [if_neg hq]
        have hne : (q.headD 0).toNat ≠ 0 := fun h => hq (UInt8.toNat_inj.mp h)
        have h0 : (0 : UInt8).toNat = 0 := rfl
        refine iff_of_false (by omega) (by simp)
    · rw [if_neg hp]
      by_cases hpq : p.headD 0 = q.headD 0
      · rw [if_pos ⟨hp, hpq⟩, if_neg (hpq ▸ hp), ih, hpq, List.cons_inj_right]
      rw [if_neg fun h => hpq h.2]
      have hne : (p.headD 0).toNat ≠ (q.headD 0).toNat := fun h => hpq (UInt8.toNat_inj.mp h)
      refine iff_of_false (by omega) ?_
      split
      · exact List.cons_ne_nil _ _
      · exact fun h => hpq (List.cons.inj h).1

/-- **`namecmp` compares the characters that count.** -/
theorem namecmp_eq_zero (s t : List UInt8) : namecmp s t = 0 ↔ cname s = cname t :=
  strncmp_eq_zero dirsiz s t

@[simp] theorem length_strncpy (n : ℕ) (t : List UInt8) : (strncpy n t).length = n := by
  induction n generalizing t with
  | zero => rfl
  | succ n ih =>
    rw [strncpy]
    split
    · exact List.length_replicate
    · rw [List.length_cons, ih]

theorem cstr_strncpy (n : ℕ) (t : List UInt8) : cstr n (strncpy n t) = cstr n t := by
  induction n generalizing t with
  | zero => rfl
  | succ n ih =>
    rw [cstr_succ, cstr_succ, strncpy]
    by_cases ht : t.headD 0 = 0
    · rw [if_pos ht, if_pos ht, List.replicate_succ]
      rfl
    · rw [if_neg ht, if_neg ht]
      show (if t.headD 0 = 0 then [] else t.headD 0 :: cstr n (strncpy n t.tail)) = _
      rw [if_neg ht, ih]

/-- **The name stored is the name given**, as far as names count. -/
theorem cname_strncpy (t : List UInt8) : cname (strncpy dirsiz t) = cname t :=
  cstr_strncpy dirsiz t

/-! ### Entries -/

/-- Entry `k` of a directory. -/
def dirent (data : List UInt8) (k : ℕ) : Dirent :=
  getDirent ((data.drop (direntSize * k)).take direntSize)

/-- The number of entries of a directory. -/
def slots (data : List UInt8) : ℕ := data.length / direntSize

theorem direntSize_eq : direntSize = 16 := rfl

/-- The inode number and the name are read back from the bytes of an entry. -/
theorem getDirent_bytes {de : Dirent} (h : de.name.length = dirsiz) : getDirent de.bytes = de := by
  obtain ⟨inum, name⟩ := de
  have hlt := inum.isLt
  have hlo : (UInt8.ofNat inum.toNat).toNat = inum.toNat % 256 := UInt8.toNat_ofNat'
  have hhi : (UInt8.ofNat (inum.toNat / 256)).toNat = inum.toNat / 256 % 256 := UInt8.toNat_ofNat'
  unfold getDirent Dirent.bytes
  congr 1
  · apply BitVec.eq_of_toNat_eq
    simp only [List.getD_cons_zero, List.getD_cons_succ, hlo, hhi, BitVec.toNat_ofNat]
    omega
  · show name.take dirsiz = name
    exact List.take_of_length_le (Nat.le_of_eq h)

theorem length_bytes {de : Dirent} (h : de.name.length = dirsiz) :
    de.bytes.length = direntSize := by
  rw [Dirent.bytes, List.length_cons, List.length_cons, h]
  rfl

/-- The directory with the bytes of an entry stored in slot `k`. -/
def setDirent (data : List UInt8) (k : ℕ) (de : Dirent) : List UInt8 :=
  Node.overlay data (direntSize * k) de.bytes (direntSize * k + direntSize)

theorem length_overlay (data : List UInt8) (off : ℕ) (bytes : List UInt8) (size : ℕ) :
    (Node.overlay data off bytes size).length = max data.length size := by
  rw [Node.overlay, List.length_map, List.length_range]

theorem getD_overlay (data : List UInt8) (off : ℕ) (bytes : List UInt8) {size x : ℕ}
    (hx : x < max data.length size) : (Node.overlay data off bytes size).getD x 0
      = if off ≤ x ∧ x < off + bytes.length then bytes.getD (x - off) 0 else data.getD x 0 := by
  rw [Node.overlay, List.getD_eq_getElem _ _ (by simpa using hx), List.getElem_map,
    List.getElem_range]

section SetDirent

variable {data : List UInt8} {k : ℕ} {de : Dirent}

theorem length_setDirent :
    (setDirent data k de).length = max data.length (direntSize * k + direntSize) := by
  rw [setDirent, length_overlay]

theorem slots_setDirent : slots (setDirent data k de) = max (slots data) (k + 1) := by
  rw [slots, length_setDirent, slots, direntSize_eq]
  omega

theorem take_drop_eq_map {l : List UInt8} {off m : ℕ} (h : off + m ≤ l.length) :
    (l.drop off).take m = (List.range m).map fun t => l.getD (off + t) 0 := by
  refine List.ext_getElem (by simp; omega) fun t h₁ h₂ => ?_
  have ht : t < m := by simpa using h₂
  rw [List.getElem_take, List.getElem_drop, List.getElem_map, List.getElem_range,
    List.getD_eq_getElem _ _ (by omega)]

/-- **Replacing an entry leaves the others alone.** -/
theorem dirent_setDirent (hname : de.name.length = dirsiz) (hk : k ≤ slots data) {j : ℕ}
    (hj : j < max (slots data) (k + 1)) :
    dirent (setDirent data k de) j = if j = k then de else dirent data j := by
  have hlen : (setDirent data k de).length = _ := length_setDirent
  have hbytes := length_bytes hname
  have hd := direntSize_eq
  rw [slots, hd] at hk hj
  have hin : direntSize * j + direntSize ≤ (setDirent data k de).length := by
    rw [hlen, hd]
    omega
  rw [dirent, take_drop_eq_map hin]
  have hget : ∀ t, t < direntSize → (setDirent data k de).getD (direntSize * j + t) 0
      = if j = k then de.bytes.getD t 0 else data.getD (direntSize * j + t) 0 := by
    intro t ht
    rw [hlen] at hin
    rw [setDirent, getD_overlay _ _ _ (by omega), hbytes]
    by_cases hjk : j = k
    · rw [if_pos hjk, if_pos (by rw [hjk]; omega), hjk, Nat.add_sub_cancel_left]
    · rw [if_neg hjk, if_neg (by rw [hd]; omega)]
  rw [List.map_congr_left fun t ht => hget t (List.mem_range.mp ht)]
  by_cases hjk : j = k
  · simp only [hjk, if_true]
    have hall := take_drop_eq_map (l := de.bytes) (m := direntSize)
      (Nat.le_of_eq (by rw [hbytes, Nat.zero_add]))
    simp only [List.drop_zero, Nat.zero_add] at hall
    rw [← hall, List.take_of_length_le (Nat.le_of_eq hbytes), getDirent_bytes hname]
  · simp only [hjk, if_false]
    rw [dirent, take_drop_eq_map]
    rw [hd]
    omega

end SetDirent

end Xv6.Fs
