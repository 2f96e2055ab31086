import Xv6.Vm.Copy

/-!
# Strings of a user

`copyinstr` copies a user's string up to its NUL.  It looks at the user's bytes in order, and
stops at the first that is a NUL or that is no byte of the user's, or after `max` bytes.

## Main definitions

* `Scanned` — where `copyinstr` stops.
* `IsString` — a NUL-terminated string of a user.

## Main results

* `ends_copyinstrLoop` — what the loop returns, and in how many rounds.
* `copyinstr_copies_string` — `copyinstr` and `fetchstr` return the string, if there is one.
-/

namespace Xv6.Vm

open Kern Trie

variable {m m' : Machine} {root va x k n max p : ℕ} {A : Panic → Prop}
  {b : Bytes pgsize} {dst : List UInt8}

/-! ### One page -/

theorem map_range_succ (g : ℕ → UInt8) : (List.range (n + 1)).map (fun j => g (p + j)) =
    g p :: (List.range n).map fun j => g (p + 1 + j) := by
  rw [List.range_succ_eq_map, List.map_cons, List.map_map, Nat.add_zero]
  refine congrArg _ (List.map_congr_left fun j _ => ?_)
  rw [Function.comp_apply, show p + Nat.succ j = p + 1 + j by omega]

theorem copyinstrPage_of_ne (h : ∀ j < n, b.get (p + j) ≠ 0) :
    copyinstrPage b n p max dst = (false, max - n, dst ++ (List.range n).map fun j =>
    b.get (p + j)) := by
  induction n generalizing p max dst with
  | zero => simp [copyinstrPage]
  | succ n ih =>
    have h₀ : b.get p ≠ 0 := h 0 (Nat.succ_pos n)
    have hrest : ∀ j < n, b.get (p + 1 + j) ≠ 0 := fun j hj => by
      rw [show p + 1 + j = p + (j + 1) by omega]
      exact h (j + 1) (by omega)
    rw [copyinstrPage, if_neg h₀, ih hrest, map_range_succ, List.append_assoc,
      List.singleton_append, Nat.sub_sub, Nat.add_comm 1 n]

theorem copyinstrPage_of_eq (hk : k < n) (h : ∀ j < k, b.get (p + j) ≠ 0) (h0 : b.get (p + k) = 0) :
    copyinstrPage b n p max dst =
      (true, max - k, dst ++ ((List.range k).map fun j => b.get (p + j)) ++ [0]) := by
  induction n generalizing p max dst k with
  | zero => omega
  | succ n ih =>
    rw [copyinstrPage]
    cases k with
    | zero =>
      rw [Nat.add_zero] at h0
      rw [if_pos h0, List.range_zero, List.map_nil, List.append_nil, Nat.sub_zero]
    | succ k =>
      have hne : b.get p ≠ 0 := h 0 (Nat.succ_pos k)
      have hrest : ∀ j < k, b.get (p + 1 + j) ≠ 0 := fun j hj => by
        rw [show p + 1 + j = p + (j + 1) by omega]
        exact h (j + 1) (by omega)
      have hend : b.get (p + 1 + k) = 0 := by rwa [show p + 1 + k = p + (k + 1) by omega]
      rw [if_neg hne, ih (by omega) hrest hend, map_range_succ, List.append_assoc dst [b.get p],
        List.singleton_append, Nat.sub_sub, Nat.add_comm 1 k]

/-! ### The loop -/

/-- A NUL at the `k`-th byte of the user's, before `max`. -/
def Hit (m : Machine) (root va max k : ℕ) : Prop :=
  k < max ∧ m.userPage root (va + k) ≠ 0 ∧ m.userByte root (va + k) = 0

/-- Where `copyinstr` stops: after `k` bytes of the user's that are no NUL. -/
structure Scanned (m : Machine) (root va max k : ℕ) : Prop where
  le : k ≤ max
  bytes : ∀ j < k, m.userPage root (va + j) ≠ 0 ∧ m.userByte root (va + j) ≠ 0
  stop : Hit m root va max k ∨ k = max ∨ m.userPage root (va + k) = 0

theorem exists_scanned (m : Machine) (root va max : ℕ) : ∃ k, Scanned m root va max k := by
  classical
  have hex : ∃ k, k = max ∨ m.userPage root (va + k) = 0 ∨ m.userByte root (va + k) = 0 :=
    ⟨max, .inl rfl⟩
  refine ⟨Nat.find hex, ⟨Nat.find_min' hex (.inl rfl), fun j hj => ?_, ?_⟩⟩
  · have := Nat.find_min hex hj
    simp only [not_or] at this
    exact this.2
  by_cases hmax : Nat.find hex = max
  · exact .inr (.inl hmax)
  by_cases hpage : m.userPage root (va + Nat.find hex) = 0
  · exact .inr (.inr hpage)
  have hle : Nat.find hex ≤ max := Nat.find_min' hex (.inl rfl)
  rcases Nat.find_spec hex with h | h | h
  · exact absurd h hmax
  · exact absurd h hpage
  · exact .inl ⟨by omega, hpage, h⟩

theorem hit_shift (hk : n ≤ k) (hn : n ≤ max) :
    Hit m root (va + n) (max - n) (k - n) ↔ Hit m root va max k := by
  have hadd : va + n + (k - n) = va + k := by omega
  have hlt : k - n < max - n ↔ k < max := by omega
  rw [Hit, Hit, hadd, hlt]

theorem Scanned.shift (h : Scanned m root va max k) (hk : n ≤ k) :
    Scanned m root (va + n) (max - n) (k - n) := by
  have hle := h.le
  refine ⟨by omega, fun j hj => ?_, ?_⟩
  · have := h.bytes (n + j) (by omega)
    rwa [← Nat.add_assoc] at this
  · rw [hit_shift hk (by omega), show va + n + (k - n) = va + k by omega]
    rcases h.stop with hhit | hmax | hzero
    · exact .inl hhit
    · exact .inr (.inl (by omega))
    · exact .inr (.inr hzero)

/-- **The loop of `copyinstr`** returns what was scanned.  If it comes to the NUL it has looked
at no page after the one that holds it. -/
theorem ends_copyinstrLoop {fuel : ℕ} (h : Nonnull m root) (hs : Scanned m root va max k)
    (hfuel : Hit m root va max k ∧ (va + k) / pgsize - va / pgsize + 2 ≤ fuel ∨
      ¬ Hit m root va max k ∧ 0 < fuel ∧ maxva < pgrounddown va + fuel * pgsize) :
    Ends A (copyinstrLoop root fuel false dst va max) m fun r m' => m' = m ∧
      ((Hit m root va max k ∧
          r = (0, dst ++ ((List.range k).map fun j => m.userByte root (va + j)) ++ [0])) ∨
        (¬ Hit m root va max k ∧
          r = (-1, dst ++ (List.range k).map fun j => m.userByte root (va + j)))) := by
  -- on the fuel; `k` bytes from `va` on are to be copied, whatever was before
  induction fuel generalizing va max k dst with
  | zero => omega
  | succ fuel ih =>
    rw [copyinstrLoop]
    split
    swap
    · -- `max` is used up
      rename_i hmax
      have hz : max = 0 := by
        by_contra hne
        exact hmax ⟨rfl, Nat.pos_of_ne_zero hne⟩
      have hk : k = 0 := by
        have := hs.le
        omega
      rw [if_neg Bool.false_ne_true]
      refine ⟨rfl, .inr ⟨fun hhit => ?_, ?_⟩⟩
      · have := hhit.1
        omega
      · rw [hk, List.range_zero, List.map_nil, List.append_nil]
    rename_i hmax
    have hlen := hmax.2
    have hpage : m.userPage root (pgrounddown va) = m.userPage root va :=
      userPage_congr (pgrounddown_div va)
    rw [ends_bind, ends_walkaddr h.tables, hpage]
    split
    · -- the page is not the user's
      rename_i hzero
      have hk : k = 0 := by
        by_contra hne
        exact (hs.bytes 0 (Nat.pos_of_ne_zero hne)).1 hzero
      subst hk
      exact ⟨rfl, .inr ⟨fun hhit => hhit.2.1 hzero,
        by rw [List.range_zero, List.map_nil, List.append_nil]⟩⟩
    rename_i hne
    obtain ⟨hoff, hfit, hn, hnle, hnext⟩ := copy_step rfl rfl hlen
    generalize hndef : min (pgsize - (va - pgrounddown va)) max = n at *
    have hget : ∀ j < n, (m.page (m.userPage root va)).get (va % pgsize + j)
        = m.userByte root (va + j) :=
      fun j hj => get_userPage hne (by omega)
    rw [ends_bind, ends_read, hoff]
    by_cases hkn : k < n
    · -- the NUL is in this page
      have hkpage : m.userPage root (va + k) ≠ 0 := by rwa [userPage_add (by omega)]
      have hhit : Hit m root va max k := by
        rcases hs.stop with hhit | hmax | hzero
        · exact hhit
        · omega
        · exact absurd hzero hkpage
      rw [copyinstrPage_of_eq hkn (fun j hj => by rw [hget j (by omega)]; exact (hs.bytes j hj).2)
        (by rw [hget k hkn]; exact hhit.2.2)]
      have hmap : (List.range k).map (fun j => (m.page (m.userPage root va)).get (va % pgsize + j))
          = (List.range k).map fun j => m.userByte root (va + j) :=
        List.map_congr_left fun j hj => hget j (by rw [List.mem_range] at hj; omega)
      rcases hfuel with ⟨-, hfuel⟩ | ⟨hno, -⟩
      · obtain ⟨fuel, rfl⟩ : ∃ fuel', fuel = fuel' + 1 := ⟨fuel - 1, by omega⟩
        rw [copyinstrLoop, if_neg (by simp), if_pos rfl, hmap]
        exact ⟨rfl, .inl ⟨hhit, rfl⟩⟩
      · exact absurd hhit hno
    rw [copyinstrPage_of_ne fun j hj => by rw [hget j hj]; exact (hs.bytes j (by omega)).2]
    have hmap : (List.range n).map (fun j => (m.page (m.userPage root va)).get (va % pgsize + j))
        = (List.range n).map fun j => m.userByte root (va + j) :=
      List.map_congr_left fun j hj => hget j (List.mem_range.mp hj)
    have hva := (h.userAddr_iff.mpr hne).1
    obtain ⟨hwrap, hle⟩ : u64 (pgrounddown va + pgsize) = pgrounddown va + pgsize ∧ k ≤ max := by
      refine ⟨?_, hs.le⟩
      simp only [u64, maxva, pgrounddown, pgsize, Nat.reduceAdd, Nat.reduceSub, Nat.reducePow] at *
      omega
    rw [hmap, hwrap]
    by_cases hmore : n < max
    · -- no NUL in this page: the loop goes on with the next one
      rw [hnext hmore]
      refine (ih (hs.shift (by omega)) ?_).mono fun r m' hm' => ?_
      · rw [hit_shift (by omega) hnle]
        rcases hfuel with ⟨hhit, hfuel⟩ | ⟨hno, -, hfuel⟩
        · refine .inl ⟨hhit, ?_⟩
          have hnext' := hnext hmore
          simp only [pgrounddown, pgsize] at *
          omega
        · obtain ⟨-, hpos, hfuel'⟩ := next_page hva hfuel
          rw [hnext hmore] at hfuel'
          exact .inr ⟨hno, hpos, hfuel'⟩
      · rw [hit_shift (by omega) hnle] at hm'
        have hrange : (List.range k).map (fun j => m.userByte root (va + j)) =
            (List.range n).map (fun j => m.userByte root (va + j)) ++
              (List.range (k - n)).map fun j => m.userByte root (va + n + j) := by
          have hk : k = n + (k - n) := by omega
          rw [hk, List.range_add, List.map_append, List.map_map, Nat.add_sub_cancel_left]
          simp only [Function.comp_def, Nat.add_assoc]
        rw [hrange]
        simpa only [List.append_assoc] using hm'
    · -- `max` ends with this page, and nothing is left to scan
      have hk : k = n := by omega
      have hno : ¬ Hit m root va max k := fun hhit => by
        have := hhit.1
        omega
      rcases hfuel with ⟨hhit, -⟩ | ⟨-, -, hfuel⟩
      · exact absurd hhit hno
      · obtain ⟨-, hpos, -⟩ := next_page hva hfuel
        obtain ⟨fuel, rfl⟩ : ∃ fuel', fuel = fuel' + 1 := ⟨fuel - 1, by omega⟩
        have hz : max - n = 0 := by omega
        rw [copyinstrLoop, hz, if_neg (by simp), if_neg Bool.false_ne_true, hk]
        exact ⟨rfl, .inr ⟨hk ▸ hno, rfl⟩⟩

/-! ### Strings -/

/-- The `k` bytes from `va` on are no NUL, a NUL follows, and all are bytes of the user's. -/
structure IsString (m : Machine) (root va k : ℕ) : Prop where
  bytes : ∀ j < k, m.userByte root (va + j) ≠ 0
  nul : m.userByte root (va + k) = 0
  user : UserRange m root va (k + 1)

theorem Nonnull.isString_iff (h : Nonnull m root) (hs : Scanned m root va max k) {l : ℕ}
    (hl : l < max) :
    IsString m root va l ↔ l = k ∧ Hit m root va max k := by
  constructor
  · rintro ⟨hbytes, hnul, huser⟩
    rw [h.userRange_iff] at huser
    have hkl : ¬ k < l := by
      intro hkl
      rcases hs.stop with hhit | hmax | hzero
      · exact hbytes k hkl hhit.2.2
      · omega
      · exact huser k (by omega) hzero
    have hlk : ¬ l < k := fun hlk => (hs.bytes l hlk).2 hnul
    obtain rfl : l = k := by omega
    exact ⟨rfl, hl, huser l (by omega), hnul⟩
  · rintro ⟨rfl, hhit⟩
    refine ⟨fun j hj => (hs.bytes j hj).2, hhit.2.2, h.userRange_iff.mpr fun j hj => ?_⟩
    by_cases hjl : j = l
    · rw [hjl]
      exact hhit.2.1
    · exact (hs.bytes j (by omega)).1

theorem strlen_string {l : List UInt8} (h : ∀ c ∈ l, c ≠ 0) (hlen : l.length < 2 ^ 31) :
    strlen (l ++ [0]) = l.length := by
  have htake : (l ++ [0]).takeWhile (· ≠ 0) = l := by
    rw [List.takeWhile_append_of_pos fun c hc => decide_eq_true (h c hc)]
    simp
  have hmod : (l.length : ℤ).bmod 4294967296 = l.length :=
    Int.bmod_eq_of_le (by omega) (by omega)
  unfold strlen
  simp only [htake]
  exact hmod

/-- **copyinstr and fetchstr.**  For any user address and `max`, `copyinstr` ends, and returns
0 exactly if a NUL-terminated string of fewer than `max` bytes starts at the address, all of it
the user's; then the buffer holds that string with its NUL, `fetchstr` returns its length, and
no page after the one with the NUL was looked at.  Otherwise both return -1.  At most `max`
bytes of the buffer are written. -/
theorem copyinstr_copies_string (h : Nonnull m root) (va max : ℕ) :
    ∃ r dst, copyinstr root va max m = .ok ((r, dst), m) ∧ dst.length ≤ max ∧
      (r = 0 ↔ ∃ k < max, IsString m root va k) ∧
      (∀ k < max, IsString m root va k →
        dst = ((List.range k).map fun j => m.userByte root (va + j)) ++ [0] ∧
        (max < 2 ^ 31 → fetchstr root va max m = .ok ((k, dst), m)) ∧
        copyinstrLoop root ((va + k) / pgsize - va / pgsize + 2) false [] va max m
          = .ok ((r, dst), m)) ∧
      ((¬ ∃ k < max, IsString m root va k) → r = -1 ∧
        (max < 2 ^ 31 → fetchstr root va max m = .ok ((-1, dst), m))) := by
  obtain ⟨k, hs⟩ := exists_scanned m root va max
  have hwalks : maxva < walks * pgsize := by decide
  have hle := hs.le
  -- `fetchstr` adds a call of `strlen`
  have hfetch : ∀ r, copyinstr root va max m = .ok (r, m) → max < 2 ^ 31 →
      fetchstr root va max m = if r.1 < 0 then .ok (r, m) else .ok ((strlen r.2, r.2), m) := by
    intro r hr hmax
    have hcast : ((max : ℤ) % 2 ^ 64).toNat = max := by omega
    have hbind : fetchstr root va max m = (copyinstr root va max m).bind fun r =>
        (if r.1.1 < 0 then pure r.1 else pure (strlen r.1.2, r.1.2) :
          Code (ℤ × List UInt8)) r.2 := by
      rw [fetchstr, hcast]
      rfl
    rw [hbind, hr, Outcome.bind_ok]
    split <;> rfl
  by_cases hhit : Hit m root va max k
  · -- the scan finds a NUL
    have hrounds : (va + k) / pgsize - va / pgsize + 2 ≤ walks := by
      have := (h.userAddr_iff.mpr hhit.2.1).1
      simp only [walks, maxva, pgsize, Nat.reduceAdd, Nat.reduceSub, Nat.reducePow] at *
      omega
    have hrun : ∀ fuel, (va + k) / pgsize - va / pgsize + 2 ≤ fuel →
        copyinstrLoop root fuel false [] va max m =
          .ok ((0, ((List.range k).map fun j => m.userByte root (va + j)) ++ [0]), m) := by
      intro fuel hfuel
      have hloop : Ends (fun _ => False) (copyinstrLoop root fuel false [] va max) m _ :=
        ends_copyinstrLoop h hs (.inl ⟨hhit, hfuel⟩)
      obtain ⟨r, m', hrun, rfl, ⟨-, rfl⟩ | ⟨hno, -⟩⟩ := hloop.exists_ok
      · exact hrun
      · exact absurd hhit hno
    have hcopy := hrun walks hrounds
    refine ⟨0, _, hcopy, ?_, iff_of_true rfl
      ⟨k, hhit.1, (h.isString_iff hs hhit.1).mpr ⟨rfl, hhit⟩⟩, ?_,
      fun hno => absurd ⟨k, hhit.1, (h.isString_iff hs hhit.1).mpr ⟨rfl, hhit⟩⟩ hno⟩
    · rw [List.length_append, List.length_map, List.length_range, List.length_singleton]
      exact hhit.1
    intro l hl hstr
    obtain ⟨rfl, -⟩ := (h.isString_iff hs hl).mp hstr
    refine ⟨rfl, fun hmax => ?_, hrun _ (Nat.le_refl _)⟩
    rw [hfetch _ hcopy hmax, if_neg (Int.lt_irrefl 0), strlen_string]
    · rw [List.length_map, List.length_range]
    · intro c hc
      obtain ⟨j, hj, rfl⟩ := List.mem_map.mp hc
      exact (hs.bytes j (List.mem_range.mp hj)).2
    · rw [List.length_map, List.length_range]
      omega
  · -- the scan comes to `max`, or to a page that is not the user's
    have hnone : ¬ ∃ l < max, IsString m root va l := by
      rintro ⟨l, hl, hstr⟩
      exact hhit ((h.isString_iff hs hl).mp hstr).2
    have hloop : Ends (fun _ => False) (copyinstrLoop root walks false [] va max) m _ :=
      ends_copyinstrLoop h hs (.inr ⟨hhit, Nat.succ_pos _, by omega⟩)
    obtain ⟨r, m', hcopy, rfl, ⟨hyes, -⟩ | ⟨-, rfl⟩⟩ := hloop.exists_ok
    · exact absurd hyes hhit
    refine ⟨-1, _, hcopy, ?_, iff_of_false (by decide) hnone, fun l hl hstr =>
      absurd ⟨l, hl, hstr⟩ hnone, fun _ => ⟨rfl, fun hmax => ?_⟩⟩
    · rw [List.nil_append, List.length_map, List.length_range]
      exact hle
    · rw [hfetch _ hcopy hmax]
      exact if_pos (Int.negSucc_lt_zero 0)

/-- Memory as in `smallMachine`, with "abc" across the border of two pages in use. -/
def textMachine : Machine where
  mem := fun k => if k = kernbase / pgsize + 5 then Bytes.zero.blit 4094 [97, 98]
    else if k = kernbase / pgsize + 6 then Bytes.zero.set 0 99 else Bytes.zero
  freelist := smallMachine.freelist

/-- The string "abc", which begins two bytes below the end of a page. -/
theorem copyinstr_copies_string_border : ∃ m, Nonnull m (kernbase + 2 * pgsize) ∧
    fetchstr (kernbase + 2 * pgsize) 4094 100 m = .ok ((3, [97, 98, 99, 0]), m) := by
  have hrun : (mappages (kernbase + 2 * pgsize) 0 (2 * pgsize) (kernbase + 5 * pgsize)
      (pteR ||| pteU) textMachine).check (fun r => r.1 = 0 ∧
        (∀ j < 3, r.2.userByte (kernbase + 2 * pgsize) (4094 + j) = 97 + UInt8.ofNat j) ∧
        r.2.userByte (kernbase + 2 * pgsize) (4094 + 3) = 0) = true := by decide +kernel
  obtain ⟨⟨r, m⟩, hrun, hr⟩ := Outcome.exists_of_check hrun
  obtain ⟨rfl, hbytes, hnul⟩ : r = 0 ∧ _ ∧ _ := of_decide_eq_true hr
  obtain ⟨htable, -, hnone⟩ : Table smallLayout textMachine (kernbase + 2 * pgsize) ∧ _ ∧ _ :=
    Table.blank ⟨by decide, by decide, by decide⟩ (by decide) rfl
  have hheap : Heap smallLayout textMachine := ⟨smallMachine_heap.nodup, smallMachine_heap.ram⟩
  generalize textMachine = m₀ at *
  have hmap := ends_mappages hheap htable (show 0 + 2 * pgsize - 1 < maxva by decide)
    (show (kernbase + 5 * pgsize) % pgsize = 0 by decide) (by decide)
    (show pteR ||| pteU < 1024 by decide)
  obtain ⟨hg, ⟨-, -, hflat⟩ | ⟨hbad, -⟩⟩ := hmap.of_ok hrun
  swap
  · cases hbad
  have hnonnull : Nonnull m (kernbase + 2 * pgsize) := by
    refine ⟨fun f hf => (hg.table.ram f hf).pos, fun va pa flags hva _ => ?_⟩
    rw [hflat, mapped, hnone] at hva
    split at hva
    · obtain ⟨rfl, -⟩ := Prod.mk.inj (Option.some.inj hva)
      have hbase : kernbase = 2147483648 := by decide
      omega
    · cases hva
  have hstr : IsString m (kernbase + 2 * pgsize) 4094 3 := by
    refine ⟨fun j hj => ?_, hnul, ?_⟩
    · rw [hbytes j hj]
      exact (by decide : ∀ j < 3, 97 + UInt8.ofNat j ≠ 0) j hj
    rintro a ha ⟨-, h₁, h₂⟩
    have ha : a = 0 ∨ a = pgsize := by
      simp only [pgsize] at *
      omega
    refine ⟨by rcases ha with rfl | rfl <;> decide, _, _, (hflat _).trans (if_pos ?_), ?_, ?_⟩
    · rcases ha with rfl | rfl <;> decide
    · decide
    · decide
  obtain ⟨r, dst, -, -, -, hall, -⟩ := copyinstr_copies_string hnonnull 4094 100
  obtain ⟨hdst, hfetch, -⟩ := hall 3 (by decide) hstr
  refine ⟨m, hnonnull, (hfetch (by decide)).trans ?_⟩
  rw [hdst, List.map_congr_left fun j hj => hbytes j (List.mem_range.mp hj)]
  rfl

end Xv6.Vm
