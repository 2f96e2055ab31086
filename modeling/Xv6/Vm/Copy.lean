import Xv6.Vm.Walk

/-!
# Copying between the kernel and a user

`copyout` and `copyin` go through a range of user addresses page by page.  A user address is
one whose page is mapped for the user; its byte lies at a physical address that the page table
determines.  What `copyout` does to memory is then a sequence of writes to such addresses.

## Main definitions

* `Machine.writes` — bytes stored one after the other.
* `Proper` — a page table with well-formed leaves.
* `UserAddr`, `Machine.phys`, `Machine.userByte` — user addresses and their bytes.

## Main results

* `ends_copyout`, `ends_copyin` — the two loops.
* `copy_total_and_confined` — both are total, and touch nothing but user pages.
-/

namespace Xv6.Vm

open Kern Trie

variable {K : Layout} {m m' : Machine} {root f va x k n len a : ℕ} {A : Panic → Prop}
  {src : ℕ → UInt8}

/-! ### Bytes of memory -/

/-- The byte at a physical address. -/
def Machine.byte (m : Machine) (a : ℕ) : UInt8 := (m.page a).get (a % pgsize)

/-- Store a byte at a physical address. -/
def Machine.setByte (m : Machine) (a : ℕ) (v : UInt8) : Machine :=
  m.setPage a ((m.page a).set (a % pgsize) v)

/-- Store `k` bytes one after the other, each at its own physical address. -/
def Machine.writes (m : Machine) (phys : ℕ → ℕ) (src : ℕ → UInt8) : ℕ → Machine
  | 0 => m
  | k + 1 => (m.writes phys src k).setByte (phys k) (src k)

theorem byte_setByte_self (v : UInt8) : (m.setByte a v).byte a = v := by
  rw [Machine.byte, Machine.setByte, page_setPage_self,
    Bytes.get_set_self _ (Nat.mod_lt a (by decide))]

theorem byte_setByte_of_ne {b : ℕ} (v : UInt8) (h : b ≠ a) : (m.setByte a v).byte b = m.byte b := by
  by_cases hp : b / pgsize = a / pgsize
  · have hpage : ∀ n : Machine, n.page b = n.page a :=
      fun n => by rw [Machine.page, Machine.page, hp]
    rw [Machine.byte, Machine.byte, hpage, hpage, Machine.setByte, page_setPage_self]
    refine Bytes.get_set_of_ne _ (fun hmod => h ?_) v
    rw [← Nat.div_add_mod b pgsize, ← Nat.div_add_mod a pgsize, hp, hmod]
  · rw [Machine.byte, Machine.setByte, page_setPage_of_ne _ hp, Machine.byte]

theorem page_writes_of_ne {phys : ℕ → ℕ} (h : ∀ j < k, f / pgsize ≠ phys j / pgsize) :
    (m.writes phys src k).page f = m.page f := by
  induction k with
  | zero => rfl
  | succ k ih =>
    rw [Machine.writes, Machine.setByte, page_setPage_of_ne _ (h k (Nat.lt_succ_self k))]
    exact ih fun j hj => h j (by omega)

theorem freelist_writes {phys : ℕ → ℕ} : (m.writes phys src k).freelist = m.freelist := by
  induction k with
  | zero => rfl
  | succ k ih => exact ih

theorem writes_add {phys : ℕ → ℕ} :
    (m.writes phys src n).writes (fun j => phys (n + j)) (fun j => src (n + j)) k =
      m.writes phys src (n + k) := by
  induction k with
  | zero => rfl
  | succ k ih =>
    rw [Machine.writes, ih]
    rfl

theorem writes_congr {phys phys' : ℕ → ℕ} (h : ∀ j < k, phys j = phys' j) :
    m.writes phys src k = m.writes phys' src k := by
  induction k with
  | zero => rfl
  | succ k ih =>
    rw [Machine.writes, Machine.writes, ih fun j hj => h j (by omega), h k (Nat.lt_succ_self k)]

/-- What is read back where addresses differ. -/
theorem byte_writes {phys : ℕ → ℕ} (hinj : ∀ i j, i < k → j < k → phys i = phys j → i = j)
    {j : ℕ} (hj : j < k) : (m.writes phys src k).byte (phys j) = src j := by
  induction k with
  | zero => omega
  | succ k ih =>
    rw [Machine.writes]
    by_cases hjk : j = k
    · rw [hjk, byte_setByte_self]
    · rw [byte_setByte_of_ne _ fun heq => hjk (hinj j k (by omega) (by omega) heq)]
      exact ih (fun i j hi hj => hinj i j (by omega) (by omega)) (by omega)

theorem storeBytes_eq_writes (hn : a % pgsize + n ≤ pgsize) :
    m.storeBytes a ((List.range n).map src) = m.writes (a + ·) src n := by
  induction n with
  | zero =>
    rw [Machine.storeBytes, List.range_zero, List.map_nil, Bytes.blit, Machine.writes,
      Machine.setPage, Machine.page, Function.update_eq_self]
  | succ n ih =>
    have hdiv : (a + n) / pgsize = a / pgsize := by
      simp only [pgsize] at *
      omega
    have hmod : (a + n) % pgsize = a % pgsize + n := by
      simp only [pgsize] at *
      omega
    rw [Machine.writes, ← ih (by omega), List.range_succ, List.map_append, List.map_singleton,
      Machine.storeBytes, Machine.storeBytes, Machine.setByte, Bytes.blit_concat, hmod,
      List.length_map, List.length_range]
    simp only [Machine.setPage, Machine.page, hdiv, Function.update_self, Function.update_idem]

/-! ### User addresses -/

/-- **Well-formed leaves**: the pages of the table are pages of memory, and the user pages it
maps are pages of memory that are not pages of the table. -/
structure Proper (K : Layout) (m : Machine) (root : ℕ) : Prop where
  tables : ∀ f, m.Tables root f → K.Ram f
  leaves : ∀ va pa flags, m.flat root va = some (pa, flags) → flags &&& pteU ≠ 0 →
    K.Ram pa ∧ ¬ m.Tables root pa

/-- No page of the table and no user page it maps is at address 0, which stands for no page. -/
structure Nonnull (m : Machine) (root : ℕ) : Prop where
  tables : ∀ f, m.Tables root f → f ≠ 0
  leaves : ∀ va pa flags, m.flat root va = some (pa, flags) → flags &&& pteU ≠ 0 → pa ≠ 0

theorem Proper.nonnull (h : Proper K m root) : Nonnull m root :=
  ⟨fun f hf => (h.tables f hf).pos, fun va pa flags hflat hu =>
    (h.leaves va pa flags hflat hu).1.pos⟩

/-- A user address: below `MAXVA`, in a page mapped with `PTE_V` and `PTE_U`. -/
def UserAddr (m : Machine) (root x : ℕ) : Prop :=
  x < maxva ∧ ∃ pa flags, m.flat root (pgrounddown x) = some (pa, flags) ∧
    flags &&& pteV ≠ 0 ∧ flags &&& pteU ≠ 0

/-- The physical address of a user address. -/
def Machine.phys (m : Machine) (root x : ℕ) : ℕ := m.userPage root x + x % pgsize

/-- The byte at a user address. -/
def Machine.userByte (m : Machine) (root x : ℕ) : UInt8 := m.byte (m.phys root x)

theorem lt_maxva_of_flat {e : ℕ × ℕ} (h : m.flat root x = some e) : x < maxva := by
  by_contra hge
  rw [Machine.flat, if_neg hge] at h
  cases h

theorem valid_of_flat {pa flags : ℕ} (h : m.flat root x = some (pa, flags)) :
    flags &&& pteV ≠ 0 := by
  rw [Machine.flat, if_pos (lt_maxva_of_flat h), Option.bind_eq_some_iff] at h
  obtain ⟨pte, -, hleaf⟩ := h
  rw [leaf] at hleaf
  split at hleaf
  · rename_i hv
    rw [← (Prod.mk.inj (Option.some.inj hleaf)).2, pteFlags, Nat.and_assoc]
    exact hv
  · cases hleaf

theorem aligned_of_flat {pa flags : ℕ} (h : m.flat root x = some (pa, flags)) :
    pa % pgsize = 0 := by
  rw [Machine.flat, if_pos (lt_maxva_of_flat h), Option.bind_eq_some_iff] at h
  obtain ⟨pte, -, hleaf⟩ := h
  rw [leaf] at hleaf
  split at hleaf
  · rw [← (Prod.mk.inj (Option.some.inj hleaf)).1, pte2pa_eq, pgsize]
    omega
  · cases hleaf

theorem userPage_congr (h : x / pgsize = va / pgsize) : m.userPage root x = m.userPage root va := by
  rw [Machine.userPage, Machine.userPage, flat_congr_page h]

theorem userPage_add (hn : x % pgsize + n < pgsize) :
    m.userPage root (x + n) = m.userPage root x := by
  refine userPage_congr ?_
  simp only [pgsize] at *
  omega

/-- A user address is one at which `walkaddr` finds a page. -/
theorem Nonnull.userAddr_iff (h : Nonnull m root) : UserAddr m root x ↔ m.userPage root x ≠ 0 := by
  have hpage : m.flat root (pgrounddown x) = m.flat root x := flat_congr_page (pgrounddown_div x)
  rw [UserAddr, hpage, Machine.userPage]
  constructor
  · rintro ⟨-, pa, flags, hflat, -, hu⟩
    rw [hflat]
    simp only [if_neg hu]
    exact h.leaves x pa flags hflat hu
  intro hne
  cases hflat : m.flat root x with
  | none =>
    rw [hflat] at hne
    exact absurd rfl hne
  | some e =>
    obtain ⟨pa, flags⟩ := e
    refine ⟨lt_maxva_of_flat hflat, pa, flags, rfl, valid_of_flat hflat, fun hu => hne ?_⟩
    rw [hflat]
    exact if_pos hu

theorem userPage_spec (hx : m.userPage root x ≠ 0) :
    ∃ flags, m.flat root x = some (m.userPage root x, flags) ∧ flags &&& pteU ≠ 0 := by
  rw [Machine.userPage] at hx ⊢
  cases hflat : m.flat root x with
  | none =>
    rw [hflat] at hx
    exact absurd rfl hx
  | some e =>
    obtain ⟨pa, flags⟩ := e
    rw [hflat] at hx
    have hu : flags &&& pteU ≠ 0 := fun hu => hx (if_pos hu)
    simp only [if_neg hu]
    exact ⟨flags, rfl, hu⟩

theorem aligned_userPage (hx : m.userPage root x ≠ 0) : m.userPage root x % pgsize = 0 := by
  obtain ⟨flags, hflat, -⟩ := userPage_spec hx
  exact aligned_of_flat hflat

theorem Proper.not_tables (h : Proper K m root) (hx : m.userPage root x ≠ 0) :
    ¬ m.Tables root (m.userPage root x) := by
  obtain ⟨flags, hflat, hu⟩ := userPage_spec hx
  exact (h.leaves x _ flags hflat hu).2

theorem phys_div (hx : m.userPage root x ≠ 0) :
    m.phys root x / pgsize = m.userPage root x / pgsize := by
  have hal := aligned_userPage hx
  rw [Machine.phys]
  simp only [pgsize] at *
  omega

theorem phys_add (hn : x % pgsize + n < pgsize) : m.phys root (x + n) = m.phys root x + n := by
  rw [Machine.phys, Machine.phys, userPage_add hn]
  simp only [pgsize] at *
  omega

/-- Writing to user pages leaves the table as it is. -/
theorem Proper.writes (h : Proper K m root) (src : ℕ → UInt8)
    (hx : ∀ j < k, m.userPage root (va + j) ≠ 0) :
    Proper K (m.writes (fun j => m.phys root (va + j)) src k) root ∧
      ∀ x, (m.writes (fun j => m.phys root (va + j)) src k).flat root x = m.flat root x := by
  have hpage : ∀ f, m.Tables root f →
      (m.writes (fun j => m.phys root (va + j)) src k).page f = m.page f := by
    intro f hf
    refine page_writes_of_ne fun j hj heq => ?_
    have hnot := h.not_tables (hx j hj)
    rw [phys_div (hx j hj)] at heq
    exact div_ne_of_ne (h.tables f hf).aligned (aligned_userPage (hx j hj))
      (fun hf' => hnot (hf' ▸ hf)) heq
  obtain ⟨-, htables, -, hflat⟩ := tables_congr (fun f hf => (h.tables f hf).aligned) hpage
  refine ⟨⟨fun f hf => h.tables f ((htables f).mp hf), fun x pa flags hx hu => ?_⟩, hflat⟩
  rw [hflat] at hx
  rw [htables]
  exact h.leaves x pa flags hx hu

/-! ### copyout -/

theorem copy_step {va0 : ℕ} (hva0 : va0 = pgrounddown va) (hn : n = min (pgsize - (va - va0)) len)
    (hlen : 0 < len) : va - va0 = va % pgsize ∧ va % pgsize + n ≤ pgsize ∧ 0 < n ∧ n ≤ len ∧
      (n < len → va0 + pgsize = va + n) := by
  subst hva0
  simp only [pgrounddown, pgsize] at *
  omega

theorem next_page {fuel : ℕ} (hva : va < maxva)
    (hfuel : maxva < pgrounddown va + (fuel + 1) * pgsize) :
    u64 (pgrounddown va + pgsize) = pgrounddown va + pgsize ∧ 0 < fuel ∧
      maxva < pgrounddown (pgrounddown va + pgsize) + fuel * pgsize := by
  simp only [u64, maxva, pgrounddown, pgsize, Nat.reduceAdd, Nat.reduceSub, Nat.reducePow] at *
  omega

theorem ends_copyoutLoop {fuel : ℕ} (h : Proper K m root) (hpos : 0 < fuel)
    (hfuel : maxva < pgrounddown va + fuel * pgsize) :
    Ends A (copyoutLoop root fuel va src len) m fun r m' =>
      ∃ k ≤ len, m' = m.writes (fun j => m.phys root (va + j)) src k ∧
        (∀ j < k, m.userPage root (va + j) ≠ 0) ∧
        (r = 0 ∧ k = len ∨ r = -1 ∧ k < len ∧ m.userPage root (va + k) = 0) := by
  -- on the fuel: one page is left behind in every iteration
  induction fuel generalizing m va src len with
  | zero => omega
  | succ fuel ih =>
    rw [copyoutLoop]
    split
    swap
    · exact ⟨0, Nat.zero_le len, rfl, by simp, .inl ⟨rfl, by omega⟩⟩
    rename_i hlen
    have hpage : m.userPage root (pgrounddown va) = m.userPage root va :=
      userPage_congr (pgrounddown_div va)
    rw [ends_bind, ends_walkaddr h.nonnull.tables, hpage]
    split
    · rename_i hzero
      -- the first page is not the user's
      exact ⟨0, Nat.zero_le len, rfl, by simp, .inr ⟨rfl, hlen, hzero⟩⟩
    rename_i hne
    obtain ⟨hoff, hfit, hn, hnle, hnext⟩ := copy_step rfl rfl hlen
    generalize hndef : min (pgsize - (va - pgrounddown va)) len = n at *
    have hmapped : ∀ j < n, m.userPage root (va + j) ≠ 0 := fun j hj => by
      rwa [userPage_add (by omega)]
    -- a page of bytes stored at once is those bytes, one by one
    have hstore : m.storeBytes (m.userPage root va + (va - pgrounddown va)) ((List.range n).map src)
        = m.writes (fun j => m.phys root (va + j)) src n := by
      have hal := aligned_userPage hne
      rw [hoff, storeBytes_eq_writes (by simp only [pgsize] at *; omega)]
      exact writes_congr fun j hj => (phys_add (by omega)).symm
    rw [ends_bind, ends_write, hstore]
    obtain ⟨hproper, hflat⟩ := h.writes src hmapped
    have huser : ∀ x, (m.writes (fun j => m.phys root (va + j)) src n).userPage root x
        = m.userPage root x := fun x => by rw [Machine.userPage, Machine.userPage, hflat]
    have hphys : ∀ x, (m.writes (fun j => m.phys root (va + j)) src n).phys root x
        = m.phys root x := fun x => by rw [Machine.phys, Machine.phys, huser]
    obtain ⟨hwrap, hpos', hfuel'⟩ := next_page (h.nonnull.userAddr_iff.mpr hne).1 hfuel
    rw [hwrap]
    refine (ih hproper hpos' hfuel').mono fun r m' hm' => ?_
    obtain ⟨k, hk, rfl, hall, hend⟩ := hm'
    -- only if bytes are left does the rest start where this page ends
    have hva : 0 < len - n → ∀ j, pgrounddown va + pgsize + j = va + (n + j) := by
      intro hrest j
      rw [hnext (by omega), Nat.add_assoc]
    refine ⟨n + k, by omega, ?_, fun j hj => ?_, ?_⟩
    · rw [← writes_add]
      refine writes_congr fun j hj => ?_
      rw [hphys, hva (by omega)]
    · by_cases hjn : j < n
      · exact hmapped j hjn
      · have := hall (j - n) (by omega)
        rwa [huser, hva (by omega), Nat.add_sub_cancel' (by omega)] at this
    · rcases hend with ⟨rfl, hk'⟩ | ⟨rfl, hk', hzero⟩
      · exact .inl ⟨rfl, by omega⟩
      · rw [huser, hva (by omega)] at hzero
        exact .inr ⟨rfl, by omega, hzero⟩

/-- **copyout** stores the bytes in order, up to the end or to the first address that is not
a user address. -/
theorem ends_copyout (h : Proper K m root) :
    Ends A (copyout root va src len) m fun r m' =>
      ∃ k ≤ len, m' = m.writes (fun j => m.phys root (va + j)) src k ∧
        (∀ j < k, m.userPage root (va + j) ≠ 0) ∧
        (r = 0 ∧ k = len ∨ r = -1 ∧ k < len ∧ m.userPage root (va + k) = 0) := by
  refine ends_copyoutLoop h (Nat.succ_pos _) ?_
  have : maxva < walks * pgsize := by decide
  omega

/-! ### copyin -/

theorem get_userPage (hx : m.userPage root x ≠ 0) {j : ℕ}
    (hj : x % pgsize + j < pgsize) :
    (m.page (m.userPage root x)).get (x % pgsize + j) = m.userByte root (x + j) := by
  have hal := aligned_userPage hx
  have hphys : m.phys root (x + j) = m.userPage root x + (x % pgsize + j) := by
    rw [phys_add hj, Machine.phys, Nat.add_assoc]
  have hdiv : m.phys root (x + j) / pgsize = m.userPage root x / pgsize := by
    simp only [hphys, pgsize] at *
    omega
  have hmod : m.phys root (x + j) % pgsize = x % pgsize + j := by
    simp only [hphys, pgsize] at *
    omega
  rw [Machine.userByte, Machine.byte, hmod, Machine.page, Machine.page, hdiv]

theorem slice_userPage (hx : m.userPage root x ≠ 0)
    (hn : x % pgsize + n ≤ pgsize) :
    (m.page (m.userPage root x)).slice (x % pgsize) n
      = (List.range n).map fun j => m.userByte root (x + j) := by
  refine List.map_congr_left fun j hj => ?_
  rw [List.mem_range] at hj
  exact get_userPage hx (by omega)

theorem ends_copyinLoop {fuel : ℕ} {dst : List UInt8} (h : Nonnull m root) (hpos : 0 < fuel)
    (hfuel : maxva < pgrounddown va + fuel * pgsize) :
    Ends A (copyinLoop root fuel dst va len) m fun r m' => m' = m ∧
      ∃ k ≤ len, r.2 = dst ++ (List.range k).map (fun j => m.userByte root (va + j)) ∧
        (∀ j < k, m.userPage root (va + j) ≠ 0) ∧
        (r.1 = 0 ∧ k = len ∨ r.1 = -1 ∧ k < len ∧ m.userPage root (va + k) = 0) := by
  induction fuel generalizing va dst len with
  | zero => omega
  | succ fuel ih =>
    rw [copyinLoop]
    split
    swap
    · exact ⟨rfl, 0, Nat.zero_le len, (List.append_nil dst).symm, by simp, .inl ⟨rfl, by omega⟩⟩
    rename_i hlen
    have hpage : m.userPage root (pgrounddown va) = m.userPage root va :=
      userPage_congr (pgrounddown_div va)
    rw [ends_bind, ends_walkaddr h.tables, hpage]
    split
    · rename_i hzero
      -- the first page is not the user's
      exact ⟨rfl, 0, Nat.zero_le len, (List.append_nil dst).symm, by simp, .inr ⟨rfl, hlen, hzero⟩⟩
    rename_i hne
    obtain ⟨hoff, hfit, hn, hnle, hnext⟩ := copy_step rfl rfl hlen
    generalize hndef : min (pgsize - (va - pgrounddown va)) len = n at *
    have hmapped : ∀ j < n, m.userPage root (va + j) ≠ 0 := fun j hj => by
      rwa [userPage_add (by omega)]
    rw [ends_bind, ends_read, hoff, slice_userPage hne hfit]
    obtain ⟨hwrap, hpos', hfuel'⟩ := next_page (h.userAddr_iff.mpr hne).1 hfuel
    rw [hwrap]
    refine (ih hpos' hfuel').mono fun r m' hm' => ?_
    obtain ⟨rfl, k, hk, hdst, hall, hend⟩ := hm'
    -- the rest of the range starts with the next page
    have hva : 0 < len - n → ∀ j, pgrounddown va + pgsize + j = va + (n + j) := by
      intro hrest j
      rw [hnext (by omega), Nat.add_assoc]
    refine ⟨rfl, n + k, by omega, ?_, fun j hj => ?_, ?_⟩
    · have hmap : (List.range k).map (fun j => m'.userByte root (pgrounddown va + pgsize + j))
          = (List.range k).map ((fun j => m'.userByte root (va + j)) ∘ (n + ·)) := by
        refine List.map_congr_left fun j hj => ?_
        rw [List.mem_range] at hj
        rw [hva (by omega), Function.comp_apply]
      rw [hdst, hmap, List.append_assoc, List.range_add, List.map_append, List.map_map]
    · by_cases hjn : j < n
      · exact hmapped j hjn
      · have := hall (j - n) (by omega)
        rwa [hva (by omega), Nat.add_sub_cancel' (by omega)] at this
    · rcases hend with ⟨hr, hk'⟩ | ⟨hr, hk', hzero⟩
      · exact .inl ⟨hr, by omega⟩
      · rw [hva (by omega)] at hzero
        exact .inr ⟨hr, by omega, hzero⟩

/-- **copyin** reads the bytes in order, up to the end or to the first address that is not a
user address. -/
theorem ends_copyin (h : Nonnull m root) (va len : ℕ) :
    Ends A (copyin root va len) m fun r m' => m' = m ∧
      ∃ k ≤ len, r.2 = (List.range k).map (fun j => m.userByte root (va + j)) ∧
        (∀ j < k, m.userPage root (va + j) ≠ 0) ∧
        (r.1 = 0 ∧ k = len ∨ r.1 = -1 ∧ k < len ∧ m.userPage root (va + k) = 0) := by
  refine ends_copyinLoop h (Nat.succ_pos _) ?_
  have : maxva < walks * pgsize := by decide
  omega

/-! ### Total and confined -/

/-- Every page that the `len` bytes from `va` on touch is a user page below `MAXVA`. -/
def UserRange (m : Machine) (root va len : ℕ) : Prop :=
  ∀ a, a % pgsize = 0 → Touches va len a → UserAddr m root a

theorem Nonnull.userRange_iff (h : Nonnull m root) :
    UserRange m root va len ↔ ∀ j < len, m.userPage root (va + j) ≠ 0 := by
  constructor
  · intro hr j hj
    have htouch : Touches va len (pgrounddown (va + j)) := by
      simp only [Touches, pgrounddown, pgsize]
      omega
    have hpage := h.userAddr_iff.mp (hr _ (pgrounddown_mod _) htouch)
    rwa [userPage_congr (pgrounddown_div _)] at hpage
  · rintro hr a ha ⟨hlen, h₁, h₂⟩
    refine h.userAddr_iff.mpr ?_
    have hpage := hr (max a va - va) (by omega)
    have hsame : (va + (max a va - va)) / pgsize = a / pgsize := by
      simp only [pgsize] at *
      omega
    rwa [userPage_congr hsame] at hpage

/-- The pages of a range are mapped to distinct frames. -/
def DistinctFrames (m : Machine) (root va len : ℕ) : Prop :=
  ∀ a b pa flags flags', a % pgsize = 0 → b % pgsize = 0 → Touches va len a → Touches va len b →
    m.flat root a = some (pa, flags) → m.flat root b = some (pa, flags') → a = b

/-- Different user addresses of a range are different physical addresses. -/
theorem phys_inj (hr : ∀ j < len, m.userPage root (va + j) ≠ 0)
    (hd : DistinctFrames m root va len) {i j : ℕ} (hi : i < len) (hj : j < len)
    (heq : m.phys root (va + i) = m.phys root (va + j)) : i = j := by
  obtain ⟨fi, hfi, -⟩ := userPage_spec (hr i hi)
  obtain ⟨fj, hfj, -⟩ := userPage_spec (hr j hj)
  have hai := aligned_of_flat hfi
  have haj := aligned_of_flat hfj
  have hsame : m.userPage root (va + i) = m.userPage root (va + j) ∧
      (va + i) % pgsize = (va + j) % pgsize := by
    simp only [Machine.phys, pgsize] at *
    omega
  have htouch : ∀ t < len, Touches va len (pgrounddown (va + t)) := by
    intro t ht
    simp only [Touches, pgrounddown, pgsize]
    omega
  have hpages := hd (pgrounddown (va + i)) (pgrounddown (va + j)) (m.userPage root (va + i)) fi fj
    (pgrounddown_mod _) (pgrounddown_mod _) (htouch i hi) (htouch j hj)
    (by rw [flat_congr_page (pgrounddown_div _), hfi])
    (by rw [flat_congr_page (pgrounddown_div _), hfj, hsame.1])
  obtain ⟨-, hmod⟩ := hsame
  simp only [pgrounddown, pgsize] at *
  omega

/-- What was copied out is copied in again. -/
theorem Proper.copyin_writes (h : Proper K m root) (hr : ∀ j < len, m.userPage root (va + j) ≠ 0)
    (hd : DistinctFrames m root va len) :
    copyin root va len (m.writes (fun j => m.phys root (va + j)) src len) =
      .ok ((0, (List.range len).map src), m.writes (fun j => m.phys root (va + j)) src len) := by
  obtain ⟨hproper, hflat⟩ := h.writes src hr
  generalize hw : m.writes (fun j => m.phys root (va + j)) src len = w at *
  have huser : ∀ x, w.userPage root x = m.userPage root x := fun x => by
    rw [Machine.userPage, Machine.userPage, hflat]
  obtain ⟨r, m', hrun, rfl, k, hk, hdst, -, hend⟩ :=
    (ends_copyin (A := fun _ => False) hproper.nonnull va len).exists_ok
  rcases hend with ⟨hr0, rfl⟩ | ⟨-, hklt, hzero⟩
  · rw [hrun]
    have hbytes : (List.range k).map (fun j => m'.userByte root (va + j))
        = (List.range k).map src := by
      refine List.map_congr_left fun j hj => ?_
      rw [List.mem_range] at hj
      rw [Machine.userByte, Machine.phys, huser, ← Machine.phys, ← hw]
      exact byte_writes (fun i j hi hj => phys_inj hr hd hi hj) hj
    rw [← hbytes, ← hdst, ← hr0]
  · rw [huser] at hzero
    exact absurd hzero (hr k hklt)

/-- **copyout and copyin are total and confined.**  For any user address and length they end
without a panic, and succeed exactly if every page of the range is a user page below `MAXVA`.
They write, or read, the bytes in order: all of them, or those before the first address that is
not a user address.  Only user pages are written, and what was copied out is copied in again
if the pages have frames of their own. -/
theorem copy_total_and_confined (h : Proper K m root) (va len : ℕ) (src : ℕ → UInt8) :
    (Ends (fun _ => False) (copyout root va src len) m fun r m' =>
      (r = 0 ∨ r = -1) ∧ (r = 0 ↔ UserRange m root va len) ∧
      (∃ k ≤ len, (r = 0 → k = len) ∧ (∀ j < k, UserAddr m root (va + j)) ∧
        m' = m.writes (fun j => m.phys root (va + j)) src k) ∧
      (∀ f, f % pgsize = 0 → (∀ a flags, m.flat root a = some (f, flags) → flags &&& pteU = 0) →
        m'.page f = m.page f) ∧
      (r = 0 → DistinctFrames m root va len →
        copyin root va len m' = .ok ((0, (List.range len).map src), m'))) ∧
    (Ends (fun _ => False) (copyin root va len) m fun r m' => m' = m ∧
      (r.1 = 0 ∨ r.1 = -1) ∧ (r.1 = 0 ↔ UserRange m root va len) ∧
      ∃ k ≤ len, (r.1 = 0 → k = len) ∧ (∀ j < k, UserAddr m root (va + j)) ∧
        r.2 = (List.range k).map fun j => m.userByte root (va + j)) := by
  have hn := h.nonnull
  constructor
  · refine (ends_copyout h).mono fun r m' hend => ?_
    obtain ⟨k, hk, rfl, hall, hend⟩ := hend
    -- a frame that no user page maps to is not written
    have hframe : ∀ f, f % pgsize = 0 →
        (∀ a flags, m.flat root a = some (f, flags) → flags &&& pteU = 0) →
        (m.writes (fun j => m.phys root (va + j)) src k).page f = m.page f := by
      intro f hf hno
      refine page_writes_of_ne fun j hj heq => ?_
      obtain ⟨flags, hflat, hu⟩ := userPage_spec (hall j hj)
      rw [phys_div (hall j hj)] at heq
      refine div_ne_of_ne hf (aligned_of_flat hflat) (fun hpa => hu (hno (va + j) flags ?_)) heq
      rw [hpa, hflat]
    rcases hend with ⟨rfl, rfl⟩ | ⟨rfl, hlt, hzero⟩
    · exact ⟨.inl rfl, iff_of_true rfl (hn.userRange_iff.mpr hall),
        ⟨k, hk, fun _ => rfl, fun j hj => hn.userAddr_iff.mpr (hall j hj), rfl⟩, hframe,
        fun _ hd => h.copyin_writes hall hd⟩
    · have hne : (-1 : ℤ) ≠ 0 := by decide
      refine ⟨.inr rfl, iff_of_false hne fun hr => hn.userRange_iff.mp hr k hlt hzero,
        ⟨k, hk, fun h0 => absurd h0 hne, fun j hj => hn.userAddr_iff.mpr (hall j hj), rfl⟩, hframe,
        fun h0 => absurd h0 hne⟩
  · refine (ends_copyin hn va len).mono fun r m' hend => ?_
    obtain ⟨rfl, k, hk, hdst, hall, hend⟩ := hend
    rcases hend with ⟨hr0, rfl⟩ | ⟨hr1, hlt, hzero⟩
    · exact ⟨rfl, .inl hr0, iff_of_true hr0 (hn.userRange_iff.mpr hall), k, hk, fun _ => rfl,
        fun j hj => hn.userAddr_iff.mpr (hall j hj), hdst⟩
    · have hne : r.1 ≠ 0 := by
        rw [hr1]
        decide
      exact ⟨rfl, .inr hr1, iff_of_false hne fun hr => hn.userRange_iff.mp hr k hlt hzero, k, hk,
        fun h0 => absurd h0 hne, fun j hj => hn.userAddr_iff.mpr (hall j hj), hdst⟩

/-- A table that maps its first page only, to a page of zeroes. -/
theorem exists_onePage : ∃ m, Proper smallLayout m (kernbase + 2 * pgsize) ∧
    (∀ va, m.flat (kernbase + 2 * pgsize) va =
      if va < pgsize then some (kernbase + 5 * pgsize, pteR ||| pteW ||| pteU ||| pteV) else none) ∧
    m.page (kernbase + 5 * pgsize) = Bytes.zero := by
  have hrun : ((mappages (kernbase + 2 * pgsize) 0 pgsize (kernbase + 5 * pgsize)
      (pteR ||| pteW ||| pteU)) smallMachine).check (fun r => r.1 = 0) = true := by decide +kernel
  obtain ⟨⟨r, m⟩, hrun, hr⟩ := Outcome.exists_of_check hrun
  obtain rfl : r = 0 := of_decide_eq_true hr
  have hheap := smallMachine_heap
  obtain ⟨htable, htables, hnone⟩ := smallMachine_table
  have hfree : smallMachine.freelist = [kernbase + 3 * pgsize, kernbase + 4 * pgsize] := rfl
  have hzero : smallMachine.page (kernbase + 5 * pgsize) = Bytes.zero := rfl
  generalize smallMachine = m₀ at *
  have hmap := ends_mappages hheap htable (show 0 + pgsize - 1 < maxva by decide)
    (show (kernbase + 5 * pgsize) % pgsize = 0 by decide) (by decide)
    (show pteR ||| pteW ||| pteU < 1024 by decide)
  obtain ⟨hg, ⟨-, -, hflat⟩ | ⟨hbad, -⟩⟩ := hmap.of_ok hrun
  swap
  · cases hbad
  have hflat' : ∀ va, m.flat (kernbase + 2 * pgsize) va =
      if va < pgsize then some (kernbase + 5 * pgsize, pteR ||| pteW ||| pteU ||| pteV)
      else none := by
    intro va
    have hstart : pgrounddown 0 = 0 := rfl
    have hstop : pgrounddown (0 + pgsize - 1) + pgsize = pgsize := rfl
    rw [hflat, mapped, hnone, hstart, hstop]
    by_cases hva : va < pgsize
    · have hzero : pgrounddown va = 0 := by rw [pgrounddown, Nat.div_eq_of_lt hva, Nat.zero_mul]
      rw [if_pos ⟨Nat.zero_le va, hva⟩, if_pos hva, hzero, Nat.sub_zero, Nat.add_zero]
    · rw [if_neg fun hin => hva hin.2, if_neg hva]
  have hnew : ¬ (m₀.Tables (kernbase + 2 * pgsize) (kernbase + 5 * pgsize) ∨
      kernbase + 5 * pgsize ∈ m₀.freelist) := by
    rw [htables, hfree]
    decide
  refine ⟨m, ⟨fun f hf => hg.table.ram f hf, fun va pa flags hva _ => ?_⟩, hflat', ?_⟩
  · rw [hflat'] at hva
    split at hva
    · obtain ⟨rfl, -⟩ := Prod.mk.inj (Option.some.inj hva)
      exact ⟨⟨by decide, by decide, by decide⟩, fun ht => hnew ((hg.keep _).mp (.inl ht))⟩
    · cases hva
  · rw [hg.page _ (by decide) (fun ht => hnew (.inl ht)) fun hf => hnew (.inr hf), hzero]

/-- Twenty bytes at address ten of that table, copied out and copied in again. -/
theorem copy_total_and_confined_onePage : ∃ m m',
    Proper smallLayout m (kernbase + 2 * pgsize) ∧
      copyout (kernbase + 2 * pgsize) 10 (fun i => UInt8.ofNat i) 20 m = .ok (0, m') ∧
      copyin (kernbase + 2 * pgsize) 10 20 m' =
        .ok ((0, (List.range 20).map fun i => UInt8.ofNat i), m') := by
  obtain ⟨m, hproper, hflat, -⟩ := exists_onePage
  have htouch : ∀ a, a % pgsize = 0 → Touches 10 20 a → a = 0 := by
    rintro a ha ⟨-, h₁, h₂⟩
    simp only [pgsize] at *
    omega
  obtain ⟨hout, -⟩ := copy_total_and_confined hproper 10 20 fun i => UInt8.ofNat i
  obtain ⟨r, m', hrun, -, hzero, -, -, hin⟩ := hout.exists_ok
  have hr : r = 0 := hzero.mpr fun a ha ht => by
    rw [htouch a ha ht]
    exact ⟨by decide, _, _, (hflat _).trans (if_pos (by decide)), by decide, by decide⟩
  subst hr
  refine ⟨m, m', hproper, hrun, hin rfl fun a b _ _ _ ha hb hta htb _ _ => ?_⟩
  rw [htouch a ha hta, htouch b hb htb]

end Xv6.Vm
