import Xv6.Bio.Model

/-!
# Invariants of the buffer cache

The ring, the identities of the buffers, their locks and their reference counts, over
every interleaving of clients that keep to `Disciplined` and `NoOverflow`.

## Main definitions

* `InRing` — the links form one ring through all buffers.
* `Identity`, `Locks`, `Counts` — who a buffer belongs to, who has it locked, and how
  many references it has.
* `Inv` — the four together.

## Main results

* `step_inversion` — what each event does when it completes.
* `inv_step`, `inv_reach` — the invariant is kept by every step, and holds in every
  reachable state.
-/

namespace Xv6.Bio

open Function

variable {S : Type*} [DecidableEq S]

/-! ### Projections of the updates -/

section Frame

variable (s : Sys S) (i j : Fin nbuf) (f : Buf S → Buf S) (p : S) (u : Option Use)

@[simp] theorem goto_buf : (s.goto p u).buf = s.buf := rfl
@[simp] theorem goto_links : (s.goto p u).links = s.links := rfl
@[simp] theorem goto_disk : (s.goto p u).disk = s.disk := rfl
@[simp] theorem goto_use : (s.goto p u).use = update s.use p u := rfl

omit [DecidableEq S]

@[simp] theorem modifyBuf_self : (s.modifyBuf i f).buf i = f (s.buf i) := update_self ..

theorem modifyBuf_of_ne {i j : Fin nbuf} (h : j ≠ i) : (s.modifyBuf i f).buf j = s.buf j :=
  update_of_ne h ..

theorem modifyBuf_field {α : Type*} (g : Buf S → α) (h : ∀ x, g (f x) = g x) :
    g ((s.modifyBuf i f).buf j) = g (s.buf j) := by
  by_cases hj : j = i
  · rw [hj, modifyBuf_self, h]
  · rw [modifyBuf_of_ne s f hj]

@[simp] theorem fill_links : (s.fill i).links = s.links := by unfold Sys.fill; split <;> rfl
@[simp] theorem fill_disk : (s.fill i).disk = s.disk := by unfold Sys.fill; split <;> rfl
@[simp] theorem fill_use : (s.fill i).use = s.use := by unfold Sys.fill; split <;> rfl

theorem fill_field {α : Type*} (g : Buf S → α)
    (h : ∀ x v, g { x with data := v, valid := true } = g x) :
    g ((s.fill i).buf j) = g (s.buf j) := by
  unfold Sys.fill
  split
  · rfl
  · exact modifyBuf_field s i j _ g fun x => h x _

theorem fill_valid : ((s.fill i).buf i).valid = true := by
  unfold Sys.fill
  split
  · assumption
  · rw [modifyBuf_self]

@[simp] theorem brelse_buf : (s.brelse i).buf = (s.bunpin i).buf := by
  unfold Sys.brelse; dsimp only; split <;> rfl
@[simp] theorem brelse_disk : (s.brelse i).disk = s.disk := by
  unfold Sys.brelse; dsimp only; split <;> rfl
@[simp] theorem brelse_use : (s.brelse i).use = s.use := by
  unfold Sys.brelse; dsimp only; split <;> rfl

end Frame

variable {x x' : Sys S × Ghost} {e : Event S} {s s' t : Sys S} {p : S} {i : Fin nbuf} {u : Use}

/-! ### What an event does -/

/-- The states an event can lead to. -/
def Effect (s : Sys S) (s' : Sys S) : Event S → Prop
  | .bget p dev b => s.use p = none ∧ ∃ i,
      (s.lookup dev b = some (some i) ∧ s' = (s.bpin i).goto p (some ⟨dev, b, i, .waiting⟩)) ∨
      (s.lookup dev b = some none ∧ s.victim = some (some i) ∧
        s' = (s.recycle i dev b).goto p (some ⟨dev, b, i, .waiting⟩))
  | .acquiresleep p => ∃ dev b i, s.use p = some ⟨dev, b, i, .waiting⟩ ∧ (s.buf i).owner = none ∧
      s' = (s.setOwner i (some p)).goto p (some ⟨dev, b, i, .locked⟩)
  | .bread p => ∃ dev b i, s.use p = some ⟨dev, b, i, .locked⟩ ∧
      s' = (s.fill i).goto p (some ⟨dev, b, i, .holding false⟩)
  | .modify p v => ∃ dev b i c, s.use p = some ⟨dev, b, i, .holding c⟩ ∧
      s' = (s.modifyBuf i fun x => { x with data := v }).goto p (some ⟨dev, b, i, .holding true⟩)
  | .bwrite p => ∃ dev b i c, s.use p = some ⟨dev, b, i, .holding c⟩ ∧
      s' = (s.writeDisk i).goto p (some ⟨dev, b, i, .holding false⟩)
  | .releasesleep p => ∃ dev b i c, s.use p = some ⟨dev, b, i, .holding c⟩ ∧
      (s.buf i).owner = some p ∧ s' = (s.setOwner i none).goto p (some ⟨dev, b, i, .releasing⟩)
  | .brelse p => ∃ dev b i, s.use p = some ⟨dev, b, i, .releasing⟩ ∧
      s' = (s.brelse i).goto p none
  | .bpin i => s' = s.bpin i
  | .bunpin i => s' = s.bunpin i

theorem step_inversion (h : step s e = .ok s') : Effect s s' e := by
  cases e with
  | bget p dev b =>
    simp only [step] at h
    split at h
    · next hp =>
      refine ⟨hp, ?_⟩
      obtain ⟨r, hr, hs⟩ := Outcome.bind_eq_ok.mp h
      rw [Outcome.ok.injEq] at hs
      unfold Sys.bget at hr
      split at hr
      · next i hl =>
        cases hr
        exact ⟨i, .inl ⟨hl, hs.symm⟩⟩
      · next hl =>
        split at hr
        · next i hv =>
          cases hr
          exact ⟨i, .inr ⟨hl, hv, hs.symm⟩⟩
        · cases hr
        · cases hr
      · cases hr
    · cases h
  | acquiresleep p =>
    simp only [step] at h
    split at h
    · next dev b i hp =>
      split at h
      · next ho =>
        cases h
        exact ⟨dev, b, i, hp, ho, rfl⟩
      · cases h
    · cases h
  | bread p =>
    simp only [step] at h
    split at h
    · next dev b i hp =>
      cases h
      exact ⟨dev, b, i, hp, rfl⟩
    · cases h
  | modify p v =>
    simp only [step] at h
    split at h
    · next dev b i c hp =>
      cases h
      exact ⟨dev, b, i, c, hp, rfl⟩
    · cases h
  | bwrite p =>
    simp only [step] at h
    split at h
    · next dev b i c hp =>
      split at h
      · cases h
        exact ⟨dev, b, i, c, hp, rfl⟩
      · cases h
    · cases h
  | releasesleep p =>
    simp only [step] at h
    split at h
    · next dev b i c hp =>
      split at h
      · next ho =>
        cases h
        exact ⟨dev, b, i, c, hp, ho, rfl⟩
      · cases h
    · cases h
  | brelse p =>
    simp only [step] at h
    split at h
    · next dev b i hp =>
      cases h
      exact ⟨dev, b, i, hp, rfl⟩
    · cases h
  | bpin i => exact (Outcome.ok.inj h).symm
  | bunpin i => exact (Outcome.ok.inj h).symm

/-! ### The ring -/

/-- The links form one ring through the head and all buffers. -/
def InRing (s : Sys S) : Prop := ∃ l, Ring s.links l ∧ ∀ i, i ∈ l

omit [DecidableEq S] in
theorem inRing_binit (d : BitVec 32 → Block) : InRing (binit d : Sys S) := by
  -- pushing the nodes of a list one after the other leaves them in reverse order
  have hpush : ∀ (m l : List (Fin nbuf)) (L : Links (Fin nbuf)), Ring L l → (m ++ l).Nodup →
      Ring (m.foldl Links.pushFront L) (m.reverse ++ l) := by
    intro m
    induction m with
    | nil => exact fun l L hL _ => hL
    | cons i m ih =>
      intro l L hL hnd
      rw [List.foldl_cons, List.reverse_cons, List.append_assoc, List.singleton_append]
      rw [List.cons_append, List.nodup_cons] at hnd
      refine ih (i :: l) _ (hL.pushFront fun hmem => hnd.1 (List.mem_append_right m hmem)) ?_
      exact List.nodup_middle.mpr (List.nodup_cons.mpr hnd)
  have hempty : Ring (⟨fun _ => none, fun _ => none⟩ : Links (Fin nbuf)) [] :=
    ⟨List.nodup_nil, List.isChain_pair.mpr ⟨rfl, rfl⟩⟩
  have hall := hpush (List.finRange nbuf) [] _ hempty
    (by simpa using List.nodup_finRange nbuf)
  exact ⟨_, hall, fun i => by simp⟩

omit [DecidableEq S] in
theorem InRing.length_eq {l : List (Fin nbuf)} (hnd : l.Nodup) (hall : ∀ i, i ∈ l) :
    l.length = nbuf := by
  have hperm : l.Perm (List.finRange nbuf) :=
    (List.perm_ext_iff_of_nodup hnd (List.nodup_finRange nbuf)).mpr fun i => by simp [hall i]
  rw [hperm.length_eq, List.length_finRange]

omit [DecidableEq S] in
/-- The first loop of `bget` finds a buffer with the identity asked for, if there is one. -/
theorem InRing.lookup (h : InRing s) (dev : DevNo) (b : BlockNo) :
    ∃ r, s.lookup dev b = some r ∧
      (∀ i, r = some i → (s.buf i).dev = dev ∧ (s.buf i).blockno = b) ∧
      (r = none → ∀ i, ¬ ((s.buf i).dev = dev ∧ (s.buf i).blockno = b)) := by
  obtain ⟨l, hring, hall⟩ := h
  have hwalk := hring.walk_next fun i => (s.buf i).dev == dev && (s.buf i).blockno == b
  rw [InRing.length_eq hring.nodup hall] at hwalk
  refine ⟨_, hwalk, ?_, ?_⟩
  · intro i hi
    simpa using List.find?_some hi
  · intro hnone i
    simpa using List.find?_eq_none.mp hnone i (hall i)

omit [DecidableEq S] in
/-- The second loop of `bget` finds an unreferenced buffer, if there is one. -/
theorem InRing.victim (h : InRing s) :
    ∃ r, s.victim = some r ∧ (∀ i, r = some i → (s.buf i).refcnt = 0) ∧
      (r = none → ∀ i, (s.buf i).refcnt ≠ 0) := by
  obtain ⟨l, hring, hall⟩ := h
  have hwalk := hring.walk_prev fun i => (s.buf i).refcnt == 0
  rw [InRing.length_eq hring.nodup hall] at hwalk
  refine ⟨_, hwalk, ?_, ?_⟩
  · intro i hi
    simpa using List.find?_some hi
  · intro hnone i
    simpa using List.find?_eq_none.mp hnone i (List.mem_reverse.mpr (hall i))

/-- The buffer whose last reference an event gives up through `brelse`. -/
def released (s : Sys S) : Event S → Option (Fin nbuf)
  | .brelse p => ((s.use p).map Use.buf).filter fun i => ((s.bunpin i).buf i).refcnt = 0
  | _ => none

/-- The links change only when a buffer is released, which moves it to the front. -/
theorem links_of_effect (he : Effect s s' e) :
    s'.links = (released s e).elim s.links fun i => (s.links.unlink i).pushFront i := by
  cases e with
  | bget p dev b => obtain ⟨-, i, ⟨-, rfl⟩ | ⟨-, -, rfl⟩⟩ := he <;> rfl
  | acquiresleep p => obtain ⟨dev, b, i, -, -, rfl⟩ := he; rfl
  | bread p => obtain ⟨dev, b, i, -, rfl⟩ := he; exact fill_links s i
  | modify p v => obtain ⟨dev, b, i, c, -, rfl⟩ := he; rfl
  | bwrite p => obtain ⟨dev, b, i, c, -, rfl⟩ := he; rfl
  | releasesleep p => obtain ⟨dev, b, i, c, -, -, rfl⟩ := he; rfl
  | brelse p =>
    obtain ⟨dev, b, i, hp, rfl⟩ := he
    rw [released, hp, Option.map_some, Option.filter_some, goto_links, Sys.brelse]
    simp only [decide_eq_true_eq]
    split_ifs <;> rfl
  | bpin i => subst he; rfl
  | bunpin i => subst he; rfl

theorem inRing_step (h : InRing s) (he : Effect s s' e) : InRing s' := by
  rw [InRing, links_of_effect he]
  cases released s e with
  | none => exact h
  | some i =>
    -- the buffer moves from its place in the list to the front
    obtain ⟨l, hring, hall⟩ := h
    obtain ⟨l₁, l₂, rfl⟩ := List.mem_iff_append.mp (hall i)
    have hnd := List.nodup_cons.mp (List.nodup_middle.mp hring.nodup)
    refine ⟨i :: (l₁ ++ l₂), hring.unlink.pushFront hnd.1, ?_⟩
    intro j
    simpa [or_left_comm] using hall j

/-! ### Reference counts -/

section Counts

variable [Fintype S]

/-- A session taking up another buffer, or none, exchanges one reference for another. -/
theorem refs_goto (s : Sys S) (p : S) (u : Option Use) (i : Fin nbuf) :
    refs (s.goto p u) i + (if (s.use p).any (fun v => v.buf = i) then 1 else 0)
      = refs s i + (if u.any (fun v => v.buf = i) then 1 else 0) :=
  sum_update_add (fun o : Option Use => if o.any (fun v => v.buf = i) then 1 else 0) s.use p u

omit [DecidableEq S] in
theorem refs_congr (h : s.use = t.use) (i : Fin nbuf) : refs s i = refs t i := by
  rw [refs, refs, h]

/-- A session on its way through one buffer keeps its reference. -/
theorem refs_goto_stage {dev : DevNo} {b : BlockNo} {c c' : Stage}
    (hp : s.use p = some ⟨dev, b, i, c⟩) (j : Fin nbuf) :
    refs (s.goto p (some ⟨dev, b, i, c'⟩)) j = refs s j := by
  have := refs_goto s p (some ⟨dev, b, i, c'⟩) j
  simpa [hp] using this

theorem one_le_refs (hp : s.use p = some u) : 1 ≤ refs s u.buf := by
  have := refs_goto s p none u.buf
  simp [hp] at this
  omega

/-- The reference counts are right, and did not overflow. -/
structure Counts (x : Sys S × Ghost) : Prop where
  lt : ∀ i, count x i < 2 ^ 32
  refcnt : ∀ i, (x.1.buf i).refcnt = BitVec.ofNat 32 (count x i)
  loose_le : ∀ i, x.2.loose i ≤ x.2.pins i

omit [DecidableEq S] in
theorem Counts.toNat (h : Counts x) (i : Fin nbuf) : (x.1.buf i).refcnt.toNat = count x i := by
  rw [h.refcnt i, BitVec.toNat_ofNat, Nat.mod_eq_of_lt (h.lt i)]

omit [DecidableEq S] in
theorem Counts.eq_zero (h : Counts x) (hi : (x.1.buf i).refcnt = 0) : count x i = 0 := by
  rw [← h.toNat i, hi]
  rfl

omit [DecidableEq S] in
theorem Counts.congr (h : Counts x) (hg : x'.2.pins = x.2.pins)
    (hl : ∀ i, x'.2.loose i ≤ x'.2.pins i) (hr : ∀ i, refs x'.1 i = refs x.1 i)
    (hb : ∀ i, (x'.1.buf i).refcnt = (x.1.buf i).refcnt) : Counts x' := by
  have hc : ∀ i, count x' i = count x i := fun i => by rw [count, count, hr i, hg]
  exact ⟨fun i => hc i ▸ h.lt i, fun i => by rw [hb i, hc i, h.refcnt i], hl⟩

omit [DecidableEq S] in
theorem Counts.gain (h : Counts x) (i : Fin nbuf) (hlt : count x i + 1 < 2 ^ 32)
    (hl : ∀ j, x'.2.loose j ≤ x'.2.pins j) (hi : count x' i = count x i + 1)
    (hj : ∀ j, j ≠ i → count x' j = count x j)
    (hbi : (x'.1.buf i).refcnt = (x.1.buf i).refcnt + 1)
    (hbj : ∀ j, j ≠ i → (x'.1.buf j).refcnt = (x.1.buf j).refcnt) : Counts x' := by
  refine ⟨fun j => ?_, fun j => ?_, hl⟩
  · by_cases hji : j = i
    · rw [hji, hi]
      exact hlt
    · rw [hj j hji]
      exact h.lt j
  · by_cases hji : j = i
    · rw [hji, hbi, hi, h.refcnt i, BitVec.ofNat_add]
      rfl
    · rw [hbj j hji, hj j hji, h.refcnt j]

omit [DecidableEq S] in
theorem Counts.lose (h : Counts x) (i : Fin nbuf) (hl : ∀ j, x'.2.loose j ≤ x'.2.pins j)
    (hi : count x' i + 1 = count x i) (hj : ∀ j, j ≠ i → count x' j = count x j)
    (hbi : (x'.1.buf i).refcnt = (x.1.buf i).refcnt - 1)
    (hbj : ∀ j, j ≠ i → (x'.1.buf j).refcnt = (x.1.buf j).refcnt) : Counts x' := by
  refine ⟨fun j => ?_, fun j => ?_, hl⟩
  · by_cases hji : j = i
    · have := h.lt i
      rw [hji]
      omega
    · rw [hj j hji]
      exact h.lt j
  · by_cases hji : j = i
    · rw [hji, hbi, h.refcnt i, ← hi, BitVec.ofNat_add, BitVec.ofNat_eq_ofNat,
        BitVec.add_sub_cancel]
    · rw [hbj j hji, hj j hji, h.refcnt j]

theorem counts_step (hring : InRing x.1) (h : Counts x) (hc : Disciplined x e)
    (ho : NoOverflow x e) (he : Effect x.1 s' e) : Counts (s', x.2.next x.1 e) := by
  obtain ⟨s, g⟩ := x
  dsimp only at hring he ⊢
  cases e with
  | bget p dev b =>
    obtain ⟨hp, i, hfx⟩ := he
    -- the new session refers to buffer `i`, and nothing else changes
    have hcount := refs_goto s p (some ⟨dev, b, i, .waiting⟩)
    simp only [hp, Option.any_none, Option.any_some, decide_eq_true_eq] at hcount
    have hself : refs (s.goto p (some ⟨dev, b, i, .waiting⟩)) i = refs s i + 1 := by
      simpa using hcount i
    have hother : ∀ j, j ≠ i → refs (s.goto p (some ⟨dev, b, i, .waiting⟩)) j = refs s j := by
      intro j hj
      simpa [hj.symm] using hcount j
    obtain ⟨hlook, rfl⟩ | ⟨-, hvict, rfl⟩ := hfx
    · obtain ⟨r, hr, hfound, -⟩ := hring.lookup dev b
      rw [hlook, Option.some.injEq] at hr
      have hid := hfound i hr.symm
      refine h.gain i (ho i hid.1 hid.2) h.loose_le ?_ ?_ (by simp [Sys.bpin]) ?_
      · show refs (s.goto p _) i + g.pins i = refs s i + g.pins i + 1
        omega
      · intro j hj
        show refs (s.goto p _) j + g.pins j = refs s j + g.pins j
        rw [hother j hj]
      · intro j hj
        simp [Sys.bpin, modifyBuf_of_ne s _ hj]
    · obtain ⟨r, hr, hfree, -⟩ := hring.victim
      rw [hvict, Option.some.injEq] at hr
      have hzero : (s.buf i).refcnt = 0 := hfree i hr.symm
      have hc0 : refs s i + g.pins i = 0 := h.eq_zero hzero
      refine h.gain i ?_ h.loose_le ?_ ?_ ?_ ?_
      · show refs s i + g.pins i + 1 < 2 ^ 32
        omega
      · show refs (s.goto p _) i + g.pins i = refs s i + g.pins i + 1
        omega
      · intro j hj
        show refs (s.goto p _) j + g.pins j = refs s j + g.pins j
        rw [hother j hj]
      · rw [goto_buf, Sys.recycle, modifyBuf_self, hzero]
        rfl
      · intro j hj
        simp [Sys.recycle, modifyBuf_of_ne s _ hj]
  | acquiresleep p =>
    obtain ⟨dev, b, i, hp, -, rfl⟩ := he
    refine h.congr rfl h.loose_le (fun j => refs_goto_stage hp j) fun j => ?_
    exact modifyBuf_field s i j (fun x => { x with owner := some p }) Buf.refcnt fun _ => rfl
  | bread p =>
    obtain ⟨dev, b, i, hp, rfl⟩ := he
    refine h.congr rfl h.loose_le (fun j => ?_) fun j => fill_field s i j Buf.refcnt fun _ _ => rfl
    rw [← refs_goto_stage hp j]
    exact refs_congr (by rw [goto_use, goto_use, fill_use]) j
  | modify p v =>
    obtain ⟨dev, b, i, c, hp, rfl⟩ := he
    have hg : Ghost.next s g (.modify p v) = { g with store := update g.store b v } := by
      simp only [Ghost.next, hp]
    rw [hg]
    refine h.congr rfl h.loose_le (fun j => refs_goto_stage hp j) fun j => ?_
    exact modifyBuf_field s i j (fun x => { x with data := v }) Buf.refcnt fun _ => rfl
  | bwrite p =>
    obtain ⟨dev, b, i, c, hp, rfl⟩ := he
    have hg : Ghost.next s g (.bwrite p : Event S)
        = { g with loose := update g.loose i (g.pins i) } := by
      simp only [Ghost.next, hp]
    rw [hg]
    refine h.congr rfl (fun j => ?_) (fun j => refs_goto_stage hp j) fun j => rfl
    by_cases hj : j = i
    · simp [hj]
    · simpa [hj] using h.loose_le j
  | releasesleep p =>
    obtain ⟨dev, b, i, c, hp, -, rfl⟩ := he
    refine h.congr rfl h.loose_le (fun j => refs_goto_stage hp j) fun j => ?_
    exact modifyBuf_field s i j (fun x => { x with owner := none }) Buf.refcnt fun _ => rfl
  | brelse p =>
    obtain ⟨dev, b, i, hp, rfl⟩ := he
    have hcount := refs_goto s p none
    simp only [hp, Option.any_none, Option.any_some, decide_eq_true_eq] at hcount
    have huse : ∀ j, count ((s.brelse i).goto p none, g) j = refs (s.goto p none) j + g.pins j := by
      intro j
      exact congrArg (· + g.pins j) (refs_congr (by simp) j)
    refine h.lose i h.loose_le ?_ ?_ ?_ ?_
    · have := hcount i
      simp only [if_true] at this
      show count ((s.brelse i).goto p none, g) i + 1 = refs s i + g.pins i
      rw [huse i]
      simp at this
      omega
    · intro j hj
      show count ((s.brelse i).goto p none, g) j = refs s j + g.pins j
      rw [huse j]
      simpa [hj.symm] using hcount j
    · simp [Sys.bunpin]
    · intro j hj
      simp [Sys.bunpin, modifyBuf_of_ne s _ hj]
  | bpin i =>
    subst he
    refine h.gain i ho (fun j => ?_) ?_ ?_ (by simp [Sys.bpin]) ?_
    · have := h.loose_le j
      by_cases hj : j = i
      · subst hj
        simpa [Ghost.next] using this.trans (Nat.le_succ _)
      · simpa [Ghost.next, hj] using this
    · show refs s i + update g.pins i (g.pins i + 1) i = refs s i + g.pins i + 1
      rw [update_self, Nat.add_assoc]
    · intro j hj
      show refs s j + update g.pins i (g.pins i + 1) j = refs s j + g.pins j
      rw [update_of_ne hj]
    · intro j hj
      simp [Sys.bpin, modifyBuf_of_ne s _ hj]
  | bunpin i =>
    subst he
    have hpos : 0 < g.loose i := hc
    have hle : g.loose i ≤ g.pins i := h.loose_le i
    refine h.lose i (fun j => ?_) ?_ ?_ (by simp [Sys.bunpin]) ?_
    · by_cases hj : j = i
      · subst hj
        simp [Ghost.next]
        omega
      · simpa [Ghost.next, hj] using h.loose_le j
    · show refs s i + update g.pins i (g.pins i - 1) i + 1 = refs s i + g.pins i
      rw [update_self]
      omega
    · intro j hj
      show refs s j + update g.pins i (g.pins i - 1) j = refs s j + g.pins j
      rw [update_of_ne hj]
    · intro j hj
      simp [Sys.bunpin, modifyBuf_of_ne s _ hj]

end Counts

/-! ### Identities -/

/-- No two buffers carry the same block of a device in use, and each session's buffer
carries the block the session asked for. -/
structure Identity (s : Sys S) : Prop where
  unique : ∀ i j, (s.buf i).dev ≠ 0 → (s.buf i).dev = (s.buf j).dev →
    (s.buf i).blockno = (s.buf j).blockno → i = j
  own : ∀ p u, s.use p = some u → (s.buf u.buf).dev = u.dev ∧ (s.buf u.buf).blockno = u.blockno

/-- The step renames no buffer. -/
def SameNames (s s' : Sys S) : Prop :=
  ∀ i, (s'.buf i).dev = (s.buf i).dev ∧ (s'.buf i).blockno = (s.buf i).blockno

omit [DecidableEq S] in
theorem sameNames_modifyBuf (s : Sys S) (i : Fin nbuf) (f : Buf S → Buf S)
    (h : ∀ x, (f x).dev = x.dev ∧ (f x).blockno = x.blockno) : SameNames s (s.modifyBuf i f) :=
  fun j => ⟨modifyBuf_field s i j f Buf.dev fun x => (h x).1,
    modifyBuf_field s i j f Buf.blockno fun x => (h x).2⟩

/-- Sessions go on with the buffers they have. -/
def SameUses (s s' : Sys S) : Prop :=
  ∀ p u, s'.use p = some u → ∃ c, s.use p = some ⟨u.dev, u.blockno, u.buf, c⟩

/-- A session that goes on with its buffer is the same session at another stage. -/
theorem sameUses_goto {dev : DevNo} {b : BlockNo} {c c' : Stage}
    (hp : s.use p = some ⟨dev, b, i, c⟩) : SameUses s (s.goto p (some ⟨dev, b, i, c'⟩)) := by
  intro q v hv
  by_cases hq : q = p
  · subst hq
    rw [goto_use, update_self, Option.some.injEq] at hv
    subst hv
    exact ⟨c, hp⟩
  · rw [goto_use, update_of_ne hq] at hv
    exact ⟨v.stage, hv⟩

/-- **Only `bget` gives a buffer another name or a session another buffer.** -/
theorem same_of_not_bget (he : Effect s s' e) (hb : ∀ p dev b, e ≠ .bget p dev b) :
    SameNames s s' ∧ SameUses s s' := by
  cases e with
  | bget p dev b => exact absurd rfl (hb p dev b)
  | acquiresleep p =>
    obtain ⟨dev, b, i, hp, -, rfl⟩ := he
    exact ⟨sameNames_modifyBuf s i (fun x => { x with owner := some p }) fun _ => ⟨rfl, rfl⟩,
      sameUses_goto hp⟩
  | bread p =>
    obtain ⟨dev, b, i, hp, rfl⟩ := he
    refine ⟨fun j => ⟨fill_field s i j Buf.dev fun _ _ => rfl,
      fill_field s i j Buf.blockno fun _ _ => rfl⟩, ?_⟩
    rw [SameUses, goto_use, fill_use]
    exact sameUses_goto hp
  | modify p v =>
    obtain ⟨dev, b, i, c, hp, rfl⟩ := he
    exact ⟨sameNames_modifyBuf s i (fun x => { x with data := v }) fun _ => ⟨rfl, rfl⟩,
      sameUses_goto hp⟩
  | bwrite p =>
    obtain ⟨dev, b, i, c, hp, rfl⟩ := he
    exact ⟨fun j => ⟨rfl, rfl⟩, sameUses_goto hp⟩
  | releasesleep p =>
    obtain ⟨dev, b, i, c, hp, -, rfl⟩ := he
    exact ⟨sameNames_modifyBuf s i (fun x => { x with owner := none }) fun _ => ⟨rfl, rfl⟩,
      sameUses_goto hp⟩
  | brelse p =>
    obtain ⟨dev, b, i, hp, rfl⟩ := he
    refine ⟨fun j => ?_, fun q v hv => ?_⟩
    · rw [goto_buf, brelse_buf]
      exact sameNames_modifyBuf s i (fun x => { x with refcnt := x.refcnt - 1 })
        (fun _ => ⟨rfl, rfl⟩) j
    · by_cases hq : q = p
      · rw [hq, goto_use, update_self] at hv
        cases hv
      · rw [goto_use, update_of_ne hq, brelse_use] at hv
        exact ⟨v.stage, hv⟩
  | bpin i =>
    subst he
    exact ⟨sameNames_modifyBuf s i (fun x => { x with refcnt := x.refcnt + 1 }) fun _ => ⟨rfl, rfl⟩,
      fun q v hv => ⟨v.stage, hv⟩⟩
  | bunpin i =>
    subst he
    exact ⟨sameNames_modifyBuf s i (fun x => { x with refcnt := x.refcnt - 1 }) fun _ => ⟨rfl, rfl⟩,
      fun q v hv => ⟨v.stage, hv⟩⟩

omit [DecidableEq S] in
theorem Identity.frame (h : Identity s) (hn : SameNames s s') (hu : SameUses s s') :
    Identity s' := by
  refine ⟨fun i j => ?_, fun p u' hu' => ?_⟩
  · rw [(hn i).1, (hn j).1, (hn i).2, (hn j).2]
    exact h.unique i j
  · obtain ⟨c, hc⟩ := hu p u' hu'
    have hown := h.own p _ hc
    rwa [(hn u'.buf).1, (hn u'.buf).2]

variable [Fintype S]

theorem identity_step (hring : InRing x.1) (hcount : Counts x) (h : Identity x.1)
    (he : Effect x.1 s' e) : Identity s' := by
  obtain ⟨s, g⟩ := x
  dsimp only at hring h he
  cases e with
  | bget p dev b =>
    obtain ⟨hp, i, ⟨hlook, rfl⟩ | ⟨hlook, hvict, rfl⟩⟩ := he
    · -- a hit: the new session's buffer has the identity it looked for
      obtain ⟨r, hr, hfound, -⟩ := hring.lookup dev b
      rw [hlook, Option.some.injEq] at hr
      have hn : SameNames s (s.bpin i) :=
        sameNames_modifyBuf s i (fun x => { x with refcnt := x.refcnt + 1 }) fun _ => ⟨rfl, rfl⟩
      refine ⟨(h.frame hn fun q v hv => ⟨v.stage, hv⟩).unique, fun q u hu => ?_⟩
      · rw [goto_buf, (hn u.buf).1, (hn u.buf).2]
        by_cases hq : q = p
        · subst hq
          rw [goto_use, update_self, Option.some.injEq] at hu
          subst hu
          exact hfound i hr.symm
        · rw [goto_use, update_of_ne hq] at hu
          exact h.own q u hu
    -- a miss: no buffer carried the block, and no session used the victim
    obtain ⟨r, hr, -, hmiss⟩ := hring.lookup dev b
    rw [hlook, Option.some.injEq] at hr
    obtain ⟨r', hr', hfree, -⟩ := hring.victim
    rw [hvict, Option.some.injEq] at hr'
    have hzero : refs s i + g.pins i = 0 := hcount.eq_zero (hfree i hr'.symm)
    have hother : ∀ j, j ≠ i → (s.recycle i dev b).buf j = s.buf j := fun j hj =>
      modifyBuf_of_ne s _ hj
    have hself : ((s.recycle i dev b).buf i).dev = dev ∧
        ((s.recycle i dev b).buf i).blockno = b := by
      rw [Sys.recycle, modifyBuf_self]
      exact ⟨rfl, rfl⟩
    refine ⟨fun j k hj hdev hblk => ?_, fun q u hu => ?_⟩
    · rw [goto_buf] at hj hdev hblk
      by_cases hji : j = i
      · by_cases hki : k = i
        · rw [hji, hki]
        · rw [hji, hself.1, hother k hki] at hdev
          rw [hji, hself.2, hother k hki] at hblk
          exact absurd ⟨hdev.symm, hblk.symm⟩ (hmiss hr.symm k)
      · by_cases hki : k = i
        · rw [hki, hself.1, hother j hji] at hdev
          rw [hki, hself.2, hother j hji] at hblk
          exact absurd ⟨hdev, hblk⟩ (hmiss hr.symm j)
        · rw [hother j hji] at hj hdev hblk
          rw [hother k hki] at hdev hblk
          exact h.unique j k hj hdev hblk
    · rw [goto_buf]
      by_cases hq : q = p
      · subst hq
        rw [goto_use, update_self, Option.some.injEq] at hu
        subst hu
        exact hself
      rw [goto_use, update_of_ne hq] at hu
      have hu : s.use q = some u := hu
      have hne : u.buf ≠ i := by
        intro heq
        have := one_le_refs hu
        rw [heq] at this
        omega
      rw [hother _ hne]
      exact h.own q u hu
  | _ =>
    have hsame := same_of_not_bget he nofun
    exact h.frame hsame.1 hsame.2

/-! ### Locks -/

/-- The stages in which a session has its buffer's sleep-lock. -/
def Stage.Locks : Stage → Prop
  | .locked => True
  | .holding _ => True
  | _ => False

/-- A session in the middle of using its buffer has it locked, and a buffer that `bread`
has returned is valid. -/
def Held (s : Sys S) (p : S) (u : Use) : Prop :=
  (u.stage.Locks → (s.buf u.buf).owner = some p) ∧
    ∀ c, u.stage = .holding c → (s.buf u.buf).valid = true

/-- All sessions have locked what they use. -/
def Locks (s : Sys S) : Prop := ∀ p u, s.use p = some u → Held s p u

omit [DecidableEq S] [Fintype S] in
/-- Two sessions do not have one buffer locked. -/
theorem Locks.unique (h : Locks s) {q : S} {v : Use} (hp : s.use p = some u)
    (hq : s.use q = some v) (hu : u.stage.Locks) (hv : v.stage.Locks) (huv : u.buf = v.buf) :
    p = q := by
  have hp' := (h p u hp).1 hu
  rw [huv, (h q v hq).1 hv] at hp'
  exact (Option.some.inj hp').symm

omit [Fintype S] in
/-- When one session moves, the locks of the others and its own are looked at apart. -/
theorem Locks.goto {o : Option Use} (h : Locks s) (ht : t.use = s.use)
    (hother : ∀ q v, q ≠ p → s.use q = some v → Held s q v → Held t q v)
    (hself : ∀ u, o = some u → Held t p u) : Locks (t.goto p o) := by
  intro q v hv
  by_cases hq : q = p
  · rw [hq, goto_use, update_self] at hv
    rw [hq]
    exact hself v hv
  · rw [goto_use, update_of_ne hq, ht] at hv
    exact hother q v hq hv (h q v hv)

omit [DecidableEq S] [Fintype S] in
theorem Held.congr (ho : (t.buf u.buf).owner = (s.buf u.buf).owner)
    (hv : (t.buf u.buf).valid = (s.buf u.buf).valid) (h : Held s p u) : Held t p u := by
  rw [Held, ho, hv]
  exact h

omit [DecidableEq S] [Fintype S] in
theorem setOwner_valid (s : Sys S) (i j : Fin nbuf) (o : Option S) :
    ((s.setOwner i o).buf j).valid = (s.buf j).valid :=
  modifyBuf_field s i j (fun x => { x with owner := o }) Buf.valid fun _ => rfl

omit [DecidableEq S] [Fintype S] in
theorem Held.modifyBuf (i : Fin nbuf) {f : Buf S → Buf S}
    (hf : ∀ x, (f x).owner = x.owner ∧ (f x).valid = x.valid) (h : Held s p u) :
    Held (s.modifyBuf i f) p u :=
  h.congr (modifyBuf_field s i u.buf f Buf.owner fun x => (hf x).1)
    (modifyBuf_field s i u.buf f Buf.valid fun x => (hf x).2)

theorem locks_step (hring : InRing x.1) (hcount : Counts x) (h : Locks x.1) (he : Effect x.1 s' e) :
    Locks s' := by
  obtain ⟨s, g⟩ := x
  dsimp only at hring h he
  cases e with
  | bget p dev b =>
    obtain ⟨hp, i, ⟨hlook, rfl⟩ | ⟨hlook, hvict, rfl⟩⟩ := he
    · refine h.goto rfl (fun q v _ _ hv => hv.modifyBuf i fun _ => ⟨rfl, rfl⟩) ?_
      rintro u ⟨⟩
      exact ⟨False.elim, nofun⟩
    obtain ⟨r, hr, hfree, -⟩ := hring.victim
    rw [hvict, Option.some.injEq] at hr
    have hzero : refs s i + g.pins i = 0 := hcount.eq_zero (hfree i hr.symm)
    refine h.goto rfl (fun q v _ hq hv => ?_) ?_
    · -- no session uses the buffer that is recycled
      have hne : v.buf ≠ i := by
        intro heq
        have := one_le_refs hq
        rw [heq] at this
        omega
      have hbuf : (s.recycle i dev b).buf v.buf = s.buf v.buf := modifyBuf_of_ne s _ hne
      exact hv.congr (by rw [hbuf]) (by rw [hbuf])
    · rintro u ⟨⟩
      exact ⟨False.elim, nofun⟩
  | acquiresleep p =>
    obtain ⟨dev, b, i, hp, ho, rfl⟩ := he
    refine h.goto rfl (fun q v _ hq hv => ?_) ?_
    · refine ⟨fun hl => ?_, fun c hc => ?_⟩
      · -- the buffer was not locked, so `q` has locked another one
        have hne : v.buf ≠ i := by
          intro heq
          have := hv.1 hl
          rw [heq, ho] at this
          cases this
        rw [Sys.setOwner, modifyBuf_of_ne s _ hne]
        exact hv.1 hl
      · rw [setOwner_valid]
        exact hv.2 c hc
    · rintro u ⟨⟩
      exact ⟨fun _ => by simp [Sys.setOwner], nofun⟩
  | bread p =>
    obtain ⟨dev, b, i, hp, rfl⟩ := he
    have howner : ∀ j, ((s.fill i).buf j).owner = (s.buf j).owner := fun j =>
      fill_field s i j Buf.owner fun _ _ => rfl
    have hvalid : ∀ j, (s.buf j).valid = true → ((s.fill i).buf j).valid = true := by
      intro j hj
      unfold Sys.fill
      split
      · exact hj
      · by_cases hji : j = i
        · rw [hji, modifyBuf_self]
        · rwa [modifyBuf_of_ne s _ hji]
    refine h.goto (fill_use s i) (fun q v _ hq hv => ?_) ?_
    · exact ⟨fun hl => by rw [howner]; exact hv.1 hl, fun c hc => hvalid _ (hv.2 c hc)⟩
    · rintro u ⟨⟩
      refine ⟨fun _ => ?_, fun _ _ => fill_valid s i⟩
      rw [howner]
      exact (h p _ hp).1 trivial
  | modify p v =>
    obtain ⟨dev, b, i, c, hp, rfl⟩ := he
    refine h.goto rfl (fun q w _ _ hw => hw.modifyBuf i fun _ => ⟨rfl, rfl⟩) ?_
    rintro u ⟨⟩
    refine Held.modifyBuf i (fun _ => ⟨rfl, rfl⟩) ⟨fun _ => (h p _ hp).1 trivial, fun _ _ => ?_⟩
    exact (h p _ hp).2 c rfl
  | bwrite p =>
    obtain ⟨dev, b, i, c, hp, rfl⟩ := he
    refine h.goto rfl (fun q w _ _ hw => hw) ?_
    rintro u ⟨⟩
    exact ⟨fun _ => (h p _ hp).1 trivial, fun _ _ => (h p _ hp).2 c rfl⟩
  | releasesleep p =>
    obtain ⟨dev, b, i, c, hp, ho, rfl⟩ := he
    refine h.goto rfl (fun q v hqp hq hv => ?_) ?_
    · refine ⟨fun hl => ?_, fun c hc => ?_⟩
      · have hne : v.buf ≠ i := fun heq => hqp (h.unique hq hp hl trivial heq)
        rw [Sys.setOwner, modifyBuf_of_ne s _ hne]
        exact hv.1 hl
      · rw [setOwner_valid]
        exact hv.2 c hc
    · rintro u ⟨⟩
      exact ⟨False.elim, nofun⟩
  | brelse p =>
    obtain ⟨dev, b, i, hp, rfl⟩ := he
    refine h.goto (brelse_use s i) (fun q v _ _ hv => ?_) nofun
    have hunpin : Held (s.bunpin i) q v := hv.modifyBuf i fun _ => ⟨rfl, rfl⟩
    rw [Held, brelse_buf]
    exact hunpin
  | bpin i =>
    subst he
    exact fun q v hq => (h q v hq).modifyBuf i fun _ => ⟨rfl, rfl⟩
  | bunpin i =>
    subst he
    exact fun q v hq => (h q v hq).modifyBuf i fun _ => ⟨rfl, rfl⟩

/-! ### All together -/

/-- The invariant of the buffer cache. -/
structure Inv (x : Sys S × Ghost) : Prop where
  ring : InRing x.1
  counts : Counts x
  identity : Identity x.1
  locks : Locks x.1

omit [DecidableEq S] in
theorem inv_atBoot (d : BitVec 32 → Block) : Inv (atBoot d : Sys S × Ghost) where
  ring := inRing_binit d
  counts := by
    have hzero : ∀ i, count (atBoot d : Sys S × Ghost) i = 0 := fun i => by
      simp [count, refs, atBoot, binit, Ghost.init]
    refine ⟨fun i => ?_, fun i => ?_, fun i => le_refl 0⟩
    · rw [hzero i]
      decide
    · rw [hzero i]
      rfl
  identity := ⟨fun i j hi => absurd rfl hi, nofun⟩
  locks := nofun

omit [Fintype S] in
theorem traced_inversion (h : traced x e = .ok x') : Effect x.1 x'.1 e ∧ x'.2 = x.2.next x.1 e := by
  obtain ⟨s, hs, heq⟩ := Outcome.bind_eq_ok.mp h
  cases heq
  exact ⟨step_inversion hs, rfl⟩

/-- **One step keeps the invariant.** -/
theorem inv_step (h : Inv x) (hc : Disciplined x e) (ho : NoOverflow x e)
    (hs : traced x e = .ok x') : Inv x' := by
  obtain ⟨he, hg⟩ := traced_inversion hs
  obtain ⟨s', g'⟩ := x'
  subst hg
  exact ⟨inRing_step h.ring he, counts_step h.ring h.counts hc ho he,
    identity_step h.ring h.counts h.identity he, locks_step h.ring h.counts h.locks he⟩

theorem inv_reach {d : BitVec 32 → Block}
    (h : Reach traced (fun y e => Disciplined y e ∧ NoOverflow y e) (atBoot d) x) : Inv x :=
  h.invariant (inv_atBoot d) fun _ _ _ hi hc hs => inv_step hi hc.1 hc.2 hs

/-- **A referenced buffer is not recycled**: no step takes a buffer away from its block
while a session or a pin refers to it. -/
theorem name_kept (h : Inv x) (hs : traced x e = .ok x') (hi : (x.1.buf i).refcnt ≠ 0) :
    (x'.1.buf i).dev = (x.1.buf i).dev ∧ (x'.1.buf i).blockno = (x.1.buf i).blockno := by
  obtain ⟨he, -⟩ := traced_inversion hs
  cases e with
  | bget p dev b =>
    obtain ⟨-, j, ⟨-, hx⟩ | ⟨-, hvict, hx⟩⟩ := he
    · rw [hx]
      exact sameNames_modifyBuf x.1 j (fun x => { x with refcnt := x.refcnt + 1 })
        (fun _ => ⟨rfl, rfl⟩) i
    obtain ⟨r, hr, hfree, -⟩ := h.ring.victim
    rw [hvict, Option.some.injEq] at hr
    have hne : i ≠ j := fun heq => hi (heq ▸ hfree j hr.symm)
    have hbuf : (x.1.recycle j dev b).buf i = x.1.buf i := modifyBuf_of_ne x.1 _ hne
    rw [hx, goto_buf, hbuf]
    exact ⟨rfl, rfl⟩
  | _ => exact (same_of_not_bget he nofun).1 i

end Xv6.Bio
