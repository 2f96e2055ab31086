import Xv6.Lib.Counting
import Xv6.Log.Model
import Mathlib.Algebra.Order.BigOperators.Group.Finset
import Mathlib.Tactic.Linarith

/-!
# The state machine of the log

The counter `outstanding`, the flag `committing` and the header `lh` change in
different critical sections of different processes.  `Inv` says how they fit
together between critical sections, and every step keeps it.

## Main definitions

* `Awake s` — no process sleeps in `begin_op` although it could be admitted.
* `Running s`, `Inv s` — the invariant while operations run, and with recovery.

## Main results

* `inv_step` — every step keeps the invariant.
* `log_state_machine` — **the invariant, read off for every reachable state.**
-/

namespace Xv6.Log

open Function

variable {P : Type*} {s : Sys P} {ws : List BlockNo} {p : P}

/-- Is the process between `begin_op` and `end_op`? -/
def Pc.isOp : Pc → Bool
  | .inOp _ => true
  | _ => false

/-- Is the process in the second half of `end_op`? -/
def Pc.isCommit : Pc → Bool
  | .commit _ => true
  | _ => false

/-- The weight a process contributes to `outstanding`. -/
def Pc.weight (c : Pc) : ℤ := if c.isOp then 1 else 0

/-- The condition under which `begin_op` admits an operation. -/
def Sys.Admits (s : Sys P) : Prop :=
  s.committing = false ∧ (s.lh.length : ℤ) + (s.outstanding + 1) * maxopblocks ≤ logsize

/-- No process sleeps in `begin_op` although it could be admitted. -/
def Awake (s : Sys P) : Prop := ∀ p, s.proc p = .sleeping → ¬ s.Admits

/-- How the fields of the log fit together while operations run. -/
structure Running [Fintype P] (s : Sys P) : Prop where
  outstanding_eq : s.outstanding = ∑ p, (s.proc p).weight
  committing_iff : s.committing = true ↔ ∃ p, (s.proc p).isCommit = true
  committer_unique : ∀ p q, (s.proc p).isCommit = true → (s.proc q).isCommit = true → p = q
  quiet : s.committing = true → s.outstanding = 0
  clean : s.committing = false → s.outstanding = 0 → s.lh = []
  nodup : s.lh.Nodup
  erased : ∀ p, s.proc p = .commit .eraseHead ∨ s.proc p = .commit .finish → s.lh = []
  awake : Awake s

/-- The invariant of the log: before recovery has finished there is no process
using the log, afterwards its fields fit together. -/
def Inv [Fintype P] (s : Sys P) : Prop :=
  match s.mode with
  | .up => Running s
  | .recovering c => (∀ p, s.proc p = .idle) ∧ s.outstanding = 0 ∧ s.committing = false ∧
      (c = .clear → s.lh = [])

theorem Inv.running [Fintype P] (h : Inv s) (hm : s.mode = .up) : Running s := by
  simpa [Inv, hm] using h

/-! ### Small facts -/

theorem Pc.weight_nonneg (c : Pc) : 0 ≤ c.weight := by
  unfold Pc.weight
  split <;> decide

@[simp] theorem Pc.weight_inOp (ws : List BlockNo) : (Pc.inOp ws).weight = 1 := rfl

@[simp] theorem Pc.weight_idle : Pc.idle.weight = 0 := rfl

@[simp] theorem Pc.weight_sleeping : Pc.sleeping.weight = 0 := rfl

@[simp] theorem Pc.weight_woken : Pc.woken.weight = 0 := rfl

@[simp] theorem Pc.weight_commit (c : CommitPc) : (Pc.commit c).weight = 0 := rfl

/-- The list `log_write` leaves in the header: `b` is absorbed or appended. -/
theorem absorb_eq (lh : List BlockNo) (b : BlockNo) :
    absorb lh b = if b ∈ lh then lh else lh ++ [b] := by
  unfold absorb
  by_cases hb : b ∈ lh
  · have hlt : lh.findIdx (· == b) < lh.length :=
      List.findIdx_lt_length_of_exists ⟨b, hb, beq_self_eq_true b⟩
    have hget : lh.get ⟨lh.findIdx (· == b), hlt⟩ = b := by
      simpa using List.findIdx_getElem (p := (· == b)) (w := hlt)
    rw [if_pos hb, if_neg (Nat.ne_of_lt hlt)]
    refine List.ext_getElem? fun i => ?_
    rw [List.getElem?_set]
    split
    · next hi => rw [← hi, List.getElem?_eq_getElem hlt]; exact congrArg some hget.symm
    · rfl
  · have hlen : lh.findIdx (· == b) = lh.length :=
      List.findIdx_eq_length_of_false fun x hx => by
        rw [beq_eq_false_iff_ne]
        exact fun hxb => hb (hxb ▸ hx)
    rw [if_neg hb, if_pos hlen]

theorem absorb_nodup {lh : List BlockNo} (h : lh.Nodup) (b : BlockNo) : (absorb lh b).Nodup := by
  rw [absorb_eq]
  split
  · exact h
  · next hb =>
    refine List.nodup_append.mpr ⟨h, List.nodup_singleton b, fun a ha c hc hac => ?_⟩
    rw [List.mem_singleton] at hc
    exact hb (hc ▸ hac ▸ ha)

theorem mem_absorb (lh : List BlockNo) (b a : BlockNo) : a ∈ absorb lh b ↔ a = b ∨ a ∈ lh := by
  rw [absorb_eq]
  split
  · next hb => exact ⟨Or.inr, fun ha => ha.elim (fun hab => hab ▸ hb) id⟩
  · rw [List.mem_append, List.mem_singleton, or_comm]

theorem length_le_absorb (lh : List BlockNo) (b : BlockNo) :
    lh.length ≤ (absorb lh b).length := by
  rw [absorb_eq]
  split <;> simp

theorem Running.outstanding_nonneg [Fintype P] (h : Running s) : 0 ≤ s.outstanding := by
  rw [h.outstanding_eq]
  exact Finset.sum_nonneg fun p _ => (s.proc p).weight_nonneg

theorem Running.outstanding_pos [Fintype P] (h : Running s) (hp : s.proc p = .inOp ws) :
    1 ≤ s.outstanding := by
  rw [h.outstanding_eq]
  calc (1 : ℤ) = (s.proc p).weight := by rw [hp]; rfl
    _ ≤ ∑ q, (s.proc q).weight :=
        Finset.single_le_sum (fun q _ => (s.proc q).weight_nonneg) (Finset.mem_univ p)

theorem Running.not_committing [Fintype P] (h : Running s) (hp : s.proc p = .inOp ws) :
    s.committing = false := by
  by_contra hc
  have := h.quiet (by simpa using hc)
  have := h.outstanding_pos hp
  omega

/-! ### The steps -/

theorem awake_wakeup (s : Sys P) : Awake s.wakeup := by
  intro p hp
  simp only [Sys.wakeup] at hp
  split at hp
  · exact absurd hp (by decide)
  · next h => exact absurd hp h

theorem isCommit_wakeup (s : Sys P) (p : P) :
    (s.wakeup.proc p).isCommit = (s.proc p).isCommit := by
  simp only [Sys.wakeup]
  split
  · next h => rw [h]; rfl
  · rfl

theorem weight_wakeup (s : Sys P) (p : P) : (s.wakeup.proc p).weight = (s.proc p).weight := by
  simp only [Sys.wakeup]
  split
  · next h => rw [h]; rfl
  · rfl

theorem running_bwrite [Fintype P] (h : Running s) (b : BlockNo) (v : Block) :
    Running (s.bwrite b v) :=
  ⟨h.outstanding_eq, h.committing_iff, h.committer_unique, h.quiet, h.clean, h.nodup, h.erased,
    h.awake⟩

variable [DecidableEq P]

theorem isCommit_update {c : Pc} (hp : (s.proc p).isCommit = c.isCommit) (q : P) :
    (update s.proc p c q).isCommit = (s.proc q).isCommit := by
  by_cases hq : q = p
  · rw [hq, update_self, hp]
  · rw [update_of_ne hq]

variable [Fintype P] {s' : Sys P}

/-- A process that neither runs an operation nor commits may move about, and may go
to sleep when it could not be admitted. -/
theorem running_goto (h : Running s) {c : Pc} (hw : (s.proc p).weight = c.weight)
    (hc : (s.proc p).isCommit = c.isCommit)
    (he : c = .commit .eraseHead ∨ c = .commit .finish → s.lh = [])
    (hs : c = .sleeping → ¬ s.Admits) : Running (s.goto p c) where
  outstanding_eq := by
    have hsum := sum_update_add Pc.weight s.proc p c
    have := h.outstanding_eq
    simp only [Sys.goto]
    omega
  committing_iff := by
    simp only [Sys.goto, isCommit_update hc]
    exact h.committing_iff
  committer_unique := by
    simp only [Sys.goto, isCommit_update hc]
    exact h.committer_unique
  quiet := h.quiet
  clean := h.clean
  nodup := h.nodup
  erased := by
    intro q hq
    simp only [Sys.goto] at hq
    by_cases hqp : q = p
    · rw [hqp, update_self] at hq
      exact he hq
    · rw [update_of_ne hqp] at hq
      exact h.erased q hq
  awake := by
    intro q hq
    simp only [Sys.goto] at hq
    by_cases hqp : q = p
    · rw [hqp, update_self] at hq
      exact hs hq
    · rw [update_of_ne hqp] at hq
      exact h.awake q hq

theorem running_beginOp (h : Running s) (hp : s.proc p = .idle ∨ s.proc p = .woken) :
    Running (beginOp s p) := by
  have hw : (s.proc p).weight = 0 := by rcases hp with hp | hp <;> rw [hp] <;> rfl
  have hc : (s.proc p).isCommit = false := by rcases hp with hp | hp <;> rw [hp] <;> rfl
  unfold beginOp
  split
  · -- a commit is in progress
    next hcom =>
    refine running_goto h hw hc (by simp) fun _ hadm => ?_
    rw [hadm.1] at hcom
    exact absurd hcom (by decide)
  rename_i hcom
  split
  · -- the reservation does not fit
    next hfull =>
    refine running_goto h hw hc (by simp) fun _ hadm => ?_
    have := hadm.2
    omega
  -- admitted: space only shrinks, so a sleeper has no reason to wake
  next hfit =>
  have hc' : (s.proc p).isCommit = (Pc.inOp []).isCommit := hc
  have hnn := h.outstanding_nonneg
  have hsum := sum_update_add Pc.weight s.proc p (.inOp [])
  have hcf : s.committing = false := by simpa using hcom
  refine ⟨?_, ?_, ?_, ?_, ?_, h.nodup, ?_, ?_⟩
  · have := h.outstanding_eq
    simp only [Sys.goto, Pc.weight_inOp] at hsum ⊢
    omega
  · simp only [Sys.goto, isCommit_update hc']
    exact h.committing_iff
  · simp only [Sys.goto, isCommit_update hc']
    exact h.committer_unique
  · intro hct
    simp only [Sys.goto] at hct
    rw [hcf] at hct
    exact absurd hct (by decide)
  · intro _ hzero
    simp only [Sys.goto] at hzero
    omega
  · intro q hq
    simp only [Sys.goto] at hq
    by_cases hqp : q = p
    · rw [hqp, update_self] at hq
      simp at hq
    · rw [update_of_ne hqp] at hq
      exact h.erased q hq
  · intro q hq hadm
    simp only [Sys.goto] at hq
    by_cases hqp : q = p
    · rw [hqp, update_self] at hq
      simp at hq
    · rw [update_of_ne hqp] at hq
      refine h.awake q hq ⟨hcf, ?_⟩
      have := hadm.2
      simp only [Sys.goto, maxopblocks] at this ⊢
      omega

/-- `log_write` inside an operation: it either panics because the log is full, or the
header grows. -/
theorem running_logWrite {L : Geometry} (h : Running s) (hp : s.proc p = .inOp ws) {b : BlockNo}
    {v : Block} (hs : (logWrite L { s with cache := update s.cache b v } b).bind
      (fun s' => .ok (s'.goto p (.inOp (ws.insert b)))) = .ok s') : Running s' := by
  have hpos := h.outstanding_pos hp
  have hcf := h.not_committing hp
  -- nobody commits while `p` is in an operation
  have hnc : ∀ q, (s.proc q).isCommit = false := fun q => by
    by_contra hq
    have := h.committing_iff.mpr ⟨q, by simpa using hq⟩
    rw [hcf] at this
    exact absurd this (by decide)
  have hc : (s.proc p).isCommit = (Pc.inOp (ws.insert b)).isCommit := by rw [hp]; rfl
  rw [Outcome.bind_eq_ok] at hs
  obtain ⟨t, ht, hts⟩ := hs
  unfold logWrite at ht
  split at ht
  · exact absurd ht (by simp)
  split at ht
  · exact absurd ht (by simp)
  cases ht
  cases hts
  refine ⟨?_, ?_, ?_, ?_, ?_, absorb_nodup h.nodup b, ?_, ?_⟩
  · have hsum := sum_update_add Pc.weight s.proc p (.inOp (ws.insert b))
    have := h.outstanding_eq
    rw [hp] at hsum
    simp only [Sys.goto, Pc.weight_inOp] at hsum ⊢
    omega
  · simp only [Sys.goto, isCommit_update hc]
    exact h.committing_iff
  · simp only [Sys.goto, isCommit_update hc]
    exact h.committer_unique
  · exact fun hct => absurd (hcf.symm.trans hct) (by decide)
  · intro _ hzero
    simp only [Sys.goto] at hzero
    omega
  · intro q hq
    have hqc : (update s.proc p (Pc.inOp (ws.insert b)) q).isCommit = true := by
      rcases hq with hq | hq <;> simp only [Sys.goto] at hq <;> rw [hq] <;> rfl
    rw [isCommit_update hc, hnc q] at hqc
    exact absurd hqc (by decide)
  · intro q hq hadm
    simp only [Sys.goto] at hq
    by_cases hqp : q = p
    · rw [hqp, update_self] at hq
      simp at hq
    rw [update_of_ne hqp] at hq
    -- a longer log admits no process that it did not admit before
    refine h.awake q hq ⟨hcf, ?_⟩
    have hle := length_le_absorb s.lh b
    have := hadm.2
    simp only [Sys.goto] at this
    omega

/-- A process leaves `end_op` waking everybody asleep: nobody commits, and the process
gives its weight back. -/
theorem running_wakeup_idle {t : Sys P}
    (hout : t.outstanding + (t.proc p).weight = ∑ q, (t.proc q).weight)
    (hcom : t.committing = false) (hnc : ∀ q, q ≠ p → (t.proc q).isCommit = false)
    (hclean : t.outstanding = 0 → t.lh = []) (hnodup : t.lh.Nodup) :
    Running (t.wakeup.goto p .idle) := by
  have hnc' : ∀ q, ((t.wakeup.goto p .idle).proc q).isCommit = false := fun q => by
    simp only [Sys.goto]
    by_cases hqp : q = p
    · rw [hqp, update_self]; rfl
    · rw [update_of_ne hqp, isCommit_wakeup, hnc q hqp]
  refine ⟨?_, ?_, ?_, ?_, fun _ => hclean, hnodup, ?_, ?_⟩
  · have hsum := sum_update_add Pc.weight t.wakeup.proc p .idle
    simp only [weight_wakeup, Pc.weight_idle] at hsum
    simp only [Sys.goto]
    show t.outstanding = _
    omega
  · simp only [hnc']
    show t.committing = true ↔ _
    simp [hcom]
  · exact fun q r hq => absurd ((hnc' q).symm.trans hq) (by decide)
  · exact fun hct => absurd (hcom.symm.trans hct) (by decide)
  · intro q hq
    have := hnc' q
    rcases hq with hq | hq <;> rw [hq] at this <;> exact absurd this (by decide)
  · intro q hq
    simp only [Sys.goto] at hq
    by_cases hqp : q = p
    · rw [hqp, update_self] at hq
      simp at hq
    · rw [update_of_ne hqp] at hq
      exact awake_wakeup t q hq

/-- `end_op`: its panic is not reached, and the last operation to end takes the log
over for its commit while any other frees its reservation and wakes the sleepers. -/
theorem running_endOp (h : Running s) (hp : s.proc p = .inOp ws) :
    ∃ s', endOp s p = .ok s' ∧ Running s' ∧ s'.mode = s.mode := by
  have hcf := h.not_committing hp
  have hpos := h.outstanding_pos hp
  have hnc : ∀ q, (s.proc q).isCommit = false := fun q => by
    by_contra hq
    have := h.committing_iff.mpr ⟨q, by simpa using hq⟩
    rw [hcf] at this
    exact absurd this (by decide)
  unfold endOp
  simp only [hcf, Bool.false_eq_true, ↓reduceIte]
  split
  · -- the last one: it becomes the only committer
    next hzero =>
    refine ⟨_, rfl, ⟨?_, ?_, ?_, ?_, ?_, h.nodup, ?_, ?_⟩, rfl⟩
    · have hsum := sum_update_add Pc.weight s.proc p (.commit .check)
      have := h.outstanding_eq
      rw [hp] at hsum
      simp only [Sys.goto, Pc.weight_inOp, Pc.weight_commit] at hsum ⊢
      omega
    · simp only [Sys.goto, true_iff]
      exact ⟨p, by rw [update_self]; rfl⟩
    · intro q r hq hr
      simp only [Sys.goto] at hq hr
      have honly : ∀ t, (update s.proc p (Pc.commit .check) t).isCommit = true →
          t = p := fun t ht => by
        by_contra htp
        rw [update_of_ne htp, hnc t] at ht
        exact absurd ht (by decide)
      rw [honly q hq, honly r hr]
    · exact fun _ => hzero
    · exact fun hct => absurd hct (by simp [Sys.goto])
    · intro q hq
      simp only [Sys.goto] at hq
      by_cases hqp : q = p
      · rw [hqp, update_self] at hq
        simp at hq
      · rw [update_of_ne hqp] at hq
        have := hnc q
        rcases hq with hq | hq <;> rw [hq] at this <;> exact absurd this (by decide)
    · exact fun q _ hadm => absurd hadm.1 (by simp [Sys.goto])
  · -- others are still running: everybody asleep is woken
    next hne =>
    refine ⟨_, rfl, running_wakeup_idle ?_ rfl (fun q _ => hnc q) (fun h0 => absurd h0 hne)
      h.nodup, rfl⟩
    have := h.outstanding_eq
    simp only [hp, Pc.weight_inOp]
    omega

/-- **`commit()` and the end of `end_op`.** -/
theorem running_commitStep (L : Geometry) (h : Running s) {c : CommitPc}
    (hp : s.proc p = .commit c) : Running (commitStep L s p c) := by
  have hcom : s.committing = true := h.committing_iff.mpr ⟨p, by rw [hp]; rfl⟩
  have hw : ∀ c', (s.proc p).weight = (Pc.commit c').weight := fun c' => by rw [hp]; rfl
  have hi : ∀ c', (s.proc p).isCommit = (Pc.commit c').isCommit := fun c' => by rw [hp]; rfl
  cases c with
  | check =>
    refine running_goto h (hw _) (hi _) ?_ (by simp)
    intro hc
    by_contra hne
    have : s.lh.length > 0 := List.length_pos_iff.mpr hne
    simp [this] at hc
  | writeLog tail =>
    simp only [commitStep]
    split
    · exact running_bwrite (running_goto h (hw _) (hi _) (by simp) (by simp)) _ _
    · exact running_goto h (hw _) (hi _) (by simp) (by simp)
  | writeHead => exact running_bwrite (running_goto h (hw _) (hi _) (by simp) (by simp)) _ _
  | install tail =>
    simp only [commitStep]
    split
    · exact running_bwrite (running_goto h (hw _) (hi _) (by simp) (by simp)) _ _
    -- `log.lh.n = 0` without the lock: `committing` keeps everybody else out
    have hnil : Running ({ s with lh := [] } : Sys P) :=
      ⟨h.outstanding_eq, h.committing_iff, h.committer_unique, h.quiet, fun _ _ => rfl,
        List.nodup_nil, fun _ _ => rfl,
        fun q _ hadm => absurd (hcom.symm.trans hadm.1) (by decide)⟩
    exact running_goto hnil (hw _) (hi _) (fun _ => rfl) (by simp)
  | eraseHead =>
    have hnil := h.erased p (Or.inl hp)
    exact running_bwrite (running_goto h (hw _) (hi _) (fun _ => hnil) (by simp)) _ _
  | finish =>
    have hnil := h.erased p (Or.inr hp)
    refine running_wakeup_idle ?_ rfl ?_ (fun _ => hnil) h.nodup
    · have := h.outstanding_eq
      simp only [hp, Pc.weight_commit]
      omega
    · intro q hq
      by_contra hqc
      exact hq (h.committer_unique q p (by simpa using hqc) (by rw [hp]; rfl))

omit [DecidableEq P] in
theorem inv_boot (d : BlockNo → Block) : Inv (Sys.boot d : Sys P) :=
  ⟨fun _ => rfl, rfl, rfl, fun h => absurd h (by decide)⟩

omit [DecidableEq P] in
/-- Recovery ends with an empty header and nobody using the log. -/
theorem inv_recoverStep (L : Geometry) {c : RecoverPc} (hm : s.mode = .recovering c)
    (h : Inv s) : Inv (recoverStep L s c) := by
  simp only [Inv, hm] at h
  obtain ⟨hidle, hout, hcom, hclear⟩ := h
  cases c with
  | readHead => exact ⟨hidle, hout, hcom, fun hc => absurd hc (by simp)⟩
  | install tail =>
    simp only [recoverStep]
    split
    · exact ⟨hidle, hout, hcom, fun hc => absurd hc (by simp)⟩
    · exact ⟨hidle, hout, hcom, fun _ => rfl⟩
  | clear =>
    have hnil : s.lh = [] := hclear rfl
    have hproc : ∀ p, (recoverStep L s .clear).proc p = .idle := hidle
    refine ⟨?_, ?_, ?_, ?_, fun _ _ => hnil, ?_, fun _ _ => hnil, ?_⟩
    · simp only [hproc, Pc.weight_idle, Finset.sum_const_zero]
      exact hout
    · simp only [hproc]
      show s.committing = true ↔ _
      simp [hcom, Pc.isCommit]
    · intro p q hp
      rw [hproc p] at hp
      exact absurd hp (by decide)
    · exact fun _ => hout
    · show s.lh.Nodup
      rw [hnil]
      exact List.nodup_nil
    · intro p hp
      rw [hproc p] at hp
      exact absurd hp (by decide)

/-- **Every step keeps the invariant.** -/
theorem inv_step {L : Geometry} {e : Event P} (h : Inv s) (hs : step L s e = .ok s') : Inv s' := by
  have hup : s.mode = .up → Running s := fun hm => by simpa [Inv, hm] using h
  have hdown : s'.mode = .up → Running s' → Inv s' := fun hm hr => by simpa [Inv, hm] using hr
  cases e with
  | beginOp p =>
    have hmode : (beginOp s p).mode = s.mode := by
      unfold beginOp
      split
      · rfl
      · split <;> rfl
    simp only [step] at hs
    split at hs
    · next hm hp => cases hs; exact hdown (hmode.trans hm) (running_beginOp (hup hm) (.inl hp))
    · next hm hp => cases hs; exact hdown (hmode.trans hm) (running_beginOp (hup hm) (.inr hp))
    · exact absurd hs (by simp)
  | logWrite p b v =>
    simp only [step] at hs
    split at hs
    · next ws hm hp =>
      have hmode : s'.mode = s.mode := by
        rw [Outcome.bind_eq_ok] at hs
        obtain ⟨t, ht, hts⟩ := hs
        unfold logWrite at ht
        split at ht
        · exact absurd ht (by simp)
        split at ht
        · exact absurd ht (by simp)
        cases ht
        cases hts
        rfl
      exact hdown (hmode.trans hm) (running_logWrite (hup hm) hp hs)
    · exact absurd hs (by simp)
  | endOp p =>
    simp only [step] at hs
    split at hs
    · next ws hm hp =>
      obtain ⟨t, ht, hr, hmode⟩ := running_endOp (hup hm) hp
      rw [ht] at hs
      cases hs
      exact hdown (hmode.trans hm) hr
    · exact absurd hs (by simp)
  | commit p =>
    simp only [step] at hs
    split at hs
    · next c hm hp =>
      cases hs
      have hmode : (commitStep L s p c).mode = s.mode := by
        cases c <;> simp only [commitStep] <;> try split
        all_goals rfl
      exact hdown (hmode.trans hm) (running_commitStep L (hup hm) hp)
    · exact absurd hs (by simp)
  | kill p =>
    simp only [step] at hs
    split at hs
    · next hm hp =>
      cases hs
      exact hdown hm (running_goto (hup hm) (by rw [hp]; rfl) (by rw [hp]; rfl) (by simp) (by simp))
    · exact absurd hs (by simp)
  | crash =>
    cases hs
    exact inv_boot s.disk
  | recover =>
    simp only [step] at hs
    split at hs
    · next c hm => cases hs; exact inv_recoverStep L hm h
    · exact absurd hs (by simp)

/-- **The state machine of the log.**  In every state reached by any interleaving
of the critical sections of any number of processes: `outstanding` is not
negative; while a commit is in progress no operation is; an idle log has an
empty header; the header has no duplicates; nobody sleeps in `begin_op` who
could be admitted; and `end_op` does not panic. -/
theorem log_state_machine {L : Geometry} {d : BlockNo → Block}
    (h : Reach (step L) (fun _ _ => True) (Sys.boot d : Sys P) s) (hm : s.mode = .up) :
    0 ≤ s.outstanding ∧
    (s.committing = true → s.outstanding = 0 ∧ ∀ p ws, s.proc p ≠ .inOp ws) ∧
    (s.outstanding = 0 → s.committing = false → s.lh = []) ∧
    s.lh.Nodup ∧
    (∀ p, s.proc p = .sleeping → ¬ (s.committing = false ∧
      (s.lh.length : ℤ) + (s.outstanding + 1) * maxopblocks ≤ logsize)) ∧
    ∀ e, step L s e ≠ .panic .committing := by
  have hinv : Inv s := h.invariant (inv_boot d) fun _ _ _ hi _ hs => inv_step hi hs
  have hr := hinv.running hm
  refine ⟨hr.outstanding_nonneg, fun hc => ⟨hr.quiet hc, fun p ws hp => ?_⟩,
    fun h0 hc => hr.clean hc h0, hr.nodup, hr.awake, fun e he => ?_⟩
  · exact absurd (hc.symm.trans (hr.not_committing hp)) (by decide)
  cases e with
  | beginOp p => simp only [step] at he; split at he <;> cases he
  | logWrite p b v =>
    simp only [step] at he
    split at he
    · rw [Outcome.bind_eq_panic] at he
      rcases he with he | ⟨t, -, ht⟩
      · unfold logWrite at he
        split at he
        · cases he
        · split at he <;> cases he
      · cases ht
    · cases he
  | endOp p =>
    simp only [step] at he
    split at he
    · next ws _ hp =>
      obtain ⟨t, ht, -⟩ := running_endOp hr hp
      rw [ht] at he
      cases he
    · cases he
  | commit p => simp only [step] at he; split at he <;> cases he
  | kill p => simp only [step] at he; split at he <;> cases he
  | crash => cases he
  | recover => simp only [step] at he; split at he <;> cases he

/-- A process has written a block and is committing it, while another one waits to begin. -/
theorem log_state_machine_commit : ∃ s : Sys (Fin 2), s.mode = .up ∧ s.committing = true ∧
    s.lh = [7] ∧ s.outstanding = 0 ∧ ∀ p ws, s.proc p ≠ .inOp ws := by
  obtain ⟨s, hs, htest⟩ := Outcome.exists_of_check
    (p := fun s : Sys (Fin 2) => decide (s.mode = .up ∧ s.committing = true ∧ s.lh = [7]))
    (x := run (step ⟨2, 30, by decide⟩) (Sys.boot fun _ => Bytes.zero)
      [.recover, .recover, .recover, .beginOp 0, .logWrite 0 7 Bytes.zero, .endOp 0, .beginOp 1])
    (by decide +kernel)
  obtain ⟨hm, hc, hlh⟩ := of_decide_eq_true htest
  have hr : Reach (step ⟨2, 30, by decide⟩) (fun _ _ => True) _ s :=
    reach_of_run .refl (permitted_of_forall (fun _ _ _ => trivial) _) hs
  exact ⟨s, hm, hc, hlh, (log_state_machine hr hm).2.1 hc⟩

end Xv6.Log
