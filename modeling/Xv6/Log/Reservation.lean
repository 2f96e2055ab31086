import Xv6.Log.Invariant

/-!
# Log reservations

`begin_op` admits an operation only when the log has room for `MAXOPBLOCKS`
blocks of it besides those already reserved, so that the blocks logged never
outnumber `LOGSIZE`.  But `log_write` also stops at `log.size - 1` blocks, and
`mkfs` makes `log.size` equal to `LOGSIZE`: the header block is not counted, so
that the last block of the last reservation is refused.

## Main definitions

* `WithinOp x e` — an operation logs at most `MAXOPBLOCKS` distinct blocks.
* `Roomy x e` — a call of `log_write` finds fewer than `LOGSIZE - 1` distinct
  block numbers logged since the last commit.
* `Reserved x` — the blocks logged and those still promised fit into `LOGSIZE`.

## Main results

* `reserved_step` — every step keeps `Reserved`.
* `tooBig_iff` — **when `log_write` panics for want of room.**
-/

namespace Xv6.Log

variable {P : Type*} {s : Sys P} {g : Ghost} {p : P}

/-- The file system's side of the bargain: an operation calls `log_write` on at most
`MAXOPBLOCKS` distinct block numbers. -/
def WithinOp (x : Sys P × Ghost) : Event P → Prop
  | .logWrite p b _ =>
    match x.1.proc p with
    | .inOp ws => (ws.insert b).length ≤ maxopblocks
    | _ => True
  | _ => True

/-- A call of `log_write` comes while fewer than `LOGSIZE - 1` distinct block numbers have
been passed to it since the header was last emptied. -/
def Roomy (x : Sys P × Ghost) : Event P → Prop
  | .logWrite _ _ _ => x.2.calls.dedup.length < logsize - 1
  | _ => True

/-- The blocks an operation may still add to the header. -/
def Pc.reserve : Pc → ℕ
  | .inOp ws => maxopblocks - ws.length
  | _ => 0

/-- The log as `mkfs` lays it out: `nlog = LOGSIZE` blocks from block 2 on. -/
def mkfsGeometry : Geometry := ⟨2, logsize, by decide⟩

/-- What has been logged and what is still reserved fit into `LOGSIZE`. -/
structure Reserved [Fintype P] (x : Sys P × Ghost) : Prop where
  inv : Inv x.1
  bound : x.1.mode = .up → x.1.lh.length + ∑ p, (x.1.proc p).reserve ≤ logsize
  own : ∀ p ws, x.1.proc p = .inOp ws →
    ws.Nodup ∧ ws.length ≤ maxopblocks ∧ ∀ b ∈ ws, b ∈ x.1.lh
  calls : x.1.mode = .up → ∀ b, b ∈ x.2.calls ↔ b ∈ x.1.lh
  fresh : ∀ c, x.1.mode = .recovering c → x.2.calls = []

/-! ### Small facts -/

theorem Pc.reserve_inOp (ws : List BlockNo) : (Pc.inOp ws).reserve = maxopblocks - ws.length := rfl

theorem Pc.reserve_le_weight (c : Pc) : (c.reserve : ℤ) ≤ maxopblocks * c.weight := by
  cases c with
  | inOp ws =>
    simp only [Pc.reserve, Pc.weight_inOp, mul_one]
    exact_mod_cast Nat.sub_le _ _
  | idle => simp [Pc.reserve]
  | sleeping => simp [Pc.reserve]
  | woken => simp [Pc.reserve]
  | commit c => simp [Pc.reserve]

theorem length_dedup_calls [Fintype P] {x : Sys P × Ghost} (h : Reserved x)
    (hm : x.1.mode = .up) : x.2.calls.dedup.length = x.1.lh.length := by
  have hr : Running x.1 := by simpa [Inv, hm] using h.inv
  refine List.Perm.length_eq ((List.perm_ext_iff_of_nodup (List.nodup_dedup _) hr.nodup).mpr ?_)
  intro b
  rw [List.mem_dedup]
  exact h.calls hm b

/-- A step that leaves the header alone and admits nobody keeps the reservations. -/
theorem reserved_of_same [Fintype P] {x y : Sys P × Ghost} (h : Reserved x) (hinv : Inv y.1)
    (hm : y.1.mode = x.1.mode) (hlh : y.1.lh = x.1.lh) (hcalls : y.2.calls = x.2.calls)
    (hproc : ∀ q ws, y.1.proc q = .inOp ws → x.1.proc q = .inOp ws) : Reserved y where
  inv := hinv
  bound := by
    intro hup
    have hle : ∑ q, (y.1.proc q).reserve ≤ ∑ q, (x.1.proc q).reserve := by
      refine Finset.sum_le_sum fun q _ => ?_
      cases hq : y.1.proc q with
      | inOp ws => rw [hproc q ws hq]
      | idle => exact Nat.zero_le _
      | sleeping => exact Nat.zero_le _
      | woken => exact Nat.zero_le _
      | commit c => exact Nat.zero_le _
    have := h.bound (hm ▸ hup)
    rw [hlh]
    omega
  own := by
    intro q ws hq
    rw [hlh]
    exact h.own q ws (hproc q ws hq)
  calls := by
    intro hup b
    rw [hlh, hcalls]
    exact h.calls (hm ▸ hup) b
  fresh := by
    intro c hc
    rw [hcalls]
    exact h.fresh c (hm ▸ hc)

theorem inOp_of_wakeup {q : P} {ws : List BlockNo} (h : s.wakeup.proc q = .inOp ws) :
    s.proc q = .inOp ws := by
  simp only [Sys.wakeup] at h
  split at h
  · cases h
  · exact h

theorem reserved_boot [Fintype P] (d : BlockNo → Block) (hg : g.calls = []) :
    Reserved ((.boot d, g) : Sys P × Ghost) where
  inv := inv_boot d
  bound := fun h => nomatch h
  own := fun _ _ h => nomatch h
  calls := fun h => nomatch h
  fresh := fun _ _ => hg

/-- With the log laid out by `mkfs`, a call of `log_write` inside an operation panics for
want of room exactly when `LOGSIZE - 1` blocks are in the header. -/
theorem logWrite_tooBig_iff (s : Sys P) (b : BlockNo) (hout : 1 ≤ s.outstanding) :
    logWrite mkfsGeometry s b = .panic .tooBig ↔ logsize - 1 ≤ s.lh.length := by
  have h30 : (logsize : ℤ) = 30 := rfl
  have h30' : logsize = 30 := rfl
  unfold logWrite mkfsGeometry
  split
  · next hbig =>
    refine iff_of_true rfl ?_
    simp only at hbig
    omega
  · next hsmall =>
    rw [if_neg (by omega)]
    refine iff_of_false (by simp) ?_
    simp only at hsmall
    omega

variable [DecidableEq P]

theorem inOp_of_update {f : P → Pc} {q : P} {c : Pc} {ws : List BlockNo} (hc : c.isOp = false)
    (h : Function.update f p c q = .inOp ws) : f q = .inOp ws := by
  by_cases hq : q = p
  · rw [hq, Function.update_self] at h
    rw [h] at hc
    exact absurd hc (by simp [Pc.isOp])
  · rwa [Function.update_of_ne hq] at h

variable [Fintype P] {x y : Sys P × Ghost}

/-- `begin_op` reserves `MAXOPBLOCKS` blocks, and only when they fit. -/
theorem reserved_beginOp (h : Reserved (s, g)) (hm : s.mode = .up)
    (hp : s.proc p = .idle ∨ s.proc p = .woken) : Reserved (beginOp s p, g) := by
  have hr := h.inv.running hm
  have hinv : Inv (beginOp s p) := by
    have hr' := running_beginOp hr hp
    have hm' : (beginOp s p).mode = .up := by
      unfold beginOp
      split
      · exact hm
      · split <;> exact hm
    simpa [Inv, hm'] using hr'
  have hzero : (s.proc p).reserve = 0 := by rcases hp with hp | hp <;> rw [hp] <;> rfl
  unfold beginOp at hinv ⊢
  split
  · next hc =>
    -- a commit is under way: sleep
    rw [if_pos hc] at hinv
    exact reserved_of_same h hinv rfl rfl rfl fun q ws => inOp_of_update rfl
  rename_i hc
  rw [if_neg hc] at hinv
  split
  · next hfull =>
    -- the reservation does not fit: sleep
    rw [if_pos hfull] at hinv
    exact reserved_of_same h hinv rfl rfl rfl fun q ws => inOp_of_update rfl
  rename_i hfit
  rw [if_neg hfit] at hinv
  refine ⟨hinv, fun _ => ?_, ?_, h.calls, h.fresh⟩
  · -- the reservations in force are at most `MAXOPBLOCKS` for each operation
    have hsum := sum_update_add Pc.reserve s.proc p (.inOp [])
    have hall : ((∑ q, (s.proc q).reserve : ℕ) : ℤ) ≤ maxopblocks * s.outstanding := by
      rw [hr.outstanding_eq, Finset.mul_sum]
      push_cast
      exact Finset.sum_le_sum fun q _ => (s.proc q).reserve_le_weight
    rw [hzero, Pc.reserve_inOp, List.length_nil] at hsum
    simp only [Sys.goto]
    simp only [maxopblocks, logsize] at hall hfit hsum ⊢
    omega
  · intro q ws hq
    simp only [Sys.goto] at hq
    by_cases hqp : q = p
    · rw [hqp, Function.update_self, Pc.inOp.injEq] at hq
      subst hq
      exact ⟨List.nodup_nil, Nat.zero_le _, fun b hb => absurd hb List.not_mem_nil⟩
    · rw [Function.update_of_ne hqp] at hq
      exact h.own q ws hq

/-- A block an operation adds to the header comes out of its own reservation. -/
theorem reserved_logWrite {L : Geometry} {s' : Sys P} {b : BlockNo} {v : Block}
    {ws : List BlockNo} (h : Reserved (s, g)) (hm : s.mode = .up) (hp : s.proc p = .inOp ws)
    (hw : (ws.insert b).length ≤ maxopblocks)
    (hs : (logWrite L { s with cache := Function.update s.cache b v } b).bind
      (fun s' => .ok (s'.goto p (.inOp (ws.insert b)))) = .ok s') :
    Reserved (s', { g with calls := b :: g.calls }) := by
  have hr := h.inv.running hm
  have hr' := running_logWrite hr hp hs
  rw [Outcome.bind_eq_ok] at hs
  obtain ⟨t, ht, hts⟩ := hs
  unfold logWrite at ht
  split at ht
  · exact absurd ht (by simp)
  split at ht
  · exact absurd ht (by simp)
  cases ht
  cases hts
  obtain ⟨hnd, hlen, hsub⟩ := h.own p ws hp
  have hmem := mem_absorb s.lh b
  refine ⟨by simpa [Inv, Sys.goto, hm] using hr', fun _ => ?_, ?_, fun _ c => ?_, ?_⟩
  · have hsum := sum_update_add Pc.reserve s.proc p (.inOp (ws.insert b))
    have hb : s.lh.length + ∑ q, (s.proc q).reserve ≤ logsize := h.bound hm
    rw [hp, Pc.reserve_inOp, Pc.reserve_inOp] at hsum
    simp only [Sys.goto]
    rw [absorb_eq]
    by_cases hbw : b ∈ ws
    · -- logged before by this operation: nothing changes
      rw [List.insert_of_mem hbw] at hsum hw ⊢
      rw [if_pos (hsub b hbw)]
      omega
    · -- a block new to the operation uses one of its reserved places
      rw [List.length_insert_of_not_mem hbw] at hsum hw
      split
      · omega
      · rw [List.length_append, List.length_singleton]
        omega
  · intro q us hq
    simp only [Sys.goto] at hq
    by_cases hqp : q = p
    · rw [hqp, Function.update_self, Pc.inOp.injEq] at hq
      subst hq
      refine ⟨hnd.insert, hw, fun c hc => (hmem c).mpr ?_⟩
      rcases List.mem_insert_iff.mp hc with rfl | hc
      · exact Or.inl rfl
      · exact Or.inr (hsub c hc)
    · rw [Function.update_of_ne hqp] at hq
      obtain ⟨h₁, h₂, h₃⟩ := h.own q us hq
      exact ⟨h₁, h₂, fun c hc => (hmem c).mpr (Or.inr (h₃ c hc))⟩
  · rw [List.mem_cons]
    exact (or_congr Iff.rfl (h.calls hm c)).trans (hmem c).symm
  · intro c hc
    simp only [Sys.goto, hm] at hc
    cases hc

/-- `commit()` gives nothing back until it has emptied the header. -/
theorem reserved_commitStep (L : Geometry) {c : CommitPc} (h : Reserved (s, g))
    (hm : s.mode = .up) (hp : s.proc p = .commit c) :
    Reserved (commitStep L s p c, g.next s (.commit p)) := by
  have hr := h.inv.running hm
  have hinv : Inv (commitStep L s p c) := by
    refine inv_step (L := L) (e := .commit p) h.inv ?_
    simp [step, hm, hp]
  -- no operation is in progress while the log commits
  have hnone : ∀ q ws, s.proc q ≠ .inOp ws := fun q ws hq => by
    have hcom := hr.committing_iff.mpr ⟨p, by rw [hp]; rfl⟩
    exact absurd (hcom.symm.trans (hr.not_committing hq)) (by decide)
  cases c with
  | check =>
    exact reserved_of_same h hinv rfl rfl (by simp [Ghost.next, hp])
      fun q ws => inOp_of_update rfl
  | writeLog tail =>
    simp only [commitStep] at hinv ⊢
    split <;> exact reserved_of_same h (by simp_all) rfl rfl (by simp [Ghost.next, hp])
      fun q ws => inOp_of_update rfl
  | writeHead =>
    exact reserved_of_same h hinv rfl rfl (by simp [Ghost.next, hp])
      fun q ws => inOp_of_update rfl
  | install tail =>
    simp only [commitStep] at hinv ⊢
    split
    · next b hb =>
      exact reserved_of_same h (by simp_all) rfl rfl (by simp [Ghost.next, hp, hb])
        fun q ws => inOp_of_update rfl
    rename_i hb
    have hnone' : ∀ q ws, Function.update s.proc p (Pc.commit .eraseHead) q ≠ .inOp ws :=
      fun q ws hq => hnone q ws (inOp_of_update rfl hq)
    refine ⟨by simp_all, fun _ => ?_, fun q ws hq => absurd hq (hnone' q ws), fun _ b => ?_, ?_⟩
    · have hsum : ∑ q, (Function.update s.proc p (Pc.commit .eraseHead) q).reserve = 0 := by
        refine Finset.sum_eq_zero fun q _ => ?_
        cases hq : Function.update s.proc p (Pc.commit .eraseHead) q with
        | inOp ws => exact absurd hq (hnone' q ws)
        | idle => rfl
        | sleeping => rfl
        | woken => rfl
        | commit c => rfl
      simp only [Sys.goto, List.length_nil, hsum]
      exact Nat.zero_le _
    · simp [Ghost.next, hp, hb, Sys.goto]
    · intro c hc
      simp only [Sys.goto, hm] at hc
      cases hc
  | eraseHead =>
    exact reserved_of_same h hinv rfl rfl (by simp [Ghost.next, hp])
      fun q ws => inOp_of_update rfl
  | finish =>
    exact reserved_of_same h hinv rfl rfl (by simp [Ghost.next, hp])
      fun q ws hq => inOp_of_wakeup (s := s) (inOp_of_update rfl hq)

omit [DecidableEq P] in
theorem reserved_recoverStep (L : Geometry) {c : RecoverPc} (h : Reserved (s, g))
    (hm : s.mode = .recovering c) : Reserved (recoverStep L s c, g) := by
  have hcalls : g.calls = [] := h.fresh c hm
  have hidle : ∀ p, s.proc p = .idle := by
    have := h.inv
    simp only [Inv, hm] at this
    exact this.1
  have hidle' : ∀ p, (recoverStep L s c).proc p = .idle := by
    cases c with
    | readHead => exact hidle
    | install tail => simp only [recoverStep]; split <;> exact hidle
    | clear => exact hidle
  have hlh : (recoverStep L s c).mode = .up → (recoverStep L s c).lh = [] := by
    intro hup
    have hc : c = .clear := by
      cases c with
      | readHead => cases hup
      | install tail => simp only [recoverStep] at hup; split at hup <;> cases hup
      | clear => rfl
    have := h.inv
    simp only [Inv, hm] at this
    subst hc
    exact this.2.2.2 rfl
  refine ⟨inv_recoverStep L hm h.inv, fun hup => ?_, fun p ws hp => ?_, fun hup b => ?_,
    fun _ _ => hcalls⟩
  · have hsum : ∑ p, ((recoverStep L s c).proc p).reserve = 0 :=
      Finset.sum_eq_zero fun p _ => by rw [hidle' p]; rfl
    simp only [hlh hup, hsum, List.length_nil]
    exact Nat.zero_le _
  · rw [hidle' p] at hp
    cases hp
  · simp [hlh hup, hcalls]

/-- **Every step keeps the reservations.** -/
theorem reserved_step {L : Geometry} {e : Event P} (h : Reserved x) (hw : WithinOp x e)
    (hs : traced L x e = .ok y) : Reserved y := by
  obtain ⟨s, g⟩ := x
  rw [traced, Outcome.bind_eq_ok] at hs
  obtain ⟨s', hs', hy⟩ := hs
  cases hy
  have hinv : Inv s' := inv_step h.inv hs'
  cases e with
  | beginOp p =>
    simp only [step] at hs'
    split at hs'
    · next hm hp => cases hs'; exact reserved_beginOp h hm (.inl hp)
    · next hm hp => cases hs'; exact reserved_beginOp h hm (.inr hp)
    · cases hs'
  | logWrite p b v =>
    simp only [step] at hs'
    split at hs'
    · next ws hm hp =>
      refine reserved_logWrite h hm hp ?_ hs'
      simpa [WithinOp, hp] using hw
    · cases hs'
  | endOp p =>
    simp only [step] at hs'
    split at hs'
    · next ws hm hp =>
      unfold endOp at hs'
      simp only at hs'
      split at hs'
      · cases hs'
      split at hs'
      · cases hs'
        exact reserved_of_same h hinv rfl rfl rfl fun q us => inOp_of_update rfl
      · cases hs'
        exact reserved_of_same h hinv rfl rfl rfl fun q us hq =>
          inOp_of_wakeup (s := s) (inOp_of_update rfl hq)
    · cases hs'
  | commit p =>
    simp only [step] at hs'
    split at hs'
    · next c hm hp => cases hs'; exact reserved_commitStep L h hm hp
    · cases hs'
  | kill p =>
    simp only [step] at hs'
    split at hs'
    · cases hs'
      exact reserved_of_same h hinv rfl rfl rfl fun q us => inOp_of_update rfl
    · cases hs'
  | crash =>
    cases hs'
    exact reserved_boot s.disk rfl
  | recover =>
    simp only [step] at hs'
    split at hs'
    · next c hm => cases hs'; exact reserved_recoverStep L h hm
    · cases hs'

/-! ### The panic of `log_write` -/

/-- The machine at boot, with no history. -/
def atBoot (d : BlockNo → Block) : Sys P × Ghost := (.boot d, ⟨[], []⟩)

/-- **When `log_write` panics for want of room.**  On the log `mkfs` lays out, in
every interleaving of operations that keep within `MAXOPBLOCKS` distinct blocks:
as long as every call of `log_write` comes while fewer than `LOGSIZE - 1`
distinct blocks have been logged since the last commit, no call panics with
`"too big a transaction"`; and a call that comes later does. -/
theorem tooBig_iff (d : BlockNo → Block) :
    (∀ x : Sys P × Ghost, Reach (traced mkfsGeometry) (fun x e => WithinOp x e ∧ Roomy x e)
        (atBoot d) x → ∀ e, WithinOp x e → Roomy x e →
          traced mkfsGeometry x e ≠ .panic .tooBig) ∧
    (∀ x : Sys P × Ghost, Reach (traced mkfsGeometry) WithinOp (atBoot d) x →
      ∀ p b v ws, x.1.mode = .up → x.1.proc p = .inOp ws → ¬ Roomy x (.logWrite p b v) →
        traced mkfsGeometry x (.logWrite p b v) = .panic .tooBig) := by
  have hres : ∀ x : Sys P × Ghost, Reach (traced mkfsGeometry) WithinOp (atBoot d) x →
      Reserved x := fun x hx =>
    hx.invariant (reserved_boot d rfl) fun _ _ _ hi hw hs => reserved_step hi hw hs
  -- the panic of a call, in terms of the distinct block numbers passed so far
  have hcall : ∀ x : Sys P × Ghost, Reserved x → ∀ p b v ws, x.1.mode = .up →
      x.1.proc p = .inOp ws →
      (traced mkfsGeometry x (.logWrite p b v) = .panic .tooBig ↔
        ¬ Roomy x (.logWrite p b v)) := by
    intro x hx p b v ws hm hp
    have hr : Running x.1 := by simpa [Inv, hm] using hx.inv
    have hout : 1 ≤ ({ x.1 with cache := Function.update x.1.cache b v } : Sys P).outstanding :=
      hr.outstanding_pos hp
    have hiff := logWrite_tooBig_iff _ b hout
    rw [Roomy, length_dedup_calls hx hm, not_lt]
    refine Iff.trans ?_ hiff
    simp [traced, step, hm, hp, Outcome.bind_eq_panic]
  refine ⟨fun x hx e hw hroom hpanic => ?_, fun x hx p b v ws hm hp hfull => ?_⟩
  · have hx' := hres x (hx.mono fun _ _ h => h.1)
    rw [traced, Outcome.bind_eq_panic] at hpanic
    rcases hpanic with hpanic | ⟨_, _, h⟩
    · cases e with
      | logWrite p b v =>
        cases hm : x.1.mode with
        | recovering c => simp [step, hm] at hpanic
        | up =>
          cases hp : x.1.proc p with
          | inOp ws => exact (hcall x hx' p b v ws hm hp).mp (by simp [traced, hpanic]) hroom
          | idle => simp [step, hm, hp] at hpanic
          | sleeping => simp [step, hm, hp] at hpanic
          | woken => simp [step, hm, hp] at hpanic
          | commit c => simp [step, hm, hp] at hpanic
      | endOp p =>
        simp only [step, endOp] at hpanic
        split at hpanic
        · split at hpanic
          · cases hpanic
          · split at hpanic <;> cases hpanic
        · cases hpanic
      | beginOp p => simp only [step] at hpanic; split at hpanic <;> cases hpanic
      | commit p => simp only [step] at hpanic; split at hpanic <;> cases hpanic
      | kill p => simp only [step] at hpanic; split at hpanic <;> cases hpanic
      | crash => cases hpanic
      | recover => simp only [step] at hpanic; split at hpanic <;> cases hpanic
    · cases h
  · exact (hcall x (hres x hx) p b v ws hm hp).mpr hfull

/-- Three operations, each logging ten blocks nobody else logs. -/
def threeOps : List (Event (Fin 3)) :=
  [.recover, .recover, .recover, .beginOp 0, .beginOp 1, .beginOp 2] ++
    (List.range 29).map fun i => .logWrite (Fin.ofNat 3 i) (BitVec.ofNat 32 (100 + i)) Bytes.zero

instance (x : Sys P × Ghost) (e : Event P) : Decidable (WithinOp x e) := by
  cases e with
  | logWrite p b v =>
    simp only [WithinOp]
    cases x.1.proc p <;> infer_instance
  | _ => exact .isTrue trivial

/-- **The reservation is not sufficient.**  All three operations are admitted, no one
logs more than `MAXOPBLOCKS` blocks, and the last call panics. -/
theorem threeOps_tooBig : ∃ x : Sys (Fin 3) × Ghost,
    Reach (traced mkfsGeometry) WithinOp (atBoot fun _ => Bytes.zero) x ∧
      WithinOp x (.logWrite 2 129 Bytes.zero) ∧
      traced mkfsGeometry x (.logWrite 2 129 Bytes.zero) = .panic .tooBig := by
  have hrun : (run (traced mkfsGeometry) (atBoot fun _ => Bytes.zero) threeOps).check
      (fun x : Sys (Fin 3) × Ghost =>
      decide (WithinOp x (.logWrite 2 129 Bytes.zero)) &&
        match traced mkfsGeometry x (.logWrite 2 129 Bytes.zero) with
        | .panic e => decide (e = .tooBig)
        | _ => false) = true := by decide +kernel
  obtain ⟨x, hx, htest⟩ := Outcome.exists_of_check hrun
  obtain ⟨hw, hpanic⟩ := (Bool.and_eq_true _ _).mp htest
  refine ⟨x, reach_of_run .refl (by decide +kernel) hx, of_decide_eq_true hw, ?_⟩
  split at hpanic
  · next e he => rw [he, of_decide_eq_true hpanic]
  · cases hpanic

end Xv6.Log
