import Xv6.Pipes.Invariant

/-!
# The bytes in a pipe

Bytes leave a pipe in the order in which they were stored, however readers and writers
interleave, and also after the counters have wrapped.  `piperead` takes a byte before it
knows whether it can deliver it: if `copyout` fails, the byte is lost.

## Main definitions

* `Delivers` — the steps of `piperead` that can deliver the byte they take.

## Main results

* `pipe_fifo` — what was taken is the beginning of what was stored.
* `no_byte_lost` — what was taken was delivered, if no `copyout` fails.
-/

namespace Xv6.Pipes

open Function

variable {N : ℕ} {s s' : State N} {p : Fin N} {data : Fin pipesize → UInt8}

/-! ### What a step does to the bytes -/

/-- What a step does to the bytes: nothing, store one, or take one. -/
inductive Flow (s s' : State N) : Prop
  | none (ring : s'.pipe.ring = s.pipe.ring) (stored : s'.stored = s.stored)
      (taken : s'.taken = s.taken)
  | store (ch : UInt8) (full : ¬ s.pipe.ring.Full) (ring : s'.pipe.ring = s.pipe.ring.push ch)
      (stored : s'.stored = s.stored ++ [ch]) (taken : s'.taken = s.taken)
  | take (empty : ¬ s.pipe.ring.Empty) (ring : s'.pipe.ring = s.pipe.ring.pop)
      (stored : s'.stored = s.stored) (taken : s'.taken = s.taken ++ [s.pipe.ring.front])

theorem flow_act (hs : act s p = .ok s') : Flow s s' := by
  unfold act at hs
  split at hs
  · cases hs
  · -- `acquire`
    split at hs <;> cases hs
    exact .none rfl rfl rfl
  · cases hs
    -- a byte is stored when the ring is not full and `copyin` succeeds
    unfold writeIter
    split
    · split
      · exact .none rfl rfl rfl
      split
      · exact .none rfl rfl rfl
      · next hfull =>
        split
        · exact .none rfl rfl rfl
        · exact .store _ hfull rfl rfl rfl
    · exact .none rfl rfl rfl
  · cases hs
    unfold readIter
    split
    · split <;> exact .none rfl rfl rfl
    · exact .none rfl rfl rfl
  · cases hs
    -- a byte is taken also when `copyout` then fails
    unfold copyIter
    split
    · next hc =>
      dsimp only
      split <;> exact .take hc.2 rfl rfl rfl
    · exact .none rfl rfl rfl
  · cases hs
    unfold closeEnd
    split <;> exact .none rfl rfl rfl
  · next chan q k _ =>
    unfold wakeupIter at hs
    split at hs
    · split at hs
      · cases hs
        exact .none rfl rfl rfl
      · split at hs <;> cases hs
        exact .none rfl rfl rfl
    · cases hs
      cases k <;> exact .none rfl rfl rfl
  · next chan x k _ =>
    cases x with
    | acquire =>
      rw [sleepStep] at hs
      split at hs <;> cases hs
      exact .none rfl rfl rfl
    | asleep =>
      rw [sleepStep] at hs
      split at hs <;> cases hs
      exact .none rfl rfl rfl
    | release | set | sched | tidy =>
      cases hs
      exact .none rfl rfl rfl

theorem flow_call {k : Held} (hs : call s p k = .ok s') : Flow s s' := by
  unfold call at hs
  split at hs <;> cases hs
  exact .none rfl rfl rfl

theorem flow_step {a : Event N} (hs : step s a = .ok s') : Flow s s' := by
  cases a with
  | write p w => exact flow_call hs
  | read p r => exact flow_call hs
  | close p writable => exact flow_call hs
  | act p => exact flow_act hs
  | kill p =>
    rw [step] at hs
    split at hs <;> cases hs
    exact .none rfl rfl rfl

/-! ### First in, first out -/

/-- The ring holds the bytes that were stored and not taken. -/
structure Queue (s : State N) : Prop where
  count : s.pipe.ring.count ≤ pipesize
  bytes : s.stored = s.taken ++ s.pipe.ring.contents

theorem Queue.start (data : Fin pipesize → UInt8) : Queue (start N data) := by
  have hcount : (Pipes.start N data).pipe.ring.count = 0 := Fifo.empty_iff.mp rfl
  refine ⟨by rw [hcount]; exact Nat.zero_le _, ?_⟩
  rw [Fifo.contents, hcount]
  rfl

theorem Queue.step (h : Queue s) (hb : Flow s s') : Queue s' := by
  have hcap : pipesize < 2 ^ 32 := by decide
  cases hb with
  | none ring stored taken =>
    exact ⟨by rw [ring]; exact h.count, by rw [ring, stored, taken, h.bytes]⟩
  | store ch full ring stored taken =>
    refine ⟨?_, ?_⟩
    · have hne := mt (Fifo.full_iff hcap).mpr full
      have hle := h.count
      rw [ring, Fifo.count_push hcap hle full]
      omega
    · rw [ring, stored, taken, Fifo.contents_push (by decide) hcap h.count full, h.bytes,
        List.append_assoc]
  | take empty ring stored taken =>
    refine ⟨?_, ?_⟩
    · have hcount := Fifo.count_pop empty
      have hle := h.count
      rw [ring]
      omega
    · rw [ring, stored, taken, h.bytes, Fifo.contents_pop empty, List.append_assoc]
      rfl

/-- **A pipe is first in, first out.**  In every run, however long, the unsigned difference of
`nwrite` and `nread` is at most `PIPESIZE`, and the bytes taken so far, followed by the
`nwrite - nread` bytes in the ring, are the bytes stored so far. -/
theorem pipe_fifo (hs : Reach step (fun _ _ => True) (start N data) s) :
    (s.pipe.ring.nwrite - s.pipe.ring.nread).toNat ≤ pipesize ∧
      s.stored = s.taken ++ s.pipe.ring.contents ∧
      s.pipe.ring.contents.length = (s.pipe.ring.nwrite - s.pipe.ring.nread).toNat := by
  have hq : Queue s :=
    hs.invariant (.start data) fun _ _ _ h _ hstep => h.step (flow_step hstep)
  refine ⟨hq.count, hq.bytes, ?_⟩
  rw [Fifo.contents, List.length_map, List.length_range]
  rfl

/-- A process writes two bytes, and another reads one. -/
def shortRun : List (Event 2) :=
  [.write 0 ⟨2, fun i => some (if i = 0 then 7 else 8)⟩] ++ List.replicate 7 (.act 0) ++
    [.read 1 ⟨1, fun _ => true⟩] ++ List.replicate 7 (.act 1)

theorem pipe_fifo_short : ∃ s, run step (start 2 fun _ => 0) shortRun = .ok s ∧
    (s.stored = [7, 8] ∧ s.taken = [7]) ∧
    (s.pipe.ring.nwrite - s.pipe.ring.nread).toNat ≤ pipesize ∧
      s.stored = s.taken ++ s.pipe.ring.contents ∧
      s.pipe.ring.contents.length = (s.pipe.ring.nwrite - s.pipe.ring.nread).toNat := by
  have hrun : (run step (start 2 fun _ => 0) shortRun).check
      (fun s => s.stored = [7, 8] ∧ s.taken = [7]) = true := by decide +kernel
  obtain ⟨s, hs, htest⟩ := Outcome.exists_of_check hrun
  exact ⟨s, hs, of_decide_eq_true htest,
    pipe_fifo (reach_of_run .refl (permitted_of_forall (fun _ _ _ => trivial) _) hs)⟩

/-! ### Delivery -/

/-- A step of `piperead` that takes a byte can deliver it. -/
def Delivers (s : State N) : Event N → Prop
  | .act p => match s.pc p with
    | .held (.readCopy r i _) => (i : ℤ) < r.n → ¬ s.pipe.ring.Empty → r.dst i = true
    | _ => True
  | _ => True

/-- What the running call of `piperead` has taken and not yet reported. -/
def Held.pending : Held → List UInt8
  | .readCopy _ _ out => out
  | .wakeup _ _ (.retRead i out) => out.take i
  | _ => []

def Pc.pending : Pc → List UInt8
  | .held k => k.pending
  | _ => []

/-- The points at which `pi->lock` is acquired. -/
def Held.entry : Held → Bool
  | .writeLoop .. | .readLoop _ | .close _ => true
  | _ => false

/-- A call of `piperead` counts the bytes it has delivered, and has none while it waits. -/
def Pc.Counts : Pc → Prop
  | .held (.readCopy _ i done) => done.length = i
  | .acquire k | .sleep _ _ k => k.entry = true
  | _ => True

theorem Held.pending_entry {k : Held} (h : k.entry = true) : k.pending = [] := by
  cases k with
  | writeLoop | readLoop | close => rfl
  | readCopy | wakeup => cases h

theorem Held.counts_entry {k : Held} (h : k.entry = true) : (Pc.held k).Counts := by
  cases k with
  | writeLoop | readLoop | close => trivial
  | readCopy | wakeup => cases h

/-- What was taken was delivered, except what the holder of `pi->lock` is about to report. -/
structure Settled (s : State N) : Prop where
  counts : ∀ p, (s.pc p).Counts
  bytes : s.taken = s.delivered ++ s.lock.elim [] fun p => (s.pc p).pending

section Settled

variable {pc : Pc}

theorem Settled.goto (h : Settled s) {t : State N} (hb : Base s) (hpc : t.pc = s.pc)
    (hlock : t.lock = s.lock) (htaken : t.taken = s.taken) (hdel : t.delivered = s.delivered)
    (hcounts : pc.Counts) (hpend : (s.pc p).holds = true → pc.pending = (s.pc p).pending) :
    Settled (t.goto p pc) := by
  refine ⟨fun q => ?_, ?_⟩
  · rw [State.goto_pc, hpc]
    by_cases hq : q = p
    · rw [hq, update_self]
      exact hcounts
    · rw [update_of_ne hq]
      exact h.counts q
  show t.taken = t.delivered ++ t.lock.elim [] fun q => (update t.pc p pc q).pending
  rw [htaken, hdel, hlock, h.bytes]
  cases hl : s.lock with
  | none => rfl
  | some q =>
    show _ ++ _ = _ ++ (update t.pc p pc q).pending
    by_cases hq : q = p
    · subst hq
      rw [update_self, hpend ((hb.holder q).mp hl)]
      rfl
    · rw [update_of_ne hq, hpc]
      rfl

theorem Settled.unlock (h : Settled s) (hb : Base s) (hp : (s.pc p).holds = true)
    (hcounts : pc.Counts) (hpend : (s.pc p).pending = []) :
    Settled ((s.setLock none).goto p pc) := by
  have hlock := hb.lock_eq hp
  refine ⟨fun q => ?_, ?_⟩
  · rw [State.goto_pc, State.setLock_pc]
    by_cases hq : q = p
    · rw [hq, update_self]
      exact hcounts
    · rw [update_of_ne hq]
      exact h.counts q
  · have hbytes := h.bytes
    rw [hlock] at hbytes
    show s.taken = s.delivered ++ []
    rw [hbytes]
    exact congrArg _ hpend

/-- A step of the holder of `pi->lock` that changes what was taken or delivered. -/
theorem Settled.holder (h : Settled s) {t : State N} (hlock : s.lock = some p) (hpc : t.pc = s.pc)
    (hcounts : pc.Counts) (hbytes : s.taken = s.delivered ++ (s.pc p).pending →
      t.taken = t.delivered ++ t.lock.elim [] fun _ => pc.pending)
    (hkeep : t.lock = some p ∨ t.lock = none) : Settled (t.goto p pc) := by
  refine ⟨fun q => ?_, ?_⟩
  · rw [State.goto_pc, hpc]
    by_cases hq : q = p
    · rw [hq, update_self]
      exact hcounts
    · rw [update_of_ne hq]
      exact h.counts q
  · have hs := h.bytes
    rw [hlock] at hs
    show t.taken = t.delivered ++ t.lock.elim [] fun q => (update t.pc p pc q).pending
    rw [hbytes hs]
    obtain hl | hl := hkeep
    · rw [hl, Option.elim_some, Option.elim_some, update_self]
    · rw [hl]
      rfl

theorem Settled.wakeupIter (h : Settled s) (hb : Base s) {chan : Chan} {q : ℕ} {k : After}
    (hp : s.pc p = .held (.wakeup chan q k)) (hs : wakeupIter s p chan q k = .ok s') :
    Settled s' := by
  have hholds : (s.pc p).holds = true := by rw [hp]; rfl
  have hnext : ∀ t : State N, t.pc = s.pc → t.lock = s.lock → t.taken = s.taken →
      t.delivered = s.delivered → Settled (t.goto p (.held (.wakeup chan (q + 1) k))) := by
    intro t h₁ h₂ h₃ h₄
    refine h.goto hb h₁ h₂ h₃ h₄ trivial fun _ => ?_
    rw [hp]
    cases k <;> rfl
  unfold Pipes.wakeupIter at hs
  split at hs
  · split at hs
    · cases hs
      exact hnext s rfl rfl rfl rfl
    · split at hs <;> cases hs
      exact hnext _ rfl rfl rfl rfl
  cases hs
  cases k with
  | sleep w i => exact h.goto hb rfl rfl rfl rfl rfl fun _ => by rw [hp]; rfl
  | ret => exact h.unlock hb hholds trivial (by rw [hp]; rfl)
  | retRead i out =>
    refine h.holder (t := { s with delivered := s.delivered ++ out.take i }.setLock none)
      (hb.lock_eq hholds) rfl (show Pc.out.Counts from trivial) (fun hbytes => ?_) (.inr rfl)
    rw [hp] at hbytes
    show s.taken = s.delivered ++ out.take i ++ []
    rw [List.append_nil]
    exact hbytes

theorem Settled.sleepStep (h : Settled s) (hb : Base s) {chan : Chan} {x : SleepPc} {k : Held}
    (hp : s.pc p = .sleep chan x k) (hs : sleepStep s p chan k x = .ok s') : Settled s' := by
  have hentry : k.entry = true := by
    have := h.counts p
    rwa [hp] at this
  have hgo : ∀ t : State N, ∀ x', t.pc = s.pc → t.lock = s.lock → t.taken = s.taken →
      t.delivered = s.delivered → Settled (t.goto p (.sleep chan x' k)) :=
    fun t x' h₁ h₂ h₃ h₄ => h.goto hb h₁ h₂ h₃ h₄ hentry fun _ => by rw [hp]; rfl
  cases x with
  | acquire =>
    rw [Pipes.sleepStep] at hs
    split at hs <;> cases hs
    exact hgo _ _ rfl rfl rfl rfl
  | release =>
    cases hs
    exact h.unlock hb (by rw [hp]; rfl) hentry (by rw [hp]; rfl)
  | set =>
    cases hs
    exact hgo _ _ rfl rfl rfl rfl
  | sched =>
    cases hs
    exact hgo _ _ rfl rfl rfl rfl
  | asleep =>
    rw [Pipes.sleepStep] at hs
    split at hs <;> cases hs
    exact hgo _ _ rfl rfl rfl rfl
  | tidy =>
    cases hs
    exact h.goto hb rfl rfl rfl rfl hentry fun _ => by rw [hp]; rfl

theorem Settled.act (h : Settled s) (hb : Base s) (hok : Delivers s (.act p))
    (hs : act s p = .ok s') : Settled s' := by
  unfold Pipes.act at hs
  have hgo : ∀ k k', s.pc p = .held k → k.pending = [] → k'.pending = [] → (Pc.held k').Counts →
      ∀ t : State N, t.pc = s.pc → t.lock = s.lock → t.taken = s.taken →
      t.delivered = s.delivered → Settled (t.goto p (.held k')) := by
    intro k k' hk hp hp' hc t h₁ h₂ h₃ h₄
    refine h.goto hb h₁ h₂ h₃ h₄ hc fun _ => ?_
    rw [hk]
    exact hp'.trans hp.symm
  split at hs
  · cases hs
  · next k hk =>
    -- `acquire`: a call that waits for the lock has nothing to report
    have hentry : k.entry = true := by
      have := h.counts p
      rwa [hk] at this
    split at hs
    · next hfree =>
      cases hs
      refine ⟨fun q => ?_, ?_⟩
      · rw [State.goto_pc]
        by_cases hq : q = p
        · rw [hq, update_self]
          exact Held.counts_entry hentry
        · rw [update_of_ne hq]
          exact h.counts q
      · have hbytes := h.bytes
        rw [hfree.1] at hbytes
        show s.taken = s.delivered ++ (update s.pc p (.held k) p).pending
        rw [update_self, hbytes]
        exact congrArg _ (Held.pending_entry hentry).symm
    · cases hs
  · next w i last hk =>
    -- `pipewrite` delivers nothing
    have hholds : (s.pc p).holds = true := by rw [hk]; rfl
    cases hs
    unfold writeIter
    split
    · split
      · exact h.unlock hb hholds trivial (by rw [hk]; rfl)
      · split
        · exact hgo _ _ hk rfl rfl (by trivial) s rfl rfl rfl rfl
        · split
          · exact hgo _ _ hk rfl rfl (by trivial) s rfl rfl rfl rfl
          · exact hgo _ _ hk rfl rfl (by trivial) _ rfl rfl rfl rfl
    · exact hgo _ _ hk rfl rfl (by trivial) s rfl rfl rfl rfl
  · next r hk =>
    -- `piperead` before its first byte
    have hholds : (s.pc p).holds = true := by rw [hk]; rfl
    cases hs
    unfold readIter
    split
    · split
      · exact h.unlock hb hholds trivial (by rw [hk]; rfl)
      · exact h.goto hb rfl rfl rfl rfl rfl fun _ => by rw [hk]; rfl
    · exact hgo _ _ hk rfl rfl (by rfl) s rfl rfl rfl rfl
  · next r i out hk =>
    -- the copying loop of `piperead`
    have hcount : out.length = i := by
      have := h.counts p
      rwa [hk] at this
    -- by hypothesis the byte it takes can be delivered
    have hdst : (i : ℤ) < r.n → ¬ s.pipe.ring.Empty → r.dst i = true := by
      simpa only [Delivers, hk] using hok
    have hlock : s.lock = some p := hb.lock_eq (by rw [hk]; rfl)
    cases hs
    unfold copyIter
    split
    · next hc =>
      dsimp only
      rw [if_pos (hdst hc.1 hc.2)]
      refine h.holder hlock rfl ?_ (fun hbytes => ?_) (.inl hlock)
      · show (out ++ [_]).length = i + 1
        rw [List.length_append, hcount]
        rfl
      · rw [hk] at hbytes
        show s.taken ++ [_] = s.delivered ++ s.lock.elim [] fun _ => out ++ [_]
        rw [hbytes, hlock, List.append_assoc]
        rfl
    · refine h.goto hb rfl rfl rfl rfl trivial fun _ => ?_
      rw [hk]
      show out.take i = out
      rw [← hcount, List.take_length]
  · next writable hk =>
    cases hs
    unfold closeEnd
    split
    · exact hgo _ _ hk rfl rfl (by trivial) _ rfl rfl rfl rfl
    · exact hgo _ _ hk rfl rfl (by trivial) _ rfl rfl rfl rfl
  · next chan q k hk => exact h.wakeupIter hb hk hs
  · next chan x k hk => exact h.sleepStep hb hk hs

theorem Settled.call (h : Settled s) (hb : Base s) {k : Held} (hk : k.entry = true)
    (hs : call s p k = .ok s') : Settled s' := by
  unfold Pipes.call at hs
  split at hs
  · next hp =>
    cases hs
    exact h.goto hb rfl rfl rfl rfl hk fun _ => by rw [hp]; rfl
  · cases hs

theorem Settled.step (h : Settled s) (hb : Base s) {a : Event N} (hok : Delivers s a)
    (hs : step s a = .ok s') : Settled s' := by
  cases a with
  | write p w => exact h.call hb rfl hs
  | read p r => exact h.call hb rfl hs
  | close p writable => exact h.call hb rfl hs
  | act p => exact h.act hb hok hs
  | kill p =>
    rw [Pipes.step] at hs
    split at hs <;> cases hs
    exact ⟨h.counts, h.bytes⟩

end Settled

/-- **No byte is lost** in a run in which `piperead` can deliver every byte it takes.  Whenever
`pi->lock` is free, the bytes delivered by the calls that have returned, in the order of their
removal, are the bytes taken from the pipe. -/
theorem no_byte_lost (hs : Reach step Delivers (start N data) s) (hfree : s.lock = none) :
    s.delivered = s.taken := by
  have hinv : Base s ∧ Settled s := by
    refine hs.invariant (I := fun s => Base s ∧ Settled s) ⟨.start data, fun _ => trivial, rfl⟩
      fun _ _ _ h hok hstep => ?_
    exact ⟨h.1.step hstep, h.2.step h.1 hok hstep⟩
  have hbytes := hinv.2.bytes
  rw [hfree] at hbytes
  rw [hbytes]
  exact (List.append_nil _).symm

instance (s : State N) : DecidablePred (Delivers s)
  | .act p => by
    unfold Delivers
    dsimp only
    split <;> infer_instance
  | .write _ _ | .read _ _ | .close _ _ | .kill _ => inferInstanceAs (Decidable True)

theorem no_byte_lost_short : ∃ s, run step (start 2 fun _ => 0) shortRun = .ok s ∧
    s.lock = none ∧ s.taken = [7] ∧ s.delivered = s.taken := by
  have hrun : (run step (start 2 fun _ => 0) shortRun).check
      (fun s => s.lock = none ∧ s.taken = [7]) = true := by decide +kernel
  obtain ⟨s, hs, htest⟩ := Outcome.exists_of_check hrun
  obtain ⟨hfree, htaken⟩ := of_decide_eq_true htest
  exact ⟨s, hs, hfree, htaken, no_byte_lost (reach_of_run .refl (by decide +kernel) hs) hfree⟩

/-- A process writes a byte, and another reads it to an address that is not mapped. -/
def lossyRun : List (Event 2) :=
  [.write 0 ⟨1, fun _ => some 7⟩] ++ List.replicate 6 (.act 0) ++
    [.read 1 ⟨1, fun _ => false⟩] ++ List.replicate 6 (.act 1)

/-- **A byte is lost** if `copyout` fails: the call returns 0, and the pipe is empty. -/
theorem byte_lost : ∃ s, run step (start 2 fun _ => 0) lossyRun = .ok s ∧ s.lock = none ∧
    s.taken = [7] ∧ s.delivered = [] := by
  have hrun : (run step (start 2 fun _ => 0) lossyRun).check
      (fun s => s.lock = none ∧ s.taken = [7] ∧ s.delivered = []) = true := by decide +kernel
  obtain ⟨s, hs, htest⟩ := Outcome.exists_of_check hrun
  exact ⟨s, hs, of_decide_eq_true htest⟩

end Xv6.Pipes
