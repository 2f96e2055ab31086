import Xv6.Pipes.Model

/-!
# The locks of a pipe

Where a process is in the code tells which locks it holds.  A process is asleep only in `sleep`,
on the channel it was called with.

## Main definitions

* `Pc.holds`, `Pc.locks` — the process holds `pi->lock`, and its own lock is held.
* `Base` — locks and states of processes agree with the code.

## Main results

* `Base.step` — every step keeps that so.
-/

namespace Xv6.Pipes

open Function

variable {N : ℕ}

/-- The process holds `pi->lock`. -/
def Pc.holds : Pc → Bool
  | .held _ | .sleep _ .acquire _ | .sleep _ .release _ => true
  | _ => false

/-- The lock of the process itself is held. -/
def Pc.locks : Pc → Bool
  | .sleep _ .release _ | .sleep _ .set _ | .sleep _ .sched _ | .sleep _ .tidy _ => true
  | _ => false

/-- The process is in `sleep(chan, &pi->lock)`, and has switched to the scheduler. -/
def Pc.Off (chan : Chan) (pc : Pc) : Prop :=
  ∃ k, pc = .sleep chan .sched k ∨ pc = .sleep chan .asleep k

/-- Locks and states of processes agree with the code. -/
structure Base (s : State N) : Prop where
  holder : ∀ p, s.lock = some p ↔ (s.pc p).holds = true
  locks : ∀ p, (s.proc p).locked = (s.pc p).locks
  asleep : ∀ p, (s.proc p).state = .sleeping →
    ∃ chan, (s.proc p).chan = some chan ∧ (s.pc p).Off chan

section Base

variable {s s' : State N} {p : Fin N}

theorem Base.start (data : Fin pipesize → UInt8) : Base (start N data) :=
  ⟨fun _ => iff_of_false (fun h => (nomatch h)) (fun h => (nomatch h)), fun _ => rfl,
    fun _ h => (nomatch h)⟩

theorem Base.update (h : Base s) (p : Fin N) (hpc : ∀ q, q ≠ p → s'.pc q = s.pc q)
    (hproc : ∀ q, q ≠ p → s'.proc q = s.proc q)
    (hlock : ∀ q, q ≠ p → (s'.lock = some q ↔ s.lock = some q))
    (hholder : s'.lock = some p ↔ (s'.pc p).holds = true)
    (hlocks : (s'.proc p).locked = (s'.pc p).locks)
    (hasleep : (s'.proc p).state = .sleeping →
      ∃ chan, (s'.proc p).chan = some chan ∧ (s'.pc p).Off chan) : Base s' := by
  refine ⟨fun q => ?_, fun q => ?_, fun q hq => ?_⟩
  · by_cases hqp : q = p
    · rw [hqp, hholder]
    · rw [hlock q hqp, hpc q hqp, h.holder]
  · by_cases hqp : q = p
    · rw [hqp, hlocks]
    · rw [hproc q hqp, hpc q hqp, h.locks]
  · by_cases hqp : q = p
    · subst hqp
      exact hasleep hq
    · rw [hproc q hqp] at hq ⊢
      rw [hpc q hqp]
      exact h.asleep q hq

theorem Base.setProc (h : Base s) {f : Proc → Proc} (hlocked : (f (s.proc p)).locked
      = (s.proc p).locked) (hchan : (f (s.proc p)).chan = (s.proc p).chan)
    (hstate : (f (s.proc p)).state = .sleeping → (s.proc p).state = .sleeping) :
    Base (s.setProc p f) := by
  refine h.update p (fun _ _ => rfl) (fun q hq => update_of_ne hq ..) (fun _ _ => Iff.rfl)
    (h.holder p) ?_ fun hs => ?_
  · rw [State.setProc_proc, update_self, hlocked]
    exact h.locks p
  · rw [State.setProc_proc, update_self] at hs ⊢
    rw [hchan]
    exact h.asleep p (hstate hs)

theorem Base.lock_eq (h : Base s) (hp : (s.pc p).holds = true) : s.lock = some p :=
  (h.holder p).mpr hp

theorem Base.awake (h : Base s) (hp : ∀ chan, ¬ (s.pc p).Off chan) :
    (s.proc p).state ≠ .sleeping := by
  intro hs
  obtain ⟨chan, -, hoff⟩ := h.asleep p hs
  exact hp chan hoff

theorem not_off_held (k : Held) (chan : Chan) : ¬ (Pc.held k).Off chan := by
  rintro ⟨k', h | h⟩ <;> cases h

theorem not_off_of_ne {chan c : Chan} {x : SleepPc} {k : Held} (h₁ : x ≠ .sched)
    (h₂ : x ≠ .asleep) :
    ¬ (Pc.sleep c x k).Off chan := by
  rintro ⟨k', h | h⟩ <;> cases h <;> contradiction

theorem Base.goto (h : Base s) {pc : Pc} (hawake : (s.proc p).state ≠ .sleeping)
    (hholds : pc.holds = (s.pc p).holds) (hlocks : pc.locks = (s.pc p).locks) :
    Base (s.goto p pc) := by
  refine h.update p (fun q hq => update_of_ne hq ..) (fun _ _ => rfl) (fun _ _ => Iff.rfl)
    ?_ ?_ fun hs => absurd hs hawake
  · rw [State.goto_pc, update_self, hholds]
    exact h.holder p
  · rw [State.goto_pc, update_self, hlocks]
    exact h.locks p

theorem Base.unlock (h : Base s) {pc : Pc} (hawake : (s.proc p).state ≠ .sleeping)
    (hp : (s.pc p).holds = true) (hholds : pc.holds = false) (hlocks : pc.locks = (s.pc p).locks) :
    Base ((s.setLock none).goto p pc) := by
  have hlock := h.lock_eq hp
  refine h.update p (fun q hq => update_of_ne hq ..) (fun _ _ => rfl) (fun q hq => ?_)
    ?_ ?_ fun hs => absurd hs hawake
  · rw [hlock]
    exact iff_of_false (fun hc => (nomatch hc)) fun hc => hq (Option.some.inj hc).symm
  · rw [State.goto_pc, update_self, hholds]
    exact iff_of_false (fun hc => (nomatch hc)) Bool.false_ne_true
  · rw [State.goto_pc, update_self, hlocks]
    exact h.locks p

theorem Base.ret (h : Base s) (hawake : (s.proc p).state ≠ .sleeping)
    (hp : (s.pc p).holds = true) (hlocks : (s.pc p).locks = false) : Base (s.ret p) :=
  h.unlock hawake hp rfl hlocks.symm

theorem Base.congr (h : Base s) (hpc : s'.pc = s.pc) (hproc : s'.proc = s.proc)
    (hlock : s'.lock = s.lock) : Base s' := by
  refine ⟨?_, ?_, ?_⟩
  · rw [hpc, hlock]
    exact h.holder
  · rw [hpc, hproc]
    exact h.locks
  · rw [hpc, hproc]
    exact h.asleep

end Base

section Step

variable {s s' : State N} {p : Fin N}

theorem Base.wakeupIter (h : Base s) {chan : Chan} {q : ℕ} {k : After}
    (hp : s.pc p = .held (.wakeup chan q k)) (hs : wakeupIter s p chan q k = .ok s') : Base s' := by
  have hawake : (s.proc p).state ≠ .sleeping := h.awake (by rw [hp]; exact not_off_held _)
  have hholds : (s.pc p).holds = true := by rw [hp]; rfl
  have hlocks : (s.pc p).locks = false := by rw [hp]; rfl
  rw [Pipes.wakeupIter] at hs
  split at hs
  · next hq =>
    split at hs
    · cases hs
      exact h.goto hawake (by rw [hp]; rfl) (by rw [hp]; rfl)
    rename_i hne
    split at hs
    · cases hs
    cases hs
    have hone : (wakeupOne chan (s.proc ⟨q, hq⟩)).locked = (s.proc ⟨q, hq⟩).locked ∧
        (wakeupOne chan (s.proc ⟨q, hq⟩)).chan = (s.proc ⟨q, hq⟩).chan ∧
        ((wakeupOne chan (s.proc ⟨q, hq⟩)).state = .sleeping →
          (s.proc ⟨q, hq⟩).state = .sleeping) := by
      unfold wakeupOne
      split
      · exact ⟨rfl, rfl, fun hc => (nomatch hc)⟩
      · exact ⟨rfl, rfl, fun hc => hc⟩
    have hself : (Function.update s.proc ⟨q, hq⟩ (wakeupOne chan (s.proc ⟨q, hq⟩))) p
        = s.proc p := update_of_ne (fun hc => hne hc.symm) ..
    refine (h.setProc hone.1 hone.2.1 hone.2.2).goto ?_ ?_ ?_
    · rw [State.setProc_proc, hself]
      exact hawake
    · rw [State.setProc_pc, hp]
      rfl
    · rw [State.setProc_pc, hp]
      rfl
  · cases hs
    cases k with
    | sleep w i => exact h.goto hawake (by rw [hp]; rfl) (by rw [hp]; rfl)
    | ret => exact h.ret hawake hholds hlocks
    | retRead i out =>
      have hbase : Base { s with delivered := s.delivered ++ out.take i } := h.congr rfl rfl rfl
      exact hbase.ret hawake hholds hlocks

/-- A step of the process itself, with its lock held before, after or both. -/
theorem Base.setProc_goto (h : Base s) {f : Proc → Proc} {pc : Pc}
    (hholds : pc.holds = (s.pc p).holds) (hlocks : (f (s.proc p)).locked = pc.locks)
    (hasleep : (f (s.proc p)).state = .sleeping →
      ∃ chan, (f (s.proc p)).chan = some chan ∧ pc.Off chan) :
    Base ((s.setProc p f).goto p pc) := by
  refine h.update p (fun q hq => update_of_ne hq ..)
    (fun q hq => update_of_ne hq ..) (fun _ _ => Iff.rfl) ?_ ?_ fun hs => ?_
  · rw [State.goto_pc, update_self, hholds]
    exact h.holder p
  · rw [State.goto_pc, update_self, State.goto_proc, State.setProc_proc,
      update_self, hlocks]
  · rw [State.goto_proc, State.setProc_proc, update_self] at hs ⊢
    rw [State.goto_pc, update_self]
    exact hasleep hs

theorem Base.sleepStep (h : Base s) {chan : Chan} {x : SleepPc} {k : Held}
    (hp : s.pc p = .sleep chan x k) (hs : sleepStep s p chan k x = .ok s') : Base s' := by
  have hawake : x ≠ .sched → x ≠ .asleep → (s.proc p).state ≠ .sleeping := fun h₁ h₂ =>
    h.awake (by rw [hp]; exact fun _ => not_off_of_ne h₁ h₂)
  cases x with
  | acquire =>
    rw [Pipes.sleepStep] at hs
    split at hs
    · cases hs
    · cases hs
      exact h.setProc_goto (by rw [hp]; rfl) rfl fun hc => absurd hc (hawake nofun nofun)
  | release =>
    cases hs
    exact h.unlock (hawake nofun nofun) (by rw [hp]; rfl) rfl (by rw [hp]; rfl)
  | set =>
    cases hs
    refine h.setProc_goto (by rw [hp]; rfl) ?_ fun _ => ⟨chan, rfl, k, .inl rfl⟩
    exact (h.locks p).trans (by rw [hp]; rfl)
  | sched =>
    cases hs
    refine h.setProc_goto (by rw [hp]; rfl) rfl fun hc => ?_
    obtain ⟨c, hc, k', hk' | hk'⟩ := h.asleep p hc
    · rw [hp] at hk'
      cases hk'
      exact ⟨chan, hc, k, .inr rfl⟩
    · rw [hp] at hk'
      cases hk'
  | asleep =>
    rw [Pipes.sleepStep] at hs
    split at hs
    · cases hs
      exact h.setProc_goto (by rw [hp]; rfl) rfl fun hc => (nomatch hc)
    · cases hs
  | tidy =>
    cases hs
    exact h.setProc_goto (by rw [hp]; rfl) rfl fun hc => absurd hc (hawake nofun nofun)

theorem Base.act (h : Base s) (hs : act s p = .ok s') : Base s' := by
  unfold Pipes.act at hs
  have hheld : ∀ k, s.pc p = .held k → (s.proc p).state ≠ .sleeping ∧ (s.pc p).holds = true ∧
      (s.pc p).locks = false := fun k hk =>
    ⟨h.awake (by rw [hk]; exact not_off_held _), by rw [hk]; rfl, by rw [hk]; rfl⟩
  -- under `pi->lock`, the process goes on or returns
  have hgo : ∀ k k', s.pc p = .held k → ∀ t : State N, t.pc = s.pc → t.proc = s.proc →
      t.lock = s.lock → Base (t.goto p (.held k')) := fun k k' hk t h₁ h₂ h₃ => by
    obtain ⟨hawake, -, -⟩ := hheld k hk
    exact (h.congr h₁ h₂ h₃).goto (by rwa [h₂]) (by rw [h₁, hk]; rfl) (by rw [h₁, hk]; rfl)
  split at hs
  · cases hs
  · next k hk =>
    split at hs
    · next hfree =>
      cases hs
      have hawake : (s.proc p).state ≠ .sleeping := h.awake (by
        rintro chan ⟨k', hc | hc⟩ <;> rw [hk] at hc <;> cases hc)
      refine h.update p (fun q hq => update_of_ne hq ..) (fun _ _ => rfl) (fun q hq => ?_)
        ?_ ?_ fun hc => absurd hc hawake
      · rw [hfree.1]
        exact iff_of_false (fun hc => hq (Option.some.inj hc).symm) (fun hc => (nomatch hc))
      · rw [State.goto_pc, update_self]
        exact iff_of_true rfl rfl
      · rw [State.goto_pc, update_self]
        exact (h.locks p).trans (by rw [hk]; rfl)
    · cases hs
  · next w i last hk =>
    obtain ⟨hawake, hholds, hlocks⟩ := hheld _ hk
    cases hs
    unfold writeIter
    split
    · split
      · exact h.ret hawake hholds hlocks
      · split
        · exact hgo _ _ hk s rfl rfl rfl
        · split
          · exact hgo _ _ hk s rfl rfl rfl
          · exact hgo _ _ hk _ rfl rfl rfl
    · exact hgo _ _ hk s rfl rfl rfl
  · next r hk =>
    obtain ⟨hawake, hholds, hlocks⟩ := hheld _ hk
    cases hs
    unfold readIter
    split
    · split
      · exact h.ret hawake hholds hlocks
      · exact h.goto hawake (by rw [hk]; rfl) (by rw [hk]; rfl)
    · exact hgo _ _ hk s rfl rfl rfl
  · next r i out hk =>
    cases hs
    unfold copyIter
    split
    · dsimp only
      split
      · exact hgo _ _ hk _ rfl rfl rfl
      · exact hgo _ _ hk _ rfl rfl rfl
    · exact hgo _ _ hk s rfl rfl rfl
  · next writable hk =>
    cases hs
    unfold closeEnd
    split
    · exact hgo _ _ hk _ rfl rfl rfl
    · exact hgo _ _ hk _ rfl rfl rfl
  · next chan q k hk => exact h.wakeupIter hk hs
  · next chan x k hk => exact h.sleepStep hk hs

theorem Base.call (h : Base s) {k : Held} (hs : call s p k = .ok s') : Base s' := by
  unfold Pipes.call at hs
  split at hs
  · next hk =>
    cases hs
    refine h.goto (h.awake ?_) (by rw [hk]; rfl) (by rw [hk]; rfl)
    rintro chan ⟨k', hc | hc⟩ <;> rw [hk] at hc <;> cases hc
  · cases hs

/-- **Every step keeps locks and states in agreement with the code.** -/
theorem Base.step (h : Base s) {a : Event N} (hs : step s a = .ok s') : Base s' := by
  cases a with
  | write p w => exact h.call hs
  | read p r => exact h.call hs
  | close p writable => exact h.call hs
  | act p => exact h.act hs
  | kill p =>
    rw [Pipes.step] at hs
    split at hs
    · cases hs
    cases hs
    refine h.setProc rfl rfl fun hc => ?_
    by_contra hne
    rw [kill] at hc
    dsimp only at hc
    rw [if_neg hne] at hc
    exact hne hc

end Step

end Xv6.Pipes
