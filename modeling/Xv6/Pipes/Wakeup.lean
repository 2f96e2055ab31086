import Xv6.Pipes.Invariant

/-!
# Nobody sleeps on a ready pipe

A process that sleeps on a pipe has found it empty or full while it held `pi->lock`.  Whoever
changes that wakes it up before they release the lock: until then they *owe* it a `wakeup`.
There is one exception.  A `pipewrite` that finds its process killed returns at once, also when
it has stored bytes since it last called `wakeup`.

## Main definitions

* `Unready` — the pipe is not ready for those who sleep on a channel.
* `Waits` — a process sleeps on a channel, or is about to.
* `Held.Owes` — the code calls `wakeup` before it releases `pi->lock`.
* `Signals` — the step is not that exception, with somebody to wake up.

## Main results

* `no_sleep_on_ready` — no process sleeps on a ready pipe in a run without the exception.
* `sleep_on_ready` — a run with it.
-/

namespace Xv6.Pipes

open Function

variable {N : ℕ}

/-- The pipe is not ready for those who sleep on the channel: it is empty and its write end is
open, or it is full and its read end is open. -/
def Unready (x : Pipe) : Chan → Prop
  | .nread => x.ring.Empty ∧ x.writeopen = true
  | .nwrite => x.ring.Full ∧ x.readopen = true

/-- The process sleeps on the channel, or is about to and has released `pi->lock`. -/
def Waits (s : State N) (q : Fin N) (chan : Chan) : Prop :=
  (∃ k, s.pc q = .sleep chan .set k) ∨ (s.pc q).Off chan ∧ (s.proc q).state = .sleeping

/-- The code wakes process `q` up, if it sleeps on the channel, before it releases `pi->lock`. -/
def Held.Owes (chan : Chan) (q : ℕ) : Held → Prop
  | .writeLoop _ i last => chan = .nread ∧ last < i
  | .readCopy .. => chan = .nwrite
  | .wakeup c m _ => c = chan ∧ m ≤ q
  | _ => False

/-- The process is about to wake process `q` up. -/
def Pc.Owes (chan : Chan) (q : ℕ) : Pc → Prop
  | .held k => k.Owes chan q
  | _ => False

/-- The process holds `pi->lock`, and is going to sleep on the channel. -/
def Pc.Plans (chan : Chan) : Pc → Prop
  | .sleep c .acquire _ | .sleep c .release _ => c = chan
  | .held (.wakeup _ _ (.sleep _ _)) => chan = .nwrite
  | _ => False

/-- Bytes `pipewrite` has not signalled yet were stored while the read end was open. -/
def Pc.Stores (x : Pipe) : Pc → Prop
  | .held (.writeLoop _ i last) => last ≤ i ∧ (last < i → x.readopen = true)
  | .acquire (.writeLoop _ i last) | .sleep _ _ (.writeLoop _ i last) => last = i
  | .acquire (.wakeup ..) | .sleep _ _ (.wakeup ..) => False
  | _ => True

/-- Everybody who waits has reason to, or will be woken up. -/
structure Awake (s : State N) : Prop where
  plans : ∀ p chan, (s.pc p).Plans chan → Unready s.pipe chan
  stores : ∀ p, (s.pc p).Stores s.pipe
  waits : ∀ q chan, Waits s q chan →
    Unready s.pipe chan ∨ ∃ p, s.lock = some p ∧ (s.pc p).Owes chan q

/-- The step is not that of a `pipewrite` that returns because its process was killed, has
stored bytes since it last called `wakeup(&pi->nread)`, and leaves a process waiting for them. -/
def Signals (s : State N) : Event N → Prop
  | .act p => match s.pc p with
    | .held (.writeLoop w i last) => (i : ℤ) < w.n → last < i → (s.proc p).killed = true →
        ∀ q, ¬ Waits s q .nread
    | _ => True
  | _ => True

section Awake

variable {s s' : State N} {p : Fin N} {chan : Chan} {k : Held} {q : Fin N}

theorem Pc.Plans.holds {pc : Pc} (h : pc.Plans chan) : pc.holds = true := by
  cases pc with
  | out => exact h.elim
  | acquire k => exact h.elim
  | held k => rfl
  | sleep c x k => cases x <;> first | rfl | exact h.elim

/-- What a process that does not hold `pi->lock` will do does not depend on the pipe. -/
theorem Pc.Stores.other {pc : Pc} {x y : Pipe} (h : pc.Stores x) (hpc : pc.holds = false) :
    pc.Stores y := by
  cases pc with
  | held k => cases hpc
  | out => exact h
  | acquire k => cases k <;> exact h
  | sleep c z k => cases k <;> exact h

theorem Waits.exists_sleep (h : Waits s q chan) : ∃ x k, s.pc q = .sleep chan x k := by
  obtain ⟨k, hk⟩ | ⟨⟨k, hk | hk⟩, -⟩ := h <;> exact ⟨_, k, hk⟩

theorem not_waits_held (h : s.pc p = .held k) : ¬ Waits s p chan := by
  intro hw
  obtain ⟨x, k', hk⟩ := hw.exists_sleep
  rw [h] at hk
  cases hk

theorem Waits.congr (h : Waits s' q chan) (hpc : s'.pc q = s.pc q) (hproc : s'.proc q = s.proc q) :
    Waits s q chan := by
  unfold Waits at h ⊢
  rwa [hpc, hproc] at h

/-- A step of a process that does not hold `pi->lock`, or acquires it. -/
theorem Awake.other (h : Awake s) (hpipe : s'.pipe = s.pipe)
    (hpc : ∀ q, q ≠ p → s'.pc q = s.pc q) (hlock : ∀ q, s.lock = some q → q ≠ p ∧ s'.lock = some q)
    (hplans : ∀ chan, ¬ (s'.pc p).Plans chan) (hstores : (s'.pc p).Stores s.pipe)
    (hwaits : ∀ q chan, Waits s' q chan → Waits s q chan) : Awake s' := by
  refine ⟨fun q chan hq => ?_, fun q => ?_, fun q chan hq => ?_⟩
  · rw [hpipe]
    by_cases hqp : q = p
    · subst hqp
      exact absurd hq (hplans chan)
    · rw [hpc q hqp] at hq
      exact h.plans q chan hq
  · rw [hpipe]
    by_cases hqp : q = p
    · subst hqp
      exact hstores
    · rw [hpc q hqp]
      exact h.stores q
  · rw [hpipe]
    obtain hun | ⟨r, hr, ho⟩ := h.waits q chan (hwaits q chan hq)
    · exact .inl hun
    · obtain ⟨hne, hr'⟩ := hlock r hr
      exact .inr ⟨r, hr', by rwa [hpc r hne]⟩

/-- A step of the holder of `pi->lock`. -/
theorem Awake.holder (h : Awake s) (hb : Base s) (hp : (s.pc p).holds = true)
    (hpc : ∀ q, q ≠ p → s'.pc q = s.pc q)
    (hplans : ∀ chan, (s'.pc p).Plans chan → Unready s'.pipe chan)
    (hstores : (s'.pc p).Stores s'.pipe)
    (hwaits : ∀ q chan, Waits s' q chan → Waits s q chan ∨ Unready s'.pipe chan)
    (howes : ∀ q chan, Waits s q chan → Waits s' q chan →
      Unready s.pipe chan ∨ (s.pc p).Owes chan q →
      Unready s'.pipe chan ∨ s'.lock = some p ∧ (s'.pc p).Owes chan q) :
    Awake s' := by
  have hlock : s.lock = some p := hb.lock_eq hp
  -- only `p` is inside
  have hother : ∀ q, q ≠ p → (s.pc q).holds = false := fun q hq => by
    by_contra hc
    have := hb.lock_eq (Bool.of_not_eq_false hc)
    rw [hlock] at this
    exact hq (Option.some.inj this).symm
  refine ⟨fun q chan hq => ?_, fun q => ?_, fun q chan hq => ?_⟩
  · by_cases hqp : q = p
    · subst hqp
      exact hplans chan hq
    · rw [hpc q hqp] at hq
      have hno := hother q hqp
      rw [hq.holds] at hno
      cases hno
  · by_cases hqp : q = p
    · subst hqp
      exact hstores
    · rw [hpc q hqp]
      exact (h.stores q).other (hother q hqp)
  · obtain hw | hun := hwaits q chan hq
    · have hbefore : Unready s.pipe chan ∨ (s.pc p).Owes chan q := by
        obtain hun | ⟨r, hr, ho⟩ := h.waits q chan hw
        · exact .inl hun
        · rw [hlock] at hr
          cases hr
          exact .inr ho
      obtain hun | ⟨hl, ho⟩ := howes q chan hw hq hbefore
      · exact .inl hun
      · exact .inr ⟨p, hl, ho⟩
    · exact .inl hun

theorem Awake.goto (h : Awake s) (hb : Base s) {k' : Held} (hp : s.pc p = .held k) {t : State N}
    (hpc : t.pc = s.pc) (hproc : t.proc = s.proc) (hlock : t.lock = s.lock)
    (hplans : ∀ chan, (Pc.held k').Plans chan → Unready t.pipe chan)
    (hstores : (Pc.held k').Stores t.pipe)
    (howes : ∀ q chan, Waits s q chan → Unready s.pipe chan ∨ k.Owes chan q →
      Unready t.pipe chan ∨ k'.Owes chan q) : Awake (t.goto p (.held k')) := by
  have hself : (t.goto p (.held k')).pc p = .held k' := update_self ..
  have hother : ∀ q, q ≠ p → (t.goto p (.held k')).pc q = s.pc q := fun q hq => by
    rw [State.goto_pc, update_of_ne hq, hpc]
  have hwaits : ∀ q chan, Waits (t.goto p (.held k')) q chan → Waits s q chan := by
    intro q chan hq
    by_cases hqp : q = p
    · subst hqp
      exact absurd hq (not_waits_held hself)
    · exact hq.congr (hother q hqp) (by rw [State.goto_proc, hproc])
  refine h.holder hb (by rw [hp]; rfl) hother ?_ ?_ (fun q chan hq => .inl (hwaits q chan hq))
    fun q chan hw _ hbefore => ?_
  · rw [hself]
    exact hplans
  · rw [hself]
    exact hstores
  · rw [hp] at hbefore
    rw [hself]
    refine (howes q chan hw hbefore).imp_right fun ho => ⟨?_, ho⟩
    rw [State.goto_lock, hlock]
    exact hb.lock_eq (by rw [hp]; rfl)

theorem Awake.ret (h : Awake s) (hb : Base s) (hp : s.pc p = .held k) {t : State N}
    (hpc : t.pc = s.pc) (hproc : t.proc = s.proc) (hpipe : t.pipe = s.pipe)
    (howes : ∀ q chan, Waits s q chan → k.Owes chan q → Unready s.pipe chan) : Awake (t.ret p) := by
  have hself : (t.ret p).pc p = .out := update_self ..
  have hother : ∀ q, q ≠ p → (t.ret p).pc q = s.pc q := fun q hq => by
    rw [State.ret, State.goto_pc, update_of_ne hq, State.setLock_pc, hpc]
  have hwaits : ∀ q chan, Waits (t.ret p) q chan → Waits s q chan := by
    intro q chan hq
    by_cases hqp : q = p
    · subst hqp
      obtain ⟨x, k', hk⟩ := hq.exists_sleep
      rw [hself] at hk
      cases hk
    · exact hq.congr (hother q hqp) (congrFun hproc q)
  have hpipe' : (t.ret p).pipe = s.pipe := hpipe
  refine h.holder hb (by rw [hp]; rfl) hother ?_ ?_ (fun q chan hq => .inl (hwaits q chan hq))
    fun q chan hw _ hbefore => ?_
  · rw [hself]
    exact fun _ hc => hc.elim
  · rw [hself]
    trivial
  · rw [hp] at hbefore
    rw [hpipe']
    exact .inl (hbefore.elim id (howes q chan hw))

theorem Awake.sleep (h : Awake s) (hb : Base s) (hp : (s.pc p).holds = true)
    (howes : ∀ (q : Fin N) c, ¬ (s.pc p).Owes c q) {t : State N} (hpc : t.pc = s.pc)
    (hproc : ∀ q, q ≠ p → t.proc q = s.proc q) (hpipe : t.pipe = s.pipe) {x : SleepPc}
    (hun : Unready s.pipe chan) (hstores : (Pc.sleep chan x k).Stores s.pipe) :
    Awake (t.goto p (.sleep chan x k)) := by
  have hself : (t.goto p (.sleep chan x k)).pc p = .sleep chan x k := update_self ..
  have hother : ∀ q, q ≠ p → (t.goto p (.sleep chan x k)).pc q = s.pc q := fun q hq => by
    rw [State.goto_pc, update_of_ne hq, hpc]
  have hpipe' : (t.goto p (.sleep chan x k)).pipe = s.pipe := hpipe
  refine h.holder hb hp hother ?_ ?_ (fun q c hq => ?_) fun q c _ _ hbefore => ?_
  · rw [hself, hpipe']
    intro c hc
    have hcc : chan = c := by cases x <;> first | exact hc | exact hc.elim
    rwa [← hcc]
  · rw [hself, hpipe']
    exact hstores
  · by_cases hqp : q = p
    · subst hqp
      obtain ⟨x', k', hk⟩ := hq.exists_sleep
      rw [hself] at hk
      cases hk
      right
      rwa [hpipe']
    · exact .inl (hq.congr (hother q hqp) (hproc q hqp))
  · rw [hpipe']
    exact .inl (hbefore.resolve_right (howes q c))

end Awake

section Step

variable {s s' : State N} {p : Fin N} {chan : Chan} {k : Held} {q : Fin N}

theorem Awake.writeIter (h : Awake s) (hb : Base s) {w : Write} {i last : ℕ}
    (hp : s.pc p = .held (.writeLoop w i last)) (hok : Signals s (.act p)) :
    Awake (writeIter s p w i last) := by
  obtain ⟨hle, hopen⟩ : last ≤ i ∧ (last < i → s.pipe.readopen = true) := by
    have := h.stores p
    rwa [hp] at this
  have hsig : (i : ℤ) < w.n → last < i → (s.proc p).killed = true → ∀ q, ¬ Waits s q .nread := by
    simpa only [Signals, hp] using hok
  -- a `wakeup(&pi->nread)` pays what is owed
  have hpay : ∀ k : After, ∀ q : Fin N, ∀ chan, Waits s q chan →
      Unready s.pipe chan ∨ (Held.writeLoop w i last).Owes chan q →
      Unready s.pipe chan ∨ (Held.wakeup .nread 0 k).Owes chan q :=
    fun k q chan _ hbefore => hbefore.imp_right fun ho => ⟨ho.1.symm, Nat.zero_le _⟩
  unfold Pipes.writeIter
  split
  · next hlt =>
    split
    · next hexit =>
      refine h.ret hb hp rfl rfl rfl fun q chan hw ho => ?_
      obtain ⟨rfl, hlast⟩ := ho
      refine absurd hw (hsig hlt hlast ?_ q)
      exact hexit.resolve_left (by simp [hopen hlast])
    rename_i hgo
    rw [not_or, Bool.not_eq_false] at hgo
    split
    · next hfull =>
      refine h.goto hb hp rfl rfl rfl (fun chan hc => ?_) trivial (hpay _)
      obtain rfl : chan = .nwrite := hc
      exact ⟨hfull, hgo.1⟩
    rename_i hfull
    split
    · exact h.goto hb hp rfl rfl rfl (fun chan hc => hc.elim) trivial (hpay _)
    refine h.goto hb hp rfl rfl rfl (fun chan hc => hc.elim) ⟨Nat.le_succ_of_le hle, fun _ => hgo.1⟩
      fun q chan _ hbefore => ?_
    cases chan with
    | nread => exact .inr ⟨rfl, Nat.lt_succ_of_le hle⟩
    | nwrite =>
      obtain hun | ho := hbefore
      · exact absurd hun.1 hfull
      · exact absurd ho.1 (by decide)
  · exact h.goto hb hp rfl rfl rfl (fun chan hc => hc.elim) trivial (hpay _)

theorem Awake.readIter (h : Awake s) (hb : Base s) {r : Read}
    (hp : s.pc p = .held (.readLoop r)) : Awake (readIter s p r) := by
  unfold Pipes.readIter
  split
  · next hun =>
    split
    · exact h.ret hb hp rfl rfl rfl fun q chan _ ho => ho.elim
    · exact h.sleep hb (by rw [hp]; rfl) (by rw [hp]; exact fun _ _ ho => ho) rfl
        (fun _ _ => rfl) rfl
        hun trivial
  · exact h.goto hb hp rfl rfl rfl (fun chan hc => hc.elim) trivial fun q chan _ hbefore =>
      .inl (hbefore.elim id fun ho => ho.elim)

theorem Awake.copyIter (h : Awake s) (hb : Base s) {r : Read} {i : ℕ} {out : List UInt8}
    (hp : s.pc p = .held (.readCopy r i out)) : Awake (copyIter s p r i out) := by
  unfold Pipes.copyIter
  split
  · next hc =>
    -- nobody waits for bytes while there are some
    have hpop : ∀ k' : Held, (∀ q : Fin N, k'.Owes .nwrite q) →
        ∀ q : Fin N, ∀ chan, Waits s q chan →
        Unready s.pipe chan ∨ (Held.readCopy r i out).Owes chan q →
        Unready { s.pipe with ring := s.pipe.ring.pop } chan ∨ k'.Owes chan q := by
      intro k' hk' q chan _ hbefore
      cases chan with
      | nread =>
        obtain hun | ho := hbefore
        · exact absurd hun.1 hc.2
        · cases ho
      | nwrite => exact .inr (hk' q)
    dsimp only
    split
    · exact h.goto hb hp rfl rfl rfl (fun chan hc => hc.elim) trivial (hpop _ fun _ => rfl)
    · exact h.goto hb hp rfl rfl rfl (fun chan hc => hc.elim) trivial
        (hpop _ fun _ => ⟨rfl, Nat.zero_le _⟩)
  · exact h.goto hb hp rfl rfl rfl (fun chan hc => hc.elim) trivial fun q chan _ hbefore =>
      hbefore.imp_right fun ho => ⟨ho.symm, Nat.zero_le _⟩

theorem Awake.closeEnd (h : Awake s) (hb : Base s) {writable : Bool}
    (hp : s.pc p = .held (.close writable)) : Awake (closeEnd s p writable) := by
  unfold Pipes.closeEnd
  split
  · refine h.goto hb hp rfl rfl rfl (fun chan hc => hc.elim) trivial fun q chan _ hbefore => ?_
    cases chan with
    | nread => exact .inr ⟨rfl, Nat.zero_le _⟩
    | nwrite => exact .inl (hbefore.elim id fun ho => ho.elim)
  · refine h.goto hb hp rfl rfl rfl (fun chan hc => hc.elim) trivial fun q chan _ hbefore => ?_
    cases chan with
    | nread => exact .inl (hbefore.elim id fun ho => ho.elim)
    | nwrite => exact .inr ⟨rfl, Nat.zero_le _⟩

/-- A process that has been looked at by `wakeup(chan)` does not wait on the channel. -/
theorem Base.not_waits_wakeupOne (hb : Base s) (hfree : (s.proc q).locked = false) :
    ¬ Waits (s.setProc q (wakeupOne chan)) q chan := by
  have hproc : (s.setProc q (wakeupOne chan)).proc q = wakeupOne chan (s.proc q) :=
    update_self ..
  rintro (⟨k, hk⟩ | ⟨hoff, hs⟩)
  · -- its lock is held until it is asleep
    have hlocks := hb.locks q
    rw [show s.pc q = .sleep chan .set k from hk, hfree] at hlocks
    cases hlocks
  rw [hproc, wakeupOne] at hs
  split at hs
  · cases hs
  rename_i hno
  obtain ⟨c, hc, k, hk⟩ := hb.asleep q hs
  obtain ⟨k', hk'⟩ := hoff
  rw [State.setProc_pc] at hk'
  have hcc : c = chan := by
    obtain hk | hk := hk <;> obtain hk' | hk' := hk' <;> rw [hk] at hk' <;> cases hk' <;> rfl
  exact hno ⟨hs, by rw [hc, hcc]⟩

theorem Waits.of_wakeupOne {r : Fin N} {c : Chan} (h : Waits (s.setProc q (wakeupOne chan)) r c) :
    Waits s r c := by
  by_cases hrq : r = q
  · subst hrq
    refine h.imp_right fun hw => ⟨hw.1, ?_⟩
    have hs := hw.2
    rw [State.setProc_proc, update_self, wakeupOne] at hs
    split at hs
    · cases hs
    · exact hs
  · exact h.congr rfl (update_of_ne hrq ..)

theorem Awake.wakeupIter (h : Awake s) (hb : Base s) {m : ℕ} {k : After}
    (hp : s.pc p = .held (.wakeup chan m k)) (hs : wakeupIter s p chan m k = .ok s') :
    Awake s' := by
  have hplans : ∀ c, (Pc.held (.wakeup chan (m + 1) k)).Plans c → Unready s.pipe c := by
    intro c hc
    refine h.plans p c ?_
    rw [hp]
    cases k <;> exact hc
  have hself : ∀ t : State N, (t.goto p (.held (.wakeup chan (m + 1) k))).pc p
      = .held (.wakeup chan (m + 1) k) := fun t => update_self ..
  unfold Pipes.wakeupIter at hs
  split at hs
  · next hm =>
    split at hs
    · next hmp =>
      cases hs
      refine h.goto hb hp rfl rfl rfl hplans trivial fun q c hw hbefore =>
        hbefore.imp_right fun ho => ⟨ho.1, ?_⟩
      have hne : m ≠ q.val := by
        intro heq
        have hqp : q = p := by rw [← hmp]; exact Fin.ext heq.symm
        subst hqp
        exact not_waits_held hp hw
      exact Nat.lt_of_le_of_ne ho.2 hne
    rename_i hmp
    split at hs
    · cases hs
    rename_i hfree
    cases hs
    rw [Bool.not_eq_true] at hfree
    have hwaits : ∀ q c, Waits ((s.setProc ⟨m, hm⟩ (wakeupOne chan)).goto p
        (.held (.wakeup chan (m + 1) k))) q c → Waits (s.setProc ⟨m, hm⟩ (wakeupOne chan)) q c := by
      intro q c hq
      by_cases hqp : q = p
      · subst hqp
        exact absurd hq (not_waits_held (hself _))
      · exact hq.congr (update_of_ne hqp ..) rfl
    refine h.holder hb (by rw [hp]; rfl) (fun q hq => update_of_ne hq ..) ?_ ?_
      (fun q c hq => .inl (hwaits q c hq).of_wakeupOne) fun q c _ hq hbefore => ?_
    · rw [hself]
      exact hplans
    · rw [hself]
      trivial
    rw [hp] at hbefore
    rw [hself]
    refine hbefore.imp_right fun ho => ⟨hb.lock_eq (by rw [hp]; rfl), ho.1, ?_⟩
    have hne : m ≠ q.val := by
      intro heq
      obtain rfl : (⟨m, hm⟩ : Fin N) = q := Fin.ext heq
      have hnot := hwaits _ c hq
      rw [← ho.1] at hnot
      exact hb.not_waits_wakeupOne hfree hnot
    exact Nat.lt_of_le_of_ne ho.2 hne
  · next hm =>
    cases hs
    -- all processes have been looked at
    have hpaid : ∀ q : Fin N, ∀ c, ¬ (Held.wakeup chan m k).Owes c q := fun q c ho =>
      hm (Nat.lt_of_le_of_lt ho.2 q.isLt)
    cases k with
    | ret => exact h.ret hb hp rfl rfl rfl fun q c _ ho => absurd ho (hpaid q c)
    | retRead i out =>
      exact h.ret (t := { s with delivered := s.delivered ++ out.take i }) hb hp rfl rfl rfl
        fun q c _ ho => absurd ho (hpaid q c)
    | sleep w i =>
      exact h.sleep hb (by rw [hp]; rfl) (by rw [hp]; exact hpaid) rfl (fun _ _ => rfl) rfl
        (h.plans p .nwrite (by rw [hp]; rfl)) (by rfl)

theorem Awake.off (h : Awake s) (hb : Base s) (hp : (s.pc p).holds = false) {f : Proc → Proc}
    {pc : Pc} (hholds : pc.holds = false) (hstores : pc.Stores s.pipe)
    (hwaits : ∀ c, Waits ((s.setProc p f).goto p pc) p c → Waits s p c) :
    Awake ((s.setProc p f).goto p pc) := by
  have hself : ((s.setProc p f).goto p pc).pc p = pc := update_self ..
  refine h.other rfl (fun q hq => update_of_ne hq ..) (fun q hq => ⟨?_, hq⟩) ?_ ?_
    fun q c hq => ?_
  · rintro rfl
    rw [(hb.holder q).mp hq] at hp
    cases hp
  · rw [hself]
    intro c hc
    rw [hc.holds] at hholds
    cases hholds
  · rw [hself]
    exact hstores
  · by_cases hqp : q = p
    · subst hqp
      exact hwaits c hq
    · exact hq.congr (update_of_ne hqp ..) (update_of_ne hqp ..)

theorem Awake.sleepStep (h : Awake s) (hb : Base s) {x : SleepPc} (hp : s.pc p = .sleep chan x k)
    (hs : sleepStep s p chan k x = .ok s') : Awake s' := by
  have hstores : ∀ x', (Pc.sleep chan x' k).Stores s.pipe := by
    have := h.stores p
    rw [hp] at this
    intro x'
    cases k <;> exact this
  cases x with
  | acquire =>
    rw [Pipes.sleepStep] at hs
    split at hs <;> cases hs
    exact h.sleep (t := s.setProc p _) hb (by rw [hp]; rfl) (by rw [hp]; exact fun _ _ ho => ho) rfl
      (fun q hq => update_of_ne hq ..) rfl (h.plans p chan (by rw [hp]; rfl)) (hstores _)
  | release =>
    cases hs
    exact h.sleep (t := s.setLock none) hb (by rw [hp]; rfl)
      (by rw [hp]; exact fun _ _ ho => ho) rfl
      (fun _ _ => rfl) rfl (h.plans p chan (by rw [hp]; rfl)) (hstores _)
  | set =>
    cases hs
    refine h.off hb (by rw [hp]; rfl) rfl (hstores _) fun c hc => ?_
    obtain ⟨x', k', hk⟩ := hc.exists_sleep
    rw [State.goto_pc, update_self] at hk
    cases hk
    exact .inl ⟨k, hp⟩
  | sched =>
    cases hs
    refine h.off hb (by rw [hp]; rfl) rfl (hstores _) fun c hc => ?_
    obtain ⟨x', k', hk⟩ := hc.exists_sleep
    rw [State.goto_pc, update_self] at hk
    cases hk
    obtain ⟨k', hk⟩ | ⟨-, hsleep⟩ := hc
    · rw [State.goto_pc, update_self] at hk
      cases hk
    · rw [State.goto_proc, State.setProc_proc, update_self] at hsleep
      exact .inr ⟨⟨k, .inl hp⟩, hsleep⟩
  | asleep =>
    rw [Pipes.sleepStep] at hs
    split at hs <;> cases hs
    refine h.off hb (by rw [hp]; rfl) rfl (hstores _) fun c hc => ?_
    obtain ⟨k', hk⟩ | ⟨⟨k', hk | hk⟩, -⟩ := hc <;> rw [State.goto_pc, update_self] at hk <;>
      cases hk
  | tidy =>
    cases hs
    -- back to the loop, whose head looks at the ring again
    have hacq : (Pc.acquire k).Stores s.pipe := by
      have := hstores .tidy
      cases k <;> exact this
    refine h.off hb (by rw [hp]; rfl) rfl hacq fun c hc => ?_
    obtain ⟨x', k', hk⟩ := hc.exists_sleep
    rw [State.goto_pc, update_self] at hk
    cases hk

theorem Awake.act (h : Awake s) (hb : Base s) (hok : Signals s (.act p))
    (hs : act s p = .ok s') : Awake s' := by
  unfold Pipes.act at hs
  split at hs
  · cases hs
  · next k hk =>
    split at hs
    · next hfree =>
      cases hs
      -- `acquire`: the lock was free, so nothing is owed by its holder
      have hself : ((s.setLock (some p)).goto p (.held k)).pc p = .held k := update_self ..
      have hstores := h.stores p
      rw [hk] at hstores
      refine h.other rfl (fun q hq => update_of_ne hq ..) (fun q hq => ?_) ?_ ?_
        fun q c hq => ?_
      · rw [hfree.1] at hq
        cases hq
      · rw [hself]
        intro c hc
        cases k with
        | wakeup c' m a => exact hstores
        | writeLoop | readLoop | readCopy | close => exact hc
      · rw [hself]
        cases k with
        | writeLoop w i last =>
          have hlast : last = i := hstores
          exact ⟨Nat.le_of_eq hlast, fun hlt => absurd hlt (by omega)⟩
        | readLoop | readCopy | close | wakeup => trivial
      · by_cases hqp : q = p
        · subst hqp
          exact absurd hq (not_waits_held hself)
        · exact hq.congr (update_of_ne hqp ..) rfl
    · cases hs
  · next hk =>
    cases hs
    exact h.writeIter hb hk hok
  · next hk =>
    cases hs
    exact h.readIter hb hk
  · next hk =>
    cases hs
    exact h.copyIter hb hk
  · next hk =>
    cases hs
    exact h.closeEnd hb hk
  · next hk => exact h.wakeupIter hb hk hs
  · next hk => exact h.sleepStep hb hk hs

theorem Awake.call (h : Awake s) (hb : Base s) (hk : (Pc.acquire k).Stores s.pipe)
    (hs : call s p k = .ok s') : Awake s' := by
  unfold Pipes.call at hs
  split at hs
  · next hp =>
    cases hs
    have hself : (s.goto p (.acquire k)).pc p = .acquire k := update_self ..
    refine h.other rfl (fun q hq => update_of_ne hq ..) (fun q hq => ⟨?_, hq⟩) ?_ ?_
      fun q c hq => ?_
    · rintro rfl
      have := (hb.holder q).mp hq
      rw [hp] at this
      cases this
    · rw [hself]
      exact fun _ hc => hc
    · rw [hself]
      exact hk
    · by_cases hqp : q = p
      · subst hqp
        obtain ⟨x, k', hk'⟩ := hq.exists_sleep
        rw [hself] at hk'
        cases hk'
      · exact hq.congr (update_of_ne hqp ..) rfl
  · cases hs

/-- **Every step keeps its promise**, except for the one exception. -/
theorem Awake.step (h : Awake s) (hb : Base s) {a : Event N} (hok : Signals s a)
    (hs : step s a = .ok s') : Awake s' := by
  cases a with
  | write p w => exact h.call hb (by rfl) hs
  | read p r => exact h.call hb (by trivial) hs
  | close p writable => exact h.call hb (by trivial) hs
  | act p => exact h.act hb hok hs
  | kill p =>
    rw [Pipes.step] at hs
    split at hs <;> cases hs
    refine ⟨h.plans, h.stores, fun q c hq => h.waits q c ?_⟩
    by_cases hqp : q = p
    · subst hqp
      refine hq.imp_right fun hw => ⟨hw.1, ?_⟩
      have hstate := hw.2
      rw [State.setProc_proc, update_self, kill] at hstate
      by_contra hne
      rw [if_neg hne] at hstate
      exact hne hstate
    · exact hq.congr rfl (update_of_ne hqp ..)

end Step

/-! ### Whole runs -/

/-- **Nobody sleeps on a ready pipe**, in a run in which no killed `pipewrite` returns without
the `wakeup` it owes to somebody.  Whenever `pi->lock` is free, a process that sleeps on
`&pi->nread` sleeps on an empty pipe with an open write end, and one that sleeps on
`&pi->nwrite` on a full pipe with an open read end. -/
theorem no_sleep_on_ready {s : State N} {data : Fin pipesize → UInt8}
    (hs : Reach step Signals (start N data) s) (hfree : s.lock = none) (p : Fin N)
    (hp : (s.proc p).state = .sleeping) :
    ((s.proc p).chan = some .nread → s.pipe.ring.Empty ∧ s.pipe.writeopen = true) ∧
      ((s.proc p).chan = some .nwrite → s.pipe.ring.Full ∧ s.pipe.readopen = true) := by
  have hinv : Base s ∧ Awake s := by
    refine hs.invariant (I := fun s => Base s ∧ Awake s) ⟨.start data, ⟨fun _ _ h => h.elim,
      fun _ => trivial, fun q c hq => ?_⟩⟩ fun _ _ _ h hok hstep => ?_
    · obtain ⟨x, k, hk⟩ := hq.exists_sleep
      cases hk
    · exact ⟨h.1.step hstep, h.2.step h.1 hok hstep⟩
  have hun : ∀ chan, (s.proc p).chan = some chan → Unready s.pipe chan := by
    intro chan hchan
    obtain ⟨c, hc, hoff⟩ := hinv.1.asleep p hp
    rw [hchan] at hc
    cases hc
    obtain hun | ⟨q, hq, -⟩ := hinv.2.waits p chan (.inr ⟨hoff, hp⟩)
    · exact hun
    · rw [hfree] at hq
      cases hq
  exact ⟨hun .nread, hun .nwrite⟩

/-- A process reads from an empty pipe, and falls asleep. -/
def sleepRun : List (Event 2) := .read 1 ⟨1, fun _ => true⟩ :: List.replicate 6 (.act 1)

theorem no_sleep_on_ready_reader : ∃ s, run step (start 2 fun _ => 0) sleepRun = .ok s ∧
    s.lock = none ∧ (s.proc 1).state = .sleeping ∧ (s.proc 1).chan = some .nread ∧
    ((s.proc 1).chan = some .nread → s.pipe.ring.Empty ∧ s.pipe.writeopen = true) ∧
      ((s.proc 1).chan = some .nwrite → s.pipe.ring.Full ∧ s.pipe.readopen = true) := by
  have hrun : (run step (start 2 fun _ => 0) sleepRun).check (fun s => s.lock = none ∧
      (s.proc 1).state = .sleeping ∧ (s.proc 1).chan = some .nread) = true := by decide +kernel
  have hok : Permitted step Signals (start 2 fun _ => 0) sleepRun :=
    ⟨trivial, trivial, trivial, trivial, trivial, trivial, trivial, trivial⟩
  obtain ⟨s, hs, htest⟩ := Outcome.exists_of_check hrun
  obtain ⟨hfree, hsleep, hchan⟩ := of_decide_eq_true htest
  exact ⟨s, hs, hfree, hsleep, hchan, no_sleep_on_ready (reach_of_run .refl hok hs) hfree 1 hsleep⟩

/-- A reader sleeps.  A writer stores the first of two bytes, is killed, and returns. -/
def killRun : List (Event 2) :=
  sleepRun ++ [.write 0 ⟨2, fun _ => some 7⟩, .act 0, .act 0, .kill 0, .act 0]

/-- **A reader sleeps on a pipe with a byte in it**, after a killed writer has returned. -/
theorem sleep_on_ready : ∃ s, run step (start 2 fun _ => 0) killRun = .ok s ∧ s.lock = none ∧
    (s.proc 1).state = .sleeping ∧ (s.proc 1).chan = some .nread ∧ ¬ s.pipe.ring.Empty := by
  have hrun : (run step (start 2 fun _ => 0) killRun).check (fun s => s.lock = none ∧
      (s.proc 1).state = .sleeping ∧ (s.proc 1).chan = some .nread ∧ ¬ s.pipe.ring.Empty)
      = true := by
    decide +kernel
  obtain ⟨s, hs, htest⟩ := Outcome.exists_of_check hrun
  exact ⟨s, hs, of_decide_eq_true htest⟩

end Xv6.Pipes
