import Xv6.Procs.Blocking
import Xv6.Procs.Kill

/-!
# One code, three models

The models of pipes, of the calls of processes and of the calls that block go over some of the
same code in steps of different size.  Where they do, they agree: `kill` taken statement by
statement is the whole call, and an iteration of a loop of `pipewrite` or `piperead` does the
same to the pipe, and goes on at the same place.

## Main definitions

* `Alone` — one process takes steps, and nobody else does.
* `Proc.onPipe` — a slot of the process table, as the model of pipes has it.
* `At` — places in `pipe.c`, in both models.

## Main results

* `kill_alone` — `kill`, statement by statement, is `Calls.kill`.
* `Proc.onPipe_kill`, `Proc.onPipe_wakeup` — what the models do to a slot is the same.
* `iteration_agrees` — and so are the iterations of the loops of `pipe.c`.
-/

namespace Xv6.Procs

open Blocking

variable {N M : ℕ} {p : Fin N} {a : ℕ} {s s' u : Blocking.State N M}

/-- Process `p` takes steps, and nobody else does. -/
def Alone (p : Fin N) : Blocking.State N M → Blocking.State N M → Prop :=
  Reach Blocking.step fun _ e => e = .act (.inl p)

theorem Alone.tail (h : Alone p s s') (hrun : (s'.proc p).state = .running)
    (hact : act s' (.inl p) = .ok u) : Alone p s u := by
  refine Reach.tail _ h rfl ?_
  rw [step, if_neg (by simp [State.waits, hrun])]
  exact hact

theorem goto_pc_self (k : Code N) : (s.goto (.inl p) k).pc (.inl p) = k := Function.update_self ..

theorem setPipe_self (s : Blocking.State N M) (x : Pipes.Pipe) : x = (s.setPipe a x).pipe a :=
  (Function.update_self a x s.pipe).symm

/-! ### `kill` -/

/-- The loop of `kill`, from slot `q` on. -/
theorem Alone.killNext {pid : BitVec 32} {q : ℕ} (h : Alone p s s')
    (hrun : (s'.proc p).state = .running) (hpc : s'.pc (.inl p) = .killNext pid q)
    (hfree : ∀ i, s'.lock (.proc i) = none) :
    ∃ u, Alone p s u ∧ u.lock = s'.lock ∧
      match ((List.finRange N).drop q).find? fun i => (s'.proc i).pid = pid with
      | some i => u.proc = Function.update s'.proc i (s'.proc i).kill ∧ u.pc (.inl p) = .leave 0
      | none => u.proc = s'.proc ∧ u.pc (.inl p) = .leave (-1) := by
  induction hd : N - q generalizing q s' with
  | zero =>
    -- no slot is left
    have hq : ¬ q < N := by omega
    refine ⟨_, h.tail hrun (by rw [act, hpc]; rfl), ?_⟩
    rw [Blocking.killNext, dif_neg hq, List.drop_eq_nil_of_le (by simpa using hq)]
    exact ⟨rfl, rfl, Function.update_self ..⟩
  | succ d ih =>
    have hq : q < N := by omega
    let i : Fin N := ⟨q, hq⟩
    let v := s'.setLock (.proc i) (some (.inl p))
    -- up to the test, with the lock of slot `i`
    have h₁ : Alone p s (s'.goto (.inl p) (.acquire (.proc i) (.killTest pid i))) :=
      h.tail hrun (by simp [act, hpc, actProc, Blocking.killNext, hq, i])
    have h₂ : Alone p s (v.goto (.inl p) (.killTest pid i)) :=
      h₁.tail hrun (by simp [act, acquire, State.goto, State.setLock, hfree, v])
    have hlock : Function.update s'.lock (.proc i) none = s'.lock := by
      rw [← hfree i, Function.update_eq_self]
    have hdrop : (List.finRange N).drop q = i :: (List.finRange N).drop (q + 1) := by
      rw [List.drop_eq_getElem_cons (by simpa using hq), List.getElem_finRange]
      rfl
    rw [hdrop, List.find?_cons]
    by_cases hpid : (s'.proc i).pid = pid
    · -- `p->killed = 1`, the test for `SLEEPING`, and the release of the lock
      have h₃ : Alone p s (v.goto (.inl p) (.killMark i)) :=
        h₂.tail hrun (by simp [act, actProc, killTest, State.goto, State.setLock, hpid, v])
      have h₄ : Alone p s ((v.setProc i fun x => { x with killed := true }).goto (.inl p)
          (.killState i)) :=
        h₃.tail hrun (by simp [act, actProc, killMark, State.goto, State.setProc])
      have hrun₄ : ((v.setProc i fun x => { x with killed := true }).proc p).state = .running := by
        by_cases hip : p = i <;> simp [State.setProc, v, State.setLock, hip, ← hrun]
      have h₅ : Alone p s ((v.setProc i Proc.kill).goto (.inl p) (.killDone i)) :=
        h₄.tail hrun₄ (by simp [act, actProc, killState, State.goto, State.setProc, Proc.kill])
      have hrun₅ : ((v.setProc i Proc.kill).proc p).state = .running := by
        by_cases hip : p = i
        · subst hip
          simp [State.setProc, v, State.setLock, Proc.kill, hrun]
        · simp [State.setProc, v, State.setLock, hip, hrun]
      have h₆ : Alone p s (((s'.setProc i Proc.kill).setDue i true).goto (.inl p) (.leave 0)) :=
        h₅.tail hrun₅ (by simp [act, actProc, killDone, release, State.goto, State.setProc,
          State.setDue, State.setLock, v, hlock])
      refine ⟨_, h₆, rfl, ?_⟩
      simp [hpid, State.goto, State.setProc, State.setDue]
    · have h₃ : Alone p s (v.goto (.inl p) (.release (.proc i) (.killNext pid (q + 1)))) :=
        h₂.tail hrun (by simp [act, actProc, killTest, State.goto, State.setLock, hpid, v, i])
      have h₄ : Alone p s (s'.goto (.inl p) (.killNext pid (q + 1))) :=
        h₃.tail hrun (by simp [act, release, State.goto, State.setLock, v, hlock])
      rw [decide_eq_false hpid]
      have hend := ih h₄ hrun (Function.update_self ..) hfree (by omega)
      exact hend

/-- **`kill`, statement by statement, is the whole call**, if nobody else takes steps. -/
theorem kill_alone {pid : BitVec 32} {t : Calls.Table N} (ht : t.proc = s.proc)
    (hrun : (s.proc p).state = .running) (hpc : s.pc (.inl p) = .killNext pid 0)
    (hfree : ∀ i, s.lock (.proc i) = none) :
    ∃ u, Alone p s u ∧ u.lock = s.lock ∧ u.proc = (Calls.kill t pid).2.proc ∧
      u.pc (.inl p) = .leave (Calls.kill t pid).1.toInt := by
  obtain ⟨u, hu, hlock, hend⟩ := Alone.killNext (q := 0) .refl hrun hpc hfree
  refine ⟨u, hu, hlock, ?_⟩
  rw [List.drop_zero, ← ht] at hend
  rw [Calls.kill, Calls.findSlot]
  cases hfind : (List.finRange N).find? fun i => (t.proc i).pid = pid with
  | none =>
    rw [hfind] at hend
    exact hend
  | some i =>
    rw [hfind] at hend
    exact hend

/-! ### Slots -/

/-- What processes sleep on in `pipe.c`, for pipe `a`. -/
def pipeChan (a : ℕ) : Pipes.Chan → Chan N
  | .nread => nread a
  | .nwrite => nwrite a

/-- A slot of the process table, as the model of pipes has it. -/
def Proc.onPipe (a : ℕ) (locked : Bool) (x : Proc N) : Pipes.Proc where
  locked := locked
  state := match x.state with
    | .sleeping => .sleeping
    | .runnable => .runnable
    | _ => .running
  chan :=
    if x.chan = pipeChan a .nread then some .nread
    else if x.chan = pipeChan a .nwrite then some .nwrite else none
  killed := x.killed

theorem Proc.onPipe_kill (l : Bool) (x : Proc N) :
    x.kill.onPipe a l = Pipes.kill (x.onPipe a l) := by
  unfold Proc.kill Pipes.kill Proc.onPipe
  cases x.state <;> rfl

theorem Proc.onPipe_wakeup (l : Bool) (x : Proc N) (c : Pipes.Chan) :
    (x.wakeup (pipeChan a c)).onPipe a l = Pipes.wakeupOne c (x.onPipe a l) := by
  have hne : (pipeChan a .nread : Chan N) ≠ pipeChan a .nwrite := by
    simp [pipeChan, nread, nwrite]
  have hchan : x.chan = pipeChan a c ↔ (x.onPipe a l).chan = some c := by
    cases c <;> simp only [Proc.onPipe] <;> split_ifs <;> simp_all
  have hstate : x.state = .sleeping ↔ (x.onPipe a l).state = .sleeping := by
    unfold Proc.onPipe
    cases x.state <;> simp
  by_cases h : x.state = .sleeping ∧ x.chan = pipeChan a c
  · rw [Proc.wakeup, if_pos h, Pipes.wakeupOne, if_pos ⟨hstate.mp h.1, hchan.mp h.2⟩]
    rfl
  · rw [Proc.wakeup, if_neg h, Pipes.wakeupOne,
      if_neg fun h' => h ⟨hstate.mpr h'.1, hchan.mpr h'.2⟩]

/-! ### The loops of `pipe.c` -/

/-- Process `p` is at the same place in `pipe.c` in both models, with pipe `a`. -/
inductive At (p : Fin N) (a : ℕ) : Code N → Pipes.Pc → Prop
  -- the loops, and the start of `pipeclose`
  | write (w : Pipes.Write) (i last : ℕ) : At p a (.writeTest a w i) (.held (.writeLoop w i last))
  | read (r : Pipes.Read) : At p a (.readTest a r) (.held (.readLoop r))
  | copy (r : Pipes.Read) (i : ℕ) (out : List UInt8) :
    At p a (.readCopy a r i) (.held (.readCopy r i out))
  | close (b : Bool) : At p a (.closeEnd a b) (.held (.close b))
  -- where they go on
  | full (w : Pipes.Write) (i : ℕ) :
    At p a (.wakeup (some p) (nread a) 0 (sleep p (nwrite a) (.pipe a) (.writeTest a w i)))
      (.held (.wakeup .nread 0 (.sleep w i)))
  | empty (r : Pipes.Read) :
    At p a (sleep p (nread a) (.pipe a) (.readTest a r)) (.sleep .nread .acquire (.readLoop r))
  | ends (c : Pipes.Chan) (a0 : ℤ) :
    At p a (.wakeup (some p) (pipeChan a c) 0 (ret (.pipe a) a0)) (.held (.wakeup c 0 .ret))
  | readEnds (i : ℕ) (out : List UInt8) :
    At p a (.wakeup (some p) (nwrite a) 0 (ret (.pipe a) i))
      (.held (.wakeup .nwrite 0 (.retRead i out)))
  | returns (a0 : ℤ) : At p a (ret (.pipe a) a0) .out

theorem At.goto {t : Pipes.State N} {k : Code N} {pc : Pipes.Pc} (h : At p a k pc) :
    At p a ((s.goto (.inl p) k).pc (.inl p)) ((t.goto p pc).pc p) := by
  simpa [State.goto, Pipes.State.goto] using h

/-- **An iteration is the same in both models**, in one step or, where one of them tests `killed`
in a step of its own, in two. -/
theorem iteration_agrees {t t' : Pipes.State N} {k : Pipes.Held}
    (hat : At p a (s.pc (.inl p)) (.held k)) (hk : ∀ c q f, k ≠ .wakeup c q f)
    (hpc : t.pc p = .held k) (hpipe : t.pipe = s.pipe a)
    (hkilled : (t.proc p).killed = (s.proc p).killed) (hrun : (s.proc p).state = .running)
    (ht : Pipes.act t p = .ok t') :
    ∃ u, Alone p s u ∧ t'.pipe = u.pipe a ∧ At p a (u.pc (.inl p)) (t'.pc p) ∧ u.proc = s.proc := by
  generalize hc : s.pc (.inl p) = c at hat
  rw [Pipes.act, hpc] at ht
  cases hat with
  | read r =>
    cases ht
    have h₁ : Alone p s (readTest s p a r) := Alone.tail .refl hrun (by rw [act, hc]; rfl)
    rw [readTest] at h₁
    rw [Pipes.readIter, hpipe, hkilled]
    by_cases hempty : (s.pipe a).ring.Empty ∧ (s.pipe a).writeopen = true
    · rw [if_pos hempty] at h₁ ⊢
      -- the test of `killed` is a step of its own
      obtain ⟨v, h₁, hproc, hvpipe, hv⟩ : ∃ v, Alone p s v ∧ s.proc = v.proc ∧ s.pipe = v.pipe ∧
          v.pc (.inl p) = .readKilled a r := ⟨_, h₁, rfl, rfl, goto_pc_self _⟩
      rw [hproc] at hrun ⊢
      rw [hvpipe] at hpipe
      refine ⟨_, h₁.tail hrun (by rw [act, hv]; rfl), ?_⟩
      rw [readKilled, testKilled]
      by_cases hkill : (v.proc p).killed = true
      · rw [if_pos hkill, if_pos hkill]
        exact ⟨hpipe, At.goto (.returns (-1)), rfl⟩
      · rw [if_neg hkill, if_neg hkill]
        exact ⟨hpipe, At.goto (.empty r), rfl⟩
    · rw [if_neg hempty] at h₁ ⊢
      exact ⟨_, h₁, hpipe, At.goto (.copy r 0 []), rfl⟩
  | copy r i out =>
    cases ht
    have h₁ : Alone p s (readCopy s p a r i) := Alone.tail .refl hrun (by rw [act, hc]; rfl)
    refine ⟨_, h₁, ?_⟩
    rw [readCopy, Pipes.copyIter, hpipe]
    by_cases hmore : (i : ℤ) < r.n ∧ ¬ (s.pipe a).ring.Empty
    · rw [if_pos hmore, if_pos hmore]
      by_cases hdst : r.dst i = true
      · rw [if_pos hdst, if_pos hdst]
        exact ⟨setPipe_self s _, At.goto (.copy r _ _), rfl⟩
      · rw [if_neg hdst, if_neg hdst]
        exact ⟨setPipe_self s _, At.goto (.readEnds i out), rfl⟩
    · rw [if_neg hmore, if_neg hmore]
      exact ⟨hpipe, At.goto (.readEnds i out), rfl⟩
  | write w i last =>
    cases ht
    have h₁ : Alone p s (writeTest s p a w i) := Alone.tail .refl hrun (by rw [act, hc]; rfl)
    rw [writeTest] at h₁
    rw [Pipes.writeIter, hpipe, hkilled]
    by_cases hmore : (i : ℤ) < w.n
    swap
    · rw [if_neg hmore] at h₁ ⊢
      exact ⟨_, h₁, hpipe, At.goto (.ends .nread i), rfl⟩
    rw [if_pos hmore] at h₁ ⊢
    by_cases hopen : (s.pipe a).readopen = false
    · rw [if_pos hopen] at h₁
      rw [if_pos (.inl hopen)]
      exact ⟨_, h₁, hpipe, At.goto (.returns (-1)), rfl⟩
    rw [if_neg hopen] at h₁
    obtain ⟨v, h₁, hproc, hvpipe, hv⟩ : ∃ v, Alone p s v ∧ s.proc = v.proc ∧ s.pipe = v.pipe ∧
        v.pc (.inl p) = .writeKilled a w i := ⟨_, h₁, rfl, rfl, goto_pc_self _⟩
    rw [hproc] at hrun ⊢
    rw [hvpipe] at hpipe hopen ⊢
    refine ⟨_, h₁.tail hrun (by rw [act, hv]; rfl), ?_⟩
    rw [writeKilled]
    by_cases hkill : (v.proc p).killed = true
    · rw [if_pos (.inr hkill), if_pos hkill]
      exact ⟨hpipe, At.goto (.returns (-1)), rfl⟩
    rw [if_neg (not_or.mpr ⟨hopen, hkill⟩), if_neg hkill]
    by_cases hfull : (v.pipe a).ring.Full
    · rw [if_pos hfull, if_pos hfull]
      exact ⟨hpipe, At.goto (.full w i), rfl⟩
    rw [if_neg hfull, if_neg hfull]
    cases w.src i with
    | none => exact ⟨hpipe, At.goto (.ends .nread i), rfl⟩
    | some ch => exact ⟨setPipe_self v _, At.goto (.write w _ _), rfl⟩
  | close b =>
    cases ht
    refine ⟨_, Alone.tail .refl hrun (by rw [act, hc]; rfl), ?_⟩
    rw [Pipes.closeEnd, hpipe]
    cases b with
    | true => exact ⟨setPipe_self s _, At.goto (.ends .nread 0), rfl⟩
    | false => exact ⟨setPipe_self s _, At.goto (.ends .nwrite 0), rfl⟩
  | full w i => exact absurd rfl (hk _ _ _)
  | ends c a0 => exact absurd rfl (hk _ _ _)
  | readEnds i out => exact absurd rfl (hk _ _ _)

end Xv6.Procs
