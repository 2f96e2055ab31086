import Xv6.Lib.Outcome
import Xv6.Procs.Table

/-!
# Whom a kill reaches

The system calls `fork`, `exit`, `wait` and `kill` of `kernel/proc.c`, and
`usertrap` of `kernel/trap.c` around them, one whole call after the other.  A
process that is killed learns of it in `usertrap`, so its fate depends on the
`killed` field of its slot, and the slot is used again by later processes.

`freeproc` clears `killed` and `pid` when a process is reaped, and `allocproc`
relies on it: it sets neither `killed` nor any other field but `pid` and `state`.
But `kill` looks for the slot by `pid` alone.  A slot that is not in use has
`pid` 0, so `kill(0)` finds it, reports success and leaves `killed` set in it:
the next process forked into that slot is killed at birth.

## Main definitions

* `Table N` — the process table, and what has happened to it.
* `fork`, `exit`, `wait`, `kill`, `usertrap` — the calls.
* `Named t pid` — a process has that pid.
* `Blamed hist i pid` — since slot `i` was last given to a process, that process
  was named in a `kill` or took a fatal trap.

## Main results

* `kill_exact` — where no `kill(0)` meets an unused slot, `kill` succeeds exactly
  on the pids of processes, and only a process that is to blame is killed.
* `kill_zero` — a run in which `kill(0)` kills a process not yet born.
-/

namespace Xv6.Procs.Calls

/-- Where a process goes on in the kernel when it is next run. -/
inductive Cont
  | user -- it is in user space
  | inWait -- it sleeps in `wait`
  | inSleep -- it sleeps in some other call
  deriving DecidableEq, Repr

/-- What matters for who has been killed. -/
inductive Entry (N : ℕ)
  | forked (i : Fin N) -- a process was created in slot `i`
  | kill (pid : BitVec 32) -- `kill` was called
  | fault (i : Fin N) -- the process in slot `i` took a fatal trap
  deriving DecidableEq, Repr

/-- The process table between two calls. -/
structure Table (N : ℕ) where
  proc : Fin N → Proc N
  nextpid : BitVec 32
  initproc : Fin N
  cont : Fin N → Cont
  hist : List (Entry N) -- ghost: the newest entry first

namespace Table

variable {N : ℕ}

/-- Replace the entry of one slot. -/
def set (t : Table N) (i : Fin N) (p : Proc N) : Table N :=
  { t with proc := Function.update t.proc i p }

/-- Where a process goes on. -/
def goto (t : Table N) (i : Fin N) (k : Cont) : Table N :=
  { t with cont := Function.update t.cont i k }

/-- Add to the history. -/
def note (t : Table N) (e : Entry N) : Table N := { t with hist := e :: t.hist }

@[simp] theorem proc_set (t : Table N) (i : Fin N) (p : Proc N) :
    (t.set i p).proc = Function.update t.proc i p := rfl

@[simp] theorem hist_set (t : Table N) (i : Fin N) (p : Proc N) : (t.set i p).hist = t.hist := rfl

@[simp] theorem proc_goto (t : Table N) (i : Fin N) (k : Cont) : (t.goto i k).proc = t.proc := rfl

@[simp] theorem hist_goto (t : Table N) (i : Fin N) (k : Cont) : (t.goto i k).hist = t.hist := rfl

@[simp] theorem proc_note (t : Table N) (e : Entry N) : (t.note e).proc = t.proc := rfl

@[simp] theorem hist_note (t : Table N) (e : Entry N) : (t.note e).hist = e :: t.hist := rfl

end Table

open Table

variable {N : ℕ} {t t' : Table N} {i p : Fin N} {hist : List (Entry N)}

/-- The first slot a loop over `proc[]` stops at. -/
def findSlot (t : Table N) (f : Proc N → Bool) : Option (Fin N) :=
  (List.finRange N).find? fun i => f (t.proc i)

theorem findSlot_some {f : Proc N → Bool} (h : findSlot t f = some i) : f (t.proc i) = true := by
  simpa using List.find?_some h

theorem findSlot_isSome {f : Proc N → Bool} (h : f (t.proc i) = true) :
    ∃ j, findSlot t f = some j := by
  rw [← Option.isSome_iff_exists]
  exact List.find?_isSome.mpr ⟨i, List.mem_finRange i, h⟩

/-! ### The calls -/

/-- `fork`, called by the process in slot `p`, with the value it returns. -/
def fork (t : Table N) (p : Fin N) (mem : Mem) : BitVec 32 × Table N :=
  match findSlot t fun q => q.state = .unused with
  | none => (-1, t)
  | some i =>
    let pid := t.nextpid
    let np := (t.proc i).alloc pid
    let t := { t with nextpid := t.nextpid + 1 }
    if mem.trapframe && mem.pagetable && mem.copy then
      (pid, ((t.set i { np with parent := some p, state := .runnable }).goto i .user).note
        (.forked i))
    else (-1, t.set i np.freeproc)

/-- `wakeup`, called by the process in slot `me` or by an interrupt handler. -/
def wakeup (t : Table N) (me : Option (Fin N)) (chan : Chan N) : Table N :=
  { t with proc := fun i => if me = some i then t.proc i else (t.proc i).wakeup chan }

/-- The body of the loop of `reparent`. -/
def reparentOne (p : Fin N) (t : Table N) (i : Fin N) : Table N :=
  if (t.proc i).parent = some p then
    wakeup (t.set i { t.proc i with parent := some t.initproc }) (some p) (.proc t.initproc)
  else t

/-- `reparent`: pass `p`'s abandoned children to init. -/
def reparent (t : Table N) (p : Fin N) : Table N :=
  (List.finRange N).foldl (reparentOne p) t

/-- The panics of this part of the kernel. -/
inductive Panic
  | initExiting -- "init exiting"
  deriving DecidableEq, Repr

/-- `exit`, called by the process in slot `p`. -/
def exit (t : Table N) (p : Fin N) (status : BitVec 32) : Outcome Panic (Table N) :=
  if p = t.initproc then .panic .initExiting
  else
    let t := reparent t p
    let t := wakeup t (some p) (.ofProc (t.proc p).parent)
    .ok (t.set p { t.proc p with xstate := status, state := .zombie })

/-- `wait`, called by the process in slot `p`: the value it returns, or `none` if it
goes to sleep.  `copied` says that `addr` is 0 or `copyout` succeeds. -/
def wait (t : Table N) (p : Fin N) (copied : Bool) : Option (BitVec 32) × Table N :=
  match findSlot t fun q => q.parent = some p && q.state = .zombie with
  | some i =>
    if copied then (some (t.proc i).pid, t.set i (t.proc i).freeproc) else (some (-1), t)
  | none =>
    match findSlot t fun q => q.parent = some p with
    | none => (some (-1), t)
    | some _ =>
      if (t.proc p).killed then (some (-1), t)
      else (none, (t.set p { t.proc p with chan := .proc p, state := .sleeping }).goto p .inWait)

/-- `kill`, with the value it returns. -/
def kill (t : Table N) (pid : BitVec 32) : BitVec 32 × Table N :=
  match findSlot t fun q => q.pid = pid with
  | some i => (0, t.set i (t.proc i).kill)
  | none => (-1, t)

/-! ### Traps and runs -/

/-- A system call. -/
inductive Call (N : ℕ)
  | fork (mem : Mem)
  | exit (status : BitVec 32)
  | wait (copied : Bool)
  | kill (pid : BitVec 32)
  | sleep (chan : Chan N) -- any other call, that sleeps
  | other -- any other call, that does not
  deriving DecidableEq, Repr

/-- Why a process enters the kernel. -/
inductive Cause (N : ℕ)
  | syscall (c : Call N)
  | timer
  | device
  | fault -- anything `usertrap` does not expect
  deriving DecidableEq, Repr

/-- The end of `usertrap`: a killed process exits, any other goes back to user space. -/
def trapEnd (t : Table N) (p : Fin N) : Outcome Panic (Table N) :=
  if (t.proc p).killed then exit t p (-1) else .ok (t.goto p .user)

/-- `wait`, and the rest of `usertrap` if it returns. -/
def waitCall (t : Table N) (p : Fin N) (copied : Bool) : Outcome Panic (Table N) :=
  match wait t p copied with
  | (some _, t) => trapEnd t p
  | (none, t) => .ok t

/-- `syscall`, and the rest of `usertrap` if the call returns. -/
def syscall (t : Table N) (p : Fin N) : Call N → Outcome Panic (Table N)
  | .fork mem => trapEnd (fork t p mem).2 p
  | .exit status => exit t p status
  | .wait copied => waitCall t p copied
  | .kill pid => trapEnd ((kill t pid).2.note (.kill pid)) p
  | .sleep chan =>
    .ok ((t.set p { t.proc p with chan := chan, state := .sleeping }).goto p .inSleep)
  | .other => trapEnd t p

/-- `usertrap`. -/
def usertrap (t : Table N) (p : Fin N) : Cause N → Outcome Panic (Table N)
  | .syscall c => if (t.proc p).killed then exit t p (-1) else syscall t p c
  | .timer =>
    if (t.proc p).killed then exit t p (-1)
    else .ok (t.set p { t.proc p with state := .runnable }) -- `yield`
  | .device => trapEnd t p
  | .fault => trapEnd ((t.set p { t.proc p with killed := true }).note (.fault p)) p

/-- What can happen next. -/
inductive Event (N : ℕ)
  | schedule (i : Fin N) -- the scheduler runs a process
  | usertrap (i : Fin N) (cause : Cause N) -- a running process enters the kernel
  | resume (i : Fin N) (copied : Bool) -- `sleep` returns to the call that made it
  | wakeup (chan : Chan N) -- an interrupt handler wakes sleepers
  deriving DecidableEq, Repr

/-- One event.  A process must be running, and where the event says it is. -/
def stepCall (t : Table N) : Event N → Outcome Panic (Table N)
  | .schedule i =>
    if (t.proc i).state = .runnable then .ok (t.set i { t.proc i with state := .running })
    else .stuck
  | .usertrap i cause =>
    if (t.proc i).state = .running ∧ t.cont i = .user then usertrap t i cause else .stuck
  | .resume i copied =>
    if (t.proc i).state = .running then
      match t.cont i with
      | .user => .stuck
      | .inWait => waitCall (t.set i { t.proc i with chan := .null }) i copied
      | .inSleep => trapEnd (t.set i { t.proc i with chan := .null }) i
    else .stuck
  | .wakeup chan => .ok (wakeup t none chan)

/-- The table after `userinit`: the first process is in the first slot. -/
def boot (N : ℕ) [NeZero N] : Table N where
  proc := Function.update (fun _ => {}) 0 { state := .runnable, pid := 1 }
  nextpid := 2
  initproc := 0
  cont := fun _ => .user
  hist := [.forked 0]

/-! ### Who is to blame -/

/-- Some process has this pid. -/
def Named (t : Table N) (pid : BitVec 32) : Prop :=
  ∃ i, (t.proc i).state ≠ .unused ∧ (t.proc i).pid = pid

/-- Since a process was created in slot `i`, a `kill` named its pid or it took a
fatal trap. -/
def Blamed : List (Entry N) → Fin N → BitVec 32 → Prop
  | [], _, _ => False
  | .forked j :: hist, i, pid => j ≠ i ∧ Blamed hist i pid
  | .kill q :: hist, i, pid => q = pid ∨ Blamed hist i pid
  | .fault j :: hist, i, pid => j = i ∨ Blamed hist i pid

instance (t : Table N) (pid : BitVec 32) : Decidable (Named t pid) :=
  inferInstanceAs (Decidable (∃ _, _))

/-- Decide `Blamed` along the history. -/
def decideBlamed : (hist : List (Entry N)) → (i : Fin N) → (pid : BitVec 32) →
    Decidable (Blamed hist i pid)
  | [], _, _ => .isFalse id
  | .forked _ :: hist, i, pid =>
    haveI := decideBlamed hist i pid
    inferInstanceAs (Decidable (_ ∧ _))
  | .kill _ :: hist, i, pid =>
    haveI := decideBlamed hist i pid
    inferInstanceAs (Decidable (_ ∨ _))
  | .fault _ :: hist, i, pid =>
    haveI := decideBlamed hist i pid
    inferInstanceAs (Decidable (_ ∨ _))

instance (hist : List (Entry N)) (i : Fin N) (pid : BitVec 32) :
    Decidable (Blamed hist i pid) := decideBlamed hist i pid

/-- A `kill` of this pid cannot stop at a slot that is not in use. -/
def Guarded (t : Table N) (pid : BitVec 32) : Prop :=
  pid ≠ 0 ∨ ∀ i, (t.proc i).state ≠ .unused

instance (t : Table N) (pid : BitVec 32) : Decidable (Guarded t pid) :=
  inferInstanceAs (Decidable (_ ∨ _))

/-- The event makes no call of `kill` that could stop at a slot not in use. -/
def GuardedEvent (t : Table N) : Event N → Prop
  | .usertrap _ (.syscall (.kill pid)) => Guarded t pid
  | _ => True

instance (t : Table N) (e : Event N) : Decidable (GuardedEvent t e) := by
  unfold GuardedEvent
  split <;> infer_instance

/-- What holds of every slot: nothing is left in one that is not in use, and only a
process that is to blame is killed. -/
structure SlotOk (hist : List (Entry N)) (i : Fin N) (p : Proc N) : Prop where
  unused : p.state = .unused → p.pid = 0 ∧ p.killed = false
  blamed : p.state ≠ .unused → p.killed = true → Blamed hist i p.pid

/-- The slots of a table are in order. -/
def TableOk (t : Table N) : Prop := ∀ i, SlotOk t.hist i (t.proc i)

theorem SlotOk.congr {p q : Proc N} (h : SlotOk hist i p) (hp : p.state ≠ .unused)
    (hq : q.state ≠ .unused) (hpid : q.pid = p.pid) (hkilled : q.killed = p.killed) :
    SlotOk hist i q := by
  refine ⟨fun hu => absurd hu hq, fun _ hk => ?_⟩
  rw [hpid]
  exact h.blamed hp (hkilled ▸ hk)

theorem SlotOk.freeproc (p : Proc N) : SlotOk hist i p.freeproc :=
  ⟨fun _ => ⟨rfl, rfl⟩, fun hu => absurd rfl hu⟩

theorem SlotOk.wakeup {p : Proc N} (h : SlotOk hist i p) (chan : Chan N) :
    SlotOk hist i (p.wakeup chan) :=
  ⟨fun hu => by simpa using h.unused (by simpa using hu),
    fun hu hk => by simpa using h.blamed (by simpa using hu) (by simpa using hk)⟩

theorem TableOk.set (h : TableOk t) {p : Proc N} (hp : SlotOk t.hist i p) :
    TableOk (t.set i p) := by
  intro j
  by_cases hj : j = i
  · subst hj
    simpa using hp
  · simpa [hj] using h j

theorem TableOk.wakeup (h : TableOk t) (me : Option (Fin N)) (chan : Chan N) :
    TableOk (wakeup t me chan) := by
  intro i
  show SlotOk t.hist i (if me = some i then t.proc i else (t.proc i).wakeup chan)
  split
  · exact h i
  · exact (h i).wakeup chan

theorem wakeup_proc_unused (t : Table N) (me : Option (Fin N)) (chan : Chan N) (i : Fin N) :
    ((wakeup t me chan).proc i).state = .unused ↔ (t.proc i).state = .unused := by
  show (if me = some i then t.proc i else (t.proc i).wakeup chan).state = .unused ↔ _
  split
  · rfl
  · exact Proc.wakeup_unused _ _

/-- One iteration of `reparent` keeps the table in order and every slot in or out of use. -/
theorem reparentOne_ok (h : TableOk t) (p i : Fin N) :
    TableOk (reparentOne p t i) ∧
      ∀ j, ((reparentOne p t i).proc j).state = .unused ↔ (t.proc j).state = .unused := by
  unfold reparentOne
  split
  · have hset : TableOk (t.set i { t.proc i with parent := some t.initproc }) :=
      h.set ⟨(h i).unused, (h i).blamed⟩
    refine ⟨hset.wakeup _ _, fun j => ?_⟩
    rw [wakeup_proc_unused]
    by_cases hj : j = i
    · subst hj; simp
    · simp [hj]
  · exact ⟨h, fun _ => Iff.rfl⟩

theorem reparent_ok (h : TableOk t) (p : Fin N) :
    TableOk (reparent t p) ∧
      ∀ j, ((reparent t p).proc j).state = .unused ↔ (t.proc j).state = .unused := by
  -- the loop, by induction on the slots still to visit
  unfold reparent
  generalize List.finRange N = slots
  induction slots generalizing t with
  | nil => exact ⟨h, fun _ => Iff.rfl⟩
  | cons i slots ih =>
    obtain ⟨hone, huse⟩ := reparentOne_ok h p i
    obtain ⟨hrest, huse'⟩ := ih hone
    exact ⟨hrest, fun j => (huse' j).trans (huse j)⟩

theorem TableOk.exit (h : TableOk t) {status : BitVec 32} (hp : (t.proc p).state ≠ .unused)
    (he : exit t p status = .ok t') : TableOk t' := by
  unfold Calls.exit at he
  split at he
  · cases he
  · obtain ⟨hre, huse⟩ := reparent_ok h p
    cases he
    refine (hre.wakeup _ _).set (SlotOk.congr (hre.wakeup _ _ p) ?_ (by simp) rfl rfl)
    rw [Ne, wakeup_proc_unused, huse]
    exact hp

theorem TableOk.trapEnd (h : TableOk t) (hp : (t.proc p).state ≠ .unused)
    (he : trapEnd t p = .ok t') : TableOk t' := by
  unfold Calls.trapEnd at he
  split at he
  · exact h.exit hp he
  · cases he
    exact h

/-- The slot `fork` finds had nothing left in it, so the child is not killed. -/
theorem TableOk.fork {t : Table N} (h : TableOk t) (p : Fin N) (mem : Mem) :
    TableOk (fork t p mem).2 ∧
      (∀ i, (t.proc i).state ≠ .unused → ((fork t p mem).2.proc i) = t.proc i) ∧
      ∀ i, (t.proc i).state = .unused → ((fork t p mem).2.proc i).killed = false := by
  unfold Calls.fork
  split
  · exact ⟨h, fun _ _ => rfl, fun i hi => ((h i).unused hi).2⟩
  rename_i i hi
  have hun : (t.proc i).state = .unused := by simpa using findSlot_some hi
  have hk := ((h i).unused hun).2
  have hother : ∀ (q : Proc N) (j : Fin N), (t.proc j).state ≠ .unused →
      Function.update t.proc i q j = t.proc j := by
    intro q j hj
    have hne : j ≠ i := by
      rintro rfl
      exact hj hun
    simp [hne]
  have hnew : ∀ (q : Proc N), q.killed = false → ∀ j, (t.proc j).state = .unused →
      (Function.update t.proc i q j).killed = false := by
    intro q hq j hj
    by_cases hji : j = i
    · subst hji; simpa using hq
    · simpa [hji] using ((h j).unused hj).2
  dsimp only
  split
  · refine ⟨fun j => ?_, fun j hj => hother _ j hj, fun j hj => hnew _ (by exact hk) j hj⟩
    by_cases hj : j = i
    · subst hj
      refine ⟨fun hu => absurd hu (by simp), fun _ hkilled => ?_⟩
      simp [hk] at hkilled
    · refine ⟨fun hu => ?_, fun hu hkilled => ?_⟩
      · simpa [hj] using (h j).unused (by simpa [hj] using hu)
      · have hb := (h j).blamed (by simpa [hj] using hu) (by simpa [hj] using hkilled)
        exact ⟨Ne.symm hj, by simpa [hj] using hb⟩
  · refine ⟨fun j => ?_, fun j hj => hother _ j hj, fun j hj => hnew _ rfl j hj⟩
    exact TableOk.set (t := { t with nextpid := t.nextpid + 1 }) h (SlotOk.freeproc _) j

theorem TableOk.waitCall (h : TableOk t) {copied : Bool} (hp : (t.proc p).state ≠ .unused)
    (hz : (t.proc p).state ≠ .zombie) (he : waitCall t p copied = .ok t') : TableOk t' := by
  unfold Calls.waitCall Calls.wait at he
  cases hfind : findSlot t fun q => q.parent = some p && q.state = .zombie with
  | some i =>
    simp only [hfind] at he
    have hzombie : (t.proc i).state = .zombie := by
      have := findSlot_some hfind
      simp only [Bool.and_eq_true, decide_eq_true_eq] at this
      exact this.2
    have hpi : p ≠ i := by
      rintro rfl
      exact hz hzombie
    cases copied with
    | true =>
      refine (h.set (SlotOk.freeproc _)).trapEnd ?_ he
      simpa [hpi] using hp
    | false => exact h.trapEnd hp he
  | none =>
    simp only [hfind] at he
    split at he
    · next heq =>
      split at heq
      · cases heq
        exact h.trapEnd hp he
      · split at heq
        · cases heq
          exact h.trapEnd hp he
        · cases heq
    · next heq =>
      split at heq
      · cases heq
      · split at heq
        · cases heq
        · cases heq
          cases he
          exact h.set ((h p).congr hp (by simp) rfl rfl)

/-- `kill` of a guarded pid stops at a process only. -/
theorem kill_stops (h : TableOk t) {pid : BitVec 32} (hg : Guarded t pid)
    (hi : findSlot t (fun q => q.pid = pid) = some i) :
    (t.proc i).state ≠ .unused ∧ (t.proc i).pid = pid := by
  have hpid : (t.proc i).pid = pid := by simpa using findSlot_some hi
  refine ⟨fun hu => ?_, hpid⟩
  rcases hg with hne | hall
  · exact hne (hpid ▸ ((h i).unused hu).1)
  · exact hall i hu

theorem TableOk.kill (h : TableOk t) {pid : BitVec 32} (hg : Guarded t pid) :
    TableOk ((kill t pid).2.note (.kill pid)) ∧
      ∀ i, ((kill t pid).2.proc i).state = .unused ↔ (t.proc i).state = .unused := by
  unfold Calls.kill
  split
  · next i hi =>
    obtain ⟨huse, hpid⟩ := kill_stops h hg hi
    refine ⟨fun j => ?_, fun j => ?_⟩
    · by_cases hj : j = i
      · subst hj
        refine ⟨fun hu => absurd hu (by simpa using huse), fun _ _ => ?_⟩
        exact .inl (by simpa using hpid.symm)
      · refine ⟨fun hu => ?_, fun hu hk => .inr ?_⟩
        · simpa [hj] using (h j).unused (by simpa [hj] using hu)
        · simpa [hj] using (h j).blamed (by simpa [hj] using hu) (by simpa [hj] using hk)
    · by_cases hj : j = i
      · subst hj; simp
      · simp [hj]
  · exact ⟨fun j => ⟨(h j).unused, fun hu hk => .inr ((h j).blamed hu hk)⟩, fun _ => Iff.rfl⟩

/-- `usertrap` keeps the table in order. -/
theorem TableOk.usertrap (h : TableOk t) {cause : Cause N} (hp : (t.proc p).state = .running)
    (hg : GuardedEvent t (.usertrap p cause)) (he : usertrap t p cause = .ok t') : TableOk t' := by
  have huse : (t.proc p).state ≠ .unused := by simp [hp]
  unfold Calls.usertrap at he
  cases cause with
  | syscall c =>
    dsimp only at he
    split at he
    · -- killed on the way in
      exact h.exit huse he
    cases c with
    | fork mem =>
      obtain ⟨hok, hsame, -⟩ := h.fork p mem
      refine hok.trapEnd ?_ he
      rwa [hsame p huse]
    | exit status => exact h.exit huse he
    | wait copied => exact h.waitCall huse (by simp [hp]) he
    | kill pid =>
      obtain ⟨hok, hsame⟩ := h.kill hg
      refine hok.trapEnd ?_ he
      rw [Table.proc_note, Ne, hsame]
      exact huse
    | sleep chan =>
      cases he
      exact h.set ((h p).congr huse (by simp) rfl rfl)
    | other => exact h.trapEnd huse he
  | timer =>
    dsimp only at he
    split at he
    · exact h.exit huse he
    · cases he
      exact h.set ((h p).congr huse (by simp) rfl rfl)
  | device => exact h.trapEnd huse he
  | fault =>
    -- a fault marks the process itself, so that the mark has a cause
    refine TableOk.trapEnd (fun j => ?_) (by simpa using huse) he
    by_cases hj : j = p
    · subst hj
      exact ⟨fun hu => absurd hu (by simpa using huse), fun _ _ => .inl rfl⟩
    · refine ⟨fun hu => ?_, fun hu hk => .inr ?_⟩
      · simpa [hj] using (h j).unused (by simpa [hj] using hu)
      · simpa [hj] using (h j).blamed (by simpa [hj] using hu) (by simpa [hj] using hk)

theorem TableOk.step (h : TableOk t) {e : Event N} (hg : GuardedEvent t e)
    (he : stepCall t e = .ok t') : TableOk t' := by
  cases e with
  | schedule i =>
    simp only [stepCall] at he
    split at he
    · next hrun =>
      cases he
      exact h.set ((h i).congr (by simp [hrun]) (by simp) rfl rfl)
    · cases he
  | usertrap i cause =>
    simp only [stepCall] at he
    split at he
    · next hrun => exact h.usertrap hrun.1 hg he
    · cases he
  | resume i copied =>
    simp only [stepCall] at he
    split at he
    · next hrun =>
      have hset : TableOk (t.set i { t.proc i with chan := .null }) :=
        h.set ⟨(h i).unused, (h i).blamed⟩
      split at he
      · cases he
      · exact hset.waitCall (by simp [hrun]) (by simp [hrun]) he
      · exact hset.trapEnd (by simp [hrun]) he
    · cases he
  | wakeup chan =>
    cases he
    exact h.wakeup none chan

theorem tableOk_boot (N : ℕ) [NeZero N] : TableOk (boot N) := by
  intro i
  by_cases hi : i = 0
  · subst hi
    exact ⟨fun hu => absurd hu (by simp [boot]), fun _ hk => by simp [boot] at hk⟩
  · refine ⟨fun _ => by simp [boot, hi], fun hu => absurd ?_ hu⟩
    simp [boot, hi]

/-- **A kill reaches the process it names, and no other.**  In every run in which no
`kill(0)` is made while some slot is not in use: such a `kill` succeeds exactly on the
pids of processes; a process is killed only if, since it was created, a `kill` named it
or it took a fatal trap; and the child of a `fork` is not killed. -/
theorem kill_exact {N : ℕ} [NeZero N] {t : Table N}
    (ht : Reach stepCall GuardedEvent (boot N) t) :
    (∀ pid, Guarded t pid → ((kill t pid).1 = 0 ↔ Named t pid)) ∧
    (∀ i, (t.proc i).state ≠ .unused → (t.proc i).killed = true →
      Blamed t.hist i (t.proc i).pid) ∧
    ∀ p mem i, (t.proc i).state = .unused → ((fork t p mem).2.proc i).killed = false := by
  have h : TableOk t := ht.invariant (tableOk_boot N) fun _ _ _ hi hg he => hi.step hg he
  refine ⟨fun pid hg => ?_, fun i => (h i).blamed, fun p mem => (h.fork p mem).2.2⟩
  unfold kill
  constructor
  · intro hz
    split at hz
    · next i hi =>
      obtain ⟨huse, hpid⟩ := kill_stops h hg hi
      exact ⟨i, huse, hpid⟩
    · simp at hz
  · rintro ⟨i, -, hpid⟩
    obtain ⟨j, hj⟩ := findSlot_isSome (t := t) (f := fun q => q.pid = pid) (i := i) (by simp [hpid])
    rw [hj]

instance : NeZero nproc := ⟨by decide⟩

/-- The first process forks a child and kills it. -/
def childRun : List (Event nproc) :=
  [.schedule 0, .usertrap 0 (.syscall (.fork ⟨true, true, true⟩)),
    .usertrap 0 (.syscall (.kill 2))]

theorem kill_exact_child : ∃ t, run stepCall (boot nproc) childRun = .ok t ∧
    (t.proc 1).state ≠ .unused ∧ (t.proc 1).killed = true ∧
    Blamed t.hist 1 (t.proc 1).pid := by
  have hrun : (run stepCall (boot nproc) childRun).check
      (fun t => (t.proc 1).state ≠ .unused ∧ (t.proc 1).killed = true) = true := by
    decide +kernel
  obtain ⟨t, ht, htest⟩ := Outcome.exists_of_check hrun
  obtain ⟨huse, hk⟩ := of_decide_eq_true htest
  exact ⟨t, ht, huse, hk, (kill_exact (reach_of_run .refl (by decide +kernel) ht)).2.1 1 huse hk⟩

/-- The first process calls `kill(0)` and then `fork`. -/
def zeroRun : List (Event nproc) :=
  [.usertrap 0 (.syscall (.kill 0)), .usertrap 0 (.syscall (.fork ⟨true, true, true⟩))]

/-- **`kill(0)` kills a process not yet born**: it returns 0 although no process has pid 0,
and the child forked next starts with `killed` set, for which nothing since its creation
is to blame. -/
theorem kill_zero : ∃ t t', run stepCall (boot nproc) [.schedule 0] = .ok t ∧
    (kill t 0).1 = 0 ∧ ¬ Named t 0 ∧
    run stepCall t zeroRun = .ok t' ∧ (t.proc 1).state = .unused ∧
    (t'.proc 1).state = .runnable ∧ (t'.proc 1).killed = true ∧
    ¬ Blamed t'.hist 1 (t'.proc 1).pid := by
  have hrun : (run stepCall (boot nproc) [.schedule 0]).check (fun t =>
      ((kill t 0).1 = 0 ∧ ¬ Named t 0 ∧ (t.proc 1).state = .unused) ∧
      (run stepCall t zeroRun).check (fun t' => (t'.proc 1).state = .runnable ∧
        (t'.proc 1).killed = true ∧ ¬ Blamed t'.hist 1 (t'.proc 1).pid) = true) = true := by
    decide +kernel
  obtain ⟨t, ht, htest⟩ := Outcome.exists_of_check hrun
  obtain ⟨⟨hzero, hnamed, hun⟩, hrun'⟩ := of_decide_eq_true htest
  obtain ⟨t', ht', htest'⟩ := Outcome.exists_of_check hrun'
  exact ⟨t, t', ht, hzero, hnamed, ht', hun, of_decide_eq_true htest'⟩

end Xv6.Procs.Calls
