import Xv6.Procs.Blocking

/-!
# A kill that is not noticed

A process that blocks tests `killed` and then calls `sleep`.  It holds the lock of what it waits
for at the test, and that lock keeps every `wakeup` away until the process is asleep.  But
`kill` does not take it: it takes only `p->lock`, which `sleep` acquires after the test.  Where
`kill` comes in between, it finds a process that is not asleep, sets `killed` and returns 0, and
the process goes to sleep all the same.

## Main definitions

* `Code.window` — the code between a test of `killed` and the end of the `sleep` it guards.
* `Timely` — a step that is no `p->killed = 1` for a process in that window.
* `Inv` — what every step keeps, as long as kills are timely.

## Main results

* `kill_noticed` — where every kill is timely, no process that was killed is asleep before it
  has tested `killed` again.
* `kill_unnoticed` — a run in which `kill` returns 0 and its target goes to sleep in `piperead`.
-/

namespace Xv6.Procs.Blocking

variable {N M : ℕ}

/-! ### What the code ahead does -/

/-- The process has found `killed` clear, and goes to sleep before it tests it again. -/
def Code.window : Code N → Bool
  | .acquire _ k | .release _ k | .wakeup _ _ _ k | .wakeupTest _ _ _ k | .setChan _ k => k.window
  | .setSleeping _ => true
  | _ => false

/-- The slot whose lock is held, in the code of `kill`, `wait` and `fork` that works on a slot. -/
def Code.slot : Code N → Option (Fin N)
  | .killTest _ q | .killMark q | .killState q | .killDone q => some q
  | .waitKid _ q => some q
  | .forkTest _ q | .forkCopy _ q | .forkRun q _ => some q
  | _ => none

/-- The slot a `kill` has marked already. -/
def Code.marked : Code N → Option (Fin N)
  | .killState q | .killDone q => some q
  | _ => none

/-- Code that works on a slot is reached only through its lock, and what follows a `sleep` is
outside the window. -/
def Code.Fine : Code N → Prop
  | .acquire lk k => (∀ q, k.slot = some q → lk = .proc q) ∧ k.marked = none ∧ k.Fine
  | .release _ k | .wakeup _ _ _ k | .wakeupTest _ _ _ k | .setChan _ k | .setSleeping k =>
    k.slot = none ∧ k.Fine
  | .sched k | .parked k => k.slot = none ∧ k.window = false ∧ k.Fine
  | _ => True

/-- The slot whose `killed` is set next. -/
def Code.victim : Code N → Option (Fin N)
  | .killMark q => some q
  | _ => none

/-- The slot whose `killed` a step sets. -/
def State.victim (s : State N M) : Event N M → Option (Fin N)
  | .act x => (s.pc x).victim
  | _ => none

/-- The step is no `p->killed = 1` for a process between its test of `killed` and the `sleep`
that follows. -/
def Timely (s : State N M) (e : Event N M) : Prop :=
  ∀ q ∈ s.victim e, (s.pc (.inl q)).window = false

instance (s : State N M) (e : Event N M) : Decidable (Timely s e) :=
  inferInstanceAs (Decidable (∀ q ∈ s.victim e, (s.pc (.inl q)).window = false))

/-! ### The invariant -/

/-- What every step keeps. -/
structure Inv (s : State N M) : Prop where
  fine : ∀ x, (s.pc x).Fine
  slot : ∀ x q, (s.pc x).slot = some q → s.lock (.proc q) = some x
  aware : ∀ p, (s.proc p).killed = true → (s.pc (.inl p)).window = false
  marked : ∀ x q, (s.pc x).marked = some q → (s.proc q).killed = true
  done : ∀ x q, s.pc x = .killDone q → (s.proc q).state ≠ .sleeping
  due : ∀ p, s.due p = true → (s.proc p).killed = true ∧ (s.proc p).state ≠ .sleeping

/-- Code an actor may go on with. -/
structure Fits (s : State N M) (x : Actor N M) (k : Code N) : Prop where
  fine : k.Fine
  slot : ∀ q, k.slot = some q → s.lock (.proc q) = some x
  aware : ∀ p, x = .inl p → (s.proc p).killed = true → k.window = false
  marked : ∀ q, k.marked = some q → (s.proc q).killed = true
  done : ∀ q, k = .killDone q → (s.proc q).state ≠ .sleeping

theorem Fits.of_marked {s : State N M} {x : Actor N M} {k : Code N} (hf : k.Fine)
    (hs : ∀ q, k.slot = some q → s.lock (.proc q) = some x) (hm : k.marked = none)
    (hw : ∀ p, x = .inl p → (s.proc p).killed = true → k.window = false) : Fits s x k where
  fine := hf
  slot := hs
  aware := hw
  marked q hq := by rw [hm] at hq; cases hq
  done q hq := by subst hq; cases hm

theorem Code.slot_of_marked {k : Code N} {q : Fin N} (h : k.marked = some q) :
    k.slot = some q := by
  cases k <;> first | exact h | cases h

theorem Code.marked_of_slot {k : Code N} (h : k.slot = none) : k.marked = none := by
  cases k <;> first | rfl | cases h

/-- Code that works on no slot, and keeps out of the window or stays in it. -/
theorem Fits.of_slot {s : State N M} {x : Actor N M} {k : Code N} (hf : k.Fine)
    (hs : k.slot = none)
    (hw : ∀ p, x = .inl p → (s.proc p).killed = true → k.window = false) : Fits s x k :=
  .of_marked hf (fun q hq => by rw [hs] at hq; cases hq) (Code.marked_of_slot hs) hw

/-- Code that works on no slot and is outside the window. -/
structure Code.Plain (k : Code N) : Prop where
  fine : k.Fine
  slot : k.slot = none
  window : k.window = false

theorem plain_ret (lk : Lock N) (a0 : ℤ) : (ret lk a0).Plain := ⟨⟨rfl, trivial⟩, rfl, rfl⟩

theorem plain_release {k : Code N} (hk : k.Plain) (lk : Lock N) : (Code.release lk k).Plain :=
  ⟨⟨hk.slot, hk.fine⟩, rfl, hk.window⟩

theorem plain_wakeup {k : Code N} (hk : k.Plain) (me : Option (Fin N)) (chan : Chan N) (q : ℕ) :
    (Code.wakeup me chan q k).Plain :=
  ⟨⟨hk.slot, hk.fine⟩, rfl, hk.window⟩

theorem plain_acquire {k : Code N} {lk : Lock N} (hk : k.Fine) (hm : k.marked = none)
    (hw : k.window = false) (hs : ∀ q, k.slot = some q → lk = .proc q) :
    (Code.acquire lk k).Plain :=
  ⟨⟨hs, hm, hk⟩, rfl, hw⟩

theorem fine_sleep {k : Code N} (hk : k.Plain) (p : Fin N) (chan : Chan N) (lk : Lock N) :
    (sleep p chan lk k).Fine := by
  have hend : (Code.acquire lk k).Fine :=
    ⟨fun q hq => (by rw [hk.slot] at hq; cases hq), Code.marked_of_slot hk.slot, hk.fine⟩
  have hsched : (Code.sched (.setChan .null (.release (.proc p) (.acquire lk k)))).Fine :=
    ⟨rfl, hk.window, rfl, rfl, hend⟩
  exact ⟨fun _ hq => (nomatch hq), rfl, rfl, rfl, rfl, hsched⟩

namespace Inv

variable {s : State N M} {x : Actor N M} {q : Fin N} {k : Code N} (h : Inv s)
include h

theorem goto (hk : Fits s x k) : Inv (s.goto x k) where
  fine y := by
    rcases eq_or_ne y x with rfl | hy
    · simpa [State.goto] using hk.fine
    · simpa [State.goto, hy] using h.fine y
  slot y q hq := by
    rcases eq_or_ne y x with rfl | hy
    · exact hk.slot q (by simpa [State.goto] using hq)
    · exact h.slot y q (by simpa [State.goto, hy] using hq)
  aware p hp := by
    by_cases hx : Sum.inl p = x
    · subst hx
      simpa [State.goto] using hk.aware p rfl hp
    · simpa [State.goto, hx] using h.aware p hp
  marked y q hq := by
    rcases eq_or_ne y x with rfl | hy
    · exact hk.marked q (by simpa [State.goto] using hq)
    · exact h.marked y q (by simpa [State.goto, hy] using hq)
  done y q hq := by
    rcases eq_or_ne y x with rfl | hy
    · exact hk.done q (by simpa [State.goto] using hq)
    · exact h.done y q (by simpa [State.goto, hy] using hq)
  due := h.due

theorem congr {t : State N M} (hproc : t.proc = s.proc) (hlock : t.lock = s.lock)
    (hpc : t.pc = s.pc) (hdue : t.due = s.due) : Inv t := by
  obtain ⟨h1, h2, h3, h4, h5, h6⟩ := h
  constructor <;> simpa only [hproc, hlock, hpc, hdue]

theorem setPipe (a : ℕ) (x : Pipes.Pipe) : Inv (s.setPipe a x) :=
  h.congr rfl rfl rfl rfl

theorem clearDue (q : Fin N) : Inv (s.setDue q false) where
  fine := h.fine
  slot := h.slot
  aware := h.aware
  marked := h.marked
  done := h.done
  due p hp := by
    rcases eq_or_ne p q with rfl | hne
    · simp [State.setDue] at hp
    · exact h.due p (by simpa [State.setDue, hne] using hp)

/-- An assignment to a process that leaves `killed` alone and puts no one to sleep. -/
theorem setProc (q : Fin N) {f : Proc N → Proc N} (hk : (f (s.proc q)).killed = (s.proc q).killed)
    (hst : (f (s.proc q)).state = .sleeping → (s.proc q).state = .sleeping) :
    Inv (s.setProc q f) := by
  have hkilled : ∀ p, ((s.setProc q f).proc p).killed = (s.proc p).killed := by
    intro p
    rcases eq_or_ne p q with rfl | hne
    · simpa [State.setProc] using hk
    · simp [State.setProc, hne]
  have hstate : ∀ p, ((s.setProc q f).proc p).state = .sleeping → (s.proc p).state = .sleeping := by
    intro p
    rcases eq_or_ne p q with rfl | hne
    · simpa [State.setProc] using hst
    · simp [State.setProc, hne]
  exact {
    fine := h.fine
    slot := h.slot
    aware := fun p hp => h.aware p (hkilled p ▸ hp)
    marked := fun x p hx => (hkilled p).trans (h.marked x p hx)
    done := fun x p hx => mt (hstate p) (h.done x p hx)
    due := fun p hp => ⟨(hkilled p).trans (h.due p hp).1, mt (hstate p) (h.due p hp).2⟩ }

theorem setSleeping (hq : (s.proc q).killed = false) :
    Inv (s.setProc q fun x => { x with state := .sleeping }) := by
  have hkilled : ∀ p, ((s.setProc q fun x => { x with state := .sleeping }).proc p).killed =
      (s.proc p).killed := by
    intro p
    rcases eq_or_ne p q with rfl | hne
    · simp [State.setProc]
    · simp [State.setProc, hne]
  have hstate : ∀ p, (s.proc p).killed = true ∧ (s.proc p).state ≠ .sleeping →
      ((s.setProc q fun x => { x with state := .sleeping }).proc p).killed = true ∧
        ((s.setProc q fun x => { x with state := .sleeping }).proc p).state ≠ .sleeping := by
    rintro p ⟨hp, hst⟩
    have hne : p ≠ q := by
      rintro rfl
      rw [hq] at hp
      cases hp
    simpa [State.setProc, hne] using ⟨hp, hst⟩
  exact {
    fine := h.fine
    slot := h.slot
    aware := fun p hp => h.aware p (hkilled p ▸ hp)
    marked := fun x p hx => (hkilled p).trans (h.marked x p hx)
    done := fun x p hx => (hstate p ⟨h.marked x p (congrArg Code.marked hx), h.done x p hx⟩).2
    due := fun p hp => hstate p (h.due p hp) }

theorem mark (hq : (s.pc (.inl q)).window = false) :
    Inv (s.setProc q fun x => { x with killed := true }) := by
  have hkilled : ∀ p, (s.proc p).killed = true →
      ((s.setProc q fun x => { x with killed := true }).proc p).killed = true := by
    intro p hp
    rcases eq_or_ne p q with rfl | hne
    · simp [State.setProc]
    · simpa [State.setProc, hne] using hp
  have hstate : ∀ p, ((s.setProc q fun x => { x with killed := true }).proc p).state =
      (s.proc p).state := by
    intro p
    rcases eq_or_ne p q with rfl | hne
    · simp [State.setProc]
    · simp [State.setProc, hne]
  refine { fine := h.fine, slot := h.slot, aware := fun p hp => ?_,
           marked := fun x p hx => hkilled p (h.marked x p hx),
           done := fun x p hx => (hstate p).symm ▸ h.done x p hx,
           due := fun p hp => ⟨hkilled p (h.due p hp).1, (hstate p).symm ▸ (h.due p hp).2⟩ }
  rcases eq_or_ne p q with rfl | hne
  · exact hq
  · exact h.aware p (by simpa [State.setProc, hne] using hp)

/-- `freeproc`, by an actor that holds the lock of the slot and is not in `kill`. -/
theorem freeproc (hl : s.lock (.proc q) = some x) (hx : (s.pc x).marked = none) :
    Inv (s.freeproc q) := by
  -- whoever is in `kill` holds the lock of the slot it works on, so that is another slot
  have other : ∀ y p, (s.pc y).marked = some p → p ≠ q := by
    rintro y p hy rfl
    have hy' : s.lock (.proc p) = some y := h.slot y p (Code.slot_of_marked hy)
    obtain rfl : y = x := Option.some.inj (hy'.symm.trans hl)
    rw [hx] at hy
    cases hy
  have hproc : ∀ p, p ≠ q → (s.freeproc q).proc p = s.proc p := by
    intro p hp
    simp [State.freeproc, State.setProc, State.setDue, hp]
  refine { fine := h.fine, slot := h.slot, aware := fun p hp => ?_, marked := fun y p hy => ?_,
           done := fun y p hy => ?_, due := fun p hp => ?_ }
  · rcases eq_or_ne p q with rfl | hne
    · simp [State.freeproc, State.setProc, State.setDue] at hp
    · rw [hproc p hne] at hp
      exact h.aware p hp
  · rw [hproc p (other y p hy)]
    exact h.marked y p hy
  · rw [hproc p (other y p (congrArg Code.marked hy))]
    exact h.done y p hy
  · rcases eq_or_ne p q with rfl | hne
    · simp [State.freeproc, State.setDue] at hp
    · rw [hproc p hne]
      exact h.due p (by simpa [State.freeproc, State.setDue, State.setProc, hne] using hp)

theorem setLock {lk : Lock N} (y : Option (Actor N M))
    (hl : ∀ x q, (s.pc x).slot = some q → lk ≠ .proc q) : Inv (s.setLock lk y) :=
  { h with
    slot := fun x q hq => by
      have hne : Lock.proc q ≠ lk := (hl x q hq).symm
      simpa [State.setLock, hne] using h.slot x q hq }

theorem plain (hk : k.Plain) : Inv (s.goto x k) :=
  h.goto (.of_slot hk.fine hk.slot fun _ _ _ => hk.window)

end Inv

/-! ### Locks, `sleep` and `wakeup` -/

section Steps

variable {s t : State N M} {x : Actor N M} {p : Fin N} {k : Code N}
  {q : Fin N} {lk : Lock N} {chan : Chan N} (h : Inv s)
include h

/-- What an actor goes on with after a step is as deep in the window as before. -/
theorem Inv.aware_of_eq {c : Code N} (hx : s.pc x = c) (hw : k.window = c.window) :
    ∀ p, x = .inl p → (s.proc p).killed = true → k.window = false := by
  rintro p rfl hp
  rw [hw, ← hx]
  exact h.aware p hp

theorem Inv.acquire (hx : s.pc x = .acquire lk k) (ht : acquire s x lk k = .ok t) : Inv t := by
  have hf : (Code.acquire lk k).Fine := hx ▸ h.fine x
  unfold Blocking.acquire at ht
  split at ht
  · next hl =>
    obtain rfl := Outcome.ok.inj ht
    have hfree : ∀ y q, (s.pc y).slot = some q → lk ≠ .proc q := by
      rintro y q hy rfl
      rw [h.slot y q hy] at hl
      cases hl
    refine (h.setLock _ hfree).goto (.of_marked hf.2.2 (fun q hq => ?_) hf.2.1 ?_)
    · simp [State.setLock, hf.1 q hq]
    · exact h.aware_of_eq hx rfl
  · next y hl => split at ht <;> cases ht

/-- A `release`, by code that goes on outside of any slot. -/
theorem Inv.release (hk : Fits s x k) (hs : k.slot = none) (ht : release s x lk k = .ok t) :
    Inv t := by
  unfold Blocking.release at ht
  split at ht
  · next hl =>
    obtain rfl := Outcome.ok.inj ht
    refine (h.goto hk).setLock none ?_
    rintro y q hy rfl
    -- only the holder of the lock of a slot works on it, and the holder has moved on
    have hy' : s.lock (.proc q) = some y := (h.goto hk).slot y q hy
    obtain rfl : y = x := Option.some.inj (hy'.symm.trans hl)
    simp [State.goto, hs] at hy
  · cases ht

theorem Inv.wakeup {me : Option (Fin N)} {q : ℕ} (hx : s.pc x = .wakeup me chan q k) :
    Inv (wakeup s x me chan q k) := by
  have hf : (Code.wakeup me chan q k).Fine := hx ▸ h.fine x
  unfold Blocking.wakeup
  split_ifs
  · exact h.goto (.of_slot hf rfl (h.aware_of_eq hx rfl))
  · exact h.goto (.of_slot ⟨fun _ hq => (nomatch hq), rfl, hf⟩ rfl (h.aware_of_eq hx rfl))
  · exact h.goto (.of_slot hf.2 hf.1 (h.aware_of_eq hx rfl))

theorem Inv.wakeupTest {me : Option (Fin N)} (hx : s.pc x = .wakeupTest me chan q k) :
    Inv (wakeupTest s x me chan q k) := by
  have hf : (Code.wakeupTest me chan q k).Fine := hx ▸ h.fine x
  have hproc : Inv (s.setProc q (·.wakeup chan)) := by
    refine h.setProc q (Proc.wakeup_killed _ _) ?_
    unfold Proc.wakeup
    split_ifs
    · intro hst
      cases hst
    · exact id
  exact hproc.goto (.of_slot ⟨rfl, hf⟩ rfl (hproc.aware_of_eq hx rfl))

/-- A test of `killed` leads into the window only where `killed` is clear. -/
theorem Inv.testKilled {yes no : Code N} (hyes : yes.Plain) (hno : no.Fine)
    (hslot : no.slot = none) : Inv (testKilled s p yes no) := by
  refine (h.clearDue p).goto ?_
  split_ifs with hp
  · exact .of_slot hyes.fine hyes.slot fun _ _ _ => hyes.window
  · refine .of_slot hno hslot fun q hq hk => ?_
    obtain rfl := Sum.inl.inj hq
    exact absurd hk hp

/-! ### The calls -/

theorem Inv.readTest (a : ℕ) (r : Pipes.Read) : Inv (readTest s p a r) := by
  unfold Blocking.readTest
  split_ifs
  · exact h.plain ⟨trivial, rfl, rfl⟩
  · exact h.plain ⟨trivial, rfl, rfl⟩

theorem Inv.readKilled (a : ℕ) (r : Pipes.Read) : Inv (readKilled s p a r) :=
  h.testKilled (plain_ret _ _) (fine_sleep (k := .readTest a r) ⟨trivial, rfl, rfl⟩ _ _ _) rfl

theorem Inv.readEnd (a i : ℕ) : Inv (readEnd s p a i) :=
  h.plain (plain_wakeup (plain_ret _ _) _ _ _)

theorem Inv.readCopy (a : ℕ) (r : Pipes.Read) (i : ℕ) : Inv (readCopy s p a r i) := by
  unfold Blocking.readCopy
  split
  · dsimp only
    split
    · exact (h.setPipe a _).plain ⟨trivial, rfl, rfl⟩
    · exact (h.setPipe a _).readEnd a i
  · exact h.readEnd a i

theorem Inv.writeEnd (a i : ℕ) : Inv (writeEnd s p a i) :=
  h.plain (plain_wakeup (plain_ret _ _) _ _ _)

theorem Inv.writeTest (a : ℕ) (w : Pipes.Write) (i : ℕ) : Inv (writeTest s p a w i) := by
  unfold Blocking.writeTest
  split_ifs
  · exact h.plain (plain_ret _ _)
  · exact h.plain ⟨trivial, rfl, rfl⟩
  · exact h.writeEnd a i

theorem Inv.writeKilled (a : ℕ) (w : Pipes.Write) (i : ℕ) : Inv (writeKilled s p a w i) := by
  have hdue : Inv (s.setDue p false) := h.clearDue p
  unfold Blocking.writeKilled
  dsimp only
  split
  · exact hdue.plain (plain_ret _ _)
  rename_i hp
  split
  · -- the pipe is full: the window starts here, and lasts through the whole `wakeup`
    refine hdue.goto (.of_slot ⟨rfl, fine_sleep (k := .writeTest a w i) ⟨trivial, rfl, rfl⟩ _ _ _⟩
      rfl fun q hq hk => ?_)
    obtain rfl := Sum.inl.inj hq
    exact absurd hk hp
  · split
    · exact hdue.writeEnd a i
    · exact (hdue.setPipe a _).plain ⟨trivial, rfl, rfl⟩

theorem Inv.closeEnd (a : ℕ) (writable : Bool) : Inv (closeEnd s p a writable) := by
  unfold Blocking.closeEnd
  split_ifs
  · exact (h.setPipe a _).plain (plain_wakeup (plain_ret _ _) _ _ _)
  · exact (h.setPipe a _).plain (plain_wakeup (plain_ret _ _) _ _ _)

theorem Inv.setCons (c : Console.Cons) : Inv { s with cons := c } :=
  h.congr rfl rfl rfl rfl

theorem Inv.consTest (n target : ℤ) (writable : ℕ → Bool) :
    Inv (consTest s p n target writable) := by
  unfold Blocking.consTest
  split_ifs
  · exact h.plain ⟨trivial, rfl, rfl⟩
  · exact h.plain ⟨trivial, rfl, rfl⟩
  · exact h.plain (plain_ret _ _)

theorem Inv.consKilled (n target : ℤ) (writable : ℕ → Bool) :
    Inv (consKilled s p n target writable) :=
  h.testKilled (plain_ret _ _) (fine_sleep (k := .consTest n target writable) ⟨trivial, rfl, rfl⟩
    _ _ _) rfl

theorem Inv.consTake (n target : ℤ) (writable : ℕ → Bool) :
    Inv (consTake s p n target writable) := by
  unfold Blocking.consTake
  dsimp only
  split_ifs
  · exact (h.setCons _).plain (plain_ret _ _)
  · exact (h.setCons _).plain (plain_ret _ _)
  · exact (h.setCons _).plain (plain_ret _ _)
  · exact (h.setCons _).plain (plain_ret _ _)
  · exact (h.setCons _).plain ⟨trivial, rfl, rfl⟩

theorem Inv.waitScan (stored : Bool) (q : ℕ) (havekids : Bool) :
    Inv (waitScan s p stored q havekids) := by
  unfold Blocking.waitScan
  split_ifs
  · exact h.plain (plain_acquire trivial rfl rfl fun _ hq => by rw [Option.some.inj hq])
  · exact h.plain ⟨trivial, rfl, rfl⟩
  · exact h.plain ⟨trivial, rfl, rfl⟩

theorem Inv.waitKid {stored : Bool} (hx : s.pc (.inl p) = .waitKid stored q) :
    Inv (waitKid s p stored q) := by
  unfold Blocking.waitKid
  split_ifs
  · have hl : s.lock (.proc q) = some (.inl p) := h.slot _ q (by rw [hx]; rfl)
    exact (h.freeproc hl (by rw [hx]; rfl)).plain (plain_release (plain_ret _ _) _)
  · exact h.plain (plain_release (plain_ret _ _) _)
  · exact h.plain ⟨⟨rfl, trivial⟩, rfl, rfl⟩

theorem Inv.waitKilled (stored havekids : Bool) : Inv (waitKilled s p stored havekids) := by
  unfold Blocking.waitKilled
  split_ifs
  · exact h.testKilled (plain_ret _ _)
      (fine_sleep (k := .waitScan stored 0 false) ⟨trivial, rfl, rfl⟩ _ _ _) rfl
  · exact h.plain (plain_ret _ _)

theorem Inv.ticksTest (n ticks0 : BitVec 32) : Inv (ticksTest s p n ticks0) := by
  unfold Blocking.ticksTest
  split_ifs
  · exact h.plain ⟨trivial, rfl, rfl⟩
  · exact h.plain (plain_ret _ _)

theorem Inv.ticksKilled (n ticks0 : BitVec 32) : Inv (ticksKilled s p n ticks0) :=
  h.testKilled (plain_ret _ _) (fine_sleep (k := .ticksTest n ticks0) ⟨trivial, rfl, rfl⟩ _ _ _) rfl

/-! ### `kill` -/

theorem Inv.killNext (pid : BitVec 32) (q : ℕ) : Inv (killNext s p pid q) := by
  unfold Blocking.killNext
  split_ifs
  · exact h.plain (plain_acquire trivial rfl rfl fun _ hq => by rw [Option.some.inj hq])
  · exact h.plain ⟨trivial, rfl, rfl⟩

theorem Inv.killTest {pid : BitVec 32} (hx : s.pc (.inl p) = .killTest pid q) :
    Inv (killTest s p pid q) := by
  have hl : s.lock (.proc q) = some (.inl p) := h.slot _ q (by rw [hx]; rfl)
  unfold Blocking.killTest
  split_ifs
  · refine h.goto (.of_marked trivial (fun q' hq => ?_) rfl fun _ _ _ => rfl)
    obtain rfl := Option.some.inj hq
    exact hl
  · exact h.plain ⟨⟨rfl, trivial⟩, rfl, rfl⟩

/-- Here the kill must be timely. -/
theorem Inv.killMark (hx : s.pc (.inl p) = .killMark q) (hq : (s.pc (.inl q)).window = false) :
    Inv (killMark s p q) := by
  have hl : s.lock (.proc q) = some (.inl p) := h.slot _ q (by rw [hx]; rfl)
  refine (h.mark hq).goto ⟨trivial, fun q' hq' => ?_, fun _ _ _ => rfl, fun q' hq' => ?_,
    fun q' hq' => nomatch hq'⟩
  · obtain rfl := Option.some.inj hq'
    exact hl
  · obtain rfl := Option.some.inj hq'
    simp [State.setProc]

theorem Inv.killState (hx : s.pc (.inl p) = .killState q) : Inv (killState s p q) := by
  have hl : s.lock (.proc q) = some (.inl p) := h.slot _ q (by rw [hx]; rfl)
  have hk : (s.proc q).killed = true := h.marked _ q (by rw [hx]; rfl)
  have hproc : Inv (s.setProc q fun x =>
      if x.state = .sleeping then { x with state := .runnable } else x) := by
    refine h.setProc q ?_ ?_
    · split_ifs <;> rfl
    · split_ifs
      · intro hst
        cases hst
      · exact id
  refine hproc.goto ⟨trivial, fun q' hq' => ?_, fun _ _ _ => rfl, fun q' hq' => ?_,
    fun q' hq' => ?_⟩
  · obtain rfl := Option.some.inj hq'
    exact hl
  · obtain rfl := Option.some.inj hq'
    simp only [State.setProc, Function.update_self]
    split_ifs <;> exact hk
  · obtain rfl := Code.killDone.inj hq'
    simp only [State.setProc, Function.update_self]
    split_ifs with hst
    · exact fun hc => nomatch hc
    · exact hst

theorem Inv.killDone (hx : s.pc (.inl p) = .killDone q) (ht : killDone s p q = .ok t) : Inv t := by
  have hdue : Inv (s.setDue q true) :=
    { h with
      due := fun r hr => by
        rcases eq_or_ne r q with rfl | hne
        · exact ⟨h.marked _ r (by rw [hx]; rfl), h.done _ r hx⟩
        · exact h.due r (by simpa [State.setDue, hne] using hr) }
  exact hdue.release (.of_slot (k := .leave 0) trivial rfl fun _ _ _ => rfl) rfl ht

/-! ### `exit` and `fork` -/

theorem Inv.exit {status : BitVec 32} (ht : exit s p status = .ok t) : Inv t := by
  unfold Blocking.exit at ht
  split_ifs at ht
  obtain rfl := Outcome.ok.inj ht
  exact h.plain (plain_acquire trivial rfl rfl fun _ hq => nomatch hq)

theorem Inv.reparent (status : BitVec 32) (q : ℕ) : Inv (reparent s p status q) := by
  unfold Blocking.reparent
  split_ifs
  · exact (h.setProc _ rfl id).plain
      (plain_wakeup (k := .reparent status (q + 1)) ⟨trivial, rfl, rfl⟩ _ _ _)
  · exact h.plain ⟨trivial, rfl, rfl⟩
  · exact h.plain (plain_wakeup (plain_acquire (k := .exitSet status) trivial rfl rfl
      fun _ hq => nomatch hq) _ _ _)

theorem Inv.exitSet (status : BitVec 32) : Inv (exitSet s p status) := by
  have hproc : Inv (s.setProc p fun x => { x with xstate := status, state := .zombie }) :=
    h.setProc p rfl fun hst => nomatch hst
  exact hproc.plain ⟨⟨rfl, rfl, rfl, trivial⟩, rfl, rfl⟩

theorem Inv.forkNext (mem : Mem) (q : ℕ) : Inv (forkNext s p mem q) := by
  unfold Blocking.forkNext
  split_ifs
  · exact h.plain (plain_acquire trivial rfl rfl fun _ hq => by rw [Option.some.inj hq])
  · exact h.plain ⟨trivial, rfl, rfl⟩

theorem Inv.forkTest {mem : Mem} (hx : s.pc (.inl p) = .forkTest mem q) :
    Inv (forkTest s p mem q) := by
  have hl : s.lock (.proc q) = some (.inl p) := h.slot _ q (by rw [hx]; rfl)
  unfold Blocking.forkTest
  split_ifs
  · have hproc : Inv { s.setProc q (·.alloc s.nextpid) with nextpid := s.nextpid + 1 } :=
      (h.setProc q (f := (·.alloc s.nextpid)) rfl fun hst => nomatch hst).congr rfl rfl rfl rfl
    refine hproc.goto (.of_marked trivial (fun q' hq => ?_) rfl fun _ _ _ => rfl)
    obtain rfl := Option.some.inj hq
    exact hl
  · exact h.plain ⟨⟨rfl, trivial⟩, rfl, rfl⟩

theorem Inv.forkCopy {mem : Mem} (hx : s.pc (.inl p) = .forkCopy mem q) :
    Inv (forkCopy s p mem q) := by
  have hl : s.lock (.proc q) = some (.inl p) := h.slot _ q (by rw [hx]; rfl)
  unfold Blocking.forkCopy
  split_ifs
  · exact h.plain (plain_release (plain_acquire (k := .forkParent q (s.proc q).pid) trivial rfl rfl
      fun _ hq => nomatch hq) _)
  · exact (h.freeproc hl (by rw [hx]; rfl)).plain ⟨⟨rfl, trivial⟩, rfl, rfl⟩

theorem Inv.forkParent (q : Fin N) (pid : BitVec 32) : Inv (forkParent s p q pid) :=
  (h.setProc q rfl id).plain
    (plain_release (plain_acquire (k := .forkRun q pid) trivial rfl rfl
      fun _ hq => by rw [Option.some.inj hq]) _)

theorem Inv.forkRun (q : Fin N) (pid : BitVec 32) : Inv (forkRun s p q pid) := by
  have hproc : Inv (s.setProc q fun x => { x with state := .runnable }) :=
    h.setProc q rfl fun hst => nomatch hst
  have hchild := hproc.plain (x := .inl q) (k := .user 0) ⟨trivial, rfl, rfl⟩
  exact hchild.plain ⟨⟨rfl, trivial⟩, rfl, rfl⟩

/-! ### Steps and runs -/

theorem Inv.call {c : Call} (ht : call s p c = .ok t) : Inv t := by
  have start : ∀ (lk : Lock N) (k : Code N), k.Plain → Inv (s.goto (.inl p) (.acquire lk k)) :=
    fun lk k hk => h.plain (plain_acquire hk.fine (Code.marked_of_slot hk.slot) hk.window
      fun q hq => by rw [hk.slot] at hq; cases hq)
  cases c with
  | piperead a r => exact Outcome.ok.inj ht ▸ start _ _ ⟨trivial, rfl, rfl⟩
  | pipewrite a w => exact Outcome.ok.inj ht ▸ start _ _ ⟨trivial, rfl, rfl⟩
  | pipeclose a writable => exact Outcome.ok.inj ht ▸ start _ _ ⟨trivial, rfl, rfl⟩
  | consoleread n writable => exact Outcome.ok.inj ht ▸ start _ _ ⟨trivial, rfl, rfl⟩
  | wait stored => exact Outcome.ok.inj ht ▸ start _ _ ⟨trivial, rfl, rfl⟩
  | sleep n => exact Outcome.ok.inj ht ▸ start _ _ ⟨trivial, rfl, rfl⟩
  | kill pid => exact Outcome.ok.inj ht ▸ h.plain ⟨trivial, rfl, rfl⟩
  | fork mem => exact Outcome.ok.inj ht ▸ h.plain ⟨trivial, rfl, rfl⟩
  | exit status => exact h.exit ht

theorem Inv.enter {c : Call} (ht : enter s p c = .ok t) : Inv t := by
  unfold Blocking.enter at ht
  split_ifs at ht
  · exact (h.clearDue p).exit ht
  · exact (h.clearDue p).call ht

theorem Inv.leave {a0 : ℤ} (ht : leave s p a0 = .ok t) : Inv t := by
  unfold Blocking.leave at ht
  split_ifs at ht
  · exact (h.clearDue p).exit ht
  · exact Outcome.ok.inj ht ▸ (h.clearDue p).plain ⟨trivial, rfl, rfl⟩

theorem Inv.setChan (hx : s.pc (.inl p) = .setChan chan k) :
    Inv ((s.setProc p fun x => { x with chan := chan }).goto (.inl p) k) := by
  have hf : (Code.setChan chan k).Fine := hx ▸ h.fine (.inl p)
  have hproc : Inv (s.setProc p fun x => { x with chan := chan }) := h.setProc p rfl id
  exact hproc.goto (.of_slot hf.2 hf.1 (hproc.aware_of_eq hx rfl))

/-- A process that goes to sleep is in the window, so it was not killed. -/
theorem Inv.goSleeping (hx : s.pc (.inl p) = .setSleeping k) :
    Inv ((s.setProc p fun x => { x with state := .sleeping }).goto (.inl p) k) := by
  have hf : (Code.setSleeping k).Fine := hx ▸ h.fine (.inl p)
  have hp : (s.proc p).killed = false := by
    by_contra hk
    have hw := h.aware p (by simpa using hk)
    rw [hx] at hw
    cases hw
  refine (h.setSleeping hp).goto (.of_slot hf.2 hf.1 fun q hq hk => ?_)
  obtain rfl := Sum.inl.inj hq
  simp [State.setProc, hp] at hk

theorem Inv.actProc (hx : s.pc (.inl p) = k)
    (hq : ∀ q, k = .killMark q → (s.pc (.inl q)).window = false) (ht : actProc s p k = .ok t) :
    Inv t := by
  cases k with
  | enter c => exact h.enter ht
  | leave a0 => exact h.leave ht
  | setChan chan k => exact Outcome.ok.inj ht ▸ h.setChan hx
  | setSleeping k => exact Outcome.ok.inj ht ▸ h.goSleeping hx
  | readTest a r => exact Outcome.ok.inj ht ▸ h.readTest a r
  | readKilled a r => exact Outcome.ok.inj ht ▸ h.readKilled a r
  | readCopy a r i => exact Outcome.ok.inj ht ▸ h.readCopy a r i
  | writeTest a w i => exact Outcome.ok.inj ht ▸ h.writeTest a w i
  | writeKilled a w i => exact Outcome.ok.inj ht ▸ h.writeKilled a w i
  | closeEnd a writable => exact Outcome.ok.inj ht ▸ h.closeEnd a writable
  | consTest n target writable => exact Outcome.ok.inj ht ▸ h.consTest n target writable
  | consKilled n target writable => exact Outcome.ok.inj ht ▸ h.consKilled n target writable
  | consTake n target writable => exact Outcome.ok.inj ht ▸ h.consTake n target writable
  | waitScan stored q havekids => exact Outcome.ok.inj ht ▸ h.waitScan stored q havekids
  | waitKid stored q => exact Outcome.ok.inj ht ▸ h.waitKid hx
  | waitKilled stored havekids => exact Outcome.ok.inj ht ▸ h.waitKilled stored havekids
  | ticksRead n => exact Outcome.ok.inj ht ▸ h.plain ⟨trivial, rfl, rfl⟩
  | ticksTest n ticks0 => exact Outcome.ok.inj ht ▸ h.ticksTest n ticks0
  | ticksKilled n ticks0 => exact Outcome.ok.inj ht ▸ h.ticksKilled n ticks0
  | killNext pid q => exact Outcome.ok.inj ht ▸ h.killNext pid q
  | killTest pid q => exact Outcome.ok.inj ht ▸ h.killTest hx
  | killMark q => exact Outcome.ok.inj ht ▸ h.killMark hx (hq q rfl)
  | killState q => exact Outcome.ok.inj ht ▸ h.killState hx
  | killDone q => exact h.killDone hx ht
  | reparent status q => exact Outcome.ok.inj ht ▸ h.reparent status q
  | exitSet status => exact Outcome.ok.inj ht ▸ h.exitSet status
  | forkNext mem q => exact Outcome.ok.inj ht ▸ h.forkNext mem q
  | forkTest mem q => exact Outcome.ok.inj ht ▸ h.forkTest hx
  | forkCopy mem q => exact Outcome.ok.inj ht ▸ h.forkCopy hx
  | forkParent q pid => exact Outcome.ok.inj ht ▸ h.forkParent q pid
  | forkRun q pid => exact Outcome.ok.inj ht ▸ h.forkRun q pid
  | user | dead | idle | acquire | release | wakeup | wakeupTest | sched | parked | clockintr
  | consoleintr => cases ht

theorem Inv.actIntr {c : Fin M} (ht : actIntr s c k = .ok t) : Inv t := by
  unfold Blocking.actIntr at ht
  split at ht
  · obtain rfl := Outcome.ok.inj ht
    have hticks : Inv { s with ticks := s.ticks + 1 } := h.congr rfl rfl rfl rfl
    exact hticks.plain (plain_wakeup (plain_release (k := .idle) ⟨trivial, rfl, rfl⟩ _) _ _ _)
  · obtain rfl := Outcome.ok.inj ht
    have hidle : (Code.release .cons .idle : Code N).Plain :=
      plain_release (k := .idle) ⟨trivial, rfl, rfl⟩ _
    refine (h.setCons _).plain ?_
    split
    · exact plain_wakeup hidle _ _ _
    · exact hidle
  · cases ht

theorem Inv.act (hq : ∀ q, s.pc x = .killMark q → (s.pc (.inl q)).window = false)
    (ht : act s x = .ok t) : Inv t := by
  unfold Blocking.act at ht
  split at ht
  · next lk k hx => exact h.acquire hx ht
  · next lk k hx =>
    have hf : (Code.release lk k).Fine := hx ▸ h.fine x
    exact h.release (.of_slot hf.2 hf.1 (h.aware_of_eq hx rfl)) hf.1 ht
  · next me chan q k hx => exact Outcome.ok.inj ht ▸ h.wakeup hx
  · next me chan q k hx => exact Outcome.ok.inj ht ▸ h.wakeupTest hx
  · split at ht
    · next p => exact h.actProc rfl hq ht
    · next c => exact h.actIntr ht

theorem Inv.swtched (ht : swtched s p = .ok t) : Inv t := by
  unfold Blocking.swtched at ht
  split at ht
  · next k hx =>
    have hf : (Code.sched k).Fine := hx ▸ h.fine (.inl p)
    exact h.release (.of_slot (k := .parked k) hf rfl fun _ _ _ => rfl) rfl ht
  · cases ht

theorem Inv.resume (ht : resume s p = .ok t) : Inv t := by
  unfold Blocking.resume at ht
  split at ht
  · next hp =>
    have hrun : Inv (s.setProc p fun x => { x with state := .running }) :=
      h.setProc p rfl fun hst => nomatch hst
    dsimp only at ht
    split at ht
    · next k hx =>
      obtain rfl := Outcome.ok.inj ht
      have hf : (Code.parked k).Fine := hx ▸ h.fine (.inl p)
      have hfree : ∀ y q, (s.pc y).slot = some q → Lock.proc p ≠ .proc q := by
        intro y q hy hpq
        obtain rfl := Lock.proc.inj hpq
        rw [h.slot y p hy] at hp
        cases hp.2
      exact (hrun.setLock _ hfree).plain ⟨hf.2.2, hf.1, hf.2.1⟩
    · exact Outcome.ok.inj ht ▸ hrun
  · cases ht

theorem Inv.preempt (ht : preempt s p = .ok t) : Inv t := by
  unfold Blocking.preempt at ht
  split_ifs at ht
  exact Outcome.ok.inj ht ▸ h.setProc p rfl fun hst => nomatch hst

theorem Inv.intr {c : Fin M} (hk : k.Plain) (ht : intr s c lk k = .ok t) : Inv t := by
  unfold Blocking.intr at ht
  split at ht
  · exact Outcome.ok.inj ht ▸ h.plain (plain_acquire hk.fine (Code.marked_of_slot hk.slot)
      hk.window fun q hq => by rw [hk.slot] at hq; cases hq)
  · cases ht

/-- **One step.** -/
theorem Inv.step {e : Event N M} (hok : Timely s e) (ht : step s e = .ok t) : Inv t := by
  cases e with
  | call p c =>
    simp only [Blocking.step] at ht
    split at ht
    · split_ifs at ht
      exact Outcome.ok.inj ht ▸ h.plain ⟨trivial, rfl, rfl⟩
    · cases ht
  | act x =>
    simp only [Blocking.step] at ht
    split at ht
    · cases ht
    · refine h.act (fun q hq => hok q ?_) ht
      rw [State.victim, hq]
      rfl
  | swtched p => exact h.swtched ht
  | resume p => exact h.resume ht
  | preempt p => exact h.preempt ht
  | clock c me => exact h.intr (k := .clockintr me) ⟨trivial, rfl, rfl⟩ ht
  | uart c me ch => exact h.intr (k := .consoleintr me ch) ⟨trivial, rfl, rfl⟩ ht
  | pipealloc a data =>
    simp only [Blocking.step] at ht
    split_ifs at ht
    exact Outcome.ok.inj ht ▸ h.setPipe a _

end Steps

theorem inv_start [NeZero N] : Inv (start N M) := by
  have hpc : ∀ x, ((start N M).pc x).Plain := by
    rintro (p | c)
    · simp only [start]
      split_ifs
      · exact ⟨trivial, rfl, rfl⟩
      · exact ⟨trivial, rfl, rfl⟩
    · exact ⟨trivial, rfl, rfl⟩
  refine ⟨fun x => (hpc x).fine, fun x q hq => ?_, fun p _ => (hpc _).window, fun x q hq => ?_,
    fun x q hq => ?_, fun p hp => nomatch hp⟩
  · rw [(hpc x).slot] at hq
    cases hq
  · rw [Code.marked_of_slot (hpc x).slot] at hq
    cases hq
  · have hs := (hpc x).slot
    rw [hq] at hs
    cases hs

/-- **No kill is lost, where every kill is timely.**  In every run in which no `kill` sets
`killed` of a process between its test of `killed` and the `sleep` that follows, a process that
was killed is not asleep before it has tested `killed` again. -/
theorem kill_noticed [NeZero N] {s : State N M} (h : Reach step Timely (start N M) s) (p : Fin N)
    (hp : s.due p = true) : (s.proc p).state ≠ .sleeping :=
  ((h.invariant inv_start fun _ _ _ hi hok hs => hi.step hok hs).due p hp).2

/-- The next `n` steps of a process. -/
def acts (p : Fin N) (n : ℕ) : List (Event N M) := List.replicate n (.act (.inl p))

/-- Process 0 forks process 1, which calls `piperead` on an empty pipe and finds `killed`
clear. -/
def forkAndRead : List (Event 2 0) :=
  [.pipealloc 0 fun _ => 0, .call 0 (.fork ⟨true, true, true⟩)] ++ acts 0 17 ++
  [.resume 1, .call 1 (.piperead 0 ⟨1, fun _ => true⟩)] ++ acts 1 4

/-- A process killed while it sleeps is runnable when `kill` returns. -/
theorem kill_noticed_asleep :
    ∃ s : State 2 0, run step (start 2 0)
        (forkAndRead ++ acts 1 4 ++ .swtched 1 :: .call 0 (.kill 2) :: acts 0 12) = .ok s ∧
      s.due 1 = true ∧ (s.proc 1).state ≠ .sleeping := by
  have hp : Permitted step Timely (start 2 0)
      (forkAndRead ++ acts 1 4 ++ .swtched 1 :: .call 0 (.kill 2) :: acts 0 12) := by
    decide +kernel
  have h : ((run step (start 2 0)
      (forkAndRead ++ acts 1 4 ++ .swtched 1 :: .call 0 (.kill 2) :: acts 0 12)).check
        fun s => s.due 1) = true := by
    decide +kernel
  obtain ⟨s, hs, hdue⟩ := Outcome.exists_of_check h
  exact ⟨s, hs, hdue, kill_noticed (reach_of_run .refl hp hs) 1 hdue⟩

/-- What a call returned, once it has. -/
def Code.returned : Code N → Option ℤ
  | .user a0 => some a0
  | _ => none

/-- **A kill is lost.**  Process 0 calls `kill` on process 1 right after process 1 has tested
`killed`.  The call returns 0, and then process 1 goes to sleep until something is written. -/
theorem kill_unnoticed :
    ∃ s : State 2 0, run step (start 2 0)
        (forkAndRead ++ .call 0 (.kill 2) :: acts 0 12 ++ acts 1 4) = .ok s ∧
      (s.pc (.inl 0)).returned = some 0 ∧ s.due 1 = true ∧ (s.proc 1).killed = true ∧
      (s.proc 1).state = .sleeping ∧ (s.proc 1).chan = nread 0 := by
  have h : ((run step (start 2 0)
      (forkAndRead ++ .call 0 (.kill 2) :: acts 0 12 ++ acts 1 4)).check fun s =>
        (s.pc (.inl 0)).returned = some 0 ∧ s.due 1 = true ∧ (s.proc 1).killed = true ∧
        (s.proc 1).state = .sleeping ∧ (s.proc 1).chan = nread 0) = true := by
    decide +kernel
  obtain ⟨s, hs, hc⟩ := Outcome.exists_of_check h
  exact ⟨s, hs, of_decide_eq_true hc⟩

end Xv6.Procs.Blocking
