import Xv6.Intr.Model

/-!
# Interrupts stay off as long as they should

`noff` and `intena` belong to a processor, but say something about the thread that runs on
it: how deep its calls of `push_off` are nested, and whether interrupts were enabled at the
outermost of them.  A thread carries both with it when it changes processors: it does so at
depth one, and `sched` keeps `intena` in a local variable.

## Main definitions

* `Fine` — a processor's fields fit the thread that runs on it.
* `Parked` — a process whose thread does not run can be taken up at depth one.
* `Inv` — both, for all processors and processes.

## Main results

* `Inv.step` — every step keeps it.
* `interrupt_nesting` — what `push_off` and `pop_off` guarantee.
-/

namespace Xv6.Intr

open Function (update update_idem update_of_ne update_self)

variable {M N : ℕ}

/-! ### What a thread's place says -/

namespace Pc

/-- Interrupts may be enabled here. -/
def Open : Pc M N → Prop
  | .code | .loop | .scan _ | .pushGet _ => True
  | .pushOff _ old => old = true
  | _ => False

/-- How a place fits the locks held and the depth of nesting. -/
def Fits (held : List (Lock N)) (nest : ℕ) : Pc M N → Prop
  | .loop | .scan _ => nest = 0
  | .pushGet k | .pushOff k _ | .pushSave k _ | .pushInc k => match k with
    | .acquire (.scheduler _) => nest = 0
    | _ => True
  | .hold u | .spin u | .setCpu u => held.length < nest ∧ match u with
    | .scheduler _ => nest = 1
    | .code _ => True
  | .readProc => held.length < nest
  | .relTest u | .relCpu u | .relLock u => u.lock ∈ held ∧ match u with
    | .scheduler _ => nest = 1
    | .code _ => True
  | .popCpu r | .popTest r _ | .popNoff r _ | .popDec r _ => held.length < nest ∧ match r with
    | .scan _ => nest = 1
    | .code => True
  | .popOn r _ => match r with
    | .scan _ => nest = 0
    | .code => True
  | .schedTest => 0 < nest
  | .schedSave | .schedSwtch _ | .schedBack _ => nest = 1
  | .pick i | .back i => .proc i ∈ held ∧ nest = 1
  | .code => True

/-- The place is in the loop of `scheduler`, or in a function it called. -/
def Base : Pc M N → Prop
  | .loop | .scan _ | .pick _ | .back _ => True
  | .pushGet k | .pushOff k _ | .pushSave k _ | .pushInc k => match k with
    | .acquire (.scheduler _) => True
    | _ => False
  | .hold u | .spin u | .setCpu u | .relTest u | .relCpu u | .relLock u => match u with
    | .scheduler _ => True
    | .code _ => False
  | .popCpu r | .popTest r _ | .popNoff r _ | .popDec r _ | .popOn r _ => match r with
    | .scan _ => True
    | .code => False
  | _ => False

/-- The processor `pop_off` works on is the one it runs on. -/
def On (c : Fin M) : Pc M N → Prop
  | .popTest _ d | .popNoff _ d | .popDec _ d | .popOn _ d => d = c
  | _ => True

/-- What a place says about SIE. -/
def Shuts (sie : Bool) : Pc M N → Prop
  | .pushSave _ _ | .pushInc _ | .popOn _ _ => sie = false
  | .pushOff _ old => sie = old
  | _ => True

/-- Where it is kept whether interrupts were enabled (`b`) at the outermost `push_off`. -/
def Keeps (nest : ℕ) (intena b : Bool) : Pc M N → Prop
  | .pushSave _ old => if nest = 0 then old = b else intena = b
  | .pushInc _ | .popOn _ _ => intena = b
  | .schedSwtch v | .schedBack v => v = b
  | _ => 0 < nest → intena = b

end Pc

/-- A thread is interrupted once at a time, where interrupts are enabled. -/
def Traps (pcs : List (Pc M N)) : Prop :=
  pcs = [] ∨ ∃ pc : Pc M N, pcs = [pc] ∧ pc.Open ∧ pc.Fits [] 0

/-- The fields of processor `c` fit the thread that runs on it. -/
structure Fine (c : Fin M) (x : Cpu N) (t : Thread M N) : Prop where
  noff : x.noff = t.nest
  count : x.noff + x.pops = x.pushes
  le : t.held.length ≤ t.nest
  fits : t.pc.Fits t.held t.nest
  on : t.pc.On c
  traps : Traps t.traps
  base : t.pc.Base → t.traps = []
  off : 0 < t.nest → x.sie = false
  trapped : t.traps ≠ [] → x.sie = false ∧ t.pc.Keeps t.nest x.intena false
  shuts : t.pc.Shuts x.sie
  keeps : x.proc ≠ none → ∀ b, t.entry = some b → t.pc.Keeps t.nest x.intena b
  awake : t.parked = false

theorem Fine.at {c : Fin M} {x : Cpu N} {t : Thread M N} {pc : Pc M N} (h : Fine c x t)
    (hpc : t.pc = pc) : pc.Fits t.held t.nest ∧ pc.On c ∧ (pc.Base → t.traps = []) ∧
      (t.traps ≠ [] → x.sie = false ∧ pc.Keeps t.nest x.intena false) ∧ pc.Shuts x.sie ∧
      (x.proc ≠ none → ∀ b, t.entry = some b → pc.Keeps t.nest x.intena b) := by
  subst hpc
  exact ⟨h.fits, h.on, h.base, h.trapped, h.shuts, h.keeps⟩

/-- A thread that can be taken up at depth one. -/
structure Ready (t : Thread M N) : Prop where
  nest : t.nest = 1
  le : t.held.length ≤ 1
  fits : t.pc.Fits t.held 1
  traps : Traps t.traps

/-- A process whose thread does not run is in `sched`, or about to begin. -/
structure Parked (t : Thread M N) : Prop extends Ready t where
  place : (∃ v, t.pc = .schedBack v ∧ (t.traps ≠ [] → v = false) ∧ ∀ b, t.entry = some b → v = b) ∨
    ∃ i, t.pc = .relTest (.code (.proc i)) ∧ t.entry = none ∧ t.traps = []

/-- A scheduler that has switched to a process. -/
structure Waiting (t : Thread M N) : Prop extends Ready t where
  place : ∃ i, t.pc = .back i
  base : t.traps = []
  awake : t.parked = false

/-- **What is true of all processors and processes.** -/
structure Inv (s : State M N) : Prop where
  fine : ∀ c, Fine c (s.cpu c) (s.thread c)
  parked : ∀ i, (s.proc i).parked = true → Parked (s.proc i)
  waiting : ∀ c, (s.cpu c).proc ≠ none → Waiting (s.scheduler c)
  uniq : ∀ c d i, (s.cpu c).proc = some i → (s.cpu d).proc = some i → c = d

/-! ### Changing the running thread -/

variable {s s' : State M N} {c : Fin M} {x : Cpu N} {t : Thread M N}

theorem cpu_put : (s.put c x t).cpu = update s.cpu c x := by
  unfold State.put
  cases (s.cpu c).proc with
  | none => rfl
  | some i => rfl

theorem thread_put_self (hx : x.proc = (s.cpu c).proc) : (s.put c x t).thread c = t := by
  unfold State.thread
  rw [cpu_put, update_self, hx]
  unfold State.put
  cases (s.cpu c).proc with
  | none => exact update_self ..
  | some i => exact update_self ..

theorem Inv.thread_put_of_ne (h : Inv s) {d : Fin M} (hd : d ≠ c) :
    (s.put c x t).thread d = s.thread d := by
  unfold State.thread
  rw [cpu_put, update_of_ne hd]
  unfold State.put
  cases hc : (s.cpu c).proc with
  | none =>
    cases hd' : (s.cpu d).proc with
    | none => exact update_of_ne hd ..
    | some j => rfl
  | some i =>
    cases hd' : (s.cpu d).proc with
    | none => rfl
    | some j => exact update_of_ne (fun hij : j = i => hd (h.uniq d c i (hij ▸ hd') hc)) ..

/-- **A step of one thread** keeps the invariant if the thread and its processor fit after it. -/
theorem Inv.put (h : Inv s) (hx : x.proc = (s.cpu c).proc) (hf : Fine c x t) :
    Inv (s.put c x t) := by
  have hproc : ∀ d, ((s.put c x t).cpu d).proc = (s.cpu d).proc := by
    intro d
    rw [cpu_put]
    by_cases hd : d = c
    · rw [hd, update_self, hx]
    · rw [update_of_ne hd]
  refine ⟨fun d => ?_, fun i hi => ?_, fun d hd => ?_, fun d d' i hd hd' => ?_⟩
  · by_cases hd : d = c
    · rw [hd, cpu_put, update_self, thread_put_self hx]
      exact hf
    · rw [h.thread_put_of_ne hd, cpu_put, update_of_ne hd]
      exact h.fine d
  · unfold State.put at hi ⊢
    cases hc : (s.cpu c).proc with
    | none =>
      rw [hc] at hi
      exact h.parked i hi
    | some j =>
      rw [hc] at hi
      dsimp only at hi ⊢
      by_cases hij : i = j
      · rw [hij, update_self, hf.awake] at hi
        cases hi
      · rw [update_of_ne hij] at hi ⊢
        exact h.parked i hi
  · rw [hproc] at hd
    have hwait := h.waiting d hd
    unfold State.put
    cases hc : (s.cpu c).proc with
    | none =>
      have hne : d ≠ c := fun hdc => hd (hdc ▸ hc)
      dsimp only
      rwa [update_of_ne hne]
    | some j => exact hwait
  · rw [hproc] at hd hd'
    exact h.uniq d d' i hd hd'

/-- A change to the processor's fields and one to its thread are one change. -/
theorem put_setCpu (hx : x.proc = (s.cpu c).proc) :
    (s.setCpu c x).thread c = s.thread c ∧ (s.setCpu c x).put c x t = s.put c x t := by
  have hcpu : (s.setCpu c x).cpu c = x := update_self ..
  unfold State.thread State.put
  rw [hcpu, hx]
  unfold State.setCpu
  cases (s.cpu c).proc with
  | none => exact ⟨rfl, by simp only [update_idem]⟩
  | some i => exact ⟨rfl, by simp only [update_idem]⟩

theorem Inv.setLock (h : Inv s) (l : Lock N) (y : LockState M) : Inv (s.setLock l y) :=
  ⟨h.fine, h.parked, h.waiting, h.uniq⟩

theorem Fine.goto (h : Fine c x t) (pc : Pc M N) (hfits : pc.Fits t.held t.nest) (hon : pc.On c)
    (hbase : pc.Base → t.pc.Base) (hshuts : pc.Shuts x.sie)
    (hkeeps : ∀ b, t.pc.Keeps t.nest x.intena b → pc.Keeps t.nest x.intena b) :
    Fine c x { t with pc := pc } :=
  ⟨h.noff, h.count, h.le, hfits, hon, h.traps, fun hb => h.base (hbase hb), h.off,
    fun ht => ⟨(h.trapped ht).1, hkeeps false (h.trapped ht).2⟩, hshuts,
    fun hp b hb => hkeeps b (h.keeps hp b hb), h.awake⟩

theorem Inv.goto (h : Inv s) (pc : Pc M N) (hfits : pc.Fits (s.thread c).held (s.thread c).nest)
    (hon : pc.On c) (hbase : pc.Base → (s.thread c).pc.Base) (hshuts : pc.Shuts (s.cpu c).sie)
    (hkeeps : ∀ b, (s.thread c).pc.Keeps (s.thread c).nest (s.cpu c).intena b →
      pc.Keeps (s.thread c).nest (s.cpu c).intena b) : Inv (s.goto c pc) :=
  h.put rfl ((h.fine c).goto pc hfits hon hbase hshuts hkeeps)

theorem Fine.open (h : Fine c x t) (hs : x.sie = true) : t.nest = 0 ∧ t.held = [] ∧ t.pc.Open := by
  have hnest : t.nest = 0 := by
    by_contra hne
    rw [h.off (Nat.pos_of_ne_zero hne)] at hs
    cases hs
  have hheld : t.held = [] := by
    have hle := h.le
    rw [hnest] at hle
    exact List.length_eq_zero_iff.mp (Nat.le_zero.mp hle)
  refine ⟨hnest, hheld, ?_⟩
  have hfits := h.fits
  have hshuts := h.shuts
  rw [hnest, hheld] at hfits
  rw [hs] at hshuts
  cases hpc : t.pc <;> rw [hpc] at hfits hshuts
  all_goals simp_all [Pc.Fits, Pc.Shuts, Pc.Open]

/-! ### Statements of a thread -/

section Statements

variable (h : Inv s)

include h

theorem Inv.pushOff {k : PushFrom N} {old : Bool} (hpc : (s.thread c).pc = .pushOff k old)
    (hs : goStep s c (.pushOff k old) = .ok s') : Inv s' := by
  have hf := h.fine c
  obtain ⟨hfits, -, hbase, htrapped, hshuts, hkeeps⟩ := hf.at hpc
  cases hs
  -- at the outermost call, what was read is what is remembered
  have hnext : ∀ b, ((s.thread c).nest = 0 → (s.cpu c).sie = b) →
      (0 < (s.thread c).nest → (s.cpu c).intena = b) →
      (Pc.pushSave k old : Pc M N).Keeps (s.thread c).nest (s.cpu c).intena b := by
    intro b h0 hpos
    show if _ = 0 then old = b else _
    by_cases hn : (s.thread c).nest = 0
    · rw [if_pos hn, ← h0 hn]
      exact hshuts.symm
    · rw [if_neg hn]
      exact hpos (Nat.pos_of_ne_zero hn)
  refine h.put rfl ⟨hf.noff, hf.count, hf.le, hfits, trivial, hf.traps, hbase, fun _ => rfl,
    fun ht => ⟨rfl, hnext false (fun _ => (htrapped ht).1) (htrapped ht).2⟩, rfl, fun hp b hb => ?_,
    hf.awake⟩
  dsimp only at hb
  refine hnext b (fun hn => ?_) fun hpos => ?_
  · rw [if_pos hn, Option.some.injEq] at hb
    exact hb
  · rw [if_neg (Nat.ne_of_gt hpos)] at hb
    exact hkeeps hp b hb hpos

theorem Inv.pushSave {k : PushFrom N} {old : Bool} (hpc : (s.thread c).pc = .pushSave k old)
    (hs : goStep s c (.pushSave k old) = .ok s') : Inv s' := by
  have hf := h.fine c
  obtain ⟨hfits, -, hbase, htrapped, hshuts, hkeeps⟩ := hf.at hpc
  cases hs
  have hnext : ∀ b, (Pc.pushSave k old : Pc M N).Keeps (s.thread c).nest (s.cpu c).intena b →
      (if (s.cpu c).noff = 0 then old else (s.cpu c).intena) = b := by
    intro b hb
    change (if (s.thread c).nest = 0 then old = b else (s.cpu c).intena = b) at hb
    rw [hf.noff]
    by_cases hn : (s.thread c).nest = 0
    · rw [if_pos hn] at hb
      rw [if_pos (by omega), hb]
    · rw [if_neg hn] at hb
      rw [if_neg (by omega), hb]
  exact h.put rfl ⟨hf.noff, hf.count, hf.le, hfits, trivial, hf.traps, hbase, hf.off,
    fun ht => ⟨(htrapped ht).1, hnext false (htrapped ht).2⟩, hshuts,
    fun hp b hb => hnext b (hkeeps hp b hb), hf.awake⟩

theorem Inv.pushInc {k : PushFrom N} (hpc : (s.thread c).pc = .pushInc k)
    (hs : goStep s c (.pushInc k) = .ok s') : Inv s' := by
  have hf := h.fine c
  obtain ⟨hfits, -, hbase, htrapped, hshuts, hkeeps⟩ := hf.at hpc
  have hle := hf.le
  have hnoff := hf.noff
  have hcount := hf.count
  cases hs
  have hnext : ∀ b, (s.cpu c).intena = b →
      (k.pc : Pc M N).Keeps ((s.thread c).nest + 1) (s.cpu c).intena b := by
    intro b hb
    cases k <;> exact fun _ => hb
  refine h.put rfl ⟨?_, ?_, Nat.le_succ_of_le hle, ?_, ?_, hf.traps, ?_, fun _ => hshuts,
    fun ht => ⟨(htrapped ht).1, hnext false (htrapped ht).2⟩, ?_,
    fun hp b hb => hnext b (hkeeps hp b hb), hf.awake⟩
  · show (s.cpu c).noff + 1 = (((s.thread c).nest + 1 : ℕ) : ℤ)
    omega
  · show (s.cpu c).noff + 1 + ((s.cpu c).pops : ℤ) = (((s.cpu c).pushes + 1 : ℕ) : ℤ)
    omega
  · cases k with
    | code => trivial
    | acquire u =>
      refine ⟨Nat.lt_succ_of_le hle, ?_⟩
      cases u with
      | code l => trivial
      | scheduler i => exact congrArg (· + 1) hfits
    | myproc => exact Nat.lt_succ_of_le hle
  · cases k <;> trivial
  · intro hb
    cases k with
    | code => exact hb.elim
    | acquire u =>
      cases u with
      | code l => exact hb.elim
      | scheduler i => exact hbase trivial
    | myproc => exact hb.elim
  · cases k <;> trivial

theorem Inv.setCpu {u : User N} (hpc : (s.thread c).pc = .setCpu u)
    (hs : goStep s c (.setCpu u) = .ok s') : Inv s' := by
  have hf := h.fine c
  obtain ⟨hfits, -, hbase, htrapped, -, hkeeps⟩ := hf.at hpc
  cases hs
  obtain ⟨hlt, hu⟩ := hfits
  have hnext : ∀ b, (Pc.setCpu u : Pc M N).Keeps (s.thread c).nest (s.cpu c).intena b →
      (u.acquired : Pc M N).Keeps (s.thread c).nest (s.cpu c).intena b := by
    intro b hb
    cases u <;> exact hb
  apply Inv.setLock
  refine h.put rfl ⟨hf.noff, hf.count, hlt, ?_, ?_, hf.traps, ?_, hf.off,
    fun ht => ⟨(htrapped ht).1, hnext false (htrapped ht).2⟩, ?_,
    fun hp b hb => hnext b (hkeeps hp b hb), hf.awake⟩
  · cases u with
    | code l => trivial
    | scheduler i => exact ⟨List.mem_cons_self, hu⟩
  · cases u <;> trivial
  · intro hb
    cases u with
    | code l => exact hb.elim
    | scheduler i => exact hbase trivial
  · cases u <;> trivial

theorem Inv.relLock {u : User N} (hpc : (s.thread c).pc = .relLock u)
    (hs : goStep s c (.relLock u) = .ok s') : Inv s' := by
  have hf := h.fine c
  obtain ⟨hfits, -, hbase, htrapped, -, hkeeps⟩ := hf.at hpc
  cases hs
  obtain ⟨hmem, hu⟩ := hfits
  have hle := hf.le
  have hlen := List.length_erase_of_mem hmem
  have hpos := List.length_pos_of_mem hmem
  have hlt : ((s.thread c).held.erase u.lock).length < (s.thread c).nest := by omega
  apply Inv.setLock
  refine h.put rfl ⟨hf.noff, hf.count, Nat.le_of_lt hlt, ⟨hlt, ?_⟩, trivial, hf.traps, ?_, hf.off,
    htrapped, trivial, hkeeps, hf.awake⟩
  · cases u with
    | code l => trivial
    | scheduler i => exact hu
  · intro hb
    cases u with
    | code l => exact hb.elim
    | scheduler i => exact hbase trivial

theorem Inv.popDec {r : PopTo} {d : Fin M} (hpc : (s.thread c).pc = .popDec r d)
    (hs : goStep s c (.popDec r d) = .ok s') : Inv s' := by
  have hf := h.fine c
  obtain ⟨hfits, hon, hbase, htrapped, -, hkeeps⟩ := hf.at hpc
  obtain rfl : d = c := hon
  obtain ⟨hlt, hr⟩ := hfits
  have hnoff := hf.noff
  have hcount := hf.count
  have hoff := hf.off (by omega)
  obtain ⟨y, hy⟩ : ∃ y : Cpu N, y = { s.cpu d with
    noff := (s.cpu d).noff - 1, pops := (s.cpu d).pops + 1 } := ⟨_, rfl⟩
  have hyproc : y.proc = (s.cpu d).proc := by rw [hy]
  dsimp only [goStep] at hs
  rw [← hy, (put_setCpu (t := s.thread d) hyproc).1,
    show (s.setCpu d y).cpu d = y from update_self .., (put_setCpu hyproc).2] at hs
  cases hs
  -- `noff` falls by one as `pops` rises, so that their sum is still the pushes
  refine h.put hyproc ⟨?_, ?_, ?_, ?_, rfl, hf.traps, ?_, ?_, ?_, ?_, ?_, hf.awake⟩
  · rw [hy]
    show (s.cpu d).noff - 1 = (((s.thread d).nest - 1 : ℕ) : ℤ)
    omega
  · rw [hy]
    show (s.cpu d).noff - 1 + (((s.cpu d).pops + 1 : ℕ) : ℤ) = ((s.cpu d).pushes : ℤ)
    omega
  · show (s.thread d).held.length ≤ (s.thread d).nest - 1
    omega
  · cases r with
    | code => trivial
    | scan k => exact congrArg (· - 1) hr
  · intro hb
    cases r with
    | code => exact hb.elim
    | scan k => exact hbase trivial
  · rw [hy]
    exact fun _ => hoff
  · rw [hy]
    exact fun ht => ⟨hoff, (htrapped ht).2 (by omega)⟩
  · rw [hy]
    exact hoff
  · rw [hy]
    exact fun hp b hb => hkeeps hp b hb (by omega)

/-- At the end of `pop_off`, SIE is set if nothing is nested and `intena` says so. -/
theorem Inv.popOn {r : PopTo} {d : Fin M} (hpc : (s.thread c).pc = .popOn r d)
    (hs : goStep s c (.popOn r d) = .ok s') : Inv s' := by
  have hf := h.fine c
  obtain ⟨hfits, hon, hbase, htrapped, hshuts, hkeeps⟩ := hf.at hpc
  have hnoff := hf.noff
  obtain rfl : d = c := hon
  cases hs
  have hnext : ∀ b, (s.cpu d).intena = b →
      (r.pc : Pc M N).Keeps (s.thread d).nest (s.cpu d).intena b := by
    intro b hb
    cases r <;> exact fun _ => hb
  refine h.put rfl ⟨hf.noff, hf.count, hf.le, ?_, ?_, hf.traps, ?_, fun hpos => ?_,
    fun ht => ⟨?_, ?_⟩, ?_, fun hp b hb => hnext b (hkeeps hp b hb), hf.awake⟩
  · cases r with
    | code => trivial
    | scan k => exact hfits
  · cases r <;> trivial
  · intro hb
    cases r with
    | code => exact hb.elim
    | scan k => exact hbase trivial
  · dsimp only at hpos ⊢
    rw [if_neg fun h => by omega]
    exact hshuts
  · -- in a handler, interrupts were off at the outermost call
    have hint : (s.cpu d).intena = false := (htrapped ht).2
    dsimp only
    rw [if_neg fun h => by rw [hint] at h; exact Bool.false_ne_true h.2]
    exact hshuts
  · exact hnext false (htrapped ht).2
  · cases r <;> trivial

theorem Inv.schedSwtch {v : Bool} (hpc : (s.thread c).pc = .schedSwtch v)
    (hs : goStep s c (.schedSwtch v) = .ok s') : Inv s' := by
  have hf := h.fine c
  obtain ⟨hfits, -, -, htrapped, -, hkeeps⟩ := hf.at hpc
  have hnest : (s.thread c).nest = 1 := hfits
  dsimp only [goStep] at hs
  cases hc : (s.cpu c).proc with
  | none =>
    rw [hc] at hs
    cases hs
  | some i =>
    rw [hc] at hs hkeeps
    have hthread : s.thread c = s.proc i := by rw [State.thread, hc]
    rw [hthread] at hf hnest hkeeps htrapped
    have hwait := h.waiting c (by rw [hc]; exact nofun)
    cases hs
    refine ⟨fun d => ?_, fun j hj => ?_, fun d hd => ?_, fun d d' j hd hd' => ?_⟩
    · by_cases hd : d = c
      · subst hd
        -- the scheduler is at the same depth
        unfold State.thread
        dsimp only
        rw [update_self]
        obtain ⟨j, hj⟩ := hwait.place
        have hnoff := hf.noff
        refine ⟨?_,
          hf.count, by rw [hwait.nest]; exact hwait.le, by rw [hwait.nest]; exact hwait.fits,
          by rw [hj]; trivial, hwait.traps, fun _ => hwait.base, fun _ => hf.off (by omega),
          fun ht => absurd hwait.base ht, by rw [hj]; trivial, fun hp => absurd rfl hp, hwait.awake⟩
        have hone := hwait.nest
        dsimp only
        omega
      · have hfd := h.fine d
        unfold State.thread at hfd ⊢
        dsimp only
        rw [update_of_ne hd]
        cases hpd : (s.cpu d).proc with
        | none =>
          rw [hpd] at hfd
          exact hfd
        | some j =>
          rw [hpd] at hfd
          have hji : j ≠ i := fun hji => hd (h.uniq d c i (hji ▸ hpd) hc)
          dsimp only
          rw [update_of_ne hji]
          exact hfd
    · by_cases hji : j = i
      · subst hji
        dsimp only at hj ⊢
        rw [update_self]
        have hle := hf.le
        rw [hnest] at hle
        exact ⟨⟨hnest, hle, rfl, hf.traps⟩,
          .inl ⟨v, rfl, fun ht => (htrapped ht).2, hkeeps nofun⟩⟩
      · dsimp only at hj ⊢
        rw [update_of_ne hji] at hj ⊢
        exact h.parked j hj
    · by_cases hdc : d = c
      · subst hdc
        dsimp only at hd
        rw [update_self] at hd
        exact absurd rfl hd
      · dsimp only at hd
        rw [update_of_ne hdc] at hd
        exact h.waiting d hd
    · have hsame : ∀ d, (update s.cpu c { s.cpu c with proc := none } d).proc = some j →
          (s.cpu d).proc = some j := by
        intro d hd
        by_cases hdc : d = c
        · rw [hdc, update_self] at hd
          cases hd
        · rwa [update_of_ne hdc] at hd
      exact h.uniq d d' j (hsame d hd) (hsame d' hd')

theorem Inv.loop (hpc : (s.thread c).pc = .loop) (hs : goStep s c .loop = .ok s') : Inv s' := by
  have hf := h.fine c
  obtain ⟨hfits, -, hbase, -, -, -⟩ := hf.at hpc
  have hnest : (s.thread c).nest = 0 := hfits
  have hnil := hbase trivial
  cases hs
  refine h.put rfl ⟨hf.noff, hf.count, hf.le, hfits, trivial, hf.traps, fun _ => hnil,
    fun hpos => ?_, fun ht => absurd hnil ht, trivial, fun _ _ _ hpos => ?_, hf.awake⟩
  all_goals
    dsimp only at hpos
    omega

end Statements

/-- **A statement of a thread** keeps the invariant. -/
theorem Inv.goStep (h : Inv s) (hs : goStep s c (s.thread c).pc = .ok s') : Inv s' := by
  have hf := h.fine c
  have hfits := hf.fits
  have hon := hf.on
  -- most steps only move the thread on, and keep what it has pushed
  have hgoto := h.goto (c := c)
  cases hpc : (s.thread c).pc with
  | code =>
    rw [hpc] at hs
    cases hs
  | pushGet k =>
    rw [hpc] at hs hfits hgoto
    cases hs
    exact hgoto _ hfits trivial id rfl fun _ hk => hk
  | pushOff k old => exact h.pushOff hpc (hpc ▸ hs)
  | pushSave k old => exact h.pushSave hpc (hpc ▸ hs)
  | pushInc k => exact h.pushInc hpc (hpc ▸ hs)
  | hold u =>
    rw [hpc] at hs hfits hgoto
    dsimp only [Intr.goStep] at hs
    split at hs
    · cases hs
    · cases hs
      exact hgoto _ hfits trivial id trivial fun _ hk => hk
  | spin u =>
    rw [hpc] at hs hfits hgoto
    dsimp only [Intr.goStep] at hs
    split at hs
    · cases hs
    · cases hs
      apply Inv.setLock
      exact hgoto _ hfits trivial id trivial fun _ hk => hk
  | setCpu u => exact h.setCpu hpc (hpc ▸ hs)
  | readProc =>
    rw [hpc] at hs hfits hgoto
    cases hs
    exact hgoto _ ⟨hfits, trivial⟩ trivial id trivial fun _ hk => hk
  | relTest u =>
    rw [hpc] at hs hfits hgoto
    dsimp only [Intr.goStep] at hs
    split at hs
    · cases hs
      exact hgoto _ hfits trivial id trivial fun _ hk => hk
    · cases hs
  | relCpu u =>
    rw [hpc] at hs hfits hgoto
    cases hs
    apply Inv.setLock
    exact hgoto _ hfits trivial id trivial fun _ hk => hk
  | relLock u => exact h.relLock hpc (hpc ▸ hs)
  | popCpu r =>
    rw [hpc] at hs hfits hgoto
    cases hs
    exact hgoto _ hfits rfl id trivial fun _ hk => hk
  | popTest r d =>
    rw [hpc] at hs hfits hgoto hon
    dsimp only [Intr.goStep] at hs
    split at hs
    · cases hs
    · cases hs
      exact hgoto _ hfits hon id trivial fun _ hk => hk
  | popNoff r d =>
    rw [hpc] at hs hfits hgoto hon
    dsimp only [Intr.goStep] at hs
    split at hs
    · cases hs
    · cases hs
      exact hgoto _ hfits hon id trivial fun _ hk => hk
  | popDec r d => exact h.popDec hpc (hpc ▸ hs)
  | popOn r d => exact h.popOn hpc (hpc ▸ hs)
  | schedTest =>
    rw [hpc] at hs hgoto
    dsimp only [Intr.goStep] at hs
    cases hc : (s.cpu c).proc with
    | none =>
      rw [hc] at hs
      cases hs
    | some i =>
      rw [hc] at hs
      dsimp only at hs
      by_cases hnoff : (s.cpu c).noff ≠ 1
      · rw [if_pos hnoff] at hs
        split at hs <;> cases hs
      rw [if_neg hnoff] at hs
      have hone : (s.thread c).nest = 1 := by
        have := hf.noff
        omega
      split at hs
      · cases hs
      · split at hs
        · cases hs
        · cases hs
          exact hgoto _ hone trivial id trivial fun _ hk => hk
  | schedSave =>
    rw [hpc] at hs hfits hgoto
    cases hs
    exact hgoto _ hfits trivial id trivial fun b hk =>
      hk (Nat.lt_of_lt_of_eq Nat.zero_lt_one hfits.symm)
  | schedSwtch v => exact h.schedSwtch hpc (hpc ▸ hs)
  | schedBack v =>
    have htrapped := hf.trapped
    have hkeeps := hf.keeps
    rw [hpc] at hs htrapped hkeeps
    cases hs
    exact h.put rfl ⟨hf.noff, hf.count, hf.le, trivial, trivial, hf.traps,
      fun hb => hb.elim, hf.off, fun ht => ⟨(htrapped ht).1, fun _ => (htrapped ht).2⟩, trivial,
      fun hp b hb _ => hkeeps hp b hb, hf.awake⟩
  | loop => exact h.loop hpc (hpc ▸ hs)
  | scan k =>
    rw [hpc] at hs hfits hgoto
    dsimp only [Intr.goStep] at hs
    split at hs
    · cases hs
      exact hgoto _ hfits trivial id trivial fun _ hk => hk
    · cases hs
      exact hgoto _ hfits trivial id trivial fun _ hk => hk
  | pick i =>
    rw [hpc] at hs hfits hgoto
    cases hs
    exact hgoto _ hfits trivial id trivial fun _ hk => hk
  | back i =>
    rw [hpc] at hs hfits hgoto
    cases hs
    exact hgoto _ hfits trivial id trivial fun _ hk => hk

/-! ### Other steps -/

theorem Inv.switchStep (h : Inv s) (hs : switchStep s c (s.thread c).pc = .ok s') : Inv s' := by
  have hf := h.fine c
  have hfits := hf.fits
  have hbase := hf.base
  cases hpc : (s.thread c).pc with
  | pick i =>
    rw [hpc] at hs hfits hbase
    dsimp only [Intr.switchStep] at hs
    split at hs
    swap
    · cases hs
    next hcond =>
    obtain ⟨hpark, hc⟩ := hcond
    cases hs
    obtain ⟨hmem, hnest⟩ := hfits
    have hready := h.parked i hpark
    have hthread : s.thread c = s.scheduler c := by rw [State.thread, hc]
    rw [hthread] at hf hmem hnest hbase
    -- a process that runs is not parked
    have hnot : ∀ d, (s.cpu d).proc ≠ some i := by
      intro d hd
      have hawake := (h.fine d).awake
      rw [State.thread, hd] at hawake
      dsimp only at hawake
      rw [hpark] at hawake
      cases hawake
    have hoff := hf.off (by omega)
    refine ⟨fun d => ?_, fun j hj => ?_, fun d hd => ?_, fun d d' j hd hd' => ?_⟩
    · by_cases hd : d = c
      · subst hd
        unfold State.thread
        dsimp only
        rw [update_self]
        dsimp only
        rw [update_self]
        have hnoff := hf.noff
        have hone := hready.nest
        refine ⟨by dsimp only; omega, hf.count, by dsimp only; rw [hone]; exact hready.le,
          by dsimp only; rw [hone]; exact hready.fits, ?_, hready.traps, fun hb => ?_,
          fun _ => hoff, fun ht => ⟨hoff, ?_⟩, ?_, fun _ b hb => ?_, rfl⟩
        all_goals
          obtain ⟨v, hv, htrap, hentry⟩ | ⟨j, hj, hentry, hnil⟩ := hready.place
        · dsimp only
          rw [hv]
          trivial
        · dsimp only
          rw [hj]
          trivial
        · dsimp only at hb
          rw [hv] at hb
          exact hb.elim
        · exact hnil
        · dsimp only
          rw [hv]
          exact htrap ht
        · exact absurd hnil ht
        · dsimp only
          rw [hv]
          trivial
        · dsimp only
          rw [hj]
          trivial
        · dsimp only
          rw [hv]
          exact hentry b hb
        · dsimp only at hb
          rw [hentry] at hb
          cases hb
      · have hfd := h.fine d
        unfold State.thread at hfd ⊢
        dsimp only
        rw [update_of_ne hd]
        cases hpd : (s.cpu d).proc with
        | none =>
          rw [hpd] at hfd
          dsimp only
          rw [update_of_ne hd]
          exact hfd
        | some j =>
          rw [hpd] at hfd
          have hji : j ≠ i := fun hji => hnot d (hji ▸ hpd)
          dsimp only
          rw [update_of_ne hji]
          exact hfd
    · by_cases hji : j = i
      · subst hji
        dsimp only at hj
        rw [update_self] at hj
        cases hj
      · dsimp only at hj ⊢
        rw [update_of_ne hji] at hj ⊢
        exact h.parked j hj
    · by_cases hdc : d = c
      · subst hdc
        dsimp only
        rw [update_self]
        have hle := hf.le
        rw [hnest] at hle
        exact ⟨⟨hnest, hle, ⟨hmem, rfl⟩, hf.traps⟩, ⟨i, rfl⟩, hbase trivial, hf.awake⟩
      · dsimp only at hd ⊢
        rw [update_of_ne hdc] at hd ⊢
        exact h.waiting d hd
    · have hsame : ∀ d, (update s.cpu c { s.cpu c with proc := some i } d).proc = some j →
          d = c ∧ j = i ∨ d ≠ c ∧ (s.cpu d).proc = some j := by
        intro d hd
        by_cases hdc : d = c
        · rw [hdc, update_self] at hd
          exact .inl ⟨hdc, (Option.some.inj hd).symm⟩
        · rw [update_of_ne hdc] at hd
          exact .inr ⟨hdc, hd⟩
      obtain ⟨rfl, rfl⟩ | ⟨-, hold⟩ := hsame d hd
      · obtain ⟨rfl, -⟩ | ⟨-, hold'⟩ := hsame d' hd'
        · rfl
        · exact absurd hold' (hnot d')
      · obtain ⟨-, rfl⟩ | ⟨-, hold'⟩ := hsame d' hd'
        · exact absurd hold (hnot d)
        · exact h.uniq d d' j hold hold'
  | _ =>
    rw [hpc] at hs
    cases hs

theorem Inv.codeStep {a : Act N} (h : Inv s) (hpc : (s.thread c).pc = .code)
    (hs : codeStep s c a = .ok s') : Inv s' := by
  have hf := h.fine c
  have hle := hf.le
  have hgoto := h.goto (c := c)
  have hkeeps := hf.keeps
  have htrapped := hf.trapped
  rw [hpc] at hgoto hkeeps htrapped
  cases a with
  | acquire l =>
    cases hs
    exact hgoto _ trivial trivial id trivial fun _ hk => hk
  | release l =>
    dsimp only [Intr.codeStep] at hs
    split at hs
    · next hl =>
      cases hs
      exact hgoto _ ⟨hl, trivial⟩ trivial id trivial fun _ hk => hk
    · cases hs
  | myproc =>
    cases hs
    exact hgoto _ trivial trivial id trivial fun _ hk => hk
  | pushOff =>
    cases hs
    exact hgoto _ trivial trivial id trivial fun _ hk => hk
  | popOff =>
    dsimp only [Intr.codeStep] at hs
    split at hs
    · next hlt =>
      cases hs
      exact hgoto _ ⟨hlt, trivial⟩ trivial id trivial fun _ hk => hk
    · cases hs
  | sched =>
    dsimp only [Intr.codeStep] at hs
    cases hc : (s.cpu c).proc with
    | none =>
      rw [hc] at hs
      cases hs
    | some i =>
      rw [hc] at hs
      dsimp only at hs
      split at hs
      · next hheld =>
        cases hs
        rw [hheld] at hle
        exact hgoto _ (Nat.lt_of_lt_of_le Nat.zero_lt_one hle) trivial id trivial fun _ hk => hk
      · cases hs
  | intrOn | intrOff =>
    dsimp only [Intr.codeStep] at hs
    split at hs
    · next hcond =>
      cases hs
      refine h.put rfl ⟨hf.noff, hf.count, hle, hf.fits, hf.on, hf.traps, hf.base,
        fun hpos => absurd hcond.1 (Nat.ne_of_gt hpos), fun ht => absurd hcond.2 ht, ?_, hf.keeps,
        hf.awake⟩
      rw [hpc]
      trivial
    · cases hs
  | sret =>
    dsimp only [Intr.codeStep] at hs
    split at hs
    · cases hs
    rename_i pc rest htraps
    split at hs
    · next hnest =>
      cases hs
      rw [hnest] at hle
      have hheld : (s.thread c).held = [] := List.length_eq_zero_iff.mp (Nat.le_zero.mp hle)
      -- the handler returns to where interrupts were enabled
      obtain hnil | ⟨pc', hone, hopen, hfits⟩ := hf.traps
      · rw [hnil] at htraps
        cases htraps
      rw [hone] at htraps
      cases htraps
      refine h.put rfl ⟨hf.noff, hf.count, hf.le, ?_, ?_, .inl rfl, fun _ => rfl,
        fun hpos => absurd hnest (Nat.ne_of_gt hpos), fun ht => absurd rfl ht, ?_,
        fun hp b hb => ?_, hf.awake⟩
      · dsimp only
        rw [hheld, hnest]
        exact hfits
      · cases pc <;> trivial
      · cases pc <;> first | trivial | exact hopen.symm
      · dsimp only
        rw [hnest]
        cases pc <;> first | exact fun hpos => absurd hpos (Nat.lt_irrefl 0) | exact hopen.elim
    · cases hs
  | go => cases hs
  | switch => cases hs

theorem Inv.interrupt (h : Inv s) (hs : step s (.interrupt c) = .ok s') : Inv s' := by
  have hf := h.fine c
  dsimp only [step] at hs
  split at hs
  · next hsie =>
    cases hs
    obtain ⟨hnest, hheld, hopen⟩ := hf.open hsie
    have hnil : (s.thread c).traps = [] := by
      by_contra ht
      rw [(hf.trapped ht).1] at hsie
      cases hsie
    have hfits := hf.fits
    rw [hheld, hnest] at hfits
    refine h.put rfl ⟨hf.noff, hf.count, hf.le, trivial, trivial, .inr ⟨_, ?_, hopen, hfits⟩,
      fun hb => hb.elim, fun _ => rfl, fun _ => ⟨rfl, fun hpos => ?_⟩, trivial,
      fun _ _ _ hpos => ?_, hf.awake⟩
    · dsimp only
      rw [hnil]
    · exact absurd hnest (Nat.ne_of_gt hpos)
    · exact absurd hnest (Nat.ne_of_gt hpos)
  · cases hs

theorem Inv.fork {i : Fin N} (h : Inv s) (hs : step s (.fork i) = .ok s') : Inv s' := by
  dsimp only [step] at hs
  split at hs
  · next hpark =>
    cases hs
    refine ⟨fun d => ?_, fun j hj => ?_, h.waiting, h.uniq⟩
    · have hfd := h.fine d
      unfold State.thread at hfd ⊢
      dsimp only
      cases hpd : (s.cpu d).proc with
      | none =>
        rw [hpd] at hfd
        exact hfd
      | some j =>
        rw [hpd] at hfd
        dsimp only at hfd ⊢
        by_cases hji : j = i
        · have hawake := hfd.awake
          rw [hji, hpark] at hawake
          cases hawake
        · rw [update_of_ne hji]
          exact hfd
    · dsimp only at hj ⊢
      by_cases hji : j = i
      · rw [hji, update_self]
        exact ⟨⟨rfl, Nat.le_refl 1, ⟨List.mem_cons_self, trivial⟩, .inl rfl⟩,
          .inr ⟨i, rfl, rfl, rfl⟩⟩
      · rw [update_of_ne hji] at hj ⊢
        exact h.parked j hj
  · cases hs

/-- **Every step keeps the invariant.** -/
theorem Inv.step {e : Event M N} (h : Inv s) (hs : step s e = .ok s') : Inv s' := by
  cases e with
  | run c a =>
    cases a with
    | go => exact h.goStep hs
    | switch => exact h.switchStep hs
    | _ =>
      dsimp only [Intr.step] at hs
      split at hs
      · next hpc => exact h.codeStep hpc hs
      · cases hs
  | interrupt c => exact h.interrupt hs
  | fork i => exact h.fork hs

theorem Inv.start : Inv (start M N) := by
  refine ⟨fun c => ?_, fun i _ => ?_, fun c hc => absurd rfl hc, fun c d i hc => nomatch hc⟩
  · exact ⟨rfl, rfl, Nat.le_refl 0, rfl, trivial, .inl rfl, fun _ => rfl, fun _ => rfl,
      fun ht => absurd rfl ht, trivial, fun _ b hb => (nomatch hb), rfl⟩
  · exact ⟨⟨rfl, Nat.le_refl 1, ⟨List.mem_cons_self, trivial⟩, .inl rfl⟩, .inr ⟨i, rfl, rfl, rfl⟩⟩

/-! ### What is guaranteed -/

/-- The panics of `pop_off`. -/
def Panic.ofPopOff : Panic → Bool
  | .popOffInterruptible | .popOff => true
  | _ => false

theorem Inv.ofPopOff_eq_false {e : Event M N} {x : Panic} (h : Inv s)
    (hs : Intr.step s e = .panic x) : x.ofPopOff = false := by
  cases e with
  | run c a =>
    cases a with
    | go =>
      have hf := h.fine c
      have hfits := hf.fits
      have hon := hf.on
      have hnoff := hf.noff
      dsimp only [Intr.step] at hs
      cases hpc : (s.thread c).pc with
      | popTest r d =>
        rw [hpc] at hs hfits
        -- a thread at `pop_off` has pushed, so its interrupts are off
        have hoff := hf.off (Nat.lt_of_le_of_lt (Nat.zero_le _) hfits.1)
        dsimp only [Intr.goStep] at hs
        rw [hoff] at hs
        cases hs
      | popNoff r d =>
        rw [hpc] at hs hfits hon
        obtain rfl : d = c := hon
        -- and `noff` is positive
        have hpos := hfits.1
        dsimp only [Intr.goStep] at hs
        rw [if_neg (by omega)] at hs
        cases hs
      | hold u | relTest u | spin u | scan k =>
        rw [hpc] at hs
        dsimp only [Intr.goStep] at hs
        split at hs <;> cases hs
        all_goals rfl
      | schedTest =>
        rw [hpc] at hs
        dsimp only [Intr.goStep] at hs
        repeat' split at hs
        all_goals cases hs
        all_goals rfl
      | schedSwtch v =>
        rw [hpc] at hs
        dsimp only [Intr.goStep] at hs
        split at hs <;> cases hs
      | _ =>
        rw [hpc] at hs
        cases hs
    | switch =>
      dsimp only [Intr.step] at hs
      unfold Intr.switchStep at hs
      repeat' split at hs
      all_goals cases hs
    | _ =>
      dsimp only [Intr.step] at hs
      split at hs
      · unfold Intr.codeStep at hs
        repeat' split at hs
        all_goals cases hs
      · cases hs
  | interrupt c =>
    dsimp only [Intr.step] at hs
    split at hs <;> cases hs
  | fork i =>
    dsimp only [Intr.step] at hs
    split at hs <;> cases hs

/-- **Interrupts stay off as long as they should.**  In every run, on every processor:
interrupts are off while `noff` is positive; `noff` is the number of calls of `push_off` less
that of `pop_off`, is not negative, and is the depth of nesting of the thread that runs there;
`pop_off` does not panic; and when a process's thread ends its outermost nesting, interrupts
are enabled exactly if they were when it began, wherever it has run meanwhile. -/
theorem interrupt_nesting (hs : Reach step (fun _ _ => True) (start M N) s) :
    (∀ c, (0 < (s.cpu c).noff → (s.cpu c).sie = false) ∧ 0 ≤ (s.cpu c).noff ∧
      (s.cpu c).noff = (s.cpu c).pushes - (s.cpu c).pops ∧ (s.cpu c).noff = (s.thread c).nest) ∧
    (∀ e, step s e ≠ .panic .popOffInterruptible ∧ step s e ≠ .panic .popOff) ∧
    ∀ c i r d b s', (s.cpu c).proc = some i → (s.proc i).pc = .popOn r d → (s.proc i).nest = 0 →
      (s.proc i).entry = some b → step s (.run c .go) = .ok s' → (s'.cpu c).sie = b := by
  have h : Inv s := hs.invariant .start fun _ _ _ hI _ hstep => hI.step hstep
  refine ⟨fun c => ?_, fun e => ⟨fun he => ?_, fun he => ?_⟩,
    fun c i r d b s' hc hpc hnest hentry hstep => ?_⟩
  · have hf := h.fine c
    have hnoff := hf.noff
    have hcount := hf.count
    refine ⟨fun hpos => hf.off (by omega), by omega, by omega, hnoff⟩
  · cases h.ofPopOff_eq_false he
  · cases h.ofPopOff_eq_false he
  have hf := h.fine c
  have hthread : s.thread c = s.proc i := by rw [State.thread, hc]
  have hon := hf.on
  have hshuts := hf.shuts
  have hkeeps := hf.keeps
  have hnoff := hf.noff
  rw [hthread, hpc] at hon hshuts hkeeps
  rw [hthread, hnest] at hnoff
  obtain rfl : d = c := hon
  have hint : (s.cpu d).intena = b := hkeeps (by rw [hc]; exact nofun) b hentry
  dsimp only [step] at hstep
  rw [hthread, hpc] at hstep
  cases hstep
  rw [cpu_put, update_self]
  dsimp only
  cases b with
  | true => rw [if_pos ⟨by omega, hint⟩]
  | false =>
    rw [if_neg fun h => by rw [hint] at h; exact Bool.false_ne_true h.2]
    exact hshuts

/-- Processor 0 runs the process, which acquires its lock and calls `sched`; processor 1 takes
it up, and it releases its lock but for the last statement of `pop_off`. -/
def migration : List (Event 2 1) :=
  let go (c : Fin 2) (n : ℕ) : List (Event 2 1) := List.replicate n (.run c .go)
  go 0 9 ++ [.run 0 .switch] ++ go 0 8 ++ [.run 0 (.acquire (.proc 0))] ++ go 0 7 ++
    [.run 0 .sched] ++ go 0 12 ++ go 1 9 ++ [.run 1 .switch] ++ go 1 1 ++
    [.run 1 (.release (.proc 0))] ++ go 1 7

/-- The thread finds interrupts enabled on the other processor, as it left them. -/
theorem interrupt_nesting_migration : ∃ s s', run step (start 2 1) migration = .ok s ∧
    (s.cpu 0).proc = none ∧ (s.cpu 1).proc = some 0 ∧ (s.proc 0).entry = some true ∧
    (s.cpu 1).sie = false ∧ step s (.run 1 .go) = .ok s' ∧ (s'.cpu 1).sie = true := by
  have hrun : (run step (start 2 1) migration).check (fun s =>
      (s.cpu 0).proc = none && (s.cpu 1).proc = some 0 && (s.proc 0).entry = some true &&
      (s.cpu 1).sie = false && (s.proc 0).nest = 0 &&
      (match (s.proc 0).pc with | .popOn _ _ => true | _ => false) &&
      (step s (.run 1 .go)).check fun _ => true) = true := by decide +kernel
  obtain ⟨s, hs, htest⟩ := Outcome.exists_of_check hrun
  simp only [Bool.and_eq_true, decide_eq_true_eq] at htest
  obtain ⟨⟨⟨⟨⟨⟨h₀, h₁⟩, hentry⟩, hsie⟩, hnest⟩, hpc⟩, hstep⟩ := htest
  obtain ⟨s', hs', -⟩ := Outcome.exists_of_check hstep
  have hreach : Reach step (fun _ _ => True) (start 2 1) s :=
    reach_of_run .refl (permitted_of_forall (fun _ _ _ => trivial) _) hs
  split at hpc
  · next r d heq =>
    exact ⟨s, s', hs, h₀, h₁, hentry, hsie, hs',
      (interrupt_nesting hreach).2.2 1 0 r d true s' h₁ heq hnest hentry hs'⟩
  · cases hpc

end Xv6.Intr
