import Xv6.Fs.Whole
import Xv6.Lib.Stateful

/-!
# The inode layer waits for locks only

Code of the inode layer that waits for ever waits for a lock, and then so does its abstract
counterpart.  So code that is known to end on the abstract state ends on a disk of bytes, and
in the same way.

## Main results

* `neverStuck_writei`, `neverStuck_readi`, … — code without locks.
* `inode_waits` — what waits for ever does so on the abstract state, too.
* `run_of_runStore` — runs on a structured disk.
* `runProg_of_ok`, `runProg_of_panic` — how code ends on a disk of bytes.
* `ends_runProg` — the same as a judgement on total correctness.
* `Sound.runProg_iff` — code that returns exactly if a condition holds.
-/

namespace Xv6.Fs

variable {sb : Super} {D : ℕ → Dinode} {e : Fin ninode} {p : Pid}

/-! ### Code without locks -/

/-- Only critical sections on the tables wait. -/
theorem checked_ne_stuck {β : Type} {o : DiskOp β} (h : ∀ t, onStore sb o t ≠ .stuck) (t : Store) :
    checked sb o t ≠ .stuck := by
  unfold checked
  split
  · have ht := h t
    cases hx : onStore sb o t with
    | ok r =>
      intro hs
      cases hs
    | panic x =>
      intro hs
      cases hs
    | stuck => exact absurd hx ht
  · intro hs
    cases hs

theorem neverStuck_onMem {β : Type} {f : Mem → Outcome Panic (β × Mem)} (hf : ∀ m, f m ≠ .stuck) :
    (onMem f).NeverStuck (checked sb) := by
  refine Prog.neverStuck_call (checked_ne_stuck fun t hstuck => ?_)
  have ht := hf t.mem
  have hs : (f t.mem).bind (fun r => Outcome.ok (r.1, { t with mem := r.2 })) = .stuck := hstuck
  cases hx : f t.mem with
  | ok r =>
    rw [hx] at hs
    cases hs
  | panic x =>
    rw [hx] at hs
    cases hs
  | stuck => exact absurd hx ht

theorem neverStuck_panic {α : Type} (x : Panic) : (panic x : DiskProg α).NeverStuck (checked sb) :=
  neverStuck_onMem fun _ hs => by cases hs

theorem neverStuck_getInode (e : Fin ninode) : (getInode e).NeverStuck (checked sb) :=
  neverStuck_onMem fun _ hs => by cases hs

theorem neverStuck_setInode (e : Fin ninode) (f : Inode → Inode) :
    (setInode e f).NeverStuck (checked sb) :=
  neverStuck_onMem fun _ hs => by cases hs

theorem neverStuck_readBlock (b : ℕ) :
    (Prog.call (.readBlock b) : DiskProg Block).NeverStuck (checked sb) :=
  Prog.neverStuck_call (checked_ne_stuck fun _ hs => by cases hs)

theorem neverStuck_changeBlock {β : Type} (b : ℕ) (f : Block → β × Block × Bool) :
    (Prog.call (.changeBlock b f) : DiskProg β).NeverStuck (checked sb) :=
  Prog.neverStuck_call (checked_ne_stuck fun _ hs => by cases hs)

theorem neverStuck_ballocLoop (fuel k : ℕ) : (ballocLoop sb fuel k).NeverStuck (checked sb) := by
  induction fuel generalizing k with
  | zero => exact neverStuck_panic _
  | succ fuel ih =>
    rw [ballocLoop]
    by_cases hk : k * bpb < sb.size
    · rw [if_pos hk]
      refine .bind (Prog.neverStuck_call fun t => ?_) fun r => ?_
      · rw [checked_markBit hk]
        cases firstClear sb (fun bi => t.bit (k * bpb + bi)) k with
        | none =>
          intro hs
          cases hs
        | some bi =>
          intro hs
          cases hs
      · cases r with
        | none => exact ih (k + 1)
        | some bi => exact .bind (neverStuck_changeBlock ..) fun _ => Prog.neverStuck_pure _
    · rw [if_neg hk]
      exact neverStuck_panic _

theorem neverStuck_bmapAddr (e : Fin ninode) (k : ℕ) :
    (bmapAddr sb e k).NeverStuck (checked sb) := by
  refine .bind (neverStuck_getInode e) fun ip => ?_
  split
  · exact .bind (neverStuck_ballocLoop ..) fun b => .bind (neverStuck_setInode ..) fun _ =>
      Prog.neverStuck_pure _
  · exact Prog.neverStuck_pure _

theorem neverStuck_bmap (e : Fin ninode) (bn : ℕ) : (bmap sb e bn).NeverStuck (checked sb) := by
  unfold bmap
  split
  · exact neverStuck_bmapAddr e bn
  split
  · refine .bind (neverStuck_bmapAddr e ndirect) fun addr => .bind (neverStuck_readBlock addr)
      fun a => ?_
    split
    · exact .bind (neverStuck_ballocLoop ..) fun b => .bind (neverStuck_changeBlock ..) fun _ =>
        Prog.neverStuck_pure _
    · exact Prog.neverStuck_pure _
  · exact neverStuck_panic _

theorem neverStuck_writeLoop (e : Fin ninode) (src : Src) (fuel off left tot : ℕ) :
    (writeLoop sb e src fuel off left tot).NeverStuck (checked sb) := by
  induction fuel generalizing off left tot with
  | zero => exact Prog.neverStuck_pure _
  | succ fuel ih =>
    rw [writeLoop]
    split
    · exact Prog.neverStuck_pure _
    · refine .bind (neverStuck_bmap ..) fun b => .bind (neverStuck_changeBlock ..) fun ok => ?_
      split
      · exact ih ..
      · exact Prog.neverStuck_pure _

theorem neverStuck_writei (e : Fin ninode) (src : Src) (off n : ℕ) :
    (writei sb e src off n).NeverStuck (checked sb) := by
  refine .bind (neverStuck_getInode e) fun ip => ?_
  split
  · exact Prog.neverStuck_pure _
  split
  · exact Prog.neverStuck_pure _
  · refine .bind (neverStuck_writeLoop ..) fun r => .bind (neverStuck_setInode ..) fun _ => .bind ?_
      fun _ => Prog.neverStuck_pure _
    exact .bind (neverStuck_getInode e) fun ip =>
      Prog.neverStuck_call (checked_ne_stuck fun _ hs => by cases hs)

theorem neverStuck_readLoop (e : Fin ninode) (dst : Dst) (fuel off left : ℕ) (done : List UInt8) :
    (readLoop sb e dst fuel off left done).NeverStuck (checked sb) := by
  induction fuel generalizing off left done with
  | zero => exact Prog.neverStuck_pure _
  | succ fuel ih =>
    rw [readLoop]
    split
    · exact Prog.neverStuck_pure _
    · refine .bind (neverStuck_bmap ..) fun b => .bind (neverStuck_readBlock b) fun a => ?_
      dsimp only
      split
      · exact Prog.neverStuck_pure _
      · exact ih ..

theorem neverStuck_readi (e : Fin ninode) (dst : Dst) (off n : ℕ) :
    (readi sb e dst off n).NeverStuck (checked sb) := by
  refine .bind (neverStuck_getInode e) fun ip => ?_
  dsimp only
  split
  · exact Prog.neverStuck_pure _
  · exact neverStuck_readLoop ..

theorem neverStuck_bfree (b : ℕ) : (bfree b).NeverStuck (checked sb) :=
  Prog.neverStuck_call (checked_ne_stuck fun t hs => by
    change (if t.bit b then _ else _ : Outcome Panic (Unit × Store)) = _ at hs
    split at hs <;> cases hs)

theorem neverStuck_iupdate (e : Fin ninode) : (iupdate e).NeverStuck (checked sb) :=
  .bind (neverStuck_getInode e) fun _ =>
    Prog.neverStuck_call (checked_ne_stuck fun _ hs => by cases hs)

theorem neverStuck_truncDirect (e : Fin ninode) (is : List ℕ) :
    (truncDirect e is).NeverStuck (checked sb) := by
  induction is with
  | nil => exact Prog.neverStuck_pure _
  | cons i is ih =>
    refine .bind (neverStuck_getInode e) fun ip => ?_
    split
    · exact ih
    · exact .bind (neverStuck_bfree _) fun _ => .bind (neverStuck_setInode ..) fun _ => ih

theorem neverStuck_truncIndirect (a : Block) (js : List ℕ) :
    (truncIndirect a js).NeverStuck (checked sb) := by
  induction js with
  | nil => exact Prog.neverStuck_pure _
  | cons j js ih =>
    rw [truncIndirect]
    split
    · exact ih
    · exact .bind (neverStuck_bfree _) fun _ => ih

theorem neverStuck_itrunc (e : Fin ninode) : (itrunc e).NeverStuck (checked sb) := by
  refine .bind (neverStuck_truncDirect ..) fun _ => .bind ?_ fun _ =>
    .bind (neverStuck_setInode ..) fun _ => neverStuck_iupdate e
  refine .bind (neverStuck_getInode e) fun ip => ?_
  split
  · exact Prog.neverStuck_pure _
  · exact .bind (neverStuck_readBlock _) fun a => .bind (neverStuck_truncIndirect ..) fun _ =>
      .bind (neverStuck_bfree _) fun _ => neverStuck_setInode ..

theorem neverStuck_iget (dev inum : ℕ) : (iget dev inum).NeverStuck (checked sb) :=
  neverStuck_onMem fun m hs => by
    unfold igetMem at hs
    split at hs
    · cases hs
    · split at hs <;> cases hs

theorem neverStuck_iallocLoop (dev : ℕ) (type : BitVec 16) (fuel inum : ℕ) :
    (iallocLoop sb dev type fuel inum).NeverStuck (checked sb) := by
  induction fuel generalizing inum with
  | zero => exact neverStuck_panic _
  | succ fuel ih =>
    rw [iallocLoop]
    split
    · refine .bind (Prog.neverStuck_call (checked_ne_stuck fun t hs => ?_)) fun b => ?_
      · change (if (t.dinode inum).type = 0 then _ else _ : Outcome Panic (Bool × Store)) = _ at hs
        split at hs <;> cases hs
      · split
        · exact neverStuck_iget ..
        · exact ih ..
    · exact neverStuck_panic _

theorem neverStuck_iunlock (e : Fin ninode) : (iunlock p e).NeverStuck (checked sb) := by
  refine .bind (neverStuck_getInode e) fun ip => ?_
  split
  · exact neverStuck_panic _
  · exact neverStuck_setInode ..

/-! ### Locks -/

/-- `ilock` waits only for another process. -/
theorem ilock_waits {e : Fin ninode} {q : Pid} {s : Store}
    (h : (ilock q e).exec (checked sb) s = .stuck) : (s.mem.inode e).owner ≠ none := by
  intro hfree
  have hget : (getInode e).exec (checked sb) s = .ok (s.mem.inode e, s) := rfl
  rw [ilock, Prog.exec_bind, hget, Outcome.bind_ok] at h
  dsimp only at h
  split at h
  · cases h
  have htake : (acquiresleep q e).exec (checked sb) s = .ok ((),
      { s with mem := s.mem.setInode e fun ip => { ip with owner := some q } }) := by
    rw [acquiresleep, onMem, Prog.exec_call, checked_mem, if_pos hfree]
    rfl
  rw [Prog.exec_bind, htake, Outcome.bind_ok] at h
  refine (Prog.NeverStuck.bind (neverStuck_getInode e) fun ip => ?_).ne _ h
  split
  · exact Prog.neverStuck_pure _
  · refine .bind (Prog.neverStuck_call (checked_ne_stuck fun _ hs => by cases hs)) fun d =>
      .bind (neverStuck_setInode ..) fun _ => ?_
    split
    · exact neverStuck_panic _
    · exact Prog.neverStuck_pure _

/-- `iput` waits only for the lock of an inode that is to be freed. -/
theorem iput_waits {s : Store} (h : (iput p e).exec (checked sb) s = .stuck) :
    (s.mem.inode e).ref = 1 ∧ (s.mem.inode e).valid = true ∧ (s.mem.inode e).d.nlink = 0 ∧
      (s.mem.inode e).owner ≠ none := by
  have hrest : ∀ b : Bool, (if b then do
        itrunc e
        setInode e fun ip => { ip with d := { ip.d with type := 0 } }
        iupdate e
        setInode e fun ip => { ip with valid := false }
        releasesleep e
        setInode e fun ip => { ip with ref := ip.ref - 1 }
      else return () : DiskProg Unit).NeverStuck (checked sb) := by
    intro b
    split
    · exact .bind (neverStuck_itrunc e) fun _ => .bind (neverStuck_setInode ..) fun _ =>
        .bind (neverStuck_iupdate e) fun _ => .bind (neverStuck_setInode ..) fun _ =>
          .bind (neverStuck_setInode ..) fun _ => neverStuck_setInode ..
    · exact Prog.neverStuck_pure _
  by_contra hnot
  have henter : iputEnter p e s.mem ≠ .stuck := by
    intro hs
    unfold iputEnter at hs
    split at hs
    · next hlast =>
      split at hs
      · cases hs
      · next howner => exact hnot ⟨hlast.1, hlast.2.1, hlast.2.2, howner⟩
    · cases hs
  rw [iput, Prog.exec_bind, onMem, Prog.exec_call, checked_mem] at h
  cases hx : iputEnter p e s.mem with
  | ok r =>
    rw [hx] at h
    exact (hrest r.1).ne _ h
  | panic x =>
    rw [hx] at h
    cases h
  | stuck => exact henter hx

/-- **What waits for ever waits for a lock**, and does so on the abstract state, too, unless
a rule is broken. -/
theorem inode_waits {β : Type} {s : Store} {t : Abs} (o : InodeOp β) (h : Agree sb s t)
    (hx : (inodeImpl sb p o).exec (checked sb) s = .stuck) :
    onAbs sb p o t = .stuck ∨ ∃ x, x = none ∧ onAbs sb p o t = .panic x := by
  obtain ⟨D, h⟩ := h
  cases o with
  | iget dev inum => exact absurd hx ((neverStuck_iget ..).ne s)
  | idup e => exact absurd hx ((neverStuck_setInode ..).ne s)
  | ilock e =>
    have howner := ilock_waits hx
    left
    rw [onAbs]
    split
    · next href =>
      -- without a reference there would be a panic
      exfalso
      have hget : (getInode e).exec (checked sb) s = .ok (s.mem.inode e, s) := rfl
      change (ilock p e).exec (checked sb) s = .stuck at hx
      rw [ilock, Prog.exec_bind, hget, Outcome.bind_ok] at hx
      dsimp only at hx
      rw [h.ref] at href
      rw [if_pos href] at hx
      exact (neverStuck_panic _).ne s hx
    · rw [if_pos (by rw [h.owner]; exact howner)]
  | iunlock e => exact absurd hx ((neverStuck_iunlock e).ne s)
  | iput e =>
    obtain ⟨href, hvalid, hlink, howner⟩ := iput_waits hx
    have hone : (t.entry e).ref = 1 := (h.ref e).trans href
    have hv : (t.entry e).valid = true := (h.valid e).trans hvalid
    by_cases hdirty : (t.entry e).dirty
    · exact .inr ⟨none, rfl, if_pos (.inr hdirty)⟩
    left
    have hpos : 0 < (t.entry e).ref := by omega
    have hun : t.unlinked e := by
      rw [unlinked_iff h hpos hv, ← (h.copy e hpos hv).1]
      exact hlink
    rw [onAbs, if_neg (not_or.mpr ⟨by omega, hdirty⟩), if_pos ⟨hone, hv, hun⟩,
      if_neg (by rw [h.owner]; exact howner)]
  | ialloc dev type => exact absurd hx ((neverStuck_iallocLoop ..).ne s)
  | iupdate e => exact absurd hx ((neverStuck_iupdate e).ne s)
  | itrunc e => exact absurd hx ((neverStuck_itrunc e).ne s)
  | ident e =>
    exact absurd hx ((Prog.NeverStuck.bind (neverStuck_getInode e) fun _ =>
      Prog.neverStuck_pure _).ne s)
  | attr e =>
    exact absurd hx ((Prog.NeverStuck.bind (neverStuck_getInode e) fun _ =>
      Prog.neverStuck_pure _).ne s)
  | setLinks e f => exact absurd hx ((neverStuck_setInode ..).ne s)
  | readi e dst off n => exact absurd hx ((neverStuck_readi ..).ne s)
  | writei e src off n => exact absurd hx ((neverStuck_writei ..).ne s)
  | tables f =>
    left
    have hf : f s.mem.tables = .stuck := by
      by_contra hne
      change (onMem fun m => (f m.tables).bind fun r =>
        .ok (r.1, { m with tables := r.2 })).exec (checked sb) s = .stuck at hx
      rw [onMem, Prog.exec_call, checked_mem] at hx
      cases hy : f s.mem.tables with
      | ok r =>
        rw [hy] at hx
        cases hx
      | panic x =>
        rw [hy] at hx
        cases hx
      | stuck => exact hne hy
    rw [onAbs, h.tables, hf]
    rfl
  | beginOp => cases hx
  | endOp => cases hx

/-! ### Runs on a structured disk -/

/-- One step on a structured disk, from a state the test `ok` accepts. -/
def stepStore (sb : Super) (ok : Store → Bool) (t : Store) (a : Pid × Call) :
    Outcome (Option Panic) Store :=
  if ok t && (t.mem.tables.proc a.1).cwd.isSome then
    ((callProg sb a.1 a.2).exec (checked sb) t).bind fun r => .ok r.2
  else .stuck

theorem step_of_stepStore {ok : Store → Bool} {a : Pid × Call} {s : Image} {t : Store}
    (h : stepStore sb ok (decode sb s) a = .ok t) :
    ok (decode sb s) = true ∧ ∃ s', step sb s a = .ok s' ∧ decode sb s' = t := by
  unfold stepStore at h
  split at h
  · next hok =>
    rw [Bool.and_eq_true] at hok
    rw [Outcome.bind_eq_ok] at h
    obtain ⟨⟨r, t'⟩, hx, heq⟩ := h
    cases heq
    obtain ⟨s', hs', hdec⟩ := exec_onImage_of_ok hx
    refine ⟨hok.1, s', ?_, hdec⟩
    have hcwd : ¬ (s.mem.tables.proc a.1).cwd.isNone = true := by
      rw [Option.isNone_iff_eq_none]
      exact Option.isSome_iff_ne_none.mp hok.2
    rw [step, runCall, if_neg hcwd, hs', Outcome.bind_ok]
  · cases h

/-- **A run on the structured disk is a run on the disk of bytes.** -/
theorem run_of_runStore {ok : Store → Bool} {as : List (Pid × Call)} {s : Image} {t : Store}
    (h : run (stepStore sb ok) (decode sb s) as = .ok t) :
    ∃ s', run (step sb) s as = .ok s' ∧ decode sb s' = t ∧
      Permitted (step sb) (fun s _ => ok (decode sb s) = true) s as := by
  induction as generalizing s with
  | nil =>
    rw [run_nil] at h
    exact ⟨s, rfl, Outcome.ok.inj h, trivial⟩
  | cons a as ih =>
    rw [run_cons, Outcome.bind_eq_ok] at h
    obtain ⟨t₁, hstep, hrun⟩ := h
    obtain ⟨hok, s₁, hs₁, rfl⟩ := step_of_stepStore hstep
    obtain ⟨s', hs', hdec, hperm⟩ := ih hrun
    refine ⟨s', ?_, hdec, hok, ?_⟩
    · rw [run_cons, hs₁, Outcome.bind_ok, hs']
    · rw [hs₁]
      exact hperm

/-! ### Programs -/

variable {α : Type} {c : FsProg α} {s : Image} {t : Abs}

/-- The program does not write to files. -/
def FsProg.Quiet (c : FsProg α) : Prop := c.All fun o => ¬ o.Writes

/-- Code over the inode layer, on a disk of bytes. -/
def runProg (sb : Super) (p : Pid) (c : FsProg α) (s : Image) : Outcome Panic (α × Image) :=
  (c.expand (inodeImpl sb p)).exec (onImage sb) s

theorem expand_refines {s : Store} (c : FsProg α) (h : Agree sb s t) :
    InodeRefines sb ((c.expand (inodeImpl sb p)).exec (checked sb) s) (c.exec (onAbs sb p) t) := by
  rw [Prog.exec_expand]
  exact Prog.refines (fun o _ _ hst => inode_refines o hst) c h

theorem expand_exact {s : Store} (hc : FsProg.Quiet c) (h : Agree sb s t) :
    ExactRefines sb ((c.expand (inodeImpl sb p)).exec (checked sb) s) (c.exec (onAbs sb p) t) := by
  rw [Prog.exec_expand]
  exact Prog.refines_of_all (fun o _ _ ho hst => inode_exact o ho hst) c hc h

theorem exec_expand_waits {s : Store} (h : Agree sb s t)
    (hx : (c.expand (inodeImpl sb p)).exec (checked sb) s = .stuck) :
    c.exec (onAbs sb p) t = .stuck ∨ c.exec (onAbs sb p) t = .panic none := by
  rw [Prog.exec_expand] at hx
  obtain hs | ⟨x, rfl, he⟩ := Prog.exec_stuck_of_refines
    (fun o _ _ hst => inode_refines (p := p) o hst) (fun o _ _ hst => inode_waits o hst) c h hx
  · exact .inl hs
  · exact .inr he

/-- **Code that returns on the abstract state returns on a disk of bytes**, with the same
result, or finds that the disk is full. -/
theorem runProg_of_ok {a : α} {t' : Abs} (h : Agree sb (decode sb s) t)
    (ht : c.exec (onAbs sb p) t = .ok (a, t')) :
    (∃ s', runProg sb p c s = .ok (a, s') ∧ Agree sb (decode sb s') t') ∨
      ¬ FsProg.Quiet c ∧ runProg sb p c s = .panic .outOfBlocks := by
  have hstuck := exec_expand_waits (p := p) (c := c) h
  have href := expand_refines (p := p) c h
  rw [ht] at hstuck href
  cases hx : (c.expand (inodeImpl sb p)).exec (checked sb) (decode sb s) with
  | ok r =>
    rw [hx] at href
    obtain ⟨x, -, he⟩ | ⟨t₁, heq, hag⟩ := href
    · cases he
    · cases heq
      obtain ⟨s', hs', hdec⟩ := exec_onImage_of_ok hx
      exact .inl ⟨s', hs', hdec ▸ hag⟩
  | panic x =>
    rw [hx] at href
    obtain ⟨y, -, he⟩ | hdrop | he := href
    · cases he
    · subst hdrop
      refine .inr ⟨fun hquiet => ?_, exec_onImage_of_panic hx⟩
      have hfull := expand_exact (p := p) hquiet h
      rw [hx, ht] at hfull
      obtain ⟨y, -, he⟩ | hf | he := hfull
      · cases he
      · exact hf
      · cases he
    · cases he
  | stuck => obtain hs | hs := hstuck hx <;> cases hs

/-- Code that panics on the abstract state panics on a disk of bytes, or finds that the disk
is full. -/
theorem runProg_of_panic {x : Panic} (h : Agree sb (decode sb s) t)
    (ht : c.exec (onAbs sb p) t = .panic (some x)) :
    runProg sb p c s = .panic x ∨
      ¬ FsProg.Quiet c ∧ runProg sb p c s = .panic .outOfBlocks := by
  have hstuck := exec_expand_waits (p := p) (c := c) h
  have href := expand_refines (p := p) c h
  rw [ht] at hstuck href
  cases hx : (c.expand (inodeImpl sb p)).exec (checked sb) (decode sb s) with
  | ok r =>
    rw [hx] at href
    obtain ⟨y, rfl, he⟩ | ⟨t₁, heq, -⟩ := href
    · cases he
    · cases heq
  | panic y =>
    rw [hx] at href
    obtain ⟨z, rfl, he⟩ | hdrop | he := href
    · cases he
    · subst hdrop
      by_cases hquiet : FsProg.Quiet c
      · have hfull := expand_exact (p := p) hquiet h
        rw [hx, ht] at hfull
        obtain ⟨z, rfl, he⟩ | hf | he := hfull
        · cases he
        · exact hf.elim
        · cases he
          exact .inl (exec_onImage_of_panic hx)
      · exact .inr ⟨hquiet, exec_onImage_of_panic hx⟩
    · cases he
      exact .inl (exec_onImage_of_panic hx)
  | stuck => obtain hs | hs := hstuck hx <;> cases hs

/-- **How code ends on the abstract state is how it ends on a disk of bytes**, unless it
writes and the disk is full. -/
theorem ends_runProg {A : Option Panic → Prop} {B : Panic → Prop} {Q : α → Abs → Prop}
    {R : α → Image → Prop} (h : Agree sb (decode sb s) t)
    (hends : Kern.Ends A (c.exec (onAbs sb p)) t Q) (hA : ∀ x, A x → ∃ y, x = some y ∧ B y)
    (hfull : ¬ FsProg.Quiet c → B .outOfBlocks)
    (hQ : ∀ a t' s', Q a t' → Agree sb (decode sb s') t' → R a s') :
    Kern.Ends B (runProg sb p c) s R := by
  unfold Kern.Ends at hends ⊢
  cases hx : c.exec (onAbs sb p) t with
  | ok r =>
    rw [hx] at hends
    obtain ⟨s', hs', hag⟩ | ⟨hnot, hs'⟩ := runProg_of_ok h hx
    · rw [hs']
      exact hQ _ _ _ hends hag
    · rw [hs']
      exact hfull hnot
  | panic x =>
    rw [hx] at hends
    obtain ⟨y, rfl, hy⟩ := hA x hends
    obtain hs' | ⟨hnot, hs'⟩ := runProg_of_panic h hx
    · rw [hs']
      exact hy
    · rw [hs']
      exact hfull hnot
  | stuck =>
    rw [hx] at hends
    exact hends.elim

/-- **Code that returns exactly if `P` holds**, and does not write, does so on a disk of
bytes. -/
theorem Sound.runProg_iff {H P : Prop} {Q : α → Abs → Prop} {R : α → Image → Prop}
    (h : Sound H sb s) (hc : FsProg.Quiet c)
    (hends : Kern.Ends (fun x => x ≠ none ∧ ¬ P) (c.exec (onAbs sb p)) (view sb s)
      fun a t => P ∧ (∀ e, (t.entry e).dirty = false) ∧ Q a t)
    (hR : ∀ a s', Q a (view sb s') → R a s') :
    (∃ a s', runProg sb p c s = .ok (a, s') ∧ R a s') ↔ P := by
  have hbytes : Kern.Ends (fun _ => ¬ P) (runProg sb p c) s fun a s' => P ∧ R a s' := by
    refine ends_runProg ⟨_, h.sim⟩ hends (fun x hx => ?_) (fun hnot => absurd hc hnot) ?_
    · obtain ⟨y, rfl⟩ := Option.ne_none_iff_exists'.mp hx.1
      exact ⟨y, rfl, hx.2⟩
    · rintro a t' s' ⟨hP, hclean, hQ⟩ hag
      exact ⟨hP, hR a s' ((hag.view_eq hclean).1 ▸ hQ)⟩
  constructor
  · rintro ⟨a, s', hs', -⟩
    exact (hbytes.of_ok hs').1
  · intro hP
    obtain ⟨a, s', hs', -, hr⟩ := (hbytes.imp (fun _ hnot => hnot hP) fun _ _ hr => hr).exists_ok
    exact ⟨a, s', hs', hr⟩

end Xv6.Fs
