import Xv6.Virtio.Invariant

/-!
# The descriptor protocol

The steps of driver and device keep what they agree about, and so, over runs of any length, each
call of `virtio_disk_rw` gets its own request back.

## Main results

* `Inv.advance`, `Inv.actIntr`, `Core.device` — what a step of a call, of the interrupt handler
  and of the device keeps.
* `Inv.step` — one step does not panic, and keeps the invariant.
* `descriptor_protocol` — **the descriptors are split among the calls, nothing panics, and a call
  returns only when its own request is complete**.
-/

namespace Xv6.Virtio

open Function

variable {ι κ β : Type}

/-! ### `virtio_disk_rw` -/

section Calls

variable [DecidableEq ι] {s : State ι κ β} {p : ι} {c : Call β} {idx : Idx} {n : ℕ}

/-- A step of a call that leaves the rings alone. -/
theorem Core.moveLocal (h : Core s) (hp : s.call p = some c) {desc : Fin num → Desc β}
    {free : Fin num → Bool} {info : Fin num → Info β} {disk : β → Bool} {ops : Fin num → BlkReq}
    {j : Stage} (hwait : ∀ idx n, c.stage = .test idx n → s.disk c.b = false)
    (hchains : Chains free (update s.chain p j.chain))
    (hdesc : ∀ i, i ∉ c.stage.chain → s.free i = false → desc i = s.desc i)
    (hinfo : ∀ i, i ∉ c.stage.chain → info i = s.info i)
    (hdisk : ∀ b, b ≠ c.b → disk b = s.disk b)
    (hok : StageOk { s with desc := desc, free := free, info := info, disk := disk, ops := ops }
      c.b j) :
    Core ({ s with desc := desc, free := free, info := info, disk := disk, ops := ops }.setCall p
      (some { c with stage := j })) := by
  have hst := stage_of_call hp
  refine h.move (?_ : Move s _ p c.b (some c.stage) (some j) [])
  exact {
    before := hst
    after := stage_setCall ..
    own := h.owner p c.b c.stage hst
    chains := hchains
    ok := fun j' hj' => by
      obtain rfl := Option.some.inj hj'
      exact hok.frame ⟨fun _ _ => rfl, fun _ _ => rfl, rfl, rfl, fun _ _ => ⟨rfl, rfl⟩,
        fun _ _ _ he => he, fun _ hx => hx⟩
    desc := hdesc
    info := hinfo
    disk := hdisk
    last := fun _ _ => rfl
    slot := fun _ _ _ _ _ => ⟨rfl, rfl⟩
    owner := rfl
    requests := rfl
    publishing := rfl
    used := rfl
    completed := rfl
    wait := fun idx n hk => hwait idx n (Option.some.inj hk)
    flight := .refl _
    new_ok := fun _ he => by cases he
    heads := h.heads }

theorem Core.chains_self (h : Core s) (hp : s.call p = some c) {j : Stage}
    (hj : j.chain = c.stage.chain) : Chains s.free (update s.chain p j.chain) := by
  rw [hj, ← chain_of_stage (stage_of_call hp), update_eq_self]
  exact h.chains

theorem Inv.rw (h : Inv s) {b : β} (hb : s.owner b = some p) (hp : s.call p = none)
    (blockno : BitVec 32) (write : Bool) :
    Inv (s.setCall p (some (virtioDiskRw b blockno write))) where
  core := by
    have hst : s.stage p = none := by rw [State.stage, hp]; rfl
    refine h.core.move (?_ : Move s _ p b none (some .alloc) [])
    exact {
      before := hst
      after := stage_setCall ..
      own := hb
      chains := by
        have hchain : s.chain p = [] := by rw [State.chain, hst]; rfl
        show Chains s.free (update s.chain p [])
        rw [← hchain, update_eq_self]
        exact h.core.chains
      ok := fun j hj => by
        obtain rfl := Option.some.inj hj
        trivial
      desc := fun _ _ _ => rfl
      info := fun _ _ => rfl
      disk := fun _ _ => rfl
      last := fun _ _ => rfl
      slot := fun _ _ _ _ _ => ⟨rfl, rfl⟩
      owner := rfl
      requests := rfl
      publishing := rfl
      used := rfl
      completed := rfl
      wait := fun _ _ hk => by cases hk
      flight := .refl _
      new_ok := fun _ he => by cases he
      heads := h.core.heads }
  turns := h.turns.wait Mode.noConfusion (.inl rfl)

theorem Core.setMode (h : Core s) (hp : s.call p = some c) (m : Mode) (lock : Option (ι ⊕ κ)) :
    Core { s.setCall p (some { c with mode := m }) with lock := lock } := by
  refine h.congr (?_ : ∀ q, (update s.call p (some { c with mode := m }) q).map
    (fun c => (c.b, c.stage)) = s.stage q)
  intro q
  rcases eq_or_ne q p with rfl | hq
  · rw [update_self, stage_of_call hp]
    rfl
  · rw [update_of_ne hq]
    rfl

/-- Calls that slept are woken, and the one that holds the lock goes on. -/
theorem Core.woken (h : Core (s.setCall p (some c))) {call : ι → Option (Call β)}
    (hw : Woken s.call call) {lock : Option (ι ⊕ κ)} {d : Call β} (hb : d.b = c.b)
    (hd : d.stage = c.stage) :
    Core { s with call := update call p (some d), lock := lock } := by
  refine h.congr fun q => ?_
  rw [stage_setCall]
  rcases eq_or_ne q p with rfl | hq
  · rw [update_self, update_self, Option.map_some, Option.map_some, hb, hd]
  · rw [update_of_ne hq, update_of_ne hq]
    exact hw.stage q

section Locked

variable (h : Inv s) (hp : s.call p = some c) (hm : c.mode = .run)
include h hp hm

theorem Inv.alloc [DecidableEq β] (hs : c.stage = .alloc) : ∃ t, alloc s p c = .ok t ∧ Inv t := by
  have hl : s.lock = some (.inl p) := h.turns.run p c hp hm
  have hwait : ∀ idx n, c.stage = .test idx n → s.disk c.b = false := by
    intro idx n hk
    rw [hs] at hk
    cases hk
  rcases alloc3Desc_cases s with ⟨idx, f, heq, hnd, hfree, hf⟩ | ⟨d, call, heq, hd, hw⟩
  · refine ⟨_, by rw [Virtio.alloc, heq]; rfl, ?_,
      h.turns.go (c := { c with stage := .fill idx }) hl hm⟩
    have hchain : s.chain p = [] := by
      rw [chain_of_stage (stage_of_call hp), hs]
      rfl
    refine h.core.moveLocal hp hwait ?_ (fun _ _ _ => rfl) (fun _ _ => rfl) (fun _ _ => rfl)
      trivial
    refine h.core.chains.update hnd (fun i hi => .inr (hfree i hi)) fun i => ?_
    rw [hf, hchain]
    exact ⟨fun hi => ⟨.inr hi.1, hi.2⟩, fun hi => ⟨hi.1.resolve_left List.not_mem_nil, hi.2⟩⟩
  · refine ⟨_, by rw [Virtio.alloc, heq]; rfl, ?_, ?_⟩
    · have hcore : Core ({ s with desc := d }.setCall p (some { c with stage := .alloc })) :=
        h.core.moveLocal hp hwait (h.core.chains_self hp (by rw [hs])) (fun i _ hi => hd i hi)
          (fun _ _ => rfl) (fun _ _ => rfl) trivial
      exact hcore.woken hw rfl hs
    · refine (h.turns.woken hw).stop hl fun e he => ?_
      obtain rfl := Option.some.inj he
      exact ⟨Mode.noConfusion, .inl hs⟩

theorem Inv.fill [DecidableEq β] (hs : c.stage = .fill idx) :
    Inv (fill s p c idx) where
  core := by
    have hnd : idx.toList.Nodup := by
      have hnd := h.core.chains.nodup p
      rwa [chain_of_stage (stage_of_call hp), hs] at hnd
    have hne : idx.i0 ≠ idx.i1 ∧ idx.i0 ≠ idx.i2 ∧ idx.i1 ≠ idx.i2 := by
      simpa [Idx.toList, and_assoc] using hnd
    obtain ⟨h01, h02, h12⟩ := hne
    refine h.core.moveLocal hp (fun idx' n hk => ?_) (h.core.chains_self hp (by rw [hs]; rfl))
      (fun i hi _ => ?_) (fun i hi => ?_) (fun b hb => update_of_ne hb ..)
      ⟨⟨?_, ?_, ?_, ?_⟩, ?_⟩
    · rw [hs] at hk
      cases hk
    · rw [hs] at hi
      have hi : i ≠ idx.i0 ∧ i ≠ idx.i1 ∧ i ≠ idx.i2 := by
        simpa [Stage.chain, Idx.toList] using hi
      rw [update_of_ne hi.2.2, update_of_ne hi.2.1, update_of_ne hi.1]
    · rw [hs] at hi
      refine update_of_ne ?_ ..
      rintro rfl
      exact hi List.mem_cons_self
    · cases c.write <;> simp [Idx.toList, Linked, h01, h02, h12, descFNext, descFWrite]
    · simp [h12]
    · simp
    · simp
    · simp
  turns := h.turns.go (c := { c with stage := .ring idx }) (h.turns.run p c hp hm) hm

theorem Inv.ring (hs : c.stage = .ring idx) : Inv (ring s p c idx) where
  core := by
    have hst := stage_of_call hp
    have hok := h.core.stages p _ _ hst
    rw [hs] at hok
    obtain ⟨-, hlt⟩ := h.core.count_avail_lt hp (i := idx.i0) (by rw [hs]; exact List.mem_cons_self)
      (by rw [hs]; exact fun _ _ => Stage.noConfusion)
    have hflight : (Virtio.ring s p c idx).flight = s.flight :=
      congrArg (· ++ _) (Fifo.contents_store (by decide) hlt _)
    refine h.core.move (?_ : Move s _ p c.b (some (.ring idx)) (some (.bump idx)) [])
    exact {
      before := by rw [hst, hs]; rfl
      after := stage_setCall ..
      own := h.core.owner p _ _ hst
      chains := h.core.chains_self hp (j := .bump idx) (by rw [hs]; rfl)
      ok := fun j hj => by
        obtain rfl := Option.some.inj hj
        exact ⟨hok.1.congr (fun _ _ => rfl) rfl, hok.2, update_self ..⟩
      desc := fun _ _ _ => rfl
      info := fun _ _ => rfl
      disk := fun _ _ => rfl
      last := fun _ _ => rfl
      slot := fun q b idx' hq hb => absurd hb (h.not_bump hp hm hq b idx')
      owner := rfl
      requests := rfl
      publishing := rfl
      used := rfl
      completed := rfl
      wait := fun _ _ hk => by cases hk
      flight := .of_eq hflight
      new_ok := fun _ he => by cases he
      heads := h.core.heads }
  turns := h.turns.go (c := { c with stage := .bump idx }) (h.turns.run p c hp hm) hm

theorem Inv.bump [DecidableEq β] (hs : c.stage = .bump idx) :
    Inv (bump s p c idx) where
  core := by
    have hst := stage_of_call hp
    obtain ⟨hfmt, hdisk, hslot⟩ : StageOk s c.b (.bump idx) := hs ▸ h.core.stages p _ _ hst
    obtain ⟨hne, hlt⟩ := h.core.count_avail_lt hp (i := idx.i0)
      (by rw [hs]; exact List.mem_cons_self) (by rw [hs]; exact fun _ _ => Stage.noConfusion)
    -- the published chain joins those in flight
    have hflight : (Virtio.bump s p c idx).flight.Perm ([⟨idx.i0, s.serial⟩] ++ s.flight) := by
      have hcontents := Fifo.contents_advance (q := s.avail) (by decide) hlt
      rw [hslot] at hcontents
      show (s.avail.advance.contents ++ _).Perm _
      rw [hcontents, List.append_assoc]
      exact List.perm_middle
    refine h.core.move (?_ : Move s _ p c.b (some (.bump idx)) (some (.test idx s.serial))
      [⟨idx.i0, s.serial⟩])
    exact {
      before := by rw [hst, hs]; rfl
      after := stage_setCall ..
      own := h.core.owner p _ _ hst
      chains := h.core.chains_self hp (j := .test idx s.serial) (by rw [hs]; rfl)
      ok := fun j hj => by
        obtain rfl := Option.some.inj hj
        refine ⟨hfmt.congr (fun _ _ => rfl) rfl, update_self .., fun _ => ?_, fun hd => ?_⟩
        · exact hflight.mem_iff.mpr List.mem_cons_self
        · cases hd.symm.trans hdisk
      desc := fun _ _ _ => rfl
      info := fun _ _ => rfl
      disk := fun _ _ => rfl
      last := fun b hb => update_of_ne hb ..
      slot := fun q b idx' hq hb => absurd hb (h.not_bump hp hm hq b idx')
      owner := rfl
      requests := rfl
      publishing := rfl
      used := rfl
      completed := rfl
      wait := fun _ _ hk => by cases hk
      flight := hflight
      new_ok := fun e he => by
        obtain rfl := List.mem_singleton.mp he
        exact ⟨idx, rfl, rfl, hdisk⟩
      heads := by
        refine List.nodup_cons.mpr ⟨fun hmem => ?_, h.core.heads⟩
        obtain ⟨e, he, heq⟩ := List.mem_map.mp hmem
        exact hne e he heq }
  turns := h.turns.go (c := { c with stage := .test idx s.serial }) (h.turns.run p c hp hm) hm

theorem Inv.test (hs : c.stage = .test idx n) : Inv (test s p c idx n) := by
  have hl : s.lock = some (.inl p) := h.turns.run p c hp hm
  have hst := stage_of_call hp
  unfold Virtio.test
  split_ifs with hdisk
  · -- the request is not done: the call goes to sleep, and nothing else changes
    refine ⟨?_, h.turns.stop hl fun e he => ?_⟩
    · exact h.core.setMode hp .asleep none
    · obtain rfl := Option.some.inj he
      exact ⟨Mode.noConfusion, .inr ⟨idx, n, hs⟩⟩
  · have hdisk : s.disk c.b = false := by simpa using hdisk
    obtain ⟨hfmt, hlast, -, hdone⟩ : StageOk s c.b (.test idx n) := hs ▸ h.core.stages p _ _ hst
    refine ⟨?_, h.turns.go (c := { c with stage := .clear idx n }) hl hm⟩
    exact h.core.moveLocal hp (fun _ _ _ => hdisk) (h.core.chains_self hp (by rw [hs]; rfl))
      (fun _ _ _ => rfl) (fun _ _ => rfl) (fun _ _ => rfl) ⟨hfmt.linked, hlast, hdone hdisk⟩

theorem Inv.clear (hs : c.stage = .clear idx n) : Inv (clear s p c idx n) where
  core := by
    obtain ⟨hlinked, hdone⟩ : StageOk s c.b (.clear idx n) :=
      hs ▸ h.core.stages p _ _ (stage_of_call hp)
    refine h.core.moveLocal hp (fun idx n hk => ?_) (h.core.chains_self hp (by rw [hs]; rfl))
      (fun _ _ _ => rfl) (fun i hi => ?_) (fun _ _ => rfl) ⟨⟨_, _, rfl, rfl⟩, hlinked, hdone⟩
    · rw [hs] at hk
      cases hk
    · rw [hs] at hi
      refine update_of_ne ?_ ..
      rintro rfl
      exact hi List.mem_cons_self
  turns := h.turns.go (c := { c with stage := .free n idx.i0 idx.toList })
    (h.turns.run p c hp hm) hm

theorem Inv.freeChain [DecidableEq β] {i : ℕ} {rest : List (Fin num)}
    (hs : c.stage = .free n i rest) : ∃ t, freeChain s p c n i rest = .ok t ∧ Inv t := by
  have hl : s.lock = some (.inl p) := h.turns.run p c hp hm
  have hst := stage_of_call hp
  obtain ⟨⟨j, l, rfl, rfl⟩, hlinked, hdone⟩ : StageOk s c.b (.free n i rest) :=
    hs ▸ h.core.stages p _ _ hst
  have hchain : s.chain p = j :: l := by
    rw [chain_of_stage hst, hs]
    rfl
  have hnd : j ∉ l ∧ l.Nodup := List.nodup_cons.mp (hchain ▸ h.core.chains.nodup p)
  have huse : ∀ i ∈ j :: l, s.free i = false := by
    intro i hi
    by_contra hf
    exact (h.core.chains.free_iff i).mp (by simpa using hf) p (hchain ▸ hi)
  have hget : s.getDesc j = s.desc j := dif_pos j.isLt
  -- what holds once the descriptor is free, wherever the loop goes from here
  have hcore : ∀ k : Stage, k.chain = l →
      StageOk { s with desc := update s.desc j {}
                       free := update s.free j true } c.b k →
      Core ({ s with desc := update s.desc j {}
                     free := update s.free j true }.setCall p
        (some { c with stage := k })) := by
    intro k hk hok
    refine h.core.moveLocal hp (fun idx n hk => ?_) ?_ (fun i hi _ => ?_) (fun _ _ => rfl)
      (fun _ _ => rfl) hok
    · rw [hs] at hk
      cases hk
    · rw [hk]
      refine h.core.chains.update hnd.2 (fun i hi => .inl ?_) fun i => ?_
      · rw [hchain]
        exact List.mem_cons_of_mem j hi
      rw [hchain]
      rcases eq_or_ne i j with rfl | hij
      · simp [hnd.1]
      rw [update_of_ne hij, List.mem_cons]
      constructor
      · intro hf
        refine ⟨.inr hf, fun hil => ?_⟩
        rw [huse i (List.mem_cons_of_mem j hil)] at hf
        cases hf
      · rintro ⟨(hi | hi) | hf, hil⟩
        · exact absurd hi hij
        · exact absurd hi hil
        · exact hf
    · rw [hs] at hi
      refine update_of_ne ?_ ..
      rintro rfl
      exact hi List.mem_cons_self
  have hw := woken_wakeup { s with desc := update s.desc j {}
                                   free := update s.free j true } .free
  rw [Virtio.freeChain, freeDesc_of_not_free (huse j List.mem_cons_self), hget]
  dsimp only [Outcome.bind_ok]
  cases l with
  | nil =>
    have hflag : ¬ (s.desc j).flags &&& descFNext ≠ 0 := not_not.mpr hlinked
    rw [if_neg hflag]
    exact ⟨_, rfl, (hcore (.release n) rfl hdone).woken hw rfl rfl,
      (h.turns.woken hw).go (c := { c with stage := .release n }) hl hm⟩
  | cons j' l =>
    obtain ⟨hflag, hnext, hlinked⟩ := hlinked
    rw [if_pos hflag, hnext]
    refine ⟨_, rfl, (hcore (.free n j' (j' :: l)) rfl ?_).woken hw rfl rfl,
      (h.turns.woken hw).go (c := { c with stage := .free n j' (j' :: l) }) hl hm⟩
    refine ⟨⟨j', l, rfl, rfl⟩, hlinked.congr fun i hi => update_of_ne ?_ .., hdone⟩
    rintro rfl
    exact hnd.1 hi

theorem Inv.release (hs : c.stage = .release n) :
    Inv { s.setCall p none with lock := none } where
  core := by
    have hst := stage_of_call hp
    refine h.core.move (?_ : Move s _ p c.b (some (.release n)) none [])
    exact {
      before := by rw [hst, hs]; rfl
      after := stage_setCall s p none
      own := h.core.owner p _ _ hst
      chains := by
        have hchain : s.chain p = [] := by
          rw [chain_of_stage hst, hs]
          rfl
        show Chains s.free (update s.chain p [])
        rw [← hchain, update_eq_self]
        exact h.core.chains
      ok := fun j hj => nomatch hj
      desc := fun _ _ _ => rfl
      info := fun _ _ => rfl
      disk := fun _ _ => rfl
      last := fun _ _ => rfl
      slot := fun _ _ _ _ _ => ⟨rfl, rfl⟩
      owner := rfl
      requests := rfl
      publishing := rfl
      used := rfl
      completed := rfl
      wait := fun _ _ hk => by cases hk
      flight := .refl _
      new_ok := fun _ he => by cases he
      heads := h.core.heads }
  turns := h.turns.stop (h.turns.run p c hp hm) fun _ he => nomatch he

/-- **A step of a call that holds the lock** does not panic, and keeps the invariant. -/
theorem Inv.advance [DecidableEq β] : ∃ t, advance s p c = .ok t ∧ Inv t := by
  unfold Virtio.advance
  split
  · next hs => exact h.alloc hp hm hs
  · next idx hs => exact ⟨_, rfl, h.fill hp hm hs⟩
  · next idx hs => exact ⟨_, rfl, h.ring hp hm hs⟩
  · next idx hs => exact ⟨_, rfl, h.bump hp hm hs⟩
  · next idx n hs => exact ⟨_, rfl, h.test hp hm hs⟩
  · next idx n hs => exact ⟨_, rfl, h.clear hp hm hs⟩
  · next n i rest hs => exact h.freeChain hp hm hs
  · next n hs => exact ⟨_, rfl, h.release hp hm hs⟩

end Locked

end Calls

/-! ### `virtio_disk_intr` -/

section Handler

variable {s : State ι κ β} {k : κ}

/-- The entry `virtio_disk_intr` looks at: its status is 0, and its buffer is that of the call
that waits for it. -/
theorem Core.front (h : Core s) (hempty : ¬ s.used.Empty) :
    ∃ p b idx, s.stage p = some (b, .test idx s.used.front.serial) ∧
      s.used.front.head = idx.i0 ∧ s.disk b = true ∧ (s.info idx.i0).b = some b ∧
      (s.info idx.i0).status = 0 ∧ s.last b = some s.used.front.serial ∧
      (s.used.front.serial, .data b) ∈ s.completed := by
  have hmem : s.used.front ∈ s.used.contents := by
    rw [Fifo.contents_pop hempty]
    exact List.mem_cons_self
  have hflight : s.used.front ∈ s.flight :=
    List.mem_append_right _ (List.mem_append_right _ (List.mem_append_right _ hmem))
  obtain ⟨p, b, idx, hp, hhead, hdisk⟩ := h.flight _ hflight
  obtain ⟨i, b', hi, hb', hstatus, hdone⟩ := h.used _ hmem
  obtain rfl : i = idx.i0 := Fin.ext (hi.symm.trans hhead)
  obtain ⟨hfmt, hlast, -, -⟩ : StageOk s b (.test idx s.used.front.serial) := h.stages p _ _ hp
  obtain rfl : b' = b := Option.some.inj (hb'.symm.trans hfmt.buf)
  exact ⟨p, b', idx, hp, hhead, hdisk, hb', hstatus, hlast, hdone⟩

/-- A request is done: `b->disk` goes to 0, and the entry is taken from the `used` ring. -/
theorem Core.finish [DecidableEq β] (h : Core s) (hempty : ¬ s.used.Empty) {b : β} {p : ι}
    (hp : s.stage p = some (b, .test idx s.used.front.serial))
    (hhead : s.used.front.head = idx.i0) (hdone : (s.used.front.serial, .data b) ∈ s.completed) :
    Core { s with disk := update s.disk b false, used := s.used.pop } := by
  have hcontents := Fifo.contents_pop hempty
  -- the entry that is taken is at the head of the requests in flight, up to order
  have hflight : s.flight.Perm (s.used.front ::
      State.flight { s with disk := update s.disk b false, used := s.used.pop }) := by
    simp only [State.flight, hcontents, ← List.append_assoc]
    exact List.perm_middle
  have hheads : s.used.front.head ∉ (State.flight
      { s with disk := update s.disk b false, used := s.used.pop }).map (·.head) := by
    have hnd := (hflight.map (·.head)).nodup_iff.mp h.heads
    exact (List.nodup_cons.mp hnd).1
  have howner : ∀ q c j, s.stage q = some (c, j) → q ≠ p → c ≠ b := by
    rintro q c j hq hne rfl
    exact hne (Option.some.inj ((h.owner q c j hq).symm.trans (h.owner p c _ hp)))
  refine ⟨h.chains, h.owner, ?_, ?_, ?_, h.requests, h.publishing, ?_⟩
  · intro q c j (hq : s.stage q = some (c, j))
    rcases eq_or_ne q p with rfl | hne
    · obtain ⟨rfl, rfl⟩ := Prod.mk.inj (Option.some.inj (hp.symm.trans hq))
      obtain ⟨hfmt, hlast, -, -⟩ : StageOk s b (.test idx s.used.front.serial) := h.stages q _ _ hp
      refine ⟨hfmt.congr (fun _ _ => rfl) rfl, hlast, fun hd => ?_, fun _ => hdone⟩
      simp at hd
    refine (h.stages q c j hq).frame ⟨fun _ _ => rfl, fun _ _ => rfl,
      update_of_ne (howner q c j hq hne) .., rfl, fun _ _ => ⟨rfl, rfl⟩, ?_,
      fun _ hx => hx⟩
    rintro idx' n rfl he
    rcases List.mem_cons.mp (hflight.mem_iff.mp he) with heq | he
    · -- two calls with the same head are one
      have hsame : idx'.i0 = idx.i0 := Fin.ext ((congrArg Entry.head heq).trans hhead)
      refine absurd (h.chains.inj q p idx.i0 ?_ ?_) hne
      · rw [chain_of_stage hq, ← hsame]
        exact List.mem_cons_self
      · rw [chain_of_stage hp]
        exact List.mem_cons_self
    · exact he
  · intro e he
    obtain ⟨q, c, idx', hq, hhead', hdisk⟩ :=
      h.flight e (hflight.mem_iff.mpr (List.mem_cons_of_mem _ he))
    have hne : q ≠ p := by
      rintro rfl
      obtain ⟨rfl, hstage⟩ := Prod.mk.inj (Option.some.inj (hp.symm.trans hq))
      obtain ⟨rfl, hserial⟩ := Stage.test.inj hstage
      exact hheads (List.mem_map.mpr ⟨e, he, hhead'.trans hhead.symm⟩)
    refine ⟨q, c, idx', hq, hhead', ?_⟩
    exact (update_of_ne (howner q c _ hq hne) ..).trans hdisk
  · have hnd := (hflight.map (·.head)).nodup_iff.mp h.heads
    exact (List.nodup_cons.mp hnd).2
  · intro e he
    refine h.used e ?_
    rw [hcontents]
    exact List.mem_cons_of_mem _ he

theorem Inv.intrBody [DecidableEq κ] [DecidableEq β] (h : Inv s) (hk : s.handler k = .body) :
    ∃ t, intrBody s k = .ok t ∧ Inv t := by
  have hempty := h.turns.body k hk
  have hl : s.lock = some (.inr k) := h.turns.loop k (.inr hk)
  obtain ⟨p, b, idx, hp, hhead, -, hbuf, hstatus, -, hdone⟩ := h.core.front hempty
  have hlt : s.used.front.head < num := hhead ▸ idx.i0.isLt
  have hidx : (⟨s.used.front.head, hlt⟩ : Fin num) = idx.i0 := Fin.ext hhead
  have hw := woken_wakeup { s with disk := update s.disk b false
                                   used := s.used.pop } (.buf b)
  refine ⟨_, by simp only [Virtio.intrBody, hlt, hidx, hstatus, hbuf]; rfl, ?_, ?_⟩
  · exact (h.core.finish hempty hp hhead hdone).congr hw.stage
  have hother : ∀ j, s.handler j = .body → j = k := fun j hj =>
    Sum.inr.inj (Option.some.inj ((h.turns.loop j (.inr hj)).symm.trans hl))
  have hset : Turns s.call s.lock (update s.handler k .test) s.used.pop :=
    (h.turns.setHandler (fun _ => hl) Handler.noConfusion).setUsed fun j hj => by
      rcases eq_or_ne j k with rfl | hne
      · rw [update_self] at hj
        cases hj
      · rw [update_of_ne hne] at hj
        exact absurd (hother j hj) hne
  exact hset.woken hw

/-- **A step of `virtio_disk_intr`** does not panic, and keeps the invariant. -/
theorem Inv.actIntr [DecidableEq κ] [DecidableEq β] (h : Inv s) :
    (∃ t, actIntr s k = .ok t ∧ Inv t) ∨ actIntr s k = .stuck := by
  unfold Virtio.actIntr
  split
  · exact .inr rfl
  · split_ifs with hl
    · refine .inl ⟨_, rfl, h.core.congr fun _ => rfl, ?_⟩
      have hturns := h.turns
      rw [hl] at hturns
      exact (hturns.take _).setHandler (fun _ => rfl) Handler.noConfusion
    · exact .inr rfl
  · next hk =>
    have hl : s.lock = some (.inr k) := h.turns.loop k (.inl hk)
    split_ifs with hempty
    · exact .inl ⟨_, rfl, h.core.congr fun _ => rfl, h.turns.quit hl⟩
    · refine .inl ⟨_, rfl, h.core.congr fun _ => rfl, ?_⟩
      exact h.turns.setHandler (fun _ => hl) fun _ => hempty
  · next hk => exact .inl (h.intrBody hk)

end Handler

/-! ### The device -/

section Device

variable {s t : State ι κ β}

/-- What the device writes to, or keeps for itself. -/
def State.setDevice (s : State ι κ β) (avail used : Fifo 16 num Entry) (info : Fin num → Info β)
    (requests : List (Request β)) (publishing : Option (Request β))
    (completed : List (ℕ × Addr β)) : State ι κ β :=
  { s with
    avail := avail
    used := used
    info := info
    requests := requests
    publishing := publishing
    completed := completed }

/-- A step of the device moves requests between the rings, and writes to nothing but the status
bytes. -/
theorem Core.device (h : Core s) {avail used : Fifo 16 num Entry} {info : Fin num → Info β}
    {requests : List (Request β)} {publishing : Option (Request β)} {completed : List (ℕ × Addr β)}
    (hslot : avail.data (Fifo.slot avail.nwrite) = s.avail.data (Fifo.slot s.avail.nwrite))
    (hinfo : ∀ i, (info i).b = (s.info i).b) (hcompleted : s.completed ⊆ completed)
    (hflight : (s.setDevice avail used info requests publishing completed).flight.Perm s.flight)
    (hrequests : ∀ r ∈ requests ++ publishing.toList, ∃ (i : Fin num) (b : β),
      r.entry.head = i ∧ (info i).b = some b ∧ r.data = .data b ∧ r.status = .status i ∧
      (r.written = true → (info i).status = 0))
    (hpublishing : ∀ r, publishing = some r → r.written = true ∧
      used.data (Fifo.slot used.nwrite) = r.entry)
    (hused : ∀ e ∈ used.contents, ∃ (i : Fin num) (b : β), e.head = i ∧ (info i).b = some b ∧
      (info i).status = 0 ∧ (e.serial, .data b) ∈ completed) :
    Core (s.setDevice avail used info requests publishing completed) where
  chains := h.chains
  owner := h.owner
  stages p b k hk := (h.stages p b k hk).frame ⟨fun _ _ => rfl, fun i _ => hinfo i, rfl, rfl,
    fun _ _ => ⟨rfl, hslot⟩, fun _ _ _ he => hflight.mem_iff.mpr he, hcompleted⟩
  flight e he := h.flight e (hflight.mem_iff.mp he)
  heads := (hflight.map _).nodup_iff.mpr h.heads
  requests := hrequests
  publishing := hpublishing
  used := hused

/-- The entry the device takes from the `avail` ring: its chain is that of a call, formatted. -/
theorem Core.availFront (h : Core s) (hempty : ¬ s.avail.Empty) :
    ∃ b idx, s.avail.front.head = idx.i0 ∧ Formatted s b idx := by
  have hflight : s.avail.front ∈ s.flight := by
    rw [State.flight, Fifo.contents_pop hempty]
    exact List.mem_append_left _ List.mem_cons_self
  obtain ⟨p, b, idx, hp, hhead, -⟩ := h.flight _ hflight
  exact ⟨b, idx, hhead, (h.stages p _ _ hp).1⟩

theorem Inv.fetch (h : Inv s) : (∃ t, fetch s = .ok t ∧ Inv t) ∨ fetch s = .stuck := by
  unfold Virtio.fetch
  split
  · exact .inr rfl
  next hempty =>
  refine .inl ⟨_, rfl, ?_, h.turns⟩
  obtain ⟨b, idx, hhead, hfmt⟩ := h.core.availFront hempty
  -- follow the chain
  have hget : ∀ i : Fin num, s.getDesc i = s.desc i := fun i => dif_pos i.isLt
  obtain ⟨-, hnext0, -, hnext1, -⟩ := hfmt.linked
  rw [hhead, hget, hnext0, hget, hnext1, hget, hfmt.data, hfmt.status]
  have hcontents := Fifo.contents_pop hempty
  refine h.core.device rfl (fun _ => rfl) (fun _ hx => hx) ?_ (fun r hr => ?_)
    h.core.publishing h.core.used
  · simp only [State.flight, State.setDevice, hcontents, List.map_append, List.map_singleton,
      List.append_assoc, List.cons_append, List.nil_append]
    rw [← List.append_assoc]
    refine List.perm_middle.trans ?_
    rw [List.append_assoc]
  · rcases List.mem_append.mp hr with hr | hr
    · rcases List.mem_append.mp hr with hr | hr
      · exact h.core.requests r (List.mem_append_left _ hr)
      · obtain rfl := List.mem_singleton.mp hr
        exact ⟨idx.i0, b, hhead, hfmt.buf, rfl, rfl, fun hw => by cases hw⟩
    · exact h.core.requests r (List.mem_append_right _ hr)

theorem Inv.writeStatus (h : Inv s) (j : ℕ) :
    (∃ t, writeStatus s j = .ok t ∧ Inv t) ∨ writeStatus s j = .stuck := by
  unfold Virtio.writeStatus
  cases hr : s.requests[j]? with
  | none => exact .inr rfl
  | some r =>
    have hmem : r ∈ s.requests := List.mem_of_getElem? hr
    obtain ⟨i, b, hhead, hbuf, hdata, hstatus, -⟩ :=
      h.core.requests r (List.mem_append_left _ hmem)
    dsimp only
    rw [hstatus]
    refine .inl ⟨_, rfl, ?_, h.turns⟩
    -- a status that is 0 stays 0
    have hinfo : ∀ i', (update s.info i { s.info i with status := 0 } i').b =
        (s.info i').b ∧ ((s.info i').status = 0 →
          (update s.info i { s.info i with status := 0 } i').status = 0) := by
      intro i'
      rcases eq_or_ne i' i with rfl | hne
      · simp
      · simp [hne]
    refine h.core.device rfl (fun i' => (hinfo i').1) (fun _ hx => hx) (.of_eq ?_)
      (fun r' hr' => ?_) h.core.publishing fun e he => ?_
    · have hmap : ∀ x : Request β, x.entry = r.entry →
          (s.requests.set j x).map (·.entry) = s.requests.map (·.entry) := by
        intro x hx
        refine List.ext_getElem? fun m => ?_
        rw [List.getElem?_map, List.getElem?_map, List.getElem?_set]
        split_ifs with hm hj
        · rw [← hm, hr, Option.map_some, Option.map_some, hx]
        · rw [← hm, List.getElem?_eq_none (not_lt.mp hj)]
        · rfl
      exact congrArg (fun l => s.avail.contents ++ (l ++ _)) (hmap _ rfl)
    · rcases List.mem_append.mp hr' with hr' | hr'
      · rcases List.mem_or_eq_of_mem_set hr' with hr' | rfl
        · obtain ⟨i', b', hhead', hbuf', hdata', hstatus', hw⟩ :=
            h.core.requests r' (List.mem_append_left _ hr')
          exact ⟨i', b', hhead', (hinfo i').1.trans hbuf', hdata', hstatus',
            fun hr => (hinfo i').2 (hw hr)⟩
        · exact ⟨i, b, hhead, (hinfo i).1.trans hbuf, hdata, rfl, fun _ => by simp⟩
      · obtain ⟨i', b', hhead', hbuf', hdata', hstatus', hw⟩ :=
          h.core.requests r' (List.mem_append_right _ hr')
        exact ⟨i', b', hhead', (hinfo i').1.trans hbuf', hdata', hstatus',
          fun hr => (hinfo i').2 (hw hr)⟩
    · obtain ⟨i', b', hhead', hbuf', hstatus', hdone⟩ := h.core.used e he
      exact ⟨i', b', hhead', (hinfo i').1.trans hbuf', (hinfo i').2 hstatus', hdone⟩

theorem Inv.publish (h : Inv s) (j : ℕ) :
    (∃ t, publish s j = .ok t ∧ Inv t) ∨ publish s j = .stuck := by
  unfold Virtio.publish
  split
  · next r hr hpub =>
    split
    swap
    · exact .inr rfl
    next hw =>
    refine .inl ⟨_, rfl, ?_, h.turns.setUsed h.turns.body⟩
    have hmem : r ∈ s.requests := List.mem_of_getElem? hr
    obtain ⟨hj, rfl⟩ := List.getElem?_eq_some_iff.mp hr
    have hcount : s.used.count < num := by
      have hle := h.core.length_flight
      rw [length_flight_eq] at hle
      have := List.length_pos_of_mem hmem
      omega
    have hcontents := Fifo.contents_store (q := s.used) (by decide) hcount s.requests[j].entry
    refine h.core.device rfl (fun _ => rfl) (fun _ hx => hx) ?_ (fun r' hr' => ?_)
      (fun r' hr' => ?_)
      ?_
    · have hperm := (List.getElem_cons_eraseIdx_perm hj).map (·.entry)
      simp only [State.flight, State.setDevice, hcontents, hpub, Option.toList_some,
        Option.toList_none, List.map_singleton, List.map_nil, List.nil_append]
      exact (List.perm_middle.trans (hperm.append_right _)).append_left _
    · rcases List.mem_append.mp hr' with hr' | hr'
      · exact h.core.requests r' (List.mem_append_left _ (List.mem_of_mem_eraseIdx hr'))
      · obtain rfl := List.mem_singleton.mp hr'
        exact h.core.requests _ (List.mem_append_left _ hmem)
    · obtain rfl := Option.some.inj hr'
      exact ⟨hw, update_self ..⟩
    · rw [hcontents]
      exact h.core.used
  · exact .inr rfl

theorem Inv.complete (h : Inv s) : (∃ t, complete s = .ok t ∧ Inv t) ∨ complete s = .stuck := by
  unfold Virtio.complete
  split
  · exact .inr rfl
  rename_i r hpub
  obtain ⟨hw, hslot⟩ := h.core.publishing r hpub
  obtain ⟨i, b, hhead, hbuf, hdata, -, hstatus⟩ :=
    h.core.requests r (List.mem_append_right _ (by rw [hpub]; exact List.mem_singleton_self r))
  have hcount : s.used.count < num := by
    have hle := h.core.length_flight
    rw [length_flight_eq, hpub] at hle
    simp only [Option.toList_some, List.length_singleton] at hle
    omega
  have hcontents := Fifo.contents_advance (q := s.used) (by decide) hcount
  rw [hslot] at hcontents
  refine .inl ⟨_, rfl, h.core.device rfl (fun _ => rfl) (fun _ hx => List.mem_cons_of_mem _ hx) ?_
    (fun r' hr' => ?_) (fun r' hr' => nomatch hr') fun e he => ?_, h.turns.setUsed fun k hk => ?_⟩
  · simp only [State.flight, State.setDevice, hcontents, hpub, Option.toList_some,
      Option.toList_none, List.map_singleton, List.map_nil, List.nil_append]
    exact ((List.perm_append_singleton r.entry _).append_left _).append_left _
  · rw [Option.toList_none, List.append_nil] at hr'
    exact h.core.requests r' (List.mem_append_left _ hr')
  · rw [hcontents] at he
    rcases List.mem_append.mp he with he | he
    · obtain ⟨i', b', hhead', hbuf', hstatus', hdone⟩ := h.core.used e he
      exact ⟨i', b', hhead', hbuf', hstatus', List.mem_cons_of_mem _ hdone⟩
    · obtain rfl := List.mem_singleton.mp he
      exact ⟨i, b, hhead, hbuf, hstatus hw, by rw [hdata]; exact List.mem_cons_self⟩
  · rw [Fifo.empty_iff, ← Fifo.length_contents, hcontents]
    simp

end Device

/-! ### Steps and runs -/

section Steps

variable {s : State ι κ β}

theorem Core.setOwner [DecidableEq β] (h : Core s) {b : β} {x : Option ι}
    (hb : ∀ p k, s.stage p ≠ some (b, k)) :
    Core { s with owner := update s.owner b x } := by
  refine { h with
    owner := fun p c k (hk : s.stage p = some (c, k)) => ?_
    stages := fun p c k (hk : s.stage p = some (c, k)) => ?_ }
  · have hne : c ≠ b := by
      rintro rfl
      exact hb p k hk
    exact (update_of_ne hne ..).trans (h.owner p c k hk)
  · exact (h.stages p c k hk).frame ⟨fun _ _ => rfl, fun _ _ => rfl, rfl, rfl,
      fun _ _ => ⟨rfl, rfl⟩, fun _ _ _ he => he, fun _ hx => hx⟩

theorem Inv.act [DecidableEq ι] [DecidableEq β] (h : Inv s) (p : ι) :
    (∃ t, act s p = .ok t ∧ Inv t) ∨ act s p = .stuck := by
  unfold Virtio.act
  cases hp : s.call p with
  | none => exact .inr rfl
  | some c =>
    dsimp only
    split
    · next hm =>
      split_ifs with hl
      · refine .inl ⟨_, rfl, h.core.setMode hp .run _, ?_⟩
        have hturns := h.turns
        rw [hl] at hturns
        exact (hturns.take (.inl p)).go (c := { c with mode := .run }) rfl rfl
      · exact .inr rfl
    · next hm => exact .inl (h.advance hp hm)
    · exact .inr rfl

theorem Inv.rouse [DecidableEq ι] [DecidableEq β] (h : Inv s) {p : ι} {c : Call β}
    (hp : s.call p = some c) :
    Inv (s.setCall p (some (c.wakeup c.chan))) := by
  unfold Call.wakeup
  split_ifs with hc
  · refine ⟨h.core.setMode hp .acquire s.lock, ?_⟩
    exact h.turns.wait Mode.noConfusion (h.turns.rest p c hp (by rw [hc.1]; exact Mode.noConfusion))
  · have hsame : s.setCall p (some c) = s := by
      rw [State.setCall, update_eq_self_iff.mpr hp.symm]
    rw [hsame]
    exact h

/-- **One step** does not panic, and keeps the invariant. -/
theorem Inv.step [DecidableEq ι] [DecidableEq κ] [DecidableEq β] (h : Inv s) (e : Event ι κ β) :
    (∃ t, step s e = .ok t ∧ Inv t) ∨ step s e = .stuck := by
  cases e with
  | acquiresleep p b =>
    simp only [Virtio.step]
    split_ifs with hb
    · -- a call in progress owns its buffer, so a free buffer is in no call
      refine .inl ⟨_, rfl, h.core.setOwner fun q k hk => ?_, h.turns⟩
      cases hb.1.symm.trans (h.core.owner q b k hk)
    · exact .inr rfl
  | releasesleep p b =>
    simp only [Virtio.step]
    split_ifs with hb
    · refine .inl ⟨_, rfl, h.core.setOwner fun q k hk => ?_, h.turns⟩
      obtain rfl : p = q := Option.some.inj (hb.1.symm.trans (h.core.owner q b k hk))
      rw [State.stage, Option.isNone_iff_eq_none.mp hb.2] at hk
      cases hk
    · exact .inr rfl
  | rw p b blockno write =>
    simp only [Virtio.step]
    split_ifs with hb
    · exact .inl ⟨_, rfl, h.rw hb.1 (Option.isNone_iff_eq_none.mp hb.2) blockno write⟩
    · exact .inr rfl
  | act p => exact h.act p
  | rouse p =>
    simp only [Virtio.step]
    cases hp : s.call p with
    | none => exact .inr rfl
    | some c => exact .inl ⟨_, rfl, h.rouse hp⟩
  | interrupt k =>
    simp only [Virtio.step]
    split_ifs
    · refine .inl ⟨_, rfl, h.core.congr fun _ => rfl, ?_⟩
      exact h.turns.setHandler (fun hx => by rcases hx with hx | hx <;> cases hx)
        Handler.noConfusion
    · exact .inr rfl
  | actIntr k => exact h.actIntr
  | fetch => exact h.fetch
  | writeStatus j => exact h.writeStatus j
  | publish j => exact h.publish j
  | complete => exact h.complete

theorem inv_start : Inv (start : State ι κ β) where
  core := by
    have hempty : ∀ q : Fifo 16 num Entry, q.Empty → q.contents = [] := fun q hq =>
      List.eq_nil_of_length_eq_zero (Fifo.length_contents.trans (Fifo.empty_iff.mp hq))
    have hused : (start : State ι κ β).used.contents = [] := hempty _ rfl
    have hflight : (start : State ι κ β).flight = [] := by
      have havail : (start : State ι κ β).avail.contents = [] := hempty _ rfl
      rw [State.flight, havail, hused]
      rfl
    refine ⟨⟨fun i => ?_, fun p q i hp => ?_, fun p => List.nodup_nil⟩,
      fun p b k hk => (by cases hk), fun p b k hk => (by cases hk), ?_, ?_,
      fun r hr => (by cases hr), fun r hr => (by cases hr), ?_⟩
    · exact ⟨fun _ p => List.not_mem_nil, fun _ => rfl⟩
    · exact absurd hp List.not_mem_nil
    · rw [hflight]
      exact fun e he => (by cases he)
    · rw [hflight]
      exact List.nodup_nil
    · rw [hused]
      exact fun e he => (by cases he)
  turns := by
    refine ⟨fun p c hp => (by cases hp), fun p c hp => (by cases hp), fun k hk => ?_,
      fun k hk => (by cases hk)⟩
    rcases hk with hk | hk <;> cases hk

/-! ### What a step does to `b->disk`, and when a call returns -/

theorem freeDesc_frame [DecidableEq β] {t : State ι κ β} {i : ℕ} (ht : freeDesc s i = .ok t) :
    t.disk = s.disk ∧ ∀ q, t.call q = none → s.call q = none := by
  unfold freeDesc at ht
  split_ifs at ht
  obtain rfl := Outcome.ok.inj ht
  exact ⟨rfl, fun q hq => Option.map_eq_none_iff.mp hq⟩

/-- A call leaves `b->disk` alone, or sets it.  It returns from its last step only. -/
theorem advance_frame [DecidableEq ι] [DecidableEq β] {t : State ι κ β} {p : ι} {c : Call β}
    (hp : s.call p = some c)
    (ht : advance s p c = .ok t) :
    (∀ b, s.disk b = true → t.disk b = true) ∧
      ∀ q d, s.call q = some d → t.call q = none → ∃ n, q = p ∧ d.stage = .release n := by
  -- the call goes on, so neither it nor any other returns
  have goes : ∀ (u : State ι κ β) (e : Call β), (∀ q, u.call q = none → s.call q = none) →
      ∀ q d, s.call q = some d → (u.setCall p (some e)).call q = none →
        ∃ n, q = p ∧ d.stage = .release n := by
    intro u e hu q d hq hn
    exfalso
    rcases eq_or_ne q p with rfl | hne
    · simp [State.setCall] at hn
    · have hn : u.call q = none := by simpa [State.setCall, hne] using hn
      cases (hu q hn).symm.trans hq
  unfold Virtio.advance at ht
  split at ht
  · unfold Virtio.alloc at ht
    rcases alloc3Desc_cases s with ⟨idx, f, heq, -⟩ | ⟨d, call, heq, -, hw⟩
    · rw [heq] at ht
      obtain rfl := Outcome.ok.inj ht
      exact ⟨fun _ hb => hb, goes _ _ fun _ hq => hq⟩
    rw [heq] at ht
    obtain rfl := Outcome.ok.inj ht
    refine ⟨fun _ hb => hb, goes { s with desc := d, call := call } _ fun q hq => ?_⟩
    rcases hw q with hq' | ⟨e, -, -, hq'⟩
    · exact hq'.symm.trans hq
    · cases hq'.symm.trans hq
  · obtain rfl := Outcome.ok.inj ht
    refine ⟨fun b hb => ?_, goes _ _ fun _ hq => hq⟩
    show update s.disk c.b true b = true
    rcases eq_or_ne b c.b with rfl | hne
    · exact update_self ..
    · exact (update_of_ne hne ..).trans hb
  · obtain rfl := Outcome.ok.inj ht
    exact ⟨fun _ hb => hb, goes _ _ fun _ hq => hq⟩
  · obtain rfl := Outcome.ok.inj ht
    exact ⟨fun _ hb => hb, goes _ _ fun _ hq => hq⟩
  · obtain rfl := Outcome.ok.inj ht
    unfold Virtio.test
    split_ifs
    · exact ⟨fun _ hb => hb, goes _ _ fun _ hq => hq⟩
    · exact ⟨fun _ hb => hb, goes _ _ fun _ hq => hq⟩
  · obtain rfl := Outcome.ok.inj ht
    exact ⟨fun _ hb => hb, goes _ _ fun _ hq => hq⟩
  · unfold Virtio.freeChain at ht
    obtain ⟨u, hu, ht⟩ := Outcome.bind_eq_ok.mp ht
    obtain ⟨hdisk, hcall⟩ := freeDesc_frame hu
    split_ifs at ht <;> obtain rfl := Outcome.ok.inj ht
    · exact ⟨fun b hb => (congrFun hdisk b).trans hb, goes _ _ hcall⟩
    · exact ⟨fun b hb => (congrFun hdisk b).trans hb, goes _ _ hcall⟩
  · next n hs =>
    obtain rfl := Outcome.ok.inj ht
    refine ⟨fun _ hb => hb, fun q d hq hn => ?_⟩
    rcases eq_or_ne q p with rfl | hne
    · obtain rfl := Option.some.inj (hp.symm.trans hq)
      exact ⟨n, rfl, hs⟩
    · have hn : s.call q = none := by simpa [State.setCall, hne] using hn
      cases hn.symm.trans hq

section Frame

variable [DecidableEq ι] [DecidableEq κ] [DecidableEq β] {t : State ι κ β} {e : Event ι κ β}

/-- Only `virtio_disk_intr` clears `b->disk`, and a call returns from its last step only. -/
theorem step_frame (ht : step s e = .ok t) :
    (∀ b, s.disk b = true → t.disk b = true ∨ ∃ k, e = .actIntr k ∧ s.handler k = .body) ∧
      ∀ p c, s.call p = some c → t.call p = none → ∃ n, c.stage = .release n := by
  -- what a step that leaves `disk` and `call` alone does
  have same : t.disk = s.disk → (∀ p, t.call p = none → s.call p = none) →
      (∀ b, s.disk b = true → t.disk b = true ∨ ∃ k, e = .actIntr k ∧ s.handler k = .body) ∧
        ∀ p c, s.call p = some c → t.call p = none → ∃ n, c.stage = .release n := by
    intro hdisk hcall
    refine ⟨fun b hb => .inl ((congrFun hdisk b).trans hb), fun p c hp hn => ?_⟩
    cases (hcall p hn).symm.trans hp
  -- and one that lets a process go on
  have goes : ∀ p c, (∀ q, (s.setCall p (some c)).call q = none → s.call q = none) := by
    intro p c q hq
    rcases eq_or_ne q p with rfl | hne
    · simp [State.setCall] at hq
    · simpa [State.setCall, hne] using hq
  cases e with
  | acquiresleep p b =>
    simp only [Virtio.step] at ht
    split_ifs at ht
    obtain rfl := Outcome.ok.inj ht
    exact same rfl fun _ hq => hq
  | releasesleep p b =>
    simp only [Virtio.step] at ht
    split_ifs at ht
    obtain rfl := Outcome.ok.inj ht
    exact same rfl fun _ hq => hq
  | rw p b blockno write =>
    simp only [Virtio.step] at ht
    split_ifs at ht
    obtain rfl := Outcome.ok.inj ht
    exact same rfl (goes _ _)
  | act p =>
    simp only [Virtio.step, Virtio.act] at ht
    split at ht
    · cases ht
    rename_i c hp
    split at ht
    · split_ifs at ht
      obtain rfl := Outcome.ok.inj ht
      exact same rfl (goes p _)
    · obtain ⟨hdisk, hcall⟩ := advance_frame hp ht
      refine ⟨fun b hb => .inl (hdisk b hb), fun q d hq hn => ?_⟩
      obtain ⟨n, -, hn⟩ := hcall q d hq hn
      exact ⟨n, hn⟩
    · cases ht
  | rouse p =>
    simp only [Virtio.step] at ht
    split at ht
    · obtain rfl := Outcome.ok.inj ht
      exact same rfl (goes _ _)
    · cases ht
  | interrupt k =>
    simp only [Virtio.step] at ht
    split_ifs at ht
    obtain rfl := Outcome.ok.inj ht
    exact same rfl fun _ hq => hq
  | actIntr k =>
    simp only [Virtio.step, Virtio.actIntr] at ht
    split at ht
    · cases ht
    · split_ifs at ht
      obtain rfl := Outcome.ok.inj ht
      exact same rfl fun _ hq => hq
    · split_ifs at ht <;> obtain rfl := Outcome.ok.inj ht
      · exact same rfl fun _ hq => hq
      · exact same rfl fun _ hq => hq
    · next hk =>
      refine ⟨fun b _ => .inr ⟨k, rfl, hk⟩, fun p c hp hn => ?_⟩
      unfold Virtio.intrBody at ht
      split at ht
      · dsimp only at ht
        split at ht
        · cases ht
        · split at ht
          · cases ht
          · obtain rfl := Outcome.ok.inj ht
            cases (Option.map_eq_none_iff.mp hn).symm.trans hp
      · cases ht
  | fetch =>
    simp only [Virtio.step, Virtio.fetch] at ht
    split_ifs at ht
    obtain rfl := Outcome.ok.inj ht
    exact same rfl fun _ hq => hq
  | writeStatus j =>
    simp only [Virtio.step, Virtio.writeStatus] at ht
    split at ht
    · cases ht
    · split at ht
      · obtain rfl := Outcome.ok.inj ht
        exact same rfl fun _ hq => hq
      · cases ht
  | publish j =>
    simp only [Virtio.step, Virtio.publish] at ht
    split at ht
    · split_ifs at ht
      obtain rfl := Outcome.ok.inj ht
      exact same rfl fun _ hq => hq
    · cases ht
  | complete =>
    simp only [Virtio.step, Virtio.complete] at ht
    split at ht
    · cases ht
    · obtain rfl := Outcome.ok.inj ht
      exact same rfl fun _ hq => hq

/-- The last request for a buffer that was handed to the device is complete. -/
def Done (s : State ι κ β) (b : β) : Prop :=
  ∃ n, s.last b = some n ∧ (n, .data b) ∈ s.completed

theorem Inv.done_of_cleared (h : Inv s) (ht : Virtio.step s e = .ok t) {b : β}
    (hb : s.disk b = true)
    (hb' : t.disk b = false) : Done s b := by
  rcases (step_frame ht).1 b hb with hd | ⟨k, rfl, hk⟩
  · cases hd.symm.trans hb'
  obtain ⟨p, b', idx, hp, hhead, -, hbuf, hstatus, hlast, hdone⟩ := h.core.front (h.turns.body k hk)
  have hlt : s.used.front.head < num := hhead ▸ idx.i0.isLt
  have hidx : (⟨s.used.front.head, hlt⟩ : Fin num) = idx.i0 := Fin.ext hhead
  simp only [Virtio.step, Virtio.actIntr, hk, Virtio.intrBody, hlt, hidx, hstatus, hbuf] at ht
  obtain rfl := Outcome.ok.inj ht
  rcases eq_or_ne b b' with rfl | hne
  · exact ⟨_, hlast, hdone⟩
  · have hsame : (update s.disk b' false) b = s.disk b := update_of_ne hne ..
    cases (hb.symm.trans hsame.symm).trans hb'

theorem Inv.done_of_returned (h : Inv s) (ht : Virtio.step s e = .ok t) {p : ι} {c : Call β}
    (hp : s.call p = some c) (hn : t.call p = none) : Done s c.b := by
  obtain ⟨n, hs⟩ := (step_frame ht).2 p c hp hn
  have hok := h.core.stages p _ _ (stage_of_call hp)
  rw [hs] at hok
  exact ⟨n, hok.1, hok.2⟩

end Frame

end Steps

/-! ### The protocol -/

/-- The descriptors in use are split among the calls, three for each request in flight. -/
structure Partitioned (s : State ι κ β) : Prop where
  /-- Every descriptor is free, or belongs to exactly one call. -/
  split : ∀ i, (s.free i = true ∧ ∀ p, i ∉ s.chain p) ∨ (s.free i = false ∧ ∃! p, i ∈ s.chain p)
  nodup : ∀ p, (s.chain p).Nodup
  /-- A call has three descriptors or none, except in `free_chain`. -/
  three : ∀ p b k, s.stage p = some (b, k) → (∀ n i rest, k ≠ .free n i rest) →
    (s.chain p).length = 3 ∨ s.chain p = []
  /-- The chain of a request in flight is that of a call which waits for it. -/
  flight : ∀ e ∈ s.flight, ∃ p b idx, s.stage p = some (b, .test idx e.serial) ∧
    e.head = idx.i0 ∧ s.chain p = idx.toList ∧ Linked s.desc idx.toList
  heads : (s.flight.map (·.head)).Nodup

theorem Inv.partitioned {s : State ι κ β} (h : Inv s) : Partitioned s where
  split i := by
    cases hi : s.free i with
    | true => exact .inl ⟨rfl, (h.core.chains.free_iff i).mp hi⟩
    | false =>
      refine .inr ⟨rfl, ?_⟩
      obtain ⟨p, hp⟩ : ∃ p, i ∈ s.chain p := by
        by_contra hall
        have hfree := (h.core.chains.free_iff i).mpr fun p hp => hall ⟨p, hp⟩
        cases hi.symm.trans hfree
      exact ⟨p, hp, fun q hq => h.core.chains.inj q p i hq hp⟩
  nodup := h.core.chains.nodup
  three p b k hk hfree := by
    rw [chain_of_stage hk]
    cases k with
    | alloc => exact .inr rfl
    | release n => exact .inr rfl
    | free n i rest => exact absurd rfl (hfree n i rest)
    | fill idx => exact .inl rfl
    | ring idx => exact .inl rfl
    | bump idx => exact .inl rfl
    | test idx n => exact .inl rfl
    | clear idx n => exact .inl rfl
  flight e he := by
    obtain ⟨p, b, idx, hp, hhead, -⟩ := h.core.flight e he
    exact ⟨p, b, idx, hp, hhead, chain_of_stage hp, (h.core.stages p _ _ hp).1.linked⟩
  heads := h.core.heads

/-- **The descriptor protocol.**  In every state driver and device can reach, the descriptors are
split among `free[]` and the calls; no step panics; `b->disk` goes from 1 to 0 only when the
device has completed the request for that buffer; and a call returns only when its own request
is complete. -/
theorem descriptor_protocol [DecidableEq ι] [DecidableEq κ] [DecidableEq β] {s : State ι κ β}
    (h : Reach step (fun _ _ => True) start s) :
    Partitioned s ∧ (∀ e x, step s e ≠ .panic x) ∧
      (∀ e t b, step s e = .ok t → s.disk b = true → t.disk b = false → Done s b) ∧
      ∀ e t p c, step s e = .ok t → s.call p = some c → t.call p = none → Done s c.b := by
  have hinv : Inv s := h.invariant inv_start fun u e v hu _ huv => by
    rcases hu.step e with ⟨w, hw, hinv⟩ | hw
    · exact Outcome.ok.inj (huv.symm.trans hw) ▸ hinv
    · cases huv.symm.trans hw
  refine ⟨hinv.partitioned, fun e x hx => ?_, fun e t b ht hb hb' => hinv.done_of_cleared ht hb hb',
    fun e t p c ht hp hn => hinv.done_of_returned ht hp hn⟩
  rcases hinv.step e with ⟨w, hw, -⟩ | hw
  · cases hx.symm.trans hw
  · cases hx.symm.trans hw

/-- Two processes read a block each, and the device completes the second request first. -/
def twoReads : List (Event (Fin 2) (Fin 1) (Fin 2)) :=
  [.acquiresleep 0 0, .rw 0 0 7 false] ++ List.replicate 6 (.act 0) ++
  [.acquiresleep 1 1, .rw 1 1 9 false] ++ List.replicate 6 (.act 1) ++
  [.fetch, .fetch, .writeStatus 1, .publish 1, .complete, .interrupt 0] ++
  List.replicate 3 (.actIntr 0)

/-- After that run, the request of process 1 is done, and process 0 waits. -/
theorem descriptor_protocol_out_of_order :
    ∃ s : State (Fin 2) (Fin 1) (Fin 2), run step start twoReads = .ok s ∧
      s.disk 0 = true ∧ s.disk 1 = false ∧ s.completed = [(1, .data 1)] ∧ Partitioned s ∧
      ∀ e t p c, step s e = .ok t → s.call p = some c → t.call p = none → Done s c.b := by
  have h : ((run step start twoReads).check fun s =>
      s.disk 0 = true ∧ s.disk 1 = false ∧ s.completed = [(1, .data 1)]) = true := by
    decide +kernel
  obtain ⟨s, hs, hc⟩ := Outcome.exists_of_check h
  have hc := of_decide_eq_true hc
  have hreach : Reach step (fun _ _ => True) start s :=
    reach_of_run .refl (permitted_of_forall (fun _ _ _ => trivial) _) hs
  have hproto := descriptor_protocol hreach
  exact ⟨s, hs, hc.1, hc.2.1, hc.2.2, hproto.1, hproto.2.2.2⟩

end Xv6.Virtio
