import Xv6.Virtio.Model

/-!
# What driver and device agree about

Every descriptor is free or belongs to one call, and every request that was handed to the device
and not seen by `virtio_disk_intr` is in exactly one place: in the `avail` ring, in the device, or
in the `used` ring.  A chain belongs to one call as long as its request may be in any of them, so
the heads in these places are distinct and the rings never overflow, even though their counters
wrap.

## Main definitions

* `State.chain` — the descriptors a process has allocated and not freed yet.
* `State.flight` — the requests handed to the device that `virtio_disk_intr` has not seen.
* `StageOk` — what holds where a call has come to a certain place.
* `Core`, `Turns`, `Inv` — the invariant.
* `Move` — what a step of one call changes.

## Main results

* `Core.move` — a step of one call keeps what driver and device agree about.
* `alloc3Desc_cases` — `alloc3_desc` finds three descriptors, or disturbs none that is in use.
-/

namespace Xv6.Virtio

open Function

variable {ι κ β : Type}

/-! ### Chains -/

/-- The descriptors a call has allocated and not freed yet. -/
def Stage.chain : Stage → List (Fin num)
  | .alloc | .release _ => []
  | .fill idx | .ring idx | .bump idx | .test idx _ | .clear idx _ => idx.toList
  | .free _ _ rest => rest

/-- The buffer a process has called `virtio_disk_rw` for, and how far the call has come. -/
def State.stage (s : State ι κ β) (p : ι) : Option (β × Stage) :=
  (s.call p).map fun c => (c.b, c.stage)

/-- The descriptors a process has allocated and not freed yet. -/
def State.chain (s : State ι κ β) (p : ι) : List (Fin num) :=
  (s.stage p).elim [] fun x => x.2.chain

/-- Descriptors linked into a chain that ends with the list. -/
def Linked (desc : Fin num → Desc β) : List (Fin num) → Prop
  | [] => True
  | [i] => (desc i).flags &&& descFNext = 0
  | i :: j :: l => (desc i).flags &&& descFNext ≠ 0 ∧ (desc i).next = j ∧ Linked desc (j :: l)

theorem Linked.congr {desc desc' : Fin num → Desc β} :
    ∀ {l : List (Fin num)}, Linked desc l → (∀ i ∈ l, desc' i = desc i) → Linked desc' l
  | [], _, _ => trivial
  | [i], h, heq => by
    rw [Linked, heq i List.mem_cons_self]
    exact h
  | i :: j :: l, h, heq => by
    rw [Linked, heq i List.mem_cons_self]
    exact ⟨h.1, h.2.1, h.2.2.congr fun k hk => heq k (List.mem_cons_of_mem i hk)⟩

/-- Every descriptor is free, or in the chain of one process. -/
structure Chains (free : Fin num → Bool) (chain : ι → List (Fin num)) : Prop where
  free_iff : ∀ i, free i = true ↔ ∀ p, i ∉ chain p
  inj : ∀ p q i, i ∈ chain p → i ∈ chain q → p = q
  nodup : ∀ p, (chain p).Nodup

/-- A process takes descriptors that are free, or gives some back. -/
theorem Chains.update [DecidableEq ι] {free free' : Fin num → Bool} {chain : ι → List (Fin num)}
    (h : Chains free chain) {p : ι} {l : List (Fin num)} (hnd : l.Nodup)
    (hl : ∀ i ∈ l, i ∈ chain p ∨ free i = true)
    (hfree : ∀ i, free' i = true ↔ (i ∈ chain p ∨ free i = true) ∧ i ∉ l) :
    Chains free' (update chain p l) := by
  have other : ∀ q i, q ≠ p → i ∈ l → i ∉ chain q := by
    intro q i hq hi hmem
    rcases hl i hi with hp | hf
    · exact hq (h.inj q p i hmem hp)
    · exact (h.free_iff i).mp hf q hmem
  refine ⟨fun i => ?_, fun q r i hq hr => ?_, fun q => ?_⟩
  · rw [hfree, h.free_iff]
    constructor
    · rintro ⟨hi, hil⟩ q
      rcases eq_or_ne q p with rfl | hq
      · rwa [update_self]
      · rw [update_of_ne hq]
        rcases hi with hp | hf
        · exact fun hmem => hq (h.inj q p i hmem hp)
        · exact hf q
    · intro hall
      have hp := hall p
      rw [update_self] at hp
      refine ⟨or_iff_not_imp_left.mpr fun hip q => ?_, hp⟩
      rcases eq_or_ne q p with rfl | hq
      · exact hip
      · have hiq := hall q
        rwa [update_of_ne hq] at hiq
  · rcases eq_or_ne q p with hqp | hqp <;> rcases eq_or_ne r p with hrp | hrp
    · exact hqp.trans hrp.symm
    · subst hqp
      rw [update_self] at hq
      rw [update_of_ne hrp] at hr
      exact absurd hr (other r i hrp hq)
    · subst hrp
      rw [update_self] at hr
      rw [update_of_ne hqp] at hq
      exact absurd hq (other q i hqp hr)
    · rw [update_of_ne hqp] at hq
      rw [update_of_ne hrp] at hr
      exact h.inj q r i hq hr
  · rcases eq_or_ne q p with rfl | hq
    · rwa [update_self]
    · rw [update_of_ne hq]
      exact h.nodup q

/-! ### Requests in flight -/

/-- The requests handed to the device that `virtio_disk_intr` has not seen. -/
def State.flight (s : State ι κ β) : List Entry :=
  s.avail.contents ++ (s.requests.map (·.entry) ++
    (s.publishing.toList.map (·.entry) ++ s.used.contents))

/-- The three descriptors of a request are formatted. -/
structure Formatted (s : State ι κ β) (b : β) (idx : Idx) : Prop where
  linked : Linked s.desc idx.toList
  data : (s.desc idx.i1).addr = .data b
  status : (s.desc idx.i2).addr = .status idx.i0
  buf : (s.info idx.i0).b = some b

/-- What holds where a call has come that far. -/
def StageOk (s : State ι κ β) (b : β) : Stage → Prop
  | .alloc => True
  | .fill _ => True
  | .ring idx => Formatted s b idx ∧ s.disk b = true
  | .bump idx => Formatted s b idx ∧ s.disk b = true ∧
      s.avail.data (Fifo.slot s.avail.nwrite) = ⟨idx.i0, s.serial⟩
  | .test idx n => Formatted s b idx ∧ s.last b = some n ∧
      (s.disk b = true → ⟨idx.i0, n⟩ ∈ s.flight) ∧
      (s.disk b = false → (n, .data b) ∈ s.completed)
  | .clear idx n => Linked s.desc idx.toList ∧ s.last b = some n ∧ (n, .data b) ∈ s.completed
  | .free n i rest => (∃ j l, rest = j :: l ∧ i = j.val) ∧ Linked s.desc rest ∧
      s.last b = some n ∧ (n, .data b) ∈ s.completed
  | .release n => s.last b = some n ∧ (n, .data b) ∈ s.completed

/-- The step from `s` to `s'` changes nothing a call that has come to `k` relies on. -/
structure Frame (s s' : State ι κ β) (b : β) (k : Stage) : Prop where
  desc : ∀ i ∈ k.chain, s'.desc i = s.desc i
  info : ∀ i ∈ k.chain, (s'.info i).b = (s.info i).b
  disk : s'.disk b = s.disk b
  last : s'.last b = s.last b
  slot : ∀ idx, k = .bump idx → s'.serial = s.serial ∧
    s'.avail.data (Fifo.slot s'.avail.nwrite) = s.avail.data (Fifo.slot s.avail.nwrite)
  flight : ∀ idx n, k = .test idx n → ⟨idx.i0, n⟩ ∈ s.flight → ⟨idx.i0, n⟩ ∈ s'.flight
  completed : s.completed ⊆ s'.completed

section Frame

variable {s s' : State ι κ β} {b : β} {k : Stage} {idx : Idx}

theorem Formatted.congr (h : Formatted s b idx) (hd : ∀ i ∈ idx.toList, s'.desc i = s.desc i)
    (hi : (s'.info idx.i0).b = (s.info idx.i0).b) : Formatted s' b idx where
  linked := h.linked.congr hd
  data := by rw [hd _ (by simp [Idx.toList])]; exact h.data
  status := by rw [hd _ (by simp [Idx.toList])]; exact h.status
  buf := hi.trans h.buf

theorem StageOk.frame (h : StageOk s b k) (hf : Frame s s' b k) : StageOk s' b k := by
  cases k with
  | alloc => trivial
  | fill idx => trivial
  | ring idx =>
    exact ⟨h.1.congr hf.desc (hf.info _ List.mem_cons_self), hf.disk.trans h.2⟩
  | bump idx =>
    refine ⟨h.1.congr hf.desc (hf.info _ List.mem_cons_self), hf.disk.trans h.2.1, ?_⟩
    rw [(hf.slot idx rfl).2, (hf.slot idx rfl).1]
    exact h.2.2
  | test idx n =>
    refine ⟨h.1.congr hf.desc (hf.info _ List.mem_cons_self), hf.last.trans h.2.1, ?_, ?_⟩
    · rw [hf.disk]
      exact fun hd => hf.flight idx n rfl (h.2.2.1 hd)
    · rw [hf.disk]
      exact fun hd => hf.completed (h.2.2.2 hd)
  | clear idx n => exact ⟨h.1.congr hf.desc, hf.last.trans h.2.1, hf.completed h.2.2⟩
  | free n i rest =>
    exact ⟨h.1, h.2.1.congr hf.desc, hf.last.trans h.2.2.1, hf.completed h.2.2.2⟩
  | release n => exact ⟨hf.last.trans h.1, hf.completed h.2⟩

end Frame

/-- What driver and device agree about. -/
structure Core (s : State ι κ β) : Prop where
  chains : Chains s.free s.chain
  owner : ∀ p b k, s.stage p = some (b, k) → s.owner b = some p
  stages : ∀ p b k, s.stage p = some (b, k) → StageOk s b k
  flight : ∀ e ∈ s.flight, ∃ p b idx,
    s.stage p = some (b, .test idx e.serial) ∧ e.head = idx.i0 ∧ s.disk b = true
  heads : (s.flight.map (·.head)).Nodup
  requests : ∀ r ∈ s.requests ++ s.publishing.toList, ∃ (i : Fin num) (b : β),
    r.entry.head = i ∧ (s.info i).b = some b ∧ r.data = .data b ∧ r.status = .status i ∧
    (r.written = true → (s.info i).status = 0)
  publishing : ∀ r, s.publishing = some r → r.written = true ∧
    s.used.data (Fifo.slot s.used.nwrite) = r.entry
  used : ∀ e ∈ s.used.contents, ∃ (i : Fin num) (b : β),
    e.head = i ∧ (s.info i).b = some b ∧ (s.info i).status = 0 ∧
    (e.serial, .data b) ∈ s.completed

/-- Who runs when. -/
structure Turns (call : ι → Option (Call β)) (lock : Option (ι ⊕ κ)) (handler : κ → Handler)
    (used : Fifo 16 num Entry) : Prop where
  run : ∀ p c, call p = some c → c.mode = .run → lock = some (.inl p)
  rest : ∀ p c, call p = some c → c.mode ≠ .run →
    c.stage = .alloc ∨ ∃ idx n, c.stage = .test idx n
  loop : ∀ k, handler k = .test ∨ handler k = .body → lock = some (.inr k)
  body : ∀ k, handler k = .body → ¬ used.Empty

/-- The invariant. -/
structure Inv (s : State ι κ β) : Prop where
  core : Core s
  turns : Turns s.call s.lock s.handler s.used

/-! ### Facts about the invariant -/

section Facts

variable {s s' : State ι κ β} {p q : ι} {b : β} {k : Stage}

theorem chain_of_stage (h : s.stage p = some (b, k)) : s.chain p = k.chain := by
  rw [State.chain, h]
  rfl

theorem chain_congr (h : s'.stage = s.stage) : s'.chain = s.chain := by
  funext p
  rw [State.chain, h, State.chain]

/-- The chain of a call that waits for no request has no head in flight. -/
theorem Core.head_ne (h : Core s) (hp : s.stage p = some (b, k)) {i : Fin num} (hi : i ∈ k.chain)
    (hk : ∀ idx n, k = .test idx n → s.disk b = false) {e : Entry} (he : e ∈ s.flight) :
    e.head ≠ i := by
  intro heq
  obtain ⟨q, c, idx, hq, hhead, hdisk⟩ := h.flight e he
  obtain rfl : i = idx.i0 := Fin.ext (heq.symm.trans hhead)
  obtain rfl : p = q := h.chains.inj p q idx.i0 (by rw [chain_of_stage hp]; exact hi)
    (by rw [chain_of_stage hq]; exact List.mem_cons_self)
  obtain ⟨rfl, rfl⟩ := Prod.mk.inj (Option.some.inj (hp.symm.trans hq))
  rw [hk idx _ rfl] at hdisk
  cases hdisk

theorem Core.head_lt (h : Core s) {e : Entry} (he : e ∈ s.flight) : e.head < num := by
  obtain ⟨q, c, idx, -, hhead, -⟩ := h.flight e he
  rw [hhead]
  exact idx.i0.isLt

theorem length_le_num {l : List ℕ} (hnd : l.Nodup) (hlt : ∀ i ∈ l, i < num) : l.length ≤ num := by
  have hsub : l ⊆ List.range num := fun i hi => List.mem_range.mpr (hlt i hi)
  simpa using (hnd.subperm hsub).length_le

theorem Core.length_flight (h : Core s) : s.flight.length ≤ num := by
  have hle := length_le_num h.heads fun i hi => by
    obtain ⟨e, he, rfl⟩ := List.mem_map.mp hi
    exact h.head_lt he
  simpa using hle

/-- While a descriptor is no head in flight, there is room in the rings. -/
theorem Core.length_flight_lt (h : Core s) {i : Fin num} (hi : ∀ e ∈ s.flight, e.head ≠ i) :
    s.flight.length < num := by
  have hnd : (i.val :: s.flight.map (·.head)).Nodup := by
    refine List.nodup_cons.mpr ⟨fun hmem => ?_, h.heads⟩
    obtain ⟨e, he, heq⟩ := List.mem_map.mp hmem
    exact hi e he heq
  have hle := length_le_num hnd fun j hj => by
    rcases List.mem_cons.mp hj with rfl | hj
    · exact i.isLt
    · obtain ⟨e, he, rfl⟩ := List.mem_map.mp hj
      exact h.head_lt he
  rw [List.length_cons, List.length_map] at hle
  exact Nat.lt_of_succ_le hle

theorem length_flight_eq : s.flight.length =
    s.avail.count + (s.requests.length + (s.publishing.toList.length + s.used.count)) := by
  simp [State.flight]

end Facts

/-! ### A step of one call -/

/-- The descriptors of a call, where there is one. -/
def chainOf (k : Option Stage) : List (Fin num) := k.elim [] Stage.chain

/-- A step takes the call of process `p`, for buffer `b`, from `k` to `k'`, and hands the requests
`new` to the device. -/
structure Move [DecidableEq ι] (s s' : State ι κ β) (p : ι) (b : β) (k k' : Option Stage)
    (new : List Entry) : Prop where
  before : s.stage p = k.map (b, ·)
  after : s'.stage = update s.stage p (k'.map (b, ·))
  own : s.owner b = some p
  chains : Chains s'.free (update s.chain p (chainOf k'))
  ok : ∀ j, k' = some j → StageOk s' b j
  -- what others rely on stays as it is
  desc : ∀ i, i ∉ chainOf k → s.free i = false → s'.desc i = s.desc i
  info : ∀ i, i ∉ chainOf k → s'.info i = s.info i
  disk : ∀ c, c ≠ b → s'.disk c = s.disk c
  last : ∀ c, c ≠ b → s'.last c = s.last c
  slot : ∀ q c idx, q ≠ p → s.stage q = some (c, .bump idx) → s'.serial = s.serial ∧
    s'.avail.data (Fifo.slot s'.avail.nwrite) = s.avail.data (Fifo.slot s.avail.nwrite)
  owner : s'.owner = s.owner
  requests : s'.requests = s.requests
  publishing : s'.publishing = s.publishing
  used : s'.used = s.used
  completed : s'.completed = s.completed
  -- no request of this call is in flight before
  wait : ∀ idx n, k = some (.test idx n) → s.disk b = false
  flight : s'.flight.Perm (new ++ s.flight)
  new_ok : ∀ e ∈ new, ∃ idx, k' = some (.test idx e.serial) ∧ e.head = idx.i0 ∧ s'.disk b = true
  heads : ((new ++ s.flight).map (·.head)).Nodup

section Move

variable [DecidableEq ι] {s s' : State ι κ β} {p : ι} {b : β} {k k' : Option Stage}
  {new : List Entry}

theorem chain_update (h : s'.stage = update s.stage p (k.map (b, ·))) :
    s'.chain = update s.chain p (chainOf k) := by
  funext q
  rcases eq_or_ne q p with rfl | hq
  · rw [State.chain, h, update_self, update_self]
    cases k <;> rfl
  · rw [State.chain, h, update_of_ne hq, update_of_ne hq]
    rfl

/-- Another process's call is not disturbed. -/
theorem Move.frame (hm : Move s s' p b k k' new) (h : Core s) {q : ι} {c : β} {j : Stage}
    (hq : q ≠ p) (hj : s.stage q = some (c, j)) : Frame s s' c j := by
  have hcb : c ≠ b := by
    rintro rfl
    exact hq (Option.some.inj ((h.owner q c j hj).symm.trans hm.own))
  have hmem : ∀ i ∈ j.chain, i ∈ s.chain q := fun i hi => by rwa [chain_of_stage hj]
  have hout : ∀ i ∈ j.chain, i ∉ chainOf k := by
    intro i hi hik
    refine hq (h.chains.inj q p i (hmem i hi) ?_)
    rw [State.chain, hm.before]
    cases k with
    | none => cases hik
    | some k => exact hik
  refine ⟨fun i hi => hm.desc i (hout i hi) ?_, fun i hi => congrArg _ (hm.info i (hout i hi)),
    hm.disk c hcb, hm.last c hcb, ?_, ?_, ?_⟩
  · by_contra hf
    exact (h.chains.free_iff i).mp (by simpa using hf) q (hmem i hi)
  · rintro idx rfl
    exact hm.slot q c idx hq hj
  · intro idx n _ he
    exact hm.flight.mem_iff.mpr (List.mem_append_right new he)
  · rw [hm.completed]
    exact fun _ hx => hx

/-- **A step of one call** keeps what driver and device agree about. -/
theorem Core.move (h : Core s) (hm : Move s s' p b k k' new) : Core s' := by
  -- the descriptor at the head of a request in flight is another call's
  have hinfo : ∀ e ∈ s.flight, ∀ i : Fin num, e.head = i → s'.info i = s.info i := by
    intro e he i hi
    refine hm.info i fun hik => ?_
    cases k with
    | none => cases hik
    | some k =>
      exact h.head_ne hm.before hik (fun idx n hk => hm.wait idx n (congrArg some hk)) he hi
  refine ⟨?_, ?_, ?_, ?_, ?_, ?_, ?_, ?_⟩
  · rw [chain_update hm.after]
    exact hm.chains
  · intro q c j hj
    rw [hm.after] at hj
    rw [hm.owner]
    rcases eq_or_ne q p with rfl | hq
    · rw [update_self, Option.map_eq_some_iff] at hj
      obtain ⟨_, _, heq⟩ := hj
      rw [← (Prod.mk.inj heq).1]
      exact hm.own
    · rw [update_of_ne hq] at hj
      exact h.owner q c j hj
  · intro q c j hj
    rw [hm.after] at hj
    rcases eq_or_ne q p with rfl | hq
    · rw [update_self, Option.map_eq_some_iff] at hj
      obtain ⟨j', hk', heq⟩ := hj
      obtain ⟨rfl, rfl⟩ := Prod.mk.inj heq
      exact hm.ok j' hk'
    · rw [update_of_ne hq] at hj
      exact (h.stages q c j hj).frame (hm.frame h hq hj)
  · intro e he
    rcases List.mem_append.mp (hm.flight.mem_iff.mp he) with hnew | hold
    · obtain ⟨idx, hk', hhead, hdisk⟩ := hm.new_ok e hnew
      refine ⟨p, b, idx, ?_, hhead, hdisk⟩
      rw [hm.after, update_self, hk']
      rfl
    obtain ⟨q, c, idx, hq, hhead, hdisk⟩ := h.flight e hold
    have hqp : q ≠ p := by
      rintro rfl
      have hk := hm.before.symm.trans hq
      rw [Option.map_eq_some_iff] at hk
      obtain ⟨k, rfl, heq⟩ := hk
      obtain ⟨rfl, rfl⟩ := Prod.mk.inj heq
      rw [hm.wait idx _ rfl] at hdisk
      cases hdisk
    refine ⟨q, c, idx, ?_, hhead, (hm.frame h hqp hq).disk.trans hdisk⟩
    rw [hm.after, update_of_ne hqp]
    exact hq
  · exact (hm.flight.map _).nodup_iff.mpr hm.heads
  · rw [hm.requests, hm.publishing]
    intro r hr
    obtain ⟨i, c, hhead, hrest⟩ := h.requests r hr
    have he : r.entry ∈ s.flight := by
      rcases List.mem_append.mp hr with hr | hr
      · exact List.mem_append_right _ (List.mem_append_left _ (List.mem_map_of_mem hr))
      · exact List.mem_append_right _ (List.mem_append_right _
          (List.mem_append_left _ (List.mem_map_of_mem hr)))
    refine ⟨i, c, hhead, ?_⟩
    rw [hinfo _ he i hhead]
    exact hrest
  · rw [hm.publishing, hm.used]
    exact h.publishing
  · rw [hm.used, hm.completed]
    intro e he
    obtain ⟨i, c, hhead, hrest⟩ := h.used e he
    refine ⟨i, c, hhead, ?_⟩
    rw [hinfo e (List.mem_append_right _ (List.mem_append_right _ (List.mem_append_right _ he)))
      i hhead]
    exact hrest

end Move

/-! ### Allocating descriptors -/

/-- Some of the calls that slept have been woken. -/
def Woken (call call' : ι → Option (Call β)) : Prop :=
  ∀ p, call' p = call p ∨
    ∃ c, call p = some c ∧ c.mode = .asleep ∧ call' p = some { c with mode := .acquire }

section Alloc

variable {s t : State ι κ β} {p : ι}

theorem Woken.refl (call : ι → Option (Call β)) : Woken call call := fun _ => .inl rfl

theorem Woken.trans {c₁ c₂ c₃ : ι → Option (Call β)} (h₁ : Woken c₁ c₂) (h₂ : Woken c₂ c₃) :
    Woken c₁ c₃ := by
  intro p
  rcases h₂ p with h₂ | ⟨c, hc, hm, h₂⟩
  · rw [h₂]
    exact h₁ p
  · rcases h₁ p with h₁ | ⟨d, -, -, h₁⟩
    · exact .inr ⟨c, h₁ ▸ hc, hm, h₂⟩
    · rw [hc] at h₁
      obtain rfl := Option.some.inj h₁
      cases hm

theorem woken_wakeup [DecidableEq β] (s : State ι κ β) (chan : Chan β) :
    Woken s.call (wakeup s chan).call := by
  intro p
  simp only [wakeup]
  cases hp : s.call p with
  | none => exact .inl rfl
  | some c =>
    rw [Option.map_some, Call.wakeup]
    split_ifs with hc
    · exact .inr ⟨c, rfl, hc.1, rfl⟩
    · exact .inl rfl

theorem Woken.stage {call call' : ι → Option (Call β)} (h : Woken call call') (p : ι) :
    (call' p).map (fun c => (c.b, c.stage)) = (call p).map fun c => (c.b, c.stage) := by
  rcases h p with hp | ⟨c, hc, -, hp⟩
  · rw [hp]
  · rw [hp, hc]
    rfl

theorem allocDesc_eq_some {i : Fin num} (h : allocDesc s = some (i, t)) :
    s.free i = true ∧ t = { s with free := update s.free i false } := by
  obtain ⟨j, hj, heq⟩ := Option.map_eq_some_iff.mp h
  obtain ⟨rfl, rfl⟩ := Prod.mk.inj heq
  exact ⟨List.find?_some hj, rfl⟩

theorem freeDesc_of_not_free [DecidableEq β] {i : Fin num} (h : s.free i = false) :
    freeDesc s i = .ok (wakeup { s with desc := update s.desc i {}
                                        free := update s.free i true } .free) := by
  rw [freeDesc, dif_pos i.isLt, if_neg (by simp [h])]

theorem freeDesc_allocated [DecidableEq β] {i : Fin num} (h : s.free i = true) :
    freeDesc { s with free := update s.free i false } i =
      .ok (wakeup { s with desc := update s.desc i {} } .free) := by
  have hfree : update (update s.free i false) i true = s.free := by
    rw [update_idem, update_eq_self_iff.mpr h.symm]
  rw [freeDesc_of_not_free (update_self ..)]
  simp only [hfree]

/-- `alloc3_desc` finds three free descriptors, or leaves the descriptors that are in use as they
were. -/
theorem alloc3Desc_cases [DecidableEq β] (s : State ι κ β) :
    (∃ idx f, alloc3Desc s = .ok (some idx, { s with free := f }) ∧ idx.toList.Nodup ∧
      (∀ i ∈ idx.toList, s.free i = true) ∧
      ∀ i, f i = true ↔ s.free i = true ∧ i ∉ idx.toList) ∨
    ∃ d c, alloc3Desc s = .ok (none, { s with desc := d, call := c }) ∧
      (∀ i, s.free i = false → d i = s.desc i) ∧ Woken s.call c := by
  -- writing to a free descriptor leaves those in use alone
  have other : ∀ (d : Fin num → Desc β) (j : Fin num), s.free j = true →
      ∀ i, s.free i = false → update d j {} i = d i := by
    rintro d j hj i hi
    refine update_of_ne ?_ _ _
    rintro rfl
    rw [hj] at hi
    cases hi
  unfold alloc3Desc
  cases h0 : allocDesc s with
  | none => exact .inr ⟨s.desc, s.call, rfl, fun _ _ => rfl, .refl _⟩
  | some x0 =>
    obtain ⟨i0, s1⟩ := x0
    obtain ⟨hf0, rfl⟩ := allocDesc_eq_some h0
    dsimp only
    cases h1 : allocDesc { s with free := update s.free i0 false } with
    | none =>
      refine .inr ⟨update s.desc i0 {}, (wakeup s .free).call, ?_, other _ i0 hf0,
        woken_wakeup s .free⟩
      dsimp only
      rw [freeDesc_allocated hf0]
      rfl
    | some x1 =>
      obtain ⟨i1, s2⟩ := x1
      obtain ⟨hf1, rfl⟩ := allocDesc_eq_some h1
      have hne : i1 ≠ i0 := by
        rintro rfl
        simp at hf1
      have hf1' : s.free i1 = true := by simpa [hne] using hf1
      dsimp only
      cases h2 : allocDesc { s with
          free := update (update s.free i0 false) i1 false } with
      | none =>
        refine .inr ⟨update (update s.desc i0 {}) i1 {},
          (wakeup (wakeup s .free) .free).call, ?_, fun i hi => ?_,
          (woken_wakeup s .free).trans (woken_wakeup _ .free)⟩
        · have hcomm : update (update s.free i0 false) i1 false =
              update (update s.free i1 false) i0 false :=
            update_comm hne.symm ..
          dsimp only
          rw [hcomm, freeDesc_allocated (s := { s with free := update s.free i1 false })
            (by simpa [hne.symm] using hf0), Outcome.bind_ok]
          have hback := freeDesc_allocated
            (s := wakeup { s with desc := update s.desc i0 {} } .free) hf1'
          exact congrArg (Outcome.bind · _) hback
        · rw [other _ i1 hf1' i hi, other _ i0 hf0 i hi]
      | some x2 =>
        obtain ⟨i2, s3⟩ := x2
        obtain ⟨hf2, rfl⟩ := allocDesc_eq_some h2
        have hne1 : i2 ≠ i1 := by
          rintro rfl
          simp at hf2
        have hne0 : i2 ≠ i0 := by
          rintro rfl
          simp [hne.symm] at hf2
        have hf2' : s.free i2 = true := by simpa [hne0, hne1] using hf2
        refine .inl ⟨⟨i0, i1, i2⟩, _, rfl, ?_, ?_, fun i => ?_⟩
        · simp [Idx.toList, hne.symm, hne0.symm, hne1.symm]
        · simp [Idx.toList, hf0, hf1', hf2']
        · simp only [update_apply, Idx.toList, List.mem_cons, List.not_mem_nil, or_false]
          split_ifs <;> simp_all

end Alloc

/-! ### Taking turns -/

section Turns

variable {call call' : ι → Option (Call β)} {lock : Option (ι ⊕ κ)} {handler : κ → Handler}
  {used : Fifo 16 num Entry} {p : ι} {c : Call β} {k : κ}

theorem Turns.woken (h : Turns call lock handler used) (hw : Woken call call') :
    Turns call' lock handler used where
  run q d hq hm := by
    rcases hw q with hq' | ⟨d', -, -, hq'⟩
    · exact h.run q d (hq' ▸ hq) hm
    · obtain rfl := Option.some.inj (hq'.symm.trans hq)
      cases hm
  rest q d hq hm := by
    rcases hw q with hq' | ⟨d', hd', hm', hq'⟩
    · exact h.rest q d (hq' ▸ hq) hm
    · obtain rfl := Option.some.inj (hq'.symm.trans hq)
      exact h.rest q d' hd' (by rw [hm']; exact Mode.noConfusion)
  loop := h.loop
  body := h.body

/-- The call that holds the lock goes on with it. -/
theorem Turns.go [DecidableEq ι] (h : Turns call lock handler used) (hl : lock = some (.inl p))
    (hm : c.mode = .run) : Turns (update call p (some c)) lock handler used where
  run q d hq hd := by
    rcases eq_or_ne q p with rfl | hne
    · exact hl
    · rw [update_of_ne hne] at hq
      exact h.run q d hq hd
  rest q d hq hd := by
    rcases eq_or_ne q p with rfl | hne
    · rw [update_self] at hq
      obtain rfl := Option.some.inj hq
      exact absurd hm hd
    · rw [update_of_ne hne] at hq
      exact h.rest q d hq hd
  loop := h.loop
  body := h.body

/-- The call that holds the lock gives it up. -/
theorem Turns.stop [DecidableEq ι] (h : Turns call lock handler used) (hl : lock = some (.inl p))
    {d : Option (Call β)} (hd : ∀ c, d = some c → c.mode ≠ .run ∧
      (c.stage = .alloc ∨ ∃ idx n, c.stage = .test idx n)) :
    Turns (update call p d) none handler used where
  run q e hq he := by
    rcases eq_or_ne q p with rfl | hne
    · rw [update_self] at hq
      exact absurd he (hd e hq).1
    · rw [update_of_ne hne] at hq
      have hlock := hl.symm.trans (h.run q e hq he)
      exact absurd (Sum.inl.inj (Option.some.inj hlock)).symm hne
  rest q e hq he := by
    rcases eq_or_ne q p with rfl | hne
    · rw [update_self] at hq
      exact (hd e hq).2
    · rw [update_of_ne hne] at hq
      exact h.rest q e hq he
  loop j hj := by
    cases hl.symm.trans (h.loop j hj)
  body := h.body

/-- A call that does not hold the lock goes on without it. -/
theorem Turns.wait [DecidableEq ι] (h : Turns call lock handler used) (hm : c.mode ≠ .run)
    (hs : c.stage = .alloc ∨ ∃ idx n, c.stage = .test idx n) :
    Turns (update call p (some c)) lock handler used where
  run q d hq hd := by
    rcases eq_or_ne q p with rfl | hne
    · rw [update_self] at hq
      obtain rfl := Option.some.inj hq
      exact absurd hd hm
    · rw [update_of_ne hne] at hq
      exact h.run q d hq hd
  rest q d hq hd := by
    rcases eq_or_ne q p with rfl | hne
    · rw [update_self] at hq
      obtain rfl := Option.some.inj hq
      exact hs
    · rw [update_of_ne hne] at hq
      exact h.rest q d hq hd
  loop := h.loop
  body := h.body

theorem Turns.take (h : Turns call none handler used) (x : ι ⊕ κ) :
    Turns call (some x) handler used where
  run q d hq hd := by cases h.run q d hq hd
  rest := h.rest
  loop j hj := by cases h.loop j hj
  body := h.body

/-- A handler goes on: into its loop only with the lock. -/
theorem Turns.setHandler [DecidableEq κ] (h : Turns call lock handler used) {x : Handler}
    (hl : x = .test ∨ x = .body → lock = some (.inr k)) (hb : x = .body → ¬ used.Empty) :
    Turns call lock (update handler k x) used where
  run := h.run
  rest := h.rest
  loop j hj := by
    rcases eq_or_ne j k with rfl | hne
    · rw [update_self] at hj
      exact hl hj
    · rw [update_of_ne hne] at hj
      exact h.loop j hj
  body j hj := by
    rcases eq_or_ne j k with rfl | hne
    · rw [update_self] at hj
      exact hb hj
    · rw [update_of_ne hne] at hj
      exact h.body j hj

/-- A handler leaves its loop, and gives up the lock. -/
theorem Turns.quit [DecidableEq κ] (h : Turns call lock handler used)
    (hl : lock = some (.inr k)) : Turns call none (update handler k .idle) used where
  run q d hq hd := by cases hl.symm.trans (h.run q d hq hd)
  rest := h.rest
  loop j hj := by
    rcases eq_or_ne j k with rfl | hne
    · rw [update_self] at hj
      rcases hj with hj | hj <;> cases hj
    · rw [update_of_ne hne] at hj
      have hlock := hl.symm.trans (h.loop j hj)
      exact absurd (Sum.inr.inj (Option.some.inj hlock)).symm hne
  body j hj := by
    rcases eq_or_ne j k with rfl | hne
    · rw [update_self] at hj
      cases hj
    · rw [update_of_ne hne] at hj
      exact h.body j hj

theorem Turns.setUsed (h : Turns call lock handler used) {used' : Fifo 16 num Entry}
    (hu : ∀ k, handler k = .body → ¬ used'.Empty) : Turns call lock handler used' :=
  { h with body := hu }

end Turns

/-! ### The steps of a call -/

section Calls

variable {s t : State ι κ β} {p : ι} {c : Call β}

theorem stage_setCall [DecidableEq ι] (s : State ι κ β) (p : ι) (c : Option (Call β)) :
    (s.setCall p c).stage =
      update s.stage p (c.map fun c => (c.b, c.stage)) := by
  funext q
  rcases eq_or_ne q p with rfl | hq
  · simp [State.stage, State.setCall]
  · simp [State.stage, State.setCall, hq]

theorem stage_of_call (hp : s.call p = some c) : s.stage p = some (c.b, c.stage) := by
  rw [State.stage, hp]
  rfl

/-- Who runs, who holds the lock and what the request headers say does not matter. -/
theorem Core.congr (h : Core s) {call : ι → Option (Call β)} {lock : Option (ι ⊕ κ)}
    {handler : κ → Handler} (hc : ∀ p, (call p).map (fun c => (c.b, c.stage)) = s.stage p) :
    Core { s with call := call, lock := lock, handler := handler } := by
  have hst : State.stage { s with call := call, lock := lock, handler := handler } = s.stage :=
    funext hc
  obtain ⟨h1, h2, h3, h4, h5, h6, h7, h8⟩ := h
  refine ⟨?_, ?_, ?_, ?_, h5, h6, h7, h8⟩
  · rw [chain_congr hst]
    exact h1
  · rw [hst]
    exact h2
  · intro p b k hk
    rw [hst] at hk
    exact (h3 p b k hk).frame ⟨fun _ _ => rfl, fun _ _ => rfl, rfl, rfl, fun _ _ => ⟨rfl, rfl⟩,
      fun _ _ _ he => he, fun _ hx => hx⟩
  · rw [hst]
    exact h4

/-- While a call holds the lock, no other is about to increment `avail->idx`. -/
theorem Inv.not_bump (h : Inv s) (hp : s.call p = some c) (hm : c.mode = .run) {q : ι}
    (hq : q ≠ p) (b : β) (idx : Idx) : s.stage q ≠ some (b, .bump idx) := by
  intro hst
  obtain ⟨d, hd, heq⟩ := Option.map_eq_some_iff.mp hst
  have hmode : d.mode = .run := by
    by_contra hne
    have hstage := (Prod.mk.inj heq).2
    rcases h.turns.rest q d hd hne with hr | ⟨idx', n, hr⟩
    · rw [hr] at hstage
      cases hstage
    · rw [hr] at hstage
      cases hstage
  have hlock := (h.turns.run q d hd hmode).symm.trans (h.turns.run p c hp hm)
  exact hq (Sum.inl.inj (Option.some.inj hlock))

/-- A call that waits for no request has no head in flight, so there is room in the ring. -/
theorem Core.count_avail_lt (h : Core s) (hp : s.call p = some c) {i : Fin num}
    (hi : i ∈ c.stage.chain) (hs : ∀ idx n, c.stage ≠ .test idx n) :
    (∀ e ∈ s.flight, e.head ≠ i) ∧ s.avail.count < num := by
  have hne : ∀ e ∈ s.flight, e.head ≠ i := fun e he =>
    h.head_ne (stage_of_call hp) hi (fun idx n hk => absurd hk (hs idx n)) he
  have hlt := h.length_flight_lt hne
  rw [length_flight_eq] at hlt
  exact ⟨hne, by omega⟩

end Calls

end Xv6.Virtio
