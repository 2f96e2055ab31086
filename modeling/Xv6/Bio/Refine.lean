import Xv6.Bio.Invariant

/-!
# The buffer cache refines a plain disk

What clients read through the cache is what they last stored, as if there were only one
map from block numbers to contents: the component `store` of the record.

## Main definitions

* `Protected` — a buffer whose contents will not be lost.
* `Coherent` — the relation between the cache, the disk and the map.

## Main results

* `coherent_step` — the relation is kept by every step.
* `cache_refines_disk` — the buffer cache over whole runs.
* `cache_not_plain` — four ways in which it is not a plain disk.
-/

namespace Xv6.Bio

open Function

variable {S : Type*}

/-- The contents of a buffer are not lost yet: it is pinned until the next `bwrite`, or
the session that changed it still holds it. -/
def Protected (x : Sys S × Ghost) (i : Fin nbuf) : Prop :=
  x.2.loose i < x.2.pins i ∨ ∃ p u, x.1.use p = some u ∧ u.buf = i ∧ u.stage = .holding true

/-- The cache and the disk together hold the map `store`. -/
structure Coherent (dev : DevNo) (x : Sys S × Ghost) : Prop where
  onDevice : ∀ p u, x.1.use p = some u → u.dev = dev ∧ u.blockno.toNat < 2 ^ 31
  cached : ∀ i, (x.1.buf i).valid = true → (x.1.buf i).dev = dev ∧
    (x.1.buf i).blockno.toNat < 2 ^ 31 ∧ (x.1.buf i).data = x.2.store (x.1.buf i).blockno
  saved : ∀ b : BlockNo, b.toNat < 2 ^ 31 → x.1.disk (sector b) = x.2.store b ∨
    ∃ i, (x.1.buf i).valid = true ∧ (x.1.buf i).blockno = b ∧ Protected x i

/-- Blocks of the lower half have sectors of their own. -/
theorem sector_injOn {b c : BlockNo} (hb : b.toNat < 2 ^ 31) (hc : c.toNat < 2 ^ 31)
    (h : sector b = sector c) : b = c := by
  have hnat := congrArg BitVec.toNat h
  simp only [sector, BitVec.toNat_mul] at hnat
  refine BitVec.eq_of_toNat_eq ?_
  have htwo : (2 : BitVec 32).toNat = 2 := rfl
  rw [htwo] at hnat
  omega

/-- The buffers have the names and contents they had. -/
def SameBufs (s s' : Sys S) : Prop :=
  ∀ i, (s'.buf i).valid = (s.buf i).valid ∧ (s'.buf i).dev = (s.buf i).dev ∧
    (s'.buf i).blockno = (s.buf i).blockno ∧ (s'.buf i).data = (s.buf i).data

theorem sameBufs_refcnt (s : Sys S) (i : Fin nbuf) (f : BitVec 32 → BitVec 32) :
    SameBufs s (s.modifyBuf i fun x => { x with refcnt := f x.refcnt }) := by
  intro j
  by_cases hj : j = i
  · subst hj
    rw [modifyBuf_self]
    exact ⟨rfl, rfl, rfl, rfl⟩
  · rw [modifyBuf_of_ne s _ hj]
    exact ⟨rfl, rfl, rfl, rfl⟩

theorem sameBufs_setOwner (s : Sys S) (i : Fin nbuf) (o : Option S) :
    SameBufs s (s.setOwner i o) := by
  intro j
  by_cases hj : j = i
  · subst hj
    rw [Sys.setOwner, modifyBuf_self]
    exact ⟨rfl, rfl, rfl, rfl⟩
  · rw [Sys.setOwner, modifyBuf_of_ne s _ hj]
    exact ⟨rfl, rfl, rfl, rfl⟩

/-- A step that leaves names, contents, disk and map alone, and the protection of the
buffers, keeps the accord. -/
theorem Coherent.frame {dev : DevNo} {x x' : Sys S × Ghost} (h : Coherent dev x)
    (hdev : ∀ p u, x'.1.use p = some u → u.dev = dev ∧ u.blockno.toNat < 2 ^ 31)
    (hbuf : SameBufs x.1 x'.1) (hdisk : x'.1.disk = x.1.disk) (hstore : x'.2.store = x.2.store)
    (hprot : ∀ i, Protected x i → Protected x' i) : Coherent dev x' := by
  refine ⟨hdev, fun i => ?_, fun b hb => ?_⟩
  · obtain ⟨hv, hd, hb, hdata⟩ := hbuf i
    rw [hv, hd, hb, hdata, hstore]
    exact h.cached i
  · rw [hdisk, hstore]
    refine (h.saved b hb).imp_right ?_
    rintro ⟨i, hv, hb, hp⟩
    obtain ⟨hv', -, hb', -⟩ := hbuf i
    exact ⟨i, hv'.trans hv, hb'.trans hb, hprot i hp⟩

variable [DecidableEq S]

/-- A session other than a dirty one moves: what was protected stays protected. -/
theorem Protected.goto {s t : Sys S} {g : Ghost} {p : S} {o : Option Use} {i : Fin nbuf}
    (ht : t.use = s.use) (hp : ∀ u, s.use p = some u → u.buf = i → u.stage = .holding true →
      g.loose i < g.pins i ∨ ∃ v, o = some v ∧ v.buf = i ∧ v.stage = .holding true)
    (h : Protected (s, g) i) : Protected (t.goto p o, g) i := by
  obtain hpin | ⟨q, u, hq, hu, hst⟩ := h
  · exact .inl hpin
  by_cases hqp : q = p
  · subst hqp
    refine (hp u hq hu hst).imp_right ?_
    rintro ⟨v, hv, hvb, hvs⟩
    exact ⟨q, v, by rw [goto_use, update_self, hv], hvb, hvs⟩
  · refine .inr ⟨q, u, ?_, hu, hst⟩
    rw [goto_use, update_of_ne hqp, ht]
    exact hq

variable [Fintype S] {dev : DevNo}

omit [Fintype S] in
/-- The sessions stay on the device. -/
theorem Coherent.onDevice_step {x : Sys S × Ghost} {s' : Sys S} {e : Event S}
    (h : Coherent dev x) (hd : OneDevice dev e) (hl : LowBlocks e) (he : Effect x.1 s' e)
    (p : S) (u : Use)
    (hu : s'.use p = some u) : u.dev = dev ∧ u.blockno.toNat < 2 ^ 31 := by
  cases e with
  | bget q dev' b =>
    -- both ways through `bget` leave the new session with what it asked for
    obtain ⟨t, i, ht, rfl⟩ : ∃ (t : Sys S) (i : Fin nbuf), t.use = x.1.use ∧
        s' = t.goto q (some ⟨dev', b, i, .waiting⟩) := by
      obtain ⟨-, i, ⟨-, hs⟩ | ⟨-, -, hs⟩⟩ := he
      · exact ⟨x.1.bpin i, i, rfl, hs⟩
      · exact ⟨x.1.recycle i dev' b, i, rfl, hs⟩
    by_cases hpq : p = q
    · rw [hpq, goto_use, update_self, Option.some.injEq] at hu
      subst hu
      exact ⟨hd, hl⟩
    · rw [goto_use, update_of_ne hpq, ht] at hu
      exact h.onDevice p u hu
  | _ =>
    obtain ⟨c, hc⟩ := (same_of_not_bget he nofun).2 p u hu
    have hon := h.onDevice p _ hc
    exact hon

omit [DecidableEq S] in
/-- An invalid buffer's block is up to date on the disk. -/
theorem Coherent.disk_of_invalid (hne : dev ≠ 0) {x : Sys S × Ghost} (hi : Inv x)
    (h : Coherent dev x) {i : Fin nbuf} (hv : (x.1.buf i).valid = false)
    (hdev : (x.1.buf i).dev = dev) (hb : (x.1.buf i).blockno.toNat < 2 ^ 31) :
    x.1.disk (sector (x.1.buf i).blockno) = x.2.store (x.1.buf i).blockno := by
  obtain hsaved | ⟨j, hj, hblk, -⟩ := h.saved _ hb
  · exact hsaved
  -- a valid buffer of the same block would be this one
  have hji : j = i := by
    refine hi.identity.unique j i ?_ ?_ hblk
    · rw [(h.cached j hj).1]
      exact hne
    · rw [(h.cached j hj).1, hdev]
  rw [hji, hv] at hj
  cases hj

/-- **One step keeps the cache and the disk in accord with the map.** -/
theorem coherent_step (hne : dev ≠ 0) {x x' : Sys S × Ghost} {e : Event S}
    (hi : Inv x) (h : Coherent dev x) (hc : Disciplined x e) (hd : OneDevice dev e)
    (hl : LowBlocks e) (hs : traced x e = .ok x') : Coherent dev x' := by
  obtain ⟨he, hg⟩ := traced_inversion hs
  obtain ⟨s, g⟩ := x
  obtain ⟨s', g'⟩ := x'
  dsimp only at he hg
  have hdevice := h.onDevice_step hd hl he
  subst hg
  cases e with
  | bget p dev' b =>
    obtain ⟨hp, i, ⟨hlook, rfl⟩ | ⟨hlook, hvict, rfl⟩⟩ := he
    · refine h.frame hdevice (sameBufs_refcnt s i (· + 1)) rfl rfl fun j => ?_
      exact Protected.goto rfl fun u hu => by rw [hp] at hu; cases hu
    obtain ⟨r, hr, hfree, -⟩ := hi.ring.victim
    rw [hvict, Option.some.injEq] at hr
    have hzero : refs s i + g.pins i = 0 := hi.counts.eq_zero (hfree i hr.symm)
    have hother : ∀ j, j ≠ i → (s.recycle i dev' b).buf j = s.buf j := fun j hj =>
      modifyBuf_of_ne s _ hj
    have hself : ((s.recycle i dev' b).buf i).valid = false := by
      rw [Sys.recycle, modifyBuf_self]
    refine ⟨hdevice, fun j hj => ?_, fun c hc => ?_⟩
    · by_cases hji : j = i
      · rw [goto_buf, hji, hself] at hj
        cases hj
      · rw [goto_buf, hother j hji] at hj ⊢
        exact h.cached j hj
    refine (h.saved c hc).imp_right ?_
    rintro ⟨j, hj, hblk, hprot⟩
    -- nothing protects the buffer that is recycled, since nothing refers to it
    have hji : j ≠ i := by
      rintro rfl
      obtain hpin | ⟨q, u, hq, hu, -⟩ := hprot
      · have : g.loose j < g.pins j := hpin
        omega
      · have : 1 ≤ refs s u.buf := one_le_refs hq
        rw [hu] at this
        omega
    have hprot' : Protected ((s.recycle i dev' b).goto p (some ⟨dev', b, i, .waiting⟩), g) j :=
      Protected.goto (s := s) rfl (fun u hu => by rw [hp] at hu; cases hu) hprot
    refine ⟨j, ?_, ?_, hprot'⟩
    · rw [goto_buf, hother j hji]
      exact hj
    · rw [goto_buf, hother j hji]
      exact hblk
  | acquiresleep p =>
    obtain ⟨dev', b, i, hp, -, rfl⟩ := he
    refine h.frame hdevice (sameBufs_setOwner s i (some p)) rfl rfl fun j => ?_
    refine Protected.goto rfl fun u hu _ hst => ?_
    rw [hp, Option.some.injEq] at hu
    subst hu
    cases hst
  | bread p =>
    obtain ⟨dev', b, i, hp, rfl⟩ := he
    have hprot : ∀ j, Protected (s, g) j →
        Protected ((s.fill i).goto p (some ⟨dev', b, i, .holding false⟩), g) j := by
      intro j
      refine Protected.goto (fill_use s i) fun u hu _ hst => ?_
      rw [hp, Option.some.injEq] at hu
      subst hu
      cases hst
    cases hv : (s.buf i).valid with
    | true =>
      have hfill : s.fill i = s := if_pos hv
      rw [hfill] at hdevice hprot ⊢
      exact h.frame hdevice (fun j => ⟨rfl, rfl, rfl, rfl⟩) rfl rfl hprot
    | false =>
      have hown := hi.identity.own p _ hp
      have hon := h.onDevice p _ hp
      have hdisk := h.disk_of_invalid hne hi hv (hown.1.trans hon.1) (hown.2 ▸ hon.2)
      have hbuf : (s.fill i).buf = update s.buf i
          { s.buf i with data := s.disk (sector (s.buf i).blockno), valid := true } := by
        rw [Sys.fill, hv]
        rfl
      refine ⟨hdevice, fun j hj => ?_, fun c hc => ?_⟩
      · rw [goto_buf, hbuf] at hj ⊢
        by_cases hji : j = i
        · subst hji
          rw [update_self]
          exact ⟨hown.1.trans hon.1, hown.2 ▸ hon.2, hdisk⟩
        · rw [update_of_ne hji] at hj ⊢
          exact h.cached j hj
      · rw [goto_disk, fill_disk, goto_buf, hbuf]
        refine (h.saved c hc).imp_right ?_
        rintro ⟨j, hj, hblk, hpr⟩
        have hji : j ≠ i := by
          rintro rfl
          rw [hv] at hj
          cases hj
        refine ⟨j, ?_, ?_, hprot j hpr⟩
        · rw [update_of_ne hji]
          exact hj
        · rw [update_of_ne hji]
          exact hblk
  | modify p v =>
    obtain ⟨dev', b, i, c, hp, rfl⟩ := he
    have hown : (s.buf i).dev = dev' ∧ (s.buf i).blockno = b := hi.identity.own p _ hp
    have hon : dev' = dev ∧ b.toNat < 2 ^ 31 := h.onDevice p _ hp
    have hvalid : (s.buf i).valid = true := (hi.locks p _ hp).2 c rfl
    have hg : Ghost.next s g (.modify p v) = { g with store := update g.store b v } := by
      simp only [Ghost.next, hp]
    rw [hg]
    -- another valid buffer carries another block
    have hblk : ∀ j, j ≠ i → (s.buf j).valid = true → (s.buf j).blockno ≠ b := by
      intro j hji hj heq
      refine hji (hi.identity.unique j i ?_ ?_ (heq.trans hown.2.symm))
      · rw [(h.cached j hj).1]
        exact hne
      · rw [(h.cached j hj).1, hown.1, hon.1]
    have hother : ∀ j, j ≠ i → (s.modifyBuf i fun x => { x with data := v }).buf j = s.buf j :=
      fun j hj => modifyBuf_of_ne s _ hj
    refine ⟨hdevice, fun j hj => ?_, fun k hk => ?_⟩
    · rw [goto_buf] at hj ⊢
      by_cases hji : j = i
      · subst hji
        rw [modifyBuf_self]
        refine ⟨hown.1.trans hon.1, hown.2 ▸ hon.2, ?_⟩
        show v = update g.store b v (s.buf j).blockno
        rw [hown.2, update_self]
      · rw [hother j hji] at hj ⊢
        obtain ⟨h1, h2, h3⟩ := h.cached j hj
        refine ⟨h1, h2, ?_⟩
        show (s.buf j).data = update g.store b v (s.buf j).blockno
        rw [update_of_ne (hblk j hji hj)]
        exact h3
    · by_cases hkb : k = b
      · -- the block just changed is protected by this session
        refine .inr ⟨i, ?_, ?_, .inr ⟨p, _, update_self .., rfl, rfl⟩⟩
        · rw [goto_buf, modifyBuf_self]
          exact hvalid
        · rw [goto_buf, modifyBuf_self, hkb]
          exact hown.2
      have hstore : update g.store b v k = g.store k := update_of_ne hkb ..
      dsimp only
      rw [hstore]
      refine (h.saved k hk).imp_right ?_
      rintro ⟨j, hj, hblkj, hpr⟩
      have hji : j ≠ i := by
        rintro rfl
        exact hkb (hblkj.symm.trans hown.2)
      refine ⟨j, ?_, ?_, ?_⟩
      · rw [goto_buf, hother j hji]
        exact hj
      · rw [goto_buf, hother j hji]
        exact hblkj
      · refine Protected.goto (s := s) rfl (fun u hu hub _ => ?_) hpr
        rw [hp, Option.some.injEq] at hu
        subst hu
        exact absurd hub.symm hji
  | bwrite p =>
    obtain ⟨dev', b, i, c, hp, rfl⟩ := he
    have hown : (s.buf i).dev = dev' ∧ (s.buf i).blockno = b := hi.identity.own p _ hp
    have hon : dev' = dev ∧ b.toNat < 2 ^ 31 := h.onDevice p _ hp
    have hvalid : (s.buf i).valid = true := (hi.locks p _ hp).2 c rfl
    have hg : Ghost.next s g (.bwrite p : Event S)
        = { g with loose := update g.loose i (g.pins i) } := by
      simp only [Ghost.next, hp]
    rw [hg]
    refine ⟨hdevice, h.cached, fun k hk => ?_⟩
    show update s.disk (sector (s.buf i).blockno) (s.buf i).data (sector k) = g.store k ∨ _
    rw [hown.2]
    by_cases hkb : k = b
    · -- the block just written is up to date on the disk
      left
      have hdata : (s.buf i).data = g.store (s.buf i).blockno := (h.cached i hvalid).2.2
      rw [hkb, update_self, hdata, hown.2]
    rw [update_of_ne fun heq => hkb (sector_injOn hk hon.2 heq)]
    refine (h.saved k hk).imp_right ?_
    rintro ⟨j, hj, hblkj, hpr⟩
    have hji : j ≠ i := by
      rintro rfl
      exact hkb (hblkj.symm.trans hown.2)
    refine ⟨j, hj, hblkj, ?_⟩
    obtain hpin | ⟨q, u, hq, hu, hst⟩ := hpr
    · left
      show update g.loose i (g.pins i) j < g.pins j
      rw [update_of_ne hji]
      exact hpin
    refine .inr ⟨q, u, ?_, hu, hst⟩
    have hqp : q ≠ p := by
      rintro rfl
      have hq : s.use q = some u := hq
      rw [hp, Option.some.injEq] at hq
      subst hq
      exact hji hu.symm
    rw [goto_use, update_of_ne hqp]
    exact hq
  | releasesleep p =>
    obtain ⟨dev', b, i, c, hp, -, rfl⟩ := he
    refine h.frame hdevice (sameBufs_setOwner s i none) rfl rfl fun j => ?_
    refine Protected.goto rfl fun u hu hub hst => ?_
    rw [hp, Option.some.injEq] at hu
    subst hu
    -- a changed buffer is released only while a pin protects it
    cases hst
    simp only [Disciplined, hp] at hc
    subst hub
    exact .inl hc
  | brelse p =>
    obtain ⟨dev', b, i, hp, rfl⟩ := he
    refine h.frame hdevice (fun j => ?_) (by simp) rfl fun j => ?_
    · rw [goto_buf, brelse_buf]
      exact sameBufs_refcnt s i (· - 1) j
    · refine Protected.goto (brelse_use s i) fun u hu _ hst => ?_
      rw [hp, Option.some.injEq] at hu
      subst hu
      cases hst
  | bpin i =>
    subst he
    refine h.frame hdevice (sameBufs_refcnt s i (· + 1)) rfl rfl fun j => ?_
    rintro (hpin | hdirty)
    · left
      have hpin : g.loose j < g.pins j := hpin
      show g.loose j < update g.pins i (g.pins i + 1) j
      by_cases hji : j = i
      · subst hji
        rw [update_self]
        omega
      · rwa [update_of_ne hji]
    · exact .inr hdirty
  | bunpin i =>
    subst he
    have hpos : 0 < g.loose i := hc
    refine h.frame hdevice (sameBufs_refcnt s i (· - 1)) rfl rfl fun j => ?_
    rintro (hpin | hdirty)
    · left
      have hpin : g.loose j < g.pins j := hpin
      show update g.loose i (g.loose i - 1) j < update g.pins i (g.pins i - 1) j
      by_cases hji : j = i
      · subst hji
        rw [update_self, update_self]
        omega
      · rwa [update_of_ne hji, update_of_ne hji]
    · exact .inr hdirty

omit [DecidableEq S] [Fintype S] in
theorem coherent_atBoot (d : BitVec 32 → Block) : Coherent dev (atBoot d : Sys S × Ghost) :=
  ⟨nofun, nofun, fun _ _ => .inl rfl⟩

/-- **The buffer cache refines a plain disk.**  No two buffers carry the same block of a
device in use; a count is the number of references, and while it is not zero no step
gives the buffer to another block; the links form one ring through all buffers; and
while all reads are of one device and below the block number at which sector numbers
wrap, whoever holds a buffer sees what was last stored in its block. -/
theorem cache_refines_disk (d : BitVec 32 → Block) {x : Sys S × Ghost}
    (h : Reach traced (fun y e => Disciplined y e ∧ NoOverflow y e) (atBoot d) x) :
    (∀ i j, (x.1.buf i).dev ≠ 0 → (x.1.buf i).dev = (x.1.buf j).dev →
      (x.1.buf i).blockno = (x.1.buf j).blockno → i = j) ∧
    (∀ i, (x.1.buf i).refcnt.toNat = count x i) ∧
    (∀ e x', traced x e = .ok x' → ∀ i, (x.1.buf i).refcnt ≠ 0 →
      (x'.1.buf i).dev = (x.1.buf i).dev ∧ (x'.1.buf i).blockno = (x.1.buf i).blockno) ∧
    (∃ l, Ring x.1.links l ∧ l.Perm (List.finRange nbuf)) ∧
    ∀ dev : DevNo, dev ≠ 0 →
      Reach traced (fun y e => (Disciplined y e ∧ NoOverflow y e) ∧ OneDevice dev e ∧ LowBlocks e)
        (atBoot d) x →
      ∀ p u c, x.1.use p = some u → u.stage = .holding c →
        (x.1.buf u.buf).dev = u.dev ∧ (x.1.buf u.buf).blockno = u.blockno ∧
        (x.1.buf u.buf).data = x.2.store u.blockno := by
  have hinv := inv_reach h
  refine ⟨hinv.identity.unique, hinv.counts.toNat, fun e x' hs i => name_kept hinv hs, ?_, ?_⟩
  · obtain ⟨l, hring, hall⟩ := hinv.ring
    refine ⟨l, hring, ?_⟩
    exact (List.perm_ext_iff_of_nodup hring.nodup (List.nodup_finRange nbuf)).mpr
      fun i => by simp [hall i]
  intro dev hne hdev p u c hp hst
  -- along the run both invariants hold, the second because of the first
  have hboth : Inv x ∧ Coherent dev x := by
    refine hdev.invariant (I := fun y => Inv y ∧ Coherent dev y)
      ⟨inv_atBoot d, coherent_atBoot d⟩ ?_
    rintro y e y' ⟨hi, hco⟩ ⟨⟨hc, ho⟩, hd, hl⟩ hs
    exact ⟨inv_step hi hc ho hs, coherent_step hne hi hco hc hd hl hs⟩
  obtain ⟨hdev', hblk⟩ := hinv.identity.own p u hp
  have hvalid := (hinv.locks p u hp).2 c hst
  exact ⟨hdev', hblk, by rw [(hboth.2.cached _ hvalid).2.2, hblk]⟩

instance : NeZero nbuf := ⟨by decide⟩

/-- `bread`, to its return. -/
def readEvents (p : S) (dev : DevNo) (b : BlockNo) : List (Event S) :=
  [.bget p dev b, .acquiresleep p, .bread p]

/-- A block other than the empty one. -/
def ones : Block := Bytes.zero.set 0 1

/-- A block is read, changed, pinned and released, and read again. -/
def reread : List (Event (Fin 1)) :=
  readEvents 0 1 7 ++ [.modify 0 ones, .bpin 0, .releasesleep 0, .brelse 0] ++ readEvents 0 1 7

/-- The second `bread` finds what the first session stored. -/
theorem cache_refines_disk_reread : ∃ x : Sys (Fin 1) × Ghost,
    run traced (atBoot fun _ => Bytes.zero) reread = .ok x ∧
      x.1.use 0 = some ⟨1, 7, 0, .holding false⟩ ∧ (x.1.buf 0).data = ones := by
  have hrun : ∃ x : Sys (Fin 1) × Ghost,
      run traced (atBoot fun _ => Bytes.zero) reread = .ok x ∧
        x.1.use 0 = some ⟨1, 7, 0, .holding false⟩ ∧ x.2.store 7 = ones := ⟨_, rfl, rfl, rfl⟩
  obtain ⟨x, hx, huse, hstore⟩ := hrun
  refine ⟨x, hx, huse, ?_⟩
  have hread := (cache_refines_disk (fun _ => Bytes.zero)
    (reach_of_run .refl (by decide) hx)).2.2.2.2 1 (by decide)
    (reach_of_run .refl (by decide) hx) 0 _ false huse rfl
  rw [hread.2.2]
  exact hstore

/-! ### Where the cache is not a plain disk -/

/-- Some session holds a buffer with other contents than were last stored in its block. -/
def Misread (x : Sys S × Ghost) : Prop :=
  ∃ p u c, x.1.use p = some u ∧ u.stage = .holding c ∧
    (x.1.buf u.buf).data ≠ x.2.store u.blockno

/-- A test for `Misread`: session `p` does not see what is stored. -/
def misreads (p : S) (x : Sys S × Ghost) : Bool :=
  match x.1.use p with
  | some ⟨_, b, i, .holding _⟩ => (x.1.buf i).data != x.2.store b
  | _ => false

omit [DecidableEq S] [Fintype S] in
theorem misread_of_misreads {p : S} {x : Sys S × Ghost} (h : misreads p x = true) : Misread x := by
  unfold misreads at h
  split at h
  · next dev b i c hp => exact ⟨p, _, c, hp, rfl, bne_iff_ne.mp h⟩
  · cases h

/-- A block is changed and pinned as one of device 1, and read as one of device 2. -/
def twoDevices : List (Event (Fin 2)) :=
  readEvents 0 1 7 ++ [.modify 0 ones, .bpin 0, .releasesleep 0, .brelse 0] ++ readEvents 0 2 7

/-- Block 0 is changed and written, and block 2^31 is read: both start at sector 0. -/
def sameSector : List (Event (Fin 2)) :=
  readEvents 0 1 0 ++ [.modify 0 ones, .bwrite 0, .releasesleep 0, .brelse 0] ++
    readEvents 0 1 0x80000000#32

/-- The state after `n` calls of `bpin` on buffer `i`. -/
def afterPins (x : Sys S × Ghost) (i : Fin nbuf) (n : ℕ) : Sys S × Ghost :=
  (x.1.modifyBuf i fun y => { y with refcnt := y.refcnt + BitVec.ofNat 32 n },
    { x.2 with pins := update x.2.pins i (x.2.pins i + n) })

omit [Fintype S] in
theorem run_bpin (x : Sys S × Ghost) (i : Fin nbuf) (n : ℕ) :
    run traced x (List.replicate n (.bpin i)) = .ok (afterPins x i n) := by
  induction n generalizing x with
  | zero =>
    rw [List.replicate_zero, run_nil, afterPins, Sys.modifyBuf]
    simp
  | succ n ih =>
    rw [List.replicate_succ, run_cons]
    have hstep : traced x (.bpin i) = .ok (afterPins x i 1) := rfl
    rw [hstep, Outcome.bind_ok, ih]
    simp only [afterPins, update_self, update_idem,
      Outcome.ok.injEq, Prod.mk.injEq, Ghost.mk.injEq, Sys.modifyBuf, and_true]
    refine ⟨?_, ?_⟩
    · rw [BitVec.add_assoc, ← BitVec.ofNat_add, Nat.add_comm 1 n]
    · rw [Nat.add_assoc, Nat.add_comm 1 n]

/-- Session 0 changes block 0 and keeps it. -/
def beforePins : List (Event (Fin 2)) := readEvents 0 1 0 ++ [.modify 0 ones]

/-- Session 1 asks for block 1; session 0 releases block 0 and reads it again. -/
def afterOverflow : List (Event (Fin 2)) :=
  [.bget 1 1 1, .releasesleep 0, .brelse 0] ++ readEvents 0 1 0

/-- **The cache is not a plain disk without reservations.**  After `binit` all buffers carry
the same name.  A disciplined client reads something other than what was last stored if it
uses two device numbers, if it uses two block numbers with one sector, and if it pins a
buffer until its count wraps. -/
theorem cache_not_plain :
    (∃ i j : Fin nbuf, i ≠ j ∧
      ((binit fun _ => Bytes.zero : Sys (Fin 2)).buf i).dev
        = ((binit fun _ => Bytes.zero : Sys (Fin 2)).buf j).dev ∧
      ((binit fun _ => Bytes.zero : Sys (Fin 2)).buf i).blockno
        = ((binit fun _ => Bytes.zero : Sys (Fin 2)).buf j).blockno) ∧
    (∃ x : Sys (Fin 2) × Ghost, Reach traced
      (fun y e => (Disciplined y e ∧ NoOverflow y e) ∧ LowBlocks e)
      (atBoot fun _ => Bytes.zero) x ∧ Misread x) ∧
    (∃ x : Sys (Fin 2) × Ghost, Reach traced
      (fun y e => (Disciplined y e ∧ NoOverflow y e) ∧ OneDevice 1 e)
      (atBoot fun _ => Bytes.zero) x ∧ Misread x) ∧
    (∃ x : Sys (Fin 2) × Ghost, Reach traced
      (fun y e => Disciplined y e ∧ OneDevice 1 e ∧ LowBlocks e)
      (atBoot fun _ => Bytes.zero) x ∧ Misread x) := by
  refine ⟨⟨0, 1, by decide, rfl, rfl⟩, ?_, ?_, ?_⟩
  · obtain ⟨x, hx, hmis⟩ := Outcome.exists_of_check (p := misreads 0)
      (x := run traced (atBoot fun _ => Bytes.zero) twoDevices) (by decide +kernel)
    exact ⟨x, reach_of_run .refl (by decide +kernel) hx, misread_of_misreads hmis⟩
  · obtain ⟨x, hx, hmis⟩ := Outcome.exists_of_check (p := misreads 0)
      (x := run traced (atBoot fun _ => Bytes.zero) sameSector) (by decide +kernel)
    exact ⟨x, reach_of_run .refl (by decide +kernel) hx, misread_of_misreads hmis⟩
  have hrun : ∃ x : Sys (Fin 2) × Ghost,
      run traced (atBoot fun _ => Bytes.zero) beforePins = .ok x ∧
        (run traced (afterPins x 0 4294967295) afterOverflow).check (misreads 0) = true ∧
        Permitted traced (fun y e => Disciplined y e ∧ OneDevice 1 e ∧ LowBlocks e)
          (afterPins x 0 4294967295) afterOverflow :=
    ⟨_, rfl, by decide +kernel, by decide +kernel⟩
  obtain ⟨x, hx, htest, hperm⟩ := hrun
  obtain ⟨y, hy, hmis⟩ := Outcome.exists_of_check htest
  refine ⟨y, reach_of_run (reach_of_run (reach_of_run .refl (by decide +kernel) hx) ?_
    (run_bpin x 0 4294967295)) hperm hy, misread_of_misreads hmis⟩
  refine permitted_of_forall (fun t e he => ?_) x
  rw [List.eq_of_mem_replicate he]
  exact ⟨trivial, trivial, trivial⟩

end Xv6.Bio
