import Xv6.Console.Model

/-!
# The line discipline

A reference for the console: a queue of committed bytes, and the line the user is editing.
The ring of the console holds both, one after the other, however often its indices have
wrapped; and what `consoleread` returns is what the reference says.

## Main definitions

* `Ref`, `Ref.step` — the reference.
* `Cons.committed`, `Cons.line` — the bytes in the ring that are committed, and the others.
* `Cons.Sane` — the indices are in order, and a full ring is committed.

## Main results

* `Cons.Sane.consoleintr` — the interrupt handler edits the line as the reference does.
* `Cons.Sane.consoleread` — a turn of `consoleread` takes what the reference does.
* `line_discipline` — the console agrees with the reference after any events.
-/

namespace Xv6.Console

/-! ### The reference -/

/-- What a read of `n` bytes takes from a queue: up to `n` bytes, up to and including the first
line feed, and up to the first ^D. -/
def cut : ℕ → List UInt8 → List UInt8
  | 0, _ => []
  | _, [] => []
  | n + 1, c :: q => if c = ctrlD then [] else if c = lf then [c] else c :: cut n q

/-- The queue has all that a read of `n` bytes will return. -/
def Complete : ℕ → List UInt8 → Prop
  | 0, _ => True
  | _, [] => False
  | n + 1, c :: q => c = ctrlD ∨ c = lf ∨ Complete n q

instance decidableComplete : (n : ℕ) → (q : List UInt8) → Decidable (Complete n q)
  | 0, _ => isTrue trivial
  | _ + 1, [] => isFalse id
  | n + 1, c :: q =>
    have := decidableComplete n q
    inferInstanceAs (Decidable (c = ctrlD ∨ c = lf ∨ Complete n q))

/-- A queue of committed bytes, the line being edited, the read in progress with the bytes it
has taken so far, and what reads returned. -/
structure Ref where
  queue : List UInt8
  line : List UInt8
  reader : Option (ℕ × List UInt8)
  log : List (ℤ × List UInt8)

namespace Ref

/-- Commit the line. -/
def commit (a : Ref) : Ref := { a with queue := a.queue ++ a.line, line := [] }

/-- Append a byte to the line, and commit it if that completes it or fills the console. -/
def put (a : Ref) (c : UInt8) : Ref :=
  let b := { a with line := a.line ++ [c] }
  if c = lf ∨ c = ctrlD ∨ b.queue.length + b.line.length = inputBuf then b.commit else b

/-- A byte is typed. -/
def type (a : Ref) (c : UInt8) : Ref :=
  if c = ctrlP ∨ c = 0 then a
  else if c = ctrlU then { a with line := [] }
  else if c = ctrlH ∨ c = del then { a with line := a.line.dropLast }
  else if inputBuf ≤ a.queue.length + a.line.length then a
  else a.put (if c = cr then lf else c)

/-- The read in progress takes what it can.  It returns if that is all it will take; a read
that takes nothing because of a ^D takes the ^D. -/
def serve (a : Ref) : Ref :=
  match a.reader with
  | none => a
  | some (n, got) =>
    let left := n - got.length
    let got' := got ++ cut left a.queue
    let queue' := a.queue.drop (cut left a.queue).length
    if Complete left a.queue then
      { a with queue := if n ≠ 0 ∧ got' = [] then queue'.tail else queue'
               reader := none
               log := a.log ++ [((got'.length : ℤ), got')] }
    else { a with queue := queue', reader := some (n, got') }

theorem serve_of_complete {queue line got l : List UInt8} {n : ℕ} {log : List (ℤ × List UInt8)}
    (hcut : cut (n - got.length) queue = l) (hc : Complete (n - got.length) queue) :
    (⟨queue, line, some (n, got), log⟩ : Ref).serve
      = ⟨if n ≠ 0 ∧ got ++ l = [] then (queue.drop l.length).tail else queue.drop l.length, line,
          none, log ++ [(((got ++ l).length : ℤ), got ++ l)]⟩ := by
  rw [serve]
  dsimp only
  rw [if_pos hc, hcut]

theorem serve_of_not {queue line got l : List UInt8} {n : ℕ} {log : List (ℤ × List UInt8)}
    (hcut : cut (n - got.length) queue = l) (hc : ¬ Complete (n - got.length) queue) :
    (⟨queue, line, some (n, got), log⟩ : Ref).serve
      = ⟨queue.drop l.length, line, some (n, got ++ l), log⟩ := by
  rw [serve]
  dsimp only
  rw [if_neg hc, hcut]

/-- One step of the reference. -/
def step (a : Ref) : Event → Ref
  | .intr c => a.type c
  | .read n _ _ => { a with reader := some (n.toNat, []) }.serve
  | .resume _ => a.serve

/-- The reference at boot. -/
def start : Ref := ⟨[], [], none, []⟩

end Ref

/-! ### The bytes in the ring -/

namespace Cons

/-- The number of committed bytes. -/
def ready (s : Cons) : ℕ := (s.w - s.r).toNat

/-- The committed bytes. -/
def committed (s : Cons) : List UInt8 := s.ring.contents.take s.ready

/-- The bytes of the line being edited. -/
def line (s : Cons) : List UInt8 := s.ring.contents.drop s.ready

/-- The indices are in order, a full ring is committed, and the line being edited has no byte
that would have committed it. -/
structure Sane (s : Cons) : Prop where
  ready_le : s.ready ≤ s.ring.count
  count_le : s.ring.count ≤ inputBuf
  full : s.ring.count = inputBuf → s.w = s.e
  plain : ∀ c ∈ s.line, c ≠ lf ∧ c ≠ ctrlD

variable {s : Cons} {c : UInt8} {q : List UInt8}

theorem committed_append_line (s : Cons) : s.committed ++ s.line = s.ring.contents :=
  List.take_append_drop ..

theorem w_eq (s : Cons) : s.w = s.r + BitVec.ofNat 32 s.ready := by
  rw [ready, BitVec.ofNat_toNat, BitVec.setWidth_eq, BitVec.add_comm]
  exact (BitVec.sub_add_cancel ..).symm

theorem ready_eq_count_iff : s.ready = s.ring.count ↔ s.w = s.e := by
  rw [eq_comm, Fifo.count_eq_iff (c := s.ready) (BitVec.isLt _), ← w_eq]
  exact eq_comm

theorem ready_eq_zero_iff : s.ready = 0 ↔ s.r = s.w := by
  constructor
  · intro h
    rw [s.w_eq, h, BitVec.add_zero]
  · intro h
    rw [ready, h, BitVec.sub_self, BitVec.toNat_zero]

theorem Sane.length_committed (h : s.Sane) : s.committed.length = s.ready := by
  have := h.ready_le
  rw [committed, List.length_take, Fifo.length_contents]
  omega

theorem length_line (s : Cons) : s.line.length = s.ring.count - s.ready := by
  rw [line, List.length_drop, Fifo.length_contents]

/-- The line is as long as the distance of the indices around it. -/
theorem Sane.length_line_le (h : s.Sane) : s.line.length ≤ (s.e - s.w).toNat := by
  have hle := h.ready_le
  have hlt : s.ring.count < 2 ^ 32 := BitVec.isLt _
  obtain ⟨k, hk⟩ : ∃ k, s.ring.count = s.ready + k := ⟨s.ring.count - s.ready, by omega⟩
  have he : s.e = s.w + BitVec.ofNat 32 k := by
    have hnw : s.e = s.r + BitVec.ofNat 32 s.ring.count := s.ring.nwrite_eq
    rw [hnw, hk, BitVec.ofNat_add, ← BitVec.add_assoc, ← s.w_eq]
  rw [s.length_line, he, BitVec.add_comm, BitVec.add_sub_cancel, BitVec.toNat_ofNat,
    Nat.mod_eq_of_lt (by omega)]
  omega

theorem Sane.line_eq_nil_iff (h : s.Sane) : s.line = [] ↔ s.e = s.w := by
  have hle := h.ready_le
  rw [← List.length_eq_zero_iff, s.length_line, eq_comm (a := s.e), ← ready_eq_count_iff]
  omega

theorem committed_line_of {t : Cons} {q l : List UInt8} (hc : t.ring.contents = q ++ l)
    (hr : t.ready = q.length) : t.committed = q ∧ t.line = l := by
  rw [committed, line, hc, hr]
  exact ⟨List.take_left, List.drop_left⟩

theorem not_empty_of_line (h : s.Sane) (hne : s.e ≠ s.w) : ¬ s.ring.Empty := by
  have hle := h.ready_le
  have hlt := mt ready_eq_count_iff.mp (Ne.symm hne)
  rw [Fifo.empty_iff]
  omega

/-! ### Editing -/

/-- **Erasing the last byte of the line.** -/
theorem Sane.erase (h : s.Sane) (hne : s.e ≠ s.w) :
    s.erase.Sane ∧ s.erase.committed = s.committed ∧ s.erase.line = s.line.dropLast ∧
      s.line.getLast? = some s.ring.back := by
  have hempty := not_empty_of_line h hne
  have hcount := Fifo.count_unpush hempty
  have hle := h.ready_le
  have hlt := mt ready_eq_count_iff.mp (Ne.symm hne)
  have hle128 := h.count_le
  have hcontents := Fifo.contents_unpush hempty
  have hlen : s.ring.unpush.contents.length = s.ring.unpush.count := Fifo.length_contents
  have hready : s.erase.ready = s.ready := rfl
  have hline : s.line = s.erase.line ++ [s.ring.back] := by
    rw [line, line, hcontents, hready, List.drop_append_of_le_length (by omega)]
    rfl
  have hcommitted : s.erase.committed = s.committed := by
    rw [committed, committed, hcontents, hready, List.take_append_of_le_length (by omega)]
    rfl
  refine ⟨⟨?_, ?_, fun hfull => ?_, fun c hc => h.plain c ?_⟩, hcommitted, ?_, ?_⟩
  · show s.ready ≤ s.ring.unpush.count
    omega
  · show s.ring.unpush.count ≤ _
    omega
  · have hfull : s.ring.unpush.count = inputBuf := hfull
    omega
  · rw [hline]
    exact List.mem_append_left _ hc
  · rw [hline, List.dropLast_concat]
  · rw [hline, List.getLast?_concat]

/-- **Killing the line.** -/
theorem Sane.killLine (h : s.Sane) {fuel : ℕ} (hfuel : s.line.length ≤ fuel) :
    (s.killLine fuel).Sane ∧ (s.killLine fuel).committed = s.committed ∧
      (s.killLine fuel).line = [] := by
  induction fuel generalizing s with
  | zero => exact ⟨h, rfl, List.length_eq_zero_iff.mp (Nat.le_zero.mp hfuel)⟩
  | succ fuel ih =>
    rw [Cons.killLine]
    by_cases hne : s.e = s.w
    · rw [if_neg fun hand => hand.1 hne]
      exact ⟨h, rfl, h.line_eq_nil_iff.mpr hne⟩
    obtain ⟨hsane, hcommitted, hline, hlast⟩ := h.erase hne
    -- a line feed would have committed the line
    have hback := (h.plain _ (List.mem_of_getLast? hlast)).1
    rw [if_pos ⟨hne, hback⟩]
    have hlen : s.erase.line.length ≤ fuel := by
      rw [hline, List.length_dropLast]
      omega
    obtain ⟨h₁, h₂, h₃⟩ := ih hsane hlen
    exact ⟨h₁, h₂.trans hcommitted, h₃⟩

/-- **Storing a byte**, and committing the line if that completes it. -/
theorem Sane.store (h : s.Sane) (hlt : s.ring.count < inputBuf) (c : UInt8) :
    (s.store c).1.Sane ∧ ((s.store c).1.committed, (s.store c).1.line)
      = if c = lf ∨ c = ctrlD ∨ s.ring.count + 1 = inputBuf
        then (s.committed ++ (s.line ++ [c]), [])
        else (s.committed, s.line ++ [c]) := by
  have hle := h.ready_le
  have hfull : ¬ s.ring.Full := by
    rw [Fifo.full_iff (by decide)]
    omega
  have hcount : (s.ring.push c).count = s.ring.count + 1 :=
    Fifo.count_push (by decide) h.count_le hfull c
  have hcontents : (s.ring.push c).contents = s.committed ++ (s.line ++ [c]) := by
    rw [Fifo.contents_push (by decide) (by decide) h.count_le hfull, ← List.append_assoc,
      committed_append_line]
  have hiff : (s.ring.push c).nwrite = (s.ring.push c).nread + BitVec.ofNat 32 inputBuf ↔
      s.ring.count + 1 = inputBuf := by
    rw [← hcount]
    exact (Fifo.count_eq_iff (c := inputBuf) (by decide)).symm
  unfold Cons.store
  dsimp only
  by_cases hdone : c = lf ∨ c = ctrlD ∨ s.ring.count + 1 = inputBuf
  · -- the character completes a line: all that was typed can be read now
    rw [if_pos (by rwa [hiff]), if_pos hdone]
    obtain ⟨hc, hl⟩ := committed_line_of (t := ⟨s.ring.push c, (s.ring.push c).nwrite⟩)
      (q := s.committed ++ (s.line ++ [c])) (l := []) (by rw [List.append_nil]; exact hcontents)
      (by rw [← hcontents, Fifo.length_contents]; rfl)
    refine ⟨⟨Nat.le_refl _, ?_, fun _ => rfl, fun x hx => ?_⟩, by rw [hc, hl]⟩
    · show (s.ring.push c).count ≤ inputBuf
      omega
    · rw [hl] at hx
      cases hx
  · -- the line goes on
    rw [if_neg (by rwa [hiff]), if_neg hdone]
    rw [not_or, not_or] at hdone
    obtain ⟨hc, hl⟩ := committed_line_of (t := ⟨s.ring.push c, s.w⟩)
      (q := s.committed) (l := s.line ++ [c]) hcontents h.length_committed.symm
    refine ⟨⟨?_, ?_, fun hf => ?_, fun x hx => ?_⟩, by rw [hc, hl]⟩
    · show s.ready ≤ (s.ring.push c).count
      omega
    · show (s.ring.push c).count ≤ inputBuf
      omega
    · have hf : (s.ring.push c).count = inputBuf := hf
      omega
    · rw [hl, List.mem_append, List.mem_singleton] at hx
      obtain hx | rfl := hx
      · exact h.plain x hx
      · exact ⟨hdone.1, hdone.2.1⟩

/-- The reference that has the bytes of the ring. -/
def view (s : Cons) (reader : Option (ℕ × List UInt8)) (log : List (ℤ × List UInt8)) : Ref :=
  ⟨s.committed, s.line, reader, log⟩

variable {reader : Option (ℕ × List UInt8)} {log : List (ℤ × List UInt8)}

theorem Sane.length_view (h : s.Sane) : s.committed.length + s.line.length = s.ring.count := by
  have hle := h.ready_le
  rw [h.length_committed, s.length_line]
  omega

theorem Sane.view_store (h : s.Sane) (hlt : s.ring.count < inputBuf) (c : UInt8) :
    (s.store c).1.view reader log = (s.view reader log).put c := by
  obtain ⟨-, hpair⟩ := h.store hlt c
  have hlen := h.length_view
  have hiff : (s.view reader log).queue.length + ((s.view reader log).line ++ [c]).length
      = inputBuf ↔ s.ring.count + 1 = inputBuf := by
    rw [List.length_append, List.length_singleton, ← Nat.add_assoc]
    show s.committed.length + s.line.length + 1 = _ ↔ _
    rw [hlen]
  rw [Ref.put]
  dsimp only
  split at hpair
  · next hdone =>
    obtain ⟨hc, hl⟩ := Prod.mk.inj hpair
    rw [if_pos (by rwa [hiff]), view, hc, hl]
    rfl
  · next hdone =>
    obtain ⟨hc, hl⟩ := Prod.mk.inj hpair
    rw [if_neg (by rwa [hiff]), view, hc, hl]
    rfl

/-- **The interrupt handler edits the line as the reference does.** -/
theorem Sane.consoleintr (h : s.Sane) (c : UInt8) :
    (s.consoleintr c).1.Sane ∧
      (s.consoleintr c).1.view reader log = (s.view reader log).type c := by
  unfold Cons.consoleintr
  by_cases hP : c = ctrlP
  · -- a process listing changes nothing
    rw [if_pos hP, Ref.type, if_pos (.inl hP)]
    exact ⟨h, rfl⟩
  rw [if_neg hP]
  by_cases hU : c = ctrlU
  · obtain ⟨hsane, hc, hl⟩ := h.killLine h.length_line_le
    have hne : ¬ (c = ctrlP ∨ c = 0) := by rw [hU]; decide
    rw [if_pos hU, Ref.type, if_neg hne, if_pos hU]
    refine ⟨hsane, ?_⟩
    rw [view, hc, hl]
    rfl
  rw [if_neg hU]
  by_cases hH : c = ctrlH ∨ c = del
  · have hne : ¬ (c = ctrlP ∨ c = 0) := by
      obtain rfl | rfl := hH <;> decide
    rw [if_pos hH, Ref.type, if_neg hne, if_neg hU, if_pos hH]
    by_cases hw : s.e = s.w
    · -- there is nothing to erase
      have hl := h.line_eq_nil_iff.mpr hw
      rw [if_neg fun hn => hn hw, view, hl]
      exact ⟨h, rfl⟩
    · obtain ⟨hsane, hc, hl, -⟩ := h.erase hw
      rw [if_pos hw, view, hc, hl]
      exact ⟨hsane, rfl⟩
  rw [if_neg hH]
  by_cases h0 : c = 0
  · rw [if_neg fun hand => hand.1 h0, Ref.type, if_pos (.inr h0)]
    exact ⟨h, rfl⟩
  have hlen : (s.view reader log).queue.length + (s.view reader log).line.length = s.ring.count :=
    h.length_view
  rw [Ref.type, if_neg (not_or.mpr ⟨hP, h0⟩), if_neg hU, if_neg hH, hlen]
  by_cases hfull : s.ring.count < inputBuf
  · have hin : ¬ inputBuf ≤ s.ring.count := Nat.not_le_of_lt hfull
    have hand : c ≠ 0 ∧ (s.e - s.r).toNat < inputBuf := ⟨h0, hfull⟩
    rw [if_pos hand, if_neg hin]
    exact ⟨(h.store hfull _).1, h.view_store hfull _⟩
  · -- the buffer is full, and the character is lost
    rw [if_neg fun hand => hfull hand.2, if_pos (Nat.le_of_not_lt hfull)]
    exact ⟨h, rfl⟩

/-! ### Reading -/

/-- **Taking a committed byte.** -/
theorem Sane.take (h : s.Sane) (hne : s.r ≠ s.w) : s.take.Sane ∧
    s.committed = s.ring.front :: s.take.committed ∧
    s.take.line = s.line := by
  have hle := h.ready_le
  have hle128 := h.count_le
  have hlt : s.ready < 2 ^ 32 := BitVec.isLt _
  obtain ⟨k, hk⟩ : ∃ k, s.ready = k + 1 :=
    Nat.exists_eq_add_one.mpr (Nat.pos_of_ne_zero (mt ready_eq_zero_iff.mp hne))
  have hempty : ¬ s.ring.Empty := by
    rw [Fifo.empty_iff]
    omega
  have hcount := Fifo.count_pop hempty
  have hcontents := Fifo.contents_pop hempty
  have hready : s.take.ready = k := by
    show (s.w - (s.r + 1)).toNat = k
    have hw : s.w = BitVec.ofNat 32 k + (s.r + 1) := by
      rw [s.w_eq, hk, BitVec.ofNat_add, BitVec.add_comm s.r, BitVec.add_assoc,
        BitVec.add_comm _ s.r]
      rfl
    rw [hw, BitVec.add_sub_cancel, BitVec.toNat_ofNat, Nat.mod_eq_of_lt (by omega)]
  have hline : s.take.line = s.line := by
    rw [line, line, hready, hcontents, hk, List.drop_succ_cons]
    rfl
  refine ⟨⟨?_, ?_, fun hf => ?_, ?_⟩, ?_, hline⟩
  · rw [hready]
    show k ≤ s.ring.pop.count
    omega
  · show s.ring.pop.count ≤ inputBuf
    omega
  · have hf : s.ring.pop.count = inputBuf := hf
    omega
  · rw [hline]
    exact h.plain
  · rw [committed, committed, hready, hcontents, hk, List.take_succ_cons]
    rfl

theorem putBack_take (s : Cons) : s.take.putBack = s := by
  have hr : s.ring.pop.nread - 1 = s.ring.nread := BitVec.add_sub_cancel ..
  unfold Cons.putBack Cons.take
  dsimp only [r]
  rw [hr]
  rfl

/-- What a turn of a read leaves. -/
def Agrees (target : ℕ) (log : List (ℤ × List UInt8)) (a : Ref) : Turn → Prop
  | .done ret got s => s.Sane ∧ s.view none (log ++ [(ret, got)]) = a
  | .wait n got s => s.Sane ∧ got.length + n = target ∧ s.view (some (target, got)) log = a

/-- Serving a read may begin with its first byte, if that does not end it. -/
theorem serve_cons {target n : ℕ} {got : List UInt8} {t : Cons}
    (hlen : got.length + (n + 1) = target)
    (hc : s.committed = c :: t.committed) (hl : t.line = s.line) (hD : c ≠ ctrlD) (hlf : c ≠ lf) :
    (s.view (some (target, got)) log).serve = (t.view (some (target, got ++ [c])) log).serve := by
  have hleft : target - got.length = n + 1 := by omega
  have hleft' : target - (got ++ [c]).length = n := by
    rw [List.length_append, List.length_singleton]
    omega
  have hcut : cut (n + 1) (c :: t.committed) = c :: cut n t.committed := by
    rw [cut, if_neg hD, if_neg hlf]
  have hcomplete : Complete (n + 1) (c :: t.committed) ↔ Complete n t.committed := by
    simp [Complete, hD, hlf]
  simp only [Ref.serve, view, hleft, hleft', hc, hl, hcut, hcomplete, List.append_assoc,
    List.singleton_append, List.length_cons, List.drop_succ_cons]

/-- **A turn of `consoleread` takes what the reference does.** -/
theorem Sane.consoleread {target n : ℕ} {got : List UInt8} {writable : ℕ → Bool} (h : s.Sane)
    (hlen : got.length + n = target) (hwr : ∀ i, writable i = true) :
    Agrees target log (s.view (some (target, got)) log).serve
      (s.consoleread false writable target n got) := by
  -- on the bytes that are left to read
  induction n generalizing s got with
  | zero =>
    have hleft : target - got.length = 0 := by omega
    have hne : ¬ (target ≠ 0 ∧ got ++ [] = []) := by
      rintro ⟨h0, hnil⟩
      rw [List.append_nil] at hnil
      rw [hnil] at hlen
      exact h0 hlen.symm
    rw [Cons.consoleread, view, Ref.serve_of_complete (l := []) (by rw [hleft, cut])
      (by rw [hleft]; trivial), if_neg hne, List.append_nil]
    refine ⟨h, ?_⟩
    rw [← hlen]
    rfl
  | succ n ih =>
    have hleft : target - got.length = n + 1 := by omega
    rw [Cons.consoleread]
    by_cases hw : s.r = s.w
    · -- no byte is ready: the read sleeps
      have hnil : s.committed = [] := by
        rw [← List.length_eq_zero_iff, h.length_committed, ready_eq_zero_iff.mpr hw]
      rw [if_pos hw, if_neg Bool.false_ne_true, view,
        Ref.serve_of_not (l := []) (by rw [hleft, hnil]; rfl) (by rw [hleft, hnil]; exact id),
        List.append_nil]
      exact ⟨h, hlen, rfl⟩
    obtain ⟨hsane, hc, hl⟩ := h.take hw
    have hint : (target : ℤ) - (n + 1 : ℕ) = got.length := by omega
    rw [if_neg hw]
    dsimp only
    by_cases hD : s.ring.front = ctrlD
    · rw [if_pos hD, view, Ref.serve_of_complete (l := [])
        (by rw [hleft, hc, cut, if_pos hD]) (by rw [hleft, hc]; exact .inl hD),
        List.append_nil, hint]
      by_cases hlt : n + 1 < target
      · -- an end of file behind other bytes is left for the next read
        have hgot : got ≠ [] := by
          rintro rfl
          rw [List.length_nil] at hlen
          omega
        rw [if_pos hlt, if_neg fun hand => hgot hand.2, putBack_take]
        exact ⟨h, rfl⟩
      · have hgot : got = [] := List.length_eq_zero_iff.mp (by omega)
        have h0 : target ≠ 0 := by omega
        rw [if_neg hlt, if_pos ⟨h0, hgot⟩, hc, ← hl]
        exact ⟨hsane, rfl⟩
    rw [if_neg hD, if_neg (by rw [hwr]; decide)]
    by_cases hlf : s.ring.front = lf
    · -- the newline is the last byte of the read
      have hint' : (target : ℤ) - n = (got ++ [s.ring.front]).length := by
        rw [List.length_append, List.length_singleton]
        omega
      rw [if_pos hlf, view, Ref.serve_of_complete (l := [s.ring.front])
        (by rw [hleft, hc, cut, if_neg hD, if_pos hlf]) (by rw [hleft, hc]; exact .inr (.inl hlf)),
        if_neg (by simp), hc, ← hl, hint']
      exact ⟨hsane, rfl⟩
    rw [if_neg hlf, serve_cons hlen hc hl hD hlf]
    refine ih hsane ?_
    rw [List.length_append, List.length_singleton]
    omega

end Cons

/-! ### Whole runs -/

/-- The reference that has what the console has. -/
def State.view (s : State) : Ref :=
  s.cons.view (s.reader.map fun p => (p.target, p.got)) s.log

/-- What is true after every event. -/
structure Inv (s : State) : Prop where
  sane : s.cons.Sane
  reader : ∀ p ∈ s.reader, p.got.length + p.n = p.target ∧ ∀ i, p.writable i = true

/-- The reader was not killed, and its destination can be written. -/
def Event.Plain : Event → Prop
  | .intr _ => True
  | .read _ writable killed => killed = false ∧ ∀ i, writable i = true
  | .resume killed => killed = false

variable {s s' : State} {ev : Event}

theorem Inv.turn {s₀ : State} {target : ℕ} {writable : ℕ → Bool} {a : Ref} {t : Turn}
    (hwr : ∀ i, writable i = true) (ht : Cons.Agrees target s₀.log a t) :
    Inv (s₀.turn target writable t) ∧ (s₀.turn target writable t).view = a := by
  cases t with
  | done ret got c =>
    refine ⟨⟨ht.1, fun p hp => ?_⟩, ht.2⟩
    cases hp
  | wait n got c =>
    refine ⟨⟨ht.1, fun p hp => ?_⟩, ht.2.2⟩
    cases hp
    exact ⟨ht.2.1, hwr⟩

/-- **Every event does to the console what it does to the reference.** -/
theorem Inv.step (h : Inv s) (hev : ev.Plain) (hs : Console.step s ev = .ok s') :
    Inv s' ∧ s'.view = s.view.step ev := by
  cases ev with
  | intr c =>
    cases hs
    obtain ⟨hsane, hview⟩ := @Cons.Sane.consoleintr _
      (s.reader.map fun p => (p.target, p.got)) s.log
      h.sane c
    refine ⟨⟨hsane, fun p hp => ?_⟩, ?_⟩
    · obtain ⟨p₀, hp₀, rfl⟩ := Option.map_eq_some_iff.mp hp
      exact h.reader p₀ hp₀
    · refine Eq.trans ?_ hview
      rw [State.view, Option.map_map]
      rfl
  | read n writable killed =>
    obtain ⟨rfl, hwr⟩ := hev
    rw [Console.step] at hs
    split at hs
    · cases hs
      have hread := @Cons.Sane.consoleread _ s.log n.toNat n.toNat [] _ h.sane (by simp) hwr
      exact Inv.turn hwr hread
    · cases hs
  | resume killed =>
    obtain rfl := hev
    rw [Console.step] at hs
    split at hs
    · next p hp =>
      obtain ⟨hlen, hwr⟩ := h.reader p hp
      split at hs
      · cases hs
        have hread := @Cons.Sane.consoleread _ s.log _ _ _ _ h.sane hlen hwr
        have hview : s.view = s.cons.view (some (p.target, p.got)) s.log := by
          rw [State.view, hp]
          rfl
        obtain ⟨hinv, hv⟩ := Inv.turn hwr hread
        exact ⟨hinv, by rw [hv, ← hview]; rfl⟩
      · cases hs
    · cases hs

theorem inv_start : Inv start := by
  refine ⟨⟨Nat.le_refl _, Nat.zero_le _, fun h => absurd h (by decide), fun c hc => ?_⟩,
    fun p hp => ?_⟩
  · cases hc
  · cases hp

theorem inv_run {evs : List Event} {s₀ : State} (h₀ : Inv s₀) (hev : ∀ ev ∈ evs, ev.Plain)
    (hs : run step s₀ evs = .ok s) : Inv s ∧ s.view = evs.foldl Ref.step s₀.view := by
  induction evs generalizing s₀ with
  | nil =>
    cases hs
    exact ⟨h₀, rfl⟩
  | cons ev evs ih =>
    rw [run_cons, Outcome.bind_eq_ok] at hs
    obtain ⟨s₁, hs₁, hrun⟩ := hs
    rw [List.forall_mem_cons] at hev
    obtain ⟨h₁, hview⟩ := h₀.step hev.1 hs₁
    rw [List.foldl_cons, ← hview]
    exact ih h₁ hev.2 hrun

theorem Ref.queue_put (a : Ref) (c : UInt8) : a.queue <+: (a.put c).queue := by
  unfold Ref.put
  dsimp only
  split
  · exact List.prefix_append ..
  · exact List.prefix_rfl

theorem Ref.queue_type (a : Ref) (c : UInt8) : a.queue <+: (a.type c).queue := by
  unfold Ref.type
  split
  · exact List.prefix_rfl
  split
  · exact List.prefix_rfl
  split
  · exact List.prefix_rfl
  split
  · exact List.prefix_rfl
  · exact a.queue_put _

/-- **The line discipline of the console.**  Whatever bytes the UART delivers and whatever a
process reads that is not killed and has a writable destination: the indices of the ring are
in order, the ring is not overfull, and if it is full then all of it is committed; the
committed bytes, the line being edited, the read in progress and what reads returned are as the
reference has them; and a byte that is typed takes nothing from the committed bytes. -/
theorem line_discipline {evs : List Event} (hev : ∀ ev ∈ evs, ev.Plain)
    (hs : run step start evs = .ok s) :
    ((s.cons.w - s.cons.r).toNat ≤ (s.cons.e - s.cons.r).toNat ∧
      (s.cons.e - s.cons.r).toNat ≤ inputBuf ∧
      ((s.cons.e - s.cons.r).toNat = inputBuf → s.cons.w = s.cons.e)) ∧
    s.view = evs.foldl Ref.step Ref.start ∧
    ∀ c s', step s (.intr c) = .ok s' → s.cons.committed <+: s'.cons.committed := by
  obtain ⟨hinv, hview⟩ := inv_run inv_start hev hs
  refine ⟨⟨hinv.sane.ready_le, hinv.sane.count_le, hinv.sane.full⟩, hview, fun c s' hs' => ?_⟩
  obtain ⟨-, hview'⟩ := @Inv.step _ _ (.intr c) hinv trivial hs'
  have hqueue : s'.cons.committed = (s.view.type c).queue := congrArg Ref.queue hview'
  rw [hqueue]
  exact s.view.queue_type c

/-- A line with a correction, read in two parts, and an end of file. -/
def sampleEvents : List Event :=
  [.read 2 (fun _ => true) false, .intr 97, .intr 120, .intr ctrlH, .intr 98, .intr cr,
    .resume false, .intr ctrlD, .read 5 (fun _ => true) false, .read 5 (fun _ => true) false]

theorem line_discipline_sample : ∃ s, run step start sampleEvents = .ok s ∧
    s.log = [(2, [97, 98]), (1, [lf]), (0, [])] ∧
    s.view = sampleEvents.foldl Ref.step Ref.start := by
  obtain ⟨s, hs, hlog⟩ := Outcome.exists_of_check (x := run step start sampleEvents)
    (p := fun s : State => decide (s.log = [(2, [97, 98]), (1, [lf]), (0, [])])) (by decide +kernel)
  exact ⟨s, hs, of_decide_eq_true hlog, (line_discipline (by
    simp [sampleEvents, Event.Plain]) hs).2.1⟩

end Xv6.Console
