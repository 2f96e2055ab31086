import Xv6.Lib.RedoLog
import Xv6.Log.Invariant

/-!
# Crash atomicity of the log

Whatever the moment of a crash, the disk together with the log on it determines
the contents the file system had at the last commit point: the log is
`Replayable` to these contents.  Every block write of `commit()` and of
`recover_from_log()` keeps this, so that a recovery that is itself cut short can
be started over, and a recovery that runs to its end leaves exactly these
contents.

## Main definitions

* `Outside L e` — a block passed to `log_write` lies outside the log.
* `Pending`, `CommitOk`, `RecoverOk` — what holds at each place of the code.
* `Durable L d₀ x` — the invariant.

## Main results

* `getHead_putHead` — reading back a header.
* `durable_step` — every step keeps the invariant.
* `crash_atomicity` — **recovery yields the last commit point.**
-/

namespace Xv6.Log

open Function

/-! ### Headers -/

theorem get32_putBlocks_of_lt (b : Block) {off i : ℕ} (lh : List BlockNo)
    (h : off + 4 ≤ 4 + 4 * i) : (putBlocks b i lh).get32 off = b.get32 off := by
  induction lh generalizing b i with
  | nil => rfl
  | cons x xs ih =>
    rw [putBlocks, ih _ (by omega), Bytes.get32, Bytes.put32,
      Bytes.getLE_putLE_of_disjoint _ _ (by omega)]
    rfl

/-- The block numbers stored by `write_head` are read back. -/
theorem get32_putBlocks (b : Block) {i j : ℕ} (lh : List BlockNo)
    (hfit : 4 + 4 * (i + lh.length) ≤ bsize) (hj : j < lh.length) :
    (putBlocks b i lh).get32 (4 + 4 * (i + j)) = lh.get ⟨j, hj⟩ := by
  induction lh generalizing b i j with
  | nil => exact absurd hj (Nat.not_lt_zero j)
  | cons x xs ih =>
    rw [List.length_cons] at hfit hj
    rw [putBlocks]
    cases j with
    | zero =>
      rw [get32_putBlocks_of_lt _ _ (by omega)]
      exact Bytes.get32_put32_self _ (by omega) _
    | succ j =>
      rw [show i + (j + 1) = i + 1 + j by omega, ih _ (by omega) (by omega)]
      rfl

/-- **Reading back a header.** -/
theorem getHead_putHead (b : Block) {lh : List BlockNo} (h : lh.length ≤ logsize) :
    getHead (putHead b lh) = lh := by
  have h30 : logsize = 30 := rfl
  have hbs : bsize = 1024 := rfl
  have hn : ((putHead b lh).get32 0).toInt.toNat = lh.length := by
    rw [putHead, get32_putBlocks_of_lt _ _ (by omega), Bytes.get32_put32_self _ (by omega)]
    have : (BitVec.ofNat 32 lh.length).toInt = lh.length := by
      rw [BitVec.toInt_eq_toNat_of_lt] <;> rw [BitVec.toNat_ofNat] <;> omega
    rw [this]
    exact Int.toNat_natCast _
  rw [getHead, hn]
  refine List.ext_get (by simp) fun i h₁ h₂ => ?_
  simp only [List.get_eq_getElem, List.getElem_map, List.getElem_range]
  have := get32_putBlocks (b.put32 0 (BitVec.ofNat 32 lh.length)) (i := 0) lh (by omega) h₂
  rw [Nat.zero_add] at this
  exact this

/-! ### The log region -/

variable {L : Geometry} {i : ℕ} {lh : List BlockNo} {d : BlockNo → Block}

/-- The index of an entry of the header: it has its place in the header and in the log. -/
def Fits (L : Geometry) (lh : List BlockNo) : Prop :=
  lh.length ≤ logsize ∧ (lh.length : ℤ) < L.size

theorem region_start (L : Geometry) : L.Region L.start := ⟨0, L.size_pos, by simp⟩

theorem logBlock_eq (L : Geometry) (i : ℕ) : L.logBlock i = L.start + BitVec.ofNat 32 (i + 1) := by
  rw [Geometry.logBlock, BitVec.add_assoc, BitVec.ofNat_add]
  rfl

theorem region_logBlock (h : Fits L lh) (hi : i < lh.length) :
    L.Region (L.logBlock i) := ⟨i + 1, by have := h.2; omega, logBlock_eq L i⟩

theorem logBlock_ne_start (h : Fits L lh) (hi : i < lh.length) : L.logBlock i ≠ L.start := by
  have h30 : logsize = 30 := rfl
  have hle := h.1
  intro heq
  rw [logBlock_eq] at heq
  have hnat := congrArg BitVec.toNat heq
  have hlt := L.start.isLt
  simp only [BitVec.toNat_add, BitVec.toNat_ofNat] at hnat
  omega

theorem logBlock_inj (h : Fits L lh) {j : ℕ} (hi : i < lh.length) (hj : j < lh.length)
    (heq : L.logBlock i = L.logBlock j) : i = j := by
  have h30 : logsize = 30 := rfl
  have hle := h.1
  rw [logBlock_eq, logBlock_eq, BitVec.add_right_inj] at heq
  have := congrArg BitVec.toNat heq
  simp only [BitVec.toNat_ofNat] at this
  omega

theorem Fits.nil : Fits L [] := ⟨by decide, L.size_pos⟩

/-! ### The invariant -/

variable {P : Type*}

/-- The file system's side of the bargain: it logs no block of the log itself. -/
def Outside (L : Geometry) : Event P → Prop
  | .logWrite _ b _ => ¬ L.Region b
  | _ => True

/-- Before the commit point: the log on disk is empty, and only logged blocks differ from
the last commit point. -/
def Pending (L : Geometry) (s : Sys P) (stable : BlockNo → Block) : Prop :=
  getHead (s.disk L.start) = [] ∧ ∀ b, ¬ L.Region b → b ∉ s.lh → s.cache b = stable b

/-- What holds at each place of `commit()`. -/
def CommitOk (L : Geometry) (s : Sys P) (stable : BlockNo → Block) : CommitPc → Prop
  | .check => Pending L s stable
  | .writeLog tail => Pending L s stable ∧
      ∀ i b, i < tail → s.lh[i]? = some b → s.disk (L.logBlock i) = s.cache b
  | .writeHead => Pending L s stable ∧
      ∀ i b, s.lh[i]? = some b → s.disk (L.logBlock i) = s.cache b
  | .install tail => getHead (s.disk L.start) = s.lh ∧
      (∀ b, ¬ L.Region b → s.cache b = stable b) ∧ Installed s.disk s.lh tail stable
  | .eraseHead => ∀ b, ¬ L.Region b → s.disk b = stable b ∧ s.cache b = stable b
  | .finish => Pending L s stable

/-- What holds at each place of `recover_from_log()`. -/
def RecoverOk (L : Geometry) (s : Sys P) (stable : BlockNo → Block) : RecoverPc → Prop
  | .readHead => True
  | .install tail => s.lh = getHead (s.disk L.start) ∧ Installed s.disk s.lh tail stable
  | .clear => s.lh = [] ∧ ∀ b, ¬ L.Region b → s.disk b = stable b

/-- What holds at each place of the code, in one mode or the other. -/
def PhaseOk (L : Geometry) (s : Sys P) (stable : BlockNo → Block) : Prop :=
  match s.mode with
  | .up => (∀ p c, s.proc p = .commit c → CommitOk L s stable c) ∧
      (s.committing = false → Pending L s stable)
  | .recovering c => s.cache = s.disk ∧ RecoverOk L s stable c

/-- **The crash invariant.**  The log on disk can be replayed to the contents at the last
commit point. -/
structure Durable [Fintype P] (L : Geometry) (d₀ : BlockNo → Block) (x : Sys P × Ghost) :
    Prop where
  inv : Inv x.1
  replay : Replayable (fun b => ¬ L.Region b) x.1.disk (getHead (x.1.disk L.start))
    (fun i => x.1.disk (L.logBlock i)) (x.2.last d₀)
  head_fits : Fits L (getHead (x.1.disk L.start))
  lh_fits : Fits L x.1.lh
  lh_home : ∀ b ∈ x.1.lh, ¬ L.Region b
  log_cached : ∀ b, L.Region b → x.1.cache b = x.1.disk b
  phase : PhaseOk L x.1 (x.2.last d₀)

/-! ### Block writes -/

variable {s : Sys P} {stable : BlockNo → Block} {s' : Sys P}

theorem ne_of_home {a b : BlockNo} (ha : ¬ L.Region a) (hb : L.Region b) : b ≠ a :=
  fun h => ha (h ▸ hb)

/-- Installing one block leaves the log on disk as it is, and replayable. -/
theorem replayable_install {t : ℕ} {a : BlockNo}
    (hr : Replayable (fun b => ¬ L.Region b) d (getHead (d L.start)) (fun i => d (L.logBlock i))
      stable) (hf : Fits L (getHead (d L.start))) (ht : (getHead (d L.start))[t]? = some a)
    {e : BlockNo → Block} (hd : e = update d a (d (L.logBlock t))) :
    e L.start = d L.start ∧
    Replayable (fun b => ¬ L.Region b) e (getHead (d L.start)) (fun i => e (L.logBlock i))
      stable := by
  have ha : ¬ L.Region a := hr.mem_home a (List.mem_of_getElem? ht)
  have hstart : e L.start = d L.start := by
    rw [hd, update_of_ne (ne_of_home ha (region_start L))]
  refine ⟨hstart, ?_⟩
  have hinst := hr.install ht
  rw [← hd] at hinst
  refine hinst.congr (fun b _ => rfl) fun i hi => ?_
  rw [hd, update_of_ne (ne_of_home ha (region_logBlock hf hi))]

/-- Writing the header makes it the log on disk, without touching anything else. -/
theorem head_write {b : Block} (hf : Fits L lh) :
    getHead (update d L.start (putHead b lh) L.start) = lh ∧
    (∀ a, ¬ L.Region a → update d L.start (putHead b lh) a = d a) ∧
    ∀ i, i < lh.length →
      update d L.start (putHead b lh) (L.logBlock i) = d (L.logBlock i) := by
  refine ⟨?_, fun a ha => ?_, fun i hi => ?_⟩
  · rw [update_self, getHead_putHead b hf.1]
  · rw [update_of_ne (ne_of_home ha (region_start L)).symm]
  · rw [update_of_ne (logBlock_ne_start hf hi)]

/-- Emptying the header is safe once the disk holds the stable contents. -/
theorem replayable_erase {b : Block} (hd : ∀ a, ¬ L.Region a → d a = stable a)
    {e : BlockNo → Block} (he : e = update d L.start (putHead b [])) :
    getHead (e L.start) = [] ∧
    Replayable (fun b => ¬ L.Region b) e [] (fun i => e (L.logBlock i)) stable := by
  obtain ⟨hhead, hhome, -⟩ := head_write (L := L) (d := d) (b := b) Fits.nil
  subst he
  exact ⟨hhead, replayable_nil fun a ha => (hhome a ha).trans (hd a ha)⟩

/-- Both copies of a block are written at once, so the log stays cached as it is on disk. -/
theorem log_cached_bwrite (h : ∀ b, L.Region b → s.cache b = s.disk b) (a : BlockNo) (v : Block) :
    ∀ b, L.Region b → (s.bwrite a v).cache b = (s.bwrite a v).disk b := by
  intro b hb
  simp only [Sys.bwrite]
  by_cases hba : b = a
  · rw [hba, update_self, update_self]
  · rw [update_of_ne hba, update_of_ne hba, h b hb]

/-! ### The steps -/

variable [DecidableEq P] [Fintype P] {g : Ghost} {d₀ : BlockNo → Block} {p : P}

theorem phaseOk_commit {c c' : CommitPc} (hr : Running s) (hp : s.proc p = .commit c)
    (hm : s'.mode = .up) (hproc : s'.proc = update s.proc p (.commit c'))
    (hcom : s'.committing = s.committing) (hok : CommitOk L s' stable c') :
    PhaseOk L s' stable := by
  have htrue : s.committing = true := hr.committing_iff.mpr ⟨p, by rw [hp]; rfl⟩
  simp only [PhaseOk, hm]
  refine ⟨fun q c'' hq => ?_, fun hf => ?_⟩
  · by_cases hqp : q = p
    · rw [hproc, hqp, update_self, Pc.commit.injEq] at hq
      exact hq ▸ hok
    · rw [hproc, update_of_ne hqp] at hq
      exact absurd (hr.committer_unique q p (by rw [hq]; rfl) (by rw [hp]; rfl)) hqp
  · rw [hcom, htrue] at hf
    cases hf

omit [DecidableEq P] in
/-- A step that moves processes but neither writes a block nor changes the header. -/
theorem durable_of_same {g' : Ghost} (h : Durable L d₀ (s, g)) (hinv : Inv s')
    (hdisk : s'.disk = s.disk) (hcache : s'.cache = s.cache) (hlh : s'.lh = s.lh)
    (hg : g'.points = g.points) (hphase : PhaseOk L s' (g.last d₀)) : Durable L d₀ (s', g') where
  inv := hinv
  replay := by
    simp only [hdisk, Ghost.last, hg]
    exact h.replay
  head_fits := by rw [hdisk]; exact h.head_fits
  lh_fits := by rw [hlh]; exact h.lh_fits
  lh_home := by rw [hlh]; exact h.lh_home
  log_cached := by rw [hdisk, hcache]; exact h.log_cached
  phase := by
    simp only [Ghost.last, hg]
    exact hphase

section Logging

variable (h : Durable L d₀ (s, g))
include h

/-- `write_log` fills the log while the log on disk is empty. -/
theorem durable_writeLog {tail : ℕ} (hm : s.mode = .up) (hp : s.proc p = .commit (.writeLog tail)) :
    Durable L d₀ (commitStep L s p (.writeLog tail), g) := by
  have hr := h.inv.running hm
  have hinv : Inv (commitStep L s p (.writeLog tail)) :=
    inv_step (L := L) (e := .commit p) h.inv (by simp [step, hm, hp])
  have hph := h.phase
  simp only [PhaseOk, hm] at hph
  obtain ⟨⟨hempty, hpend⟩, hcopied⟩ := hph.1 p _ hp
  simp only [commitStep] at hinv ⊢
  split
  · next b hb =>
    have hlt : tail < s.lh.length := (List.getElem?_eq_some_iff.mp hb).1
    have hne := logBlock_ne_start h.lh_fits hlt
    have hregion := region_logBlock h.lh_fits hlt
    have hstart : update s.disk (L.logBlock tail) (s.cache b) L.start
        = s.disk L.start := update_of_ne hne.symm _ _
    have hhome : ∀ (f : BlockNo → Block) a, ¬ L.Region a →
        update f (L.logBlock tail) (s.cache b) a = f a := fun f a ha =>
      update_of_ne (ne_of_home ha hregion).symm _ _
    have hcache : ∀ a ∈ s.lh, update s.cache (L.logBlock tail) (s.cache b) a
        = s.cache a := fun a ha => hhome s.cache a (h.lh_home a ha)
    rw [hb] at hinv
    refine ⟨hinv, ?_, ?_, h.lh_fits, h.lh_home, log_cached_bwrite h.log_cached _ _, ?_⟩
    · simp only [Sys.goto, Sys.bwrite, hstart, hempty]
      have hrep := h.replay
      simp only [hempty] at hrep
      exact replayable_nil fun a ha => (hhome s.disk a ha).trans (hrep.agree_of_nil ha)
    · simp only [Sys.goto, Sys.bwrite, hstart]
      exact h.head_fits
    refine phaseOk_commit hr hp hm rfl rfl ⟨⟨?_, fun a ha hn => ?_⟩, fun i a hi hia => ?_⟩
    · simp only [Sys.goto, Sys.bwrite, hstart, hempty]
    · simp only [Sys.goto, Sys.bwrite, hhome s.cache a ha]
      exact hpend a ha hn
    have hilt : i < s.lh.length := (List.getElem?_eq_some_iff.mp hia).1
    simp only [Sys.goto, Sys.bwrite]
    rw [hcache a (List.mem_of_getElem? hia)]
    by_cases hit : i = tail
    · -- the block just written
      have hia' : s.lh[i]? = some a := hia
      rw [hit, hb, Option.some.injEq] at hia'
      rw [hit, update_self, hia']
    · have hne' : L.logBlock i ≠ L.logBlock tail := fun heq =>
        hit (logBlock_inj h.lh_fits hilt hlt heq)
      rw [update_of_ne hne']
      exact hcopied i a (by omega) hia
  · next hb =>
    rw [hb] at hinv
    -- the last block was copied: the log holds the transaction
    refine durable_of_same h hinv rfl rfl rfl rfl
      (phaseOk_commit hr hp hm rfl rfl ⟨⟨hempty, hpend⟩, fun i a hia => hcopied i a ?_ hia⟩)
    have hge : s.lh.length ≤ tail := List.getElem?_eq_none_iff.mp hb
    have hilt : i < s.lh.length := (List.getElem?_eq_some_iff.mp hia).1
    omega

/-- **The commit point**: the header reaches the disk. -/
theorem durable_writeHead (hm : s.mode = .up) (hp : s.proc p = .commit .writeHead) :
    Durable L d₀ (commitStep L s p .writeHead, { g with points := s.cache :: g.points }) := by
  have hr := h.inv.running hm
  have hinv : Inv (commitStep L s p .writeHead) :=
    inv_step (L := L) (e := .commit p) h.inv (by simp [step, hm, hp])
  have hph := h.phase
  simp only [PhaseOk, hm] at hph
  obtain ⟨⟨hempty, hpend⟩, hcopied⟩ := hph.1 p _ hp
  have hrep := h.replay
  simp only [hempty] at hrep
  obtain ⟨hhead, hhome, hlog⟩ :=
    head_write (d := s.disk) (b := s.cache L.start) h.lh_fits
  obtain ⟨-, hhome', -⟩ :=
    head_write (d := s.cache) (b := s.cache L.start) h.lh_fits
  refine ⟨hinv, ?_, ?_, h.lh_fits, h.lh_home, log_cached_bwrite h.log_cached _ _, ?_⟩
  · simp only [commitStep, Sys.writeHead, Sys.goto, Sys.bwrite, hhead]
    refine ⟨h.lh_home, fun i a hia => ?_, fun a ha hn => ?_⟩
    · simp only [hlog i (List.getElem?_eq_some_iff.mp hia).1]
      exact hcopied i a hia
    · -- not logged: old contents, which are also the new ones
      rw [hhome a ha, hrep.agree_of_nil ha]
      exact (hpend a ha hn).symm
  · simp only [commitStep, Sys.writeHead, Sys.goto, Sys.bwrite, hhead]
    exact h.lh_fits
  · exact phaseOk_commit hr hp hm rfl rfl ⟨hhead, hhome', installed_zero⟩

/-- `install_trans` after the commit point. -/
theorem durable_install {tail : ℕ} (hm : s.mode = .up) (hp : s.proc p = .commit (.install tail))
    {g' : Ghost} (hg : g'.points = g.points) :
    Durable L d₀ (commitStep L s p (.install tail), g') := by
  have hr := h.inv.running hm
  have hinv : Inv (commitStep L s p (.install tail)) :=
    inv_step (L := L) (e := .commit p) h.inv (by simp [step, hm, hp])
  have hlast : g'.last d₀ = g.last d₀ := by simp only [Ghost.last, hg]
  have hph := h.phase
  simp only [PhaseOk, hm] at hph
  obtain ⟨hhead, hcache, hinst⟩ := hph.1 p _ hp
  simp only [commitStep] at hinv ⊢
  split
  · next b hb =>
    rw [hb] at hinv
    have hlt : tail < s.lh.length := (List.getElem?_eq_some_iff.mp hb).1
    have hbhome : ¬ L.Region b := h.lh_home b (List.mem_of_getElem? hb)
    -- the buffer of the log block holds what is on disk
    have hlog : s.cache (L.logBlock tail) = s.disk (L.logBlock tail) :=
      h.log_cached _ (region_logBlock h.lh_fits hlt)
    obtain ⟨hstart, hrep⟩ := replayable_install h.replay h.head_fits (hhead ▸ hb)
      (e := update s.disk b (s.cache (L.logBlock tail))) (by rw [hlog])
    refine ⟨hinv, ?_, ?_, h.lh_fits, h.lh_home, log_cached_bwrite h.log_cached _ _, ?_⟩
    · simp only [Sys.goto, Sys.bwrite, hstart, hlast]
      exact hrep
    · simp only [Sys.goto, Sys.bwrite, hstart]
      exact h.head_fits
    rw [hlast]
    refine phaseOk_commit hr hp hm rfl rfl ⟨?_, fun a ha => ?_, ?_⟩
    · simp only [Sys.goto, Sys.bwrite, hstart]
      exact hhead
    · -- the cached copy of a logged block is rewritten with the same contents
      simp only [Sys.goto, Sys.bwrite]
      by_cases hab : a = b
      · rw [hab, update_self, hlog]
        exact h.replay.copies tail b (hhead ▸ hb)
      · rw [update_of_ne hab]
        exact hcache a ha
    · have hrep' := h.replay
      simp only [hhead] at hrep'
      simp only [Sys.goto, Sys.bwrite, hlog]
      exact hinst.install hrep' hb
  · next hb =>
    rw [hb] at hinv
    have hall : Installed s.disk s.lh s.lh.length (g.last d₀) := hinst.whole hb
    have hrep := h.replay
    refine ⟨hinv, ?_, h.head_fits, Fits.nil, fun a ha => absurd ha List.not_mem_nil,
      h.log_cached, ?_⟩
    · rw [hlast]
      exact hrep
    · rw [hlast]
      refine phaseOk_commit hr hp hm rfl rfl fun a ha => ⟨?_, hcache a ha⟩
      simp only [hhead] at hrep
      exact hrep.agree_of_installed hall ha

/-- Erasing the transaction from the log, once all of it is home. -/
theorem durable_eraseHead (hm : s.mode = .up) (hp : s.proc p = .commit .eraseHead) :
    Durable L d₀ (commitStep L s p .eraseHead, g) := by
  have hr := h.inv.running hm
  have hinv : Inv (commitStep L s p .eraseHead) :=
    inv_step (L := L) (e := .commit p) h.inv (by simp [step, hm, hp])
  have hnil : s.lh = [] := hr.erased p (.inl hp)
  have hph := h.phase
  simp only [PhaseOk, hm] at hph
  have hhome := hph.1 p _ hp
  obtain ⟨hhead, hrep⟩ := replayable_erase (b := s.cache L.start) (fun a ha => (hhome a ha).1)
    (e := update s.disk L.start (putHead (s.cache L.start) [])) rfl
  obtain ⟨-, hkeep, -⟩ := head_write (d := s.cache) (b := s.cache L.start) (Fits.nil (L := L))
  have hdisk : (commitStep L s p .eraseHead).disk
      = update s.disk L.start (putHead (s.cache L.start) []) := by
    simp only [commitStep, Sys.writeHead, Sys.goto, Sys.bwrite, hnil]
  refine ⟨hinv, ?_, ?_, h.lh_fits, h.lh_home, log_cached_bwrite h.log_cached _ _, ?_⟩
  · simp only [hdisk, hhead]
    exact hrep
  · simp only [hdisk, hhead]
    exact Fits.nil
  · refine phaseOk_commit hr hp hm rfl rfl ⟨?_, fun a ha _ => ?_⟩
    · rw [hdisk, hhead]
    · simp only [commitStep, Sys.writeHead, Sys.goto, Sys.bwrite, hnil, hkeep a ha]
      exact (hhome a ha).2

/-- **Every step of `commit()` keeps the crash invariant.** -/
theorem durable_commitStep {c : CommitPc} (hm : s.mode = .up) (hp : s.proc p = .commit c) :
    Durable L d₀ (commitStep L s p c, g.next s (.commit p)) := by
  have hr := h.inv.running hm
  have hinv : Inv (commitStep L s p c) :=
    inv_step (L := L) (e := .commit p) h.inv (by simp [step, hm, hp])
  have hph := h.phase
  simp only [PhaseOk, hm] at hph
  have hok := hph.1 p c hp
  cases c with
  | check =>
    have hg : g.next s (.commit p) = g := by simp [Ghost.next, hp]
    rw [hg]
    refine durable_of_same h hinv rfl rfl rfl rfl (phaseOk_commit hr hp hm rfl rfl ?_)
    split
    · exact ⟨hok, fun i b hi => absurd hi (Nat.not_lt_zero i)⟩
    · exact hok
  | writeLog tail =>
    have hg : g.next s (.commit p) = g := by simp [Ghost.next, hp]
    rw [hg]
    exact durable_writeLog h hm hp
  | writeHead =>
    have hg : g.next s (.commit p) = { g with points := s.cache :: g.points } := by
      simp [Ghost.next, hp]
    rw [hg]
    exact durable_writeHead h hm hp
  | install tail =>
    refine durable_install h hm hp ?_
    simp only [Ghost.next, hp]
    split <;> rfl
  | eraseHead =>
    have hg : g.next s (.commit p) = g := by simp [Ghost.next, hp]
    rw [hg]
    exact durable_eraseHead h hm hp
  | finish =>
    refine durable_of_same h hinv rfl rfl rfl (by simp [Ghost.next, hp]) ?_
    have hmode : (commitStep L s p .finish).mode = .up := hm
    simp only [PhaseOk, hmode]
    refine ⟨fun q c' hq => ?_, fun _ => hok⟩
    -- nobody commits any more
    simp only [commitStep, Sys.goto] at hq
    by_cases hqp : q = p
    · rw [hqp, update_self] at hq
      cases hq
    · rw [update_of_ne hqp] at hq
      have hqc : (s.proc q).isCommit = true := by
        rw [← isCommit_wakeup, show s.wakeup.proc q = .commit c' from hq]
        rfl
      exact absurd (hr.committer_unique q p hqc (by rw [hp]; rfl)) hqp

omit [DecidableEq P] in
/-- **Every step of `recover_from_log()` keeps the crash invariant.** -/
theorem durable_recoverStep {c : RecoverPc} (hm : s.mode = .recovering c) :
    Durable L d₀ (recoverStep L s c, g) := by
  have hinv : Inv (recoverStep L s c) := inv_recoverStep L hm h.inv
  have hph := h.phase
  simp only [PhaseOk, hm] at hph
  obtain ⟨hcd, hok⟩ := hph
  cases c with
  | readHead =>
    refine ⟨hinv, h.replay, h.head_fits, ?_, ?_, h.log_cached, ⟨hcd, ?_, installed_zero⟩⟩
    · simp only [recoverStep, hcd]
      exact h.head_fits
    · simp only [recoverStep, hcd]
      exact h.replay.mem_home
    · simp only [recoverStep, hcd]
  | install tail =>
    obtain ⟨hlh, hinst⟩ := hok
    simp only [recoverStep] at hinv ⊢
    split
    · next b hb =>
      rw [hb] at hinv
      obtain ⟨hstart, hrep⟩ := replayable_install h.replay h.head_fits (hlh ▸ hb)
        (e := update s.disk b (s.cache (L.logBlock tail))) (by rw [hcd])
      have hrep' := h.replay
      simp only [← hlh] at hrep'
      refine ⟨hinv, ?_, ?_, h.lh_fits, h.lh_home, log_cached_bwrite h.log_cached _ _,
        ⟨?_, ?_, ?_⟩⟩
      · simp only [Sys.bwrite, hstart]
        exact hrep
      · simp only [Sys.bwrite, hstart]
        exact h.head_fits
      · simp only [Sys.bwrite, hcd]
      · simp only [Sys.bwrite, hstart]
        exact hlh
      · simp only [Sys.bwrite, hcd]
        exact hinst.install hrep' hb
    · next hb =>
      rw [hb] at hinv
      have hall : Installed s.disk s.lh s.lh.length (g.last d₀) := hinst.whole hb
      refine ⟨hinv, h.replay, h.head_fits, Fits.nil, fun a ha => absurd ha List.not_mem_nil,
        h.log_cached, ⟨hcd, rfl, fun a ha => ?_⟩⟩
      have hrep := h.replay
      simp only [← hlh] at hrep
      exact hrep.agree_of_installed hall ha
  | clear =>
    obtain ⟨hnil, hhome⟩ := hok
    obtain ⟨hhead, hrep⟩ := replayable_erase (b := s.cache L.start) hhome
      (e := update s.disk L.start (putHead (s.cache L.start) [])) rfl
    have hdisk : (recoverStep L s .clear).disk
        = update s.disk L.start (putHead (s.cache L.start) []) := by
      simp only [recoverStep, Sys.writeHead, Sys.bwrite, hnil]
    have hcache : (recoverStep L s .clear).cache = (recoverStep L s .clear).disk := by
      simp only [recoverStep, Sys.writeHead, Sys.bwrite, hcd]
    have hidle : ∀ q, s.proc q = .idle := by
      have := h.inv
      simp only [Inv, hm] at this
      exact this.1
    refine ⟨hinv, ?_, ?_, h.lh_fits, h.lh_home, log_cached_bwrite h.log_cached _ _, ?_⟩
    · simp only [hdisk, hhead]
      exact hrep
    · simp only [hdisk, hhead]
      exact Fits.nil
    · have hmode : (recoverStep L s .clear).mode = .up := rfl
      simp only [PhaseOk, hmode]
      refine ⟨fun q c' hq => ?_, fun _ => ⟨?_, fun a ha _ => ?_⟩⟩
      · exact absurd ((hidle q).symm.trans hq) (by simp)
      · rw [hdisk, hhead]
      · rw [hcache, hdisk]
        exact hrep.agree_of_nil ha

/-- A process logs a block outside the log. -/
theorem durable_logWrite {b : BlockNo} {v : Block} {ws : List BlockNo} {g' : Ghost}
    (hb : ¬ L.Region b) (hm : s.mode = .up) (hp : s.proc p = .inOp ws) (hg : g'.points = g.points)
    (hs : step L s (.logWrite p b v) = .ok s') : Durable L d₀ (s', g') := by
  have hr := h.inv.running hm
  have hinv : Inv s' := inv_step h.inv hs
  have hlast : g'.last d₀ = g.last d₀ := by simp only [Ghost.last, hg]
  have hph := h.phase
  simp only [PhaseOk, hm] at hph
  obtain ⟨hempty, hpend⟩ := hph.2 (hr.not_committing hp)
  simp only [step, hm, hp] at hs
  rw [Outcome.bind_eq_ok] at hs
  obtain ⟨t, ht, hts⟩ := hs
  unfold logWrite at ht
  split at ht
  · cases ht
  next hroom =>
  split at ht
  · cases ht
  cases ht
  cases hts
  have hmem : ∀ a, a ∈ absorb s.lh b ↔ a = b ∨ a ∈ s.lh := mem_absorb s.lh b
  refine ⟨hinv, ?_, h.head_fits, ?_, fun a ha => ?_, fun a ha => ?_, ?_⟩
  · rw [hlast]
    exact h.replay
  · -- the checks of `log_write` leave room for one more
    simp only [Sys.goto, Fits]
    simp only [not_or, not_le] at hroom
    rw [absorb_eq]
    split
    · exact h.lh_fits
    · rw [List.length_append, List.length_singleton]
      omega
  · rcases (hmem a).mp ha with rfl | ha
    · exact hb
    · exact h.lh_home a ha
  · simp only [Sys.goto]
    rw [update_of_ne (ne_of_home hb ha)]
    exact h.log_cached a ha
  · rw [hlast]
    simp only [PhaseOk, Sys.goto]
    refine ⟨fun q c hq => ?_, fun _ => ⟨hempty, fun a ha hn => ?_⟩⟩
    · -- no process commits while `p` is in an operation
      have hq' : s.proc q = .commit c := by
        by_cases hqp : q = p
        · rw [hqp, update_self] at hq
          cases hq
        · rwa [update_of_ne hqp] at hq
      have := hr.committing_iff.mpr ⟨q, by rw [hq']; rfl⟩
      exact absurd (this.symm.trans (hr.not_committing hp)) (by decide)
    · rw [hmem, not_or] at hn
      show update s.cache b v a = _
      rw [update_of_ne hn.1]
      exact hpend a ha hn.2

end Logging

omit [DecidableEq P] [Fintype P] in
/-- Moving a process that does not commit, and keeps out of `commit()`, keeps the phase. -/
theorem phaseOk_goto (hph : PhaseOk L s stable) (hm : s.mode = .up) (hm' : s'.mode = .up)
    (hdisk : s'.disk = s.disk) (hcache : s'.cache = s.cache) (hlh : s'.lh = s.lh)
    (hcom : s'.committing = s.committing)
    (hproc : ∀ q c, s'.proc q = .commit c → s.proc q = .commit c) : PhaseOk L s' stable := by
  simp only [PhaseOk, hm] at hph
  simp only [PhaseOk, hm']
  have hpend : Pending L s stable → Pending L s' stable := fun h => by
    simp only [Pending, hdisk, hcache, hlh]
    exact h
  refine ⟨fun q c hq => ?_, fun hf => hpend (hph.2 (hcom ▸ hf))⟩
  have := hph.1 q c (hproc q c hq)
  cases c <;> simp only [CommitOk, Pending, hdisk, hcache, hlh] at this ⊢ <;> exact this

/-- **Every step keeps the crash invariant.** -/
theorem durable_step {x y : Sys P × Ghost} {e : Event P} (h : Durable L d₀ x)
    (he : Outside L e) (hs : traced L x e = .ok y) : Durable L d₀ y := by
  obtain ⟨s, g⟩ := x
  rw [traced, Outcome.bind_eq_ok] at hs
  obtain ⟨s', hs', hy⟩ := hs
  cases hy
  have hinv : Inv s' := inv_step h.inv hs'
  -- a process that does not become the committer was one before
  have hkeep : ∀ {q : P} {f : P → Pc} {c : Pc} {c' : CommitPc} {r : P}, c.isCommit = false →
      update f r c q = .commit c' → f q = .commit c' := by
    intro q f c c' r hc hq
    by_cases hqr : q = r
    · rw [hqr, update_self] at hq
      rw [hq] at hc
      cases hc
    · rwa [update_of_ne hqr] at hq
  cases e with
  | beginOp p =>
    have hsame : s' = beginOp s p ∧ s.mode = .up := by
      simp only [step] at hs'
      split at hs'
      · next hm _ => cases hs'; exact ⟨rfl, hm⟩
      · next hm _ => cases hs'; exact ⟨rfl, hm⟩
      · cases hs'
    obtain ⟨rfl, hm⟩ := hsame
    have hcases : (∃ c, c.isCommit = false ∧ beginOp s p = s.goto p c) ∨
        beginOp s p = ({ s with outstanding := s.outstanding + 1 } : Sys P).goto p (.inOp []) := by
      unfold beginOp
      split
      · exact .inl ⟨_, rfl, rfl⟩
      · split
        · exact .inl ⟨_, rfl, rfl⟩
        · exact .inr rfl
    rcases hcases with ⟨c, hc, heq⟩ | heq
    · rw [heq] at hinv ⊢
      exact durable_of_same h hinv rfl rfl rfl rfl
        (phaseOk_goto h.phase hm hm rfl rfl rfl rfl fun q c' => hkeep hc)
    · rw [heq] at hinv ⊢
      exact durable_of_same h hinv rfl rfl rfl rfl
        (phaseOk_goto h.phase hm hm rfl rfl rfl rfl fun q c' => hkeep rfl)
  | logWrite p b v =>
    have hsame : ∃ ws, s.mode = .up ∧ s.proc p = .inOp ws := by
      simp only [step] at hs'
      split at hs'
      · next ws hm hp => exact ⟨ws, hm, hp⟩
      · cases hs'
    obtain ⟨ws, hm, hp⟩ := hsame
    exact durable_logWrite h he hm hp rfl hs'
  | endOp p =>
    simp only [step] at hs'
    split at hs'
    · next ws hm hp =>
      have hr := h.inv.running hm
      have hph := h.phase
      simp only [PhaseOk, hm] at hph
      have hpend := hph.2 (hr.not_committing hp)
      simp only [endOp] at hs'
      split at hs'
      · cases hs'
      split at hs'
      · -- the last operation: the committer has everything still to do
        cases hs'
        refine durable_of_same h hinv rfl rfl rfl rfl ?_
        simp only [PhaseOk, Sys.goto, hm]
        refine ⟨fun q c hq => ?_, fun hf => by cases hf⟩
        by_cases hqp : q = p
        · rw [hqp, update_self, Pc.commit.injEq] at hq
          exact hq ▸ hpend
        · rw [update_of_ne hqp] at hq
          have := hr.committing_iff.mpr ⟨q, by rw [hq]; rfl⟩
          exact absurd (this.symm.trans (hr.not_committing hp)) (by decide)
      · cases hs'
        refine durable_of_same h hinv rfl rfl rfl rfl
          (phaseOk_goto h.phase hm hm rfl rfl rfl rfl fun q c hq => ?_)
        have hq' := hkeep rfl hq
        simp only [Sys.wakeup] at hq'
        split at hq'
        · cases hq'
        · exact hq'
    · cases hs'
  | commit p =>
    simp only [step] at hs'
    split at hs'
    · next c hm hp => cases hs'; exact durable_commitStep h hm hp
    · cases hs'
  | kill p =>
    simp only [step] at hs'
    split at hs'
    · next hm _ =>
      cases hs'
      exact durable_of_same h hinv rfl rfl rfl rfl
        (phaseOk_goto h.phase hm hm rfl rfl rfl rfl fun q c' => hkeep rfl)
    · cases hs'
  | crash =>
    cases hs'
    exact ⟨hinv, h.replay, h.head_fits, Fits.nil, fun a ha => absurd ha List.not_mem_nil,
      fun _ _ => rfl, rfl, trivial⟩
  | recover =>
    simp only [step] at hs'
    split at hs'
    · next c hm => cases hs'; exact durable_recoverStep h hm
    · cases hs'

/-! ### Crash atomicity -/

omit [DecidableEq P] in
theorem durable_boot (h₀ : getHead (d₀ L.start) = []) :
    Durable L d₀ ((.boot d₀, ⟨[], []⟩) : Sys P × Ghost) where
  inv := inv_boot d₀
  replay := by
    simp only [Sys.boot, h₀]
    exact replayable_nil fun _ _ => rfl
  head_fits := by
    simp only [Sys.boot, h₀]
    exact Fits.nil
  lh_fits := Fits.nil
  lh_home := fun _ ha => absurd ha List.not_mem_nil
  log_cached := fun _ _ => rfl
  phase := ⟨rfl, trivial⟩

/-- **Crash atomicity of the log.**  Start from a disk with an empty log, and let any
number of processes begin, log blocks outside the log, end and commit, with
crashes at any moment, in the middle of recoveries included.  `g.points` are the
contents the file system saw at the commit points so far, latest first.  Then:

* when a recovery completes, every block outside the log holds, on disk and as
  seen by the file system, its contents at the last commit point;
* until the header of a transaction is written, the file system's view differs
  from the last commit point only at blocks the transaction has logged;
* once it is written, the last commit point is the file system's view with all
  of the transaction's blocks in it. -/
theorem crash_atomicity (h₀ : getHead (d₀ L.start) = [])
    (h : Reach (traced L) (fun _ e => Outside L e) ((.boot d₀, ⟨[], []⟩) : Sys P × Ghost) (s, g)) :
    (∀ s', step L s .recover = .ok s' → s'.mode = .up →
      ∀ b, ¬ L.Region b → s'.disk b = g.last d₀ b ∧ s'.cache b = g.last d₀ b) ∧
    (s.mode = .up → ∀ b, ¬ L.Region b → b ∉ s.lh → s.cache b = g.last d₀ b) ∧
    (∀ p c, s.mode = .up → s.proc p = .commit c →
      (∃ tail, c = .install tail) ∨ c = .eraseHead ∨ c = .finish →
        ∀ b, ¬ L.Region b → s.cache b = g.last d₀ b) := by
  have hdur : Durable L d₀ (s, g) :=
    h.invariant (durable_boot h₀) fun _ _ _ hi he hs => durable_step hi he hs
  have hph := hdur.phase
  refine ⟨fun s' hs' hup b hb => ?_, fun hm b hb hn => ?_, fun p c hm hp hc b hb => ?_⟩
  · -- the step that completes a recovery
    simp only [step] at hs'
    split at hs'
    · next c hm =>
      cases hs'
      cases c with
      | readHead => cases hup
      | install tail => simp only [recoverStep] at hup; split at hup <;> cases hup
      | clear =>
        simp only [PhaseOk, hm] at hph
        obtain ⟨hcd, hnil, hhome⟩ := hph
        obtain ⟨-, hkeep, -⟩ := head_write (d := s.disk) (b := s.cache L.start) hdur.lh_fits
        simp only [recoverStep, Sys.writeHead, Sys.bwrite, hcd] at hkeep ⊢
        exact ⟨(hkeep b hb).trans (hhome b hb), (hkeep b hb).trans (hhome b hb)⟩
    · cases hs'
  · simp only [PhaseOk, hm] at hph
    -- outside the transaction every phase keeps the last committed contents
    cases hcom : s.committing with
    | false => exact (hph.2 hcom).2 b hb hn
    | true =>
      have hr := hdur.inv.running hm
      obtain ⟨p, hp⟩ := hr.committing_iff.mp hcom
      cases hpc : s.proc p with
      | commit c =>
        have hok := hph.1 p c hpc
        cases c with
        | check => exact hok.2 b hb hn
        | writeLog tail => exact hok.1.2 b hb hn
        | writeHead => exact hok.1.2 b hb hn
        | install tail => exact hok.2.1 b hb
        | eraseHead => exact (hok b hb).2
        | finish => exact hok.2 b hb hn
      | idle => rw [hpc] at hp; cases hp
      | sleeping => rw [hpc] at hp; cases hp
      | woken => rw [hpc] at hp; cases hp
      | inOp ws => rw [hpc] at hp; cases hp
  · simp only [PhaseOk, hm] at hph
    have hok := hph.1 p c hp
    rcases hc with ⟨tail, rfl⟩ | rfl | rfl
    · exact hok.2.1 b hb
    · exact (hok b hb).2
    · have hr := hdur.inv.running hm
      refine hok.2 b hb ?_
      rw [hr.erased p (.inr hp)]
      exact List.not_mem_nil

/-- One process logs a block and crashes right after the header is written; the
recovery that follows brings the block to its place. -/
theorem crash_atomicity_replay : ∃ (s s' : Sys (Fin 1)) (g : Ghost),
    step ⟨2, 30, by decide⟩ s .recover = .ok s' ∧ g.points.length = 1 ∧
      s'.disk 100 = g.last (fun _ => Bytes.zero) 100 := by
  have hrun : (run (traced ⟨2, 30, by decide⟩)
      ((.boot fun _ => Bytes.zero, ⟨[], []⟩) : Sys (Fin 1) × Ghost)
      [.recover, .recover, .recover, .beginOp 0, .logWrite 0 100 (Bytes.zero.set 0 7), .endOp 0,
        .commit 0, .commit 0, .commit 0, .commit 0, .crash, .recover, .recover, .recover]).check
      (fun x => (step ⟨2, 30, by decide⟩ x.1 .recover).check (fun s' => decide (s'.mode = .up)) &&
        decide (x.2.points.length = 1)) = true := by decide +kernel
  obtain ⟨⟨s, g⟩, hx, htest⟩ := Outcome.exists_of_check hrun
  obtain ⟨hstep, hcount⟩ := (Bool.and_eq_true _ _).mp htest
  have hlen : g.points.length = 1 := of_decide_eq_true hcount
  obtain ⟨s', hs', hmode⟩ := Outcome.exists_of_check hstep
  have hup : s'.mode = .up := of_decide_eq_true hmode
  have hhome : ¬ (⟨2, 30, by decide⟩ : Geometry).Region 100 := by
    rintro ⟨k, hk, hb⟩
    have hnat : (100 : BlockNo).toNat = ((2 : BlockNo).toNat + k % 2 ^ 32) % 2 ^ 32 := by
      simpa using congrArg BitVec.toNat hb
    simp only [BitVec.toNat_ofNat, BitVec.ofNat_eq_ofNat] at hnat
    simp only at hk
    omega
  have hreach : Reach (traced ⟨2, 30, by decide⟩) (fun _ e => Outside ⟨2, 30, by decide⟩ e)
      ((.boot fun _ => Bytes.zero, ⟨[], []⟩) : Sys (Fin 1) × Ghost) (s, g) :=
    reach_of_run .refl (permitted_of_forall (by simpa [Outside] using fun _ _ => hhome) _) hx
  exact ⟨s, s', g, hs', hlen,
    ((crash_atomicity (by decide +kernel) hreach).1 s' hs' hup 100 hhome).1⟩

end Xv6.Log
