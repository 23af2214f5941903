import Sillage.Writer.Frame
import Sillage.Writer.Restart

/-!
# Sealing that is cut off

Sealing renames the payload first and the sidecar last. A cut before the first rename
leaves only temporary files, which recovery sweeps; a cut after the last one leaves a
sealed chunk. In between the payload stands without its sidecar: recovery does not
count the range, and no later chunker opens it again.
-/

namespace Sillage

open LittleEndian Directory OpenChunk Ledger Chunker Recovery

variable {k : Codecs} {stream : Stream} {cfg : WriterConfig} {s : Chunker} {l : Ledger}

/-- The number of file steps up to the rename of the payload. -/
def payloadRename : Nat := 4

/-- The number of file steps of a whole seal. -/
def sealLength : Nat := 8

/-- The cut leaves the payload under its final name and the sidecar under its
temporary one. -/
def torn (cut : Nat) : Prop := payloadRename ≤ cut ∧ cut < sealLength

/-- Whether a cut tears a seal is a comparison. -/
instance (cut : Nat) : Decidable (torn cut) := inferInstanceAs (Decidable (_ ∧ _))

/-- The states a chunker passes through, in the middle of its calls included, over any
number of lifetimes that end between two seals or in a seal that is not torn. -/
inductive Reachable (k : Codecs) (stream : Stream) (cfg : WriterConfig) : Chunker → Prop where
  | start : Reachable k stream cfg (new stream cfg ∅)
  | advance {s : Chunker} (slot : Nat) (reached : Reachable k stream cfg s) :
      Reachable k stream cfg (s.advance slot)
  | record {s opened s' : Chunker} {verdict : Verdict} (a : Arrival) (fits : Fits cfg a.slot)
      (reached : Reachable k stream cfg s)
      (begun : openChunk a.now (a.slot / cfg.slotsPerChunk) s = .ok opened)
      (recorded : appendTo k (a.slot / cfg.slotsPerChunk) a opened = .ok (verdict, s')) :
      Reachable k stream cfg s'
  | sealed {s s' : Chunker} {reason : String} {idx : Nat} (reached : Reachable k stream cfg s)
      (done : sealChunk k reason idx s = .ok s') : Reachable k stream cfg s'
  | restart {s : Chunker} (reached : Reachable k stream cfg s) :
      Reachable k stream cfg (new stream cfg (sweepPartials s.baseDir).1)
  | cut {s : Chunker} {reason : String} {idx cut : Nat} {dir : Dir}
      (reached : Reachable k stream cfg s) (done : sealCut k reason idx cut s = .ok dir)
      (whole : ¬ torn cut) : Reachable k stream cfg (new stream cfg (sweepPartials dir).1)

/-- What a restart relies on. Every range has all of its final files or none of them;
a range with none can be opened; and whatever is delivered from the resume slot on is
recorded as it would be over an empty directory. -/
structure Recoverable (k : Codecs) (stream : Stream) (cfg : WriterConfig) (dir : Dir)
    (resume : Option Nat) : Prop where
  whole : ∀ idx, (∀ ext ∈ finalExtensions, (dir.lookup (chunkName cfg idx ext)).isSome = true) ∨
    ∀ ext ∈ finalExtensions, dir.lookup (chunkName cfg idx ext) = none
  reopens : ∀ idx now, idx * cfg.slotsPerChunk + cfg.slotsPerChunk < u64Bound →
    (∀ ext ∈ finalExtensions, dir.lookup (chunkName cfg idx ext) = none) →
    ∃ s, openChunk now idx (new stream cfg dir) = .ok s ∧ idx ∈ s.open
  records : ∀ ops, (∀ r, resume = some r → ∀ a ∈ arrivals ops, r ≤ a.slot) →
    accepted k (new stream cfg dir) ops = accepted k (new stream cfg ∅) ops

/-- What holds in every reachable state: open chunks are filled, and the range of every
chunk with messages fits. -/
structure Standing (k : Codecs) (stream : Stream) (cfg : WriterConfig) (s : Chunker)
    (l : Ledger) : Prop where
  represents : Represents k stream cfg s l
  filled : ∀ idx ∈ l.opened, l.contents idx ≠ []
  fits : ∀ idx, l.contents idx ≠ [] → idx * cfg.slotsPerChunk + cfg.slotsPerChunk < u64Bound

/-- A chunker that starts on the remains of another one stands on what was sealed. -/
theorem standing_restart {dir : Dir} {left : Nat → List Arrival}
    (remains : Remains k stream cfg dir left)
    (fits : ∀ idx, left idx ≠ [] → idx * cfg.slotsPerChunk + cfg.slotsPerChunk < u64Bound) :
    Standing k stream cfg (new stream cfg (sweepPartials dir).1) ⟨none, ∅, left⟩ :=
  ⟨represents_new (archive_sweep remains), by simp, fits⟩

/-- The contents of the chunks that are not open are a part of all contents. -/
theorem Standing.left_fits (standing : Standing k stream cfg s l) (idx : Nat)
    (full : (if idx ∈ l.opened then [] else l.contents idx) ≠ []) :
    idx * cfg.slotsPerChunk + cfg.slotsPerChunk < u64Bound := by
  by_cases isOpen : idx ∈ l.opened
  · simp [isOpen] at full
  · exact standing.fits idx (by simpa [isOpen] using full)

/-- Sealing succeeds on open chunks only. -/
theorem sealCut_opened (represents : Represents k stream cfg s l) {reason : String}
    {idx cut : Nat} {dir : Dir} (done : sealCut k reason idx cut s = .ok dir) :
    idx ∈ l.opened ∧ ∃ opening, dir = performCut s.baseDir
      ((holding k stream cfg idx opening (l.contents idx)).sealSteps k stream
        (payload k (l.contents idx)) reason) cut := by
  cases found : s.open[idx]? with
  | none => simp [sealCut, found] at done
  | some chunk =>
    obtain ⟨opening, rfl⟩ := represents.holds idx chunk found
    have isOpen : idx ∈ s.open := Std.TreeMap.mem_iff_isSome_getElem?.mpr (by simp [found])
    refine ⟨(represents.opened idx).mp isOpen, opening, ?_⟩
    rw [← represents.sameStream]
    simp only [sealCut, found, represents.sameStream] at done
    rw [represents.sameStream]
    exact (Except.ok.inj done).symm

/-- A seal that runs to its end closes its chunk. -/
theorem Standing.sealed (positive : 0 < cfg.slotsPerChunk) (standing : Standing k stream cfg s l)
    {reason : String} {idx : Nat} {s' : Chunker} (done : sealChunk k reason idx s = .ok s') :
    Standing k stream cfg s' (l.close {idx}) := by
  have member : idx ∈ l.opened := by
    cases found : s.open[idx]? with
    | none => simp [sealChunk, found] at done
    | some chunk =>
      exact (standing.represents.opened idx).mp
        (Std.TreeMap.mem_iff_isSome_getElem?.mpr (by simp [found]))
  obtain ⟨closed, done', represents⟩ := represents_seal positive reason standing.represents member
    (standing.filled idx member)
  obtain rfl := Except.ok.inj (done.symm.trans done')
  exact ⟨represents, fun i isOpen => standing.filled i (Finset.mem_sdiff.mp isOpen).1,
    standing.fits⟩

/-- Opening the chunk of a message and appending it keeps the standing. -/
theorem Standing.record (positive : 0 < cfg.slotsPerChunk) (standing : Standing k stream cfg s l)
    (a : Arrival) (fits : Fits cfg a.slot) {opened s' : Chunker} {verdict : Verdict}
    (begun : openChunk a.now (a.slot / cfg.slotsPerChunk) s = .ok opened)
    (recorded : appendTo k (a.slot / cfg.slotsPerChunk) a opened = .ok (verdict, s')) :
    ∃ l', Standing k stream cfg s' l' := by
  obtain ⟨represents, filled, ranges⟩ := standing
  -- appending to a chunk that is open in a ledger whose other open chunks are filled
  have appended : ∀ {l₁ : Ledger}, Represents k stream cfg opened l₁ →
      a.slot / cfg.slotsPerChunk ∈ l₁.opened → l₁.contents = l.contents →
      (∀ i ∈ l₁.opened, i ≠ a.slot / cfg.slotsPerChunk → l.contents i ≠ []) →
      ∃ l', Standing k stream cfg s' l' := by
    intro l₁ represents₁ member same others
    obtain ⟨written, done, represents'⟩ := represents_append represents₁ a member
    obtain ⟨-, rfl⟩ := Prod.mk.inj (Except.ok.inj (recorded.symm.trans done))
    refine ⟨_, represents', ?_, ?_⟩
    · intro i isOpen
      by_cases own : i = a.slot / cfg.slotsPerChunk
      · simp [Ledger.record, own]
      · simpa [Ledger.record, Function.update_of_ne own, same] using others i isOpen own
    · intro i full
      by_cases own : i = a.slot / cfg.slotsPerChunk
      · exact own ▸ fits.range
      · simp only [Ledger.record, Function.update_of_ne own, same] at full
        exact ranges i full
  by_cases isOpen : a.slot / cfg.slotsPerChunk ∈ l.opened
  · have held : s.open.contains (a.slot / cfg.slotsPerChunk) = true := by
      rw [Std.TreeMap.contains_iff_mem, represents.opened]
      exact isOpen
    simp only [openChunk, held, if_true, Except.ok.injEq] at begun
    subst begun
    exact appended represents isOpen rfl (fun i member _ => filled i member)
  · obtain ⟨opened', begun', represented⟩ := represents_open positive a.now represents isOpen
      fits.range
    obtain rfl := Except.ok.inj (begun.symm.trans begun')
    by_cases unused : l.contents (a.slot / cfg.slotsPerChunk) = []
    · rw [if_pos unused] at represented
      refine appended represented (Finset.mem_insert_self _ _) rfl (fun i member other => ?_)
      exact filled i ((Finset.mem_insert.mp member).resolve_left other)
    · rw [if_neg unused] at represented
      obtain ⟨-, rfl⟩ := Prod.mk.inj (Except.ok.inj
        (recorded.symm.trans (represents_refused represented a isOpen)))
      exact ⟨l, represented, filled, ranges⟩

/-- The first file steps of a seal only touch temporary names. -/
theorem partial_steps (k : Codecs) (stream : Stream) {chunk : OpenChunk} {idx cut : Nat}
    (named : ∀ ext, chunk.file ext = chunkName cfg idx ext) (early : cut < payloadRename)
    (written : Bytes) (reason : String) (dir : Dir) (asked : FileName)
    (kept : isPartial asked = false) :
    (performCut dir (chunk.sealSteps k stream written reason) cut).lookup asked =
      dir.lookup asked := by
  have leftover : ∀ ext, asked ≠ chunkName cfg idx (ext ++ ".partial") := by
    rintro ext rfl
    simp [isPartial_leftover] at kept
  have zst := leftover "zst"
  have sidecar := leftover "meta.json"
  refine perform_untouched _ _ _ (fun step member => ?_)
  have inside : step ∈ (chunk.sealSteps k stream written reason).take 3 :=
    (List.take_subset_take_left _ (Nat.le_of_lt_succ early)) member
  simp only [sealSteps, List.take_succ_cons, List.take_zero, List.mem_cons, List.not_mem_nil,
    or_false] at inside
  rcases inside with rfl | rfl | rfl
  · simpa [FileStep.touches, named] using zst
  · simpa [FileStep.touches, named] using sidecar
  · simpa [FileStep.touches, named] using sidecar

/-- A seal that is cut off after its last step is whole. -/
theorem sealCut_whole (k : Codecs) (reason : String) (idx : Nat) {cut : Nat}
    (complete : sealLength ≤ cut) (s : Chunker) :
    sealCut k reason idx cut s = (sealChunk k reason idx s).map Chunker.baseDir := by
  simp only [sealCut, sealChunk]
  cases s.open[idx]? with
  | none => rfl
  | some chunk =>
    cases held : chunk.encoder with
    | none => simp only [held, Except.map]
    | some written =>
      simp only [held, Except.map]
      rw [performCut_all _ _ _ complete]

/-- A seal that is not torn leaves the remains of a chunker before or after it. -/
theorem Standing.cut (positive : 0 < cfg.slotsPerChunk) (standing : Standing k stream cfg s l)
    {reason : String} {idx cut : Nat} {dir : Dir} (done : sealCut k reason idx cut s = .ok dir)
    (whole : ¬ torn cut) :
    ∃ left, Remains k stream cfg dir left ∧
      ∀ i, left i ≠ [] → i * cfg.slotsPerChunk + cfg.slotsPerChunk < u64Bound := by
  rcases Nat.lt_or_ge cut payloadRename with early | late
  · obtain ⟨member, opening, rfl⟩ := sealCut_opened standing.represents done
    have remains := represents_remains standing.represents
    have same := partial_steps k stream (holding_file k stream cfg idx opening (l.contents idx))
      early (payload k (l.contents idx)) reason s.baseDir
    refine ⟨_, ⟨fun i full => ?_, fun name content stored kept => ?_⟩, standing.left_fits⟩
    · obtain ⟨reason', files⟩ := remains.chunks i full
      have final : ∀ ext ∈ finalExtensions, isPartial (chunkName cfg i ext) = false :=
        fun ext among => isPartial_final cfg i among
      exact ⟨reason', (same _ (final "zst" (by decide))).trans files.compressed,
        (same _ (final "idx" (by decide))).trans files.index,
        (same _ (final "meta.json" (by decide))).trans files.sidecar⟩
    · exact remains.only name content (same name kept ▸ stored) kept
  · have complete : sealLength ≤ cut := by
      simp only [torn, not_and, not_lt] at whole
      exact whole late
    rw [sealCut_whole k reason idx complete] at done
    cases finished : sealChunk k reason idx s with
    | error fault =>
      rw [finished] at done
      cases done
    | ok s' =>
      rw [finished] at done
      obtain rfl := Except.ok.inj done
      have closed := standing.sealed positive finished
      exact ⟨_, represents_remains closed.represents, closed.left_fits⟩

/-- Every reachable state stands on a ledger. -/
theorem reachable_standing (positive : 0 < cfg.slotsPerChunk)
    (reached : Reachable k stream cfg s) : ∃ l, Standing k stream cfg s l := by
  induction reached with
  | start => exact ⟨_, represents_new (archive_empty k stream cfg), by simp, by simp⟩
  | advance slot reached inductionHypothesis =>
    obtain ⟨l, standing⟩ := inductionHypothesis
    exact ⟨_, represents_advance slot standing.represents, standing.filled, standing.fits⟩
  | record a fits reached begun recorded inductionHypothesis =>
    obtain ⟨l, standing⟩ := inductionHypothesis
    exact standing.record positive a fits begun recorded
  | sealed reached done inductionHypothesis =>
    obtain ⟨l, standing⟩ := inductionHypothesis
    exact ⟨_, standing.sealed positive done⟩
  | restart reached inductionHypothesis =>
    obtain ⟨l, standing⟩ := inductionHypothesis
    exact ⟨_, standing_restart (represents_remains standing.represents) standing.left_fits⟩
  | cut reached done whole inductionHypothesis =>
    obtain ⟨l, standing⟩ := inductionHypothesis
    obtain ⟨left, remains, fits⟩ := standing.cut positive done whole
    exact ⟨_, standing_restart remains fits⟩

/-- Sealing a list of chunks is made of moves that reachability allows. -/
theorem reachable_sealAll {reason : String} {indices : List Nat} {s' : Chunker}
    (reached : Reachable k stream cfg s) (done : sealAll k reason indices s = .ok s') :
    Reachable k stream cfg s' := by
  induction indices generalizing s with
  | nil => exact Except.ok.inj done ▸ reached
  | cons idx rest inductionHypothesis =>
    simp only [sealAll, bind, Except.bind] at done
    split at done
    · cases done
    · next next sealed => exact inductionHypothesis (.sealed reached sealed) done

/-- So is making room. -/
theorem reachable_makeRoom {idx fuel : Nat} {s' : Chunker} (reached : Reachable k stream cfg s)
    (done : makeRoom k idx fuel s = .ok s') : Reachable k stream cfg s' := by
  induction fuel generalizing s with
  | zero => exact Except.ok.inj done ▸ reached
  | succ fuel inductionHypothesis =>
    simp only [makeRoom] at done
    split at done
    · split at done
      · cases done
      · split at done
        · exact Except.ok.inj done ▸ reached
        · simp only [bind, Except.bind] at done
          split at done
          · cases done
          · next next sealed => exact inductionHypothesis (.sealed reached sealed) done
    · exact Except.ok.inj done ▸ reached

/-- No move changes the configuration. -/
theorem Reachable.config (positive : 0 < cfg.slotsPerChunk) (reached : Reachable k stream cfg s) :
    s.cfg = cfg := by
  obtain ⟨l, standing⟩ := reachable_standing positive reached
  exact standing.represents.sameCfg

/-- So is taking in a message. -/
theorem reachable_ingest (positive : 0 < cfg.slotsPerChunk) {a : Arrival}
    (fits : Fits cfg a.slot) {verdict : Verdict} {s' : Chunker}
    (reached : Reachable k stream cfg s) (done : ingest k a s = .ok (verdict, s')) :
    Reachable k stream cfg s' := by
  have advanced := Reachable.advance a.slot reached
  have config := advanced.config positive
  have divided : checkedDiv a.slot (s.advance a.slot).cfg.slotsPerChunk =
      .ok (a.slot / cfg.slotsPerChunk) := by
    rw [config, checkedDiv, if_neg positive.ne']
  simp only [ingest, divided, bind, Except.bind] at done
  split at done
  · cases done
  split at done
  · cases done
  split at done
  · obtain ⟨-, rfl⟩ := Prod.mk.inj (Except.ok.inj done)
    exact advanced
  split at done
  · cases done
  next opened ensured =>
  split at done
  · cases done
  next result appended =>
  obtain ⟨verdict', recorded⟩ := result
  split at done
  · cases done
  next toSeal found =>
  split at done
  · cases done
  next trimmed sealed =>
  obtain ⟨-, rfl⟩ := Prod.mk.inj (Except.ok.inj done)
  refine reachable_sealAll ?_ sealed
  simp only [ensureOpen] at ensured
  split at ensured
  · next isOpen =>
    obtain rfl := Except.ok.inj ensured
    have same : openChunk a.now (a.slot / cfg.slotsPerChunk) (s.advance a.slot) =
        .ok (s.advance a.slot) := by simp [openChunk, isOpen]
    exact .record a fits advanced same appended
  · simp only [bind, Except.bind] at ensured
    split at ensured
    · cases ensured
    · next roomy made => exact .record a fits (reachable_makeRoom advanced made) ensured appended

/-- Every call of a lane ends in a reachable state. -/
theorem reachable_run (positive : 0 < cfg.slotsPerChunk) {ops : List Op}
    (fits : ∀ a ∈ arrivals ops, Fits cfg a.slot) {s' : Chunker}
    (reached : Reachable k stream cfg s) (done : run k s ops = .ok s') :
    Reachable k stream cfg s' := by
  induction ops generalizing s with
  | nil => exact Except.ok.inj done ▸ reached
  | cons op rest inductionHypothesis =>
    simp only [run, bind, Except.bind] at done
    split at done
    · cases done
    next next stepped =>
    cases op with
    | ingest a =>
      refine inductionHypothesis (fun b member => fits b (by simp [member])) ?_ done
      cases taken : ingest k a s with
      | error fault => simp [step, taken, Except.map] at stepped
      | ok result =>
        obtain ⟨verdict, after⟩ := result
        simp only [step, taken, Except.map, Except.ok.injEq] at stepped
        exact stepped ▸ reachable_ingest positive (fits a (by simp)) reached taken
    | tick now =>
      exact inductionHypothesis (fun b member => fits b (by simpa using member))
        (reachable_sealAll reached stepped) done

/-- A name of a chunk without messages is not in an archive. -/
theorem archive_absent (positive : 0 < cfg.slotsPerChunk) {dir : Dir}
    {contents : Nat → List Arrival} (archive : Archive k stream cfg dir contents) {idx : Nat}
    (empty : contents idx = []) (ext : String) : dir.lookup (chunkName cfg idx ext) = none := by
  cases stored : dir.lookup (chunkName cfg idx ext) with
  | none => rfl
  | some content =>
    obtain ⟨idx', ext', full, -, named⟩ := archive.only _ content stored
    exact absurd ((chunkName_injective positive named).1 ▸ empty) full

/-- An archive is what a restart relies on. -/
theorem recoverable_archive (positive : 0 < cfg.slotsPerChunk) {dir : Dir}
    {contents : Nat → List Arrival} (archive : Archive k stream cfg dir contents)
    (fits : ∀ idx, contents idx ≠ [] → idx * cfg.slotsPerChunk + cfg.slotsPerChunk < u64Bound) :
    Recoverable k stream cfg dir (latestSealedEndSlot dir) where
  whole idx := by
    by_cases full : contents idx = []
    · exact .inr (fun ext _ => archive_absent positive archive full ext)
    · obtain ⟨reason, files⟩ := archive.chunks idx full
      refine .inl (fun ext final => ?_)
      simp only [finalExtensions, List.mem_cons, List.not_mem_nil, or_false] at final
      rcases final with rfl | rfl | rfl
      · simp [files.compressed]
      · simp [files.index]
      · simp [files.sidecar]
  reopens idx now range absent := by
    have empty : contents idx = [] := by
      by_contra full
      obtain ⟨reason, files⟩ := archive.chunks idx full
      have gone := absent "zst" (by decide)
      simp [files.compressed] at gone
    obtain ⟨s, done, represents⟩ :=
      represents_open positive now (represents_new archive) (by simp) range
    rw [if_pos empty] at represents
    exact ⟨s, done, (represents.opened idx).mpr (by simp [Ledger.begin])⟩
  records ops above := by
    have resumes := resumesAt_archive positive archive fits
    -- the first chunk that the delivered messages can fall into
    have low : ∃ low, (∀ idx, low ≤ idx → contents idx = []) ∧
        ∀ a ∈ arrivals ops, low ≤ a.slot / cfg.slotsPerChunk := by
      cases found : latestSealedEndSlot dir with
      | none =>
        rw [found] at resumes
        exact ⟨0, fun idx _ => resumes idx, fun _ _ => Nat.zero_le _⟩
      | some resume =>
        rw [found] at resumes
        obtain ⟨last, -, rfl, greatest⟩ := resumes
        refine ⟨last + 1, fun idx higher => ?_, fun a member => ?_⟩
        · by_contra full
          exact absurd (greatest idx full) (by omega)
        · exact (resume_le_iff positive last a.slot).mp (above _ found a member)
    obtain ⟨low, empty, high⟩ := low
    refine accepted_sameFrom ops ⟨rfl, ⟨rfl, rfl⟩, rfl, rfl, ?_, ?_⟩ high
    · rintro name ⟨idx, ext, higher, rfl⟩
      rw [Chunker.new, archive_absent positive archive (empty idx higher) ext]
      rfl
    · intro idx chunk found
      simp [Chunker.new] at found

/-- A torn seal leaves a payload without its sidecar. -/
theorem torn_seal (positive : 0 < cfg.slotsPerChunk) (standing : Standing k stream cfg s l)
    {reason : String} {idx cut : Nat} {dir : Dir} (done : sealCut k reason idx cut s = .ok dir)
    (isTorn : torn cut) :
    (dir.lookup (chunkName cfg idx "zst")).isSome = true ∧
      dir.lookup (chunkName cfg idx "meta.json") = none := by
  obtain ⟨member, opening, rfl⟩ := sealCut_opened standing.represents done
  have absent : s.baseDir.lookup (chunkName cfg idx "meta.json") = none := by
    cases stored : s.baseDir.lookup (chunkName cfg idx "meta.json") with
    | none => rfl
    | some content =>
      rcases standing.represents.only _ content stored with
        ⟨i, -, named⟩ | ⟨i, ext, closed, -, -, named⟩
      · exact absurd (chunkName_injective positive named).2 (by decide)
      · exact absurd ((chunkName_injective positive named).1 ▸ member) closed
  obtain ⟨late, early⟩ := isTorn
  simp only [payloadRename, sealLength] at late early
  have steps : cut = 4 ∨ cut = 5 ∨ cut = 6 ∨ cut = 7 := by omega
  rcases steps with rfl | rfl | rfl | rfl
  all_goals
    simp [performCut, perform, sealSteps, lookup_renamed, absent]

/-- Whenever sealing is cut off, the next start is sound exactly when the cut is not
torn: no range is left with a part of its files, a range without files is opened again,
and everything delivered from the resume slot on is recorded. -/
theorem crash_atomic_iff (k : Codecs) (stream : Stream) (cfg : WriterConfig)
    (positive : 1 ≤ cfg.slotsPerChunk) (s : Chunker) (reached : Reachable k stream cfg s)
    (reason : String) (idx cut : Nat) (dir : Dir) (done : sealCut k reason idx cut s = .ok dir)
    (dirs : Dirs) (found : dirs stream = dir) :
    Recoverable k stream cfg ((runRecovery dirs).1 stream)
        (resumeSlotOf (runRecovery dirs).2 stream) ↔ ¬ torn cut := by
  subst found
  obtain ⟨l, standing⟩ := reachable_standing positive reached
  rw [resumeSlotOf_runRecovery]
  constructor
  · rintro ⟨whole, -, -⟩ isTorn
    obtain ⟨payload, sidecar⟩ := torn_seal positive standing done isTorn
    have kept : ∀ ext ∈ finalExtensions, (sweepPartials (dirs stream)).1.lookup
        (chunkName cfg idx ext) = (dirs stream).lookup (chunkName cfg idx ext) := by
      intro ext final
      simp [lookup_sweepPartials, isPartial_final cfg idx final]
    rcases whole idx with all | none
    · have missing := all "meta.json" (by decide)
      rw [show (runRecovery dirs).1 stream = (sweepPartials (dirs stream)).1 from rfl,
        kept "meta.json" (by decide), sidecar] at missing
      cases missing
    · have gone := none "zst" (by decide)
      rw [show (runRecovery dirs).1 stream = (sweepPartials (dirs stream)).1 from rfl,
        kept "zst" (by decide)] at gone
      simp [gone] at payload
  · intro whole
    obtain ⟨left, remains, fits⟩ := standing.cut positive done whole
    exact recoverable_archive positive (archive_sweep remains) fits

/-- A lane with one message of slot 500, which a shutdown is about to seal. -/
def lone : List Op := [.ingest ⟨0, ⟨0, ⟨[], none, none, []⟩⟩, 500⟩]

/-- The slot of the one message fits. -/
theorem lone_fits : ∀ a ∈ arrivals lone, Fits ⟨1000, 100, 4⟩ a.slot := by
  intro a member
  obtain rfl := List.mem_singleton.mp member
  exact ⟨by decide, by decide, by decide⟩

/-- Whether the restart on what a cut of the lone seal leaves accepts the message again. -/
def redelivered (cut : Nat) : Option (Option Nat × List Arrival) := do
  let s ← (run PlainCodecs.plain (new .tx ⟨1000, 100, 4⟩ ∅) lone).toOption
  let dir ← (sealCut PlainCodecs.plain "shutdown" 0 cut s).toOption
  let recovered := runRecovery (fun _ => dir)
  some (resumeSlotOf recovered.2 .tx,
    accepted PlainCodecs.plain (new .tx ⟨1000, 100, 4⟩ (recovered.1 .tx)) lone)

example : redelivered 3 = some (none, arrivals lone) := by decide +kernel

/-- A seal that is cut behind its third step leaves nothing torn. -/
theorem crash_atomic_iff_lone :
    ∃ s dir, run PlainCodecs.plain (new .tx ⟨1000, 100, 4⟩ ∅) lone = .ok s ∧
      sealCut PlainCodecs.plain "shutdown" 0 3 s = .ok dir ∧
      (Recoverable PlainCodecs.plain .tx ⟨1000, 100, 4⟩ ((runRecovery (fun _ => dir)).1 .tx)
        (resumeSlotOf (runRecovery (fun _ => dir)).2 .tx) ↔ ¬ torn 3) := by
  have computed : redelivered 3 = some (none, arrivals lone) := by decide +kernel
  cases ran : run PlainCodecs.plain (new .tx ⟨1000, 100, 4⟩ ∅) lone with
  | error fault => simp [redelivered, ran, Except.toOption] at computed
  | ok s =>
    cases done : sealCut PlainCodecs.plain "shutdown" 0 3 s with
    | error fault => simp [redelivered, ran, done, Except.toOption] at computed
    | ok dir =>
      have reached : Reachable PlainCodecs.plain .tx ⟨1000, 100, 4⟩ s :=
        reachable_run (by decide) lone_fits .start ran
      exact ⟨s, dir, rfl, done, crash_atomic_iff PlainCodecs.plain .tx ⟨1000, 100, 4⟩ (by decide) s
        reached "shutdown" 0 3 dir done (fun _ => dir) rfl⟩

/-- A crash right after the payload is renamed: no resume slot is reported, and the
message is dropped when it is delivered again. -/
theorem torn_seal_discards :
    ∃ s dir, run PlainCodecs.plain (new .tx ⟨1000, 100, 4⟩ ∅) lone = .ok s ∧
      sealCut PlainCodecs.plain "shutdown" 0 4 s = .ok dir ∧
      resumeSlotOf (runRecovery (fun _ => dir)).2 .tx = none ∧
      accepted PlainCodecs.plain (new .tx ⟨1000, 100, 4⟩ ((runRecovery (fun _ => dir)).1 .tx))
        lone = [] ∧
      ¬ Recoverable PlainCodecs.plain .tx ⟨1000, 100, 4⟩ ((runRecovery (fun _ => dir)).1 .tx)
        (resumeSlotOf (runRecovery (fun _ => dir)).2 .tx) := by
  have computed : redelivered 4 = some (none, []) := by decide +kernel
  cases ran : run PlainCodecs.plain (new .tx ⟨1000, 100, 4⟩ ∅) lone with
  | error fault => simp [redelivered, ran, Except.toOption] at computed
  | ok s =>
    cases done : sealCut PlainCodecs.plain "shutdown" 0 4 s with
    | error fault => simp [redelivered, ran, done, Except.toOption] at computed
    | ok dir =>
      simp only [redelivered, ran, done, Except.toOption, Option.bind_eq_bind, Option.bind_some,
        Option.some.injEq, Prod.mk.injEq] at computed
      obtain ⟨silent, dropped⟩ := computed
      refine ⟨s, dir, rfl, done, silent, dropped, ?_⟩
      rintro ⟨-, -, records⟩
      have again := records lone (by simp [silent])
      rw [dropped] at again
      exact absurd again (by decide +kernel)

end Sillage
