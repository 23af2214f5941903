import Sillage.Writer.Refinement

/-!
# Recovery at startup

Recovery removes the temporary files that an earlier lifetime left behind and
reports where each stream should resume: at the largest end of range among the
sidecar names. Both read names only. The order in which a directory is listed does
not matter to either.
-/

namespace Sillage

open LittleEndian Directory Names OpenChunk

namespace Recovery

/-- The extension of a file name: what follows its last dot, unless nothing comes
before that dot. -/
def extension (name : FileName) : Option (List Char) :=
  match name.reverse.dropWhile (· ≠ '.') with
  | [] => none
  | [_] => none
  | _ => some (name.reverse.takeWhile (· ≠ '.')).reverse

/-- A leftover of an unfinished seal. -/
def isPartial (name : FileName) : Bool := extension name = some "partial".toList

/-- Remove one name if it is a leftover, counting removals. -/
def sweepEntry (state : Dir × Nat) (name : FileName) : Dir × Nat :=
  if isPartial name then (FileStep.apply state.1 (.remove name), state.2 + 1) else state

/-- Remove every leftover of one stream's directory. -/
def sweepPartials (dir : Dir) : Dir × Nat := dir.keys.foldl sweepEntry (dir, 0)

/-- The end of range in a sidecar's name. -/
def sealedEndSlot (name : FileName) : Option Nat :=
  match stripSuffix metaSuffix name with
  | none => none
  | some stem =>
      match splitOnce stem with
      | none => none
      | some (_, stop) => parseU64 stop

/-- Take one name into the running maximum. -/
def raiseEnd (maxEnd : Option Nat) (name : FileName) : Option Nat :=
  match sealedEndSlot name with
  | some stop => some (maxEnd.elim stop (max · stop))
  | none => maxEnd

/-- The largest end of range among the sidecars of a directory. -/
def latestSealedEndSlot (dir : Dir) : Option Nat := dir.keys.foldl raiseEnd none

/-- The sidecars without an upload marker beside them. -/
def countUnuploaded (dir : Dir) : Nat :=
  (dir.keys.filter (fun name =>
    match stripSuffix metaSuffix name with
    | none => false
    | some stem => (dir.lookup (stem ++ ".uploaded".toList)).isNone)).length

/-- What the recovery finds of a stream: the slot to resume from, and how many chunks wait for
their upload. -/
structure StreamRecovery where
  stream : Stream
  resumeSlot : Option Nat
  unuploaded : Nat
deriving DecidableEq

/-- What the recovery reports: how many temporary files it has removed, and what it finds of
each stream. -/
structure RecoveryReport where
  partialsRemoved : Nat
  perStream : List StreamRecovery
deriving DecidableEq

/-- The directories of the three streams. -/
abbrev Dirs := Stream → Dir

/-- Recovery over the directories of all streams: the swept directories and the
report on them. -/
def runRecovery (dirs : Dirs) : Dirs × RecoveryReport :=
  let swept : Dirs := fun stream => (sweepPartials (dirs stream)).1
  (swept,
    { partialsRemoved := (Stream.all.map (fun stream => (sweepPartials (dirs stream)).2)).sum
      perStream := Stream.all.map (fun stream =>
        { stream
          resumeSlot := latestSealedEndSlot (swept stream)
          unuploaded := countUnuploaded (swept stream) }) })

/-- The slot from which the lane of a stream resumes, as startup reads it out of the
report. -/
def resumeSlotOf (report : RecoveryReport) (stream : Stream) : Option Nat :=
  (report.perStream.find? (fun entry => entry.stream = stream)).bind StreamRecovery.resumeSlot

/-- What follows a dot is the extension when it has no dot itself. -/
theorem extension_append {before after : List Char} (nonempty : before ≠ []) (plain : '.' ∉ after) :
    extension (before ++ '.' :: after) = some after := by
  obtain ⟨initial, last, rfl⟩ := List.eq_nil_or_concat before |>.resolve_left nonempty
  have absent : '.' ∉ after.reverse := by simpa using plain
  have reversed : ((initial ++ [last]) ++ '.' :: after).reverse =
      after.reverse ++ '.' :: (last :: initial.reverse) := by simp
  simp only [extension, List.concat_eq_append, reversed, takeWhile_separator absent,
    dropWhile_separator absent, List.reverse_reverse]

/-- The temporary names of a chunk are leftovers. -/
theorem isPartial_leftover (cfg : WriterConfig) (idx : Nat) (ext : String) :
    isPartial (chunkName cfg idx (ext ++ ".partial")) = true := by
  have split : chunkName cfg idx (ext ++ ".partial") =
      chunkName cfg idx ext ++ '.' :: "partial".toList := by
    simp [chunkName, chunkFile]
  rw [isPartial, split, extension_append (by simp [chunkName, chunkFile]) (by decide)]
  decide

/-- The final names are not. -/
theorem isPartial_final (cfg : WriterConfig) (idx : Nat) {ext : String}
    (final : ext ∈ finalExtensions) : isPartial (chunkName cfg idx ext) = false := by
  have nonempty : stem (idx * cfg.slotsPerChunk) (idx * cfg.slotsPerChunk + cfg.slotsPerChunk) ≠
      [] := by simp [stem]
  simp only [finalExtensions, List.mem_cons, List.not_mem_nil, or_false] at final
  rcases final with rfl | rfl | rfl
  · rw [isPartial, chunkName, chunkFile, extension_append nonempty (by decide)]
    decide
  · rw [isPartial, chunkName, chunkFile, extension_append nonempty (by decide)]
    decide
  · have split : chunkName cfg idx "meta.json" =
        (stem (idx * cfg.slotsPerChunk) (idx * cfg.slotsPerChunk + cfg.slotsPerChunk) ++
          ".meta".toList) ++ '.' :: "json".toList := by
      simp [chunkName, chunkFile]
    rw [isPartial, split, extension_append (by simp [stem]) (by decide)]
    decide

/-- Sweeping removes the listed leftovers and nothing else. -/
theorem lookup_foldl_sweepEntry (names : List FileName) (dir : Dir) (count : Nat)
    (asked : FileName) :
    (names.foldl sweepEntry (dir, count)).1.lookup asked =
      if asked ∈ names ∧ isPartial asked = true then none else dir.lookup asked := by
  induction names generalizing dir count with
  | nil => simp
  | cons name rest inductionHypothesis =>
    rw [List.foldl_cons, sweepEntry]
    split
    · next leftover =>
      rw [inductionHypothesis]
      simp only [lookup_remove, List.mem_cons]
      by_cases same : asked = name
      · subst same
        simp [leftover]
      · simp [same]
    · next kept =>
      rw [inductionHypothesis]
      by_cases same : asked = name
      · subst same
        simp [kept]
      · simp [same]

/-- The recovery removes the temporary files of a directory and no others. -/
theorem lookup_sweepPartials (dir : Dir) (asked : FileName) :
    (sweepPartials dir).1.lookup asked = if isPartial asked = true then none else dir.lookup asked := by
  rw [sweepPartials, lookup_foldl_sweepEntry]
  by_cases leftover : isPartial asked = true
  · by_cases listed : asked ∈ dir.keys
    · simp [listed, leftover]
    · have absent : dir.lookup asked = none :=
        AList.lookup_eq_none.mpr (fun member => listed (AList.mem_keys.mp member))
      simp [listed, absent]
  · simp [leftover]

/-- A sidecar's name yields the end of its chunk's range while that fits 64 bits. -/
theorem sealedEndSlot_sidecar (cfg : WriterConfig) (idx : Nat)
    (fits : idx * cfg.slotsPerChunk + cfg.slotsPerChunk < u64Bound) :
    sealedEndSlot (chunkName cfg idx "meta.json") =
      some (idx * cfg.slotsPerChunk + cfg.slotsPerChunk) := by
  simp only [sealedEndSlot, chunkName, chunkFile_meta, stripSuffix_append, splitOnce_stem,
    parseU64_padded _ fits]

/-- The other files of a chunk are not named like a sidecar. -/
theorem stripSuffix_other (cfg : WriterConfig) (idx : Nat) {ext : String}
    (final : ext ∈ finalExtensions) (other : ext ≠ "meta.json") :
    stripSuffix metaSuffix (chunkName cfg idx ext) = none := by
  simp only [finalExtensions, List.mem_cons, List.not_mem_nil, or_false] at final
  rcases final with rfl | rfl | rfl
  · exact stripSuffix_of_last (by rw [chunkName, chunkFile_last _ _ (show _ = some 't' from rfl)]; decide)
  · exact stripSuffix_of_last (by rw [chunkName, chunkFile_last _ _ (show _ = some 'x' from rfl)]; decide)
  · exact absurd rfl other

/-- The other files of a chunk yield no end of range. -/
theorem sealedEndSlot_other (cfg : WriterConfig) (idx : Nat) {ext : String}
    (final : ext ∈ finalExtensions) (other : ext ≠ "meta.json") :
    sealedEndSlot (chunkName cfg idx ext) = none := by
  rw [sealedEndSlot, stripSuffix_other cfg idx final other]

/-- The greatest end of some sidecars is found one by one. -/
theorem foldl_raiseEnd_some (names : List FileName) (least : Nat) :
    names.foldl raiseEnd (some least) =
      some ((names.filterMap sealedEndSlot).foldl max least) := by
  induction names generalizing least with
  | nil => rfl
  | cons name rest inductionHypothesis =>
    cases ends : sealedEndSlot name with
    | none => simp [raiseEnd, ends, inductionHypothesis]
    | some stop => simp [raiseEnd, ends, inductionHypothesis]

/-- The running maximum is the maximum of the ends in the listed names. -/
theorem foldl_raiseEnd (names : List FileName) :
    names.foldl raiseEnd none = (names.filterMap sealedEndSlot).max? := by
  induction names with
  | nil => rfl
  | cons name rest inductionHypothesis =>
    cases ends : sealedEndSlot name with
    | none => simp [raiseEnd, ends, inductionHypothesis]
    | some stop =>
      rw [List.foldl_cons, List.filterMap_cons_some ends, List.max?_cons',
        ← foldl_raiseEnd_some]
      simp [raiseEnd, ends]

variable {k : Codecs} {stream : Stream} {cfg : WriterConfig} {dir : Dir}
  {contents : Nat → List Arrival}

/-- What a stopped writer leaves: the files of the sealed chunks, and leftovers. -/
structure Remains (k : Codecs) (stream : Stream) (cfg : WriterConfig) (dir : Dir)
    (contents : Nat → List Arrival) : Prop where
  chunks : ∀ idx, contents idx ≠ [] →
    ∃ reason, SealedFiles k stream cfg dir idx (contents idx) reason
  only : ∀ name content, dir.lookup name = some content → isPartial name = false →
    ∃ idx ext, contents idx ≠ [] ∧ ext ∈ finalExtensions ∧ name = chunkName cfg idx ext

/-- Sweeping turns the remains of a writer into an archive. -/
theorem archive_sweep (remains : Remains k stream cfg dir contents) :
    Archive k stream cfg (sweepPartials dir).1 contents where
  chunks idx full := by
    obtain ⟨reason, files⟩ := remains.chunks idx full
    have kept : ∀ ext ∈ finalExtensions, (sweepPartials dir).1.lookup (chunkName cfg idx ext) =
        dir.lookup (chunkName cfg idx ext) := by
      intro ext final
      simp [lookup_sweepPartials, isPartial_final cfg idx final]
    exact ⟨reason, (kept "zst" (by decide)).trans files.compressed,
      (kept "idx" (by decide)).trans files.index,
      (kept "meta.json" (by decide)).trans files.sidecar⟩
  only name content stored := by
    rw [lookup_sweepPartials] at stored
    split at stored
    · cases stored
    · next kept => exact remains.only name content stored (by simpa using kept)

/-- Over an archive the resume slot is the end of its last chunk's range. -/
theorem latestSealedEndSlot_archive (archive : Archive k stream cfg dir contents)
    (fits : ∀ idx, contents idx ≠ [] →
      idx * cfg.slotsPerChunk + cfg.slotsPerChunk < u64Bound) :
    match latestSealedEndSlot dir with
    | none => ∀ idx, contents idx = []
    | some stop => (∃ idx, contents idx ≠ [] ∧
        stop = idx * cfg.slotsPerChunk + cfg.slotsPerChunk) ∧
      ∀ idx, contents idx ≠ [] → idx * cfg.slotsPerChunk + cfg.slotsPerChunk ≤ stop := by
  have ends : ∀ name ∈ dir.keys, ∀ stop, sealedEndSlot name = some stop →
      ∃ idx, contents idx ≠ [] ∧ stop = idx * cfg.slotsPerChunk + cfg.slotsPerChunk := by
    intro name listed stop found
    obtain ⟨content, stored⟩ := (mem_keys_iff dir name).mp listed
    obtain ⟨idx, ext, full, final, rfl⟩ := archive.only name content stored
    by_cases isSidecar : ext = "meta.json"
    · subst isSidecar
      rw [sealedEndSlot_sidecar cfg idx (fits idx full)] at found
      exact ⟨idx, full, (Option.some.inj found).symm⟩
    · rw [sealedEndSlot_other cfg idx final isSidecar] at found
      cases found
  have listed : ∀ idx, contents idx ≠ [] → ∃ name ∈ dir.keys, sealedEndSlot name =
      some (idx * cfg.slotsPerChunk + cfg.slotsPerChunk) := by
    intro idx full
    obtain ⟨reason, files⟩ := archive.chunks idx full
    exact ⟨_, (mem_keys_iff dir _).mpr ⟨_, files.sidecar⟩, sealedEndSlot_sidecar cfg idx
      (fits idx full)⟩
  have latest : latestSealedEndSlot dir = (dir.keys.filterMap sealedEndSlot).max? :=
    foldl_raiseEnd dir.keys
  cases maximum : (dir.keys.filterMap sealedEndSlot).max? with
  | none =>
    rw [latest, maximum]
    intro idx
    by_contra full
    obtain ⟨name, member, found⟩ := listed idx full
    have among := List.mem_filterMap.mpr ⟨name, member, found⟩
    rw [List.max?_eq_none_iff.mp maximum] at among
    cases among
  | some stop =>
    rw [latest, maximum]
    obtain ⟨attained, greatest⟩ := List.max?_eq_some_iff.mp maximum
    obtain ⟨name, member, found⟩ := List.mem_filterMap.mp attained
    refine ⟨ends name member stop found, ?_⟩
    intro idx full
    obtain ⟨other, otherMember, otherFound⟩ := listed idx full
    exact greatest _ (List.mem_filterMap.mpr ⟨other, otherMember, otherFound⟩)

end Recovery

end Sillage
