import Sillage.Common.PlainCodecs
import Sillage.Reader.Presence

/-!
# The catalog that is served

The syncer publishes a fresh scan only behind a cycle that has completed a download or
evicted a chunk. Nothing else that a cycle does to the disk shows in a scan: a download
that fails has not touched the sidecar of its chunk, and without the sidecar the other
two files go unseen.
-/

namespace Sillage

open LittleEndian Directory Names

namespace Sync

/-- An order in which a directory is listed. -/
structure DirOrder where
  list : Dir → List FileName
  lists : ∀ dir name, name ∈ list dir ↔ name ∈ dir.keys

/-- The scan of the directories in some order. -/
def scanIn (k : Codecs) (order : DirOrder) (files : Files) : ChunkCatalog :=
  ChunkCatalog.scan k files (fun stream => order.list (files stream))

/-- Two catalogs hold the same chunks. -/
def SameCatalog (first second : ChunkCatalog) : Prop :=
  ∀ (stream : Stream) (start : Nat), (first.streams stream)[start]? = (second.streams stream)[start]?

/-- What happens around one cycle: the listing of the bucket, unless it fails, what comes
of the downloads, the removals that the file system refuses, and the orders of iteration. -/
structure Cycle where
  remote : Option (List ChunkKey)
  fetch : ChunkKey → String → Fetch
  sweeps : SetOrder
  refuses : Stream → FileName → Bool
  rescans : DirOrder

/-- The disk and the published catalog. -/
structure Served where
  files : Files
  catalog : ChunkCatalog

/-- The catalog at boot, and the disk behind the syncer's first step. -/
def boot (k : Codecs) (order : DirOrder) (files : Files) : Served where
  files := sweepPartials files
  catalog := scanIn k order files

/-- One cycle of the syncer. -/
def cycle (k : Codecs) (retentionHours : Nat) (served : Served) (c : Cycle) : Served :=
  match c.remote with
  | none => served
  | some remote =>
      let toDownload := diffForSync (localChunks served.files) remote retentionHours
      let (files, downloaded) := downloadAll c.fetch toDownload served.files
      let (files, swept) := sweepRetention c.sweeps c.refuses retentionHours files
      { files
        catalog := if 0 < downloaded ∨ 0 < swept then scanIn k c.rescans files
          else served.catalog }

/-- The syncer from boot on. -/
def serve (k : Codecs) (retentionHours : Nat) (order : DirOrder) (files : Files)
    (cycles : List Cycle) : Served :=
  cycles.foldl (cycle k retentionHours) (boot k order files)

/-- The sidecars that are there at boot or that a listing names. -/
def Known (files : Files) (cycles : List Cycle) (stream : Stream) (name : FileName) : Prop :=
  Present (files stream) name ∨ ∃ c ∈ cycles, ∃ remote, c.remote = some remote ∧
    ∃ key ∈ remote, key.stream = stream ∧ name = key.file "meta.json"

/-- Sidecars of one stream with one start slot are the same. -/
def DistinctStarts (known : Stream → FileName → Prop) : Prop :=
  ∀ stream name name' key key', known stream name → known stream name' →
    ChunkKey.ofSidecar stream name = some key → ChunkKey.ofSidecar stream name' = some key' →
    key.startSlot = key'.startSlot → name = name'

/-- Only known sidecars lie in the directories. -/
def OnlyKnown (known : Stream → FileName → Prop) (files : Files) : Prop :=
  ∀ stream name key, Present (files stream) name → ChunkKey.ofSidecar stream name = some key →
    known stream name

variable {k : Codecs} {known : Stream → FileName → Prop} {files files' : Files}

/-! ## What a scan sees -/

/-- A scanned chunk has a sidecar that is there and is read as the chunk. -/
theorem scanEntry_sidecar {stream : Stream} {dir : Dir} {name : FileName} {entry : ChunkEntry}
    (scanned : ChunkCatalog.scanEntry k stream dir name = some entry) :
    Present dir name ∧ ChunkKey.ofSidecar stream name =
      some ⟨stream, entry.startSlot, entry.endSlotExclusive⟩ := by
  obtain ⟨text, start, stop, found⟩ := ChunkCatalog.scanEntry_iff.mp scanned
  obtain ⟨content, stored, -⟩ := found.sidecar
  refine ⟨Option.isSome_of_eq_some stored, ?_⟩
  simp [ChunkKey.ofSidecar, found.stripped, found.parts, found.startRead, found.stopRead]

/-- The directories agree on what a scan reads: the sidecar, and the files beside it if it is
there and its name is that of a chunk. -/
def Alike (stream : Stream) (name : FileName) (dir dir' : Dir) : Prop :=
  ∀ text, stripSuffix metaSuffix name = some text →
    dir.lookup name = dir'.lookup name ∧
      (dir.lookup name ≠ none → ∀ key, ChunkKey.ofSidecar stream name = some key →
        dir.lookup (text ++ ".zst".toList) = dir'.lookup (text ++ ".zst".toList) ∧
          dir.lookup (text ++ ".idx".toList) = dir'.lookup (text ++ ".idx".toList))

/-- Likeness goes both ways. -/
theorem Alike.symm {stream : Stream} {name : FileName} {dir dir' : Dir}
    (alike : Alike stream name dir dir') : Alike stream name dir' dir := by
  intro text stripped
  obtain ⟨own, others⟩ := alike text stripped
  refine ⟨own.symm, fun present key read => ?_⟩
  obtain ⟨payload, index⟩ := others (own ▸ present) key read
  exact ⟨payload.symm, index.symm⟩

/-- Directories that are alike are scanned alike. -/
theorem scanEntry_alike {stream : Stream} {dir dir' : Dir} {name : FileName} {entry : ChunkEntry}
    (alike : Alike stream name dir dir')
    (scanned : ChunkCatalog.scanEntry k stream dir name = some entry) :
    ChunkCatalog.scanEntry k stream dir' name = some entry := by
  obtain ⟨text, start, stop, found⟩ := ChunkCatalog.scanEntry_iff.mp scanned
  obtain ⟨content, stored, decoded⟩ := found.sidecar
  obtain ⟨own, others⟩ := alike text found.stripped
  obtain ⟨payload, index⟩ := others (by simp [stored]) _ (scanEntry_sidecar scanned).2
  rw [← found.zstPath] at payload
  rw [← found.idxPath] at index
  exact ChunkCatalog.scanEntry_iff.mpr ⟨text, start, stop,
    { found with
      payload := payload ▸ found.payload
      index := index ▸ found.index
      sidecar := ⟨content, own ▸ stored, decoded⟩ }⟩

/-- A scan looks at the files of a chunk only. -/
theorem scanEntry_congr {stream : Stream} {dir dir' : Dir} {name : FileName}
    (alike : Alike stream name dir dir') :
    ChunkCatalog.scanEntry k stream dir name = ChunkCatalog.scanEntry k stream dir' name :=
  Option.ext fun _ => ⟨scanEntry_alike alike, scanEntry_alike alike.symm⟩

/-- Directories in which every sidecar is seen alike are scanned alike, in any order. -/
theorem sameCatalog_of_entries (distinct : DistinctStarts known) (only : OnlyKnown known files)
    (entries : ∀ stream name, ChunkCatalog.scanEntry k stream (files stream) name =
      ChunkCatalog.scanEntry k stream (files' stream) name)
    (order order' : DirOrder) : SameCatalog (scanIn k order files) (scanIn k order' files') := by
  have unique : ∀ stream name name' entry entry',
      ChunkCatalog.scanEntry k stream (files stream) name = some entry →
      ChunkCatalog.scanEntry k stream (files stream) name' = some entry' →
      entry.startSlot = entry'.startSlot → entry = entry' := by
    intro stream name name' entry entry' scanned scanned' same
    obtain ⟨present, read⟩ := scanEntry_sidecar scanned
    obtain ⟨present', read'⟩ := scanEntry_sidecar scanned'
    have one := distinct stream name name' _ _ (only _ _ _ present read)
      (only _ _ _ present' read') read read' same
    subst one
    exact Option.some.inj (scanned.symm.trans scanned')
  have listed : ∀ (order : DirOrder) (files : Files) stream name entry,
      ChunkCatalog.scanEntry k stream (files stream) name = some entry →
      name ∈ order.list (files stream) := by
    intro order files stream name entry scanned
    rw [order.lists, mem_keys_iff]
    exact Option.isSome_iff_exists.mp (scanEntry_sidecar scanned).1
  intro stream start
  apply Option.ext
  intro entry
  constructor
  · intro found
    obtain ⟨rfl, name, -, scanned⟩ := ChunkCatalog.scanStream_found _ _ _ _ _ _ found
    refine ChunkCatalog.scanStream_finds (listed order' files' stream name entry
      (entries stream name ▸ scanned)) (entries stream name ▸ scanned) ?_
    intro other _ entry' scanned' same
    rw [← entries] at scanned'
    exact unique stream other name entry' entry scanned' scanned same
  · intro found
    obtain ⟨rfl, name, -, scanned⟩ := ChunkCatalog.scanStream_found _ _ _ _ _ _ found
    rw [← entries] at scanned
    refine ChunkCatalog.scanStream_finds (listed order files stream name entry scanned) scanned ?_
    intro other _ entry' scanned' same
    exact unique stream other name entry' entry scanned' scanned same

/-! ## What a cycle does to the disk -/

/-- The changes of a list of downloads. -/
def downloadsSteps (fetch : ChunkKey → String → Fetch) (keys : List ChunkKey) :
    List (Stream × FileStep) :=
  keys.flatMap (fun key => chunkSteps key (fetch key))

/-- Downloads change the disk one after the other, and each that succeeds is counted. -/
theorem downloadAll_eq (fetch : ChunkKey → String → Fetch) (keys : List ChunkKey) (files : Files) :
    downloadAll fetch keys files = (performOn files (downloadsSteps fetch keys),
      (keys.filter (fun key => (downloadSteps key (fetch key) trio).2)).length) := by
  have general : ∀ (keys : List ChunkKey) (files : Files) (count : Nat),
      keys.foldl (fun state key =>
          let result := downloadChunk key (fetch key) state.1
          (result.1, if result.2 then state.2 + 1 else state.2)) (files, count) =
        (performOn files (downloadsSteps fetch keys),
          count + (keys.filter (fun key => (downloadSteps key (fetch key) trio).2)).length) := by
    intro keys
    induction keys with
    | nil => exact fun files count => rfl
    | cons key rest inductionHypothesis =>
      intro files count
      rw [List.foldl_cons, inductionHypothesis]
      cases done : (downloadSteps key (fetch key) trio).2 with
      | false => simp [downloadChunk, done, downloadsSteps, performOn_append]
      | true => simp [downloadChunk, done, downloadsSteps, performOn_append, Nat.add_assoc,
          Nat.add_comm]
  rw [downloadAll, general, Nat.zero_add]

/-- A file that does not land is only touched under its temporary name. -/
theorem fetchSteps_unlanded {key : ChunkKey} {ext : String} {fetch : Fetch}
    (unlanded : ∀ content, fetch.ending ≠ .lands content) {step : FileStep}
    (member : step ∈ fetchSteps key ext fetch) :
    ∀ name ∈ step.touches, name = key.file (ext ++ ".partial") := by
  rcases mem_fetchSteps member with (rfl | ⟨content, rfl⟩) | ⟨⟨content, lands⟩, -⟩
  · simp [FileStep.touches]
  · simp [FileStep.touches]
  · exact absurd lands (unlanded content)

/-- The names that a download touches when it fails on one of its files: temporary names,
and final names of the files before the last. -/
theorem downloadSteps_failed {key : ChunkKey} {fetch : String → Fetch} {exts : List String}
    (failed : (downloadSteps key fetch exts).2 = false) {step : FileStep}
    (member : step ∈ (downloadSteps key fetch exts).1) :
    ∀ name ∈ step.touches, (∃ ext ∈ exts, name = key.file (ext ++ ".partial")) ∨
      ∃ ext ∈ exts.dropLast, name = key.file ext := by
  induction exts with
  | nil => cases failed
  | cons ext rest inductionHypothesis =>
    rw [downloadSteps] at failed member
    split at failed
    · next content ends =>
      simp only [ends] at member
      have more : rest ≠ [] := by
        rintro rfl
        cases failed
      rcases List.mem_append.mp member with here | later
      · intro name touched
        rcases (fetchSteps_touches here).1 name touched with temporary | final
        · exact .inl ⟨ext, List.mem_cons_self, temporary⟩
        · refine .inr ⟨ext, ?_, final⟩
          rw [List.dropLast_cons_of_ne_nil more]
          exact List.mem_cons_self
      · intro name touched
        rcases inductionHypothesis failed later name touched with ⟨ext', among, same⟩ |
          ⟨ext', among, same⟩
        · exact .inl ⟨ext', List.mem_cons_of_mem _ among, same⟩
        · refine .inr ⟨ext', ?_, same⟩
          rw [List.dropLast_cons_of_ne_nil more]
          exact List.mem_cons_of_mem _ among
    · next unlanded =>
      split at member
      · next content ends => exact absurd ends (unlanded content)
      · intro name touched
        exact .inl ⟨ext, List.mem_cons_self, fetchSteps_unlanded unlanded member name touched⟩

/-- A name of a chunk that is no sidecar's is not read as one. -/
theorem stripSuffix_file (key : ChunkKey) {ext : String}
    (other : ext ∈ ["zst.partial", "idx.partial", "meta.json.partial", "zst", "idx"]) :
    stripSuffix metaSuffix (key.file ext) = none := by
  have unread : ∀ last, ext.toList.getLast? = some last → last ≠ 'n' →
      stripSuffix metaSuffix (key.file ext) = none := by
    intro last ends distinct
    apply stripSuffix_of_last
    rw [ChunkKey.file, chunkFile_last _ _ ends]
    exact fun same => distinct (Option.some.inj same)
  simp only [List.mem_cons, List.not_mem_nil, or_false] at other
  rcases other with rfl | rfl | rfl | rfl | rfl
  · exact unread 'l' rfl (by decide)
  · exact unread 'l' rfl (by decide)
  · exact unread 'l' rfl (by decide)
  · exact unread 't' rfl (by decide)
  · exact unread 'x' rfl (by decide)

/-- The temporary names of a chunk's files are not those of a sidecar. -/
theorem temporary_mem {ext : String} (final : ext ∈ trio) :
    ext ++ ".partial" ∈ ["zst.partial", "idx.partial", "meta.json.partial", "zst", "idx"] := by
  simp only [trio, List.mem_cons, List.not_mem_nil, or_false] at final
  rcases final with rfl | rfl | rfl <;> decide

/-- A payload or an index is a file of a chunk only behind that chunk's stem. -/
theorem stem_of_file {key : ChunkKey} {text : FileName} {ext ext' : String}
    (asked : ext = "zst" ∨ ext = "idx") (same : text ++ '.' :: ext.toList = key.file ext')
    (other : ext' ∈ ["zst.partial", "idx.partial", "meta.json.partial", "zst", "idx"]) :
    text = stem key.startSlot key.endSlot := by
  have lasts : ∀ last last', ext.toList.getLast? = some last → ext'.toList.getLast? = some last' →
      last = last' := by
    intro last last' ends ends'
    have both := congrArg List.getLast? same
    rw [ChunkKey.file, chunkFile_last _ _ ends', List.getLast?_append, List.getLast?_cons, ends]
      at both
    exact Option.some.inj both
  -- the last letters tell the extensions apart
  have sameExt : ext' = ext := by
    simp only [List.mem_cons, List.not_mem_nil, or_false] at other
    rcases asked with rfl | rfl <;> rcases other with rfl | rfl | rfl | rfl | rfl <;>
      first | rfl | exact absurd (lasts _ _ rfl rfl) (by decide)
  rw [sameExt] at same
  exact List.append_cancel_right same

/-- The names that failing downloads touch in a directory. -/
theorem failed_touches {fetch : ChunkKey → String → Fetch} {keys : List ChunkKey}
    (failed : ∀ key ∈ keys, (downloadSteps key (fetch key) trio).2 = false) {stream : Stream}
    {step : Stream × FileStep} (member : step ∈ downloadsSteps fetch keys)
    (here : step.1 = stream) {name : FileName} (touched : name ∈ step.2.touches) :
    ∃ key ∈ keys, key.stream = stream ∧ ∃ ext, name = key.file ext ∧
      ext ∈ ["zst.partial", "idx.partial", "meta.json.partial", "zst", "idx"] := by
  obtain ⟨key, among, own⟩ := List.mem_flatMap.mp member
  obtain ⟨change, isOwn, rfl⟩ := List.mem_map.mp own
  refine ⟨key, among, here, ?_⟩
  rcases downloadSteps_failed (failed key among) isOwn name touched with ⟨ext, final, same⟩ |
    ⟨ext, final, same⟩
  · exact ⟨_, same, temporary_mem final⟩
  · refine ⟨ext, same, ?_⟩
    simp only [trio, List.dropLast_cons_cons, List.dropLast_singleton, List.mem_cons,
      List.not_mem_nil, or_false] at final
    rcases final with rfl | rfl <;> decide

/-- A name that no step touches keeps its content. -/
theorem lookup_performOn {steps : List (Stream × FileStep)} {stream : Stream} {name : FileName}
    (untouched : ∀ step ∈ steps, step.1 = stream → name ∉ step.2.touches) :
    (performOn files steps stream).lookup name = (files stream).lookup name := by
  rw [performOn_at]
  apply perform_untouched
  intro change member
  obtain ⟨step, among, rfl⟩ := List.mem_map.mp member
  obtain ⟨within, here⟩ := List.mem_filter.mp among
  exact untouched step within (of_decide_eq_true here)

/-- A sidecar that is there makes its chunk a local one. -/
theorem mem_localChunks {key : ChunkKey} {name : FileName}
    (present : Present (files key.stream) name)
    (read : ChunkKey.ofSidecar key.stream name = some key) : key ∈ localChunks files := by
  simp only [localChunks, List.mem_toFinset, List.mem_flatMap, List.mem_filterMap]
  exact ⟨key.stream, Stream.mem_all _, name,
    (mem_keys_iff _ _).mpr (Option.isSome_iff_exists.mp present), read⟩

/-- Failing downloads of chunks that are not held do not show in a scan. -/
theorem scanEntry_failed {fetch : ChunkKey → String → Fetch} {keys : List ChunkKey}
    (missing : ∀ key ∈ keys, key ∉ localChunks files)
    (failed : ∀ key ∈ keys, (downloadSteps key (fetch key) trio).2 = false) (stream : Stream)
    (name : FileName) : ChunkCatalog.scanEntry k stream (files stream) name =
      ChunkCatalog.scanEntry k stream
        (performOn files (downloadsSteps fetch keys) stream) name := by
  apply scanEntry_congr
  intro text stripped
  have sidecar : (files stream).lookup name =
      (performOn files (downloadsSteps fetch keys) stream).lookup name := by
    symm
    apply lookup_performOn
    intro step member here touched
    obtain ⟨key, -, -, ext, rfl, other⟩ := failed_touches failed member here touched
    rw [stripSuffix_file key other] at stripped
    cases stripped
  refine ⟨sidecar, fun present key read => ?_⟩
  have others : ∀ ext : String, ext = "zst" ∨ ext = "idx" →
      (files stream).lookup (text ++ '.' :: ext.toList) =
        (performOn files (downloadsSteps fetch keys) stream).lookup (text ++ '.' :: ext.toList) := by
    intro ext asked
    symm
    apply lookup_performOn
    intro step member here touched
    obtain ⟨other, among, rfl, ext', same, known⟩ := failed_touches failed member here touched
    have named : name = other.file "meta.json" := by
      rw [stripSuffix_some stripped, stem_of_file asked same known]
      rfl
    subst named
    have isOther : key = other := ChunkKey.ofSidecar_sidecar read
    subst isOther
    exact missing key among (mem_localChunks (Option.ne_none_iff_isSome.mp present) read)
  exact ⟨others "zst" (.inl rfl), others "idx" (.inr rfl)⟩

/-- Removing the temporary files does not show in a scan. -/
theorem scanEntry_sweepPartials (files : Files) (stream : Stream) (name : FileName) :
    ChunkCatalog.scanEntry k stream (files stream) name =
      ChunkCatalog.scanEntry k stream (sweepPartials files stream) name := by
  have kept : ∀ name : FileName, ¬ partialSuffix <:+ name →
      (files stream).lookup name = (sweepPartials files stream).lookup name := by
    intro name final
    rw [lookup_sweepPartials, if_neg final]
  apply scanEntry_congr
  intro text stripped
  refine ⟨kept name ?_, fun _ _ _ => ⟨kept _ ?_, kept _ ?_⟩⟩
  · rw [stripSuffix_some stripped]
    exact not_partialSuffix_append text (show _ = some 'n' by decide) (by decide)
  · exact not_partialSuffix_append text (show _ = some 't' by decide) (by decide)
  · exact not_partialSuffix_append text (show _ = some 'x' by decide) (by decide)

/-- What some changes leave was there before or is touched by one of them. -/
theorem present_performOn {steps : List (Stream × FileStep)} {stream : Stream} {name : FileName}
    (present : Present (performOn files steps stream) name) :
    Present (files stream) name ∨ ∃ step ∈ steps, step.1 = stream ∧ name ∈ step.2.touches := by
  rw [performOn_at] at present
  rcases present_or_touched present with before | ⟨change, member, touched⟩
  · exact .inl before
  · obtain ⟨step, among, rfl⟩ := List.mem_map.mp member
    obtain ⟨within, here⟩ := List.mem_filter.mp among
    exact .inr ⟨step, within, of_decide_eq_true here, touched⟩

/-- Downloads of known chunks leave known sidecars. -/
theorem onlyKnown_downloads (only : OnlyKnown known files) {fetch : ChunkKey → String → Fetch}
    {keys : List ChunkKey} (listed : ∀ key ∈ keys, known key.stream (key.file "meta.json")) :
    OnlyKnown known (performOn files (downloadsSteps fetch keys)) := by
  intro stream name key present read
  rcases present_performOn present with before | ⟨step, member, rfl, touched⟩
  · exact only stream name key before read
  · obtain ⟨own, among, isOwn⟩ := List.mem_flatMap.mp member
    obtain ⟨change, isChange, rfl⟩ := List.mem_map.mp isOwn
    obtain ⟨ext, final, named⟩ := downloadSteps_touches isChange name touched
    have unread : ∀ ext, name = own.file ext → ext ∉
        ["zst.partial", "idx.partial", "meta.json.partial", "zst", "idx"] := by
      rintro ext rfl other
      simp [ChunkKey.ofSidecar, stripSuffix_file own other] at read
    rcases named with temporary | named
    · exact absurd (temporary_mem final) (unread _ temporary)
    · simp only [trio, List.mem_cons, List.not_mem_nil, or_false] at final
      rcases final with rfl | rfl | rfl
      · exact absurd (by decide) (unread _ named)
      · exact absurd (by decide) (unread _ named)
      · exact named ▸ listed own among

/-- A sweep brings no sidecar. -/
theorem onlyKnown_removals (only : OnlyKnown known files) (refuses : Stream → FileName → Bool)
    (keys : List ChunkKey) :
    OnlyKnown known (performOn files (keys.flatMap (removals refuses))) := by
  intro stream name key present read
  rw [Present, lookup_flatMap_removals] at present
  split at present
  · cases present
  · exact only stream name key present read

/-! ## Cycles -/

/-- The published catalog is what a scan of the disk would find. -/
structure Tracking (k : Codecs) (known : Stream → FileName → Prop) (served : Served) : Prop where
  only : OnlyKnown known served.files
  same : ∀ order, SameCatalog served.catalog (scanIn k order served.files)

/-- A cycle keeps the published catalog in step with the disk. -/
theorem tracking_cycle (distinct : DistinctStarts known) {served : Served}
    (tracking : Tracking k known served) (retentionHours : Nat) (c : Cycle)
    (listed : ∀ remote, c.remote = some remote → ∀ key ∈ remote,
      known key.stream (key.file "meta.json")) :
    Tracking k known (cycle k retentionHours served c) := by
  rw [cycle]
  cases answer : c.remote with
  | none => exact tracking
  | some remote =>
    simp only [downloadAll_eq]
    generalize selection : diffForSync (localChunks served.files) remote retentionHours = keys
    have fromListing : ∀ key ∈ keys, key ∈ remote ∧ key ∉ localChunks served.files := by
      intro key member
      rw [← selection, mem_diffForSync] at member
      exact ⟨member.1, member.2.2⟩
    have downloaded : OnlyKnown known (performOn served.files (downloadsSteps c.fetch keys)) :=
      onlyKnown_downloads tracking.only
        (fun key member => listed remote answer key (fromListing key member).1)
    have swept : OnlyKnown known (sweepRetention c.sweeps c.refuses retentionHours
        (performOn served.files (downloadsSteps c.fetch keys))).1 :=
      onlyKnown_removals downloaded _ _
    refine ⟨swept, fun order => ?_⟩
    dsimp only
    split
    · exact sameCatalog_of_entries distinct swept (fun _ _ => rfl) _ _
    · next idle =>
      obtain ⟨noDownload, noSweep⟩ := not_or.mp idle
      have failed : ∀ key ∈ keys, (downloadSteps key (c.fetch key) trio).2 = false := by
        intro key member
        by_contra succeeded
        exact noDownload (List.length_pos_of_mem
          (List.mem_filter.mpr ⟨member, Bool.eq_true_of_not_eq_false succeeded⟩))
      have untouched : (sweepRetention c.sweeps c.refuses retentionHours
          (performOn served.files (downloadsSteps c.fetch keys))).1 =
            performOn served.files (downloadsSteps c.fetch keys) := by
        have nobody := List.eq_nil_of_length_eq_zero (Nat.eq_zero_of_not_pos noSweep)
        rw [sweepRetention, sweepSteps, nobody]
        rfl
      rw [untouched]
      intro stream start
      exact (tracking.same order stream start).trans (sameCatalog_of_entries distinct tracking.only
        (scanEntry_failed (fun key member => (fromListing key member).2) failed) order order
          stream start)

/-- The catalog at boot is what a scan of the disk would find. -/
theorem tracking_boot {files : Files} (distinct : DistinctStarts known)
    (only : OnlyKnown known files) (order : DirOrder) : Tracking k known (boot k order files) where
  only := by
    intro stream name key present read
    rw [boot, Present, lookup_sweepPartials] at present
    split at present
    · cases present
    · exact only stream name key present read
  same order' := sameCatalog_of_entries distinct only (scanEntry_sweepPartials files) order order'

/-- A sweep that finds nothing to evict changes nothing. -/
theorem sweepRetention_idle {retentionHours : Nat} {files : Files} (order : SetOrder)
    (refuses : Stream → FileName → Bool)
    (nothing : evicted (localChunks files) retentionHours = ∅) :
    sweepRetention order refuses retentionHours files = (files, 0) := by
  have nobody : victims order retentionHours files = [] := by
    simp [victims, nothing]
  rw [sweepRetention, sweepSteps, nobody]
  rfl

/-- The disk and the catalog behind a cycle whose sweep finds nothing to evict. -/
def fetched (k : Codecs) (retentionHours : Nat) (rescans : DirOrder)
    (fetch : ChunkKey → String → Fetch) (remote : List ChunkKey) (served : Served) : Served :=
  let (files, downloaded) := downloadAll fetch
    (diffForSync (localChunks served.files) remote retentionHours) served.files
  ⟨files, if 0 < downloaded then scanIn k rescans files else served.catalog⟩

/-- A cycle whose listing fails changes nothing. -/
theorem cycle_unlisted (k : Codecs) (retentionHours : Nat) (served : Served)
    (fetch : ChunkKey → String → Fetch) (sweeps : SetOrder) (refuses : Stream → FileName → Bool)
    (rescans : DirOrder) :
    cycle k retentionHours served ⟨none, fetch, sweeps, refuses, rescans⟩ = served := rfl

/-- A cycle whose sweep finds nothing to evict. -/
theorem cycle_idle {k : Codecs} {retentionHours : Nat} {rescans : DirOrder}
    {fetch : ChunkKey → String → Fetch} {remote : List ChunkKey} {served : Served}
    (sweeps : SetOrder) (refuses : Stream → FileName → Bool)
    (nothing : evicted (localChunks (fetched k retentionHours rescans fetch remote served).files)
      retentionHours = ∅) :
    cycle k retentionHours served ⟨some remote, fetch, sweeps, refuses, rescans⟩ =
      fetched k retentionHours rescans fetch remote served := by
  rw [fetched] at nothing ⊢
  simp only [cycle, sweepRetention_idle sweeps refuses nothing, Nat.lt_irrefl, or_false]

/-- Behind every cycle, and at boot, the published catalog holds the chunks that a scan of
the disk finds, in whatever order it lists the directories. -/
theorem published_scan (k : Codecs) (retentionHours : Nat) (order : DirOrder) (files : Files)
    (cycles : List Cycle) (distinct : DistinctStarts (Known files cycles)) :
    (∀ other, SameCatalog (boot k order files).catalog (scanIn k other files)) ∧
      ∀ before, before <+: cycles → ∀ other,
        SameCatalog (serve k retentionHours order files before).catalog
          (scanIn k other (serve k retentionHours order files before).files) := by
  have only : OnlyKnown (Known files cycles) files := fun _ _ _ present _ => .inl present
  refine ⟨fun other => sameCatalog_of_entries distinct only (fun _ _ => rfl) order other, ?_⟩
  have tracks : ∀ before, before <+: cycles →
      Tracking k (Known files cycles) (serve k retentionHours order files before) := by
    intro before
    induction before using List.reverseRecOn with
    | nil => exact fun _ => tracking_boot distinct only order
    | append_singleton before c inductionHypothesis =>
      rintro ⟨later, split⟩
      have earlier := inductionHypothesis ⟨c :: later, by simpa using split⟩
      rw [serve, List.foldl_append, ← serve]
      refine tracking_cycle distinct earlier retentionHours c ?_
      intro remote answer key member
      exact .inr ⟨c, by simp [← split], remote, answer, key, member, rfl, rfl⟩
  exact fun before front other => (tracks before front).same other

/-- A download that fails and is retried behind a failed listing: the catalog lacks the chunk
until the retry has brought all of its files. -/
theorem published_scan_retry :
    let key : ChunkKey := ⟨.tx, 0, 1000⟩
    let order : DirOrder := ⟨AList.keys, fun _ _ => Iff.rfl⟩
    let content : String → Bytes := fun ext =>
      if ext = "meta.json" then PlainCodecs.plain.jsonEncode
        ⟨Chunk.schemaVersion, "tx", 0, 1000, none, none, 0, 0, 0, none, none, "range-complete", []⟩
      else [1]
    let fails : ChunkKey → String → Fetch := fun _ ext =>
      if ext = "idx" then ⟨[[], [1]], .fetchFails⟩ else ⟨[], .lands (content ext)⟩
    let lands : ChunkKey → String → Fetch := fun _ ext => ⟨[], .lands (content ext)⟩
    let removes : Stream → FileName → Bool := fun _ _ => false
    ∃ sweeps : SetOrder,
      let cycles : List Cycle := [⟨some [key], fails, sweeps, removes, order⟩,
        ⟨none, lands, sweeps, removes, order⟩, ⟨some [key], lands, sweeps, removes, order⟩]
      let after := serve PlainCodecs.plain 1 order (fun _ => ∅)
      ((∀ other, SameCatalog (boot PlainCodecs.plain order (fun _ => ∅)).catalog
        (scanIn PlainCodecs.plain other (fun _ => ∅))) ∧
      ∀ before, before <+: cycles → ∀ other,
        SameCatalog (after before).catalog (scanIn PlainCodecs.plain other (after before).files)) ∧
      ((after (cycles.take 2)).catalog.streams .tx)[0]? = none ∧
      (∀ ext ∈ trio, ((after cycles).files .tx).lookup (key.file ext) = some (content ext)) ∧
      ((after cycles).catalog.streams .tx)[0]?.map ChunkEntry.endSlotExclusive = some 1000 := by
  intro key order content fails lands removes
  obtain ⟨sweeps⟩ := exists_order
  have one : ∀ stream name, Known (fun _ => ∅) [⟨some [key], fails, sweeps, removes, order⟩,
      ⟨none, lands, sweeps, removes, order⟩, ⟨some [key], lands, sweeps, removes, order⟩] stream name →
        name = key.file "meta.json" := by
    rintro stream name (present | ⟨c, member, remote, answer, own, among, -, rfl⟩)
    · exact absurd present (by simp [Present])
    · simp only [List.mem_cons, List.not_mem_nil, or_false] at member
      rcases member with rfl | rfl | rfl <;> cases answer <;>
        rw [List.mem_singleton.mp among]
  let failed := fetched PlainCodecs.plain 1 order fails [key]
    (boot PlainCodecs.plain order (fun _ => ∅))
  let landed := fetched PlainCodecs.plain 1 order lands [key] failed
  have first : cycle PlainCodecs.plain 1 (boot PlainCodecs.plain order (fun _ => ∅))
      ⟨some [key], fails, sweeps, removes, order⟩ = failed := cycle_idle sweeps removes (by decide +kernel)
  have third : cycle PlainCodecs.plain 1 failed ⟨some [key], lands, sweeps, removes, order⟩ = landed :=
    cycle_idle sweeps removes (by decide +kernel)
  refine ⟨sweeps, published_scan PlainCodecs.plain 1 order (fun _ => ∅) _ ?_, ?_⟩
  · intro stream name name' _ _ isKnown isKnown' _ _ _
    rw [one stream name isKnown, one stream name' isKnown']
  · simp only [serve, List.take_succ_cons, List.take_zero, List.foldl_cons, List.foldl_nil, first,
      cycle_unlisted, third]
    have missing : (failed.catalog.streams .tx)[0]?.isNone = true := by decide +kernel
    refine ⟨Option.isNone_iff_eq_none.mp missing, ?_, ?_⟩
    · decide +kernel
    · decide +kernel
/-! ## The chunks that a cycle leaves -/

/-- In tidy directories the local chunks are those whose sidecar is there. -/
theorem Tidy.mem_localChunks_iff (tidy : Tidy files) {key : ChunkKey} (fits : key.Fits) :
    key ∈ localChunks files ↔ Present (files key.stream) (key.file "meta.json") := by
  refine ⟨tidy.sidecar, fun present => mem_localChunks present ?_⟩
  simp only [ChunkKey.ofSidecar, ChunkKey.file, chunkFile_meta, stripSuffix_append,
    splitOnce_stem, parseU64_padded _ fits.1, parseU64_padded _ fits.2, Option.bind_eq_bind,
    Option.bind_some]

/-- Local chunks fit. -/
theorem fits_of_local {key : ChunkKey} (isLocal : key ∈ localChunks files) :
    key.Fits := by
  simp only [localChunks, List.mem_toFinset, List.mem_flatMap, List.mem_filterMap] at isLocal
  obtain ⟨stream, -, name, -, read⟩ := isLocal
  simp only [ChunkKey.ofSidecar, Option.bind_eq_bind, Option.bind_eq_some_iff] at read
  obtain ⟨text, -, parts, -, start, startRead, stop, stopRead, same⟩ := read
  obtain rfl := Option.some.inj same
  exact ⟨Decimal.parseBelow_lt startRead, Decimal.parseBelow_lt stopRead⟩

/-- A sweep whose removals succeed leaves the chunks that it does not evict. -/
theorem localChunks_sweep (tidy : Tidy files) (order : SetOrder)
    {refuses : Stream → FileName → Bool} (removes : ∀ stream name, refuses stream name = false)
    (retentionHours : Nat) :
    localChunks (sweepRetention order refuses retentionHours files).1 =
      localChunks files \ evicted (localChunks files) retentionHours := by
  have swept : Tidy (sweepRetention order refuses retentionHours files).1 := by
    intro stream name present
    rw [sweepRetention, sweepSteps, Present, lookup_flatMap_removals] at present
    split at present
    · cases present
    · exact tidy stream name present
  have victim : ∀ key, key ∈ victims order retentionHours files ↔
      key ∈ evicted (localChunks files) retentionHours := by
    intro key
    rw [victims, List.mem_filter, order.lists]
    simp only [decide_eq_true_eq, and_iff_right_iff_imp]
    exact fun gone => (mem_evicted.mp gone).1
  apply Finset.ext
  intro key
  rw [Finset.mem_sdiff, ← victim]
  by_cases fits : key.Fits
  · rw [swept.mem_localChunks_iff fits, tidy.mem_localChunks_iff fits]
    by_cases removed : key ∈ victims order retentionHours files
    · simp [sweepRetention, sweepSteps, Present, removed,
        lookup_removed files removed (show "meta.json" ∈ trio by decide) (removes _ _)]
    · simp [sweepRetention, sweepSteps, Present, lookup_removed_other files removed, removed]
  · constructor
    · exact fun isLocal => absurd (fits_of_local isLocal) fits
    · exact fun both => absurd (fits_of_local both.1) fits

/-- A download that succeeds leaves the last of its files. -/
theorem present_downloaded {dir : Dir} {key : ChunkKey} {fetch : String → Fetch}
    {exts : List String} (some : exts ≠ []) (succeeds : (downloadSteps key fetch exts).2 = true) :
    Present (perform dir (downloadSteps key fetch exts).1) (key.file (exts.getLast some)) := by
  induction exts generalizing dir with
  | nil => exact absurd rfl some
  | cons ext rest inductionHypothesis =>
    cases ends : (fetch ext).ending with
    | fetchFails => simp [downloadSteps, ends] at succeeds
    | renameFails content => simp [downloadSteps, ends] at succeeds
    | lands content =>
      simp only [downloadSteps, ends, perform, List.foldl_append] at succeeds ⊢
      by_cases last : rest = []
      · subst last
        have landed := @lookup_landed dir key ext (fetch ext) content ends _ (Nat.le_refl _)
        rw [performCut_all _ _ _ (Nat.le_refl _)] at landed
        rw [Present, List.getLast_singleton]
        simp only [downloadSteps, List.foldl_nil]
        rw [← perform, landed]
        rfl
      · rw [List.getLast_cons last]
        exact inductionHypothesis last succeeds

/-- Downloads keep directories tidy. -/
theorem tidy_downloads (tidy : Tidy files) (fetch : ChunkKey → String → Fetch)
    (keys : List ChunkKey) : Tidy (performOn files (downloadsSteps fetch keys)) := by
  intro stream name present
  rcases present_performOn present with before | ⟨step, member, rfl, touched⟩
  · exact tidy stream name before
  · obtain ⟨own, -, isOwn⟩ := List.mem_flatMap.mp member
    obtain ⟨change, isChange, rfl⟩ := List.mem_map.mp isOwn
    exact ⟨own, rfl, downloadSteps_touches isChange name touched⟩

/-- Downloads add the chunks that succeed to the local ones. -/
theorem localChunks_downloads (tidy : Tidy files) (fetch : ChunkKey → String → Fetch)
    {keys : List ChunkKey} (fit : ∀ key ∈ keys, key.Fits) :
    localChunks (performOn files (downloadsSteps fetch keys)) = localChunks files ∪
      (keys.filter (fun key => (downloadSteps key (fetch key) trio).2)).toFinset := by
  have downloaded := tidy_downloads tidy fetch keys
  have stays : ∀ (files : Files) (keys : List ChunkKey) (key : ChunkKey),
      Present (files key.stream) (key.file "meta.json") →
      Present (performOn files (downloadsSteps fetch keys) key.stream) (key.file "meta.json") := by
    intro files keys key present
    rw [performOn_at]
    apply present_perform present
    intro change member
    obtain ⟨step, among, rfl⟩ := List.mem_map.mp member
    obtain ⟨own, -, isOwn⟩ := List.mem_flatMap.mp (List.mem_filter.mp among).1
    obtain ⟨change, isChange, rfl⟩ := List.mem_map.mp isOwn
    exact keeps_final isChange (not_partialSuffix key (by decide))
  apply Finset.ext
  intro key
  rw [Finset.mem_union, List.mem_toFinset, List.mem_filter]
  constructor
  · intro isLocal
    rw [tidy.mem_localChunks_iff (fits_of_local isLocal)]
    rcases present_performOn (downloaded.sidecar isLocal) with before |
      ⟨step, member, sameStream, touched⟩
    · exact .inl before
    · obtain ⟨own, among, isOwn⟩ := List.mem_flatMap.mp member
      obtain ⟨change, isChange, rfl⟩ := List.mem_map.mp isOwn
      have isKey : ∀ ext, key.file "meta.json" = own.file ext → own = key :=
        fun ext same => (ChunkKey.file_injective sameStream.symm same).symm
      refine .inr ?_
      by_contra fails
      have failed : (downloadSteps own (fetch own) trio).2 = false := by
        by_contra succeeds
        obtain ⟨ext, -, same | same⟩ := downloadSteps_touches isChange _ touched <;>
          exact fails ((isKey _ same) ▸ ⟨among, Bool.eq_true_of_not_eq_false succeeds⟩)
      rcases downloadSteps_failed failed isChange _ touched with ⟨ext, final, same⟩ |
        ⟨ext, final, same⟩
      · obtain rfl := isKey _ same
        have sameExt := own.file_ext.mp same
        simp only [trio, List.mem_cons, List.not_mem_nil, or_false] at final
        rcases final with rfl | rfl | rfl <;> exact absurd sameExt (by decide)
      · obtain rfl := isKey _ same
        have sameExt := own.file_ext.mp same
        subst sameExt
        revert final
        decide
  · rintro (before | ⟨member, succeeds⟩)
    · rw [downloaded.mem_localChunks_iff (fits_of_local before)]
      exact stays files keys key (tidy.sidecar before)
    · rw [downloaded.mem_localChunks_iff (fit key member)]
      obtain ⟨earlier, later, rfl⟩ := List.append_of_mem member
      rw [downloadsSteps, List.flatMap_append, List.flatMap_cons, performOn_append,
        performOn_append]
      apply stays _ later key
      rw [chunkSteps, performOn_own]
      exact @present_downloaded _ key (fetch key) trio (by decide) succeeds

/-- A cycle whose removals succeed changes the held chunks as their windows say. -/
theorem localChunks_cycle {served : Served} (tidy : Tidy served.files) (retentionHours : Nat)
    {c : Cycle} {remote : List ChunkKey} (answer : c.remote = some remote)
    (removes : ∀ stream name, c.refuses stream name = false) (fit : ∀ key ∈ remote, key.Fits) :
    localChunks (cycle k retentionHours served c).files =
      heldAfter (localChunks served.files)
        ((diffForSync (localChunks served.files) remote retentionHours).filter
          (fun key => (downloadSteps key (c.fetch key) trio).2)).toFinset retentionHours := by
  have selected : ∀ key ∈ diffForSync (localChunks served.files) remote retentionHours, key.Fits :=
    fun key member => fit key (mem_diffForSync.mp member).1
  rw [cycle, answer]
  simp only [downloadAll_eq]
  rw [localChunks_sweep (tidy_downloads tidy _ _) _ removes,
    localChunks_downloads tidy c.fetch selected, heldAfter]

end Sync

end Sillage
