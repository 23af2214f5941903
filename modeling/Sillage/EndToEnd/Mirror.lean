import Sillage.EndToEnd.Fidelity
import Sillage.EndToEnd.Served
import Sillage.Writer.Provenance

/-!
# A writer and its mirror

A writer archives three streams in a bucket, and a syncer keeps a cache of the bucket. The
two take their steps in any order, and either may crash and start again behind any of
them. The writer opens no archived chunk again and seals no empty one: where it does, the
bucket holds what was sealed last, and nothing of this holds of what was copied before.
What the cache holds at any moment is what the writer recorded: each file is the one
that the only seal of its chunk wrote, and a replay over the cache sends the recorded
messages of the chunks that are complete in it.
-/

namespace Sillage

open LittleEndian Directory Names

/-- A writer with its bucket, and a syncer. -/
abbrev Mirror := Uploader.Writer × Syncer

namespace Mirror

open Sync Syncer Uploader

/-- A step of the writer that opens no archived chunk again and seals no empty one, or a step of
the syncer beside the bucket of the moment. -/
def act (k : Codecs) (cfg : WriterConfig) (up : UploaderConfig) (sync : SyncerConfig) :
    Behaviour Mirror (Uploader.Action ⊕ Syncer.Action) (Note ⊕ Entry) :=
  Behaviour.beside (spare k cfg up) (fun w => Syncer.act k sync w.bucket)

/-- Both before their first start. -/
def start (cfg : WriterConfig) : Mirror := (Writer.start cfg, Syncer.start)

/-- What identifies the chunk of an index. -/
def chunkOf (cfg : WriterConfig) (stream : Stream) (idx : Nat) : ChunkKey :=
  ⟨stream, idx * cfg.slotsPerChunk, idx * cfg.slotsPerChunk + cfg.slotsPerChunk⟩

variable {k : Codecs} {cfg : WriterConfig} {up : UploaderConfig} {sync : SyncerConfig}
  {notes : List Note} {entries : List Entry} {w w' : Writer} {s : Syncer}

/-! ## The bucket of a writer -/

/-- The three files of a chunk are those with a final extension. -/
theorem trio_iff {ext : String} : ext ∈ trio ↔ ext ∈ finalExtensions := by
  simp [trio, finalExtensions]

/-- Every object in the bucket is one of a chunk of some lane. -/
theorem mem_bucket (kept : Uploader.Kept k cfg notes w) {name : List Char} {object : Bytes}
    (stored : w.bucket.lookup name = some object) :
    ∃ stream idx, ∃ ext ∈ trio, name = (chunkOf cfg stream idx).object ext := by
  obtain ⟨stream, idx, ext, final, same⟩ := kept.keys name object stored
  exact ⟨stream, idx, ext, trio_iff.mpr final, same⟩

/-- A bucket that is kept has a sidecar with its siblings only. -/
theorem regular_of_kept (kept : Uploader.Kept k cfg notes w) : Regular w.bucket where
  keys := by
    intro name object stored
    obtain ⟨stream, idx, named⟩ := mem_bucket kept stored
    exact ⟨chunkOf cfg stream idx, named⟩
  ordered := fun key sidecar ext final =>
    kept.sound.ordered key.stream key.startSlot key.endSlot sidecar ext (trio_iff.mp final)

/-- What is archived stays. -/
theorem grows_of_spare (positive : 0 < cfg.slotsPerChunk) (kept : Uploader.Kept k cfg notes w)
    {action : Uploader.Action} {more : List Note} (done : spare k cfg up w action = some (more, w')) :
    Grows w.bucket w'.bucket := by
  intro name object stored
  obtain ⟨stream, idx, ext, final, rfl⟩ := kept.keys name object stored
  obtain ⟨spared, -, events, acted, -⟩ := spare_done done
  exact ((kept.frozen.act positive kept.sound spared acted).2 stream idx ext final object stored).1

/-! ## What is known of the two -/

/-- What is known of the writer, where each message that it appends has some property. -/
structure Written (k : Codecs) (cfg : WriterConfig) (property : Arrival → Prop)
    (notes : List Note) (w : Writer) : Prop where
  kept : Uploader.Kept k cfg notes w
  noted : ∀ stream idx a, .appended stream idx a ∈ notes →
    a.slot / cfg.slotsPerChunk = idx ∧ property a

/-- A message that fits its chunk and its frame, and from which the reader extracts the slot
under which the writer has it. -/
structure Sane (k : Codecs) (cfg : WriterConfig) (a : Arrival) : Prop where
  fits : Fits cfg a.slot
  slot : extractSlot a.msg.inner = some a.slot
  small : (k.prostEncode a.msg.inner).length < u32Bound

/-- What is known of the syncer beside the writer. -/
structure Synced (sync : SyncerConfig) (w : Writer) (entries : List Entry) (s : Syncer) : Prop where
  sound : Syncer.Sound sync w.bucket entries s
  served : Served sync s

/-- What a lane has written stays on record, and what a step adds to it has the property of what
is appended. -/
theorem written_step (positive : 0 < cfg.slotsPerChunk) {property : Arrival → Prop}
    (written : Written k cfg property notes w) {action : Uploader.Action} {more : List Note}
    (appended : ∀ stream a, action = .append stream a → property a)
    (done : spare k cfg up w action = some (more, w')) :
    Written k cfg property (notes ++ more) w' where
  kept := written.kept.step positive done
  noted stream idx a noted := by
    rcases List.mem_append.mp noted with before | isNew
    · exact written.noted stream idx a before
    · obtain ⟨isAppend, same⟩ := spare_appended done isNew
      exact ⟨same.symm, appended stream a isAppend⟩

/-- Every run keeps what is known of the two. -/
theorem runs (positive : 0 < cfg.slotsPerChunk) (property : Arrival → Prop)
    {actions : List (Uploader.Action ⊕ Syncer.Action)} {books : List (Note ⊕ Entry)} {m : Mirror}
    (ran : Behaviour.Steps (act k cfg up sync) (start cfg) actions books m)
    (appended : ∀ stream a, .inl (.append stream a) ∈ actions → property a) :
    Written k cfg property (Behaviour.firsts books) m.1 ∧
      Synced sync m.1 (Behaviour.seconds books) m.2 := by
  have only : ∀ action ∈ actions, ∀ stream a, action = .inl (.append stream a) → property a :=
    fun action member stream a same => appended stream a (same ▸ member)
  refine ran.beside_keeps only (Written k cfg property)
    (fun w entries s => Synced sync w entries s) ?_ ?_ ?_
  · exact ⟨⟨Uploader.Kept.start, fun _ _ _ noted => nomatch noted⟩, ⟨Syncer.Sound.start, Served.start⟩⟩
  · intro notes entries w s action more w' written synced allowed done
    have written' := written_step positive written
      (fun stream a same => allowed stream a (congrArg _ same)) done
    exact ⟨written', ⟨synced.sound.grow (regular_of_kept written.kept)
      (regular_of_kept written'.kept) (grows_of_spare positive written.kept done), synced.served⟩⟩
  · intro notes entries w s action more s' written synced _ done
    have regular := regular_of_kept written.kept
    exact ⟨synced.sound.step regular done, synced.served.step regular synced.sound done⟩

/-! ## What the cache holds -/

/-- A file with its final name is as the only seal of its chunk wrote it. -/
theorem content_sealed (kept : Uploader.Kept k cfg notes w) (sound : Syncer.Sound sync w.bucket entries s)
    {stream : Stream} {idx : Nat} {ext : String} (final : ext ∈ trio) {content : Bytes}
    (stored : (s.files stream).lookup (chunkName cfg idx ext) = some content) :
    recorded notes stream idx ≠ [] ∧ ∃ reason,
      sealings (booksOf notes) stream idx =
        [filesOf k stream cfg idx (recorded notes stream idx) reason] ∧
      content = (filesOf k stream cfg idx (recorded notes stream idx) reason).content ext := by
  have named : (s.files (chunkOf cfg stream idx).stream).lookup ((chunkOf cfg stream idx).file ext) =
      some content := stored
  exact kept.object (trio_iff.mp final) (sound.copied.object final named).2

/-- A complete chunk is one of the writer's. -/
theorem complete_chunk (kept : Uploader.Kept k cfg notes w) (sound : Syncer.Sound sync w.bucket entries s)
    {key : ChunkKey} (complete : Intact s.files key) :
    key.Fits ∧ ∃ idx, key = chunkOf cfg key.stream idx := by
  obtain ⟨content, stored⟩ := Option.isSome_iff_exists.mp (complete "zst" (by decide))
  obtain ⟨fits, object⟩ := sound.copied.object (by decide) stored
  obtain ⟨stream, idx, ext, -, same⟩ := mem_bucket kept object
  obtain ⟨rfl, -⟩ := object_injective same
  exact ⟨fits, idx, rfl⟩

/-- A complete chunk is sealed, with the messages that were recorded in it. -/
theorem complete_sealed (kept : Uploader.Kept k cfg notes w) (sound : Syncer.Sound sync w.bucket entries s)
    {stream : Stream} {idx : Nat} (complete : Intact s.files (chunkOf cfg stream idx)) :
    recorded notes stream idx ≠ [] ∧ ∃ reason,
      SealedFiles k stream cfg (s.files stream) idx (recorded notes stream idx) reason := by
  have there : ∀ ext ∈ trio, ∃ content,
      (s.files stream).lookup (chunkName cfg idx ext) = some content :=
    fun ext final => Option.isSome_iff_exists.mp (complete ext final)
  obtain ⟨content, stored⟩ := there "meta.json" (by decide)
  obtain ⟨filled, reason, once, -⟩ := content_sealed kept sound (by decide) stored
  have all : ∀ ext ∈ trio, (s.files stream).lookup (chunkName cfg idx ext) =
      some ((filesOf k stream cfg idx (recorded notes stream idx) reason).content ext) := by
    intro ext final
    obtain ⟨content, stored⟩ := there ext final
    obtain ⟨-, reason', once', same⟩ := content_sealed kept sound final stored
    obtain ⟨files, -⟩ := List.cons.inj (once.symm.trans once')
    rw [stored, same, files]
  exact ⟨filled, reason, all "zst" (by decide), all "idx" (by decide), all "meta.json" (by decide)⟩

/-- A sealed chunk is complete, and its bounds fit. -/
theorem sealed_complete (sound : Syncer.Sound sync w.bucket entries s) {stream : Stream} {idx : Nat}
    {arrivals : List Arrival} {reason : String}
    (files : SealedFiles k stream cfg (s.files stream) idx arrivals reason) :
    Intact s.files (chunkOf cfg stream idx) ∧ (chunkOf cfg stream idx).Fits := by
  have held : (s.files (chunkOf cfg stream idx).stream).lookup
      ((chunkOf cfg stream idx).file "meta.json") = _ := files.sidecar
  refine ⟨complete_iff.mpr ⟨?_, ?_, ?_⟩, (sound.copied.object (by decide) held).1⟩
  · exact Option.isSome_of_eq_some held
  · exact Option.isSome_of_eq_some files.compressed
  · exact Option.isSome_of_eq_some files.index

/-! ## What a reader of the cache finds -/

section Readers

variable {reader : Reader}

/-- What is scanned of the cache is sealed. -/
theorem scanned_sealed (json : reader.codecs.JsonRoundTrips)
    (kept : Uploader.Kept reader.codecs cfg notes w)
    (sound : Syncer.Sound sync w.bucket entries s) (files : reader.files = s.files)
    {stream : Stream} {name : FileName} {entry : ChunkEntry}
    (found : ChunkCatalog.scanEntry reader.codecs stream (s.files stream) name = some entry) :
    Sealed cfg reader (recorded notes) entry := by
  have scanned := sound.copied.scanned found
  obtain ⟨fits, idx, isChunk⟩ : entry.key.Fits ∧ ∃ idx, entry.key = chunkOf cfg entry.stream idx :=
    complete_chunk kept sound scanned.complete
  obtain ⟨filled, reason, isSealed⟩ := complete_sealed kept sound (isChunk ▸ scanned.complete)
  have bounds : idx * cfg.slotsPerChunk + cfg.slotsPerChunk < u64Bound := by
    rw [isChunk] at fits
    exact fits.2
  have named : name = chunkName cfg idx "meta.json" := by
    rw [scanned.name, isChunk]
    rfl
  obtain rfl := scanned.stream
  rw [named, scanEntry_sealed json isSealed bounds] at found
  exact ⟨idx, reason, filled, files ▸ isSealed, (Option.some.inj found).symm⟩

/-- The catalog of the cache holds what is sealed in it. -/
theorem scanIn_holds (json : reader.codecs.JsonRoundTrips) (positive : 0 < cfg.slotsPerChunk)
    (kept : Uploader.Kept reader.codecs cfg notes w)
    (sound : Syncer.Sound sync w.bucket entries s) (files : reader.files = s.files)
    (order : DirOrder) (entry : ChunkEntry) :
    (scanIn reader.codecs order s.files).Holds entry ↔ Sealed cfg reader (recorded notes) entry := by
  constructor
  · intro holds
    obtain ⟨-, name, -, found⟩ := ChunkCatalog.scanStream_found _ _ _ _ _ _ holds
    exact scanned_sealed json kept sound files found
  · rintro ⟨idx, reason, filled, isSealed, same⟩
    rw [files] at isSealed
    have bounds := (sealed_complete sound isSealed).2.2
    have found := scanEntry_sealed json isSealed bounds
    rw [← same] at found
    refine ChunkCatalog.scanStream_finds ((order.lists _ _).mpr ?_) found ?_
    · exact AList.mem_keys.mp (AList.lookup_isSome.mp (Option.isSome_of_eq_some isSealed.sidecar))
    · intro name _ other found' start
      exact sealed_distinguished json positive other entry
        (scanned_sealed json kept sound files found')
        ⟨idx, reason, filled, files ▸ isSealed, same⟩ (ChunkCatalog.scanEntry_stream found') start

/-- The catalog of the cache lists the complete chunks. -/
theorem mem_chunkIndices (json : reader.codecs.JsonRoundTrips) (positive : 0 < cfg.slotsPerChunk)
    (kept : Uploader.Kept reader.codecs cfg notes w)
    (sound : Syncer.Sound sync w.bucket entries s) (files : reader.files = s.files)
    (order : DirOrder) {stream : Stream} {idx : Nat} :
    idx ∈ chunkIndices cfg (scanIn reader.codecs order s.files) stream ↔
      Intact s.files (chunkOf cfg stream idx) := by
  have sealedIff := scanIn_holds json positive kept sound files order
  constructor
  · intro listed
    obtain ⟨item, isItem, index⟩ := List.mem_map.mp listed
    obtain ⟨-, inStream, holds⟩ := ChunkCatalog.mem_toList.mp isItem
    obtain ⟨idx', reason, -, isSealed, same⟩ := (sealedIff _).mp holds
    rw [files, inStream] at isSealed
    have isIdx : idx' = idx := by
      rw [← index, same]
      exact (Nat.mul_div_cancel _ positive).symm
    exact isIdx ▸ (sealed_complete sound isSealed).1
  · intro complete
    obtain ⟨filled, reason, isSealed⟩ := complete_sealed kept sound complete
    have holds := (sealedIff (entryOf reader.codecs stream cfg idx (recorded notes stream idx)
      reason)).mpr ⟨idx, reason, filled, files ▸ isSealed, rfl⟩
    refine List.mem_map.mpr ⟨(_, _), ChunkCatalog.mem_toList.mpr ⟨rfl, rfl, holds⟩, ?_⟩
    exact Nat.mul_div_cancel _ positive

/-- The messages that the writer noted can be recorded, if each of them is sane. -/
theorem recordable_noted (written : Written reader.codecs cfg (Sane reader.codecs cfg) notes w)
    (few : ∀ stream idx, (recorded notes stream idx).length < u32Bound) (stream : Stream) :
    Recordable reader.codecs cfg (recorded notes stream) := by
  have noted : ∀ idx, ∀ a ∈ recorded notes stream idx,
      a.slot / cfg.slotsPerChunk = idx ∧ Sane reader.codecs cfg a :=
    fun idx a member => written.noted stream idx a (mem_recorded member)
  exact ⟨fun idx a member => (noted idx a member).1, fun idx a member => (noted idx a member).2.fits,
    fun idx a member => (noted idx a member).2.slot, few stream,
    fun idx a member => (noted idx a member).2.small⟩

end Readers

/-! ## Runs of the two -/

section Runs

variable (k : Codecs) (cfg : WriterConfig) (up : UploaderConfig) (sync : SyncerConfig)

/-- In every state that a syncer and a writer that opens no archived chunk again and seals no
empty one reach, a file in the cache is a temporary one, or as the only seal of its chunk made
it of the messages that were recorded in the chunk. A held chunk has all its files, unless it is
stale. -/
theorem cache_exact (positive : 1 ≤ cfg.slotsPerChunk)
    (actions : List (Uploader.Action ⊕ Syncer.Action)) (books : List (Note ⊕ Entry)) (m : Mirror)
    (ran : Behaviour.Steps (act k cfg up sync) (start cfg) actions books m) :
    (∀ stream name content, (m.2.files stream).lookup name = some content →
      partialSuffix <:+ name ∨
        ∃ idx reason, ∃ ext ∈ finalExtensions, name = chunkName cfg idx ext ∧
          sealings (booksOf (Behaviour.firsts books)) stream idx =
            [filesOf k stream cfg idx (recorded (Behaviour.firsts books) stream idx) reason] ∧
          content = (filesOf k stream cfg idx (recorded (Behaviour.firsts books) stream idx)
            reason).content ext) ∧
      ∀ key, Held m.2.files key → Intact m.2.files key ∨ Stale sync m.2.files key := by
  obtain ⟨⟨kept, -⟩, ⟨sound, -⟩⟩ := runs positive (fun _ => True) ran (fun _ _ _ => trivial)
  refine ⟨fun stream name content stored => ?_, fun key held => ?_⟩
  · obtain ⟨key, rfl, -, ext, final, rfl | ⟨rfl, object⟩⟩ := sound.copied stream name content stored
    · left
      rw [ChunkKey.file, chunkFile, String.toList_append]
      exact ⟨stem key.startSlot key.endSlot ++ '.' :: ext.toList, List.append_assoc _ _ _⟩
    · obtain ⟨stream, idx, ext', final', same⟩ := mem_bucket kept object
      obtain ⟨rfl, rfl⟩ := object_injective same
      obtain ⟨-, reason, once, isContent⟩ := content_sealed kept sound final stored
      exact .inr ⟨idx, reason, ext, trio_iff.mp final', rfl, once, isContent⟩
  · exact (sound.whole key held).imp_left (fun both => complete_iff.mpr ⟨held, both⟩)

/-- The directories are listed as they come. -/
def asStored : DirOrder := ⟨fun dir => dir.keys, fun _ _ => Iff.rfl⟩

/-- Two transactions are recorded, sealed and archived. -/
def recordPair : List Uploader.Action :=
  [.boot, .openChunk .tx 0 0, .append .tx ⟨0, ⟨0, Replay.bareTx 500⟩, 500⟩,
    .append .tx ⟨1, ⟨1, Replay.bareTx 400⟩, 400⟩, .beginSeal .tx "shutdown" 0] ++
    List.replicate 8 (.sealStep .tx) ++ uploadLone

/-- A start of the syncer with a listing of two pages. It crashes with the payload in its
temporary file. -/
def crashedCycle : List Syncer.Action :=
  [.boot asStored, .serve, .begin, .page 2, .page 2, .spawn] ++
    List.replicate 3 (.download 0 .done) ++ [.crash]

/-- Another start, with a cycle that downloads the chunk, and one that finds nothing new. -/
def restartedCycles : List Syncer.Action :=
  [.boot asStored, .clear true, .serve, .begin, .page 1000, .spawn] ++
    List.replicate 12 (.download 0 .done) ++
    [.sweep [], .publish asStored, .begin, .page 1000, .sweep [], .rest]

/-- The writer records a chunk; then a cycle of the syncer is cut off by a crash, and a restart
completes it. -/
def mirrorPair : List (Uploader.Action ⊕ Syncer.Action) :=
  recordPair.map .inl ++ (crashedCycle ++ restartedCycles).map .inr

/-- The run of these steps. -/
def ranPair : Option (List (Note ⊕ Entry) × Mirror) :=
  Behaviour.acts (act PlainCodecs.plain ⟨1000, 100, 4⟩ ⟨4, 3, 24⟩ ⟨2, 3, 24⟩)
    (start ⟨1000, 100, 4⟩) mirrorPair

/-- Behind these steps the payload in the cache is the one that the only seal made of the two
messages. -/
theorem cache_exact_pair : ∃ books m content reason, ranPair = some (books, m) ∧
    (m.2.files .tx).lookup (chunkName ⟨1000, 100, 4⟩ 0 "zst") = some content ∧
    content = (filesOf PlainCodecs.plain .tx ⟨1000, 100, 4⟩ 0
      [⟨0, ⟨0, Replay.bareTx 500⟩, 500⟩, ⟨1, ⟨1, Replay.bareTx 400⟩, 400⟩] reason).content
        "zst" := by
  have computed : ranPair.any (fun result =>
      recorded (Behaviour.firsts result.1) .tx 0 =
        [⟨0, ⟨0, Replay.bareTx 500⟩, 500⟩, ⟨1, ⟨1, Replay.bareTx 400⟩, 400⟩] ∧
      ((result.2.2.files .tx).lookup (chunkName ⟨1000, 100, 4⟩ 0 "zst")).isSome = true) = true := by
    decide +kernel
  obtain ⟨⟨books, m⟩, done, facts⟩ := Option.any_eq_true _ _ |>.mp computed
  obtain ⟨messages, present⟩ := of_decide_eq_true facts
  obtain ⟨content, stored⟩ := Option.isSome_iff_exists.mp present
  rcases (cache_exact PlainCodecs.plain ⟨1000, 100, 4⟩ ⟨4, 3, 24⟩ ⟨2, 3, 24⟩ (by decide) mirrorPair
    books m (Behaviour.steps_of_acts done)).1 _ _ _ stored with
    temporary | ⟨idx, reason, ext, -, named, -, same⟩
  · exact absurd temporary (by decide +kernel)
  · obtain ⟨rfl, rfl⟩ := chunkName_injective (by decide) named
    exact ⟨books, m, content, reason, done, stored, messages ▸ same⟩

/-- Beside a writer that opens no archived chunk again and seals no empty one, no chunk is
downloaded twice, over any number of cycles and restarts. -/
theorem downloads_once (positive : 1 ≤ cfg.slotsPerChunk)
    (actions : List (Uploader.Action ⊕ Syncer.Action)) (books : List (Note ⊕ Entry)) (m : Mirror)
    (ran : Behaviour.Steps (act k cfg up sync) (start cfg) actions books m) :
    (downloadedIn (Behaviour.seconds books)).Nodup ∧
      ∀ key ∈ downloadedIn (Behaviour.seconds books),
        Held m.2.files key ∨ Stale sync m.2.files key := by
  obtain ⟨-, ⟨sound, -⟩⟩ := runs positive (fun _ => True) ran (fun _ _ _ => trivial)
  exact ⟨sound.once, sound.gone⟩

/-- The chunk is downloaded once, in spite of the crash. -/
theorem downloads_once_pair : ∃ books m, ranPair = some (books, m) ∧
    downloadedIn (Behaviour.seconds books) = [chunkOf ⟨1000, 100, 4⟩ .tx 0] ∧
    (downloadedIn (Behaviour.seconds books)).Nodup := by
  have computed : ranPair.any (fun result =>
      downloadedIn (Behaviour.seconds result.1) = [chunkOf ⟨1000, 100, 4⟩ .tx 0]) = true := by
    decide +kernel
  obtain ⟨⟨books, m⟩, done, downloaded⟩ := Option.any_eq_true _ _ |>.mp computed
  exact ⟨books, m, done, of_decide_eq_true downloaded, (downloads_once PlainCodecs.plain
    ⟨1000, 100, 4⟩ ⟨4, 3, 24⟩ ⟨2, 3, 24⟩ (by decide) mirrorPair books m
      (Behaviour.steps_of_acts done)).1⟩

/-- Beside a writer that opens no archived chunk again and seals no empty one, every chunk of
the catalog that is published has its files in the cache, at any moment, unless it is stale. -/
theorem catalog_on_disk (positive : 1 ≤ cfg.slotsPerChunk)
    (actions : List (Uploader.Action ⊕ Syncer.Action)) (books : List (Note ⊕ Entry)) (m : Mirror)
    (ran : Behaviour.Steps (act k cfg up sync) (start cfg) actions books m) (entry : ChunkEntry)
    (published : m.2.catalog.Holds entry) :
    Intact m.2.files entry.key ∨ Stale sync m.2.files entry.key :=
  (runs positive (fun _ => True) ran (fun _ _ _ => trivial)).2.served entry published

/-- The catalog has the chunk, and all its files are there. -/
theorem catalog_on_disk_pair : ∃ books m entry, ranPair = some (books, m) ∧
    m.2.catalog.Holds entry ∧ Intact m.2.files entry.key := by
  have computed : ranPair.any (fun result => ((result.2.2.catalog.streams .tx)[0]?).isSome = true ∧
      newestHeld (localChunks result.2.2.files) = 1000) = true := by
    decide +kernel
  obtain ⟨⟨books, m⟩, done, facts⟩ := Option.any_eq_true _ _ |>.mp computed
  obtain ⟨isSome, newest⟩ := of_decide_eq_true facts
  obtain ⟨entry, found⟩ := Option.isSome_iff_exists.mp isSome
  obtain ⟨inStream, start⟩ := m.2.catalog.keyed _ _ _ found
  have published : m.2.catalog.Holds entry := by rwa [ChunkCatalog.Holds, inStream, start]
  refine ⟨books, m, entry, done, published, ?_⟩
  refine (catalog_on_disk PlainCodecs.plain ⟨1000, 100, 4⟩ ⟨4, 3, 24⟩ ⟨2, 3, 24⟩ (by decide)
    mirrorPair books m (Behaviour.steps_of_acts done) entry published).resolve_right ?_
  -- the window of a day is wider than the chunk is old
  have narrow : newestHeld (localChunks m.2.files) - retentionSlots 24 = 0 := by
    rw [show newestHeld (localChunks m.2.files) = 1000 from newest]
    decide
  intro stale
  rw [Stale, narrow] at stale
  exact Nat.not_lt_zero _ stale

/-- Beside a writer that opens no archived chunk again and seals no empty one, a replay over the
cache as it is at some moment sends, if it is drained, of each stream the messages that the
writer recorded in the chunks that are complete in the cache, from the plan's slot on and as far
as they satisfy one of the stream's filters, chunk after chunk. -/
theorem mirror_replays (reader : Reader) (roundTrip : reader.codecs.RoundTrip)
    (positive : 1 ≤ cfg.slotsPerChunk)
    (actions : List (Uploader.Action ⊕ Syncer.Action)) (books : List (Note ⊕ Entry)) (m : Mirror)
    (ran : Behaviour.Steps (act reader.codecs cfg up sync) (start cfg) actions books m)
    (sane : ∀ stream a, .inl (.append stream a) ∈ actions → Sane reader.codecs cfg a)
    (few : ∀ stream idx, (recorded (Behaviour.firsts books) stream idx).length < 2 ^ 32)
    (files : reader.files = m.2.files) (order : DirOrder) (parsed : SubscriptionFilters)
    (explicit : Option Nat) (indexCache indexCache' : IndexCache)
    (indexes : indexCache.Holds
      (reader.IndexAgrees (scanIn reader.codecs order m.2.files).Holds))
    (plan : ReplayPlan)
    (planned : reader.planReplay (scanIn reader.codecs order m.2.files) parsed indexCache explicit =
      .ok (plan, indexCache'))
    (chunkCache : ChunkCache) (chunks : chunkCache.Holds (ChunkAgrees reader (Replay.Has plan)))
    (env : Nat → Iteration) (pacer : Pacer) :
    ∃ outcome, Replay.driveReplay reader env plan chunkCache pacer = .ok outcome ∧
      (outcome.stats.drained = true → ∀ stream, ∃ held : List Nat,
        held.Pairwise (· < ·) ∧
        (∀ idx, idx ∈ held ↔ Intact m.2.files (chunkOf cfg stream idx)) ∧
        (outcome.sent.filter (fun sent => sent.1 = stream)).map (fun sent => sent.2.update) =
          ((held.flatMap (recorded (Behaviour.firsts books) stream)).filter
            (fun a => plan.fromSlot ≤ a.slot ∧
              parsed.selects reader.codecs stream a.msg.inner = true)).map
            (fun a => setFilters a.msg.inner
              (parsed.satisfiedNames reader.codecs stream a.msg.inner))) := by
  obtain ⟨written, ⟨sound, -⟩⟩ := runs positive (Sane reader.codecs cfg) ran sane
  have sealedIff := scanIn_holds roundTrip.json positive written.kept sound files order
  have recordable := recordable_noted written few
  obtain ⟨outcome, driven, sent⟩ := replay_recorded roundTrip positive recordable sealedIff
    indexes planned chunks env pacer
  refine ⟨outcome, driven, fun drained stream => ⟨_, ?_, ?_, sent drained stream⟩⟩
  · exact chunkIndices_ascending positive (fun entry => (sealedIff entry).mp) stream
  · exact fun idx => mem_chunkIndices roundTrip.json positive written.kept sound files order

/-- A reader of the cache behind that run. -/
def readerOf (m : Mirror) : Reader where
  codecs := PlainCodecs.plain
  files := m.2.files
  indexBudgetBytes := 1000
  chunkBudgetBytes := 1000
  indexHeapBytes _ := 100

/-- The run, and the replay of a subscription to everything behind it. -/
def replayedPair : Option ((List (Note ⊕ Entry) × Mirror) × (ReplayPlan × IndexCache) ×
    Replay.Outcome) := do
  let ran ← ranPair
  let planned ← ((readerOf ran.2).planReplay (scanIn PlainCodecs.plain asStored ran.2.2.files)
    everything Lru.Cache.new none).toOption
  let outcome ← (Replay.driveReplay (readerOf ran.2) promptly planned.1 Lru.Cache.new
    (Pacer.ofConfig ⟨false, id, 0, 0⟩)).toOption
  some (ran, planned, outcome)

/-- What these steps append keeps the promises of the lanes. -/
theorem sane_pair (stream : Stream) (a : Arrival) (among : .inl (.append stream a) ∈ mirrorPair) :
    Sane PlainCodecs.plain ⟨1000, 100, 4⟩ a := by
  have either : a = ⟨0, ⟨0, Replay.bareTx 500⟩, 500⟩ ∨ a = ⟨1, ⟨1, Replay.bareTx 400⟩, 400⟩ := by
    simp [mirrorPair, recordPair, uploadLone] at among
    exact among.imp And.right And.right
  rcases either with rfl | rfl
  · exact ⟨⟨by decide, by decide, by decide⟩, by decide, by decide +kernel⟩
  · exact ⟨⟨by decide, by decide, by decide⟩, by decide, by decide +kernel⟩

/-- A replay over the cache sends the recorded messages from the plan's slot on. -/
theorem mirror_replays_pair : ∃ ran planned outcome, ∃ held : List Nat,
    replayedPair = some (ran, planned, outcome) ∧ 0 ∈ held ∧
    (outcome.sent.filter (fun sent => sent.1 = .tx)).map (fun sent => sent.2.update) =
      ((held.flatMap (recorded (Behaviour.firsts ran.1) .tx)).filter
        (fun a => planned.1.fromSlot ≤ a.slot ∧
          everything.selects PlainCodecs.plain .tx a.msg.inner = true)).map
        (fun a => setFilters a.msg.inner
          (everything.satisfiedNames PlainCodecs.plain .tx a.msg.inner)) := by
  have computed : replayedPair.any (fun result => result.1.1.length < 2 ^ 32 ∧
      result.2.2.stats.drained = true ∧
      ∀ ext ∈ trio, Present (result.1.2.2.files .tx) (chunkName ⟨1000, 100, 4⟩ 0 ext)) = true := by
    decide +kernel
  obtain ⟨⟨⟨books, m⟩, ⟨plan, indexCache⟩, outcome⟩, done, facts⟩ :=
    Option.any_eq_true _ _ |>.mp computed
  obtain ⟨short, drained, complete⟩ := of_decide_eq_true facts
  have steps := done
  simp only [replayedPair, Option.bind_eq_bind, Option.bind_eq_some_iff] at steps
  obtain ⟨ran, isRan, planned, isPlanned, outcome', driven, same⟩ := steps
  cases same
  have few : ∀ stream idx, (recorded (Behaviour.firsts books) stream idx).length < 2 ^ 32 := by
    intro stream idx
    have fewer : (Behaviour.firsts books).length ≤ books.length := List.length_filterMap_le _ _
    exact ((recorded_length_le _ _ _).trans fewer).trans_lt short
  obtain ⟨outcome'', driven', sent⟩ := mirror_replays ⟨1000, 100, 4⟩ ⟨4, 3, 24⟩ ⟨2, 3, 24⟩
    (readerOf m) PlainCodecs.plain_roundTrip (by decide) mirrorPair books m
    (Behaviour.steps_of_acts isRan) sane_pair few rfl asStored everything none Lru.Cache.new
    indexCache Lru.holds_new plan (ok_of_toOption isPlanned) Lru.Cache.new Lru.holds_new promptly
    (Pacer.ofConfig ⟨false, id, 0, 0⟩)
  obtain rfl := Except.ok.inj ((ok_of_toOption driven).symm.trans driven')
  obtain ⟨held, -, complete_iff, sent⟩ := sent drained .tx
  exact ⟨(books, m), (plan, indexCache), outcome, held, done, (complete_iff 0).mpr complete, sent⟩

end Runs

end Mirror

end Sillage
