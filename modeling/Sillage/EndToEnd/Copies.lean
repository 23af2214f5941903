import Sillage.EndToEnd.Naming
import Sillage.Reader.Syncer

/-!
# The cache is a copy

Whatever fails, and wherever the process crashes, a file in the cache that has its final
name is the object of that name, byte for byte. Nothing is assumed of the bucket but that
it holds files of chunks, a sidecar with its siblings only, and that an object once stored
stays as it is.
-/

namespace Sillage

open LittleEndian Directory Names

namespace Syncer

open Sync Listing

/-! ## What a listing tells -/

section Listings

variable {key : ChunkKey} {ext : String} {keys : List (List Char)}

/-- The three files of a chunk have final extensions. -/
theorem trio_final (final : ext ∈ trio) : ext ∈ finalExtensions := by
  simp only [trio, List.mem_cons, List.not_mem_nil, or_false] at final
  rcases final with rfl | rfl | rfl <;> decide

/-- Keys of objects are told apart by chunk and extension. -/
theorem object_injective {other : ChunkKey} {ext' : String}
    (same : key.object ext = other.object ext') : key = other ∧ ext = ext' := by
  obtain ⟨sameStream, starts, stops, exts⟩ := Uploader.objectKey_injective same
  obtain ⟨stream, start, stop⟩ := key
  obtain ⟨stream', start', stop'⟩ := other
  simp only at sameStream starts stops
  exact ⟨by rw [sameStream, starts, stops], exts⟩

/-- The group of a chunk. -/
def groupOf (key : ChunkKey) : GroupKey := ⟨key.stream.asStr.toList, key.startSlot, key.endSlot⟩

/-- A stream is found by its name. -/
theorem find_stream (stream : Stream) :
    Stream.all.find? (fun other => other.asStr.toList = stream.asStr.toList) = some stream := by
  cases stream <;> decide

/-- Chunks are told apart by the groups that a listing forms of their objects. -/
theorem groupOf_injective {other : ChunkKey} (same : groupOf key = groupOf other) : key = other := by
  obtain ⟨stream, start, stop⟩ := key
  obtain ⟨stream', start', stop'⟩ := other
  obtain ⟨streams, rfl, rfl⟩ := GroupKey.mk.inj same
  have sameStream := find_stream stream
  rw [show stream.asStr.toList = stream'.asStr.toList from streams, find_stream stream'] at sameStream
  rw [Option.some.inj sameStream]

/-- The key of a chunk's file is read as its chunk, if its slots fit 64 bits. -/
theorem parseKey_object (final : ext ∈ trio) {group : GroupKey} {text : List Char} :
    parseKey (key.object ext) = some (group, text) ↔
      key.Fits ∧ group = groupOf key ∧ text = ext.toList := by
  have cut : cutExtension (key.file ext) = some (stem key.startSlot key.endSlot, ext.toList) :=
    (cutExtension_iff (trio_final final)).mpr rfl
  have split : splitFirst '-' (stem key.startSlot key.endSlot) =
      some (Decimal.padded 12 key.startSlot, Decimal.padded 12 key.endSlot) :=
    splitFirst_iff.mpr ⟨rfl, Decimal.not_mem_padded 12 _ '-' (by decide)⟩
  change parseKey (keyOf key.stream (key.file ext)) = _ ↔ _
  rw [parseKey_keyOf, parseFile, cut]
  simp only [Option.bind_eq_bind, Option.bind_some, split, Option.map_eq_some_iff,
    Option.bind_eq_some_iff]
  constructor
  · rintro ⟨file, ⟨start, startRead, stop, stopRead, isFile⟩, same⟩
    obtain rfl := Option.some.inj isFile
    obtain ⟨rfl, rfl⟩ := Prod.mk.inj same
    obtain rfl := parseU64_padded_eq startRead
    obtain rfl := parseU64_padded_eq stopRead
    exact ⟨⟨Decimal.parseBelow_lt startRead, Decimal.parseBelow_lt stopRead⟩, rfl, rfl⟩
  · rintro ⟨fits, rfl, rfl⟩
    exact ⟨_, ⟨_, parseU64_padded _ fits.1, _, parseU64_padded _ fits.2, rfl⟩, rfl⟩

/-- The chunk of a group whose files are all listed. -/
theorem chunkOf_some {parsed : List (GroupKey × List Char)} {group : GroupKey} {chunk : R2Chunk}
    (made : chunkOf parsed group = some chunk) : group = groupOf chunk.key := by
  simp only [chunkOf, Option.bind_eq_bind, Option.bind_eq_some_iff] at made
  obtain ⟨stream, found, made⟩ := made
  have known : stream.asStr.toList = group.streamStr := by simpa using List.find?_some found
  split at made
  · obtain rfl := Option.some.inj made
    simp [groupOf, R2Chunk.key, known]
  · cases made

/-- No chunk is listed twice. -/
theorem remoteOf_nodup (keys : List (List Char)) : (remoteOf keys).Nodup := by
  rw [remoteOf, listChunks, List.map_filterMap]
  apply List.Nodup.filterMap
  · intro group group' chunk made made'
    obtain ⟨listed, isMade, rfl⟩ := Option.map_eq_some_iff.mp made
    obtain ⟨listed', isMade', same⟩ := Option.map_eq_some_iff.mp made'
    rw [chunkOf_some isMade, chunkOf_some isMade', same]
  · exact (List.perm_insertionSort _ _).nodup_iff.mpr (List.nodup_dedup _)

/-- Among the keys of chunks those chunks are listed that fit and have all their files. -/
theorem mem_remoteOf
    (regular : ∀ name ∈ keys, ∃ key : ChunkKey, ∃ ext ∈ trio, name = key.object ext) :
    key ∈ remoteOf keys ↔ key.Fits ∧ ∀ ext ∈ trio, key.object ext ∈ keys := by
  constructor
  · intro listed
    obtain ⟨chunk, isListed, rfl⟩ := List.mem_map.mp listed
    have read : ∀ ext ∈ trio, chunk.key.Fits ∧ chunk.key.object ext ∈ keys := by
      intro ext final
      obtain ⟨name, among, parsed⟩ := mem_listChunks isListed ext (trio_final final)
      obtain ⟨own, ext', final', rfl⟩ := regular name among
      obtain ⟨fits, group, text⟩ := (parseKey_object final').mp parsed
      obtain rfl : chunk.key = own := groupOf_injective group
      obtain rfl : ext = ext' := String.toList_inj.mp text
      exact ⟨fits, among⟩
    exact ⟨(read "zst" (by decide)).1, fun ext final => (read ext final).2⟩
  · rintro ⟨fits, all⟩
    have parsed : ∀ ext ∈ trio, (groupOf key, ext.toList) ∈ keys.filterMap parseKey :=
      fun ext final => List.mem_filterMap.mpr
        ⟨_, all ext final, (parseKey_object final).mpr ⟨fits, rfl, rfl⟩⟩
    have grouped : groupOf key ∈ ((keys.filterMap parseKey).map Prod.fst).dedup.insertionSort
        GroupKey.precedes := by
      rw [List.mem_insertionSort, List.mem_dedup]
      exact List.mem_map.mpr ⟨_, parsed "zst" (by decide), rfl⟩
    have found : Stream.all.find? (fun stream => stream.asStr.toList = (groupOf key).streamStr) =
        some key.stream := find_stream key.stream
    have exts : ∀ ext ∈ trio, ext.toList ∈
        ((keys.filterMap parseKey).filter (fun entry => entry.1 = groupOf key)).map Prod.snd :=
      fun ext final => List.mem_map.mpr
        ⟨_, List.mem_filter.mpr ⟨parsed ext final, by simp⟩, rfl⟩
    have made : ∃ chunk, chunkOf (keys.filterMap parseKey) (groupOf key) = some chunk := by
      rw [chunkOf, found, Option.bind_eq_bind, Option.bind_some,
        if_pos ⟨exts "zst" (by decide), exts "idx" (by decide), exts "meta.json" (by decide)⟩]
      exact ⟨_, rfl⟩
    obtain ⟨chunk, isMade⟩ := made
    exact List.mem_map.mpr ⟨chunk, List.mem_filterMap.mpr ⟨groupOf key, grouped, isMade⟩,
      (groupOf_injective (chunkOf_some isMade)).symm⟩

end Listings

/-! ## What is assumed of the bucket -/

/-- The bucket holds files of chunks only, and a sidecar with its siblings only. -/
structure Regular (bucket : Uploader.Bucket) : Prop where
  keys : ∀ name object, bucket.lookup name = some object →
    ∃ key : ChunkKey, ∃ ext ∈ trio, name = key.object ext
  ordered : ∀ key : ChunkKey, (bucket.lookup (key.object "meta.json")).isSome = true →
    ∀ ext ∈ trio, (bucket.lookup (key.object ext)).isSome = true

/-- What one bucket holds, another one holds as well. -/
def Grows (bucket bucket' : Uploader.Bucket) : Prop :=
  ∀ name object, bucket.lookup name = some object → bucket'.lookup name = some object

variable {k : Codecs} {cfg : SyncerConfig} {bucket bucket' : Uploader.Bucket} {files files' : Files}
  {key : ChunkKey} {ext : String}

/-- The keys of a bucket that are listed are those of its objects. -/
theorem mem_listedKeys (regular : Regular bucket) {name : List Char} :
    name ∈ listedKeys bucket ↔ (bucket.lookup name).isSome = true := by
  rw [listedKeys, List.mem_filter, decide_eq_true_eq]
  constructor
  · rintro ⟨stored, -⟩
    exact AList.lookup_isSome.mpr (AList.mem_keys.mpr stored)
  · intro present
    obtain ⟨object, stored⟩ := Option.isSome_iff_exists.mp present
    obtain ⟨key, ext, -, rfl⟩ := regular.keys name object stored
    refine ⟨AList.mem_keys.mp (AList.lookup_isSome.mp present), ?_⟩
    exact ⟨_, (List.append_assoc _ _ _).symm⟩

/-- What a listing of a regular bucket has collected are keys of chunks. -/
theorem regular_listed (regular : Regular bucket) {keys : List (List Char)}
    (listed : ∀ name ∈ keys, name ∈ listedKeys bucket) :
    ∀ name ∈ keys, ∃ key : ChunkKey, ∃ ext ∈ trio, name = key.object ext := by
  intro name among
  obtain ⟨object, stored⟩ := Option.isSome_iff_exists.mp
    ((mem_listedKeys regular).mp (listed name among))
  exact regular.keys name object stored

/-! ## What is kept on disk -/

/-- The sidecar of a chunk is in the cache. -/
abbrev Held (files : Files) (key : ChunkKey) : Prop :=
  Present (files key.stream) (key.file "meta.json")

/-- A chunk lies below the window of the newest held one. -/
def Stale (cfg : SyncerConfig) (files : Files) (key : ChunkKey) : Prop :=
  key.endSlot < newestHeld (localChunks files) - retentionSlots cfg.localRetentionHours

/-- Every file in the cache is a temporary one, or a copy of the object of its name. -/
def Copied (bucket : Uploader.Bucket) (files : Files) : Prop :=
  ∀ stream name content, (files stream).lookup name = some content →
    ∃ key : ChunkKey, key.stream = stream ∧ key.Fits ∧ ∃ ext ∈ trio,
      name = key.file (ext ++ ".partial") ∨
        name = key.file ext ∧ bucket.lookup (key.object ext) = some content

/-- A cache of copies has files of chunks only. -/
theorem Copied.tidy (copied : Copied bucket files) : Tidy files := by
  intro stream name present
  obtain ⟨content, stored⟩ := Option.isSome_iff_exists.mp present
  obtain ⟨key, own, -, ext, final, named⟩ := copied stream name content stored
  exact ⟨key, own, ext, final, named.imp_right And.left⟩

/-- Copies stay copies while the bucket grows. -/
theorem Copied.grow (copied : Copied bucket files) (grows : Grows bucket bucket') :
    Copied bucket' files := by
  intro stream name content stored
  obtain ⟨key, own, fits, ext, final, named⟩ := copied stream name content stored
  exact ⟨key, own, fits, ext, final, named.imp_right (And.imp_right (grows _ _))⟩

/-- A final name is no temporary one. -/
theorem final_ne_temporary (final : ext ∈ trio) (other : ChunkKey) (ext' : String) :
    key.file ext ≠ other.file (ext' ++ ".partial") := by
  intro same
  refine not_partialSuffix key final (same ▸ ?_)
  rw [ChunkKey.file, chunkFile, String.toList_append]
  exact ⟨stem other.startSlot other.endSlot ++ '.' :: ext'.toList, List.append_assoc _ _ _⟩

/-- A file with its final name is a copy of its object, and its chunk fits. -/
theorem Copied.object (copied : Copied bucket files) (final : ext ∈ trio) {content : Bytes}
    (stored : (files key.stream).lookup (key.file ext) = some content) :
    key.Fits ∧ bucket.lookup (key.object ext) = some content := by
  obtain ⟨other, own, fits, ext', final', temporary | ⟨named, object⟩⟩ :=
    copied key.stream _ content stored
  · exact absurd temporary (final_ne_temporary final other ext')
  · obtain rfl := ChunkKey.file_injective own.symm named
    obtain rfl := key.file_ext.mp named
    exact ⟨fits, object⟩

/-- The local chunks are those that are held. -/
theorem Copied.mem_localChunks (copied : Copied bucket files) :
    key ∈ localChunks files ↔ Held files key := by
  refine ⟨copied.tidy.sidecar, fun held => ?_⟩
  obtain ⟨content, stored⟩ := Option.isSome_iff_exists.mp held
  exact (copied.tidy.mem_localChunks_iff (copied.object (by decide) stored).1).mpr held

/-- Where only stale chunks go, the newest held end does not fall. -/
theorem newestHeld_mono (copied : Copied bucket files) (copied' : Copied bucket' files')
    (fades : ∀ key, Held files key → Held files' key ∨ Stale cfg files key) :
    newestHeld (localChunks files) ≤ newestHeld (localChunks files') := by
  rcases (localChunks files).eq_empty_or_nonempty with none | some
  · simp [none, newestHeld]
  · obtain ⟨newest, isNewest, ends⟩ := Finset.exists_mem_eq_sup _ some ChunkKey.endSlot
    rcases fades newest (copied.mem_localChunks.mp isNewest) with stays | stale
    · rw [newestHeld, ends]
      exact le_newestHeld (copied'.mem_localChunks.mpr stays)
    · have below : newest.endSlot <
          (localChunks files).sup ChunkKey.endSlot - retentionSlots cfg.localRetentionHours := stale
      omega

/-- A chunk below the window stays below it while the newest end does not go down. -/
theorem Stale.mono (stale : Stale cfg files key)
    (newest : newestHeld (localChunks files) ≤ newestHeld (localChunks files')) :
    Stale cfg files' key :=
  lt_of_lt_of_le stale (Nat.sub_le_sub_right newest _)

/-! ## Downloads -/

/-- What is known of a running download: the files before its own have landed, and what it
has fetched is the object of its file. -/
structure DownloadSound (bucket : Uploader.Bucket) (files : Files) (d : Download) : Prop where
  fits : d.key.Fits
  split : ∃ before, before ++ d.ext :: d.rest = trio ∧
    ∀ ext ∈ before, Present (files d.key.stream) (d.key.file ext)
  fetched : ∀ content, d.stage = .creating content ∨ d.stage = .writing content →
    bucket.lookup (d.key.object d.ext) = some content
  written : d.stage = .placing → ∃ content, bucket.lookup (d.key.object d.ext) = some content ∧
    (files d.key.stream).lookup d.temporary = some content

/-- A step of a download changes its temporary file, or gives it its final name. -/
inductive Changed (bucket : Uploader.Bucket) (d : Download) (files files' : Files) : Prop where
  | temporary (same : ∀ stream name, ¬ (stream = d.key.stream ∧ name = d.temporary) →
      (files' stream).lookup name = (files stream).lookup name)
  | landed (content : Bytes) (object : bucket.lookup (d.key.object d.ext) = some content)
      (final : (files' d.key.stream).lookup (d.key.file d.ext) = some content)
      (same : ∀ stream name, ¬ (stream = d.key.stream ∧ name = d.temporary) →
        ¬ (stream = d.key.stream ∧ name = d.key.file d.ext) →
        (files' stream).lookup name = (files stream).lookup name)

variable {d : Download}

/-- A download is at one of the three files of its chunk. -/
theorem DownloadSound.final (sound : DownloadSound bucket files d) : d.ext ∈ trio := by
  obtain ⟨before, split, -⟩ := sound.split
  rw [← split]
  exact List.mem_append_right _ List.mem_cons_self

/-- What is known of a download stays true while the bucket grows. -/
theorem DownloadSound.grow (sound : DownloadSound bucket files d) (grows : Grows bucket bucket') :
    DownloadSound bucket' files d where
  fits := sound.fits
  split := sound.split
  fetched content staged := grows _ _ (sound.fetched content staged)
  written isPlacing := by
    obtain ⟨content, object, temporary⟩ := sound.written isPlacing
    exact ⟨content, grows _ _ object, temporary⟩

/-- A change of a stream's directory is seen there. -/
theorem applyOn_own (files : Files) (stream : Stream) (step : FileStep) :
    applyOn files (stream, step) stream = FileStep.apply (files stream) step :=
  Function.update_self ..

/-- A step in a directory leaves the other directories, and the names that it does not
touch. -/
theorem lookup_applyOn {stream own : Stream} {step : FileStep} {name : FileName}
    (apart : ¬ (stream = own ∧ name ∈ step.touches)) :
    (applyOn files (own, step) stream).lookup name = (files stream).lookup name := by
  rw [applyOn]
  by_cases here : stream = own
  · subst here
    rw [Function.update_self]
    exact lookup_untouched _ step name (fun touched => apart ⟨rfl, touched⟩)
  · rw [Function.update_of_ne here]

/-- A step on the temporary file only. -/
theorem Changed.of_temporary {step : FileStep} (touches : step.touches = [d.temporary]) :
    Changed bucket d files (applyOn files (d.key.stream, step)) :=
  .temporary (fun _ _ apart => lookup_applyOn (fun both =>
    apart ⟨both.1, List.mem_singleton.mp (touches ▸ both.2)⟩))

/-- A rename of a written file lands it. -/
theorem DownloadSound.lands (sound : DownloadSound bucket files d) (isPlacing : d.stage = .placing) :
    Changed bucket d files
      (applyOn files (d.key.stream, .rename d.temporary (d.key.file d.ext))) := by
  obtain ⟨content, object, temporary⟩ := sound.written isPlacing
  refine .landed content object ?_ (fun stream name apart apart' => lookup_applyOn ?_)
  · rw [applyOn_own, lookup_rename _ _ _ _ content temporary, if_pos rfl]
  · rintro ⟨here, touched⟩
    rcases List.mem_cons.mp touched with first | second
    · exact apart ⟨here, first⟩
    · exact apart' ⟨here, List.mem_singleton.mp second⟩

/-- Files with final names stay where they are. -/
theorem Changed.present (changed : Changed bucket d files files') (final : ext ∈ trio)
    (present : Present (files key.stream) (key.file ext)) :
    Present (files' key.stream) (key.file ext) := by
  have apart : ¬ (key.stream = d.key.stream ∧ key.file ext = d.temporary) :=
    fun both => final_ne_temporary final d.key d.ext both.2
  cases changed with
  | temporary same => rwa [Present, same _ _ apart]
  | landed content object isFinal same =>
    by_cases own : key.stream = d.key.stream ∧ key.file ext = d.key.file d.ext
    · rw [own.1, own.2]
      exact Option.isSome_of_eq_some isFinal
    · rwa [Present, same _ _ apart own]

/-- What is there with its final name was there before, or has just landed. -/
theorem Changed.before (changed : Changed bucket d files files') (final : ext ∈ trio)
    (present : Present (files' key.stream) (key.file ext)) :
    Present (files key.stream) (key.file ext) ∨ key = d.key ∧ ext = d.ext := by
  have apart : ¬ (key.stream = d.key.stream ∧ key.file ext = d.temporary) :=
    fun both => final_ne_temporary final d.key d.ext both.2
  cases changed with
  | temporary same => exact .inl (by rwa [Present, same _ _ apart] at present)
  | landed content object isFinal same =>
    by_cases own : key.stream = d.key.stream ∧ key.file ext = d.key.file d.ext
    · obtain rfl := ChunkKey.file_injective own.1 own.2
      exact .inr ⟨rfl, d.key.file_ext.mp own.2⟩
    · exact .inl (by rwa [Present, same _ _ apart own] at present)

/-- The cache stays a copy. -/
theorem Changed.copied (changed : Changed bucket d files files') (sound : DownloadSound bucket files d)
    (copied : Copied bucket files) : Copied bucket files' := by
  intro stream name content stored
  by_cases isTemporary : stream = d.key.stream ∧ name = d.temporary
  · exact ⟨d.key, isTemporary.1.symm, sound.fits, d.ext, sound.final, .inl isTemporary.2⟩
  · cases changed with
    | temporary same => exact copied stream name content (same _ _ isTemporary ▸ stored)
    | landed bytes object isFinal same =>
      by_cases own : stream = d.key.stream ∧ name = d.key.file d.ext
      · obtain ⟨rfl, rfl⟩ := own
        obtain rfl := Option.some.inj (stored.symm.trans isFinal)
        exact ⟨d.key, rfl, sound.fits, d.ext, sound.final, .inr ⟨rfl, object⟩⟩
      · exact copied stream name content (same _ _ isTemporary own ▸ stored)

/-- Downloads of other chunks are left alone. -/
theorem Changed.other (changed : Changed bucket d files files') {other : Download}
    (distinct : other.key ≠ d.key) (sound : DownloadSound bucket files other) :
    DownloadSound bucket files' other where
  fits := sound.fits
  split := by
    obtain ⟨before, split, present⟩ := sound.split
    refine ⟨before, split, fun ext earlier => changed.present ?_ (present ext earlier)⟩
    rw [← split]
    exact List.mem_append_left _ earlier
  fetched := sound.fetched
  written := by
    intro isPlacing
    obtain ⟨content, object, temporary⟩ := sound.written isPlacing
    refine ⟨content, object, ?_⟩
    have apart : ∀ ext, ¬ (other.key.stream = d.key.stream ∧ other.temporary = d.key.file ext) :=
      fun _ both => distinct (ChunkKey.file_injective both.1 both.2)
    cases changed with
    | temporary same => rwa [same _ _ (apart _)]
    | landed _ _ _ same => rwa [same _ _ (apart _) (apart _)]

/-- What a step of a download does to the disk, and what is known of it behind the step. -/
theorem DownloadSound.moves (sound : DownloadSound bucket files d) {result : Result}
    {after : Advanced} (moves : d.Moves cfg bucket files result after) :
    Changed bucket d files after.files ∧
      (∀ d' ∈ after.next, d'.key = d.key ∧ DownloadSound bucket after.files d') ∧
      (after.complete = true → d.ext = "meta.json" ∧ Held after.files d.key) := by
  have unchanged : Changed bucket d files files := .temporary (fun _ _ _ => rfl)
  -- a download that stays at its file has the same files before it
  have goesOn : ∀ {files'} (stage : Stage) (attempt : Nat), Changed bucket d files files' →
      (∀ content, stage = .creating content ∨ stage = .writing content →
        bucket.lookup (d.key.object d.ext) = some content) →
      (stage = .placing → ∃ content, bucket.lookup (d.key.object d.ext) = some content ∧
        (files' d.key.stream).lookup d.temporary = some content) →
      DownloadSound bucket files' ⟨d.key, d.ext, d.rest, stage, attempt⟩ := by
    intro files' stage attempt changed fetched written
    refine ⟨sound.fits, ?_, fetched, written⟩
    obtain ⟨before, split, present⟩ := sound.split
    refine ⟨before, split, fun ext earlier => changed.present ?_ (present ext earlier)⟩
    rw [← split]
    exact List.mem_append_left _ earlier
  have again : ∀ {files'}, Changed bucket d files files' → ∀ attempt,
      DownloadSound bucket files' ⟨d.key, d.ext, d.rest, .fetching, attempt⟩ :=
    fun changed attempt => goesOn .fetching attempt changed (by simp) (by simp)
  have landed : ∀ (isPlacing : d.stage = .placing),
      Present (applyOn files (d.key.stream, .rename d.temporary (d.key.file d.ext)) d.key.stream)
        (d.key.file d.ext) := by
    intro isPlacing
    obtain ⟨content, -, temporary⟩ := sound.written isPlacing
    rw [Present, applyOn_own, lookup_rename _ _ _ _ content temporary, if_pos rfl]
    rfl
  cases moves with
  | ends _ _ => exact ⟨unchanged, by simp, by simp⟩
  | retries _ _ =>
    refine ⟨unchanged, fun d' next => ?_, by simp⟩
    obtain rfl := Option.some.inj next
    exact ⟨rfl, again unchanged _⟩
  | fetched _ stored =>
    refine ⟨unchanged, fun d' next => ?_, by simp⟩
    obtain rfl := Option.some.inj next
    exact ⟨rfl, goesOn _ _ unchanged (by simp [stored]) (by simp)⟩
  | @creates content isCreating =>
    have changed : Changed bucket d files (applyOn files (d.key.stream, .create d.temporary)) :=
      .of_temporary rfl
    refine ⟨changed, fun d' next => ?_, by simp⟩
    obtain rfl := Option.some.inj next
    have object := sound.fetched content (.inl isCreating)
    exact ⟨rfl, goesOn _ _ changed (by simp [object]) (by simp)⟩
  | spoils bytes next isAgain =>
    refine ⟨.of_temporary rfl, fun d' isNext => ?_, by simp⟩
    obtain rfl := isAgain d' isNext
    exact ⟨rfl, again (.of_temporary rfl) _⟩
  | @writes content isWriting =>
    have changed : Changed bucket d files
        (applyOn files (d.key.stream, .write d.temporary content)) := .of_temporary rfl
    refine ⟨changed, fun d' next => ?_, by simp⟩
    obtain rfl := Option.some.inj next
    have object := sound.fetched content (.inr isWriting)
    have isWritten : (applyOn files (d.key.stream, .write d.temporary content)
        d.key.stream).lookup d.temporary = some content := by
      rw [applyOn_own, lookup_write, if_pos rfl]
    exact ⟨rfl, goesOn _ _ changed (by simp) (fun _ => ⟨content, object, isWritten⟩)⟩
  | @lands ext rest isPlacing more =>
    have changed := sound.lands isPlacing
    refine ⟨changed, fun d' next => ?_, by simp⟩
    obtain rfl := Option.some.inj next
    obtain ⟨before, split, present⟩ := sound.split
    refine ⟨rfl, sound.fits, ⟨before ++ [d.ext], by rw [← split, more]; simp, ?_⟩, by simp, by simp⟩
    intro ext' earlier
    rcases List.mem_append.mp earlier with isBefore | isOwn
    · refine changed.present ?_ (present ext' isBefore)
      rw [← split]
      exact List.mem_append_left _ isBefore
    · rw [List.mem_singleton.mp isOwn]
      exact landed isPlacing
  | completes isPlacing last =>
    refine ⟨sound.lands isPlacing, by simp, fun _ => ?_⟩
    obtain ⟨before, split, -⟩ := sound.split
    have isLast : d.ext = "meta.json" := by
      have ends := congrArg List.getLast? split
      rw [last] at ends
      simpa [trio] using ends
    exact ⟨isLast, isLast ▸ landed isPlacing⟩

end Syncer

end Sillage
