import Sillage.Writer.Archival.Lanes

/-!
# The steps of the uploader keep the invariant

An upload puts payload, index and sidecar in this order, and writes the marker only
behind the three of them. The retention sweep removes the marker last, so that a chunk
whose files are half gone still has it.
-/

namespace Sillage.Uploader

open LittleEndian Directory Names OpenChunk

variable {k : Codecs} {cfg : WriterConfig} {up : UploaderConfig}

/-- What the scan finds are sealed chunks without a marker. -/
theorem scanPending_sound {w : Writer} (lanes : ∀ stream, LaneSound cfg (w.lanes stream))
    {chunk : PendingChunk} (found : chunk ∈ scanPending w.dir) :
    ∃ idx, chunk = pendingChunk cfg chunk.stream idx ∧
      ((w.dir chunk.stream).lookup (chunkName cfg idx "meta.json")).isSome = true ∧
      ¬ Marked cfg (w.dir chunk.stream) idx := by
  simp only [scanPending, List.mem_insertionSort, List.mem_flatMap, List.mem_filterMap] at found
  obtain ⟨stream, -, name, listed, pending⟩ := found
  obtain ⟨content, stored⟩ := (mem_keys_iff (w.dir stream) name).mp listed
  obtain ⟨idx, ext, isKnown, rfl⟩ := (lanes stream).known name content stored
  rw [pendingOf] at pending
  obtain ⟨text, stripped, pending⟩ := Option.bind_eq_some_iff.mp pending
  obtain ⟨rfl, rfl⟩ := stripSuffix_meta isKnown stripped
  dsimp only at pending
  split at pending
  · cases pending
  · next unmarked =>
    rw [splitOnce_stem, Option.getD_some] at pending
    obtain ⟨startSlot, startParsed, pending⟩ := Option.bind_eq_some_iff.mp pending
    obtain ⟨endSlot, endParsed, pending⟩ := Option.bind_eq_some_iff.mp pending
    obtain rfl := Option.some.inj pending
    obtain rfl := parseU64_padded_eq startParsed
    obtain rfl := parseU64_padded_eq endParsed
    refine ⟨idx, rfl, ?_, ?_⟩
    · exact (congrArg Option.isSome stored).trans rfl
    · rw [withExtension_stem] at unmarked
      exact unmarked

/-- The files of a pending chunk. -/
theorem withExtension_pending (stream : Stream) (idx : Nat) (ext : String) :
    withExtension (pendingChunk cfg stream idx).base ext = chunkName cfg idx ext :=
  withExtension_stem _ _ ext

/-- Pending chunks are told apart by stream and index. -/
theorem pendingChunk_injective (positive : 0 < cfg.slotsPerChunk) {stream stream' : Stream}
    {idx idx' : Nat} (same : pendingChunk cfg stream idx = pendingChunk cfg stream' idx') :
    stream = stream' ∧ idx = idx' :=
  ⟨congrArg PendingChunk.stream same,
    Nat.eq_of_mul_eq_mul_right positive (congrArg PendingChunk.startSlot same)⟩

/-- A scan finds chunks that are sealed and not archived yet. -/
theorem Sound.scan (positive : 0 < cfg.slotsPerChunk) {books : List Event} {w : Writer}
    (sound : Sound cfg books w) {found : List PendingChunk} (listed : found ⊆ scanPending w.dir) :
    Sound cfg books { w with phase := .sweeping found [] [] } := by
  refine ⟨sound.lanes, sound.chunks, ⟨?_, ?_, ?_, ?_, ?_⟩, sound.ordered⟩
  · intro chunk member
    obtain ⟨idx, same, sidecar, -⟩ := scanPending_sound sound.lanes (listed member)
    exact ⟨idx, same, sidecar⟩
  · intro pending entries removals isSweeping stream idx member
    cases isSweeping
    obtain ⟨idx', same, -, unmarked⟩ := scanPending_sound sound.lanes (listed member)
    obtain ⟨-, rfl⟩ := pendingChunk_injective positive same
    exact unmarked
  · intro pending entries removals isSweeping
    cases isSweeping
    exact .inl rfl
  · intro waiting running isUploading
    cases isUploading
  · intro isDown
    cases isDown

/-- A sweep goes on to other entries. -/
theorem PhaseSound.sweep {w : Writer} (sound : PhaseSound cfg w) {pending : List PendingChunk}
    {entries removals entries' removals' : List (Stream × FileName)}
    (isSweeping : w.phase = .sweeping pending entries removals)
    (removing : Removing cfg w removals') :
    PhaseSound cfg { w with phase := .sweeping pending entries' removals' } := by
  refine ⟨?_, ?_, ?_, ?_, ?_⟩
  · intro chunk member
    apply sound.queued chunk
    rw [isSweeping]
    exact member
  · intro pending' _ _ same
    cases same
    exact sound.unmarked pending entries removals isSweeping
  · intro _ _ _ same
    cases same
    exact removing
  · intro _ _ same
    cases same
  · intro same
    cases same

/-- Uploads go on with chunks that were queued before. -/
theorem PhaseSound.uploading {w w' : Writer} (sound : PhaseSound cfg w)
    {waiting : List PendingChunk} {running : List Upload}
    (after : w'.phase = .uploading waiting running)
    (sidecars : ∀ stream idx, ((w.dir stream).lookup (chunkName cfg idx "meta.json")).isSome = true →
      ((w'.dir stream).lookup (chunkName cfg idx "meta.json")).isSome = true)
    (queue : ∀ chunk ∈ waiting ++ running.map Upload.chunk, chunk ∈ w.phase.queue)
    (progress : ∀ upload ∈ running, Progress w'.bucket upload) : PhaseSound cfg w' where
  queued chunk queued := by
    rw [after] at queued
    obtain ⟨idx, same, sidecar⟩ := sound.queued chunk (queue chunk queued)
    exact ⟨idx, same, sidecars _ _ sidecar⟩
  unmarked pending entries removals isSweeping := by
    rw [after] at isSweeping
    cases isSweeping
  removing pending entries removals isSweeping := by
    rw [after] at isSweeping
    cases isSweeping
  progress waiting' running' same upload member := by
    rw [after] at same
    cases same
    exact progress upload member
  down isDown := by
    rw [after] at isDown
    cases isDown

/-- A sweep ends with the uploads of what was found. -/
theorem PhaseSound.endSweep {w : Writer} (sound : PhaseSound cfg w) {pending : List PendingChunk}
    {entries removals : List (Stream × FileName)}
    (isSweeping : w.phase = .sweeping pending entries removals) :
    PhaseSound cfg { w with phase := .uploading pending [] } := by
  refine @PhaseSound.uploading cfg w _ sound pending [] rfl (fun _ _ present => present) ?_ ?_
  · intro chunk member
    rw [isSweeping]
    simpa [Phase.queue] using member
  · simp

/-- An entry of the sweep is taken up when it is a marker. -/
theorem Sound.examine {books : List Event} {w : Writer} (sound : Sound cfg books w)
    {age : Option Nat} {phase : Phase} (done : examineAct up w age = some phase) :
    Sound cfg books { w with phase } := by
  refine ⟨sound.lanes, sound.chunks, ?_, sound.ordered⟩
  rw [examineAct] at done
  split at done
  · next pending stream name entries isSweeping =>
    have skipped := @PhaseSound.sweep cfg w sound.phase pending _ _ entries [] isSweeping (.inl rfl)
    split at done
    · exact Option.some.inj done ▸ skipped
    · next text stripped =>
      split at done
      · exact Option.some.inj done ▸ sound.phase.endSweep isSweeping
      · next present =>
        split at done
        · -- the removals are those of a chunk with its marker
          obtain ⟨content, stored⟩ := Option.ne_none_iff_exists'.mp (by simpa using present)
          obtain ⟨idx, ext, isKnown, rfl⟩ := (sound.lanes stream).known name content stored
          obtain ⟨rfl, rfl⟩ := stripSuffix_uploaded isKnown stripped
          obtain rfl := Option.some.inj done
          apply sound.phase.sweep isSweeping
          refine .inr ⟨stream, idx, _, ?_, List.suffix_refl _, ?_⟩
          · exact (congrArg Option.isSome stored).trans rfl
          · simp only [siblings, List.map_map]
            apply List.map_congr_left
            intro ext member
            simp [withExtension_stem, chunkName]
        · exact Option.some.inj done ▸ skipped
  · cases done

/-- The marker goes last. -/
theorem marker_last {ext : String} {exts : List String}
    (suffix : ext :: exts <:+ ["zst", "idx", "meta.json", "uploaded"]) (unfinished : exts ≠ []) :
    ext ≠ "uploaded" := by
  rintro rfl
  simp only [List.suffix_cons_iff, List.cons.injEq, String.reduceEq, false_and, false_or, true_and,
    List.suffix_nil, reduceCtorEq, or_false] at suffix
  exact unfinished suffix

/-- A removal is that of a file of a chunk with its marker. -/
theorem Removing.first {w : Writer} {stream : Stream} {name : FileName}
    {removals : List (Stream × FileName)} (removing : Removing cfg w ((stream, name) :: removals)) :
    ∃ idx ext exts, name = chunkName cfg idx ext ∧
      removals = exts.map (fun ext => (stream, chunkName cfg idx ext)) ∧
      Marked cfg (w.dir stream) idx ∧ ext :: exts <:+ ["zst", "idx", "meta.json", "uploaded"] := by
  obtain none | ⟨stream', idx, exts, marker, suffix, same⟩ := removing
  · cases none
  · cases exts with
    | nil => cases same
    | cons ext exts =>
      obtain ⟨sameHead, sameRest⟩ := List.cons.inj same
      obtain ⟨rfl, rfl⟩ := Prod.mk.inj sameHead
      exact ⟨idx, ext, exts, rfl, sameRest, marker, suffix⟩

/-- Removing a file of a chunk with its marker keeps the invariant. -/
theorem Sound.remove (positive : 0 < cfg.slotsPerChunk) {books : List Event} {w : Writer}
    (sound : Sound cfg books w) {pending : List PendingChunk}
    {entries : List (Stream × FileName)} {stream : Stream} {idx : Nat} {ext : String}
    {exts : List String}
    (isSweeping : w.phase = .sweeping pending entries
      ((ext :: exts).map (fun ext => (stream, chunkName cfg idx ext))))
    (marker : Marked cfg (w.dir stream) idx)
    (suffix : ext :: exts <:+ ["zst", "idx", "meta.json", "uploaded"]) :
    Sound cfg books { w.onDisk stream (.remove (chunkName cfg idx ext)) with
      phase := .sweeping pending entries (exts.map (fun ext => (stream, chunkName cfg idx ext))) } := by
  have later : exts <:+ ["zst", "idx", "meta.json", "uploaded"] :=
    (List.suffix_cons ext exts).trans suffix
  have other : ∀ i, i ≠ idx → ∀ ext',
      (FileStep.apply (w.dir stream) (.remove (chunkName cfg idx ext))).lookup
        (chunkName cfg i ext') = (w.dir stream).lookup (chunkName cfg i ext') := by
    intro i distinct ext'
    rw [lookup_remove, if_neg]
    exact fun same => distinct (chunkName_injective positive same).1
  -- a chunk that was never sealed has no marker
  have new : ∀ i, sealings books stream i = [] → i ≠ idx := by
    rintro i fresh rfl
    rw [Marked, Writer.dir, ((sound.chunks stream i).never fresh).2.1] at marker
    cases marker
  have marked : ∀ i, Marked cfg
      (FileStep.apply (w.dir stream) (.remove (chunkName cfg idx ext))) i →
      Marked cfg (w.dir stream) i := by
    intro i present
    obtain ⟨content, stored⟩ := Option.isSome_iff_exists.mp present
    exact Option.isSome_iff_exists.mpr ⟨content, lookup_removed stored⟩
  obtain ⟨lanes, chunks⟩ := @Sound.disk cfg books w sound stream (.remove (chunkName cfg idx ext))
    (fun asked content stored => (sound.lanes stream).known asked content (lookup_removed stored))
    (fun _ _ _ _ stored => lookup_removed stored)
    (fun i fresh => by
      rw [other i (new i fresh)]
      exact ((sound.chunks stream i).never fresh).2.1)
    (fun job _ fresh ext' _ => other job.idx (new job.idx fresh) ext')
    (fun i present => (sound.chunks stream i).marked (marked i present))
  refine ⟨lanes, chunks, ⟨?_, ?_, ?_, ?_, ?_⟩, sound.ordered⟩
  · intro chunk queued
    have before : chunk ∈ w.phase.queue := by
      rw [isSweeping]
      exact queued
    obtain ⟨i, same, sidecar⟩ := sound.phase.queued chunk before
    refine ⟨i, same, ?_⟩
    simp only [dir_phase, Writer.onDisk, dir_withLane]
    split
    · next sameStream =>
      have distinct : i ≠ idx := by
        rintro rfl
        apply sound.phase.unmarked _ _ _ isSweeping stream i
        · rw [← sameStream, ← same]
          exact queued
        · exact marker
      rw [sameStream] at sidecar
      exact (congrArg Option.isSome (other i distinct "meta.json")).trans sidecar
    · exact sidecar
  · intro _ _ _ same stream' i member
    cases same
    simp only [dir_phase, Writer.onDisk, dir_withLane]
    split
    · next sameStream =>
      subst sameStream
      exact fun present => sound.phase.unmarked _ _ _ isSweeping stream' i member (marked i present)
    · exact sound.phase.unmarked _ _ _ isSweeping stream' i member
  · intro _ _ _ same
    cases same
    by_cases finished : exts = []
    · exact .inl (by rw [finished]; rfl)
    · refine .inr ⟨stream, idx, exts, ?_, later, rfl⟩
      simp only [dir_phase, Writer.onDisk, dir_withLane, if_true]
      have kept : chunkName cfg idx "uploaded" ≠ chunkName cfg idx ext :=
        fun same => marker_last suffix finished (chunkName_injective positive same).2.symm
      rw [Marked, lookup_remove, if_neg kept]
      exact marker
  · intro _ _ same
    cases same
  · intro same
    cases same

/-- A chunk whose sidecar is there has been sealed. -/
theorem Sound.sealedOnce {books : List Event} {w : Writer} (sound : Sound cfg books w)
    {stream : Stream} {idx : Nat}
    (sidecar : ((w.dir stream).lookup (chunkName cfg idx "meta.json")).isSome = true) :
    sealings books stream idx ≠ [] := by
  intro fresh
  rw [Writer.dir, ((sound.chunks stream idx).never fresh).1] at sidecar
  cases sidecar

/-- Storing a file of a chunk with its sidecar keeps the invariant of the objects, when the
sidecar itself comes last. -/
theorem Sound.put (positive : 0 < cfg.slotsPerChunk) {books : List Event} {w : Writer}
    (sound : Sound cfg books w) {stream : Stream} {idx : Nat} {ext : String} {content : Bytes}
    (sidecar : ((w.dir stream).lookup (chunkName cfg idx "meta.json")).isSome = true)
    (final : ext ∈ finalExtensions)
    (stored : (w.dir stream).lookup (chunkName cfg idx ext) = some content)
    (earlier : ext = "meta.json" → ∀ ext' ∈ finalExtensions, ext' ≠ ext →
      (w.bucket.lookup (objectOf cfg stream idx ext')).isSome = true) :
    (∀ other i, ChunkSound cfg other (sealings books other i) (w.lanes other)
      (w.bucket.insert (objectOf cfg stream idx ext) content) i) ∧
    Ordered (w.bucket.insert (objectOf cfg stream idx ext) content) := by
  have grows : ∀ key, (w.bucket.lookup key).isSome = true →
      ((w.bucket.insert (objectOf cfg stream idx ext) content).lookup key).isSome = true := by
    intro key present
    rw [lookup_put]
    split
    · rfl
    · exact present
  constructor
  · intro other i
    have chunk := sound.chunks other i
    refine ⟨?_, chunk.sealing, chunk.copies, ?_, ?_⟩
    · intro fresh
      refine ⟨(chunk.never fresh).1, (chunk.never fresh).2.1, ?_⟩
      intro ext' final'
      rw [lookup_put, if_neg]
      · exact (chunk.never fresh).2.2 ext' final'
      · intro same
        obtain ⟨rfl, starts, -, -⟩ := objectKey_injective same
        obtain rfl := Nat.eq_of_mul_eq_mul_right positive starts
        exact sound.sealedOnce sidecar fresh
    · intro files once ext' final' content' found
      rw [lookup_put] at found
      split at found
      · next same =>
        obtain ⟨rfl, starts, -, rfl⟩ := objectKey_injective same
        obtain rfl := Nat.eq_of_mul_eq_mul_right positive starts
        obtain rfl := Option.some.inj found
        exact chunk.copies files once sidecar ext' final' _ stored
      · exact chunk.objects files once ext' final' content' found
    · exact fun marker ext' final' => grows _ (chunk.marked marker ext' final')
  · intro other start stop present ext' final'
    rw [lookup_put] at present
    split at present
    · next same =>
      obtain ⟨rfl, rfl, rfl, rfl⟩ := objectKey_injective same
      by_cases isLast : ext' = "meta.json"
      · subst isLast
        rw [lookup_put, if_pos same]
        rfl
      · exact grows _ (earlier rfl ext' final' isLast)
    · exact grows _ (sound.ordered other start stop present ext' final')

/-- The disk steps of an upload come after its puts, and there are two of them. -/
theorem uploadChunk_onDisk {chunk : PendingChunk} {past later : List UploadStep} {step : FileStep}
    (same : uploadChunk chunk = past ++ .onDisk step :: later) :
    (∀ ext ∈ finalExtensions, .put ext ∈ past) ∧
      (step = .create (withExtension chunk.base "uploaded.partial") ∨
        step = .rename (withExtension chunk.base "uploaded.partial")
          (withExtension chunk.base "uploaded")) := by
  obtain _ | ⟨first, _ | ⟨second, _ | ⟨third, past⟩⟩⟩ := past
  · simp [uploadChunk] at same
  · simp [uploadChunk] at same
  · simp [uploadChunk] at same
  · simp only [uploadChunk, List.map_cons, List.map_nil, List.cons_append, List.nil_append,
      List.cons.injEq] at same
    obtain ⟨rfl, rfl, rfl, same⟩ := same
    refine ⟨by simp [finalExtensions], ?_⟩
    obtain _ | ⟨fourth, past⟩ := past
    · exact .inl (by simpa using (List.cons.inj same).1.symm)
    · obtain _ | ⟨fifth, past⟩ := past
      · simp only [List.cons_append, List.nil_append, List.cons.injEq, UploadStep.onDisk.injEq]
          at same
        exact .inr same.2.1.symm
      · simp at same

/-- The sidecar is put after its siblings. -/
theorem uploadChunk_put {chunk : PendingChunk} {past later : List UploadStep} {ext : String}
    (same : uploadChunk chunk = past ++ .put ext :: later) :
    ext ∈ finalExtensions ∧
      (ext = "meta.json" → ∀ ext' ∈ finalExtensions, ext' ≠ ext → .put ext' ∈ past) := by
  obtain _ | ⟨first, _ | ⟨second, _ | ⟨third, past⟩⟩⟩ := past
  · simp only [uploadChunk, List.map_cons, List.cons_append, List.nil_append, List.cons.injEq,
      UploadStep.put.injEq] at same
    obtain rfl := same.1
    simp [finalExtensions]
  · simp only [uploadChunk, List.map_cons, List.cons_append, List.nil_append, List.cons.injEq,
      UploadStep.put.injEq] at same
    obtain rfl := same.2.1
    simp [finalExtensions]
  · simp only [uploadChunk, List.map_cons, List.map_nil, List.cons_append, List.nil_append,
      List.cons.injEq, UploadStep.put.injEq] at same
    obtain ⟨rfl, rfl, rfl, -⟩ := same
    simp [finalExtensions]
  · simp only [uploadChunk, List.map_cons, List.map_nil, List.cons_append, List.nil_append,
      List.cons.injEq] at same
    obtain ⟨-, -, -, same⟩ := same
    obtain _ | ⟨fourth, _ | ⟨fifth, past⟩⟩ := past <;> simp at same

/-- The uploads go on with some of those that ran before, and with one of the same chunk
that has made its progress. -/
theorem PhaseSound.upload {w w' : Writer} (sound : PhaseSound cfg w)
    {waiting : List PendingChunk} {running running' : List Upload} {upload : Upload}
    (isUploading : w.phase = .uploading waiting running) (member : upload ∈ running)
    (after : w'.phase = .uploading waiting running')
    (sidecars : ∀ stream idx, ((w.dir stream).lookup (chunkName cfg idx "meta.json")).isSome = true →
      ((w'.dir stream).lookup (chunkName cfg idx "meta.json")).isSome = true)
    (grows : ∀ key, (w.bucket.lookup key).isSome = true → (w'.bucket.lookup key).isSome = true)
    (goesOn : ∀ other ∈ running', other ∈ running ∨
      other.chunk = upload.chunk ∧ Progress w'.bucket other) : PhaseSound cfg w' := by
  apply sound.uploading after sidecars
  · intro chunk queued
    rw [isUploading]
    rcases List.mem_append.mp queued with waits | runs
    · exact List.mem_append_left _ waits
    · obtain ⟨other, among, rfl⟩ := List.mem_map.mp runs
      apply List.mem_append_right
      rcases goesOn other among with ran | ⟨same, -⟩
      · exact List.mem_map_of_mem ran
      · exact same ▸ List.mem_map_of_mem member
  · intro other among
    rcases goesOn other among with ran | ⟨-, progress⟩
    · obtain ⟨past, same, put⟩ := sound.progress waiting running isUploading other ran
      exact ⟨past, same, fun ext before => grows _ (put ext before)⟩
    · exact progress

/-- An upload behind a step is the one that took it, or one of the others. -/
theorem mem_set_or {running : List Upload} {task : Nat} {upload other : Upload}
    (member : other ∈ running.set task upload) : other ∈ running ∨ other = upload :=
  List.mem_or_eq_of_mem_set member

/-- A file step of an upload touches the marker of its chunk, or the temporary file of the
marker, after all three puts. -/
theorem upload_onDisk {w : Writer} (sound : PhaseSound cfg w) {waiting : List PendingChunk}
    {running : List Upload} {upload : Upload} {step : FileStep} {later : List UploadStep}
    (isUploading : w.phase = .uploading waiting running) (member : upload ∈ running)
    (isNext : upload.rest = .onDisk step :: later) :
    ∃ idx, ((w.dir upload.chunk.stream).lookup (chunkName cfg idx "meta.json")).isSome = true ∧
      Archived cfg w.bucket upload.chunk.stream idx ∧
      ∀ name ∈ step.touches, ∃ ext ∈ ["uploaded.partial", "uploaded"], name = chunkName cfg idx ext := by
  obtain ⟨past, split, put⟩ := sound.progress waiting running isUploading upload member
  rw [isNext] at split
  obtain ⟨puts, isStep⟩ := uploadChunk_onDisk split
  obtain ⟨idx, same, sidecar⟩ := sound.queued upload.chunk (by
    rw [isUploading]
    exact List.mem_append_right _ (List.mem_map_of_mem member))
  refine ⟨idx, sidecar, ?_, ?_⟩
  · intro ext final
    have present := put ext (puts ext final)
    rw [same] at present
    exact present
  · intro name among
    rw [same] at isStep
    simp only [withExtension_pending] at isStep
    rcases isStep with rfl | rfl
    · exact ⟨_, by decide, List.mem_singleton.mp among⟩
    · rcases List.mem_cons.mp among with isFirst | isSecond
      · exact ⟨_, by decide, isFirst⟩
      · exact ⟨_, by decide, List.mem_singleton.mp isSecond⟩

/-- A step on the marker of a chunk leaves the other files alone. -/
theorem lookup_marking (positive : 0 < cfg.slotsPerChunk) {dir : Dir} {step : FileStep} {idx : Nat}
    (touched : ∀ name ∈ step.touches,
      ∃ ext ∈ ["uploaded.partial", "uploaded"], name = chunkName cfg idx ext)
    {i : Nat} {ext : String} (apart : i ≠ idx ∨ ext ∉ ["uploaded.partial", "uploaded"]) :
    (FileStep.apply dir step).lookup (chunkName cfg i ext) = dir.lookup (chunkName cfg i ext) := by
  apply lookup_untouched
  intro among
  obtain ⟨ext', listed, named⟩ := touched _ among
  obtain ⟨sameIdx, sameExt⟩ := chunkName_injective positive named
  rcases apart with distinct | foreign
  · exact distinct sameIdx
  · exact foreign (sameExt ▸ listed)

/-- A step of an upload leaves the directories as they are, or changes one of them without
touching a file of a chunk's trio. -/
theorem uploadAct_lanes (positive : 0 < cfg.slotsPerChunk) {up : UploaderConfig} {w w' : Writer}
    (sound : PhaseSound cfg w) {waiting : List PendingChunk} {running : List Upload} {task : Nat}
    {result : PutResult} {events : List Event} (isUploading : w.phase = .uploading waiting running)
    (done : uploadAct up w waiting running task result = some (events, w')) :
    w'.lanes = w.lanes ∨ ∃ own step, w'.lanes = (w.onDisk own step).lanes ∧
      ∀ i, ∀ ext ∈ finalExtensions,
        (FileStep.apply (w.dir own) step).lookup (chunkName cfg i ext) =
          (w.dir own).lookup (chunkName cfg i ext) := by
  obtain ⟨upload, found, done⟩ := Option.bind_eq_some_iff.mp done
  split at done
  · obtain ⟨-, rfl⟩ := Prod.mk.inj (Option.some.inj done)
    exact .inl rfl
  · next step later isNext =>
    obtain ⟨-, rfl⟩ := Prod.mk.inj (Option.some.inj done)
    obtain ⟨own, -, -, touched⟩ :=
      upload_onDisk sound isUploading (List.mem_of_getElem? found) isNext
    have unmarked : ∀ ext ∈ finalExtensions, ext ∉ ["uploaded.partial", "uploaded"] := by decide
    exact .inr ⟨upload.chunk.stream, step, rfl,
      fun i ext final => lookup_marking positive touched (.inr (unmarked ext final))⟩
  · dsimp only at done
    repeat' split at done
    all_goals
      obtain ⟨-, rfl⟩ := Prod.mk.inj (Option.some.inj done)
      exact .inl rfl

/-- A file step of an upload keeps the invariant. -/
theorem Sound.uploadOnDisk (positive : 0 < cfg.slotsPerChunk) {books : List Event} {w : Writer}
    (sound : Sound cfg books w) {waiting : List PendingChunk} {running : List Upload} {task : Nat}
    {upload : Upload} {step : FileStep} {later : List UploadStep}
    (isUploading : w.phase = .uploading waiting running) (found : running[task]? = some upload)
    (isNext : upload.rest = .onDisk step :: later) :
    Sound cfg books { w.onDisk upload.chunk.stream step with
      phase := .uploading waiting (running.set task { upload with rest := later }) } := by
  have member := List.mem_of_getElem? found
  obtain ⟨past, split, put⟩ := sound.phase.progress waiting running isUploading upload member
  rw [isNext] at split
  obtain ⟨idx, sidecar, archived, touched⟩ := upload_onDisk sound.phase isUploading member isNext
  have other : ∀ i ext, i ≠ idx ∨ ext ∉ ["uploaded.partial", "uploaded"] →
      (FileStep.apply (w.dir upload.chunk.stream) step).lookup (chunkName cfg i ext) =
        (w.dir upload.chunk.stream).lookup (chunkName cfg i ext) :=
    fun _ _ apart => lookup_marking positive touched apart
  obtain ⟨lanes, chunks⟩ := @Sound.disk cfg books w sound upload.chunk.stream step
    (known_apply (sound.lanes upload.chunk.stream).known (fun name among => by
      obtain ⟨ext, listed, named⟩ := touched name among
      exact ⟨idx, ext, (show ∀ ext ∈ ["uploaded.partial", "uploaded"], ext ∈ knownExtensions by
        decide) ext listed, named⟩))
    (fun i ext final content stored => by
      rwa [other i ext (.inr ((show ∀ ext ∈ finalExtensions,
        ext ∉ ["uploaded.partial", "uploaded"] by decide) ext final))] at stored)
    (fun i fresh => by
      have distinct : i ≠ idx := by
        rintro rfl
        exact sound.sealedOnce sidecar fresh
      rw [other i "uploaded" (.inl distinct)]
      exact ((sound.chunks upload.chunk.stream i).never fresh).2.1)
    (fun job _ _ ext listed => other job.idx ext (.inr ((show ∀ ext ∈ sealExtensions,
      ext ∉ ["uploaded.partial", "uploaded"] by decide) ext listed)))
    (fun i marker => by
      by_cases own : i = idx
      · exact own ▸ archived
      · rw [Marked, other i "uploaded" (.inl own)] at marker
        exact (sound.chunks upload.chunk.stream i).marked marker)
  refine ⟨lanes, chunks, ?_, sound.ordered⟩
  refine @PhaseSound.upload cfg w _ sound.phase waiting running _ upload isUploading member rfl ?_
    (fun _ present => present) ?_
  · intro stream' i present
    simp only [dir_phase, Writer.onDisk, dir_withLane]
    split
    · next sameStream =>
      subst sameStream
      exact (congrArg Option.isSome (other i "meta.json" (.inr (by decide)))).trans present
    · exact present
  · intro next among
    rcases mem_set_or among with ran | rfl
    · exact .inl ran
    · refine .inr ⟨rfl, past ++ [.onDisk step], ?_, ?_⟩
      · rw [split, List.append_assoc]
        rfl
      · intro ext before
        exact put ext (by simpa using before)

/-- An attempt at a put goes on with the same chunk: behind the put if it succeeded, else
with the put again. -/
theorem retry_some {upload next : Upload} {later : List UploadStep} {succeeded : Bool}
    (goesOn : upload.retry up later succeeded = some next) :
    next.chunk = upload.chunk ∧
      (succeeded = true ∧ next.rest = later ∨ next.rest = upload.rest) := by
  rw [Upload.retry] at goesOn
  split at goesOn
  · next done =>
    obtain rfl := Option.some.inj goesOn
    exact ⟨rfl, .inl ⟨done, rfl⟩⟩
  · split at goesOn
    · obtain rfl := Option.some.inj goesOn
      exact ⟨rfl, .inr rfl⟩
    · cases goesOn

/-- A put stores the file or nothing, and succeeds only if it has stored it. -/
theorem putFile_stores (file : Option Bytes) (result : PutResult) :
    (∀ content, (putFile file result).1 = some content → file = some content) ∧
      ((putFile file result).2 = true → (putFile file result).1.isSome = true) := by
  cases file with
  | none => simp [putFile]
  | some content => cases result <;> simp [putFile]

/-- The uploads behind an attempt at a put are those before it, but for the one that made
the attempt, which has made its progress. -/
theorem progress_retry {bucket : Bucket} {running : List Upload} {task : Nat} {upload : Upload}
    {ext : String} {past later : List UploadStep} {succeeded : Bool}
    (split : uploadChunk upload.chunk = past ++ upload.rest) (isNext : upload.rest = .put ext :: later)
    (put : ∀ ext, .put ext ∈ past → (bucket.lookup (objectKey upload.chunk.stream
      upload.chunk.startSlot upload.chunk.endSlot ext)).isSome = true)
    (stored : succeeded = true → (bucket.lookup (objectKey upload.chunk.stream
      upload.chunk.startSlot upload.chunk.endSlot ext)).isSome = true) :
    ∀ other ∈ (match upload.retry up later succeeded with
        | some upload => running.set task upload
        | none => running.eraseIdx task),
      other ∈ running ∨ other.chunk = upload.chunk ∧ Progress bucket other := by
  intro other among
  cases goesOn : upload.retry up later succeeded with
  | none =>
    rw [goesOn] at among
    exact .inl (List.mem_of_mem_eraseIdx among)
  | some next =>
    rw [goesOn] at among
    rcases mem_set_or among with ran | rfl
    · exact .inl ran
    · obtain ⟨sameChunk, rest⟩ := retry_some goesOn
      refine .inr ⟨sameChunk, ?_⟩
      rw [Progress, sameChunk]
      rcases rest with ⟨done, rest⟩ | rest
      · refine ⟨past ++ [.put ext], ?_, ?_⟩
        · rw [split, isNext, rest, List.append_assoc]
          rfl
        · intro ext' before
          rcases List.mem_append.mp before with earlier | isThis
          · exact put ext' earlier
          · cases List.mem_singleton.mp isThis
            exact stored done
      · exact ⟨past, rest ▸ split, put⟩

/-- An attempt at a put keeps the invariant, however it ends. -/
theorem Sound.uploadPut (positive : 0 < cfg.slotsPerChunk) {books : List Event} {w : Writer}
    (sound : Sound cfg books w) {waiting : List PendingChunk} {running running' : List Upload}
    {upload : Upload} {idx : Nat} {ext : String} {stored : Option Bytes}
    (isUploading : w.phase = .uploading waiting running) (member : upload ∈ running)
    (sidecar : ((w.dir upload.chunk.stream).lookup (chunkName cfg idx "meta.json")).isSome = true)
    (final : ext ∈ finalExtensions)
    (earlier : ext = "meta.json" → ∀ ext' ∈ finalExtensions, ext' ≠ ext →
      (w.bucket.lookup (objectOf cfg upload.chunk.stream idx ext')).isSome = true)
    (stores : ∀ content, stored = some content →
      (w.dir upload.chunk.stream).lookup (chunkName cfg idx ext) = some content)
    {bucket : Bucket} (isBucket : bucket = stored.elim w.bucket
      (fun content => w.bucket.insert (objectOf cfg upload.chunk.stream idx ext) content))
    (goesOn : ∀ other ∈ running', other ∈ running ∨
      other.chunk = upload.chunk ∧ Progress bucket other) :
    Sound cfg books { w with bucket, phase := .uploading waiting running' } := by
  subst isBucket
  have grows : ∀ key, (w.bucket.lookup key).isSome = true → ((stored.elim w.bucket
      (fun content => w.bucket.insert (objectOf cfg upload.chunk.stream idx ext) content)).lookup
        key).isSome = true := by
    intro key present
    cases stored with
    | none => exact present
    | some content =>
      rw [Option.elim_some, lookup_put]
      split
      · rfl
      · exact present
  have phase : PhaseSound cfg { w with
      bucket := stored.elim w.bucket
        (fun content => w.bucket.insert (objectOf cfg upload.chunk.stream idx ext) content)
      phase := .uploading waiting running' } :=
    @PhaseSound.upload cfg w _ sound.phase waiting running _ upload isUploading member rfl
      (fun _ _ present => present) grows goesOn
  cases stored with
  | none => exact ⟨sound.lanes, sound.chunks, phase, sound.ordered⟩
  | some content =>
    obtain ⟨chunks, ordered⟩ := sound.put positive sidecar final (stores content rfl) earlier
    exact ⟨sound.lanes, chunks, phase, ordered⟩

/-- A step of an upload keeps the system sound: it puts what was sealed, and marks what has been
put. -/
theorem Sound.uploadAct (positive : 0 < cfg.slotsPerChunk) {books more : List Event}
    {w w' : Writer} (sound : Sound cfg books w) {waiting : List PendingChunk}
    {running : List Upload} {task : Nat} {result : PutResult}
    (isUploading : w.phase = .uploading waiting running)
    (done : Uploader.uploadAct up w waiting running task result = some (more, w')) :
    Sound cfg (books ++ more) w' := by
  obtain ⟨upload, found, done⟩ := Option.bind_eq_some_iff.mp done
  have member := List.mem_of_getElem? found
  have ended : Sound cfg books { w with phase := .uploading waiting (running.eraseIdx task) } := by
    refine ⟨sound.lanes, sound.chunks, ?_, sound.ordered⟩
    exact @PhaseSound.upload cfg w _ sound.phase waiting running _ upload isUploading member rfl
      (fun _ _ present => present) (fun _ present => present)
      (fun other among => .inl (List.mem_of_mem_eraseIdx among))
  obtain ⟨past, split, put⟩ := sound.phase.progress waiting running isUploading upload member
  obtain ⟨idx, same, sidecar⟩ := sound.phase.queued upload.chunk (by
    rw [isUploading]
    exact List.mem_append_right _ (List.mem_map_of_mem member))
  split at done
  · obtain ⟨rfl, rfl⟩ := Prod.mk.inj (Option.some.inj done)
    rw [List.append_nil]
    exact ended
  · next step later isNext =>
    obtain ⟨rfl, rfl⟩ := Prod.mk.inj (Option.some.inj done)
    rw [List.append_nil]
    exact sound.uploadOnDisk positive isUploading found isNext
  · next ext later isNext =>
    dsimp only at done
    split at done
    · rw [isNext] at split
      obtain ⟨final, sidecarLast⟩ := uploadChunk_put split
      have fileName : withExtension upload.chunk.base ext = chunkName cfg idx ext := by
        rw [same, withExtension_pending]
      have keyName : objectKey upload.chunk.stream upload.chunk.startSlot upload.chunk.endSlot ext =
          objectOf cfg upload.chunk.stream idx ext := by
        rw [same]
        rfl
      rw [fileName] at done
      obtain ⟨stores, succeeds⟩ :=
        putFile_stores ((w.dir upload.chunk.stream).lookup (chunkName cfg idx ext)) result
      cases outcome : putFile ((w.dir upload.chunk.stream).lookup (chunkName cfg idx ext)) result with
      | mk stored succeeded =>
      rw [outcome] at done stores succeeds
      dsimp only at done stores succeeds
      have earlier : ext = "meta.json" → ∀ ext' ∈ finalExtensions, ext' ≠ ext →
          (w.bucket.lookup (objectOf cfg upload.chunk.stream idx ext')).isSome = true := by
        intro isLast ext' final' distinct
        have present := put ext' (sidecarLast isLast ext' final' distinct)
        rw [same] at present
        exact present
      cases stored with
      | none =>
        obtain ⟨rfl, rfl⟩ := Prod.mk.inj (Option.some.inj done)
        rw [List.append_nil]
        refine sound.uploadPut positive isUploading member sidecar final earlier stores rfl ?_
        exact progress_retry (isNext ▸ split) isNext put (fun done => by cases succeeds done)
      | some content =>
        obtain ⟨rfl, rfl⟩ := Prod.mk.inj (Option.some.inj done)
        apply Sound.note (fun _ _ => rfl)
        refine sound.uploadPut positive isUploading member sidecar final earlier stores
          (by rw [keyName]; rfl) ?_
        apply progress_retry (isNext ▸ split) isNext
        · intro ext' before
          rw [lookup_put]
          split
          · rfl
          · exact put ext' before
        · intro _
          rw [lookup_put, if_pos rfl]
          rfl
    · obtain ⟨rfl, rfl⟩ := Prod.mk.inj (Option.some.inj done)
      rw [List.append_nil]
      exact ended

end Sillage.Uploader
