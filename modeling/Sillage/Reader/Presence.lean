import Sillage.Reader.Sync

/-!
# Which files of a chunk are present

The sidecar is the last of a chunk's files to be downloaded, so that it stands for the
whole chunk; it is also the last to be removed. A download keeps the promise at every
step. A sweep breaks it between the first and the last removal of a chunk, which is
what a crash can leave behind, or the failure of a removal.
-/

namespace Sillage

open LittleEndian Directory Names

namespace ChunkKey

/-- Files of a chunk are told apart by their extension. -/
@[simp] theorem file_ext (key : ChunkKey) {ext ext' : String} :
    key.file ext = key.file ext' ↔ ext = ext' :=
  ⟨fun same => (chunkFile_injective same).2.2, fun same => same ▸ rfl⟩

/-- Files of different chunks of a stream have different names. -/
theorem file_injective {key other : ChunkKey} (sameStream : key.stream = other.stream)
    {ext ext' : String} (same : key.file ext = other.file ext') : key = other := by
  obtain ⟨starts, ends, -⟩ := chunkFile_injective same
  cases key
  cases other
  simp_all

/-- The sidecar of a chunk is read as that chunk or not at all. -/
theorem ofSidecar_sidecar {stream : Stream} {key other : ChunkKey}
    (read : ofSidecar stream (key.file "meta.json") = some other) :
    other = ⟨stream, key.startSlot, key.endSlot⟩ := by
  simp only [ofSidecar, file, chunkFile_meta, stripSuffix_append, splitOnce_stem,
    Option.bind_eq_bind, Option.bind_some, Option.bind_eq_some_iff] at read
  obtain ⟨start, parsedStart, stop, parsedStop, same⟩ := read
  rw [← Option.some.inj same, parseU64_padded_eq parsedStart, parseU64_padded_eq parsedStop]

/-- A sidecar is of a chunk of the stream in whose directory it lies. -/
theorem ofSidecar_stream {stream : Stream} {name : FileName} {key : ChunkKey}
    (read : ofSidecar stream name = some key) : key.stream = stream := by
  simp only [ofSidecar, Option.bind_eq_bind, Option.bind_eq_some_iff] at read
  obtain ⟨stem, -, parts, -, start, -, stop, -, same⟩ := read
  exact Option.some.inj same ▸ rfl

end ChunkKey

namespace Sync

/-- A name has a file. -/
def Present (dir : Dir) (name : FileName) : Prop := (dir.lookup name).isSome = true

/-- Whether a file is there can be looked up. -/
instance (dir : Dir) (name : FileName) : Decidable (Present dir name) :=
  inferInstanceAs (Decidable ((dir.lookup name).isSome = true))

/-- A list of changes acts on each directory by its own part. -/
theorem performOn_at (files : Files) (steps : List (Stream × FileStep)) (stream : Stream) :
    performOn files steps stream =
      perform (files stream) ((steps.filter (fun step => step.1 = stream)).map Prod.snd) := by
  induction steps generalizing files with
  | nil => rfl
  | cons step rest inductionHypothesis =>
    rw [performOn, List.foldl_cons, ← performOn, inductionHypothesis]
    by_cases here : step.1 = stream
    · subst here
      simp [applyOn, perform]
    · simp [applyOn, perform, here, Function.update_of_ne (Ne.symm here)]

/-- Changes are made one after the other. -/
theorem performOn_append (files : Files) (first second : List (Stream × FileStep)) :
    performOn files (first ++ second) = performOn (performOn files first) second := by
  rw [performOn, List.foldl_append, ← performOn, ← performOn]

/-- Changes of one stream's directory. -/
theorem performOn_own (files : Files) (stream : Stream) (steps : List FileStep) :
    performOn files (steps.map (fun step => (stream, step))) stream =
      perform (files stream) steps := by
  rw [performOn_at]
  congr 1
  simp [List.filter_map, Function.comp_def]

/-- Changes of one stream's directory leave the others alone. -/
theorem performOn_other (files : Files) {stream other : Stream} (distinct : other ≠ stream)
    (steps : List FileStep) :
    performOn files (steps.map (fun step => (stream, step))) other = files other := by
  rw [performOn_at]
  simp [List.filter_map, Function.comp_def, Ne.symm distinct, perform]

/-- A prefix of two lists one after the other. -/
theorem performCut_append (dir : Dir) (first second : List FileStep) (cut : Nat) :
    performCut dir (first ++ second) cut =
      performCut (performCut dir first cut) second (cut - first.length) := by
  rw [performCut, List.take_append, perform, List.foldl_append, ← perform, ← perform]
  rfl

/-- Some steps do not take a name away. -/
def Keeps (name : FileName) : FileStep → Prop
  | .rename source _ => source ≠ name
  | .remove removed => removed ≠ name
  | _ => True

/-- Whether a change leaves a name alone is a comparison of names. -/
instance (name : FileName) : (step : FileStep) → Decidable (Keeps name step)
  | .create _ => isTrue trivial
  | .write _ _ => isTrue trivial
  | .rename source _ => inferInstanceAs (Decidable (source ≠ name))
  | .remove removed => inferInstanceAs (Decidable (removed ≠ name))

/-- A file stays as long as no change takes it away. -/
theorem present_perform {dir : Dir} {name : FileName} {steps : List FileStep}
    (present : Present dir name) (keeps : ∀ step ∈ steps, Keeps name step) :
    Present (perform dir steps) name := by
  induction steps generalizing dir with
  | nil => exact present
  | cons step rest inductionHypothesis =>
    obtain ⟨first, later⟩ := List.forall_mem_cons.mp keeps
    suffices here : Present (FileStep.apply dir step) name from inductionHypothesis here later
    cases step with
    | create other =>
      rw [Present, lookup_create]
      split
      · rfl
      · exact present
    | write other content =>
      rw [Present, lookup_write]
      split
      · rfl
      · exact present
    | remove other =>
      rw [Present, lookup_remove, if_neg (Ne.symm first)]
      exact present
    | rename source target =>
      rw [Present, lookup_renamed]
      split
      · split
        · rfl
        · rw [if_neg (Ne.symm first)]
          exact present
      · exact present

/-- A temporary name ends in the last letter of its suffix. -/
theorem not_partialSuffix_of_last {name : FileName} {last : Char}
    (ends : name.getLast? = some last) (other : last ≠ 'l') : ¬ partialSuffix <:+ name := by
  rintro ⟨text, rfl⟩
  rw [List.getLast?_append, show partialSuffix.getLast? = some 'l' by decide, Option.some_or] at ends
  exact other (Option.some.inj ends).symm

/-- A name with another end is not that of a temporary file. -/
theorem not_partialSuffix_append (text : FileName) {suffix : FileName} {last : Char}
    (ends : suffix.getLast? = some last) (other : last ≠ 'l') :
    ¬ partialSuffix <:+ text ++ suffix := by
  apply not_partialSuffix_of_last _ other
  rw [List.getLast?_append, ends, Option.some_or]

/-- A name with a final extension is no temporary name. -/
theorem not_partialSuffix (key : ChunkKey) {ext : String} (final : ext ∈ trio) :
    ¬ partialSuffix <:+ key.file ext := by
  simp only [trio, List.mem_cons, List.not_mem_nil, or_false] at final
  rcases final with rfl | rfl | rfl
  · exact not_partialSuffix_of_last (chunkFile_last _ _ (show _ = some 't' from rfl)) (by decide)
  · exact not_partialSuffix_of_last (chunkFile_last _ _ (show _ = some 'x' from rfl)) (by decide)
  · exact not_partialSuffix_of_last (chunkFile_last _ _ (show _ = some 'n' from rfl)) (by decide)

/-! ## Downloads -/

/-- A step of a file's download fills its temporary file, or gives it its final name. -/
theorem mem_fetchSteps {key : ChunkKey} {ext : String} {fetch : Fetch} {step : FileStep}
    (member : step ∈ fetchSteps key ext fetch) :
    (step = .create (key.file (ext ++ ".partial")) ∨
      ∃ content, step = .write (key.file (ext ++ ".partial")) content) ∨
    (∃ content, fetch.ending = .lands content) ∧
      step = .rename (key.file (ext ++ ".partial")) (key.file ext) := by
  have fill : ∀ content, step ∈ fillSteps (key.file (ext ++ ".partial")) content →
      step = .create (key.file (ext ++ ".partial")) ∨
        ∃ content, step = .write (key.file (ext ++ ".partial")) content := by
    intro content filled
    rcases List.mem_cons.mp filled with creates | writes
    · exact .inl creates
    · exact .inr ⟨content, List.mem_singleton.mp writes⟩
  rw [fetchSteps, List.mem_append] at member
  rcases member with attempt | last
  · obtain ⟨content, -, filled⟩ := List.mem_flatMap.mp attempt
    exact .inl (fill content filled)
  · cases ends : fetch.ending with
    | fetchFails =>
      rw [ends] at last
      cases last
    | renameFails content =>
      rw [ends] at last
      exact .inl (fill content last)
    | lands content =>
      rw [ends, List.mem_append, List.mem_singleton] at last
      rcases last with filled | renames
      · exact .inl (fill content filled)
      · exact .inr ⟨⟨content, rfl⟩, renames⟩

/-- The steps of a file's download touch its temporary and its final name. -/
theorem fetchSteps_touches {key : ChunkKey} {ext : String} {fetch : Fetch} {step : FileStep}
    (member : step ∈ fetchSteps key ext fetch) :
    (∀ name ∈ step.touches, name = key.file (ext ++ ".partial") ∨ name = key.file ext) ∧
      Keeps (key.file ext) step := by
  rcases mem_fetchSteps member with (rfl | ⟨content, rfl⟩) | ⟨-, rfl⟩
  · simp [FileStep.touches, Keeps]
  · simp [FileStep.touches, Keeps]
  · have longer : (ext ++ ".partial").length ≠ ext.length := by simp [String.length_append]
    exact ⟨by simp [FileStep.touches], fun same => longer (by rw [(key.file_ext).mp same])⟩

/-- A file's download, cut off anywhere, leaves every other final file alone. -/
theorem lookup_fetch (dir : Dir) (key : ChunkKey) (ext : String) (fetch : Fetch) (cut : Nat)
    {name : FileName} (notTemporary : name ≠ key.file (ext ++ ".partial"))
    (notFinal : name ≠ key.file ext) :
    (performCut dir (fetchSteps key ext fetch) cut).lookup name = dir.lookup name := by
  apply perform_untouched
  intro step member touched
  rcases (fetchSteps_touches (List.mem_of_mem_take member)).1 name touched with same | same
  · exact notTemporary same
  · exact notFinal same

/-- A file that is there stays there. -/
theorem present_fetch {dir : Dir} {key : ChunkKey} {ext : String} (fetch : Fetch) (cut : Nat)
    (present : Present dir (key.file ext)) :
    Present (performCut dir (fetchSteps key ext fetch) cut) (key.file ext) :=
  present_perform present
    (fun _ member => (fetchSteps_touches (List.mem_of_mem_take member)).2)

/-- A landed file is there. -/
theorem lookup_landed (dir : Dir) (key : ChunkKey) {ext : String} {fetch : Fetch} {content : Bytes}
    (lands : fetch.ending = .lands content) {cut : Nat}
    (whole : (fetchSteps key ext fetch).length ≤ cut) :
    (performCut dir (fetchSteps key ext fetch) cut).lookup (key.file ext) = some content := by
  rw [performCut_all _ _ _ whole]
  simp only [fetchSteps, lands, perform, List.foldl_append, List.foldl_cons, List.foldl_nil,
    fillSteps]
  rw [lookup_rename _ _ _ _ content]
  · rw [if_pos rfl]
  · rw [lookup_write, if_pos rfl]

/-- A chunk whose sidecar is there is whole. -/
def Whole (dir : Dir) (key : ChunkKey) : Prop :=
  Present dir (key.file "meta.json") →
    Present dir (key.file "zst") ∧ Present dir (key.file "idx")

/-- A download, cut off anywhere, keeps its chunk whole: the sidecar only comes behind
the other two. -/
theorem whole_download {dir : Dir} {key : ChunkKey} (whole : Whole dir key)
    (fetch : String → Fetch) (cut : Nat) :
    Whole (performCut dir (downloadSteps key fetch trio).1 cut) key := by
  have zstSame : ∀ dir cut, ∀ ext ∈ ["idx", "meta.json"],
      (performCut dir (fetchSteps key ext (fetch ext)) cut).lookup (key.file "zst") =
        dir.lookup (key.file "zst") := by
    intro dir cut ext member
    simp only [List.mem_cons, List.not_mem_nil, or_false] at member
    rcases member with rfl | rfl <;>
      exact lookup_fetch dir key _ _ cut (by rw [ne_eq, key.file_ext]; decide)
        (by rw [ne_eq, key.file_ext]; decide)
  have idxSame : ∀ dir cut, ∀ ext ∈ ["zst", "meta.json"],
      (performCut dir (fetchSteps key ext (fetch ext)) cut).lookup (key.file "idx") =
        dir.lookup (key.file "idx") := by
    intro dir cut ext member
    simp only [List.mem_cons, List.not_mem_nil, or_false] at member
    rcases member with rfl | rfl <;>
      exact lookup_fetch dir key _ _ cut (by rw [ne_eq, key.file_ext]; decide)
        (by rw [ne_eq, key.file_ext]; decide)
  have metaSame : ∀ dir cut, ∀ ext ∈ ["zst", "idx"],
      (performCut dir (fetchSteps key ext (fetch ext)) cut).lookup (key.file "meta.json") =
        dir.lookup (key.file "meta.json") := by
    intro dir cut ext member
    simp only [List.mem_cons, List.not_mem_nil, or_false] at member
    rcases member with rfl | rfl <;>
      exact lookup_fetch dir key _ _ cut (by rw [ne_eq, key.file_ext]; decide)
        (by rw [ne_eq, key.file_ext]; decide)
  -- before the sidecar's turn the other two files only come
  have payloadPart : ∀ cut, Whole (performCut dir (fetchSteps key "zst" (fetch "zst")) cut) key := by
    intro cut present
    rw [Present, metaSame dir cut "zst" (by simp)] at present
    obtain ⟨zst, idx⟩ := whole present
    refine ⟨present_fetch _ cut zst, ?_⟩
    rw [Present, idxSame dir cut "zst" (by simp)]
    exact idx
  have indexPart : ∀ {dir : Dir}, Whole dir key → ∀ cut,
      Whole (performCut dir (fetchSteps key "idx" (fetch "idx")) cut) key := by
    intro dir whole cut present
    rw [Present, metaSame dir cut "idx" (by simp)] at present
    obtain ⟨zst, idx⟩ := whole present
    refine ⟨?_, present_fetch _ cut idx⟩
    rw [Present, zstSame dir cut "idx" (by simp)]
    exact zst
  have keptPart : ∀ {dir : Dir}, Present dir (key.file "zst") → Present dir (key.file "idx") →
      ∀ cut, Whole (performCut dir (fetchSteps key "meta.json" (fetch "meta.json")) cut) key := by
    intro dir zst idx cut _
    rw [Present, zstSame dir cut "meta.json" (by simp), Present,
      idxSame dir cut "meta.json" (by simp)]
    exact ⟨zst, idx⟩
  cases payload : (fetch "zst").ending with
  | fetchFails => simpa [downloadSteps, trio, payload] using payloadPart cut
  | renameFails content => simpa [downloadSteps, trio, payload] using payloadPart cut
  | lands zstContent =>
    cases index : (fetch "idx").ending with
    | fetchFails =>
      simp only [downloadSteps, trio, payload, index, performCut_append]
      exact indexPart (payloadPart cut) _
    | renameFails content =>
      simp only [downloadSteps, trio, payload, index, performCut_append]
      exact indexPart (payloadPart cut) _
    | lands idxContent =>
      have steps : (downloadSteps key fetch trio).1 = fetchSteps key "zst" (fetch "zst") ++
          (fetchSteps key "idx" (fetch "idx") ++
            fetchSteps key "meta.json" (fetch "meta.json")) := by
        simp only [downloadSteps, trio, payload, index]
        split <;> simp
      rw [steps, performCut_append, performCut_append]
      by_cases early : cut - (fetchSteps key "zst" (fetch "zst")).length ≤
          (fetchSteps key "idx" (fetch "idx")).length
      · rw [Nat.sub_eq_zero_of_le early, performCut, List.take_zero]
        exact indexPart (payloadPart cut) _
      · apply keptPart
        · rw [Present, zstSame _ _ "idx" (by simp), lookup_landed dir key payload (by omega)]
          rfl
        · rw [Present, lookup_landed _ key index (by omega)]
          rfl

/-- A step of a chunk's download is one of the download of a file. -/
theorem mem_downloadSteps {key : ChunkKey} {fetch : String → Fetch} {exts : List String}
    {step : FileStep} (member : step ∈ (downloadSteps key fetch exts).1) :
    ∃ ext ∈ exts, step ∈ fetchSteps key ext (fetch ext) := by
  induction exts with
  | nil => cases member
  | cons ext rest inductionHypothesis =>
    rw [downloadSteps] at member
    split at member
    · rcases List.mem_append.mp member with here | later
      · exact ⟨ext, List.mem_cons_self, here⟩
      · obtain ⟨ext', among, here⟩ := inductionHypothesis later
        exact ⟨ext', List.mem_cons_of_mem _ among, here⟩
    · exact ⟨ext, List.mem_cons_self, member⟩

/-- The steps of a download only touch files of its chunk. -/
theorem downloadSteps_touches {key : ChunkKey} {fetch : String → Fetch} {exts : List String}
    {step : FileStep} (member : step ∈ (downloadSteps key fetch exts).1) :
    ∀ name ∈ step.touches, ∃ ext ∈ exts, name = key.file (ext ++ ".partial") ∨ name = key.file ext := by
  intro name touched
  obtain ⟨ext, among, here⟩ := mem_downloadSteps member
  exact ⟨ext, among, (fetchSteps_touches here).1 name touched⟩

/-- A download takes no name away but temporary ones. -/
theorem keeps_final {key : ChunkKey} {fetch : String → Fetch} {exts : List String}
    {step : FileStep} (member : step ∈ (downloadSteps key fetch exts).1) {name : FileName}
    (final : ¬ partialSuffix <:+ name) : Keeps name step := by
  obtain ⟨ext, -, here⟩ := mem_downloadSteps member
  rcases mem_fetchSteps here with (rfl | ⟨content, rfl⟩) | ⟨-, rfl⟩
  · trivial
  · trivial
  · rintro rfl
    rw [ChunkKey.file, chunkFile, String.toList_append] at final
    exact final ⟨stem key.startSlot key.endSlot ++ '.' :: ext.toList, List.append_assoc _ _ _⟩

/-! ## Sweeps -/

/-- The removals of a chunk are of its three files, but for those that fail. -/
theorem mem_removals {refuses : Stream → FileName → Bool} {key : ChunkKey}
    {step : Stream × FileStep} : step ∈ removals refuses key ↔
      ∃ ext ∈ trio, refuses key.stream (key.file ext) = false ∧
        (key.stream, FileStep.remove (key.file ext)) = step := by
  simp only [removals, List.mem_map, List.mem_filter, Bool.not_eq_true', and_assoc]

/-- The removals of some chunks are of their files, but for those that fail. -/
theorem remove_mem_flatMap_removals {refuses : Stream → FileName → Bool} {keys : List ChunkKey}
    {stream : Stream} {name : FileName} :
    (stream, FileStep.remove name) ∈ keys.flatMap (removals refuses) ↔
      (∃ key ∈ keys, key.stream = stream ∧ ∃ ext ∈ trio, name = key.file ext) ∧
        refuses stream name = false := by
  rw [List.mem_flatMap]
  constructor
  · rintro ⟨key, member, removal⟩
    obtain ⟨ext, final, removes, same⟩ := mem_removals.mp removal
    cases same
    exact ⟨⟨key, member, rfl, ext, final, rfl⟩, removes⟩
  · rintro ⟨⟨key, member, rfl, ext, final, rfl⟩, removes⟩
    exact ⟨key, member, mem_removals.mpr ⟨ext, final, removes, rfl⟩⟩

/-- Some removals take their files away and nothing else. -/
theorem lookup_removes {steps : List (Stream × FileStep)}
    (remove : ∀ step ∈ steps, ∃ name, step.2 = .remove name) (files : Files) (stream : Stream)
    (name : FileName) :
    (performOn files steps stream).lookup name =
      if (stream, .remove name) ∈ steps then none else (files stream).lookup name := by
  induction steps generalizing files with
  | nil => rfl
  | cons step rest inductionHypothesis =>
    obtain ⟨removed, isRemoval⟩ := remove step List.mem_cons_self
    obtain ⟨owner, change⟩ := step
    subst isRemoval
    rw [performOn, List.foldl_cons, ← performOn,
      inductionHypothesis (fun step member => remove step (List.mem_cons_of_mem _ member))]
    by_cases later : (stream, FileStep.remove name) ∈ rest
    · rw [if_pos later, if_pos (List.mem_cons_of_mem _ later)]
    · rw [if_neg later]
      by_cases own : stream = owner
      · subst own
        simp [applyOn, later]
      · simp [applyOn, own, later]

/-- A sweep consists of removals. -/
theorem isRemoval_of_mem {refuses : Stream → FileName → Bool} {keys : List ChunkKey}
    {step : Stream × FileStep} (member : step ∈ keys.flatMap (removals refuses)) :
    ∃ name, step.2 = .remove name := by
  obtain ⟨key, -, removal⟩ := List.mem_flatMap.mp member
  obtain ⟨ext, -, -, rfl⟩ := mem_removals.mp removal
  exact ⟨key.file ext, rfl⟩

/-- Removing some chunks takes their files away, but for those whose removal fails, and
nothing else. -/
theorem lookup_flatMap_removals (files : Files) (refuses : Stream → FileName → Bool)
    (keys : List ChunkKey) (stream : Stream) (name : FileName) :
    (performOn files (keys.flatMap (removals refuses)) stream).lookup name =
      if (∃ key ∈ keys, key.stream = stream ∧ ∃ ext ∈ trio, name = key.file ext) ∧
        refuses stream name = false then none
      else (files stream).lookup name := by
  rw [lookup_removes (fun step member => isRemoval_of_mem member)]
  simp only [remove_mem_flatMap_removals]

/-- A sweep, performed up to some of its removals, takes the files of those away. -/
theorem lookup_sweep (order : SetOrder) (refuses : Stream → FileName → Bool)
    (retentionHours cut : Nat) (files : Files) (stream : Stream) (name : FileName) :
    (performOn files ((sweepSteps order refuses retentionHours files).take cut) stream).lookup
        name =
      if (stream, .remove name) ∈ (sweepSteps order refuses retentionHours files).take cut then
        none
      else (files stream).lookup name :=
  lookup_removes (fun _ member => isRemoval_of_mem (List.mem_of_mem_take member)) files stream name

/-- A final file of a chunk that is not removed keeps its content. -/
theorem lookup_removed_other (files : Files) {refuses : Stream → FileName → Bool}
    {keys : List ChunkKey} {key : ChunkKey} (kept : key ∉ keys) (ext : String) :
    (performOn files (keys.flatMap (removals refuses)) key.stream).lookup (key.file ext) =
      (files key.stream).lookup (key.file ext) := by
  rw [lookup_flatMap_removals, if_neg]
  rintro ⟨⟨other, member, sameStream, ext', -, same⟩, -⟩
  exact kept (ChunkKey.file_injective sameStream.symm same ▸ member)

/-- A removed chunk has no final file left whose removal has not failed. -/
theorem lookup_removed (files : Files) {refuses : Stream → FileName → Bool} {keys : List ChunkKey}
    {key : ChunkKey} (removed : key ∈ keys) {ext : String} (final : ext ∈ trio)
    (removes : refuses key.stream (key.file ext) = false) :
    (performOn files (keys.flatMap (removals refuses)) key.stream).lookup (key.file ext) =
      none := by
  rw [lookup_flatMap_removals, if_pos ⟨⟨key, removed, rfl, ext, final, rfl⟩, removes⟩]

/-! ## Runs of downloads, sweeps and restarts -/

/-- Only files of chunks lie in the directories. -/
def Tidy (files : Files) : Prop :=
  ∀ stream name, Present (files stream) name → ∃ key : ChunkKey, key.stream = stream ∧
    ∃ ext ∈ trio, name = key.file (ext ++ ".partial") ∨ name = key.file ext

/-- The sidecars in tidy directories are those of the local chunks. -/
theorem Tidy.sidecar {files : Files} (tidy : Tidy files) {key : ChunkKey}
    (isLocal : key ∈ localChunks files) : Present (files key.stream) (key.file "meta.json") := by
  simp only [localChunks, List.mem_toFinset, List.mem_flatMap, List.mem_filterMap] at isLocal
  obtain ⟨stream, -, name, listed, read⟩ := isLocal
  obtain rfl := ChunkKey.ofSidecar_stream read
  obtain ⟨content, stored⟩ := (mem_keys_iff _ _).mp listed
  have present : Present (files key.stream) name := by rw [Present, stored]; rfl
  obtain ⟨other, sameStream, ext, member, named⟩ := tidy key.stream name present
  have unread : ∀ ext : String, ∀ last, ext.toList.getLast? = some last → last ≠ 'n' →
      ChunkKey.ofSidecar key.stream (other.file ext) = none := by
    intro ext last ends distinct
    have plain : stripSuffix metaSuffix (other.file ext) = none := by
      apply stripSuffix_of_last
      rw [ChunkKey.file, chunkFile_last _ _ ends]
      exact fun same => distinct (Option.some.inj same)
    simp [ChunkKey.ofSidecar, plain]
  simp only [trio, List.mem_cons, List.not_mem_nil, or_false] at member
  rcases named with rfl | rfl
  · rcases member with rfl | rfl | rfl <;>
      rw [unread _ 'l' rfl (by decide)] at read <;> cases read
  · rcases member with rfl | rfl | rfl
    · rw [unread _ 't' rfl (by decide)] at read
      cases read
    · rw [unread _ 'x' rfl (by decide)] at read
      cases read
    · rw [ChunkKey.ofSidecar_sidecar read]
      exact present

/-- What is there was there before or is touched by a step. -/
theorem present_or_touched {dir : Dir} {steps : List FileStep} {name : FileName}
    (present : Present (perform dir steps) name) :
    Present dir name ∨ ∃ step ∈ steps, name ∈ step.touches := by
  by_cases touched : ∃ step ∈ steps, name ∈ step.touches
  · exact .inr touched
  · rw [Present, perform_untouched dir steps name
      (fun step member here => touched ⟨step, member, here⟩)] at present
    exact .inl present

/-- A step of the syncer's life: a download of a chunk or a sweep, performed up to some
of its changes, or the removal of the temporary files at a restart. -/
inductive Event where
  | download (key : ChunkKey) (fetch : String → Fetch) (cut : Nat)
  | sweep (order : SetOrder) (refuses : Stream → FileName → Bool) (retentionHours cut : Nat)
  | restart

/-- The directories behind an event. -/
def Event.apply (files : Files) : Event → Files
  | .download key fetch cut => performOn files ((chunkSteps key fetch).take cut)
  | .sweep order refuses retentionHours cut =>
      performOn files ((sweepSteps order refuses retentionHours files).take cut)
  | .restart => sweepPartials files

/-- The directories behind some events, from an empty cache on. -/
def afterEvents (events : List Event) : Files := events.foldl Event.apply (fun _ => ∅)

/-- Events happen one after the other. -/
theorem afterEvents_concat (events : List Event) (event : Event) :
    afterEvents (events ++ [event]) = event.apply (afterEvents events) := by
  simp [afterEvents]

/-- Every chunk whose sidecar is there is whole, and no chunk counts as held that a scan
refuses for a missing file. -/
def SidecarsComplete (files : Files) : Prop :=
  (∀ key, Whole (files key.stream) key) ∧
    ∀ key ∈ localChunks files, Present (files key.stream) (key.file "zst") ∧
      Present (files key.stream) (key.file "idx")

/-- A sweep is cut off right behind the removals of the chunks that it has visited, with some
left to visit, or it goes through to its end. -/
def StopsBehind (refuses : Stream → FileName → Bool) (visited later : List ChunkKey)
    (cut : Nat) : Prop :=
  (visited.flatMap (removals refuses)).length = cut ∨
    later = [] ∧ (visited.flatMap (removals refuses)).length ≤ cut

/-- The sweep of an event is cut off between two of the chunks that it visits, if at all, and
where the removal of the sidecar of a visited chunk fails, those of its other two files fail
as well. -/
def Event.RemovesTogether (files : Files) : Event → Prop
  | .sweep order refuses retentionHours cut =>
      ∃ visited later, victims order retentionHours files = visited ++ later ∧
        StopsBehind refuses visited later cut ∧
        ∀ key ∈ visited, refuses key.stream (key.file "meta.json") = true →
          refuses key.stream (key.file "zst") = true ∧ refuses key.stream (key.file "idx") = true
  | _ => True

/-- In tidy directories it is enough that every chunk is whole. -/
theorem sidecarsComplete_of_whole {files : Files} (tidy : Tidy files)
    (whole : ∀ key, Whole (files key.stream) key) : SidecarsComplete files :=
  ⟨whole, fun key isLocal => whole key (tidy.sidecar isLocal)⟩

/-- A restart removes the temporary files and no others. -/
theorem lookup_sweepPartials (files : Files) (stream : Stream) (name : FileName) :
    (sweepPartials files stream).lookup name =
      if partialSuffix <:+ name then none else (files stream).lookup name := by
  rw [sweepPartials, ← List.foldl_map, ← perform, lookup_removeAll]
  simp only [List.mem_filter, decide_eq_true_eq]
  by_cases leftover : partialSuffix <:+ name
  · by_cases listed : name ∈ (files stream).keys
    · simp [leftover, listed]
    · have absent : (files stream).lookup name = none :=
        AList.lookup_eq_none.mpr (fun member => listed (AList.mem_keys.mp member))
      simp [leftover, absent]
  · simp [leftover]

/-- No event leaves a file that is not one of a chunk. -/
theorem tidy_event {files : Files} (tidy : Tidy files) (event : Event) :
    Tidy (event.apply files) := by
  intro stream name present
  cases event with
  | restart =>
    rw [Event.apply, Present, lookup_sweepPartials] at present
    split at present
    · cases present
    · exact tidy stream name present
  | download key fetch cut =>
    rw [Event.apply, performOn_at] at present
    rcases present_or_touched present with before | ⟨step, member, touched⟩
    · exact tidy stream name before
    · obtain ⟨⟨owner, _⟩, among, rfl⟩ := List.mem_map.mp member
      obtain ⟨within, here⟩ := List.mem_filter.mp among
      obtain ⟨own, isOwn, same⟩ := List.mem_map.mp (List.mem_of_mem_take within)
      obtain ⟨rfl, rfl⟩ := Prod.mk.inj same
      obtain ⟨ext, final, named⟩ := downloadSteps_touches isOwn name touched
      exact ⟨key, of_decide_eq_true here, ext, final, named⟩
  | sweep order refuses retentionHours cut =>
    rw [Event.apply, Present, lookup_sweep] at present
    split at present
    · cases present
    · exact tidy stream name present

/-! ## Where a sweep is cut off -/

/-- The removal of a file of a chunk is among those of some chunks if the chunk is and the
removal does not fail. -/
theorem remove_file_mem {refuses : Stream → FileName → Bool} {keys : List ChunkKey}
    {key : ChunkKey} {ext : String} (final : ext ∈ trio) :
    (key.stream, FileStep.remove (key.file ext)) ∈ keys.flatMap (removals refuses) ↔
      key ∈ keys ∧ refuses key.stream (key.file ext) = false := by
  rw [remove_mem_flatMap_removals]
  constructor
  · rintro ⟨⟨own, member, sameStream, ext', -, same⟩, removes⟩
    exact ⟨ChunkKey.file_injective sameStream same.symm ▸ member, removes⟩
  · rintro ⟨member, removes⟩
    exact ⟨⟨key, member, rfl, ext, final, rfl⟩, removes⟩

/-- Some removals of files have taken the sidecar of a chunk, or neither of the other two. -/
def TakenTogether (steps : List (Stream × FileStep)) (key : ChunkKey) : Prop :=
  (key.stream, .remove (key.file "meta.json")) ∈ steps ∨
    (key.stream, .remove (key.file "zst")) ∉ steps ∧
      (key.stream, .remove (key.file "idx")) ∉ steps

/-- The removals of some chunks take the files of each of them together exactly if that of no
sidecar fails alone. -/
theorem takenTogether_flatMap {refuses : Stream → FileName → Bool} {keys : List ChunkKey}
    {key : ChunkKey} : TakenTogether (keys.flatMap (removals refuses)) key ↔
      (key ∈ keys → refuses key.stream (key.file "meta.json") = true →
        refuses key.stream (key.file "zst") = true ∧
          refuses key.stream (key.file "idx") = true) := by
  rw [TakenTogether, remove_file_mem (by decide), remove_file_mem (by decide),
    remove_file_mem (by decide)]
  by_cases member : key ∈ keys
  · cases refuses key.stream (key.file "meta.json") <;> simp [member]
  · simp [member]

/-- The removals of a chunk, cut off in the middle, leave its sidecar. -/
theorem not_takenTogether_take {refuses : Stream → FileName → Bool} {key : ChunkKey} {cut : Nat}
    (begun : 0 < cut) (inside : cut < (removals refuses key).length) :
    ¬ TakenTogether ((removals refuses key).take cut) key := by
  have few : cut = 1 ∨ cut = 2 := by
    have three : (removals refuses key).length ≤ 3 := by
      rw [removals, List.length_map]
      exact List.length_filter_le _ _
    omega
  rw [TakenTogether]
  cases payload : refuses key.stream (key.file "zst") <;>
    cases index : refuses key.stream (key.file "idx") <;>
    cases sidecar : refuses key.stream (key.file "meta.json") <;>
    rcases few with rfl | rfl <;>
    simp [removals, trio, payload, index, sidecar] at inside ⊢

/-- The removals of other chunks count for nothing. -/
theorem takenTogether_append {refuses : Stream → FileName → Bool} {own key : ChunkKey}
    (other : key ≠ own) (steps : List (Stream × FileStep)) :
    TakenTogether (removals refuses own ++ steps) key ↔ TakenTogether steps key := by
  have absent : ∀ ext ∈ trio, (key.stream, FileStep.remove (key.file ext)) ∉
      removals refuses own := by
    intro ext final removal
    have among : (key.stream, FileStep.remove (key.file ext)) ∈
        [own].flatMap (removals refuses) := by simpa using removal
    exact other (List.mem_singleton.mp ((remove_file_mem final).mp among).1)
  simp only [TakenTogether, List.mem_append, absent "zst" (by decide), absent "idx" (by decide),
    absent "meta.json" (by decide), false_or]

/-- Removals that take the files of every chunk together are cut off between two chunks. -/
theorem cut_between {refuses : Stream → FileName → Bool} {keys : List ChunkKey}
    (nodup : keys.Nodup) {cut : Nat}
    (together : ∀ key ∈ keys, TakenTogether ((keys.flatMap (removals refuses)).take cut) key) :
    ∃ visited later, keys = visited ++ later ∧ StopsBehind refuses visited later cut := by
  induction keys generalizing cut with
  | nil => exact ⟨[], [], rfl, .inr ⟨rfl, Nat.zero_le _⟩⟩
  | cons key rest inductionHypothesis =>
    obtain ⟨fresh, nodup⟩ := List.nodup_cons.mp nodup
    rw [List.flatMap_cons, List.take_append] at together
    rcases Nat.eq_zero_or_pos cut with rfl | begun
    · exact ⟨[], key :: rest, rfl, .inl rfl⟩
    · have own := together key List.mem_cons_self
      by_cases inside : cut < (removals refuses key).length
      · rw [Nat.sub_eq_zero_of_le inside.le, List.take_zero, List.append_nil] at own
        exact absurd own (not_takenTogether_take begun inside)
      · rw [List.take_of_length_le (Nat.le_of_not_lt inside)] at together
        obtain ⟨visited, later, rfl, stops⟩ := inductionHypothesis nodup (by
          intro other member
          have distinct : other ≠ key := by
            rintro rfl
            exact fresh member
          exact (takenTogether_append distinct _).mp
            (together other (List.mem_cons_of_mem _ member)))
        refine ⟨key :: visited, later, rfl, ?_⟩
        rw [StopsBehind, List.flatMap_cons, List.length_append]
        exact stops.imp (by omega) (And.imp_right (by omega))

/-- Behind a cut between two chunks exactly the removals of the visited ones are performed. -/
theorem take_between {refuses : Stream → FileName → Bool} {visited later : List ChunkKey}
    {cut : Nat} (stops : StopsBehind refuses visited later cut) :
    ((visited ++ later).flatMap (removals refuses)).take cut =
      visited.flatMap (removals refuses) := by
  rw [List.flatMap_append]
  rcases stops with rfl | ⟨rfl, enough⟩
  · exact List.take_left
  · rw [List.flatMap_nil, List.append_nil, List.take_of_length_le enough]

/-- A sweep takes the files of every chunk together exactly if it is cut off between two chunks
and no removal of a sidecar fails alone. -/
theorem removesTogether_iff {order : SetOrder} {refuses : Stream → FileName → Bool}
    {retentionHours cut : Nat} {files : Files} :
    (Event.sweep order refuses retentionHours cut).RemovesTogether files ↔
      ∀ key, TakenTogether ((sweepSteps order refuses retentionHours files).take cut) key := by
  simp only [Event.RemovesTogether, sweepSteps]
  constructor
  · rintro ⟨visited, later, split, stops, refusal⟩ key
    rw [split, take_between stops]
    exact takenTogether_flatMap.mpr (refusal key)
  · intro together
    have nodup : (victims order retentionHours files).Nodup := (order.nodup _).filter _
    obtain ⟨visited, later, split, stops⟩ := cut_between nodup (fun key _ => together key)
    rw [split, take_between stops] at together
    exact ⟨visited, later, split, stops, fun key => takenTogether_flatMap.mp (together key)⟩

/-- An event that removes the files of a chunk together keeps every chunk whole. -/
theorem whole_event {files : Files} (whole : ∀ key, Whole (files key.stream) key) {event : Event}
    (together : event.RemovesTogether files) (key : ChunkKey) :
    Whole (event.apply files key.stream) key := by
  cases event with
  | restart =>
    intro present
    have same : ∀ ext ∈ trio, (sweepPartials files key.stream).lookup (key.file ext) =
        (files key.stream).lookup (key.file ext) := by
      intro ext final
      rw [lookup_sweepPartials, if_neg (not_partialSuffix key final)]
    simp only [Event.apply, Present, same "zst" (by decide), same "idx" (by decide),
      same "meta.json" (by decide)] at present ⊢
    exact whole key present
  | download own fetch cut =>
    simp only [Event.apply, chunkSteps, ← List.map_take]
    by_cases here : key = own
    · subst here
      rw [performOn_own]
      exact whole_download (whole key) fetch cut
    · by_cases sameStream : key.stream = own.stream
      · have same : ∀ ext, (perform (files own.stream)
            ((downloadSteps own fetch trio).1.take cut)).lookup (key.file ext) =
              (files own.stream).lookup (key.file ext) := by
          intro ext
          apply perform_untouched
          intro step member touched
          obtain ⟨ext', -, named | named⟩ :=
            downloadSteps_touches (List.mem_of_mem_take member) _ touched <;>
            exact here (ChunkKey.file_injective sameStream named)
        have before := whole key
        rw [sameStream] at before ⊢
        rw [performOn_own]
        simpa only [Whole, Present, same] using before
      · rw [performOn_other files sameStream]
        exact whole key
  | sweep order refuses retentionHours cut =>
    simp only [Event.apply, Whole, Present, lookup_sweep]
    by_cases sidecar : (key.stream, .remove (key.file "meta.json")) ∈
        (sweepSteps order refuses retentionHours files).take cut
    · rw [if_pos sidecar]
      exact fun impossible => by cases impossible
    · obtain ⟨payload, index⟩ := (removesTogether_iff.mp together key).resolve_left sidecar
      rw [if_neg sidecar, if_neg payload, if_neg index]
      exact whole key

/-- A sweep that leaves the sidecar of a chunk and takes another file of it away leaves a
sidecar without its payload or its index. -/
theorem not_whole_sweep {files : Files} (tidy : Tidy files) {order : SetOrder}
    {refuses : Stream → FileName → Bool} {retentionHours cut : Nat}
    (apart : ¬ (Event.sweep order refuses retentionHours cut).RemovesTogether files) :
    ∃ key, ¬ Whole ((Event.sweep order refuses retentionHours cut).apply files key.stream) key := by
  simp only [removesTogether_iff, TakenTogether, not_forall, not_or, not_and_or, not_not] at apart
  obtain ⟨key, stays, gone⟩ := apart
  have sidecar : Present (files key.stream) (key.file "meta.json") := by
    have visited : key ∈ victims order retentionHours files := by
      rcases gone with removed | removed
      · exact ((remove_file_mem (by decide)).mp (List.mem_of_mem_take removed)).1
      · exact ((remove_file_mem (by decide)).mp (List.mem_of_mem_take removed)).1
    exact tidy.sidecar ((order.lists _ _).mp (List.mem_filter.mp visited).1)
  refine ⟨key, fun whole => ?_⟩
  simp only [Event.apply, Whole, Present, lookup_sweep, if_neg stays] at whole
  obtain ⟨zst, idx⟩ := whole sidecar
  rcases gone with noPayload | noIndex
  · rw [if_pos noPayload] at zst
    cases zst
  · rw [if_pos noIndex] at idx
    cases idx

/-- No run leaves a file that is not one of a chunk. -/
theorem tidy_afterEvents (events : List Event) : Tidy (afterEvents events) := by
  induction events using List.reverseRecOn with
  | nil =>
    intro stream name present
    exact absurd present (by simp [afterEvents, Present])
  | append_singleton events event inductionHypothesis =>
    rw [afterEvents_concat]
    exact tidy_event inductionHypothesis event

/-- A sidecar stands for its whole chunk in every state of a run exactly when every sweep of the
run is cut off between two chunks, if at all, and fails at the removal of no sidecar alone. -/
theorem sidecars_complete_iff (events : List Event) :
    (∀ before, before <+: events → SidecarsComplete (afterEvents before)) ↔
      ∀ before event later, events = before ++ event :: later →
        event.RemovesTogether (afterEvents before) := by
  constructor
  · intro complete before event later split
    by_contra apart
    have next := complete (before ++ [event]) ⟨later, by simp [split]⟩
    rw [afterEvents_concat] at next
    cases event with
    | restart => exact apart trivial
    | download key fetch cut => exact apart trivial
    | sweep order refuses retentionHours cut =>
      obtain ⟨key, broken⟩ := not_whole_sweep (tidy_afterEvents before) apart
      exact broken (next.1 key)
  · intro together before
    induction before using List.reverseRecOn with
    | nil =>
      intro _
      exact ⟨fun key present => absurd present (by simp [afterEvents, Present]),
        by simp [afterEvents, localChunks]⟩
    | append_singleton before event inductionHypothesis =>
      rintro ⟨later, split⟩
      have complete := inductionHypothesis ⟨event :: later, by simpa using split⟩
      apply sidecarsComplete_of_whole (tidy_afterEvents _)
      rw [afterEvents_concat]
      exact whole_event complete.1 (together before event later (by simpa using split.symm))

/-- An order for every set. -/
theorem exists_order : Nonempty SetOrder :=
  ⟨⟨Finset.toList, Finset.nodup_toList, fun _ _ => Finset.mem_toList⟩⟩

/-- A set of one chunk is iterated in one way. -/
theorem victims_singleton {order : SetOrder} {retentionHours : Nat} {files : Files}
    {key : ChunkKey} (only : evicted (localChunks files) retentionHours = {key}) :
    victims order retentionHours files = [key] := by
  have members : ∀ other, other ∈ victims order retentionHours files ↔ other ∈ [key] := by
    intro other
    rw [victims, List.mem_filter, order.lists, only]
    simp only [Finset.mem_singleton, decide_eq_true_eq, List.mem_singleton, and_iff_right_iff_imp]
    rintro rfl
    have gone : other ∈ evicted (localChunks files) retentionHours := by simp [only]
    exact (mem_evicted.mp gone).1
  have nodup : (victims order retentionHours files).Nodup := (order.nodup _).filter _
  exact List.perm_singleton.mp ((List.perm_ext_iff_of_nodup nodup (by simp)).mpr members)

/-- A crash behind the first removal leaves a chunk that counts as held and has no
payload. -/
theorem sidecar_outlives_payload :
    let fetch : String → Fetch := fun _ => ⟨[], .lands [1]⟩
    let old : ChunkKey := ⟨.tx, 0, 1000⟩
    ∃ order : SetOrder,
      let files := afterEvents [.download old fetch 9, .download ⟨.tx, 99000, 100000⟩ fetch 9,
        .sweep order (fun _ _ => false) 1 1, .restart]
      old ∈ localChunks files ∧ ¬ Present (files .tx) (old.file "zst") := by
  intro fetch old
  obtain ⟨order⟩ := exists_order
  have only : evicted (localChunks (afterEvents [.download old fetch 9,
      .download ⟨.tx, 99000, 100000⟩ fetch 9])) 1 = {old} := by
    decide +kernel
  refine ⟨order, ?_⟩
  simp only [afterEvents, List.foldl_cons, List.foldl_nil] at only ⊢
  rw [show ∀ files, Event.apply files (.sweep order (fun _ _ => false) 1 1) =
    performOn files ((sweepSteps order (fun _ _ => false) 1 files).take 1) from fun _ => rfl]
  rw [sweepSteps, victims_singleton only]
  decide +kernel

end Sync

end Sillage
