import Sillage.Writer.Uploader

/-!
# What is kept between any two steps

A marker promises that the three files of a chunk are in the bucket, and the sweep
relies on it. The promise is kept by an invariant over the four local files and the
three objects of every chunk, which holds between any two steps of any of the tasks. It
speaks of three stages: a chunk that has never been sealed has no sidecar, no marker and
no object; a chunk that has been sealed once has only copies of what that seal wrote;
beyond that only the order of the uploads is left to rely on.
-/

namespace Sillage.Uploader

open LittleEndian Directory Names OpenChunk

/-- Steps of the tasks in any order, from a given state, each allowed where it is taken. -/
inductive Steps (k : Codecs) (cfg : WriterConfig) (up : UploaderConfig)
    (allowed : Writer → Action → Prop) (w : Writer) : List Event → Writer → Prop where
  | start : Steps k cfg up allowed w [] w
  | step {books more : List Event} {v v' : Writer} (action : Action)
      (ran : Steps k cfg up allowed w books v) (may : allowed v action)
      (done : act k cfg up v action = some (more, v')) :
      Steps k cfg up allowed w (books ++ more) v'

/-- A run of the writer from its first start. -/
abbrev Run (k : Codecs) (cfg : WriterConfig) (up : UploaderConfig) : List Event → Writer → Prop :=
  Steps k cfg up (fun _ _ => True) (Writer.start cfg)

/-- Take some actions one after the other. -/
def acts (k : Codecs) (cfg : WriterConfig) (up : UploaderConfig) (allowed : Writer → Action → Prop)
    [∀ w action, Decidable (allowed w action)] (w : Writer) :
    List Action → Option (List Event × Writer)
  | [] => some ([], w)
  | action :: rest =>
      if allowed w action then do
        let (more, w) ← act k cfg up w action
        let (later, w) ← acts k cfg up allowed w rest
        some (more ++ later, w)
      else none

/-- What the completed seals of a chunk wrote, in order. -/
def sealings (books : List Event) (stream : Stream) (idx : Nat) : List ChunkFiles :=
  books.filterMap (fun event =>
    match event with
    | .sealed stream' idx' files => if stream' = stream ∧ idx' = idx then some files else none
    | _ => none)

/-- The key of a file of the chunk with the given index. -/
def objectOf (cfg : WriterConfig) (stream : Stream) (idx : Nat) (ext : String) : List Char :=
  objectKey stream (idx * cfg.slotsPerChunk) (idx * cfg.slotsPerChunk + cfg.slotsPerChunk) ext

/-- The three objects of a chunk are in the bucket. -/
def Archived (cfg : WriterConfig) (bucket : Bucket) (stream : Stream) (idx : Nat) : Prop :=
  ∀ ext ∈ finalExtensions, (bucket.lookup (objectOf cfg stream idx ext)).isSome = true

/-- Whether a chunk is archived can be looked up. -/
instance (cfg : WriterConfig) (bucket : Bucket) (stream : Stream) (idx : Nat) :
    Decidable (Archived cfg bucket stream idx) :=
  inferInstanceAs (Decidable (∀ ext ∈ finalExtensions, _))

/-- A chunk has its marker. -/
def Marked (cfg : WriterConfig) (dir : Dir) (idx : Nat) : Prop :=
  (dir.lookup (chunkName cfg idx "uploaded")).isSome = true

/-- Whether a chunk is marked can be looked up. -/
instance (cfg : WriterConfig) (dir : Dir) (idx : Nat) : Decidable (Marked cfg dir idx) :=
  inferInstanceAs (Decidable (_ = true))

/-- The chunk of a sidecar, as the scan reports it. -/
def pendingChunk (cfg : WriterConfig) (stream : Stream) (idx : Nat) : PendingChunk where
  stream := stream
  base := stem (idx * cfg.slotsPerChunk) (idx * cfg.slotsPerChunk + cfg.slotsPerChunk)
  startSlot := idx * cfg.slotsPerChunk
  endSlot := idx * cfg.slotsPerChunk + cfg.slotsPerChunk

/-- The chunks that the uploader has found and not dealt with. -/
def Phase.queue : Phase → List PendingChunk
  | .sweeping pending _ _ => pending
  | .uploading waiting running => waiting ++ running.map Upload.chunk
  | _ => []

/-! ## The invariant -/

/-- The extensions of the files that a seal touches. -/
def sealExtensions : List String :=
  ["zst", "idx", "meta.json", "zst.partial", "idx.partial", "meta.json.partial"]

/-- A seal in progress touches files of its chunk only, and the sidecar last. -/
structure SealingSound (cfg : WriterConfig) (dir : Dir) (job : Sealing) : Prop where
  inside : ∀ step ∈ job.rest, ∀ name ∈ step.touches,
    ∃ ext ∈ sealExtensions, name = chunkName cfg job.idx ext
  absent : dir.lookup (chunkName cfg job.idx "meta.json") = none
  sidecarLast : ∃ before, job.rest = before ++
      [.rename (chunkName cfg job.idx "meta.json.partial") (chunkName cfg job.idx "meta.json")] ∧
    ∀ step ∈ before, chunkName cfg job.idx "meta.json" ∉ step.touches

/-- What holds of a lane and the directory it writes to. -/
structure LaneSound (cfg : WriterConfig) (lane : Lane) : Prop where
  sameCfg : lane.chunker.cfg = cfg
  known : ∀ name content, lane.chunker.baseDir.lookup name = some content →
    ∃ idx, ∃ ext ∈ knownExtensions, name = chunkName cfg idx ext
  named : ∀ idx chunk, lane.chunker.open[idx]? = some chunk →
    ∀ ext, chunk.file ext = chunkName cfg idx ext
  absent : ∀ idx chunk, lane.chunker.open[idx]? = some chunk →
    lane.chunker.baseDir.lookup (chunkName cfg idx "meta.json") = none
  sealing : ∀ job, lane.sealing = some job →
    SealingSound cfg lane.chunker.baseDir job ∧ lane.chunker.open[job.idx]? = none

/-- What is known of a chunk's files and objects by the seals it has had. -/
structure ChunkSound (cfg : WriterConfig) (stream : Stream) (past : List ChunkFiles) (lane : Lane)
    (bucket : Bucket) (idx : Nat) : Prop where
  never : past = [] →
    lane.chunker.baseDir.lookup (chunkName cfg idx "meta.json") = none ∧
      lane.chunker.baseDir.lookup (chunkName cfg idx "uploaded") = none ∧
      ∀ ext ∈ finalExtensions, bucket.lookup (objectOf cfg stream idx ext) = none
  sealing : past = [] → ∀ job, lane.sealing = some job → job.idx = idx →
    ∀ ext ∈ finalExtensions, (perform lane.chunker.baseDir job.rest).lookup
      (chunkName cfg idx ext) = some (job.files.content ext)
  copies : ∀ files, past = [files] →
    (lane.chunker.baseDir.lookup (chunkName cfg idx "meta.json")).isSome = true →
    ∀ ext ∈ finalExtensions, ∀ content,
      lane.chunker.baseDir.lookup (chunkName cfg idx ext) = some content →
      content = files.content ext
  objects : ∀ files, past = [files] → ∀ ext ∈ finalExtensions, ∀ content,
    bucket.lookup (objectOf cfg stream idx ext) = some content → content = files.content ext
  marked : Marked cfg lane.chunker.baseDir idx → Archived cfg bucket stream idx

/-- An upload has put the files before the one it is at. -/
def Progress (bucket : Bucket) (upload : Upload) : Prop :=
  ∃ past, uploadChunk upload.chunk = past ++ upload.rest ∧
    ∀ ext, .put ext ∈ past → (bucket.lookup
      (objectKey upload.chunk.stream upload.chunk.startSlot upload.chunk.endSlot ext)).isSome = true

/-- The sweep is at some of the files of a chunk that has its marker. -/
def Removing (cfg : WriterConfig) (w : Writer) (removals : List (Stream × FileName)) : Prop :=
  removals = [] ∨ ∃ stream idx exts, Marked cfg (w.dir stream) idx ∧
    exts <:+ ["zst", "idx", "meta.json", "uploaded"] ∧
    removals = exts.map (fun ext => (stream, chunkName cfg idx ext))

/-- What holds of the uploader by where it is in its pass. -/
structure PhaseSound (cfg : WriterConfig) (w : Writer) : Prop where
  queued : ∀ chunk ∈ w.phase.queue, ∃ idx, chunk = pendingChunk cfg chunk.stream idx ∧
    ((w.dir chunk.stream).lookup (chunkName cfg idx "meta.json")).isSome = true
  unmarked : ∀ pending entries removals, w.phase = .sweeping pending entries removals →
    ∀ stream idx, pendingChunk cfg stream idx ∈ pending → ¬ Marked cfg (w.dir stream) idx
  removing : ∀ pending entries removals, w.phase = .sweeping pending entries removals →
    Removing cfg w removals
  progress : ∀ waiting running, w.phase = .uploading waiting running →
    ∀ upload ∈ running, Progress w.bucket upload
  down : w.phase = .down → ∀ stream, (w.lanes stream).sealing = none

/-- A sidecar is in the bucket with its siblings only. -/
def Ordered (bucket : Bucket) : Prop :=
  ∀ stream start stop, (bucket.lookup (objectKey stream start stop "meta.json")).isSome = true →
    ∀ ext ∈ finalExtensions, (bucket.lookup (objectKey stream start stop ext)).isSome = true

/-- The invariant of the writer's runs. -/
structure Sound (cfg : WriterConfig) (books : List Event) (w : Writer) : Prop where
  lanes : ∀ stream, LaneSound cfg (w.lanes stream)
  chunks : ∀ stream idx,
    ChunkSound cfg stream (sealings books stream idx) (w.lanes stream) w.bucket idx
  phase : PhaseSound cfg w
  ordered : Ordered w.bucket

/-- Nothing has been sealed before the first entry. -/
@[simp] theorem sealings_nil (stream : Stream) (idx : Nat) : sealings [] stream idx = [] := rfl

/-- What was sealed is read along the books. -/
theorem sealings_append (books more : List Event) (stream : Stream) (idx : Nat) :
    sealings (books ++ more) stream idx = sealings books stream idx ++ sealings more stream idx := by
  simp [sealings]

/-- An entry of a seal counts for its own chunk. -/
theorem sealings_sealed (stream stream' : Stream) (idx idx' : Nat) (files : ChunkFiles) :
    sealings [.sealed stream' idx' files] stream idx =
      if stream' = stream ∧ idx' = idx then [files] else [] := by
  by_cases same : stream' = stream ∧ idx' = idx <;> simp [sealings, same]

/-- A put seals nothing. -/
@[simp] theorem sealings_put (stream : Stream) (idx : Nat) (key : List Char) (content : Bytes) :
    sealings [.put key content] stream idx = [] := rfl

/-- A removal seals nothing. -/
@[simp] theorem sealings_swept (stream stream' : Stream) (idx : Nat) (name : FileName) :
    sealings [.swept stream' name] stream idx = [] := rfl

/-- A lane that goes on changes its own directory only. -/
@[simp] theorem dir_withLane (w : Writer) (stream other : Stream) (lane : Lane) :
    (w.withLane stream lane).dir other =
      if other = stream then lane.chunker.baseDir else w.dir other := by
  by_cases same : other = stream <;> simp [Writer.withLane, Writer.dir, same]

/-- A lane that goes on leaves the others where they are. -/
@[simp] theorem lanes_withLane (w : Writer) (stream other : Stream) (lane : Lane) :
    (w.withLane stream lane).lanes other = if other = stream then lane else w.lanes other := by
  simp [Writer.withLane, Function.update_apply]

/-- The uploader is where it was. -/
@[simp] theorem phase_withLane (w : Writer) (stream : Stream) (lane : Lane) :
    (w.withLane stream lane).phase = w.phase := rfl

/-- The bucket is as it was. -/
@[simp] theorem bucket_withLane (w : Writer) (stream : Stream) (lane : Lane) :
    (w.withLane stream lane).bucket = w.bucket := rfl

/-- The uploader's place does not show in the directories. -/
@[simp] theorem dir_phase (w : Writer) (phase : Phase) (stream : Stream) :
    ({ w with phase } : Writer).dir stream = w.dir stream := rfl

/-- Storing an object changes what its key holds, and no other. -/
theorem lookup_put (bucket : Bucket) (key asked : List Char) (content : Bytes) :
    (bucket.insert key content).lookup asked =
      if asked = key then some content else bucket.lookup asked := by
  by_cases same : asked = key
  · subst same
    simp
  · simp [same, AList.lookup_insert_ne same]

variable {k : Codecs} {cfg : WriterConfig} {up : UploaderConfig}

/-- Steps behind other steps. -/
theorem Steps.trans {allowed : Writer → Action → Prop} {w v u : Writer} {first second : List Event}
    (ran : Steps k cfg up allowed w first v) (later : Steps k cfg up allowed v second u) :
    Steps k cfg up allowed w (first ++ second) u := by
  induction later with
  | start => rwa [List.append_nil]
  | step action _ may done inductionHypothesis =>
    rw [← List.append_assoc]
    exact .step action inductionHypothesis may done

/-- What can be taken one after the other are steps. -/
theorem steps_of_acts {allowed : Writer → Action → Prop}
    [∀ w action, Decidable (allowed w action)] {w w' : Writer} {actions : List Action}
    {books : List Event} (done : acts k cfg up allowed w actions = some (books, w')) :
    Steps k cfg up allowed w books w' := by
  induction actions generalizing w books with
  | nil =>
    obtain ⟨rfl, rfl⟩ := Prod.mk.inj (Option.some.inj done)
    exact .start
  | cons action rest inductionHypothesis =>
    rw [acts] at done
    split at done
    · next may =>
      obtain ⟨⟨more, v⟩, first, done⟩ := Option.bind_eq_some_iff.mp done
      obtain ⟨⟨later, u⟩, second, done⟩ := Option.bind_eq_some_iff.mp done
      obtain ⟨rfl, rfl⟩ := Prod.mk.inj (Option.some.inj done)
      have one : Steps k cfg up allowed w ([] ++ more) v := .step action .start may first
      exact one.trans (inductionHypothesis second)
    · cases done

end Sillage.Uploader
