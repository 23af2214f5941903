import Mathlib.Data.List.Sort
import Mathlib.Data.List.TakeWhile
import Sillage.Writer.Interruption
import Sillage.Writer.Trio

/-!
# The writer: its lanes, its uploader and the bucket

The lanes and the uploader are separate tasks over the same directories, and they
learn of each other only through the files that lie there. A lane opens chunks, appends
to them and seals them file step by file step. The uploader scans for sidecars without
a marker, then removes the files of chunks whose marker has outlived the retention, then
uploads what the scan found. The uploads run side by side and are joined before the next
scan. A crash can fall between any two file steps or puts; the next start recovers the
directories first.

An action is one such step of one of the tasks. Whatever the code does not choose itself
is part of the action: what a listing returned while other tasks were at work, the age
of a marker, how a put ended, which task goes on.
-/

namespace Sillage

open LittleEndian Directory Names OpenChunk

/-- The bytes that a seal puts into a chunk's three files. -/
structure ChunkFiles where
  payload : Bytes
  index : Bytes
  sidecar : Bytes
deriving DecidableEq

/-- The bytes of the file with an extension. -/
def ChunkFiles.content (files : ChunkFiles) (ext : String) : Bytes :=
  if ext = "zst" then files.payload else if ext = "idx" then files.index else files.sidecar

/-- What sealing a chunk writes. -/
def OpenChunk.files (k : Codecs) (stream : Stream) (chunk : OpenChunk) (written : Bytes)
    (reason : String) : ChunkFiles where
  payload := k.zstdEncode written
  index := chunk.indexBytes k
  sidecar := k.jsonEncode (OpenChunk.sidecar stream chunk (k.zstdEncode written) reason)

/-- The part of the uploader's configuration that decides what it does. -/
structure UploaderConfig where
  maxConcurrentUploads : Nat
  retryAttempts : Nat
  localRetentionHours : Nat

/-- A sealed chunk that the scan found without a marker. -/
structure PendingChunk where
  stream : Stream
  base : FileName
  startSlot : Nat
  endSlot : Nat
deriving DecidableEq

namespace Uploader

/-- The objects of the bucket by their keys. -/
abbrev Bucket := AList (fun _ : List Char => Bytes)

/-- The key of a chunk's file. -/
def objectKey (stream : Stream) (startSlot endSlot : Nat) (ext : String) : List Char :=
  "chunks/".toList ++ stream.asStr.toList ++ '/' :: chunkFile startSlot endSlot ext

/-- What comes before the extension of a file name. -/
def fileStem (name : FileName) : FileName :=
  match name.reverse.dropWhile (· ≠ '.') with
  | [] => name
  | [_] => name
  | _ :: before => before.reverse

/-- A file name with its extension replaced, or added if it has none. -/
def withExtension (name : FileName) (ext : String) : FileName := fileStem name ++ '.' :: ext.toList

/-- The end of the names of markers. -/
def uploadedSuffix : FileName := ".uploaded".toList

/-! ## Scanning -/

/-- The pending chunk of a file name: that of a sidecar without a marker whose name
yields two slots. -/
def pendingOf (stream : Stream) (dir : Dir) (name : FileName) : Option PendingChunk := do
  let stem ← stripSuffix metaSuffix name
  if (dir.lookup (withExtension stem "uploaded")).isSome then none
  else
    let (start, stop) := (splitOnce stem).getD (stem, [])
    let startSlot ← parseU64 start
    let endSlot ← parseU64 stop
    some { stream, base := stem, startSlot, endSlot }

/-- The order of the uploads: by the name of the stream, then by start slot. -/
def precedes (a b : PendingChunk) : Prop :=
  a.stream.asStr < b.stream.asStr ∨
    a.stream.asStr = b.stream.asStr ∧ a.startSlot ≤ b.startSlot

/-- Two pending chunks are in order by comparing stream and start. -/
instance : DecidableRel precedes := fun a b =>
  inferInstanceAs (Decidable (a.stream.asStr < b.stream.asStr ∨
    a.stream.asStr = b.stream.asStr ∧ a.startSlot ≤ b.startSlot))

/-- The sealed chunks of all streams that have no marker. -/
def scanPending (dirs : Recovery.Dirs) : List PendingChunk :=
  (Stream.all.flatMap (fun stream =>
    (dirs stream).keys.filterMap (pendingOf stream (dirs stream)))).insertionSort precedes

/-! ## Uploading -/

/-- A step of an upload: a put of a file, tried again until it succeeds, or a change of
the directory. -/
inductive UploadStep where
  | put (ext : String)
  | onDisk (step : FileStep)
deriving DecidableEq

/-- The steps of uploading a chunk: its three files, then the marker. -/
def uploadChunk (chunk : PendingChunk) : List UploadStep :=
  let temporary := withExtension chunk.base "uploaded.partial"
  ["zst", "idx", "meta.json"].map .put ++
    [.onDisk (.create temporary),
      .onDisk (.rename temporary (withExtension chunk.base "uploaded"))]

/-- How a put of an existing file ends: stored and confirmed, stored without a
confirmation, or not stored. -/
inductive PutResult where
  | stored
  | unanswered
  | refused
deriving DecidableEq

/-- What a put stores, and whether it succeeds. A missing file is an error. -/
def putFile (file : Option Bytes) (result : PutResult) : Option Bytes × Bool :=
  match file, result with
  | none, _ => (none, false)
  | some content, .stored => (some content, true)
  | some content, .unanswered => (some content, false)
  | some _, .refused => (none, false)

/-- A running upload: the steps before it, and the failed attempts at the first. -/
structure Upload where
  chunk : PendingChunk
  rest : List UploadStep
  attempt : Nat
deriving DecidableEq

/-- The upload behind an attempt at a put. The last attempt that fails ends it. -/
def Upload.retry (up : UploaderConfig) (upload : Upload) (later : List UploadStep)
    (succeeded : Bool) : Option Upload :=
  if succeeded then some { upload with rest := later, attempt := 0 }
  else if upload.attempt + 1 < up.retryAttempts then
    some { upload with attempt := upload.attempt + 1 }
  else none

/-! ## The retention sweep -/

/-- The age in nanoseconds that a marker must exceed; the product in seconds is narrowed
to 64 bits. -/
def retention (up : UploaderConfig) : Nat := up.localRetentionHours * 3600 % u64Bound * 10 ^ 9

/-- The files that the sweep removes with a marker, in order. -/
def siblings (stem : FileName) : List FileName :=
  ["zst", "idx", "meta.json", "uploaded"].map (withExtension stem)

/-! ## The system -/

/-- A seal in progress: what it writes, and the file steps before it. -/
structure Sealing where
  idx : Nat
  files : ChunkFiles
  rest : List FileStep

/-- A lane is its chunker, unless it is in the middle of a seal. -/
structure Lane where
  chunker : Chunker
  sealing : Option Sealing

/-- Where the uploader is in its loop. In a sweep there are the listed entries before it
and the removals left of the last entry; in the uploads, the chunks that wait for a
permit and the running uploads. The process is down before a start and after a crash. -/
inductive Phase where
  | down
  | idle
  | sweeping (pending : List PendingChunk) (entries removals : List (Stream × FileName))
  | uploading (waiting : List PendingChunk) (running : List Upload)

/-- The lanes, the bucket, and where the uploader is. -/
structure Writer where
  lanes : Stream → Lane
  bucket : Bucket
  phase : Phase

/-- What a run leaves in the books: a seal that was completed, an object that was stored,
a file that the retention sweep removed. -/
inductive Event where
  | «sealed» (stream : Stream) (idx : Nat) (files : ChunkFiles)
  | put (key : List Char) (content : Bytes)
  | swept (stream : Stream) (name : FileName)
deriving DecidableEq

namespace Writer

/-- The directory of a stream. -/
def dir (w : Writer) (stream : Stream) : Dir := (w.lanes stream).chunker.baseDir

/-- Before the first start. -/
def start (cfg : WriterConfig) : Writer where
  lanes stream := { chunker := Chunker.new stream cfg ∅, sealing := none }
  bucket := ∅
  phase := .down

/-- One lane goes on, and the others stay where they are. -/
def withLane (w : Writer) (stream : Stream) (lane : Lane) : Writer :=
  { w with lanes := Function.update w.lanes stream lane }

/-- One file step in the directory of a stream. -/
def onDisk (w : Writer) (stream : Stream) (step : FileStep) : Writer :=
  let lane := w.lanes stream
  w.withLane stream
    { lane with
      chunker := { lane.chunker with baseDir := FileStep.apply lane.chunker.baseDir step } }

/-- The lanes of a process that starts on some directories. -/
def restartOn (cfg : WriterConfig) (dirs : Recovery.Dirs) (w : Writer) : Writer :=
  { w with lanes := fun stream => { chunker := Chunker.new stream cfg (dirs stream), sealing := none } }

/-- The chunker of a lane that is up and not in the middle of a seal. -/
def free (w : Writer) (stream : Stream) : Option Chunker :=
  match w.phase, (w.lanes stream).sealing with
  | .down, _ => none
  | _, some _ => none
  | _, none => some (w.lanes stream).chunker

end Writer

/-- A step of one of the tasks. -/
inductive Action where
  | advance (stream : Stream) (slot : Nat)
  | openChunk (stream : Stream) (now idx : Nat)
  | append (stream : Stream) (a : Arrival)
  | beginSeal (stream : Stream) (reason : String) (idx : Nat)
  | sealStep (stream : Stream)
  | scan (found : List PendingChunk)
  | readDir (stream : Stream) (names : List FileName)
  | examine (age : Option Nat)
  | remove (succeeds : Bool)
  | endSweep
  | spawn
  | upload (task : Nat) (result : PutResult)
  | fail (task : Nat)
  | join
  | crash
  | sweepPartial (stream : Stream) (name : FileName)
  | boot
deriving DecidableEq

/-- A step of a lane that is not in the middle of a seal. -/
def laneAct (k : Codecs) (s : Chunker) : Action → Option Lane
  | .advance _ slot => some { chunker := s.advance slot, sealing := none }
  | .openChunk _ now idx => do
      let s ← (Chunker.openChunk now idx s).toOption
      some { chunker := s, sealing := none }
  | .append _ a => do
      let idx ← (checkedDiv a.slot s.cfg.slotsPerChunk).toOption
      let (_, s) ← (Chunker.appendTo k idx a s).toOption
      some { chunker := s, sealing := none }
  | .beginSeal _ reason idx => do
      let chunk ← s.open[idx]?
      let written ← chunk.encoder
      some
        { chunker := { s with «open» := s.open.erase idx }
          sealing := some
            { idx
              files := chunk.files k s.stream written reason
              rest := chunk.sealSteps k s.stream written reason } }
  | _ => none

/-- The next file step of a seal. The last one completes it. -/
def sealAct (w : Writer) (stream : Stream) : Option (List Event × Writer) :=
  let lane := w.lanes stream
  match w.phase, lane.sealing with
  | .down, _ => none
  | _, some { idx, files, rest := step :: rest } =>
      let s := { lane.chunker with baseDir := FileStep.apply lane.chunker.baseDir step }
      if rest = [] then
        some ([.sealed stream idx files], w.withLane stream { chunker := s, sealing := none })
      else some ([], w.withLane stream { chunker := s, sealing := some { idx, files, rest } })
  | _, _ => none

/-- Look at the next listed entry of the sweep. An entry that is no marker is skipped; a
marker that is gone ends the sweep with an error. -/
def examineAct (up : UploaderConfig) (w : Writer) (age : Option Nat) : Option Phase :=
  match w.phase with
  | .sweeping pending ((stream, name) :: entries) [] =>
      match stripSuffix uploadedSuffix name with
      | none => some (.sweeping pending entries [])
      | some stem =>
          if ((w.dir stream).lookup name).isNone then some (.uploading pending [])
          else if age.any (retention up < ·) then
            some (.sweeping pending entries ((siblings stem).map (fun file => (stream, file))))
          else some (.sweeping pending entries [])
  | _ => none

/-- The next step of a running upload. -/
def uploadAct (up : UploaderConfig) (w : Writer) (waiting : List PendingChunk)
    (running : List Upload) (task : Nat) (result : PutResult) : Option (List Event × Writer) := do
  let upload ← running[task]?
  match upload.rest with
  | [] => some ([], { w with phase := .uploading waiting (running.eraseIdx task) })
  | .onDisk step :: later =>
      let running := running.set task { upload with rest := later }
      some ([], { w.onDisk upload.chunk.stream step with phase := .uploading waiting running })
  | .put ext :: later =>
      if upload.attempt < up.retryAttempts then
        let chunk := upload.chunk
        let key := objectKey chunk.stream chunk.startSlot chunk.endSlot ext
        let file := (w.dir chunk.stream).lookup (withExtension chunk.base ext)
        let (stored, succeeded) := putFile file result
        let running := match upload.retry up later succeeded with
          | some upload => running.set task upload
          | none => running.eraseIdx task
        match stored with
        | some content =>
            some ([.put key content],
              { w with bucket := w.bucket.insert key content, phase := .uploading waiting running })
        | none => some ([], { w with phase := .uploading waiting running })
      else some ([], { w with phase := .uploading waiting (running.eraseIdx task) })

/-- The effect of an action, if it can be taken: what goes into the books, and the state
behind it. -/
def act (k : Codecs) (cfg : WriterConfig) (up : UploaderConfig) (w : Writer) :
    Action → Option (List Event × Writer)
  | .sealStep stream => sealAct w stream
  | .scan found =>
      match w.phase with
      | .idle =>
          if found ⊆ scanPending w.dir then some ([], { w with phase := .sweeping found [] [] })
          else none
      | _ => none
  | .readDir stream names =>
      match w.phase with
      | .sweeping pending [] [] =>
          if names ⊆ (w.dir stream).keys then
            some ([], { w with phase := .sweeping pending (names.map (fun name => (stream, name))) [] })
          else none
      | _ => none
  | .examine age => (examineAct up w age).map (fun phase => ([], { w with phase }))
  | .remove succeeds =>
      match w.phase with
      | .sweeping pending entries ((stream, name) :: removals) =>
          let w := { w with phase := .sweeping pending entries removals }
          if succeeds ∧ ((w.dir stream).lookup name).isSome then
            some ([.swept stream name], w.onDisk stream (.remove name))
          else some ([], w)
      | _ => none
  | .endSweep =>
      match w.phase with
      | .sweeping pending [] [] => some ([], { w with phase := .uploading pending [] })
      | _ => none
  | .spawn =>
      match w.phase with
      | .uploading (chunk :: waiting) running =>
          if running.length < up.maxConcurrentUploads then
            let upload := { chunk, rest := uploadChunk chunk, attempt := 0 }
            some ([], { w with phase := .uploading waiting (running ++ [upload]) })
          else none
      | _ => none
  | .upload task result =>
      match w.phase with
      | .uploading waiting running => uploadAct up w waiting running task result
      | _ => none
  | .fail task =>
      match w.phase with
      | .uploading waiting running =>
          some ([], { w with phase := .uploading waiting (running.eraseIdx task) })
      | _ => none
  | .join =>
      match w.phase with
      | .uploading [] [] => some ([], { w with phase := .idle })
      | _ => none
  | .crash => some ([], { w.restartOn cfg w.dir with phase := .down })
  | .sweepPartial stream name =>
      match w.phase with
      | .down => if Recovery.isPartial name then some ([], w.onDisk stream (.remove name)) else none
      | _ => none
  | .boot =>
      match w.phase with
      | .down => some ([], { w.restartOn cfg (Recovery.runRecovery w.dir).1 with phase := .idle })
      | _ => none
  | .advance stream slot => lane stream (.advance stream slot)
  | .openChunk stream now idx => lane stream (.openChunk stream now idx)
  | .append stream a => lane stream (.append stream a)
  | .beginSeal stream reason idx => lane stream (.beginSeal stream reason idx)
where
  lane (stream : Stream) (action : Action) : Option (List Event × Writer) := do
    let s ← w.free stream
    let after ← laneAct k s action
    some ([], w.withLane stream after)

/-! ## Names -/

/-- A name without a dot has no extension to replace. -/
theorem withExtension_plain {name : FileName} (plain : '.' ∉ name) (ext : String) :
    withExtension name ext = name ++ '.' :: ext.toList := by
  have noDot : name.reverse.dropWhile (· ≠ '.') = [] := by
    rw [List.dropWhile_eq_nil_iff]
    intro symbol member
    have distinct : symbol ≠ '.' := fun same => plain (same ▸ List.mem_reverse.mp member)
    simpa using distinct
  rw [withExtension, fileStem, noDot]

/-- A stem gets an extension as a file of its chunk has it. -/
theorem withExtension_stem (start stop : Nat) (ext : String) :
    withExtension (stem start stop) ext = chunkFile start stop ext := by
  rw [withExtension_plain (dot_not_mem_stem start stop), chunkFile]

/-- A key determines the stream, the range and the extension. -/
theorem objectKey_injective {stream stream' : Stream} {start stop start' stop' : Nat}
    {ext ext' : String}
    (same : objectKey stream start stop ext = objectKey stream' start' stop' ext') :
    stream = stream' ∧ start = start' ∧ stop = stop' ∧ ext = ext' := by
  have slash : ∀ stream : Stream, '/' ∉ stream.asStr.toList := by
    intro stream
    cases stream <;> decide
  have tails : stream.asStr.toList ++ '/' :: chunkFile start stop ext =
      stream'.asStr.toList ++ '/' :: chunkFile start' stop' ext' := by
    unfold objectKey at same
    generalize "chunks/".toList = folder at same
    simpa only [List.append_assoc, List.append_cancel_left_eq] using same
  have streams := congrArg (List.takeWhile (· ≠ '/')) tails
  rw [takeWhile_separator (slash stream), takeWhile_separator (slash stream')] at streams
  have rest := congrArg (List.dropWhile (· ≠ '/')) tails
  rw [dropWhile_separator (slash stream), dropWhile_separator (slash stream')] at rest
  obtain ⟨starts, stops, exts⟩ := chunkFile_injective (List.cons.inj rest).2
  have sameStream : stream = stream' := by
    cases stream <;> cases stream' <;> first | rfl | exact absurd streams (by decide)
  exact ⟨sameStream, starts, stops, exts⟩

/-- The extensions of the files that lanes and uploads leave in a directory. -/
def knownExtensions : List String :=
  ["zst", "idx", "meta.json", "uploaded", "zst.partial", "idx.partial", "meta.json.partial",
    "uploaded.partial"]

/-- An extension whose last letter no other one has is recognised by the names that end
in it. -/
theorem stripSuffix_known {start stop : Nat} {ext own : String} {letter : Char} {text : FileName}
    (ends : own.toList.getLast? = some letter)
    (alone : ∀ other ∈ knownExtensions, other ≠ own →
      other.toList.getLast?.any (· ≠ letter) = true)
    (known : ext ∈ knownExtensions)
    (stripped : stripSuffix ('.' :: own.toList) (chunkFile start stop ext) = some text) :
    ext = own ∧ text = stem start stop := by
  by_cases isOwn : ext = own
  · subst isOwn
    rw [chunkFile, stripSuffix_append] at stripped
    exact ⟨rfl, (Option.some.inj stripped).symm⟩
  · obtain ⟨last, isLast, distinct⟩ := Option.any_eq_true _ _ |>.mp (alone ext known isOwn)
    have suffixEnds : ('.' :: own.toList).getLast? = some letter := by
      rw [List.getLast?_cons, ends]
      rfl
    rw [stripSuffix_of_ends suffixEnds (by simpa [chunkFile_last _ _ isLast] using distinct)]
      at stripped
    cases stripped

/-- Among the files of a chunk only the sidecar has the sidecar's suffix. -/
theorem stripSuffix_meta {start stop : Nat} {ext : String} {text : FileName}
    (known : ext ∈ knownExtensions)
    (stripped : stripSuffix metaSuffix (chunkFile start stop ext) = some text) :
    ext = "meta.json" ∧ text = stem start stop :=
  @stripSuffix_known _ _ _ "meta.json" 'n' _ (by decide) (by decide) known stripped

/-- Only the marker has the marker's. -/
theorem stripSuffix_uploaded {start stop : Nat} {ext : String} {text : FileName}
    (known : ext ∈ knownExtensions)
    (stripped : stripSuffix uploadedSuffix (chunkFile start stop ext) = some text) :
    ext = "uploaded" ∧ text = stem start stop :=
  @stripSuffix_known _ _ _ "uploaded" 'd' _ (by decide) (by decide) known stripped

end Uploader

end Sillage
