import Mathlib.Data.Char
import Sillage.Foundation.Behaviour
import Sillage.Foundation.Pages
import Sillage.Foundation.Tasks
import Sillage.Reader.Listing
import Sillage.Reader.Publication

/-!
# The syncer, step by step

A cycle of the syncer takes its time, and the bucket and the disk are open to others
meanwhile. Here the syncer goes one step at a time: a page of the listing, a download
that is started, a single change of a file, a removal, a publication. The downloads of a
cycle run side by side. The bucket is that of the moment: a page lists what it holds then,
and a get returns what it holds then. Any step may fail, and the process may crash behind
any of them.
-/

namespace Sillage

open LittleEndian Directory Names

/-- The key of a chunk's file in the bucket. -/
def ChunkKey.object (key : ChunkKey) (ext : String) : List Char :=
  Uploader.objectKey key.stream key.startSlot key.endSlot ext

/-- What identifies a listed chunk. -/
def Listing.R2Chunk.key (chunk : Listing.R2Chunk) : ChunkKey :=
  ⟨chunk.stream, chunk.startSlot, chunk.endSlot⟩

/-- The part of the reader's configuration that the syncer goes by. -/
structure SyncerConfig where
  maxConcurrentDownloads : Nat
  retryAttempts : Nat
  localRetentionHours : Nat

namespace Syncer

open Sync

/-- Where the download of a file is: before the get, before its temporary file is created,
before the bytes are written to it, before it is renamed. -/
inductive Stage where
  | fetching
  | creating (content : Bytes)
  | writing (content : Bytes)
  | placing
deriving DecidableEq

/-- A running download of a chunk: the file that it is at, the files behind that, and the
failed attempts at the file. -/
structure Download where
  key : ChunkKey
  ext : String
  rest : List String
  stage : Stage
  attempt : Nat
deriving DecidableEq

/-- The download of a chunk, at its payload. -/
def Download.start (key : ChunkKey) : Download where
  key := key
  ext := "zst"
  rest := ["idx", "meta.json"]
  stage := .fetching
  attempt := 0

/-- How a step of a download ends. A write that fails may leave some bytes. -/
inductive Result where
  | done
  | failed (leftover : Option Bytes)
deriving DecidableEq

/-- What is behind a step of a download: the disk, the download unless it has ended, and
whether it has ended with all files in place. -/
structure Advanced where
  files : Files
  next : Option Download
  complete : Bool

/-- Try the file again, unless that was the last attempt. -/
def Download.retry (cfg : SyncerConfig) (d : Download) : Option Download :=
  if d.attempt + 1 < cfg.retryAttempts then
    some { d with stage := .fetching, attempt := d.attempt + 1 }
  else none

/-- The temporary name of the file that a download is at. -/
def Download.temporary (d : Download) : FileName := d.key.file (d.ext ++ ".partial")

/-- The next step of a download. -/
def Download.advance (cfg : SyncerConfig) (bucket : Uploader.Bucket) (files : Files)
    (d : Download) (result : Result) : Advanced :=
  let onDisk step := applyOn files (d.key.stream, step)
  match d.stage, result with
  | .fetching, result =>
      if d.attempt < cfg.retryAttempts then
        match result, bucket.lookup (d.key.object d.ext) with
        | .done, some content => ⟨files, some { d with stage := .creating content }, false⟩
        | _, _ => ⟨files, d.retry cfg, false⟩
      else ⟨files, none, false⟩
  | .creating content, .done =>
      ⟨onDisk (.create d.temporary), some { d with stage := .writing content }, false⟩
  | .creating _, .failed _ => ⟨files, d.retry cfg, false⟩
  | .writing content, .done =>
      ⟨onDisk (.write d.temporary content), some { d with stage := .placing }, false⟩
  | .writing _, .failed (some bytes) => ⟨onDisk (.write d.temporary bytes), d.retry cfg, false⟩
  | .writing _, .failed none => ⟨files, d.retry cfg, false⟩
  | .placing, .done =>
      let files := onDisk (.rename d.temporary (d.key.file d.ext))
      match d.rest with
      | [] => ⟨files, none, true⟩
      | ext :: rest =>
          ⟨files, some { d with ext := ext, rest := rest, stage := .fetching, attempt := 0 }, false⟩
  | .placing, .failed _ => ⟨files, none, false⟩

/-- Where the syncer is in its life: at the temporary files that are left to remove at the
start, between two cycles, at a page of the listing, at its downloads, at the removals of
the sweep. The process is down before a start and after a crash. -/
inductive Phase where
  | down
  | clearing (leftovers : List (Stream × FileName))
  | idle
  | listing (seen : Pages.Progress (List Char))
  | downloading (waiting : List ChunkKey) (running : List Download) (downloaded : Nat)
  | evicting (removals : List (Stream × FileName)) (downloaded swept : Nat)
deriving DecidableEq

end Syncer

/-- The disk, the published catalog, and where the syncer is. -/
structure Syncer where
  files : Files
  catalog : ChunkCatalog
  phase : Syncer.Phase

namespace Syncer

open Sync

/-- A catalog without chunks has them under the right keys. -/
theorem keyed_empty (stream : Stream) (start : Nat) (entry : ChunkEntry)
    (found : (∅ : Std.TreeMap Nat ChunkEntry)[start]? = some entry) :
    entry.stream = stream ∧ entry.startSlot = start := by
  simp at found

/-- Before the first start. -/
def start : Syncer where
  files _ := ∅
  catalog := ⟨fun _ => ∅, keyed_empty⟩
  phase := .down

/-- What a run leaves in the books: a chunk of which all files have been downloaded, and a
file that the sweep has removed. -/
inductive Entry where
  | downloaded (key : ChunkKey)
  | removed (stream : Stream) (name : FileName)
deriving DecidableEq

/-- A step of the syncer. -/
inductive Action where
  | boot (order : DirOrder)
  | clear (succeeds : Bool)
  | serve
  | begin
  | page (count : Nat)
  | listFails
  | spawn
  | download (task : Nat) (result : Result)
  | abort (task : Nat)
  | sweep (victims : List ChunkKey)
  | evict (succeeds : Bool)
  | publish (order : DirOrder)
  | publishFails
  | rest
  | crash

/-- The temporary files of all directories. -/
def leftovers (files : Files) : List (Stream × FileName) :=
  Stream.all.flatMap (fun stream =>
    ((files stream).keys.filter (fun name => partialSuffix <:+ name)).map (fun name => (stream, name)))

/-- The keys that a listing of the chunks goes through. -/
def listedKeys (bucket : Uploader.Bucket) : List (List Char) :=
  bucket.keys.filter (fun key => "chunks/".toList <+: key)

/-- The chunks behind some listed keys. -/
def remoteOf (keys : List (List Char)) : List ChunkKey :=
  (Listing.listChunks keys).map Listing.R2Chunk.key

/-- The files that a sweep removes. -/
def victimFiles (victims : List ChunkKey) : List (Stream × FileName) :=
  victims.flatMap (fun key => trio.map (fun ext => (key.stream, key.file ext)))

/-- A page of the listing; behind the last one the downloads are chosen. -/
def pageAct (cfg : SyncerConfig) (bucket : Uploader.Bucket) (s : Syncer)
    (seen : Pages.Progress (List Char)) (count : Nat) : Syncer :=
  let after := seen.page (listedKeys bucket) count
  if after.2 then { s with phase := .listing after.1 }
  else
    { s with
      phase := .downloading
        (diffForSync (localChunks s.files) (remoteOf after.1.keys) cfg.localRetentionHours) [] 0 }

/-- A step of a running download. -/
def downloadAct (cfg : SyncerConfig) (bucket : Uploader.Bucket) (s : Syncer)
    (waiting : List ChunkKey) (running : List Download) (downloaded task : Nat) (result : Result) :
    Option (List Entry × Syncer) := do
  let d ← running[task]?
  let after := d.advance cfg bucket s.files result
  let running := Tasks.replaced running task after.next
  if after.complete then
    some ([.downloaded d.key],
      { s with files := after.files, phase := .downloading waiting running (downloaded + 1) })
  else some ([], { s with files := after.files, phase := .downloading waiting running downloaded })

/-- The effect of an action beside a bucket, if it can be taken. -/
def act (k : Codecs) (cfg : SyncerConfig) (bucket : Uploader.Bucket) : Behaviour Syncer Action Entry :=
  fun s action =>
    match action, s.phase with
    | .boot order, .down =>
        some ([], { s with
          catalog := scanIn k order s.files, phase := .clearing (leftovers s.files) })
    | .clear succeeds, .clearing ((stream, name) :: rest) =>
        some ([], { s with
          files := if succeeds then applyOn s.files (stream, .remove name) else s.files
          phase := .clearing rest })
    | .serve, .clearing [] => some ([], { s with phase := .idle })
    | .begin, .idle => some ([], { s with phase := .listing Pages.Progress.start })
    | .page count, .listing seen => some ([], pageAct cfg bucket s seen count)
    | .listFails, .listing _ => some ([], { s with phase := .idle })
    | .spawn, .downloading (key :: waiting) running downloaded =>
        if running.length < cfg.maxConcurrentDownloads then
          some ([], { s with
            phase := .downloading waiting (running ++ [Download.start key]) downloaded })
        else none
    | .download task result, .downloading waiting running downloaded =>
        downloadAct cfg bucket s waiting running downloaded task result
    | .abort task, .downloading waiting running downloaded =>
        some ([], { s with phase := .downloading waiting (running.eraseIdx task) downloaded })
    | .sweep victims, .downloading [] [] downloaded =>
        if victims.Nodup ∧
            victims.toFinset = evicted (localChunks s.files) cfg.localRetentionHours then
          some ([], { s with phase := .evicting (victimFiles victims) downloaded victims.length })
        else none
    | .evict succeeds, .evicting ((stream, name) :: removals) downloaded swept =>
        if succeeds ∧ ((s.files stream).lookup name).isSome then
          some ([.removed stream name], { s with
            files := applyOn s.files (stream, .remove name)
            phase := .evicting removals downloaded swept })
        else some ([], { s with phase := .evicting removals downloaded swept })
    | .publish order, .evicting [] downloaded swept =>
        if 0 < downloaded ∨ 0 < swept then
          some ([], { s with catalog := scanIn k order s.files, phase := .idle })
        else none
    | .publishFails, .evicting [] downloaded swept =>
        if 0 < downloaded ∨ 0 < swept then some ([], { s with phase := .idle }) else none
    | .rest, .evicting [] 0 0 => some ([], { s with phase := .idle })
    | .crash, _ => some ([], { s with phase := .down })
    | _, _ => none

/-! ## What the steps do -/

/-- What a step of a download does. -/
inductive Download.Moves (cfg : SyncerConfig) (bucket : Uploader.Bucket) (files : Files)
    (d : Download) : Result → Advanced → Prop where
  | ends (result : Result)
      (failed : result ≠ .done ∨ cfg.retryAttempts ≤ d.attempt ∨
        d.stage = .fetching ∧ bucket.lookup (d.key.object d.ext) = none) :
      Moves cfg bucket files d result ⟨files, none, false⟩
  | retries (result : Result)
      (failed : result ≠ .done ∨ d.stage = .fetching ∧ bucket.lookup (d.key.object d.ext) = none) :
      Moves cfg bucket files d result
        ⟨files, some { d with stage := .fetching, attempt := d.attempt + 1 }, false⟩
  | fetched {content : Bytes} (isFetching : d.stage = .fetching)
      (stored : bucket.lookup (d.key.object d.ext) = some content) :
      Moves cfg bucket files d .done ⟨files, some { d with stage := .creating content }, false⟩
  | creates {content : Bytes} (isCreating : d.stage = .creating content) :
      Moves cfg bucket files d .done
        ⟨applyOn files (d.key.stream, .create d.temporary),
          some { d with stage := .writing content }, false⟩
  | spoils (bytes : Bytes) (next : Option Download)
      (again : ∀ d' ∈ next, d' = { d with stage := .fetching, attempt := d.attempt + 1 }) :
      Moves cfg bucket files d (.failed (some bytes))
        ⟨applyOn files (d.key.stream, .write d.temporary bytes), next, false⟩
  | writes {content : Bytes} (isWriting : d.stage = .writing content) :
      Moves cfg bucket files d .done
        ⟨applyOn files (d.key.stream, .write d.temporary content),
          some { d with stage := .placing }, false⟩
  | lands {ext : String} {rest : List String} (isPlacing : d.stage = .placing)
      (more : d.rest = ext :: rest) :
      Moves cfg bucket files d .done
        ⟨applyOn files (d.key.stream, .rename d.temporary (d.key.file d.ext)),
          some ⟨d.key, ext, rest, .fetching, 0⟩, false⟩
  | completes (isPlacing : d.stage = .placing) (last : d.rest = []) :
      Moves cfg bucket files d .done
        ⟨applyOn files (d.key.stream, .rename d.temporary (d.key.file d.ext)), none, true⟩

/-- A download moves on in one of these ways. -/
theorem Download.advance_moves (cfg : SyncerConfig) (bucket : Uploader.Bucket) (files : Files)
    (d : Download) (result : Result) :
    d.Moves cfg bucket files result (d.advance cfg bucket files result) := by
  have retried : ∀ (failed : result ≠ .done ∨
      d.stage = .fetching ∧ bucket.lookup (d.key.object d.ext) = none),
      d.Moves cfg bucket files result ⟨files, d.retry cfg, false⟩ := by
    intro failed
    rw [Download.retry]
    split
    · exact .retries result failed
    · exact .ends result (failed.imp_right .inr)
  obtain ⟨key, ext, rest, stage, attempt⟩ := d
  cases stage with
  | fetching =>
    by_cases left : attempt < cfg.retryAttempts
    · cases result with
      | failed leftover =>
        simp only [Download.advance, if_pos left]
        exact retried (.inl (by simp))
      | done =>
        cases stored : bucket.lookup (key.object ext) with
        | none =>
          simp only [Download.advance, if_pos left, stored]
          exact retried (.inr ⟨rfl, stored⟩)
        | some content =>
          simp only [Download.advance, if_pos left, stored]
          exact .fetched rfl stored
    · simp only [Download.advance, if_neg left]
      exact .ends result (.inr (.inl (Nat.le_of_not_lt left)))
  | creating content =>
    cases result with
    | done => exact .creates rfl
    | failed leftover => exact retried (.inl (by simp))
  | writing content =>
    cases result with
    | done => exact .writes rfl
    | failed leftover =>
      cases leftover with
      | none => exact retried (.inl (by simp))
      | some bytes =>
        refine .spoils bytes _ (fun d' next => ?_)
        rw [Download.retry] at next
        split at next
        · exact (Option.some.inj next).symm
        · cases next
  | placing =>
    cases result with
    | done =>
      cases rest with
      | nil => exact .completes rfl rfl
      | cons next later => exact .lands rfl rfl
    | failed leftover => exact .ends _ (.inl (by simp))

/-- What every action does. -/
inductive Stepped (k : Codecs) (cfg : SyncerConfig) (bucket : Uploader.Bucket) (s : Syncer) :
    Action → List Entry → Syncer → Prop where
  | boots (order : DirOrder) (isDown : s.phase = .down) :
      Stepped k cfg bucket s (.boot order) []
        { s with catalog := scanIn k order s.files, phase := .clearing (leftovers s.files) }
  | clears {stream : Stream} {name : FileName} {rest : List (Stream × FileName)}
      (isClearing : s.phase = .clearing ((stream, name) :: rest)) :
      Stepped k cfg bucket s (.clear true) []
        { s with files := applyOn s.files (stream, .remove name), phase := .clearing rest }
  | leaves {file : Stream × FileName} {rest : List (Stream × FileName)}
      (isClearing : s.phase = .clearing (file :: rest)) :
      Stepped k cfg bucket s (.clear false) [] { s with phase := .clearing rest }
  | serves (isClearing : s.phase = .clearing []) :
      Stepped k cfg bucket s .serve [] { s with phase := .idle }
  | begins (isIdle : s.phase = .idle) :
      Stepped k cfg bucket s .begin [] { s with phase := .listing Pages.Progress.start }
  | pages {seen : Pages.Progress (List Char)} (count : Nat) (isListing : s.phase = .listing seen)
      (more : (seen.page (listedKeys bucket) count).2 = true) :
      Stepped k cfg bucket s (.page count) []
        { s with phase := .listing (seen.page (listedKeys bucket) count).1 }
  | chooses {seen : Pages.Progress (List Char)} (count : Nat)
      (isListing : s.phase = .listing seen)
      (last : (seen.page (listedKeys bucket) count).2 = false) :
      Stepped k cfg bucket s (.page count) []
        { s with
          phase := .downloading
            (diffForSync (localChunks s.files)
              (remoteOf (seen.page (listedKeys bucket) count).1.keys) cfg.localRetentionHours)
            [] 0 }
  | listFails {seen : Pages.Progress (List Char)} (isListing : s.phase = .listing seen) :
      Stepped k cfg bucket s .listFails [] { s with phase := .idle }
  | spawns {key : ChunkKey} {waiting : List ChunkKey} {running : List Download} {downloaded : Nat}
      (isDownloading : s.phase = .downloading (key :: waiting) running downloaded)
      (room : running.length < cfg.maxConcurrentDownloads) :
      Stepped k cfg bucket s .spawn []
        { s with phase := .downloading waiting (running ++ [Download.start key]) downloaded }
  | downloads {waiting : List ChunkKey} {running : List Download} {downloaded : Nat} (task : Nat)
      {d : Download} {result : Result} {after : Advanced}
      (isDownloading : s.phase = .downloading waiting running downloaded)
      (found : running[task]? = some d) (moves : d.Moves cfg bucket s.files result after) :
      Stepped k cfg bucket s (.download task result)
        (if after.complete then [.downloaded d.key] else [])
        { s with
          files := after.files
          phase := .downloading waiting (Tasks.replaced running task after.next)
            (if after.complete then downloaded + 1 else downloaded) }
  | aborts {waiting : List ChunkKey} {running : List Download} {downloaded : Nat} (task : Nat)
      (isDownloading : s.phase = .downloading waiting running downloaded) :
      Stepped k cfg bucket s (.abort task) []
        { s with phase := .downloading waiting (running.eraseIdx task) downloaded }
  | sweeps {victims : List ChunkKey} {downloaded : Nat}
      (isDownloading : s.phase = .downloading [] [] downloaded) (distinct : victims.Nodup)
      (all : victims.toFinset = evicted (localChunks s.files) cfg.localRetentionHours) :
      Stepped k cfg bucket s (.sweep victims) []
        { s with phase := .evicting (victimFiles victims) downloaded victims.length }
  | evicts {stream : Stream} {name : FileName} {removals : List (Stream × FileName)}
      {downloaded swept : Nat}
      (isEvicting : s.phase = .evicting ((stream, name) :: removals) downloaded swept) :
      Stepped k cfg bucket s (.evict true) [.removed stream name]
        { s with
          files := applyOn s.files (stream, .remove name)
          phase := .evicting removals downloaded swept }
  | keeps {stream : Stream} {name : FileName} {removals : List (Stream × FileName)}
      {downloaded swept : Nat} (succeeds : Bool)
      (isEvicting : s.phase = .evicting ((stream, name) :: removals) downloaded swept)
      (failed : succeeds = true → (s.files stream).lookup name = none) :
      Stepped k cfg bucket s (.evict succeeds) []
        { s with phase := .evicting removals downloaded swept }
  | publishes {downloaded swept : Nat} (order : DirOrder)
      (isEvicting : s.phase = .evicting [] downloaded swept)
      (changed : 0 < downloaded ∨ 0 < swept) :
      Stepped k cfg bucket s (.publish order) []
        { s with catalog := scanIn k order s.files, phase := .idle }
  | publishFails {downloaded swept : Nat} (isEvicting : s.phase = .evicting [] downloaded swept) :
      Stepped k cfg bucket s .publishFails [] { s with phase := .idle }
  | rests (isEvicting : s.phase = .evicting [] 0 0) :
      Stepped k cfg bucket s .rest [] { s with phase := .idle }
  | crashes : Stepped k cfg bucket s .crash [] { s with phase := .down }

/-- A step of a download is one of these steps. -/
theorem downloadAct_stepped {k : Codecs} {cfg : SyncerConfig} {bucket : Uploader.Bucket}
    {s s' : Syncer} {waiting : List ChunkKey} {running : List Download} {downloaded task : Nat}
    {result : Result} {more : List Entry}
    (isDownloading : s.phase = .downloading waiting running downloaded)
    (done : downloadAct cfg bucket s waiting running downloaded task result = some (more, s')) :
    Stepped k cfg bucket s (.download task result) more s' := by
  obtain ⟨d, found, done⟩ := Option.bind_eq_some_iff.mp done
  have stepped : Stepped k cfg bucket s (.download task result) _ _ :=
    .downloads task isDownloading found (d.advance_moves cfg bucket s.files result)
  dsimp only at done
  split at done
  · next complete =>
    obtain ⟨rfl, rfl⟩ := Prod.mk.inj (Option.some.inj done)
    simpa only [if_pos complete] using stepped
  · next incomplete =>
    obtain ⟨rfl, rfl⟩ := Prod.mk.inj (Option.some.inj done)
    simpa only [if_neg incomplete] using stepped

/-- Whatever the syncer does is one of these steps. -/
theorem act_stepped {k : Codecs} {cfg : SyncerConfig} {bucket : Uploader.Bucket} {s s' : Syncer}
    {action : Action} {more : List Entry} (done : act k cfg bucket s action = some (more, s')) :
    Stepped k cfg bucket s action more s' := by
  cases isPhase : s.phase with
  | down =>
    cases action <;> simp only [act, isPhase, reduceCtorEq] at done
    all_goals obtain ⟨rfl, rfl⟩ := Prod.mk.inj (Option.some.inj done)
    · exact .boots _ isPhase
    · exact .crashes
  | clearing left =>
    cases left with
    | nil =>
      cases action <;> simp only [act, isPhase, reduceCtorEq] at done
      all_goals obtain ⟨rfl, rfl⟩ := Prod.mk.inj (Option.some.inj done)
      · exact .serves isPhase
      · exact .crashes
    | cons file rest =>
      cases action <;> simp only [act, isPhase, reduceCtorEq] at done
      all_goals obtain ⟨rfl, rfl⟩ := Prod.mk.inj (Option.some.inj done)
      · next succeeds =>
        cases succeeds with
        | true => exact .clears isPhase
        | false => exact .leaves isPhase
      · exact .crashes
  | idle =>
    cases action <;> simp only [act, isPhase, reduceCtorEq] at done
    all_goals obtain ⟨rfl, rfl⟩ := Prod.mk.inj (Option.some.inj done)
    · exact .begins isPhase
    · exact .crashes
  | listing seen =>
    cases action <;> simp only [act, isPhase, reduceCtorEq] at done
    all_goals obtain ⟨rfl, rfl⟩ := Prod.mk.inj (Option.some.inj done)
    · next count =>
      simp only [pageAct]
      split
      · next more => exact .pages count isPhase more
      · next last => exact .chooses count isPhase (Bool.eq_false_iff.mpr last)
    · exact .listFails isPhase
    · exact .crashes
  | downloading waiting running downloaded =>
    cases action <;> simp only [act, isPhase, reduceCtorEq] at done
    · cases waiting with
      | nil => cases done
      | cons key waiting =>
        dsimp only at done
        split at done
        · next room =>
          obtain ⟨rfl, rfl⟩ := Prod.mk.inj (Option.some.inj done)
          exact .spawns isPhase room
        · cases done
    · exact downloadAct_stepped isPhase done
    · obtain ⟨rfl, rfl⟩ := Prod.mk.inj (Option.some.inj done)
      exact .aborts _ isPhase
    · cases waiting with
      | cons key waiting => cases done
      | nil =>
        cases running with
        | cons d running => cases done
        | nil =>
          dsimp only at done
          split at done
          · next all =>
            obtain ⟨rfl, rfl⟩ := Prod.mk.inj (Option.some.inj done)
            exact .sweeps isPhase all.1 all.2
          · cases done
    · obtain ⟨rfl, rfl⟩ := Prod.mk.inj (Option.some.inj done)
      exact .crashes
  | evicting removals downloaded swept =>
    cases removals with
    | nil =>
      cases action <;> simp only [act, isPhase, reduceCtorEq] at done
      · split at done
        · next changed =>
          obtain ⟨rfl, rfl⟩ := Prod.mk.inj (Option.some.inj done)
          exact .publishes _ isPhase changed
        · cases done
      · split at done
        · obtain ⟨rfl, rfl⟩ := Prod.mk.inj (Option.some.inj done)
          exact .publishFails isPhase
        · cases done
      · cases downloaded with
        | succ n => cases done
        | zero =>
          cases swept with
          | succ n => cases done
          | zero =>
            obtain ⟨rfl, rfl⟩ := Prod.mk.inj (Option.some.inj done)
            exact .rests isPhase
      · obtain ⟨rfl, rfl⟩ := Prod.mk.inj (Option.some.inj done)
        exact .crashes
    | cons file removals =>
      obtain ⟨stream, name⟩ := file
      cases action <;> simp only [act, isPhase, reduceCtorEq] at done
      · split at done
        · next both =>
          obtain ⟨rfl, rfl⟩ := Prod.mk.inj (Option.some.inj done)
          obtain ⟨rfl, -⟩ := both
          exact .evicts isPhase
        · next failed =>
          obtain ⟨rfl, rfl⟩ := Prod.mk.inj (Option.some.inj done)
          exact .keeps _ isPhase (fun tried => by simpa [tried] using failed)
      · obtain ⟨rfl, rfl⟩ := Prod.mk.inj (Option.some.inj done)
        exact .crashes

end Syncer

end Sillage
