import Sillage.Writer.Archival.Uploads

/-!
# Local data is archived before it goes

However the steps of the lanes, the uploader and the recovery come in between each other,
the invariant holds behind each of them: whatever has a marker is in the bucket, and
nothing is removed without one.
-/

namespace Sillage.Uploader

open LittleEndian Directory Names OpenChunk

variable {k : Codecs} {cfg : WriterConfig} {up : UploaderConfig}

/-- The invariant holds at first. -/
theorem Sound.start : Sound cfg [] (Writer.start cfg) := by
  refine ⟨fun stream => ⟨rfl, ?_, ?_, ?_, ?_⟩, fun stream idx => ⟨?_, ?_, ?_, ?_, ?_⟩,
    .ofDown rfl (fun _ => rfl), ?_⟩
  all_goals simp [Writer.start, Chunker.new, Marked, Ordered]

/-- Every action keeps it. -/
theorem Sound.act (positive : 0 < cfg.slotsPerChunk) {books more : List Event} {w w' : Writer}
    (sound : Sound cfg books w) {action : Action}
    (done : Uploader.act k cfg up w action = some (more, w')) : Sound cfg (books ++ more) w' := by
  cases action with
  | advance stream slot => exact sound.lane positive done
  | openChunk stream now idx => exact sound.lane positive done
  | append stream a => exact sound.lane positive done
  | beginSeal stream reason idx => exact sound.lane positive done
  | sealStep stream => exact sound.sealAct positive done
  | scan found =>
    simp only [Uploader.act] at done
    split at done
    · split at done
      · next listed =>
        obtain ⟨rfl, rfl⟩ := Prod.mk.inj (Option.some.inj done)
        rw [List.append_nil]
        exact sound.scan positive listed
      · cases done
    · cases done
  | readDir stream names =>
    simp only [Uploader.act] at done
    split at done
    · next pending isSweeping =>
      split at done
      · obtain ⟨rfl, rfl⟩ := Prod.mk.inj (Option.some.inj done)
        rw [List.append_nil]
        exact ⟨sound.lanes, sound.chunks, sound.phase.sweep isSweeping (.inl rfl), sound.ordered⟩
      · cases done
    · cases done
  | examine age =>
    obtain ⟨phase, examined, rest⟩ := Option.map_eq_some_iff.mp done
    obtain ⟨rfl, rfl⟩ := Prod.mk.inj rest
    rw [List.append_nil]
    exact sound.examine examined
  | remove succeeds =>
    simp only [Uploader.act] at done
    split at done
    · next pending entries stream name removals isSweeping =>
      obtain ⟨idx, ext, exts, rfl, rfl, marker, suffix⟩ :=
        (sound.phase.removing _ _ _ isSweeping).first
      split at done
      · obtain ⟨rfl, rfl⟩ := Prod.mk.inj (Option.some.inj done)
        apply Sound.note (fun _ _ => rfl)
        exact sound.remove positive isSweeping marker suffix
      · obtain ⟨rfl, rfl⟩ := Prod.mk.inj (Option.some.inj done)
        rw [List.append_nil]
        refine ⟨sound.lanes, sound.chunks, sound.phase.sweep isSweeping ?_, sound.ordered⟩
        exact .inr ⟨stream, idx, exts, marker, (List.suffix_cons ext exts).trans suffix, rfl⟩
    · cases done
  | endSweep =>
    simp only [Uploader.act] at done
    split at done
    · next pending isSweeping =>
      obtain ⟨rfl, rfl⟩ := Prod.mk.inj (Option.some.inj done)
      rw [List.append_nil]
      exact ⟨sound.lanes, sound.chunks, sound.phase.endSweep isSweeping, sound.ordered⟩
    · cases done
  | spawn =>
    simp only [Uploader.act] at done
    split at done
    · next chunk waiting running isUploading =>
      split at done
      · obtain ⟨rfl, rfl⟩ := Prod.mk.inj (Option.some.inj done)
        rw [List.append_nil]
        refine ⟨sound.lanes, sound.chunks, ?_, sound.ordered⟩
        refine @PhaseSound.uploading cfg w _ sound.phase _ _ rfl (fun _ _ present => present) ?_ ?_
        · intro other queued
          rw [isUploading]
          simp only [List.map_append, List.map_cons, List.map_nil, List.mem_append, List.mem_cons,
            List.not_mem_nil, or_false, Phase.queue] at queued ⊢
          tauto
        · intro upload member
          rcases List.mem_append.mp member with ran | isNew
          · exact sound.phase.progress _ _ isUploading upload ran
          · obtain rfl := List.mem_singleton.mp isNew
            exact ⟨[], rfl, fun ext before => by cases before⟩
      · cases done
    · cases done
  | upload task result =>
    simp only [Uploader.act] at done
    split at done
    · next waiting running isUploading => exact sound.uploadAct positive isUploading done
    · cases done
  | fail task =>
    simp only [Uploader.act] at done
    split at done
    · next waiting running isUploading =>
      obtain ⟨rfl, rfl⟩ := Prod.mk.inj (Option.some.inj done)
      rw [List.append_nil]
      refine ⟨sound.lanes, sound.chunks, ?_, sound.ordered⟩
      refine @PhaseSound.uploading cfg w _ sound.phase _ _ rfl (fun _ _ present => present) ?_ ?_
      · intro chunk queued
        rw [isUploading]
        rcases List.mem_append.mp queued with waits | runs
        · exact List.mem_append_left _ waits
        · obtain ⟨upload, among, rfl⟩ := List.mem_map.mp runs
          exact List.mem_append_right _ (List.mem_map_of_mem (List.mem_of_mem_eraseIdx among))
      · exact fun upload among =>
          sound.phase.progress _ _ isUploading upload (List.mem_of_mem_eraseIdx among)
    · cases done
  | join =>
    simp only [Uploader.act] at done
    split at done
    · obtain ⟨rfl, rfl⟩ := Prod.mk.inj (Option.some.inj done)
      rw [List.append_nil]
      exact ⟨sound.lanes, sound.chunks, .ofIdle rfl, sound.ordered⟩
    · cases done
  | crash =>
    obtain ⟨rfl, rfl⟩ := Prod.mk.inj (Option.some.inj done)
    rw [List.append_nil]
    exact sound.crash
  | sweepPartial stream name =>
    simp only [Uploader.act] at done
    split at done
    · next isDown =>
      split at done
      · next leftover =>
        obtain ⟨rfl, rfl⟩ := Prod.mk.inj (Option.some.inj done)
        rw [List.append_nil]
        exact sound.sweepPartial isDown leftover
      · cases done
    · cases done
  | boot =>
    simp only [Uploader.act] at done
    split at done
    · obtain ⟨rfl, rfl⟩ := Prod.mk.inj (Option.some.inj done)
      rw [List.append_nil]
      exact sound.boot
    · cases done

/-- So does every run. -/
theorem Sound.steps (positive : 0 < cfg.slotsPerChunk) {allowed : Writer → Action → Prop}
    {books more : List Event} {w w' : Writer} (sound : Sound cfg books w)
    (ran : Steps k cfg up allowed w more w') : Sound cfg (books ++ more) w' := by
  induction ran with
  | start => rwa [List.append_nil]
  | step action ran may done inductionHypothesis =>
    rw [← List.append_assoc]
    exact inductionHypothesis.act positive done

/-- What a step puts into the books, and what it does to the bucket. -/
inductive Booked (w w' : Writer) : List Event → Prop where
  | none (same : w'.bucket = w.bucket) : Booked w w' []
  | «sealed» (stream : Stream) (idx : Nat) (files : ChunkFiles) (same : w'.bucket = w.bucket) :
      Booked w w' [.sealed stream idx files]
  | put {waiting : List PendingChunk} {running : List Upload} {upload : Upload} {ext : String}
      {later : List UploadStep} {content : Bytes}
      (isUploading : w.phase = .uploading waiting running) (member : upload ∈ running)
      (isNext : upload.rest = .put ext :: later)
      (stored : (w.dir upload.chunk.stream).lookup (withExtension upload.chunk.base ext) =
        some content)
      (lanes : w'.lanes = w.lanes)
      (stores : w'.bucket = w.bucket.insert
        (objectKey upload.chunk.stream upload.chunk.startSlot upload.chunk.endSlot ext) content) :
      Booked w w'
        [.put (objectKey upload.chunk.stream upload.chunk.startSlot upload.chunk.endSlot ext) content]
  | swept {pending : List PendingChunk} {entries removals : List (Stream × FileName)}
      {stream : Stream} {name : FileName}
      (isSweeping : w.phase = .sweeping pending entries ((stream, name) :: removals))
      (same : w'.bucket = w.bucket) : Booked w w' [.swept stream name]

/-- A step of a lane books nothing but what it seals. -/
theorem booked_lane {w w' : Writer} {more : List Event} {stream : Stream} {action : Action}
    (done : act.lane k w stream action = some (more, w')) : Booked w w' more := by
  obtain ⟨s, -, rest⟩ := Option.bind_eq_some_iff.mp done
  obtain ⟨after, -, rest⟩ := Option.bind_eq_some_iff.mp rest
  obtain ⟨rfl, rfl⟩ := Prod.mk.inj (Option.some.inj rest)
  exact .none rfl

/-- A step of an upload books nothing but what it puts. -/
theorem booked_upload {w w' : Writer} {more : List Event} {waiting : List PendingChunk}
    {running : List Upload} {task : Nat} {result : PutResult}
    (isUploading : w.phase = .uploading waiting running)
    (done : uploadAct up w waiting running task result = some (more, w')) :
    Booked w w' more := by
  obtain ⟨upload, found, done⟩ := Option.bind_eq_some_iff.mp done
  split at done
  · obtain ⟨rfl, rfl⟩ := Prod.mk.inj (Option.some.inj done)
    exact .none rfl
  · obtain ⟨rfl, rfl⟩ := Prod.mk.inj (Option.some.inj done)
    exact .none rfl
  · next isNext =>
    dsimp only at done
    split at done
    · split at done
      · next content stores =>
        obtain ⟨rfl, rfl⟩ := Prod.mk.inj (Option.some.inj done)
        exact .put isUploading (List.mem_of_getElem? found) isNext
          ((putFile_stores _ _).1 content stores) rfl rfl
      · obtain ⟨rfl, rfl⟩ := Prod.mk.inj (Option.some.inj done)
        exact .none rfl
    · obtain ⟨rfl, rfl⟩ := Prod.mk.inj (Option.some.inj done)
      exact .none rfl

/-- Every action leaves one of these entries. -/
theorem act_booked {w w' : Writer} {more : List Event} {action : Action}
    (done : act k cfg up w action = some (more, w')) : Booked w w' more := by
  cases action with
  | advance stream slot => exact booked_lane done
  | openChunk stream now idx => exact booked_lane done
  | append stream a => exact booked_lane done
  | beginSeal stream reason idx => exact booked_lane done
  | sealStep stream =>
    simp only [act, sealAct] at done
    split at done
    · cases done
    · split at done
      · obtain ⟨rfl, rfl⟩ := Prod.mk.inj (Option.some.inj done)
        exact .sealed _ _ _ rfl
      · obtain ⟨rfl, rfl⟩ := Prod.mk.inj (Option.some.inj done)
        exact .none rfl
    · cases done
  | upload task result =>
    simp only [act] at done
    split at done
    · next isUploading => exact booked_upload isUploading done
    · cases done
  | remove succeeds =>
    simp only [act] at done
    split at done
    · next isSweeping =>
      split at done
      · obtain ⟨rfl, rfl⟩ := Prod.mk.inj (Option.some.inj done)
        exact .swept isSweeping rfl
      · obtain ⟨rfl, rfl⟩ := Prod.mk.inj (Option.some.inj done)
        exact .none rfl
    · cases done
  | examine age =>
    obtain ⟨phase, -, rest⟩ := Option.map_eq_some_iff.mp done
    obtain ⟨rfl, rfl⟩ := Prod.mk.inj rest
    exact .none rfl
  | crash =>
    obtain ⟨rfl, rfl⟩ := Prod.mk.inj (Option.some.inj done)
    exact .none rfl
  | _ =>
    simp only [act] at done
    repeat' split at done
    all_goals first
      | (obtain ⟨rfl, rfl⟩ := Prod.mk.inj (Option.some.inj done); exact .none rfl)
      | cases done

/-- In every run a chunk with its marker has its three objects in the bucket, exactly as
sealed if it was sealed once; a sidecar is in the bucket with its siblings only; and
whatever the retention sweep removes is a file of a chunk with its marker. -/
theorem archived_before_deleted (k : Codecs) (cfg : WriterConfig) (up : UploaderConfig)
    (positive : 1 ≤ cfg.slotsPerChunk) (books : List Event) (w : Writer)
    (ran : Run k cfg up books w) :
    (∀ stream idx, Marked cfg (w.dir stream) idx →
      Archived cfg w.bucket stream idx ∧
        ∀ files, sealings books stream idx = [files] → ∀ ext ∈ finalExtensions,
          w.bucket.lookup (objectOf cfg stream idx ext) = some (files.content ext)) ∧
    (∀ stream start stop,
      (w.bucket.lookup (objectKey stream start stop "meta.json")).isSome = true →
        (w.bucket.lookup (objectKey stream start stop "zst")).isSome = true ∧
        (w.bucket.lookup (objectKey stream start stop "idx")).isSome = true) ∧
    ∀ action more w', act k cfg up w action = some (more, w') →
      ∀ stream name, .swept stream name ∈ more →
        ∃ idx, ∃ ext ∈ archivalExtensions, name = chunkName cfg idx ext ∧
          Marked cfg (w.dir stream) idx := by
  have sound : Sound cfg books w := Sound.start.steps positive ran
  refine ⟨fun stream idx marker => ?_, fun stream start stop sidecar => ?_, ?_⟩
  · have archived := (sound.chunks stream idx).marked marker
    refine ⟨archived, fun files once ext final => ?_⟩
    obtain ⟨content, stored⟩ := Option.isSome_iff_exists.mp (archived ext final)
    rw [stored, (sound.chunks stream idx).objects files once ext final content stored]
  · have all := sound.ordered stream start stop sidecar
    exact ⟨all "zst" (by decide), all "idx" (by decide)⟩
  · intro action more w' done stream name swept
    cases act_booked done with
    | swept isSweeping _ =>
      cases List.mem_singleton.mp swept
      obtain ⟨idx, ext, exts, named, -, marker, suffix⟩ :=
        (sound.phase.removing _ _ _ isSweeping).first
      have member := (show ∀ ext ∈ ["zst", "idx", "meta.json", "uploaded"],
        ext ∈ archivalExtensions by decide) ext (suffix.subset List.mem_cons_self)
      exact ⟨idx, ext, member, named, marker⟩
    | none _ => cases swept
    | «sealed» _ _ _ _ => cases List.mem_singleton.mp swept
    | put _ _ _ _ _ _ => cases List.mem_singleton.mp swept

/-- A chunk of the transaction stream with one message. -/
def sealLone : List Action :=
  [.boot, .advance .tx 500, .openChunk .tx 0 0, .append .tx ⟨0, ⟨0, ⟨[], none, none, []⟩⟩, 500⟩,
    .beginSeal .tx "shutdown" 0] ++ List.replicate 8 (.sealStep .tx)

/-- The upload of that chunk, with a put that has to be tried again. -/
def uploadLone : List Action :=
  [.scan [pendingChunk ⟨1000, 100, 4⟩ .tx 0], .endSweep, .spawn, .upload 0 .unanswered] ++
    List.replicate 5 (.upload 0 .stored)

/-- Behind a seal and a pass the bucket has the three files as they were sealed. -/
theorem archived_before_deleted_lone : ∃ books w files,
    acts PlainCodecs.plain ⟨1000, 100, 4⟩ ⟨4, 3, 24⟩ (fun _ _ => True)
      (Writer.start ⟨1000, 100, 4⟩) (sealLone ++ uploadLone) = some (books, w) ∧
    sealings books .tx 0 = [files] ∧
    ∀ ext ∈ finalExtensions,
      w.bucket.lookup (objectOf ⟨1000, 100, 4⟩ .tx 0 ext) = some (files.content ext) := by
  have computed : (acts PlainCodecs.plain ⟨1000, 100, 4⟩ ⟨4, 3, 24⟩ (fun _ _ => True)
      (Writer.start ⟨1000, 100, 4⟩) (sealLone ++ uploadLone)).any (fun result =>
        (sealings result.1 .tx 0).length = 1 ∧
          Marked ⟨1000, 100, 4⟩ (result.2.dir .tx) 0) = true := by
    decide +kernel
  obtain ⟨⟨books, w⟩, done, facts⟩ := Option.any_eq_true _ _ |>.mp computed
  obtain ⟨one, marker⟩ := of_decide_eq_true facts
  obtain ⟨files, once⟩ := List.length_eq_one_iff.mp one
  have archived := (archived_before_deleted PlainCodecs.plain ⟨1000, 100, 4⟩ ⟨4, 3, 24⟩ (by decide)
    books w (steps_of_acts done)).1 .tx 0 marker
  exact ⟨books, w, files, done, once, archived.2 files once⟩

end Sillage.Uploader
