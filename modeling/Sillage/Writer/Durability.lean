import Sillage.Writer.Provenance

/-!
# A sealed chunk is not lost

From its seal on, the three files of a chunk are all on disk or all in the bucket, each as
the seal wrote it. No order of the tasks' steps leaves a moment in between: a lane touches
no chunk that has a sidecar, an upload adds a marker only, a start removes temporary files,
and the sweep removes files of chunks that have their marker.
-/

namespace Sillage.Uploader

open LittleEndian Directory Names OpenChunk

/-- All files of a chunk are on disk. -/
def Whole (cfg : WriterConfig) (dir : Dir) (idx : Nat) : Prop :=
  ∀ ext ∈ finalExtensions, (dir.lookup (chunkName cfg idx ext)).isSome = true

/-- Whether a chunk is whole can be looked up. -/
instance (cfg : WriterConfig) (dir : Dir) (idx : Nat) : Decidable (Whole cfg dir idx) :=
  inferInstanceAs (Decidable (∀ ext ∈ finalExtensions, _))

/-- A directory has the same files of a chunk as another. -/
def SameFiles (cfg : WriterConfig) (idx : Nat) (dir dir' : Dir) : Prop :=
  ∀ ext ∈ finalExtensions,
    dir'.lookup (chunkName cfg idx ext) = dir.lookup (chunkName cfg idx ext)

variable {k : Codecs} {cfg : WriterConfig} {up : UploaderConfig} {notes more : List Note}
  {books events : List Event} {w w' : Writer} {action : Action} {stream : Stream} {idx : Nat}

/-- A directory has its own files. -/
theorem SameFiles.refl {dir : Dir} : SameFiles cfg idx dir dir := fun _ _ => rfl

/-- A chunk stays whole where its files stay. -/
theorem Whole.of_same {dir dir' : Dir} (same : SameFiles cfg idx dir dir')
    (whole : Whole cfg dir idx) : Whole cfg dir' idx := fun ext final => by
  rw [same ext final]
  exact whole ext final

/-- A whole chunk has its sidecar. -/
theorem Whole.sidecar {dir : Dir} (whole : Whole cfg dir idx) :
    (dir.lookup (chunkName cfg idx "meta.json")).isSome = true := whole "meta.json" (by decide)

/-! ## What a step does to the files of a sealed chunk -/

/-- A change of one directory changes no file of a chunk elsewhere. -/
theorem SameFiles.onDisk {own : Stream} {step : FileStep}
    (same : own = stream → SameFiles cfg idx (w.dir own) (FileStep.apply (w.dir own) step)) :
    SameFiles cfg idx (w.dir stream) ((w.onDisk own step).dir stream) := by
  rw [Writer.onDisk, dir_withLane]
  split
  · next isOwn =>
    subst isOwn
    exact same rfl
  · exact .refl

/-- A step of a lane leaves the files of the sealed chunks of all streams. -/
theorem lane_files (positive : 0 < cfg.slotsPerChunk) (sound : Sound cfg books w) {own : Stream}
    (done : act.lane k w own action = some (events, w')) (stream : Stream) (idx : Nat) :
    SameFiles cfg idx (w.dir stream) (w'.dir stream) := by
  obtain ⟨s, after, laneIs, stepped, -, rfl⟩ := lane_done done
  have laneSound : LaneSound cfg ⟨s, none⟩ := laneIs ▸ sound.lanes own
  rw [dir_withLane]
  split
  · next isOwn =>
    subst isOwn
    intro ext final
    rw [(laneAct_step positive laneSound stepped).same idx ext (List.mem_cons_of_mem _ final),
      Writer.dir, laneIs]
  · exact .refl

/-- A seal is at a chunk that has no sidecar yet. -/
theorem seal_files (positive : 0 < cfg.slotsPerChunk) (sound : Sound cfg books w) {own : Stream}
    (done : sealAct w own = some (events, w'))
    (sidecar : ((w.dir stream).lookup (chunkName cfg idx "meta.json")).isSome = true) :
    SameFiles cfg idx (w.dir stream) (w'.dir stream) := by
  simp only [sealAct] at done
  split at done
  · cases done
  · next sealingIdx files step rest isSealing isUp =>
    obtain ⟨jobSound, -⟩ := (sound.lanes own).sealing _ isSealing
    have untouched : own = stream →
        SameFiles cfg idx (w.dir own) (FileStep.apply (w.dir own) step) := by
      rintro rfl ext final
      refine jobSound.lookup_step positive (.inl ?_)
      rintro rfl
      rw [Writer.dir, jobSound.absent] at sidecar
      cases sidecar
    split at done
    all_goals
      obtain ⟨-, rfl⟩ := Prod.mk.inj (Option.some.inj done)
      rw [dir_withLane]
      split
    · next isOwn => exact isOwn ▸ untouched isOwn.symm
    · exact .refl
    · next isOwn => exact isOwn ▸ untouched isOwn.symm
    · exact .refl
  · cases done

/-- So does a step of an upload. -/
theorem upload_files (positive : 0 < cfg.slotsPerChunk) (sound : Sound cfg books w)
    {waiting : List PendingChunk} {running : List Upload} {task : Nat} {result : PutResult}
    (isUploading : w.phase = .uploading waiting running)
    (done : uploadAct up w waiting running task result = some (events, w')) (stream : Stream)
    (idx : Nat) : SameFiles cfg idx (w.dir stream) (w'.dir stream) := by
  rcases uploadAct_lanes positive sound.phase isUploading done with same | ⟨own, step, same, kept⟩
  · rw [Writer.dir, Writer.dir, same]
    exact .refl
  · have sameDir : w'.dir stream = (w.onDisk own step).dir stream := by
      rw [Writer.dir, Writer.dir, same]
    rw [sameDir]
    exact .onDisk (fun _ => kept idx)

/-- No step touches the files of a chunk that has its sidecar on disk, unless the chunk has
its marker. -/
theorem act_files (positive : 0 < cfg.slotsPerChunk) (sound : Sound cfg books w)
    (done : act k cfg up w action = some (events, w'))
    (sidecar : ((w.dir stream).lookup (chunkName cfg idx "meta.json")).isSome = true) :
    SameFiles cfg idx (w.dir stream) (w'.dir stream) ∨ Marked cfg (w.dir stream) idx := by
  cases action with
  | advance own slot => exact .inl (lane_files positive sound done stream idx)
  | openChunk own now i => exact .inl (lane_files positive sound done stream idx)
  | append own a => exact .inl (lane_files positive sound done stream idx)
  | beginSeal own reason i => exact .inl (lane_files positive sound done stream idx)
  | sealStep own => exact .inl (seal_files positive sound done sidecar)
  | upload task result =>
    simp only [act] at done
    split at done
    · next isUploading => exact .inl (upload_files positive sound isUploading done stream idx)
    · cases done
  | remove succeeds =>
    simp only [act] at done
    split at done
    · next own name removals isSweeping =>
      obtain ⟨i, ext, exts, rfl, -, marker, -⟩ := (sound.phase.removing _ _ _ isSweeping).first
      split at done
      · obtain ⟨-, rfl⟩ := Prod.mk.inj (Option.some.inj done)
        by_cases same : own = stream ∧ i = idx
        · obtain ⟨rfl, rfl⟩ := same
          exact .inr marker
        · refine .inl (.onDisk (fun isOwn ext' final => ?_))
          rw [lookup_remove, if_neg]
          exact fun named => same ⟨isOwn, (chunkName_injective positive named).1.symm⟩
      · obtain ⟨-, rfl⟩ := Prod.mk.inj (Option.some.inj done)
        exact .inl .refl
    · cases done
  | sweepPartial own name =>
    simp only [act] at done
    split at done
    · split at done
      · next leftover =>
        obtain ⟨-, rfl⟩ := Prod.mk.inj (Option.some.inj done)
        refine .inl (.onDisk (fun isOwn ext final => ?_))
        rw [lookup_remove, if_neg]
        rintro rfl
        rw [isPartial_archival idx (List.mem_cons_of_mem _ final)] at leftover
        cases leftover
      · cases done
    · cases done
  | boot =>
    simp only [act] at done
    split at done
    · obtain ⟨-, rfl⟩ := Prod.mk.inj (Option.some.inj done)
      refine .inl (fun ext final => ?_)
      exact (Recovery.lookup_sweepPartials (w.dir stream) _).trans
        (if_neg (by rw [isPartial_archival idx (List.mem_cons_of_mem _ final)]; decide))
    · cases done
  | examine age =>
    obtain ⟨phase, -, rest⟩ := Option.map_eq_some_iff.mp done
    obtain ⟨-, rfl⟩ := Prod.mk.inj rest
    exact .inl .refl
  | crash =>
    obtain ⟨-, rfl⟩ := Prod.mk.inj (Option.some.inj done)
    exact .inl .refl
  | _ =>
    simp only [act] at done
    repeat' split at done
    all_goals first
      | (obtain ⟨-, rfl⟩ := Prod.mk.inj (Option.some.inj done); exact .inl .refl)
      | cases done

/-! ## From its seal on -/

/-- No step takes an object out of the bucket. -/
theorem stored_stays (done : act k cfg up w action = some (events, w')) {key : List Char}
    (stored : (w.bucket.lookup key).isSome = true) : (w'.bucket.lookup key).isSome = true := by
  cases act_booked done with
  | none same => rwa [same]
  | «sealed» _ _ _ same => rwa [same]
  | swept _ same => rwa [same]
  | put _ _ _ _ _ stores =>
    rw [stores, lookup_put]
    split
    · rfl
    · exact stored

/-- What is archived stays archived. -/
theorem archived_stays (done : act k cfg up w action = some (events, w'))
    (archived : Archived cfg w.bucket stream idx) : Archived cfg w'.bucket stream idx :=
  fun ext final => stored_stays done (archived ext final)

/-- The files of a chunk are on disk, or in the bucket. -/
def Secured (cfg : WriterConfig) (w : Writer) (stream : Stream) (idx : Nat) : Prop :=
  Whole cfg (w.dir stream) idx ∨ Archived cfg w.bucket stream idx

/-- What is on disk or archived stays so: a sweep takes away what is archived only. -/
theorem Secured.step (positive : 0 < cfg.slotsPerChunk) (sound : Sound cfg books w)
    (done : act k cfg up w action = some (events, w')) (secured : Secured cfg w stream idx) :
    Secured cfg w' stream idx := by
  rcases secured with whole | archived
  · rcases act_files positive sound done whole.sidecar with same | marker
    · exact .inl (whole.of_same same)
    · exact .inr (archived_stays done ((sound.chunks stream idx).marked marker))
  · exact .inr (archived_stays done archived)

/-- The last step of a seal leaves all files of its chunk. -/
theorem whole_of_completes {files : ChunkFiles} {step : FileStep}
    (sound : ChunkSound cfg stream [] (w.lanes stream) w.bucket idx)
    (isSealing : (w.lanes stream).sealing = some ⟨idx, files, [step]⟩)
    (onDisk : w'.dir stream = FileStep.apply (w.dir stream) step) :
    Whole cfg (w'.dir stream) idx := by
  intro ext final
  rw [onDisk]
  exact Option.isSome_of_eq_some (sound.sealing rfl _ isSealing rfl ext final)

/-- Every chunk that has been sealed is secured. -/
def AllSecured (cfg : WriterConfig) (notes : List Note) (w : Writer) : Prop :=
  ∀ stream idx, sealings (booksOf notes) stream idx ≠ [] → Secured cfg w stream idx

/-- Every sealed chunk stays secured, and a step that seals one secures it. -/
theorem AllSecured.step (positive : 0 < cfg.slotsPerChunk) (kept : Kept k cfg notes w)
    (secured : AllSecured cfg notes w) (done : spare k cfg up w action = some (more, w')) :
    AllSecured cfg (notes ++ more) w' := by
  obtain ⟨-, filled, events, acted, rfl⟩ := spare_done done
  intro stream idx isSealed
  by_cases never : sealings (booksOf notes) stream idx = []
  · rw [booksOf_append, sealings_append, never, List.nil_append] at isSealed
    have sound := kept.sound.chunks stream idx
    rw [never] at sound
    have handled := act_handled positive kept.sound.lanes filled acted stream idx
    generalize noteOf cfg w w' action ++ events.map Note.booked = noted at handled isSealed
    cases handled with
    | left quiet _ _ => exact absurd quiet.unsealed isSealed
    | completes isSealing _ _ onDisk => exact .inl (whole_of_completes sound isSealing onDisk)
    | _ => exact absurd rfl isSealed
  · exact (secured stream idx never).step positive kept.sound acted

/-- Behind every run all sealed chunks are secured. -/
theorem AllSecured.runs (positive : 0 < cfg.slotsPerChunk) {actions : List Action}
    (ran : Behaviour.Steps (spare k cfg up) (Writer.start cfg) actions notes w) :
    Kept k cfg notes w ∧ AllSecured cfg notes w :=
  ran.keeps (fun notes w => Kept k cfg notes w ∧ AllSecured cfg notes w)
    ⟨.start, fun _ _ none => absurd rfl none⟩
    (fun _ _ _ _ _ both done => ⟨both.1.step positive done, both.2.step positive both.1 done⟩)

/-- A chunk that has been sealed has one seal. -/
theorem Kept.once (kept : Kept k cfg notes w) {files : ChunkFiles}
    (isSealed : files ∈ sealings (booksOf notes) stream idx) :
    sealings (booksOf notes) stream idx = [files] := by
  rcases kept.sealed stream idx with never | ⟨-, -, reason, same⟩
  · rw [never] at isSealed
    cases isSealed
  · rw [same] at isSealed ⊢
    rw [List.mem_singleton.mp isSealed]

/-- An archived chunk is archived as it was sealed. -/
theorem Kept.archived (kept : Kept k cfg notes w) {files : ChunkFiles}
    (isSealed : files ∈ sealings (booksOf notes) stream idx)
    (archived : Archived cfg w.bucket stream idx) :
    ∀ ext ∈ finalExtensions,
      w.bucket.lookup (objectOf cfg stream idx ext) = some (files.content ext) := by
  intro ext final
  obtain ⟨object, stored⟩ := Option.isSome_iff_exists.mp (archived ext final)
  have same := (kept.sound.chunks stream idx).objects files (kept.once isSealed) ext final object
    stored
  exact same ▸ stored

/-- In every state that a run which opens no archived chunk again leads to, the files that a
seal has written are all on disk, or all in the bucket. -/
theorem sealed_not_lost (k : Codecs) (cfg : WriterConfig) (up : UploaderConfig)
    (positive : 1 ≤ cfg.slotsPerChunk) (actions : List Action) (notes : List Note) (w : Writer)
    (ran : Behaviour.Steps (spare k cfg up) (Writer.start cfg) actions notes w)
    (stream : Stream) (idx : Nat) (files : ChunkFiles)
    (isSealed : files ∈ sealings (booksOf notes) stream idx) :
    (∀ ext ∈ finalExtensions,
      (w.dir stream).lookup (chunkName cfg idx ext) = some (files.content ext)) ∨
    ∀ ext ∈ finalExtensions,
      w.bucket.lookup (objectOf cfg stream idx ext) = some (files.content ext) := by
  obtain ⟨kept, secured⟩ := AllSecured.runs positive ran
  rcases secured stream idx (List.ne_nil_of_mem isSealed) with whole | archived
  · refine .inl (fun ext final => ?_)
    obtain ⟨content, stored⟩ := Option.isSome_iff_exists.mp (whole ext final)
    have same := (kept.sound.chunks stream idx).copies files (kept.once isSealed) whole.sidecar ext
      final content stored
    exact same ▸ stored
  · exact .inr (kept.archived isSealed archived)

/-- A sweep that removes the payload, the index and the marker of an archived chunk, and fails
to remove its sidecar. -/
def sweepTorn : List Action :=
  [.upload 0 .stored, .join, .scan [], .readDir .tx [chunkName ⟨1000, 100, 4⟩ 0 "uploaded"],
    .examine (some (3601 * 10 ^ 9)), .remove true, .remove true, .remove false, .remove true]

/-- A sweep that fails at the sidecar leaves a chunk without its payload on disk, and the bucket
has all of it. -/
theorem sealed_not_lost_torn : ∃ notes w files,
    Behaviour.acts (spare PlainCodecs.plain ⟨1000, 100, 4⟩ ⟨4, 3, 1⟩) (Writer.start ⟨1000, 100, 4⟩)
      (sealLone ++ uploadLone ++ sweepTorn) = some (notes, w) ∧
    files ∈ sealings (booksOf notes) .tx 0 ∧
    ((w.dir .tx).lookup (chunkName ⟨1000, 100, 4⟩ 0 "meta.json")).isSome = true ∧
    (w.dir .tx).lookup (chunkName ⟨1000, 100, 4⟩ 0 "zst") = none ∧
    ∀ ext ∈ finalExtensions,
      w.bucket.lookup (objectOf ⟨1000, 100, 4⟩ .tx 0 ext) = some (files.content ext) := by
  have computed : (Behaviour.acts (spare PlainCodecs.plain ⟨1000, 100, 4⟩ ⟨4, 3, 1⟩)
      (Writer.start ⟨1000, 100, 4⟩) (sealLone ++ uploadLone ++ sweepTorn)).any (fun result =>
        (sealings (booksOf result.1) .tx 0).length = 1 ∧
        ((result.2.dir .tx).lookup (chunkName ⟨1000, 100, 4⟩ 0 "meta.json")).isSome = true ∧
        (result.2.dir .tx).lookup (chunkName ⟨1000, 100, 4⟩ 0 "zst") = none) = true := by
    decide +kernel
  obtain ⟨⟨notes, w⟩, done, facts⟩ := Option.any_eq_true _ _ |>.mp computed
  obtain ⟨count, sidecar, noPayload⟩ := of_decide_eq_true facts
  obtain ⟨files, once⟩ := List.length_eq_one_iff.mp count
  have isSealed : files ∈ sealings (booksOf notes) .tx 0 := once ▸ List.mem_singleton_self files
  refine ⟨notes, w, files, done, isSealed, sidecar, noPayload, ?_⟩
  refine (sealed_not_lost PlainCodecs.plain ⟨1000, 100, 4⟩ ⟨4, 3, 1⟩ (by decide) _ notes w
    (Behaviour.steps_of_acts done) .tx 0 files isSealed).resolve_left (fun onDisk => ?_)
  have payload := onDisk "zst" (by decide)
  rw [noPayload] at payload
  cases payload

end Sillage.Uploader
