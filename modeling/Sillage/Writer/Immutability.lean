import Sillage.Writer.Archival

/-!
# Archived chunks stay as they are, unless a chunk is opened again

Nothing but the files on disk keeps a lane from recording a range a second time, and the
retention sweep removes those files once they are archived. As long as no archived chunk
is opened again, what the bucket holds of a chunk agrees with what lies on disk of it,
so that every later put stores the same bytes. A chunk that is opened again replaces its
objects.
-/

namespace Sillage.Uploader

open LittleEndian Directory Names OpenChunk

/-- Opening a chunk begins a new file: it is not open, and neither its payload nor its
sidecar is on disk. -/
def OpensAnew (cfg : WriterConfig) (w : Writer) (stream : Stream) (idx : Nat) : Prop :=
  (w.lanes stream).chunker.open[idx]? = none ∧
    (w.dir stream).lookup (chunkName cfg idx "zst") = none ∧
    (w.dir stream).lookup (chunkName cfg idx "meta.json") = none

/-- Whether a lane would open an archived chunk again can be looked up. -/
instance (cfg : WriterConfig) (w : Writer) (stream : Stream) (idx : Nat) :
    Decidable (OpensAnew cfg w stream idx) :=
  inferInstanceAs (Decidable (_ ∧ _ ∧ _))

/-- The chunk that an action opens. -/
def Action.opens : Action → Option (Stream × Nat)
  | .openChunk stream _ idx => some (stream, idx)
  | _ => none

/-- An archived chunk is opened again. -/
def Reopens (cfg : WriterConfig) (w : Writer) (action : Action) : Prop :=
  ∃ chunk ∈ action.opens, Archived cfg w.bucket chunk.1 chunk.2 ∧ OpensAnew cfg w chunk.1 chunk.2

/-- Whether an action opens an archived chunk again can be looked up. -/
instance (cfg : WriterConfig) (w : Writer) (action : Action) : Decidable (Reopens cfg w action) :=
  inferInstanceAs (Decidable (∃ chunk ∈ action.opens, _))

/-- Runs that open no archived chunk again. -/
abbrev SparingRun (k : Codecs) (cfg : WriterConfig) (up : UploaderConfig) (w : Writer) :
    List Event → Writer → Prop :=
  Steps k cfg up (fun w action => ¬ Reopens cfg w action) w

/-- A lane has work in hand on a chunk. -/
def Busy (lane : Lane) (idx : Nat) : Prop :=
  lane.chunker.open[idx]? ≠ none ∨ ∃ job, lane.sealing = some job ∧ job.idx = idx

/-- What a chunk of which something is archived is like: no lane works on it, its files
on disk are those in the bucket, and its sidecar is on disk until all is archived. -/
structure Frozen (cfg : WriterConfig) (stream : Stream) (lane : Lane) (bucket : Bucket) (idx : Nat) :
    Prop where
  atRest : ¬ Busy lane idx
  same : ∀ ext ∈ finalExtensions, ∀ content object,
    lane.chunker.baseDir.lookup (chunkName cfg idx ext) = some content →
    bucket.lookup (objectOf cfg stream idx ext) = some object → content = object
  kept : (lane.chunker.baseDir.lookup (chunkName cfg idx "meta.json")).isSome = true ∨
    Archived cfg bucket stream idx

/-- Something of a chunk is archived. -/
def Begun (cfg : WriterConfig) (bucket : Bucket) (stream : Stream) (idx : Nat) : Prop :=
  ∃ ext ∈ finalExtensions, (bucket.lookup (objectOf cfg stream idx ext)).isSome = true

/-- The invariant of the runs that open no archived chunk again. -/
def AllFrozen (cfg : WriterConfig) (w : Writer) : Prop :=
  ∀ stream idx, Begun cfg w.bucket stream idx → Frozen cfg stream (w.lanes stream) w.bucket idx

/-- What a step does to a chunk on disk. -/
structure LocalStep (cfg : WriterConfig) (w : Writer) (action : Action) (lane : Lane)
    (stream : Stream) (idx : Nat) : Prop where
  busy : Busy lane idx → Busy (w.lanes stream) idx ∨
    ∃ now, action = .openChunk stream now idx ∧ OpensAnew cfg w stream idx
  shrinks : ¬ Busy (w.lanes stream) idx → ∀ ext ∈ finalExtensions, ∀ content,
    lane.chunker.baseDir.lookup (chunkName cfg idx ext) = some content →
    (w.dir stream).lookup (chunkName cfg idx ext) = some content
  kept : ((w.dir stream).lookup (chunkName cfg idx "meta.json")).isSome = true →
    (lane.chunker.baseDir.lookup (chunkName cfg idx "meta.json")).isSome = true ∨
      Marked cfg (w.dir stream) idx

variable {k : Codecs} {cfg : WriterConfig} {up : UploaderConfig}

/-- A step that leaves a lane alone. -/
theorem LocalStep.none (w : Writer) (action : Action) (stream : Stream) (idx : Nat) :
    LocalStep cfg w action (w.lanes stream) stream idx :=
  ⟨.inl, fun _ _ _ _ stored => stored, .inl⟩

/-- A chunk with its sidecar on disk is at rest. -/
theorem LaneSound.atRest {lane : Lane} (sound : LaneSound cfg lane) {idx : Nat}
    (sidecar : (lane.chunker.baseDir.lookup (chunkName cfg idx "meta.json")).isSome = true) :
    ¬ Busy lane idx := by
  rintro (isOpen | ⟨job, isSealing, rfl⟩)
  · obtain ⟨chunk, stored⟩ := Option.ne_none_iff_exists'.mp isOpen
    rw [sound.absent idx chunk stored] at sidecar
    cases sidecar
  · rw [(sound.sealing job isSealing).1.absent] at sidecar
    cases sidecar

/-- Putting a file of a chunk with its sidecar freezes the chunk, or leaves it frozen. -/
theorem AllFrozen.put (positive : 0 < cfg.slotsPerChunk) {w : Writer} (frozen : AllFrozen cfg w)
    (lanes : ∀ stream, LaneSound cfg (w.lanes stream)) {stream : Stream} {idx : Nat} {ext : String}
    {content : Bytes}
    (sidecar : ((w.dir stream).lookup (chunkName cfg idx "meta.json")).isSome = true)
    (stored : (w.dir stream).lookup (chunkName cfg idx ext) = some content) :
    ∀ other i, Begun cfg (w.bucket.insert (objectOf cfg stream idx ext) content) other i →
      Frozen cfg other (w.lanes other) (w.bucket.insert (objectOf cfg stream idx ext) content) i := by
  rintro other i ⟨ext', final, present⟩
  by_cases own : other = stream ∧ i = idx
  · obtain ⟨rfl, rfl⟩ := own
    refine ⟨(lanes other).atRest sidecar, ?_, .inl sidecar⟩
    intro ext'' final'' content'' object found objectFound
    rw [lookup_put] at objectFound
    split at objectFound
    · next isOwn =>
      obtain ⟨-, -, -, rfl⟩ := objectKey_injective isOwn
      rw [← Option.some.inj objectFound]
      exact Option.some.inj (found.symm.trans stored)
    · have begun : Begun cfg w.bucket other i :=
        ⟨ext'', final'', Option.isSome_iff_exists.mpr ⟨object, objectFound⟩⟩
      exact (frozen other i begun).same ext'' final'' content'' object found objectFound
  · have foreign : ∀ ext'', (w.bucket.insert (objectOf cfg stream idx ext) content).lookup
        (objectOf cfg other i ext'') = w.bucket.lookup (objectOf cfg other i ext'') := by
      intro ext''
      rw [lookup_put, if_neg]
      intro same
      obtain ⟨sameStream, starts, -, -⟩ := objectKey_injective same
      exact own ⟨sameStream, Nat.eq_of_mul_eq_mul_right positive starts⟩
    rw [foreign] at present
    obtain ⟨atRest, same, kept⟩ := frozen other i ⟨ext', final, present⟩
    refine ⟨atRest, fun ext'' final'' content'' object found objectFound => ?_, ?_⟩
    · rw [foreign] at objectFound
      exact same ext'' final'' content'' object found objectFound
    · refine kept.imp_right (fun archived ext'' final'' => ?_)
      rw [foreign]
      exact archived ext'' final''

/-- A step that does not open an archived chunk again leaves a frozen chunk frozen. -/
theorem Frozen.step {books : List Event} {w : Writer} (sound : Sound cfg books w) {action : Action}
    (spared : ¬ Reopens cfg w action) {stream : Stream} {idx : Nat} {lane : Lane}
    (frozen : Frozen cfg stream (w.lanes stream) w.bucket idx)
    (local' : LocalStep cfg w action lane stream idx) : Frozen cfg stream lane w.bucket idx := by
  refine ⟨fun isBusy => ?_, fun ext final content object found objectFound => ?_, ?_⟩
  · rcases local'.busy isBusy with before | ⟨now, rfl, anew⟩
    · exact frozen.atRest before
    · rcases frozen.kept with sidecar | archived
      · rw [← Writer.dir, anew.2.2] at sidecar
        cases sidecar
      · exact spared ⟨(stream, idx), rfl, archived, anew⟩
  · exact frozen.same ext final content object
      (local'.shrinks frozen.atRest ext final content found) objectFound
  · rcases frozen.kept with sidecar | archived
    · exact (local'.kept sidecar).imp_right (sound.chunks stream idx).marked
    · exact .inr archived

/-- A lane outside a seal takes up work on a chunk by opening it only. -/
theorem laneAct_busy {s : Chunker} {action : Action} {after : Lane}
    (sameCfg : s.cfg = cfg) (done : laneAct k s action = some after) {idx : Nat}
    (isBusy : Busy after idx) : Busy ⟨s, none⟩ idx ∨
      ∃ stream now, action = .openChunk stream now idx ∧ s.open[idx]? = none ∧
        s.baseDir.lookup (chunkName cfg idx "zst") = none ∧
        s.baseDir.lookup (chunkName cfg idx "meta.json") = none := by
  cases action with
  | advance stream slot =>
    obtain rfl := Option.some.inj done
    exact .inl isBusy
  | openChunk stream now idx' =>
    obtain ⟨s', opened, rest⟩ := Option.bind_eq_some_iff.mp done
    obtain rfl := Option.some.inj rest
    rcases Tracks.openChunk_ok (ok_of_toOption opened) with rfl | ⟨closed, noPayload, noSidecar, result⟩
    · exact .inl isBusy
    · rcases isBusy with isOpen | ⟨job, isSealing, -⟩
      · obtain ⟨chunk, stored⟩ := Option.ne_none_iff_exists'.mp isOpen
        rw [result k] at stored
        rcases Tracks.getElem?_insert_some stored with ⟨rfl, -⟩ | ⟨-, before⟩
        · exact .inr ⟨stream, now, rfl, closed, sameCfg ▸ noPayload, sameCfg ▸ noSidecar⟩
        · exact .inl (.inl (Option.ne_none_iff_exists'.mpr ⟨chunk, before⟩))
      · cases isSealing
  | append stream a =>
    obtain ⟨idx', -, rest⟩ := Option.bind_eq_some_iff.mp done
    obtain ⟨⟨verdict, s'⟩, appended, rest⟩ := Option.bind_eq_some_iff.mp rest
    obtain rfl := Option.some.inj rest
    have recorded := ok_of_toOption appended
    rw [Chunker.appendTo] at recorded
    split at recorded
    · cases recorded
      exact .inl isBusy
    · next chunk found =>
      obtain ⟨chunk', grown, recorded⟩ := ok_of_bind recorded
      cases recorded
      rcases isBusy with isOpen | ⟨job, isSealing, -⟩
      · obtain ⟨held, stored⟩ := Option.ne_none_iff_exists'.mp isOpen
        rcases Tracks.getElem?_insert_some stored with ⟨rfl, -⟩ | ⟨-, before⟩
        · exact .inl (.inl (Option.ne_none_iff_exists'.mpr ⟨chunk, found⟩))
        · exact .inl (.inl (Option.ne_none_iff_exists'.mpr ⟨held, before⟩))
      · cases isSealing
  | beginSeal stream reason idx' =>
    obtain ⟨chunk, found, rest⟩ := Option.bind_eq_some_iff.mp done
    obtain ⟨written, -, rest⟩ := Option.bind_eq_some_iff.mp rest
    obtain rfl := Option.some.inj rest
    rcases isBusy with isOpen | ⟨job, isSealing, rfl⟩
    · obtain ⟨held, stored⟩ := Option.ne_none_iff_exists'.mp isOpen
      have before := (Tracks.getElem?_erase_some stored).1
      exact .inl (.inl (Option.ne_none_iff_exists'.mpr ⟨held, before⟩))
    · obtain rfl := Option.some.inj isSealing
      exact .inl (.inl (Option.ne_none_iff_exists'.mpr ⟨chunk, found⟩))
  | _ => cases done

/-- A change of the directory by another task. -/
theorem LocalStep.disk {w : Writer} {action : Action} {stream : Stream} {step : FileStep}
    (shrinks : ∀ idx, ∀ ext ∈ finalExtensions, ∀ content,
      (FileStep.apply (w.dir stream) step).lookup (chunkName cfg idx ext) = some content →
      (w.dir stream).lookup (chunkName cfg idx ext) = some content)
    (kept : ∀ idx, ((w.dir stream).lookup (chunkName cfg idx "meta.json")).isSome = true →
      ((FileStep.apply (w.dir stream) step).lookup (chunkName cfg idx "meta.json")).isSome = true ∨
        Marked cfg (w.dir stream) idx) (other : Stream) (idx : Nat) :
    LocalStep cfg w action ((w.onDisk stream step).lanes other) other idx := by
  rw [Writer.onDisk, lanes_withLane]
  split
  · next same =>
    subst same
    exact ⟨.inl, fun _ => shrinks idx, kept idx⟩
  · exact .none w action other idx

/-- A restart leaves no lane with work in hand. -/
theorem LocalStep.restart {w : Writer} {action : Action} {dirs : Recovery.Dirs}
    (same : ∀ stream idx, ∀ ext ∈ archivalExtensions,
      (dirs stream).lookup (chunkName cfg idx ext) = (w.dir stream).lookup (chunkName cfg idx ext))
    (stream : Stream) (idx : Nat) :
    LocalStep cfg w action ((w.restartOn cfg dirs).lanes stream) stream idx := by
  refine ⟨?_, fun _ ext final content stored => ?_, fun sidecar => .inl ?_⟩
  · rintro (isOpen | ⟨job, isSealing, -⟩)
    · exact absurd (by simp [Writer.restartOn, Chunker.new]) isOpen
    · cases isSealing
  · rw [← same stream idx ext (List.mem_cons_of_mem _ final)]
    exact stored
  · rw [← same stream idx "meta.json" (by decide)] at sidecar
    exact sidecar

/-- A step of a lane is local to its own chunks. -/
theorem act_lane_local (positive : 0 < cfg.slotsPerChunk) {books more : List Event} {w w' : Writer}
    (sound : Sound cfg books w) {stream : Stream} {action : Action}
    (ofStream : ∀ other now idx, action = .openChunk other now idx → other = stream)
    (done : act.lane k w stream action = some (more, w')) (other : Stream) (idx : Nat) :
    LocalStep cfg w action (w'.lanes other) other idx := by
  obtain ⟨s, free, rest⟩ := Option.bind_eq_some_iff.mp done
  obtain ⟨after, stepped, rest⟩ := Option.bind_eq_some_iff.mp rest
  obtain ⟨rfl, rfl⟩ := Prod.mk.inj (Option.some.inj rest)
  obtain ⟨-, laneIs⟩ := free_some free
  have laneSound : LaneSound cfg ⟨s, none⟩ := laneIs ▸ sound.lanes stream
  have effect := laneAct_step positive laneSound stepped
  have dirIs : w.dir stream = s.baseDir := by rw [Writer.dir, laneIs]
  rw [lanes_withLane]
  split
  · next same =>
    subst same
    refine ⟨fun isBusy => ?_, fun _ ext final content stored => ?_, fun sidecar => .inl ?_⟩
    · rcases laneAct_busy laneSound.sameCfg stepped isBusy with before | ⟨_, now, rfl, anew⟩
      · exact .inl (laneIs ▸ before)
      · obtain rfl := ofStream _ now idx rfl
        refine .inr ⟨now, rfl, ?_⟩
        rw [OpensAnew, dirIs, laneIs]
        exact anew
    · rw [dirIs, ← effect.same idx ext (List.mem_cons_of_mem _ final)]
      exact stored
    · rw [effect.same idx "meta.json" (by decide), ← dirIs]
      exact sidecar
  · exact .none w action other idx

/-- So is the next file step of a seal. -/
theorem sealAct_local (positive : 0 < cfg.slotsPerChunk) {books more : List Event} {w w' : Writer}
    (sound : Sound cfg books w) {stream : Stream} {action : Action}
    (done : sealAct w stream = some (more, w')) (other : Stream) (idx : Nat) :
    LocalStep cfg w action (w'.lanes other) other idx := by
  simp only [sealAct] at done
  split at done
  · cases done
  · next sealingIdx files step rest isSealing isUp =>
    obtain ⟨jobSound, -⟩ := (sound.lanes stream).sealing _ isSealing
    have own : ∀ sealing, (∀ job, sealing = some job → job.idx = sealingIdx) →
        LocalStep cfg w action ((w.withLane stream
          ⟨{ (w.lanes stream).chunker with
            baseDir := FileStep.apply (w.lanes stream).chunker.baseDir step }, sealing⟩).lanes other)
          other idx := by
      intro sealing ofIdx
      rw [lanes_withLane]
      split
      · next same =>
        subst same
        have busy : Busy (w.lanes other) sealingIdx := .inr ⟨_, isSealing, rfl⟩
        refine ⟨?_, fun atRest ext final content stored => ?_, fun sidecar => .inl ?_⟩
        · rintro (isOpen | ⟨job, isJob, rfl⟩)
          · exact .inl (.inl isOpen)
          · exact .inl (ofIdx job isJob ▸ busy)
        · have distinct : idx ≠ sealingIdx := fun same => atRest (same ▸ busy)
          exact (jobSound.lookup_step positive (.inl distinct)).symm.trans stored
        · have distinct : idx ≠ sealingIdx := by
            rintro rfl
            rw [Writer.dir, jobSound.absent] at sidecar
            cases sidecar
          exact (congrArg Option.isSome (jobSound.lookup_step positive (.inl distinct))).trans sidecar
      · exact .none w action other idx
    split at done
    · obtain ⟨-, rfl⟩ := Prod.mk.inj (Option.some.inj done)
      exact own none (fun job isJob => by cases isJob)
    · obtain ⟨-, rfl⟩ := Prod.mk.inj (Option.some.inj done)
      exact own _ (fun job isJob => by obtain rfl := Option.some.inj isJob; rfl)
  · cases done

/-- A step of an upload leaves the open chunks of all lanes. -/
theorem uploadAct_local (positive : 0 < cfg.slotsPerChunk) {books more : List Event} {w w' : Writer}
    (sound : Sound cfg books w) {waiting : List PendingChunk} {running : List Upload} {task : Nat}
    {result : PutResult} {action : Action} (isUploading : w.phase = .uploading waiting running)
    (done : uploadAct up w waiting running task result = some (more, w')) (other : Stream)
    (idx : Nat) : LocalStep cfg w action (w'.lanes other) other idx := by
  rcases uploadAct_lanes positive sound.phase isUploading done with same | ⟨own, step, same, kept⟩
  · rw [same]
    exact .none w action other idx
  · rw [same]
    refine LocalStep.disk (fun i ext final content stored => ?_) (fun i sidecar => .inl ?_) other idx
    · rwa [kept i ext final] at stored
    · rwa [kept i "meta.json" (by decide)]

/-- What every action does to every chunk on disk. -/
theorem act_local (positive : 0 < cfg.slotsPerChunk) {books more : List Event} {w w' : Writer}
    (sound : Sound cfg books w) {action : Action} (done : act k cfg up w action = some (more, w'))
    (stream : Stream) (idx : Nat) : LocalStep cfg w action (w'.lanes stream) stream idx := by
  cases action with
  | advance own slot =>
    exact act_lane_local positive sound (fun _ _ _ same => by cases same) done stream idx
  | openChunk own now i =>
    exact act_lane_local positive sound (fun _ _ _ same => by cases same; rfl) done stream idx
  | append own a =>
    exact act_lane_local positive sound (fun _ _ _ same => by cases same) done stream idx
  | beginSeal own reason i =>
    exact act_lane_local positive sound (fun _ _ _ same => by cases same) done stream idx
  | sealStep own => exact sealAct_local positive sound done stream idx
  | upload task result =>
    simp only [act] at done
    split at done
    · next isUploading => exact uploadAct_local positive sound isUploading done stream idx
    · cases done
  | remove succeeds =>
    simp only [act] at done
    split at done
    · next isSweeping =>
      obtain ⟨i, ext, exts, rfl, -, marker, -⟩ := (sound.phase.removing _ _ _ isSweeping).first
      split at done
      · obtain ⟨-, rfl⟩ := Prod.mk.inj (Option.some.inj done)
        refine LocalStep.disk (fun _ _ _ _ stored => lookup_removed stored) (fun i' sidecar => ?_)
          stream idx
        by_cases same : i' = i
        · exact .inr (same ▸ marker)
        · refine .inl ?_
          rw [lookup_remove, if_neg]
          · exact sidecar
          · exact fun named => same (chunkName_injective positive named).1
      · obtain ⟨-, rfl⟩ := Prod.mk.inj (Option.some.inj done)
        exact .none w _ stream idx
    · cases done
  | examine age =>
    obtain ⟨phase, -, rest⟩ := Option.map_eq_some_iff.mp done
    obtain ⟨-, rfl⟩ := Prod.mk.inj rest
    exact .none w _ stream idx
  | crash =>
    obtain ⟨-, rfl⟩ := Prod.mk.inj (Option.some.inj done)
    exact LocalStep.restart (fun _ _ _ _ => rfl) stream idx
  | sweepPartial own name =>
    simp only [act] at done
    split at done
    · split at done
      · next leftover =>
        obtain ⟨-, rfl⟩ := Prod.mk.inj (Option.some.inj done)
        refine LocalStep.disk (fun _ _ _ _ stored => lookup_removed stored) (fun i sidecar => .inl ?_)
          stream idx
        rw [lookup_remove, if_neg]
        · exact sidecar
        · rintro rfl
          rw [isPartial_archival i (by decide)] at leftover
          cases leftover
      · cases done
    · cases done
  | boot =>
    simp only [act] at done
    split at done
    · obtain ⟨-, rfl⟩ := Prod.mk.inj (Option.some.inj done)
      refine LocalStep.restart (fun own i ext member => ?_) stream idx
      exact (Recovery.lookup_sweepPartials (w.dir own) _).trans
        (if_neg (by rw [isPartial_archival i member]; decide))
    · cases done
  | _ =>
    simp only [act] at done
    repeat' split at done
    all_goals first
      | (obtain ⟨-, rfl⟩ := Prod.mk.inj (Option.some.inj done); exact .none w _ stream idx)
      | cases done

/-- Every step that opens no archived chunk again keeps what is archived frozen. -/
theorem AllFrozen.act (positive : 0 < cfg.slotsPerChunk) {books more : List Event} {w w' : Writer}
    (sound : Sound cfg books w) (frozen : AllFrozen cfg w) {action : Action}
    (spared : ¬ Reopens cfg w action) (done : Uploader.act k cfg up w action = some (more, w')) :
    AllFrozen cfg w' ∧
      ∀ stream idx, ∀ ext ∈ finalExtensions, ∀ object,
        w.bucket.lookup (objectOf cfg stream idx ext) = some object →
        w'.bucket.lookup (objectOf cfg stream idx ext) = some object ∧
          ∀ content, .put (objectOf cfg stream idx ext) content ∈ more → content = object := by
  have sameBucket : w'.bucket = w.bucket → AllFrozen cfg w' := by
    intro same stream idx begun
    rw [same] at begun ⊢
    exact (frozen stream idx begun).step sound spared (act_local positive sound done stream idx)
  cases act_booked done with
  | none same => exact ⟨sameBucket same, fun _ _ _ _ _ stored => ⟨same ▸ stored, by simp⟩⟩
  | «sealed» _ _ _ same => exact ⟨sameBucket same, fun _ _ _ _ _ stored => ⟨same ▸ stored, by simp⟩⟩
  | swept _ same => exact ⟨sameBucket same, fun _ _ _ _ _ stored => ⟨same ▸ stored, by simp⟩⟩
  | @put waiting running upload ext later content isUploading member isNext stored lanes stores =>
    obtain ⟨own, same, sidecar⟩ := sound.phase.queued upload.chunk (by
      rw [isUploading]
      exact List.mem_append_right _ (List.mem_map_of_mem member))
    have keyName : objectKey upload.chunk.stream upload.chunk.startSlot upload.chunk.endSlot ext =
        objectOf cfg upload.chunk.stream own ext := by
      rw [same]
      rfl
    have fileName : withExtension upload.chunk.base ext = chunkName cfg own ext := by
      rw [same, withExtension_pending]
    rw [fileName] at stored
    rw [keyName] at stores ⊢
    -- what is stored under the key already is what lies on disk
    have unchanged : ∀ stream idx, ∀ ext' ∈ finalExtensions, ∀ object,
        objectOf cfg stream idx ext' = objectOf cfg upload.chunk.stream own ext →
        w.bucket.lookup (objectOf cfg stream idx ext') = some object → content = object := by
      intro stream idx ext' final object sameKey objectFound
      obtain ⟨rfl, starts, -, rfl⟩ := objectKey_injective sameKey
      obtain rfl := Nat.eq_of_mul_eq_mul_right positive starts
      have begun : Begun cfg w.bucket upload.chunk.stream idx :=
        ⟨ext', final, Option.isSome_iff_exists.mpr ⟨object, objectFound⟩⟩
      exact (frozen _ idx begun).same ext' final content object stored objectFound
    constructor
    · intro stream idx begun
      rw [stores] at begun ⊢
      rw [lanes]
      exact frozen.put positive sound.lanes sidecar stored stream idx begun
    · intro stream idx ext' final object objectFound
      constructor
      · rw [stores, lookup_put]
        split
        · next sameKey =>
          exact congrArg some (unchanged stream idx ext' final object sameKey objectFound)
        · exact objectFound
      · intro content' isPut
        obtain ⟨sameKey, rfl⟩ := Event.put.inj (List.mem_singleton.mp isPut)
        exact unchanged stream idx ext' final object sameKey objectFound

/-- At the start nothing is archived that could change. -/
theorem AllFrozen.start : AllFrozen cfg (Writer.start cfg) := by
  rintro stream idx ⟨ext, -, present⟩
  simp [Writer.start] at present

/-- Over a run that opens no archived chunk again, what is stored of a chunk stays. -/
theorem AllFrozen.steps (positive : 0 < cfg.slotsPerChunk) {books more : List Event}
    {w w' : Writer} (sound : Sound cfg books w) (frozen : AllFrozen cfg w)
    (ran : SparingRun k cfg up w more w') :
    AllFrozen cfg w' ∧
      ∀ stream idx, ∀ ext ∈ finalExtensions, ∀ object,
        w.bucket.lookup (objectOf cfg stream idx ext) = some object →
        w'.bucket.lookup (objectOf cfg stream idx ext) = some object ∧
          ∀ content, .put (objectOf cfg stream idx ext) content ∈ more → content = object := by
  induction ran with
  | start => exact ⟨frozen, fun _ _ _ _ _ stored => ⟨stored, by simp⟩⟩
  | step action ran may done inductionHypothesis =>
    obtain ⟨frozenBefore, stays⟩ := inductionHypothesis
    obtain ⟨frozenAfter, staysNext⟩ := frozenBefore.act positive (sound.steps positive ran) may done
    refine ⟨frozenAfter, fun stream idx ext final object stored => ?_⟩
    obtain ⟨before, putBefore⟩ := stays stream idx ext final object stored
    obtain ⟨after, putAfter⟩ := staysNext stream idx ext final object before
    refine ⟨after, fun content isPut => ?_⟩
    rcases List.mem_append.mp isPut with earlier | isNext
    · exact putBefore content earlier
    · exact putAfter content isNext

/-- As long as no archived chunk is opened again, the objects of an archived chunk stay what
they are, and no later put of any of them carries other content. -/
theorem archive_immutable (k : Codecs) (cfg : WriterConfig) (up : UploaderConfig)
    (positive : 1 ≤ cfg.slotsPerChunk) (books later : List Event) (w w' : Writer)
    (ran : SparingRun k cfg up (Writer.start cfg) books w) (ranOn : SparingRun k cfg up w later w')
    (stream : Stream) (idx : Nat) (archived : Archived cfg w.bucket stream idx) :
    ∀ ext ∈ finalExtensions, ∃ object,
      w.bucket.lookup (objectOf cfg stream idx ext) = some object ∧
      w'.bucket.lookup (objectOf cfg stream idx ext) = some object ∧
      ∀ content, .put (objectOf cfg stream idx ext) content ∈ later → content = object := by
  have sound : Sound cfg ([] ++ books) w := Sound.start.steps positive ran
  have frozen := (AllFrozen.start.steps positive Sound.start ran).1
  intro ext final
  obtain ⟨object, stored⟩ := Option.isSome_iff_exists.mp (archived ext final)
  exact ⟨object, stored, (frozen.steps positive sound ranOn).2 stream idx ext final object stored⟩

/-- A cycle of the uploader that removes the archived chunk after an hour. -/
def sweepLone : List Action :=
  [.upload 0 .stored, .join, .scan [], .readDir .tx [chunkName ⟨1000, 100, 4⟩ 0 "uploaded"],
    .examine (some (3601 * 10 ^ 9))] ++ List.replicate 4 (.remove true) ++ [.endSweep, .join]

/-- The archived chunk is swept, and the next range is recorded. -/
theorem archive_immutable_swept : ∃ books w later w',
    acts PlainCodecs.plain ⟨1000, 100, 4⟩ ⟨4, 3, 1⟩ (fun w action => ¬ Reopens ⟨1000, 100, 4⟩ w action)
      (Writer.start ⟨1000, 100, 4⟩) (sealLone ++ uploadLone) = some (books, w) ∧
    acts PlainCodecs.plain ⟨1000, 100, 4⟩ ⟨4, 3, 1⟩ (fun w action => ¬ Reopens ⟨1000, 100, 4⟩ w action)
      w (sweepLone ++ [.openChunk .tx 1 1]) = some (later, w') ∧
    ∀ ext ∈ finalExtensions, ∃ object,
      w.bucket.lookup (objectOf ⟨1000, 100, 4⟩ .tx 0 ext) = some object ∧
      w'.bucket.lookup (objectOf ⟨1000, 100, 4⟩ .tx 0 ext) = some object ∧
      ∀ content, .put (objectOf ⟨1000, 100, 4⟩ .tx 0 ext) content ∈ later → content = object := by
  have computed : (acts PlainCodecs.plain ⟨1000, 100, 4⟩ ⟨4, 3, 1⟩
      (fun w action => ¬ Reopens ⟨1000, 100, 4⟩ w action) (Writer.start ⟨1000, 100, 4⟩)
      (sealLone ++ uploadLone)).any (fun result =>
        Archived ⟨1000, 100, 4⟩ result.2.bucket .tx 0 ∧
          (acts PlainCodecs.plain ⟨1000, 100, 4⟩ ⟨4, 3, 1⟩
            (fun w action => ¬ Reopens ⟨1000, 100, 4⟩ w action) result.2
            (sweepLone ++ [.openChunk .tx 1 1])).isSome = true) = true := by
    decide +kernel
  obtain ⟨⟨books, w⟩, done, facts⟩ := Option.any_eq_true _ _ |>.mp computed
  obtain ⟨archived, goesOn⟩ := of_decide_eq_true facts
  obtain ⟨⟨later, w'⟩, doneOn⟩ := Option.isSome_iff_exists.mp goesOn
  exact ⟨books, w, later, w', done, doneOn, archive_immutable PlainCodecs.plain ⟨1000, 100, 4⟩
    ⟨4, 3, 1⟩ (by decide) books later w w' (steps_of_acts done) (steps_of_acts doneOn) .tx 0 archived⟩

/-- A message of the chunk's range that arrives after the sweep, in a chunk of its own. -/
def late : Arrival := ⟨1, ⟨1, ⟨[], none, some (.other 1), []⟩⟩, 501⟩

/-- The swept chunk is opened again by that message, sealed and uploaded. -/
def resealLone : List Action :=
  [.openChunk .tx 1 0, .append .tx late, .beginSeal .tx "shutdown" 0] ++
    List.replicate 8 (.sealStep .tx) ++ uploadLone

/-- The chunk is swept after an hour, a message of its range opens it again, and its upload
replaces the archived message. -/
theorem archive_overwritten : ∃ books w later w',
    acts PlainCodecs.plain ⟨1000, 100, 4⟩ ⟨4, 3, 1⟩ (fun _ _ => True)
      (Writer.start ⟨1000, 100, 4⟩) (sealLone ++ uploadLone) = some (books, w) ∧
    acts PlainCodecs.plain ⟨1000, 100, 4⟩ ⟨4, 3, 1⟩ (fun _ _ => True)
      w (sweepLone ++ resealLone) = some (later, w') ∧
    Archived ⟨1000, 100, 4⟩ w.bucket .tx 0 ∧
    w.bucket.lookup (objectOf ⟨1000, 100, 4⟩ .tx 0 "zst") = some (PlainCodecs.plain.zstdEncode
      (payload PlainCodecs.plain [⟨0, ⟨0, ⟨[], none, none, []⟩⟩, 500⟩])) ∧
    w'.bucket.lookup (objectOf ⟨1000, 100, 4⟩ .tx 0 "zst") =
      some (PlainCodecs.plain.zstdEncode (payload PlainCodecs.plain [late])) ∧
    w.bucket.lookup (objectOf ⟨1000, 100, 4⟩ .tx 0 "zst") ≠
      w'.bucket.lookup (objectOf ⟨1000, 100, 4⟩ .tx 0 "zst") := by
  have computed : (acts PlainCodecs.plain ⟨1000, 100, 4⟩ ⟨4, 3, 1⟩ (fun _ _ => True)
      (Writer.start ⟨1000, 100, 4⟩) (sealLone ++ uploadLone)).any (fun first =>
        (acts PlainCodecs.plain ⟨1000, 100, 4⟩ ⟨4, 3, 1⟩ (fun _ _ => True) first.2
          (sweepLone ++ resealLone)).any (fun second =>
            Archived ⟨1000, 100, 4⟩ first.2.bucket .tx 0 ∧
              first.2.bucket.lookup (objectOf ⟨1000, 100, 4⟩ .tx 0 "zst") =
                some (PlainCodecs.plain.zstdEncode
                  (payload PlainCodecs.plain [⟨0, ⟨0, ⟨[], none, none, []⟩⟩, 500⟩])) ∧
              second.2.bucket.lookup (objectOf ⟨1000, 100, 4⟩ .tx 0 "zst") =
                some (PlainCodecs.plain.zstdEncode (payload PlainCodecs.plain [late])) ∧
              first.2.bucket.lookup (objectOf ⟨1000, 100, 4⟩ .tx 0 "zst") ≠
                second.2.bucket.lookup (objectOf ⟨1000, 100, 4⟩ .tx 0 "zst"))) = true := by
    decide +kernel
  obtain ⟨⟨books, w⟩, done, goesOn⟩ := Option.any_eq_true _ _ |>.mp computed
  obtain ⟨⟨later, w'⟩, doneOn, facts⟩ := Option.any_eq_true _ _ |>.mp goesOn
  exact ⟨books, w, later, w', done, doneOn, of_decide_eq_true facts⟩

end Sillage.Uploader
