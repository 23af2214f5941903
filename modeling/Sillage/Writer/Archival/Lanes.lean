import Sillage.Writer.Archival.Invariant

/-!
# The steps of the lanes keep the invariant

A lane opens, fills and seals its chunks, and the recovery tidies its directory. None of
these steps touches a marker or an object, so that what they have to keep is that a
sidecar comes last and that an archived chunk is never sealed again while its files are
there.
-/

namespace Sillage.Uploader

open LittleEndian Directory Names OpenChunk

variable {k : Codecs} {cfg : WriterConfig} {up : UploaderConfig}

/-- Appending keeps the range of a chunk. -/
theorem append_file {chunk chunk' : OpenChunk} {a : Arrival} (done : chunk.append k a = .ok chunk')
    (ext : String) : chunk'.file ext = chunk.file ext := by
  rw [OpenChunk.append] at done
  split at done
  · cases done
  · cases done
    rfl

/-- The extensions of the files that decide whether a chunk is archived. -/
def archivalExtensions : List String := "uploaded" :: finalExtensions

/-- What a step of a lane outside a seal leaves. -/
structure LaneStep (cfg : WriterConfig) (s : Chunker) (after : Lane) : Prop where
  sound : LaneSound cfg after
  same : ∀ idx, ∀ ext ∈ archivalExtensions,
    after.chunker.baseDir.lookup (chunkName cfg idx ext) = s.baseDir.lookup (chunkName cfg idx ext)
  complete : ∀ job, after.sealing = some job → ∀ ext ∈ finalExtensions,
    (perform after.chunker.baseDir job.rest).lookup (chunkName cfg job.idx ext) =
      some (job.files.content ext)

/-- A step that changes neither the directory nor the names of the open chunks. -/
theorem LaneStep.quiet {s s' : Chunker} (sound : LaneSound cfg ⟨s, none⟩) (sameCfg : s'.cfg = s.cfg)
    (sameDir : s'.baseDir = s.baseDir)
    (sameNames : ∀ (idx : Nat) (chunk : OpenChunk), s'.open[idx]? = some chunk →
      ∃ chunk', s.open[idx]? = some chunk' ∧ ∀ ext, chunk.file ext = chunk'.file ext) :
    LaneStep cfg s ⟨s', none⟩ where
  sound :=
    { sameCfg := sameCfg.trans sound.sameCfg
      known := by
        simp only [sameDir]
        exact sound.known
      named := by
        intro idx chunk stored ext
        obtain ⟨chunk', stored', same⟩ := sameNames idx chunk stored
        exact (same ext).trans (sound.named idx chunk' stored' ext)
      absent := by
        intro idx chunk stored
        obtain ⟨chunk', stored', -⟩ := sameNames idx chunk stored
        simp only [sameDir]
        exact sound.absent idx chunk' stored'
      sealing := by
        intro job isSealing
        cases isSealing }
  same := by
    intro idx ext member
    simp only [sameDir]
  complete := by
    intro job isSealing
    cases isSealing

/-- Opening a chunk creates a temporary file. -/
theorem LaneStep.openChunk (k : Codecs) (positive : 0 < cfg.slotsPerChunk) {s s' : Chunker}
    (sound : LaneSound cfg ⟨s, none⟩) {now idx : Nat}
    (done : Chunker.openChunk now idx s = .ok s') : LaneStep cfg s ⟨s', none⟩ := by
  rcases Tracks.openChunk_ok done with rfl | ⟨-, -, noSidecar, opened⟩
  · exact .quiet sound rfl rfl (fun _ chunk stored => ⟨chunk, stored, fun _ => rfl⟩)
  have result := opened k
  have sameCfg : s.cfg = cfg := sound.sameCfg
  rw [sameCfg] at result noSidecar
  have dirOf : s'.baseDir =
      FileStep.apply s.baseDir (.create (chunkName cfg idx "zst.partial")) := by rw [result]
  have openOf : s'.open = s.open.insert idx (holding k s.stream cfg idx now []) := by rw [result]
  have other : ∀ i, ∀ ext, ext ≠ "zst.partial" →
      s'.baseDir.lookup (chunkName cfg i ext) = s.baseDir.lookup (chunkName cfg i ext) := by
    intro i ext distinct
    have apart : chunkName cfg i ext ≠ chunkName cfg idx "zst.partial" :=
      fun same => distinct (chunkName_injective positive same).2
    rw [dirOf, lookup_create, if_neg apart]
  have keeps : s'.cfg = s.cfg := by rw [result, sameCfg]
  refine ⟨⟨?_, ?_, ?_, ?_, ?_⟩, ?_, ?_⟩
  · exact keeps.trans sameCfg
  · intro name content stored
    rw [dirOf, lookup_create] at stored
    split at stored
    · next isNew => exact ⟨idx, "zst.partial", by decide, isNew⟩
    · exact sound.known name content stored
  · intro i chunk stored ext
    rw [openOf] at stored
    rcases Tracks.getElem?_insert_some stored with ⟨rfl, rfl⟩ | ⟨-, before⟩
    · rfl
    · exact sound.named i chunk before ext
  · intro i chunk stored
    rw [other i "meta.json" (by decide)]
    rw [openOf] at stored
    rcases Tracks.getElem?_insert_some stored with ⟨rfl, -⟩ | ⟨-, before⟩
    · exact noSidecar
    · exact sound.absent i chunk before
  · intro job isSealing
    cases isSealing
  · intro i ext member
    apply other
    rintro rfl
    exact absurd member (by decide)
  · intro job isSealing
    cases isSealing

/-- The content of a sealed file by its extension. -/
theorem lookup_sealed (dir : Dir) {chunk : OpenChunk} {idx : Nat}
    (named : ∀ ext, chunk.file ext = chunkName cfg idx ext) (stream : Stream) (written : Bytes)
    (reason : String) : ∀ ext ∈ finalExtensions,
      (perform dir (chunk.sealSteps k stream written reason)).lookup (chunkName cfg idx ext) =
        some ((chunk.files k stream written reason).content ext) := by
  intro ext final
  simp only [finalExtensions, List.mem_cons, List.not_mem_nil, or_false] at final
  rcases final with rfl | rfl | rfl
  all_goals
    simp only [lookup_sealSteps, named, chunkName_ext, String.reduceEq, if_true, if_false,
      ChunkFiles.content, OpenChunk.files]

/-- The steps of a seal touch the six names of their chunk, and the sidecar's with the
last. -/
theorem sealSteps_sound {dir : Dir} {chunk : OpenChunk} {idx : Nat}
    (named : ∀ ext, chunk.file ext = chunkName cfg idx ext)
    (absent : dir.lookup (chunkName cfg idx "meta.json") = none) (stream : Stream)
    (written : Bytes) (reason : String) :
    SealingSound cfg dir
      { idx
        files := chunk.files k stream written reason
        rest := chunk.sealSteps k stream written reason } where
  inside := by
    intro step member name touched
    simp only [sealSteps, named, List.mem_cons, List.not_mem_nil, or_false] at member
    rcases member with rfl | rfl | rfl | rfl | rfl | rfl | rfl | rfl
    all_goals
      simp only [FileStep.touches, List.mem_cons, List.not_mem_nil, or_false] at touched
      rcases touched with rfl | rfl
      all_goals exact ⟨_, by decide, rfl⟩
  absent := absent
  sidecarLast := by
    refine ⟨(chunk.sealSteps k stream written reason).dropLast, by simp [sealSteps, named], ?_⟩
    intro step member
    simp only [sealSteps, named, List.dropLast, List.mem_cons, List.not_mem_nil, or_false] at member
    rcases member with rfl | rfl | rfl | rfl | rfl | rfl | rfl <;>
      simp [FileStep.touches]

/-- What a step of a lane does to its chunks and its directory. -/
theorem laneAct_step (positive : 0 < cfg.slotsPerChunk) {s : Chunker}
    (sound : LaneSound cfg ⟨s, none⟩) {action : Action} {after : Lane}
    (done : laneAct k s action = some after) : LaneStep cfg s after := by
  cases action with
  | advance stream slot =>
    obtain rfl := Option.some.inj done
    exact .quiet sound rfl rfl (fun _ chunk stored => ⟨chunk, stored, fun _ => rfl⟩)
  | openChunk stream now idx =>
    obtain ⟨s', opened, rest⟩ := Option.bind_eq_some_iff.mp done
    obtain rfl := Option.some.inj rest
    exact .openChunk k positive sound (ok_of_toOption opened)
  | append stream a =>
    obtain ⟨idx, -, rest⟩ := Option.bind_eq_some_iff.mp done
    obtain ⟨⟨verdict, s'⟩, appended, rest⟩ := Option.bind_eq_some_iff.mp rest
    obtain rfl := Option.some.inj rest
    have recorded := ok_of_toOption appended
    rw [Chunker.appendTo] at recorded
    split at recorded
    · cases recorded
      exact .quiet sound rfl rfl (fun _ chunk stored => ⟨chunk, stored, fun _ => rfl⟩)
    · next chunk found =>
      obtain ⟨chunk', grown, recorded⟩ := ok_of_bind recorded
      cases recorded
      refine LaneStep.quiet sound ?_ ?_ ?_
      · rfl
      · rfl
      intro i held stored
      rcases Tracks.getElem?_insert_some stored with ⟨rfl, rfl⟩ | ⟨-, before⟩
      · exact ⟨chunk, found, append_file grown⟩
      · exact ⟨held, before, fun _ => rfl⟩
  | beginSeal stream reason idx =>
    obtain ⟨chunk, found, rest⟩ := Option.bind_eq_some_iff.mp done
    obtain ⟨written, -, rest⟩ := Option.bind_eq_some_iff.mp rest
    obtain rfl := Option.some.inj rest
    have named := sound.named idx chunk found
    have before : ∀ i chunk', (s.open.erase idx)[i]? = some chunk' → s.open[i]? = some chunk' :=
      fun i chunk' stored => (Tracks.getElem?_erase_some stored).1
    refine ⟨⟨sound.sameCfg, sound.known, ?_, ?_, ?_⟩, fun _ _ _ => rfl, ?_⟩
    · exact fun i chunk' stored => sound.named i chunk' (before i chunk' stored)
    · exact fun i chunk' stored => sound.absent i chunk' (before i chunk' stored)
    · intro job isSealing
      obtain rfl := Option.some.inj isSealing
      exact ⟨sealSteps_sound named (sound.absent idx chunk found) s.stream written reason,
        Std.TreeMap.getElem?_erase_self⟩
    · intro job isSealing
      obtain rfl := Option.some.inj isSealing
      exact lookup_sealed s.baseDir named s.stream written reason
  | _ => cases done

/-- A chunk is as sound as before when its archival files are the same. -/
theorem ChunkSound.of_same {stream : Stream} {past : List ChunkFiles} {lane lane' : Lane}
    {bucket : Bucket} {idx : Nat} (sound : ChunkSound cfg stream past lane bucket idx)
    (same : ∀ ext ∈ archivalExtensions, lane'.chunker.baseDir.lookup (chunkName cfg idx ext) =
      lane.chunker.baseDir.lookup (chunkName cfg idx ext))
    (sealing : past = [] → ∀ job, lane'.sealing = some job → job.idx = idx →
      ∀ ext ∈ finalExtensions, (perform lane'.chunker.baseDir job.rest).lookup
        (chunkName cfg idx ext) = some (job.files.content ext)) :
    ChunkSound cfg stream past lane' bucket idx where
  never fresh := by
    rw [same "meta.json" (by decide), same "uploaded" (by decide)]
    exact sound.never fresh
  sealing := sealing
  copies files once sidecar ext final content stored := by
    rw [same "meta.json" (by decide)] at sidecar
    rw [same ext (List.mem_cons_of_mem _ final)] at stored
    exact sound.copies files once sidecar ext final content stored
  objects := sound.objects
  marked marker := by
    rw [Marked, same "uploaded" (by decide)] at marker
    exact sound.marked marker

/-- What is no completed seal may be added to the books. -/
theorem Sound.note {books more : List Event} {w : Writer}
    (quiet : ∀ stream idx, sealings more stream idx = []) (sound : Sound cfg books w) :
    Sound cfg (books ++ more) w where
  lanes := sound.lanes
  chunks stream idx := by
    rw [sealings_append, quiet, List.append_nil]
    exact sound.chunks stream idx
  phase := sound.phase
  ordered := sound.ordered

/-- The rest of a seal has the same effect wherever the files of its chunk are the same. -/
theorem SealingSound.lookup_perform {dir dir' : Dir} {job : Sealing}
    (sound : SealingSound cfg dir job)
    (same : ∀ ext ∈ sealExtensions,
      dir'.lookup (chunkName cfg job.idx ext) = dir.lookup (chunkName cfg job.idx ext)) :
    ∀ ext ∈ finalExtensions, (perform dir' job.rest).lookup (chunkName cfg job.idx ext) =
      (perform dir job.rest).lookup (chunkName cfg job.idx ext) := by
  intro ext final
  have agree : Agree (fun name => ∃ ext ∈ sealExtensions, name = chunkName cfg job.idx ext) dir'
      dir := by
    rintro name ⟨ext', member, rfl⟩
    exact same ext' member
  apply agree_perform agree job.rest sound.inside
  exact ⟨ext, (show ∀ ext ∈ finalExtensions, ext ∈ sealExtensions by decide) ext final, rfl⟩

/-- Replacing a lane keeps the invariant of the others. -/
theorem Sound.withLane {books more : List Event} {w : Writer} {stream : Stream} {lane : Lane}
    (sound : Sound cfg books w)
    (others : ∀ other idx, other ≠ stream → sealings more other idx = [])
    (laneSound : LaneSound cfg lane)
    (chunks : ∀ idx,
      ChunkSound cfg stream (sealings (books ++ more) stream idx) lane w.bucket idx)
    (phase : PhaseSound cfg (w.withLane stream lane)) :
    Sound cfg (books ++ more) (w.withLane stream lane) where
  lanes other := by
    rw [lanes_withLane]
    split
    · exact laneSound
    · exact sound.lanes other
  chunks other idx := by
    rw [lanes_withLane, bucket_withLane]
    split
    · next same => exact same ▸ chunks idx
    · next distinct =>
      rw [sealings_append, others other idx distinct, List.append_nil]
      exact sound.chunks other idx
  phase := phase
  ordered := sound.ordered

/-- The uploader's part of the invariant speaks of sidecars, which may be added, and of
markers, which may not change. -/
theorem PhaseSound.of_same {w w' : Writer} (sound : PhaseSound cfg w)
    (samePhase : w'.phase = w.phase) (sameBucket : w'.bucket = w.bucket)
    (sidecars : ∀ stream idx, ((w.dir stream).lookup (chunkName cfg idx "meta.json")).isSome = true →
      ((w'.dir stream).lookup (chunkName cfg idx "meta.json")).isSome = true)
    (markers : ∀ stream idx, (w'.dir stream).lookup (chunkName cfg idx "uploaded") =
      (w.dir stream).lookup (chunkName cfg idx "uploaded"))
    (down : w.phase = .down → ∀ stream, (w'.lanes stream).sealing = none) : PhaseSound cfg w' where
  queued chunk member := by
    rw [samePhase] at member
    obtain ⟨idx, same, sidecar⟩ := sound.queued chunk member
    exact ⟨idx, same, sidecars chunk.stream idx sidecar⟩
  unmarked pending entries removals isSweeping stream idx member := by
    rw [Marked, markers]
    exact sound.unmarked pending entries removals (samePhase ▸ isSweeping) stream idx member
  removing pending entries removals isSweeping := by
    rcases sound.removing pending entries removals (samePhase ▸ isSweeping) with
      none | ⟨stream, idx, exts, marker, rest⟩
    · exact .inl none
    · refine .inr ⟨stream, idx, exts, ?_, rest⟩
      rw [Marked, markers]
      exact marker
  progress waiting running isUploading := by
    rw [sameBucket]
    exact sound.progress waiting running (samePhase ▸ isUploading)
  down isDown := down (samePhase ▸ isDown)

/-- A lane that can be stepped is up and not in the middle of a seal. -/
theorem free_some {w : Writer} {stream : Stream} {s : Chunker} (free : w.free stream = some s) :
    w.phase ≠ .down ∧ w.lanes stream = ⟨s, none⟩ := by
  rw [Writer.free] at free
  split at free
  · cases free
  · cases free
  · next unsealed up =>
    cases lane : w.lanes stream with
    | mk chunker sealing =>
      rw [lane] at free unsealed
      obtain rfl := Option.some.inj free
      exact ⟨up, congrArg _ unsealed⟩

/-- Steps of a lane outside a seal keep the invariant. -/
theorem Sound.lane (positive : 0 < cfg.slotsPerChunk) {books more : List Event} {w w' : Writer}
    (sound : Sound cfg books w) {stream : Stream} {action : Action}
    (done : act.lane k w stream action = some (more, w')) : Sound cfg (books ++ more) w' := by
  obtain ⟨s, free, rest⟩ := Option.bind_eq_some_iff.mp done
  obtain ⟨after, stepped, rest⟩ := Option.bind_eq_some_iff.mp rest
  obtain ⟨rfl, rfl⟩ := Prod.mk.inj (Option.some.inj rest)
  obtain ⟨isUp, laneIs⟩ := free_some free
  have laneSound : LaneSound cfg ⟨s, none⟩ := laneIs ▸ sound.lanes stream
  have effect := laneAct_step positive laneSound stepped
  have dirIs : w.dir stream = s.baseDir := by rw [Writer.dir, laneIs]
  apply sound.withLane (fun _ _ _ => rfl) effect.sound
  · intro idx
    rw [List.append_nil]
    apply (sound.chunks stream idx).of_same
    · intro ext member
      rw [laneIs]
      exact effect.same idx ext member
    · rintro - job isSealing rfl
      exact effect.complete job isSealing
  · have lookups : ∀ other idx, ∀ ext ∈ archivalExtensions,
        ((w.withLane stream after).dir other).lookup (chunkName cfg idx ext) =
          (w.dir other).lookup (chunkName cfg idx ext) := by
      intro other idx ext member
      rw [dir_withLane]
      split
      · next same =>
        rw [same, dirIs]
        exact effect.same idx ext member
      · rfl
    refine sound.phase.of_same (phase_withLane _ _ _) (bucket_withLane _ _ _) ?_ ?_ ?_
    · intro other idx sidecar
      rw [lookups other idx "meta.json" (by decide)]
      exact sidecar
    · exact fun other idx => lookups other idx "uploaded" (by decide)
    · exact fun isDown => absurd isDown isUp

/-- A file step of a seal changes files of its chunk only. -/
theorem SealingSound.lookup_step (positive : 0 < cfg.slotsPerChunk) {dir : Dir} {idx : Nat}
    {files : ChunkFiles} {step : FileStep} {rest : List FileStep}
    (sound : SealingSound cfg dir ⟨idx, files, step :: rest⟩) {i : Nat} {ext : String}
    (apart : i ≠ idx ∨ ext ∉ sealExtensions) :
    (FileStep.apply dir step).lookup (chunkName cfg i ext) = dir.lookup (chunkName cfg i ext) := by
  apply lookup_untouched
  intro touched
  obtain ⟨ext', member, same⟩ := sound.inside step List.mem_cons_self _ touched
  obtain ⟨sameIdx, sameExt⟩ := chunkName_injective positive same
  rcases apart with distinct | foreign
  · exact distinct sameIdx
  · exact foreign (sameExt ▸ member)

/-- The last step of a seal renames the sidecar. -/
theorem SealingSound.last {dir : Dir} {idx : Nat} {files : ChunkFiles} {step : FileStep}
    (sound : SealingSound cfg dir ⟨idx, files, [step]⟩) :
    step = .rename (chunkName cfg idx "meta.json.partial") (chunkName cfg idx "meta.json") := by
  obtain ⟨before, same, -⟩ := sound.sidecarLast
  cases before with
  | nil => exact (List.cons.inj same).1
  | cons first later => simp at same

/-- Before that the seal stays sound. -/
theorem SealingSound.next {dir : Dir} {idx : Nat} {files : ChunkFiles} {step : FileStep}
    {rest : List FileStep} (sound : SealingSound cfg dir ⟨idx, files, step :: rest⟩)
    (unfinished : rest ≠ []) : SealingSound cfg (FileStep.apply dir step) ⟨idx, files, rest⟩ := by
  obtain ⟨before, same, untouched⟩ := sound.sidecarLast
  cases before with
  | nil => exact absurd (List.cons.inj same).2 unfinished
  | cons first later =>
    obtain ⟨rfl, rest⟩ := List.cons.inj same
    refine ⟨?_, ?_, later, rest, ?_⟩
    · exact fun other member => sound.inside other (List.mem_cons_of_mem _ member)
    · rw [lookup_untouched dir step _ (untouched step List.mem_cons_self)]
      exact sound.absent
    · exact fun other member => untouched other (List.mem_cons_of_mem _ member)

/-- What a file that a step leaves is named like. -/
theorem known_apply {dir : Dir} {step : FileStep}
    (known : ∀ name content, dir.lookup name = some content →
      ∃ idx, ∃ ext ∈ knownExtensions, name = chunkName cfg idx ext)
    (touched : ∀ name ∈ step.touches, ∃ idx, ∃ ext ∈ knownExtensions, name = chunkName cfg idx ext) :
    ∀ name content, (FileStep.apply dir step).lookup name = some content →
      ∃ idx, ∃ ext ∈ knownExtensions, name = chunkName cfg idx ext := by
  intro name content stored
  by_cases member : name ∈ step.touches
  · exact touched name member
  · rw [lookup_untouched dir step name member] at stored
    exact known name content stored

/-- The lane behind a step of its seal. -/
def Lane.sealStep (lane : Lane) (step : FileStep) (sealing : Option Sealing) : Lane :=
  ⟨{ lane.chunker with baseDir := FileStep.apply lane.chunker.baseDir step }, sealing⟩

/-- The last step of a seal leaves the files that the seal writes. -/
theorem ChunkSound.completes {stream : Stream} {past : List ChunkFiles} {lane : Lane}
    {bucket : Bucket} {idx : Nat} {files : ChunkFiles} {step : FileStep}
    (own : ChunkSound cfg stream past lane bucket idx)
    (isSealing : lane.sealing = some ⟨idx, files, [step]⟩)
    (marker : (FileStep.apply lane.chunker.baseDir step).lookup (chunkName cfg idx "uploaded") =
      lane.chunker.baseDir.lookup (chunkName cfg idx "uploaded")) :
    ChunkSound cfg stream (past ++ [files]) (lane.sealStep step none) bucket idx := by
  refine ⟨fun fresh => absurd fresh (by simp), fun fresh => absurd fresh (by simp), ?_, ?_, ?_⟩
  · intro files' once sidecar ext final content stored
    obtain ⟨fresh, sameFiles⟩ := List.append_eq_singleton_iff.mp once |>.resolve_right
      (fun both => by simp at both)
    obtain rfl := List.singleton_inj.mp sameFiles
    have written := own.sealing fresh _ isSealing rfl ext final
    exact Option.some.inj (stored.symm.trans written)
  · intro files' once ext final content stored
    obtain ⟨fresh, -⟩ := List.append_eq_singleton_iff.mp once |>.resolve_right
      (fun both => by simp at both)
    rw [(own.never fresh).2.2 ext final] at stored
    cases stored
  · intro marked
    exact own.marked ((congrArg Option.isSome marker).symm.trans marked)

/-- Before that the chunk has no sidecar. -/
theorem ChunkSound.goesOn {stream : Stream} {past : List ChunkFiles} {lane : Lane}
    {bucket : Bucket} {idx : Nat} {files : ChunkFiles} {step : FileStep} {rest : List FileStep}
    (own : ChunkSound cfg stream past lane bucket idx)
    (isSealing : lane.sealing = some ⟨idx, files, step :: rest⟩)
    (marker : (FileStep.apply lane.chunker.baseDir step).lookup (chunkName cfg idx "uploaded") =
      lane.chunker.baseDir.lookup (chunkName cfg idx "uploaded"))
    (next : SealingSound cfg (FileStep.apply lane.chunker.baseDir step) ⟨idx, files, rest⟩) :
    ChunkSound cfg stream past (lane.sealStep step (some ⟨idx, files, rest⟩)) bucket idx := by
  refine ⟨?_, ?_, ?_, own.objects, ?_⟩
  · intro fresh
    exact ⟨next.absent, marker.trans (own.never fresh).2.1, (own.never fresh).2.2⟩
  · intro fresh job isJob sameIdx ext final
    obtain rfl := Option.some.inj isJob
    exact own.sealing fresh _ isSealing rfl ext final
  · intro files' once sidecar
    exact absurd (next.absent ▸ sidecar) (by simp)
  · intro marked
    exact own.marked ((congrArg Option.isSome marker).symm.trans marked)

/-- The next file step of a seal keeps the system sound. -/
theorem Sound.sealAct (positive : 0 < cfg.slotsPerChunk) {books more : List Event} {w w' : Writer}
    (sound : Sound cfg books w) {stream : Stream}
    (done : Uploader.sealAct w stream = some (more, w')) : Sound cfg (books ++ more) w' := by
  rw [Uploader.sealAct] at done
  dsimp only at done
  split at done
  · cases done
  · next idx files step rest isSealing isUp =>
    obtain ⟨jobSound, closed⟩ := (sound.lanes stream).sealing _ isSealing
    have other : ∀ {i : Nat} {ext : String}, i ≠ idx ∨ ext ∉ sealExtensions →
        (FileStep.apply (w.lanes stream).chunker.baseDir step).lookup (chunkName cfg i ext) =
          (w.lanes stream).chunker.baseDir.lookup (chunkName cfg i ext) :=
      fun apart => jobSound.lookup_step positive apart
    have markerApart : "uploaded" ∉ sealExtensions := by decide
    have distinct : ∀ i chunk, (w.lanes stream).chunker.open[i]? = some chunk → i ≠ idx := by
      rintro i chunk stored rfl
      rw [closed] at stored
      cases stored
    have known := known_apply (sound.lanes stream).known (fun name touched => by
      obtain ⟨ext, member, same⟩ := jobSound.inside step List.mem_cons_self name touched
      exact ⟨idx, ext, (show ∀ ext ∈ sealExtensions, ext ∈ knownExtensions by decide) ext member,
        same⟩)
    have absent : ∀ i chunk, (w.lanes stream).chunker.open[i]? = some chunk →
        (FileStep.apply (w.lanes stream).chunker.baseDir step).lookup
          (chunkName cfg i "meta.json") = none := by
      intro i chunk stored
      rw [other (.inl (distinct i chunk stored))]
      exact (sound.lanes stream).absent i chunk stored
    -- the files of the other chunks are as before
    have foreign : ∀ i, i ≠ idx → ∀ sealing, (∀ job, sealing = some job → job.idx = idx) →
        ChunkSound cfg stream (sealings books stream i)
          ⟨{ (w.lanes stream).chunker with
            baseDir := FileStep.apply (w.lanes stream).chunker.baseDir step }, sealing⟩
          w.bucket i := by
      intro i apart sealing ofIdx
      apply (sound.chunks stream i).of_same
      · exact fun ext _ => other (.inl apart)
      · rintro - job isJob rfl
        exact absurd (ofIdx job isJob) apart
    have phaseSound : ∀ sealing, PhaseSound cfg (w.withLane stream
        ⟨{ (w.lanes stream).chunker with
          baseDir := FileStep.apply (w.lanes stream).chunker.baseDir step }, sealing⟩) := by
      intro sealing
      refine sound.phase.of_same (phase_withLane _ _ _) (bucket_withLane _ _ _) ?_ ?_
        (fun isDown => absurd isDown isUp)
      · intro stream' i sidecar
        rw [dir_withLane]
        split
        · next same =>
          subst same
          have apart : i ≠ idx := by
            rintro rfl
            rw [Writer.dir, jobSound.absent] at sidecar
            cases sidecar
          exact (congrArg Option.isSome (other (.inl apart))).trans sidecar
        · exact sidecar
      · intro stream' i
        rw [dir_withLane]
        split
        · next same =>
          subst same
          exact other (.inr markerApart)
        · rfl
    have own := sound.chunks stream idx
    split at done
    · next isLast =>
      subst isLast
      obtain ⟨rfl, rfl⟩ := Prod.mk.inj (Option.some.inj done)
      apply sound.withLane
      · intro stream' i apart
        rw [sealings_sealed, if_neg (fun same => apart same.1.symm)]
      · exact ⟨(sound.lanes stream).sameCfg, known, (sound.lanes stream).named, absent,
          fun job isJob => by cases isJob⟩
      · intro i
        rw [sealings_append, sealings_sealed]
        by_cases same : i = idx
        · -- one more seal is complete
          subst same
          rw [if_pos ⟨rfl, rfl⟩]
          exact own.completes isSealing (other (.inr markerApart))
        · rw [if_neg (fun both => same both.2.symm), List.append_nil]
          exact foreign i same none (fun job isJob => by cases isJob)
      · exact phaseSound none
    · next unfinished =>
      obtain ⟨rfl, rfl⟩ := Prod.mk.inj (Option.some.inj done)
      have nextSound := jobSound.next unfinished
      apply sound.withLane (fun _ _ _ => rfl)
      · refine ⟨(sound.lanes stream).sameCfg, known, (sound.lanes stream).named, absent, ?_⟩
        intro job isJob
        obtain rfl := Option.some.inj isJob
        exact ⟨nextSound, closed⟩
      · intro i
        rw [List.append_nil]
        by_cases same : i = idx
        · subst same
          exact own.goesOn isSealing (other (.inr markerApart)) nextSound
        · apply foreign i same
          intro job isJob
          obtain rfl := Option.some.inj isJob
          rfl
      · exact phaseSound _
  · cases done

/-! ## The directories under the uploader and the recovery -/

/-- A file step outside the lanes keeps the invariant of files and objects when it adds
no sealed file, leaves alone what a first seal relies on, and adds a marker for an
archived chunk only. -/
theorem Sound.disk {books : List Event} {w : Writer} (sound : Sound cfg books w) {stream : Stream}
    {step : FileStep}
    (known : ∀ name content, (FileStep.apply (w.dir stream) step).lookup name = some content →
      ∃ idx, ∃ ext ∈ knownExtensions, name = chunkName cfg idx ext)
    (shrinks : ∀ idx, ∀ ext ∈ finalExtensions, ∀ content,
      (FileStep.apply (w.dir stream) step).lookup (chunkName cfg idx ext) = some content →
      (w.dir stream).lookup (chunkName cfg idx ext) = some content)
    (fresh : ∀ idx, sealings books stream idx = [] →
      (FileStep.apply (w.dir stream) step).lookup (chunkName cfg idx "uploaded") = none)
    (jobs : ∀ job, (w.lanes stream).sealing = some job → sealings books stream job.idx = [] →
      ∀ ext ∈ sealExtensions,
        (FileStep.apply (w.dir stream) step).lookup (chunkName cfg job.idx ext) =
          (w.dir stream).lookup (chunkName cfg job.idx ext))
    (markers : ∀ idx, Marked cfg (FileStep.apply (w.dir stream) step) idx →
      Archived cfg w.bucket stream idx) :
    (∀ other, LaneSound cfg ((w.onDisk stream step).lanes other)) ∧
      ∀ other idx, ChunkSound cfg other (sealings books other idx)
        ((w.onDisk stream step).lanes other) w.bucket idx := by
  have gone : ∀ idx, (w.dir stream).lookup (chunkName cfg idx "meta.json") = none →
      (FileStep.apply (w.dir stream) step).lookup (chunkName cfg idx "meta.json") = none := by
    intro idx absent
    cases stored : (FileStep.apply (w.dir stream) step).lookup (chunkName cfg idx "meta.json") with
    | none => rfl
    | some content =>
      rw [shrinks idx "meta.json" (by decide) content stored] at absent
      cases absent
  constructor
  · intro other
    rw [Writer.onDisk, lanes_withLane]
    split
    · have lane := sound.lanes stream
      refine ⟨lane.sameCfg, known, lane.named, ?_, ?_⟩
      · exact fun idx chunk stored => gone idx (lane.absent idx chunk stored)
      · intro job isSealing
        obtain ⟨jobSound, closed⟩ := lane.sealing job isSealing
        exact ⟨⟨jobSound.inside, gone job.idx jobSound.absent, jobSound.sidecarLast⟩, closed⟩
    · exact sound.lanes other
  · intro other idx
    rw [Writer.onDisk, lanes_withLane]
    split
    · next same =>
      subst same
      have chunk := sound.chunks other idx
      refine ⟨?_, ?_, ?_, chunk.objects, markers idx⟩
      · exact fun new => ⟨gone idx (chunk.never new).1, fresh idx new, (chunk.never new).2.2⟩
      · rintro new job isSealing rfl ext final
        have jobSound := ((sound.lanes other).sealing job isSealing).1
        exact (jobSound.lookup_perform (jobs job isSealing new) ext final).trans
          (chunk.sealing new job isSealing rfl ext final)
      · intro files once sidecar ext final content stored
        have before : ((w.dir other).lookup (chunkName cfg idx "meta.json")).isSome = true := by
          obtain ⟨bytes, present⟩ := Option.isSome_iff_exists.mp sidecar
          rw [shrinks idx "meta.json" (by decide) bytes present]
          rfl
        exact chunk.copies files once before ext final content
          (shrinks idx ext final content stored)
    · exact sound.chunks other idx

/-- A restart that keeps the archival files keeps the invariant of files and objects. -/
theorem Sound.restart {books : List Event} {w : Writer} (sound : Sound cfg books w)
    {dirs : Recovery.Dirs}
    (same : ∀ stream idx, ∀ ext ∈ archivalExtensions,
      (dirs stream).lookup (chunkName cfg idx ext) = (w.dir stream).lookup (chunkName cfg idx ext))
    (shrinks : ∀ stream name content, (dirs stream).lookup name = some content →
      (w.dir stream).lookup name = some content) :
    (∀ stream, LaneSound cfg ((w.restartOn cfg dirs).lanes stream)) ∧
      ∀ stream idx, ChunkSound cfg stream (sealings books stream idx)
        ((w.restartOn cfg dirs).lanes stream) w.bucket idx := by
  constructor
  · intro stream
    refine ⟨rfl, ?_, ?_, ?_, ?_⟩
    · exact fun name content stored =>
        (sound.lanes stream).known name content (shrinks stream name content stored)
    · intro idx chunk stored
      simp [Writer.restartOn, Chunker.new] at stored
    · intro idx chunk stored
      simp [Writer.restartOn, Chunker.new] at stored
    · intro job isSealing
      cases isSealing
  · intro stream idx
    apply (sound.chunks stream idx).of_same (same stream idx)
    intro new job isSealing
    cases isSealing

/-- What a removal leaves was there before. -/
theorem lookup_removed {dir : Dir} {name asked : FileName} {content : Bytes}
    (stored : (FileStep.apply dir (.remove name)).lookup asked = some content) :
    dir.lookup asked = some content := by
  rw [lookup_remove] at stored
  split at stored
  · cases stored
  · exact stored

/-- The final names and the marker are no leftovers. -/
theorem isPartial_archival (idx : Nat) {ext : String} (member : ext ∈ archivalExtensions) :
    Recovery.isPartial (chunkName cfg idx ext) = false := by
  rcases List.mem_cons.mp member with rfl | final
  · have nonempty : stem (idx * cfg.slotsPerChunk) (idx * cfg.slotsPerChunk + cfg.slotsPerChunk) ≠
        [] := by simp [stem]
    rw [Recovery.isPartial, chunkName, chunkFile, Recovery.extension_append nonempty (by decide)]
    decide
  · exact Recovery.isPartial_final cfg idx final

/-- An uploader between two passes holds nothing that could be wrong. -/
theorem PhaseSound.ofIdle {w : Writer} (isIdle : w.phase = .idle) : PhaseSound cfg w := by
  constructor
  · simp [isIdle, Phase.queue]
  all_goals simp [isIdle]

/-- Nor does one that is down, where no seal is left half done. -/
theorem PhaseSound.ofDown {w : Writer} (isDown : w.phase = .down)
    (unsealed : ∀ stream, (w.lanes stream).sealing = none) : PhaseSound cfg w := by
  constructor
  · simp [isDown, Phase.queue]
  case down => exact fun _ => unsealed
  all_goals simp [isDown]

/-- A crash and the start behind it keep the invariant. -/
theorem Sound.crash {books : List Event} {w : Writer} (sound : Sound cfg books w) :
    Sound cfg books { w.restartOn cfg w.dir with phase := .down } := by
  obtain ⟨lanes, chunks⟩ := sound.restart (fun _ _ _ _ => rfl) (fun _ _ _ stored => stored)
  exact ⟨lanes, chunks, .ofDown rfl (fun _ => rfl), sound.ordered⟩

/-- The recovery of a restart keeps the system sound. -/
theorem Sound.boot {books : List Event} {w : Writer} (sound : Sound cfg books w) :
    Sound cfg books { w.restartOn cfg (Recovery.runRecovery w.dir).1 with phase := .idle } := by
  have swept : ∀ stream asked, ((Recovery.runRecovery w.dir).1 stream).lookup asked =
      if Recovery.isPartial asked = true then none else (w.dir stream).lookup asked :=
    fun stream asked => Recovery.lookup_sweepPartials (w.dir stream) asked
  obtain ⟨lanes, chunks⟩ := @Sound.restart cfg books w sound (Recovery.runRecovery w.dir).1
    (fun stream idx ext member => by rw [swept, isPartial_archival idx member]; rfl)
    (fun stream name content stored => by
      rw [swept] at stored
      split at stored
      · cases stored
      · exact stored)
  exact ⟨lanes, chunks, .ofIdle rfl, sound.ordered⟩

/-- So does a recovery that is cut off. -/
theorem Sound.sweepPartial {books : List Event} {w : Writer} (sound : Sound cfg books w)
    (isDown : w.phase = .down) {stream : Stream} {name : FileName}
    (leftover : Recovery.isPartial name = true) :
    Sound cfg books (w.onDisk stream (.remove name)) := by
  have kept : ∀ idx, ∀ ext ∈ archivalExtensions,
      (FileStep.apply (w.dir stream) (.remove name)).lookup (chunkName cfg idx ext) =
        (w.dir stream).lookup (chunkName cfg idx ext) := by
    intro idx ext member
    rw [lookup_remove, if_neg]
    rintro rfl
    rw [isPartial_archival idx member] at leftover
    cases leftover
  have unsealed := sound.phase.down isDown
  obtain ⟨lanes, chunks⟩ := @Sound.disk cfg books w sound stream (.remove name)
    (fun asked content stored => (sound.lanes stream).known asked content (lookup_removed stored))
    (fun idx ext final content stored => by
      rwa [kept idx ext (List.mem_cons_of_mem _ final)] at stored)
    (fun idx new => by
      rw [kept idx "uploaded" (by decide)]
      exact ((sound.chunks stream idx).never new).2.1)
    (fun job isSealing => by rw [unsealed stream] at isSealing; cases isSealing)
    (fun idx marker => by
      rw [Marked, kept idx "uploaded" (by decide)] at marker
      exact (sound.chunks stream idx).marked marker)
  refine ⟨lanes, chunks, .ofDown isDown (fun other => ?_), sound.ordered⟩
  rw [Writer.onDisk, lanes_withLane]
  split
  · exact unsealed stream
  · exact unsealed other

end Sillage.Uploader
