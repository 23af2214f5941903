import Sillage.Foundation.Tasks
import Sillage.Writer.Durability

/-!
# A pass of the uploader archives what was sealed

A pass goes from a scan to the join of its uploads. If its scan finds every chunk that waits
for an upload, fewer puts fail than an upload has attempts and the process does not crash,
then all chunks that were sealed before the scan are archived behind the join, whatever the
lanes do meanwhile, but for opening an archived chunk again or sealing an empty one, and
whichever files the retention sweep removes.
-/

namespace Sillage.Uploader

open LittleEndian Directory Names OpenChunk

/-- A step of a lane. -/
def Action.ofLane : Action → Bool
  | .advance .. | .openChunk .. | .append .. | .beginSeal .. | .sealStep _ => true
  | _ => false

/-- A step at which no upload is dropped and the process does not crash. -/
def Unhindered : Action → Prop
  | .fail _ | .crash | .sweepPartial _ _ | .boot => False
  | _ => True

/-- Whether an action is unhindered is read off the action. -/
instance : DecidablePred Unhindered := fun action => by
  cases action <;> unfold Unhindered <;> infer_instance

/-- A step at which a put fails. -/
def Action.fails : Action → Bool
  | .upload _ result => decide (result ≠ .stored)
  | _ => false

/-- A pass has a chunk before it: the chunk waits, or is uploaded and so many attempts at the
put that is next have failed at most. -/
def Phase.Awaits (failures : Nat) (chunk : PendingChunk) : Phase → Prop
  | .sweeping pending _ _ => chunk ∈ pending
  | .uploading waiting running =>
      chunk ∈ waiting ∨ ∃ upload ∈ running, upload.chunk = chunk ∧ upload.attempt ≤ failures
  | _ => False

/-- The uploader is between two passes. -/
def Phase.isIdle : Phase → Bool
  | .idle => true
  | _ => false

/-- An uploader is idle between two passes only. -/
theorem Phase.isIdle_iff {phase : Phase} : phase.isIdle = true ↔ phase = .idle := by
  cases phase <;> simp [Phase.isIdle]

/-- A chunk is archived, or its files are on disk and the pass has it before it. -/
def Due (cfg : WriterConfig) (failures : Nat) (w : Writer) (stream : Stream) (idx : Nat) : Prop :=
  Archived cfg w.bucket stream idx ∨
    Whole cfg (w.dir stream) idx ∧ w.phase.Awaits failures (pendingChunk cfg stream idx)

variable {k : Codecs} {cfg : WriterConfig} {up : UploaderConfig} {notes more : List Note}
  {books events : List Event} {w w' : Writer} {action : Action} {stream : Stream} {idx : Nat}

/-! ## The scan -/

/-- The scan finds a chunk with a sidecar and without a marker. -/
theorem mem_scanPending (fits : idx * cfg.slotsPerChunk + cfg.slotsPerChunk < u64Bound)
    (sidecar : ((w.dir stream).lookup (chunkName cfg idx "meta.json")).isSome = true)
    (unmarked : ¬ Marked cfg (w.dir stream) idx) :
    pendingChunk cfg stream idx ∈ scanPending w.dir := by
  have starts : idx * cfg.slotsPerChunk < u64Bound := by omega
  have marker : (w.dir stream).lookup (withExtension
      (stem (idx * cfg.slotsPerChunk) (idx * cfg.slotsPerChunk + cfg.slotsPerChunk)) "uploaded") =
      none := by
    rw [withExtension_stem]
    exact Option.not_isSome_iff_eq_none.mp unmarked
  have pending : pendingOf stream (w.dir stream) (chunkName cfg idx "meta.json") =
      some (pendingChunk cfg stream idx) := by
    simp [pendingOf, chunkName, chunkFile_meta, stripSuffix_append, marker, splitOnce_stem,
      parseU64_padded _ starts, parseU64_padded _ fits, pendingChunk]
  simp only [scanPending, List.mem_insertionSort, List.mem_flatMap, List.mem_filterMap]
  exact ⟨stream, Stream.mem_all stream, _, AList.lookup_isSome.mp sidecar, pending⟩

/-- Behind a complete scan, a pass has every secured chunk before it that is not archived. -/
theorem Secured.scan (sound : Sound cfg books w) {found : List PendingChunk}
    (complete : scanPending w.dir ⊆ found)
    (fits : idx * cfg.slotsPerChunk + cfg.slotsPerChunk < u64Bound)
    (secured : Secured cfg w stream idx) (done : act k cfg up w (.scan found) = some (events, w')) :
    Due cfg 0 w' stream idx := by
  simp only [act] at done
  split at done
  · split at done
    · obtain ⟨-, rfl⟩ := Prod.mk.inj (Option.some.inj done)
      rcases secured with whole | archived
      · by_cases marker : Marked cfg (w.dir stream) idx
        · exact .inl ((sound.chunks stream idx).marked marker)
        · exact .inr ⟨whole, complete (mem_scanPending fits whole.sidecar marker)⟩
      · exact .inl archived
    · cases done
  · cases done

/-! ## The steps of a pass -/

/-- What is left of an upload behind its next step. -/
inductive Upload.Moves (up : UploaderConfig) (file : String → Option Bytes) (upload : Upload)
    (result : PutResult) : Option Upload → Prop where
  | ends (isDone : upload.rest = []) : Moves up file upload result none
  | marks {step : FileStep} {later : List UploadStep} (isNext : upload.rest = .onDisk step :: later) :
      Moves up file upload result (some { upload with rest := later })
  | stores {ext : String} {later : List UploadStep} (isNext : upload.rest = .put ext :: later)
      (succeeds : (putFile (file ext) result).2 = true) :
      Moves up file upload result (some { upload with rest := later, attempt := 0 })
  | retries {ext : String} {later : List UploadStep} (isNext : upload.rest = .put ext :: later)
      (failed : (putFile (file ext) result).2 = false)
      (more : upload.attempt + 1 < up.retryAttempts) :
      Moves up file upload result (some { upload with attempt := upload.attempt + 1 })
  | givesUp {ext : String} {later : List UploadStep} (isNext : upload.rest = .put ext :: later)
      (failed : (putFile (file ext) result).2 = true → ¬ upload.attempt < up.retryAttempts)
      (last : ¬ upload.attempt + 1 < up.retryAttempts) :
      Moves up file upload result none

/-- Where a step leaves the uploader. -/
inductive PhaseStep (up : UploaderConfig) (w : Writer) : Action → Phase → Prop where
  | ofLane {action : Action} (lane : action.ofLane = true) : PhaseStep up w action w.phase
  | scans (found : List PendingChunk) (isIdle : w.phase = .idle) :
      PhaseStep up w (.scan found) (.sweeping found [] [])
  | lists {pending : List PendingChunk} (stream : Stream) (names : List FileName)
      (isSweeping : w.phase = .sweeping pending [] []) :
      PhaseStep up w (.readDir stream names)
        (.sweeping pending (names.map (fun name => (stream, name))) [])
  | skips {pending : List PendingChunk} {entry : Stream × FileName}
      {entries : List (Stream × FileName)} (age : Option Nat)
      (isSweeping : w.phase = .sweeping pending (entry :: entries) []) :
      PhaseStep up w (.examine age) (.sweeping pending entries [])
  | expires {pending : List PendingChunk} {stream : Stream} {name : FileName}
      {entries : List (Stream × FileName)} (age : Option Nat) (stem : FileName)
      (isSweeping : w.phase = .sweeping pending ((stream, name) :: entries) []) :
      PhaseStep up w (.examine age)
        (.sweeping pending entries ((siblings stem).map (fun file => (stream, file))))
  | misses {pending : List PendingChunk} {entries : List (Stream × FileName)} (age : Option Nat)
      (isSweeping : w.phase = .sweeping pending entries []) :
      PhaseStep up w (.examine age) (.uploading pending [])
  | removes {pending : List PendingChunk} {file : Stream × FileName}
      {entries removals : List (Stream × FileName)} (succeeds : Bool)
      (isSweeping : w.phase = .sweeping pending entries (file :: removals)) :
      PhaseStep up w (.remove succeeds) (.sweeping pending entries removals)
  | sweeps {pending : List PendingChunk} (isSweeping : w.phase = .sweeping pending [] []) :
      PhaseStep up w .endSweep (.uploading pending [])
  | spawns {chunk : PendingChunk} {waiting : List PendingChunk} {running : List Upload}
      (isUploading : w.phase = .uploading (chunk :: waiting) running) :
      PhaseStep up w .spawn (.uploading waiting (running ++ [⟨chunk, uploadChunk chunk, 0⟩]))
  | uploads {waiting : List PendingChunk} {running : List Upload} {task : Nat} {upload : Upload}
      {result : PutResult} {next : Option Upload} (isUploading : w.phase = .uploading waiting running)
      (found : running[task]? = some upload)
      (moves : upload.Moves up (fun ext =>
        (w.dir upload.chunk.stream).lookup (withExtension upload.chunk.base ext)) result next) :
      PhaseStep up w (.upload task result) (.uploading waiting (Tasks.replaced running task next))
  | fails {waiting : List PendingChunk} {running : List Upload} (task : Nat)
      (isUploading : w.phase = .uploading waiting running) :
      PhaseStep up w (.fail task) (.uploading waiting (Tasks.replaced running task none))
  | joins (isUploading : w.phase = .uploading [] []) : PhaseStep up w .join .idle
  | crashes : PhaseStep up w .crash .down
  | clears (stream : Stream) (name : FileName) (isDown : w.phase = .down) :
      PhaseStep up w (.sweepPartial stream name) .down
  | boots (isDown : w.phase = .down) : PhaseStep up w .boot .idle

/-- An attempt at a put is the last, succeeds or is made again. -/
theorem Upload.retry_moves {file : String → Option Bytes} {upload : Upload} {result : PutResult}
    {ext : String} {later : List UploadStep} (isNext : upload.rest = .put ext :: later) :
    upload.Moves up file result (upload.retry up later (putFile (file ext) result).2) := by
  rw [Upload.retry]
  split
  · next succeeds => exact .stores isNext succeeds
  · next failed =>
    split
    · next more => exact .retries isNext (Bool.eq_false_of_not_eq_true failed) more
    · next last => exact .givesUp isNext (fun succeeds => absurd succeeds failed) last

/-- A step of an upload moves the pass on. -/
theorem uploadAct_phase {waiting : List PendingChunk} {running : List Upload} {task : Nat}
    {result : PutResult} (isUploading : w.phase = .uploading waiting running)
    (done : uploadAct up w waiting running task result = some (events, w')) :
    PhaseStep up w (.upload task result) w'.phase := by
  obtain ⟨upload, found, done⟩ := Option.bind_eq_some_iff.mp done
  split at done
  · next isDone =>
    obtain ⟨-, rfl⟩ := Prod.mk.inj (Option.some.inj done)
    exact .uploads isUploading found (.ends isDone)
  · next step later isNext =>
    obtain ⟨-, rfl⟩ := Prod.mk.inj (Option.some.inj done)
    exact .uploads isUploading found (.marks isNext)
  · next ext later isNext =>
    have moves : upload.Moves up (fun ext =>
        (w.dir upload.chunk.stream).lookup (withExtension upload.chunk.base ext)) result _ :=
      Upload.retry_moves isNext
    dsimp only at done moves
    split at done
    · generalize upload.retry up later _ = next at done moves
      split at done
      all_goals
        obtain ⟨-, rfl⟩ := Prod.mk.inj (Option.some.inj done)
        cases next
        all_goals exact .uploads isUploading found moves
    · next spent =>
      obtain ⟨-, rfl⟩ := Prod.mk.inj (Option.some.inj done)
      exact .uploads isUploading found (.givesUp isNext (fun _ => spent) (by omega))

/-- So does the examination of an entry by the sweep. -/
theorem examineAct_phase {age : Option Nat} {phase : Phase} (done : examineAct up w age = some phase) :
    PhaseStep up w (.examine age) phase := by
  rw [examineAct] at done
  split at done
  · next pending stream name entries isSweeping =>
    split at done
    · exact Option.some.inj done ▸ .skips age isSweeping
    · next stem isMarker =>
      split at done
      · exact Option.some.inj done ▸ .misses age isSweeping
      · split at done
        · exact Option.some.inj done ▸ .expires age stem isSweeping
        · exact Option.some.inj done ▸ .skips age isSweeping
  · cases done

/-- Whatever happens leaves the pass where it is, or moves it on in one of these ways. -/
theorem act_phase (done : act k cfg up w action = some (events, w')) :
    PhaseStep up w action w'.phase := by
  have ofLane : ∀ stream, action.ofLane = true → act.lane k w stream action = some (events, w') →
      PhaseStep up w action w'.phase := by
    intro stream isLane stepped
    obtain ⟨s, after, -, -, -, rfl⟩ := lane_done stepped
    exact .ofLane isLane
  cases action with
  | advance stream slot => exact ofLane stream rfl done
  | openChunk stream now idx => exact ofLane stream rfl done
  | append stream a => exact ofLane stream rfl done
  | beginSeal stream reason idx => exact ofLane stream rfl done
  | sealStep stream =>
    simp only [act, sealAct] at done
    repeat' split at done
    all_goals first
      | (obtain ⟨-, rfl⟩ := Prod.mk.inj (Option.some.inj done); exact .ofLane rfl)
      | cases done
  | examine age =>
    obtain ⟨phase, examined, rest⟩ := Option.map_eq_some_iff.mp done
    obtain ⟨-, rfl⟩ := Prod.mk.inj rest
    exact examineAct_phase examined
  | upload task result =>
    simp only [act] at done
    split at done
    · next isUploading => exact uploadAct_phase isUploading done
    · cases done
  | crash =>
    obtain ⟨-, rfl⟩ := Prod.mk.inj (Option.some.inj done)
    exact .crashes
  | sweepPartial stream name =>
    simp only [act] at done
    split at done
    · next isDown =>
      split at done
      · obtain ⟨-, rfl⟩ := Prod.mk.inj (Option.some.inj done)
        exact isDown ▸ .clears stream name isDown
      · cases done
    · cases done
  | _ =>
    simp only [act] at done
    split at done
    · next isPhase =>
      repeat' split at done
      all_goals first
        | (obtain ⟨-, rfl⟩ := Prod.mk.inj (Option.some.inj done); constructor; exact isPhase)
        | cases done
    · cases done

/-! ## A due chunk is archived -/

/-- An upload with attempts to spare goes on, or has come to its end. -/
theorem Upload.Moves.goesOn {file : String → Option Bytes} {upload : Upload} {result : PutResult}
    {next : Option Upload} (moves : upload.Moves up file result next) {failures : Nat}
    (few : upload.attempt ≤ failures)
    (spare : failures + (if result = .stored then 0 else 1) < up.retryAttempts)
    (present : ∀ ext later, upload.rest = .put ext :: later → (file ext).isSome = true) :
    (∃ next', next = some next' ∧ next'.chunk = upload.chunk ∧
      next'.attempt ≤ failures + (if result = .stored then 0 else 1)) ∨ upload.rest = [] := by
  have failed : ∀ ext later, upload.rest = .put ext :: later →
      (putFile (file ext) result).2 = false → result ≠ .stored := by
    rintro ext later isNext failed rfl
    obtain ⟨content, found⟩ := Option.isSome_iff_exists.mp (present ext later isNext)
    rw [found] at failed
    cases failed
  cases moves with
  | ends isDone => exact .inr isDone
  | marks isNext => exact .inl ⟨_, rfl, rfl, few.trans (Nat.le_add_right _ _)⟩
  | stores isNext _ => exact .inl ⟨_, rfl, rfl, Nat.zero_le _⟩
  | retries isNext refused _ =>
    rw [if_neg (failed _ _ isNext refused)]
    exact .inl ⟨_, rfl, rfl, Nat.add_le_add_right few 1⟩
  | @givesUp ext later isNext spent last =>
    cases outcome : (putFile (file ext) result).2 with
    | true => exact absurd (spent outcome) (by omega)
    | false =>
      rw [if_neg (failed _ _ isNext outcome)] at spare
      omega

/-- An upload that has come to its end has archived its chunk. -/
theorem archived_of_done (sound : PhaseSound cfg w) {waiting : List PendingChunk}
    {running : List Upload} {upload : Upload} (isUploading : w.phase = .uploading waiting running)
    (member : upload ∈ running) (own : upload.chunk = pendingChunk cfg stream idx)
    (isDone : upload.rest = []) : Archived cfg w.bucket stream idx := by
  obtain ⟨past, split, put⟩ := sound.progress waiting running isUploading upload member
  rw [isDone, List.append_nil] at split
  intro ext final
  have isPut : .put ext ∈ past := by
    rw [← split, uploadChunk]
    exact List.mem_append_left _ (List.mem_map_of_mem final)
  have stored := put ext isPut
  rwa [own] at stored

/-- A step of an unhindered pass keeps a chunk before it whose files are on disk, unless the
chunk is archived. -/
theorem awaits_step (sound : PhaseSound cfg w) {phase : Phase} {failures : Nat}
    (unhindered : Unhindered action)
    (spare : failures + (if action.fails then 1 else 0) < up.retryAttempts)
    (whole : Whole cfg (w.dir stream) idx)
    (awaits : w.phase.Awaits failures (pendingChunk cfg stream idx))
    (moves : PhaseStep up w action phase) :
    phase.Awaits (failures + (if action.fails then 1 else 0)) (pendingChunk cfg stream idx) ∨
      Archived cfg w.bucket stream idx := by
  have sweeping : ∀ {pending entries removals}, w.phase = .sweeping pending entries removals →
      pendingChunk cfg stream idx ∈ pending := fun same => by rwa [same] at awaits
  cases moves with
  | @ofLane action isLane =>
    refine .inl ?_
    have same : (if action.fails then 1 else 0) = 0 := by cases action <;> first | rfl | cases isLane
    rwa [same]
  | scans found isIdle => exact (isIdle ▸ awaits).elim
  | lists _ _ isSweeping => exact .inl (sweeping isSweeping)
  | skips _ isSweeping => exact .inl (sweeping isSweeping)
  | expires _ _ isSweeping => exact .inl (sweeping isSweeping)
  | misses _ isSweeping => exact .inl (.inl (sweeping isSweeping))
  | removes _ isSweeping => exact .inl (sweeping isSweeping)
  | sweeps isSweeping => exact .inl (.inl (sweeping isSweeping))
  | spawns isUploading =>
    rw [isUploading] at awaits
    rcases awaits with waits | ⟨upload, member, own, few⟩
    · rcases List.mem_cons.mp waits with isFirst | later
      · exact .inl (.inr ⟨_, List.mem_append_right _ (List.mem_singleton_self _), isFirst.symm,
          Nat.zero_le _⟩)
      · exact .inl (.inl later)
    · exact .inl (.inr ⟨upload, List.mem_append_left _ member, own, few⟩)
  | @uploads waiting running task upload result next isUploading found moves =>
    have counted : (if (Action.upload task result).fails then 1 else 0) =
        if result = .stored then 0 else 1 := by cases result <;> rfl
    rw [counted] at spare ⊢
    rw [isUploading] at awaits
    rcases awaits with waits | ⟨own, member, isOwn, few⟩
    · exact .inl (.inl waits)
    · obtain ⟨i, placed⟩ := List.mem_iff_getElem?.mp member
      by_cases same : i = task
      · obtain rfl : own = upload := Option.some.inj (placed.symm.trans (same ▸ found))
        have present : ∀ ext later, own.rest = .put ext :: later →
            ((w.dir own.chunk.stream).lookup (withExtension own.chunk.base ext)).isSome = true := by
          intro ext later isNext
          obtain ⟨past, split, -⟩ := sound.progress waiting running isUploading own member
          rw [isNext] at split
          rw [isOwn, withExtension_pending]
          exact whole ext (uploadChunk_put split).1
        rcases moves.goesOn few spare present with ⟨next', rfl, sameChunk, few'⟩ | isDone
        · exact .inl (.inr ⟨next', Tasks.next_mem_replaced found, sameChunk.trans isOwn, few'⟩)
        · exact .inr (archived_of_done sound isUploading member isOwn isDone)
      · exact .inl (.inr ⟨own, Tasks.other_mem_replaced same placed, isOwn,
          few.trans (Nat.le_add_right _ _)⟩)
  | joins isUploading =>
    rw [isUploading] at awaits
    rcases awaits with waits | ⟨_, member, -⟩
    · cases waits
    · cases member
  | _ => exact unhindered.elim

/-- A chunk that the pass has before it stays so until it is archived, as long as few puts fail.
-/
theorem Due.step (positive : 0 < cfg.slotsPerChunk) (sound : Sound cfg books w)
    (unhindered : Unhindered action) {failures : Nat}
    (spare : failures + (if action.fails then 1 else 0) < up.retryAttempts)
    (due : Due cfg failures w stream idx) (done : act k cfg up w action = some (events, w')) :
    Due cfg (failures + (if action.fails then 1 else 0)) w' stream idx := by
  rcases due with archived | ⟨whole, awaits⟩
  · exact .inl (archived_stays done archived)
  · rcases act_files positive sound done whole.sidecar with same | marker
    · rcases awaits_step sound.phase unhindered spare whole awaits (act_phase done) with
        awaits' | archived
      · exact .inr ⟨whole.of_same same, awaits'⟩
      · exact .inl (archived_stays done archived)
    · exact .inl (archived_stays done ((sound.chunks stream idx).marked marker))

/-- When the pass has ended, nothing is before it any more. -/
theorem Due.archived {failures : Nat} (due : Due cfg failures w stream idx)
    (ended : w.phase = .idle) : Archived cfg w.bucket stream idx := by
  rcases due with archived | ⟨-, awaits⟩
  · exact archived
  · exact (ended ▸ awaits).elim

/-- A due chunk stays due along an unhindered run with few failures. -/
theorem Due.runs (positive : 0 < cfg.slotsPerChunk) (kept : Kept k cfg notes w)
    (due : Due cfg 0 w stream idx) {actions : List Action} {later : List Note}
    (ran : Behaviour.Steps (spare k cfg up) w actions later w')
    (unhindered : ∀ action ∈ actions, Unhindered action)
    (few : actions.countP Action.fails < up.retryAttempts) :
    Kept k cfg (notes ++ later) w' ∧ Due cfg (actions.countP Action.fails) w' stream idx := by
  have both : Kept k cfg (notes ++ later) w' ∧
      ((∀ action ∈ actions, Unhindered action) →
        actions.countP Action.fails < up.retryAttempts →
        Due cfg (actions.countP Action.fails) w' stream idx) := by
    refine ran.keeps_with (fun actions later w => Kept k cfg (notes ++ later) w ∧
      ((∀ action ∈ actions, Unhindered action) →
        actions.countP Action.fails < up.retryAttempts →
        Due cfg (actions.countP Action.fails) w stream idx)) ⟨by simpa using kept, fun _ _ => due⟩ ?_
    rintro actions later v action more v' ⟨keptSoFar, dueSoFar⟩ done
    rw [← List.append_assoc]
    refine ⟨keptSoFar.step positive done, fun unhindered few => ?_⟩
    obtain ⟨-, -, events, acted, -⟩ := spare_done done
    have earlier : ∀ a ∈ actions, Unhindered a := fun a member => unhindered a (by simp [member])
    rw [List.countP_append, List.countP_singleton] at few ⊢
    exact (dueSoFar earlier (by omega)).step positive keptSoFar.sound (unhindered action (by simp))
      few acted
  exact ⟨both.1, both.2 unhindered few⟩

/-- A secured chunk is archived behind an unhindered pass with few failures. -/
theorem Secured.passed (positive : 0 < cfg.slotsPerChunk) (kept : Kept k cfg notes w)
    (secured : Secured cfg w stream idx)
    (fits : idx * cfg.slotsPerChunk + cfg.slotsPerChunk < u64Bound) {found : List PendingChunk}
    (complete : scanPending w.dir ⊆ found) {v : Writer}
    (scanned : spare k cfg up w (.scan found) = some (more, v)) {actions : List Action}
    {later : List Note} (ran : Behaviour.Steps (spare k cfg up) v actions later w')
    (unhindered : ∀ action ∈ actions, Unhindered action)
    (few : actions.countP Action.fails < up.retryAttempts) (ended : w'.phase = .idle) :
    Kept k cfg (notes ++ more ++ later) w' ∧ Archived cfg w'.bucket stream idx := by
  obtain ⟨-, -, events, acted, -⟩ := spare_done scanned
  have due := secured.scan kept.sound complete fits acted
  obtain ⟨keptEnd, dueEnd⟩ := due.runs positive (kept.step positive scanned) ran unhindered few
  exact ⟨keptEnd, dueEnd.archived ended⟩

/-- In a run that opens no archived chunk again and seals no empty one, where fewer puts fail in
a pass than an upload has attempts, no upload is dropped and the process does not crash, all
chunks that were sealed before a complete scan are archived behind the pass, as they were
sealed. -/
theorem pass_archives (k : Codecs) (cfg : WriterConfig) (up : UploaderConfig)
    (positive : 1 ≤ cfg.slotsPerChunk) (before actions : List Action)
    (notes more later : List Note) (w v w' : Writer)
    (reached : Behaviour.Steps (spare k cfg up) (Writer.start cfg) before notes w)
    (found : List PendingChunk) (complete : scanPending w.dir ⊆ found)
    (scanned : spare k cfg up w (.scan found) = some (more, v))
    (ran : Behaviour.Steps (spare k cfg up) v actions later w')
    (unhindered : ∀ action ∈ actions, Unhindered action)
    (few : actions.countP Action.fails < up.retryAttempts) (ended : w'.phase = .idle)
    (stream : Stream) (idx : Nat) (fits : idx * cfg.slotsPerChunk + cfg.slotsPerChunk < u64Bound)
    (files : ChunkFiles) (isSealed : files ∈ sealings (booksOf notes) stream idx) :
    ∀ ext ∈ finalExtensions,
      w'.bucket.lookup (objectOf cfg stream idx ext) = some (files.content ext) := by
  obtain ⟨kept, secured⟩ := AllSecured.runs positive reached
  obtain ⟨keptEnd, archived⟩ := (secured stream idx (List.ne_nil_of_mem isSealed)).passed positive
    kept fits complete scanned ran unhindered few ended
  refine keptEnd.archived ?_ archived
  simp only [booksOf_append, sealings_append, List.append_assoc]
  exact List.mem_append_left _ isSealed

/-- A pass whose first put fails, and in which another chunk is begun meanwhile. -/
def passLone : List Action :=
  [.readDir .tx [], .endSweep, .spawn, .upload 0 .refused, .openChunk .tx 1 1] ++
    List.replicate 6 (.upload 0 .stored) ++ [.join]

/-- A chunk is sealed, and a pass archives it. -/
def passedLone : Option ((List Note × Writer) × (List Note × Writer) × (List Note × Writer)) := do
  let first ← Behaviour.acts (spare PlainCodecs.plain ⟨1000, 100, 4⟩ ⟨4, 3, 24⟩)
    (Writer.start ⟨1000, 100, 4⟩) sealLone
  let second ← spare PlainCodecs.plain ⟨1000, 100, 4⟩ ⟨4, 3, 24⟩ first.2
    (.scan (scanPending first.2.dir))
  let third ← Behaviour.acts (spare PlainCodecs.plain ⟨1000, 100, 4⟩ ⟨4, 3, 24⟩) second.2 passLone
  some (first, second, third)

/-- Behind the pass the bucket has the three files of the chunk as they were sealed. -/
theorem pass_archives_lone : ∃ notes w scanned later w' files,
    passedLone = some ((notes, w), scanned, (later, w')) ∧
    files ∈ sealings (booksOf notes) .tx 0 ∧
    ∀ ext ∈ finalExtensions,
      w'.bucket.lookup (objectOf ⟨1000, 100, 4⟩ .tx 0 ext) = some (files.content ext) := by
  have computed : passedLone.any (fun result =>
      (sealings (booksOf result.1.1) .tx 0).length = 1 ∧
        result.2.2.2.phase.isIdle = true) = true := by
    decide +kernel
  obtain ⟨⟨⟨notes, w⟩, ⟨more, v⟩, later, w'⟩, steps, facts⟩ := Option.any_eq_true _ _ |>.mp computed
  obtain ⟨count, idle⟩ := of_decide_eq_true facts
  obtain ⟨files, once⟩ := List.length_eq_one_iff.mp count
  have isSealed : files ∈ sealings (booksOf notes) .tx 0 := once ▸ List.mem_singleton_self files
  refine ⟨notes, w, (more, v), later, w', files, steps, isSealed, ?_⟩
  simp only [passedLone, Option.bind_eq_bind, Option.bind_eq_some_iff] at steps
  obtain ⟨first, reached, second, scanned, third, ran, same⟩ := steps
  cases same
  exact pass_archives PlainCodecs.plain ⟨1000, 100, 4⟩ ⟨4, 3, 24⟩ (by decide) sealLone passLone
    notes more later w v w' (Behaviour.steps_of_acts reached) _ (List.Subset.refl _) scanned
    (Behaviour.steps_of_acts ran) (by decide) (by decide) (Phase.isIdle_iff.mp idle) .tx 0
    (by decide) files isSealed

end Sillage.Uploader
