import Sillage.Writer.Trace

/-!
# Open chunks are few and near, and sealed once

Whatever calls a chunker gets and whatever lies in its directory, the number of open
chunks stays within the cap, and after a message was taken in, every open chunk is that
of the watermark or the one before it. A chunk that is sealed, or whose payload or
sidecar lies on disk from the start, is not opened again and keeps its files.
-/

namespace Sillage

open LittleEndian Directory OpenChunk Tracks

namespace Chunker

/-- Everything that a new chunker goes through under some calls. -/
def history (k : Codecs) (stream : Stream) (cfg : WriterConfig) (dir : Dir) (cs : List Call) :
    List Moment :=
  (callsTraced k (new stream cfg dir) cs).trail

/-- The chunks sealed along a history, in order. -/
def sealedIn (moments : List Moment) : List Nat :=
  moments.filterMap (fun moment =>
    match moment.1 with
    | .sealed idx _ => some idx
    | _ => none)

/-- The chunk of the watermark. -/
def watermarkChunk (s : Chunker) : Nat := s.watermarkSlot.getD 0 / s.cfg.slotsPerChunk

/-- A final payload or sidecar of the chunk lies on disk. -/
def OnDisk (cfg : WriterConfig) (dir : Dir) (idx : Nat) : Prop :=
  (dir.lookup (chunkName cfg idx "zst")).isSome ∨
    (dir.lookup (chunkName cfg idx "meta.json")).isSome

/-- Whether a chunk lies on disk is a matter of two look-ups. -/
instance (cfg : WriterConfig) (dir : Dir) (idx : Nat) : Decidable (OnDisk cfg dir idx) :=
  inferInstanceAs (Decidable (_ ∨ _))

/-- At a moment the chunk is neither opened nor sealed, and its files are those of the
given directory. -/
def LeftAlone (cfg : WriterConfig) (dir : Dir) (idx : Nat) (moment : Moment) : Prop :=
  moment.1 ≠ .opened idx ∧ (∀ reason, moment.1 ≠ .sealed idx reason) ∧
    ∀ ext ∈ finalExtensions,
      moment.2.baseDir.lookup (chunkName cfg idx ext) = dir.lookup (chunkName cfg idx ext)

/-- The chunk is closed, and its files are those of a directory it lies in. -/
structure Barred (cfg : WriterConfig) (dir : Dir) (idx : Nat) (s : Chunker) : Prop where
  closed : s.open[idx]? = none
  onDisk : OnDisk cfg dir idx
  files : ∀ ext ∈ finalExtensions,
    s.baseDir.lookup (chunkName cfg idx ext) = dir.lookup (chunkName cfg idx ext)

variable {k : Codecs} {cfg : WriterConfig} {dir : Dir} {s s' : Chunker} {idx : Nat}

/-- Sealing a chunk does not touch the files of another. -/
theorem lookup_seal_other (positive : 0 < cfg.slotsPerChunk) {chunk : OpenChunk} {i : Nat}
    (named : ∀ ext, chunk.file ext = chunkName cfg i ext) (distinct : idx ≠ i)
    (stream : Stream) (written : Bytes) (reason ext : String) :
    (perform dir (chunk.sealSteps k stream written reason)).lookup (chunkName cfg idx ext) =
      dir.lookup (chunkName cfg idx ext) := by
  have apart : ∀ ext', chunkName cfg idx ext ≠ chunkName cfg i ext' :=
    fun ext' same => distinct (chunkName_injective positive same).1
  simp [lookup_sealSteps, named, apart]

/-- No change opens, seals or rewrites a chunk that is closed and lies on disk. -/
theorem Barred.change (positive : 0 < cfg.slotsPerChunk) (sound : Sound cfg s)
    (barred : Barred cfg dir idx s) {event : Event} (change : Change k s event s') :
    Barred cfg dir idx s' ∧ LeftAlone cfg dir idx (event, s') := by
  obtain ⟨rfl, capped, named⟩ := sound
  obtain ⟨closed, onDisk, files⟩ := barred
  cases change with
  | advanced slot => exact ⟨⟨closed, onDisk, files⟩, nofun, nofun, files⟩
  | @opened i now room unopened noPayload noSidecar =>
    have distinct : i ≠ idx := by
      rintro rfl
      rcases onDisk with payload | sidecar
      · rw [← files "zst" (by decide), noPayload] at payload
        cases payload
      · rw [← files "meta.json" (by decide), noSidecar] at sidecar
        cases sidecar
    have kept : ∀ ext ∈ finalExtensions,
        (FileStep.apply s.baseDir (.create (chunkName s.cfg i "zst.partial"))).lookup
          (chunkName s.cfg idx ext) = dir.lookup (chunkName s.cfg idx ext) := by
      intro ext member
      rw [lookup_create, if_neg (fun same => distinct (chunkName_injective positive same).1.symm)]
      exact files ext member
    refine ⟨⟨?_, onDisk, kept⟩, ?_, nofun, kept⟩
    · rw [Std.TreeMap.getElem?_insert, if_neg (by simpa using distinct)]
      exact closed
    · exact fun same => distinct (Event.opened.inj same)
  | @appended i chunk chunk' a found done =>
    have distinct : i ≠ idx := by
      rintro rfl
      rw [closed] at found
      cases found
    refine ⟨⟨?_, onDisk, files⟩, nofun, nofun, files⟩
    rw [Std.TreeMap.getElem?_insert, if_neg (by simpa using distinct)]
    exact closed
  | @sealed i chunk written reason found held =>
    have distinct : idx ≠ i := by
      rintro rfl
      rw [closed] at found
      cases found
    have kept : ∀ ext ∈ finalExtensions,
        (perform s.baseDir (chunk.sealSteps k s.stream written reason)).lookup
          (chunkName s.cfg idx ext) = dir.lookup (chunkName s.cfg idx ext) := fun ext member =>
      (lookup_seal_other positive (named i chunk found).1 distinct _ _ _ ext).trans
        (files ext member)
    refine ⟨⟨?_, onDisk, kept⟩, nofun, ?_, kept⟩
    · rw [Std.TreeMap.getElem?_erase, closed, ite_self]
    · exact fun other same => distinct (Event.sealed.inj same).1.symm

/-- Nor does any run of changes. -/
theorem Barred.path (positive : 0 < cfg.slotsPerChunk) (sound : Sound cfg s)
    (barred : Barred cfg dir idx s) {moments : List Moment} {last : Chunker}
    (path : Path (Change k) s moments last) :
    ∀ moment ∈ moments, LeftAlone cfg dir idx moment := by
  induction path with
  | nil => simp
  | cons change _ inductionHypothesis =>
    obtain ⟨later, alone⟩ := barred.change positive sound change
    exact List.forall_mem_cons.mpr
      ⟨alone, inductionHypothesis (sound.change change) later⟩

/-- A chunk is barred as soon as it is sealed. -/
theorem barred_of_sealed {reason : String} (sound : Sound cfg s)
    (change : Change k s (.sealed idx reason) s') : Barred cfg s'.baseDir idx s' := by
  cases change with
  | @sealed _ chunk written reason found held =>
    refine ⟨?_, .inl ?_, fun _ _ => rfl⟩
    · rw [Std.TreeMap.getElem?_erase, if_pos (by simp)]
    · rw [← (sound.named idx chunk found).1 "zst", lookup_sealSteps, if_pos rfl]
      rfl

/-- After a chunk was sealed along a path it is left alone. -/
theorem sealed_leftAlone (positive : 0 < cfg.slotsPerChunk) (sound : Sound cfg s)
    (earlier : List Moment) {later : List Moment} {moment : Moment} {last : Chunker}
    {reason : String} (path : Path (Change k) s (earlier ++ moment :: later) last)
    (isSealed : moment.1 = .sealed idx reason) :
    ∀ next ∈ later, LeftAlone cfg moment.2.baseDir idx next := by
  obtain ⟨before, reached, here, after⟩ := path.split
  have soundBefore := (reached.invariant (fun _ _ _ sound change => sound.change change) sound).1
  rw [isSealed] at here
  exact (barred_of_sealed soundBefore here).path positive (soundBefore.change here) after

/-- No chunk is sealed twice along a path. -/
theorem sealedIn_nodup (positive : 0 < cfg.slotsPerChunk) (sound : Sound cfg s)
    {moments : List Moment} {last : Chunker} (path : Path (Change k) s moments last) :
    (sealedIn moments).Nodup := by
  induction path with
  | nil => exact .nil
  | @cons s s₁ last event rest change tail inductionHypothesis =>
    have later := inductionHypothesis (sound.change change)
    cases event with
    | sealed i reason =>
      refine List.nodup_cons.mpr ⟨fun again => ?_, later⟩
      obtain ⟨⟨event, state⟩, member, same⟩ := List.mem_filterMap.mp again
      have alone := sealed_leftAlone positive sound [] (.cons change tail) rfl _ member
      cases event with
      | sealed j other =>
        obtain rfl := Option.some.inj same
        exact alone.2.1 other rfl
      | _ => cases same
    | _ => exact later

/-- Every open chunk is that of the watermark or the one before it. -/
def Near (cfg : WriterConfig) (s : Chunker) : Prop :=
  ∀ idx ∈ s.open, ∃ watermark, s.watermarkSlot = some watermark ∧
    idx ≤ watermark / cfg.slotsPerChunk ∧ watermark / cfg.slotsPerChunk ≤ idx + 1

/-- Sealing a chunk leaves the watermark. -/
theorem watermarkSlot_sealChunk {reason : String}
    (done : sealChunk k reason idx s = .ok s') : s'.watermarkSlot = s.watermarkSlot := by
  rw [sealChunk] at done
  split at done
  · cases done
  · split at done
    · cases done
    · cases done
      rfl

/-- Sealing some chunks leaves the others open and the watermark where it is. -/
theorem sealAll_open {reason : String} {indices : List Nat}
    (done : sealAll k reason indices s = .ok s') : s'.watermarkSlot = s.watermarkSlot ∧
      ∀ i ∈ s'.open, i ∈ s.open ∧ i ∉ indices := by
  induction indices generalizing s with
  | nil =>
    cases done
    simp
  | cons first rest inductionHypothesis =>
    obtain ⟨s₁, here, later⟩ := ok_of_bind done
    obtain ⟨same, remain⟩ := inductionHypothesis later
    obtain ⟨chunk, written, -, -, -, -, opened, -⟩ := sealChunk_ok here
    refine ⟨same.trans (watermarkSlot_sealChunk here), fun i member => ?_⟩
    obtain ⟨stillOpen, fresh⟩ := remain i member
    rw [opened, Std.TreeMap.mem_erase] at stillOpen
    obtain ⟨distinct, wasOpen⟩ := stillOpen
    refine ⟨wasOpen, fun among => ?_⟩
    rcases List.mem_cons.mp among with rfl | inRest
    · exact distinct Std.ReflCmp.compare_self
    · exact fresh inRest

/-- So does making room. -/
theorem watermarkSlot_makeRoom {fuel : Nat} (done : makeRoom k idx fuel s = .ok s') :
    s'.watermarkSlot = s.watermarkSlot := by
  induction fuel generalizing s with
  | zero =>
    cases done
    rfl
  | succ fuel inductionHypothesis =>
    rw [makeRoom] at done
    split at done
    · cases listed : s.open.keys.head? with
      | none =>
        rw [listed] at done
        cases done
      | some oldest =>
        rw [listed] at done
        dsimp only at done
        split at done
        · cases done
          rfl
        · obtain ⟨s₁, first, later⟩ := ok_of_bind done
          exact (inductionHypothesis later).trans (watermarkSlot_sealChunk first)
    · cases done
      rfl

/-- Only the chunk asked for is opened. -/
theorem ensureOpen_open {now : Nat} (done : ensureOpen k now idx s = .ok s') :
    s'.watermarkSlot = s.watermarkSlot ∧ ∀ i ∈ s'.open, i ∈ s.open ∨ i = idx := by
  rw [ensureOpen] at done
  split at done
  · cases done
    exact ⟨rfl, fun i member => .inl member⟩
  obtain ⟨s₁, room, opens⟩ := ok_of_bind done
  have kept : ∀ i ∈ s₁.open, i ∈ s.open := by
    intro i member
    by_contra closed
    have unopened := makeRoom_unopened (Std.TreeMap.getElem?_eq_none closed) room
    rw [Std.TreeMap.mem_iff_isSome_getElem?, unopened] at member
    cases member
  have mark := watermarkSlot_makeRoom room
  rcases openChunk_ok opens with rfl | ⟨-, -, -, opened⟩
  · exact ⟨mark, fun i member => .inl (kept i member)⟩
  · rw [opened k]
    refine ⟨mark, fun i member => ?_⟩
    rcases Std.TreeMap.mem_insert.mp member with same | before
    · exact .inr (Std.LawfulEqCmp.compare_eq_iff_eq.mp same).symm
    · exact .inl (kept i before)

/-- Appending a message leaves the watermark, and opens no chunk. -/
theorem appendTo_open {a : Arrival} {verdict : Verdict}
    (done : appendTo k idx a s = .ok (verdict, s')) :
    s'.watermarkSlot = s.watermarkSlot ∧ ∀ i ∈ s'.open, i ∈ s.open := by
  rw [appendTo] at done
  cases found : s.open[idx]? with
  | none =>
    rw [found] at done
    cases done
    exact ⟨rfl, fun i member => member⟩
  | some chunk =>
    rw [found] at done
    obtain ⟨chunk', -, done⟩ := ok_of_bind done
    cases done
    refine ⟨rfl, fun i member => ?_⟩
    rcases Std.TreeMap.mem_insert.mp member with same | before
    · rw [← Std.LawfulEqCmp.compare_eq_iff_eq.mp same]
      exact mem_of_getElem? found
    · exact before

/-- Taking in a message seals every chunk that the watermark has left behind. A message
that is too old leaves the watermark and the open chunks as they are. -/
theorem Near.ingest (positive : 0 < cfg.slotsPerChunk) (sameCfg : s.cfg = cfg)
    (near : Near cfg s) {a : Arrival} {verdict : Verdict}
    (done : ingest k a s = .ok (verdict, s')) : Near cfg s' := by
  have marked : (advance a.slot s).watermarkSlot =
      some (s.watermarkSlot.elim a.slot (max · a.slot)) := rfl
  have above : a.slot ≤ s.watermarkSlot.elim a.slot (max · a.slot) ∧
      ∀ w, s.watermarkSlot = some w → w ≤ s.watermarkSlot.elim a.slot (max · a.slot) := by
    cases s.watermarkSlot with
    | none => exact ⟨le_rfl, fun w same => (by cases same)⟩
    | some w => exact ⟨le_max_right _ _, fun w' same => Option.some.inj same ▸ le_max_left _ _⟩
  generalize s.watermarkSlot.elim a.slot (max · a.slot) = watermark at marked above
  obtain ⟨-, settled⟩ := (ingest_ok_iff positive sameCfg (by rw [marked, Option.getD_some])).mp done
  split at settled
  · next late =>
    obtain ⟨-, rfl⟩ := settled
    intro i member
    obtain ⟨w, isMark, lower, upper⟩ := near i member
    refine ⟨watermark, marked, ?_⟩
    have unmoved : watermark = w := by
      have isMax : some (max w a.slot) = some watermark := by
        rw [← marked, advance, isMark]
        rfl
      have := Option.some.inj isMax
      omega
    exact unmoved ▸ ⟨lower, upper⟩
  obtain ⟨s₁, s₂, toSeal, ensured, appended, listed, sealed⟩ := settled
  obtain ⟨mark₁, open₁⟩ := ensureOpen_open ensured
  obtain ⟨mark₂, open₂⟩ := appendTo_open appended
  obtain ⟨mark₃, open₃⟩ := sealAll_open sealed
  intro i member
  obtain ⟨inSecond, kept⟩ := open₃ i member
  have ahead := (behind_sublist listed).2 i (Std.TreeMap.mem_keys.mpr inSecond) kept
  refine ⟨watermark, mark₃.trans (mark₂.trans (mark₁.trans marked)), ?_,
    Nat.le_of_lt_succ ahead⟩
  rcases open₁ i (open₂ i inSecond) with before | rfl
  · obtain ⟨w, isMark, lower, -⟩ := near i before
    exact lower.trans (Nat.div_le_div_right (above.2 w isMark))
  · exact Nat.div_le_div_right above.1

/-- Every call keeps the open chunks near the watermark. -/
theorem Near.call (positive : 0 < cfg.slotsPerChunk) (sameCfg : s.cfg = cfg) (near : Near cfg s)
    {c : Call} (done : call k s c = .ok s') : Near cfg s' := by
  have sealing : ∀ {reason : String} {indices : List Nat},
      sealAll k reason indices s = .ok s' → Near cfg s' := by
    intro reason indices sealed i member
    obtain ⟨mark, remain⟩ := sealAll_open sealed
    rw [mark]
    exact near i (remain i member).1
  cases c with
  | shutdown => exact sealing done
  | op op =>
    cases op with
    | tick now => exact sealing done
    | ingest a =>
      obtain ⟨verdict, taken⟩ := (call_ingest_ok_iff a).mp done
      exact near.ingest positive sameCfg taken

/-- A chunker whose calls succeed stays sound, with its open chunks near the watermark. -/
theorem near_calls (positive : 0 < cfg.slotsPerChunk) (capped : 0 < cfg.maxOpenChunks)
    (sound : Sound cfg s) (near : Near cfg s) {cs : List Call} (done : calls k s cs = .ok s') :
    Sound cfg s' ∧ Near cfg s' := by
  induction cs generalizing s with
  | nil =>
    cases done
    exact ⟨sound, near⟩
  | cons c rest inductionHypothesis =>
    obtain ⟨s₁, first, later⟩ := ok_of_bind done
    have sound₁ : Sound cfg s₁ :=
      (steady_call positive capped sound c).sound sound ((outcome_callTraced c).trans first)
    exact inductionHypothesis sound₁ (near.call positive sound.sameCfg first) later

/-- For every run of calls over any directory: the cap holds at every moment; after a
message was taken in, the open chunks are those of the watermark and the one before it;
the calls fail on an overflow only, and the loop of the cap ends by its own condition,
whatever the fuel beyond the number of open chunks; no chunk is sealed twice; a chunk
that was on disk at the start is left alone, and a sealed chunk is left alone from then
on. -/
theorem open_set (k : Codecs) (stream : Stream) (cfg : WriterConfig)
    (positive : 1 ≤ cfg.slotsPerChunk) (capped : 1 ≤ cfg.maxOpenChunks) (dir : Dir)
    (cs : List Call) :
    (callsTraced k (new stream cfg dir) cs).outcome = calls k (new stream cfg dir) cs ∧
    (∀ moment ∈ history k stream cfg dir cs, moment.2.open.size ≤ cfg.maxOpenChunks) ∧
    (∀ before a later s, cs = before ++ .op (.ingest a) :: later →
      calls k (new stream cfg dir) (before ++ [.op (.ingest a)]) = .ok s →
      ∀ idx ∈ s.open, watermarkChunk s - 1 ≤ idx ∧ idx ≤ watermarkChunk s) ∧
    (∀ fault, calls k (new stream cfg dir) cs = .error fault → fault = .overflow) ∧
    (∀ s idx extra,
      makeRoom k idx (s.open.size + 1 + extra) s = makeRoom k idx (s.open.size + 1) s ∧
      ∀ s', makeRoom k idx (s.open.size + 1) s = .ok s' →
        s'.open.size < s'.cfg.maxOpenChunks ∨ s'.open.keys.head? = some idx) ∧
    (sealedIn (history k stream cfg dir cs)).Nodup ∧
    (∀ idx, OnDisk cfg dir idx →
      ∀ moment ∈ history k stream cfg dir cs, LeftAlone cfg dir idx moment) ∧
    (∀ earlier moment later idx reason,
      history k stream cfg dir cs = earlier ++ moment :: later →
      moment.1 = .sealed idx reason →
      ∀ next ∈ later, LeftAlone cfg moment.2.baseDir idx next) := by
  have sound := sound_new stream cfg dir
  have steady := steady_calls (k := k) positive capped sound cs
  have path : ∃ last, Path (Change k) (new stream cfg dir) (history k stream cfg dir cs) last := by
    cases ended : (callsTraced k (new stream cfg dir) cs).outcome with
    | ok last => exact ⟨last, steady.done last ended⟩
    | error fault => exact (steady.failed fault ended).2
  obtain ⟨last, path⟩ := path
  refine ⟨outcome_callsTraced cs, fun moment member => ?_, ?_, fun fault failed => ?_, ?_,
    sealedIn_nodup positive sound path, fun idx onDisk => ?_, ?_⟩
  · have along := path.invariant (fun _ _ _ sound change => Sound.change sound change) sound
    exact (along.2 moment member).capped
  · intro before a later s _ done idx isOpen
    have nothing : Near cfg (new stream cfg dir) := fun i member => by simp [new] at member
    obtain ⟨soundAfter, near⟩ := near_calls positive capped sound nothing done
    obtain ⟨watermark, isMark, lower, upper⟩ := near idx isOpen
    rw [watermarkChunk, isMark, soundAfter.sameCfg, Option.getD_some]
    exact ⟨Nat.sub_le_of_le_add upper, lower⟩
  · exact (steady.failed fault ((outcome_callsTraced cs).trans failed)).1
  · intro s idx extra
    exact ⟨makeRoom_fuel (Nat.lt_succ_self _) extra,
      fun s' done => makeRoom_exits (Nat.lt_succ_self _) done⟩
  · exact Barred.path positive sound ⟨by simp [new], onDisk, fun _ _ => rfl⟩ path
  · intro earlier moment later idx reason same isSealed
    exact sealed_leftAlone positive sound earlier (same ▸ path) isSealed

/-- With a cap of one, the second chunk waits for the first to be sealed. -/
theorem open_set_one :
    let message (slot : Nat) : Arrival := ⟨0, ⟨slot, ⟨[], none, none, []⟩⟩, slot⟩
    let cs : List Call := [.op (.ingest (message 8)), .op (.ingest (message 11)), .shutdown]
    (∀ moment ∈ history PlainCodecs.plain .block ⟨10, 40, 1⟩ ∅ cs, moment.2.open.size ≤ 1) ∧
      (sealedIn (history PlainCodecs.plain .block ⟨10, 40, 1⟩ ∅ cs)).Nodup ∧
      sealedIn (history PlainCodecs.plain .block ⟨10, 40, 1⟩ ∅ cs) = [0, 1] := by
  intro message cs
  obtain ⟨-, few, -, -, -, once, -⟩ := open_set PlainCodecs.plain .block ⟨10, 40, 1⟩ (by decide)
    (by decide) ∅ cs
  exact ⟨few, once, by decide +kernel⟩

end Chunker

end Sillage
