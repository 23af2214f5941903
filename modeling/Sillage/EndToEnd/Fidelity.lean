import Sillage.Common.PlainCodecs
import Sillage.EndToEnd.Recorded
import Sillage.Foundation.Buckets

/-!
# What is replayed is what was recorded

The writer's chunkers record three streams until they are shut down; the reader scans the
directories, plans a subscription and drives the replay to its end. What is sent of each
stream are the accepted messages from the plan's slot on that satisfy one of the stream's
filters, chunk after chunk and in order of arrival inside a chunk.
-/

namespace Sillage

open LittleEndian Directory Chunker

/-- Messages in the order of their chunks, and in order of arrival inside each. -/
def inChunkOrder (cfg : WriterConfig) (messages : List Arrival) : List Arrival :=
  Buckets.sortBy (fun a => a.slot / cfg.slotsPerChunk) messages

/-- What a subscription is sent of the messages recorded in a stream, from a slot on. -/
def replayed (k : Codecs) (cfg : WriterConfig) (parsed : SubscriptionFilters) (stream : Stream)
    (fromSlot : Nat) (messages : List Arrival) : List SubscribeUpdate :=
  ((inChunkOrder cfg messages).filter
    (fun a => fromSlot ≤ a.slot ∧ parsed.selects k stream a.msg.inner = true)).map
      (fun a => setFilters a.msg.inner (parsed.satisfiedNames k stream a.msg.inner))

variable {cfg : WriterConfig} {reader : Reader} {recorded : Stream → Nat → List Arrival}
  {parsed : SubscriptionFilters}

/-- What the selected messages of a chunk are sent as. -/
theorem sent_selected (roundTrip : reader.codecs.RoundTrip) (positive : 0 < cfg.slotsPerChunk)
    (recordable : ∀ stream, Recordable reader.codecs cfg (recorded stream)) (stream : Stream)
    (idx : Nat) (reason : String) (fromSlot : Nat) :
    (((archived roundTrip positive recordable).selected parsed
      (entryOf reader.codecs stream cfg idx (recorded stream idx) reason)).filter
        (fun item => fromSlot ≤ item.slot)).map (fun item => (Replay.handed item).update) =
      ((recorded stream idx).filter (fun a => fromSlot ≤ a.slot ∧
        parsed.selects reader.codecs stream a.msg.inner = true)).map
          (fun a => setFilters a.msg.inner
            (parsed.satisfiedNames reader.codecs stream a.msg.inner)) := by
  have messages : (archived roundTrip positive recordable).messages
      (entryOf reader.codecs stream cfg idx (recorded stream idx) reason) =
        (recorded stream idx).map (fun a => a.msg.inner) := recordedIn_entryOf positive ..
  rw [Collection.selected_updates, messages, List.filter_map, List.map_map]
  refine congrArg (List.map _) (List.filter_congr (fun a member => ?_))
  have slot := (recordable stream).slots idx a member
  simp [slot, entryOf]

/-- The chunks that a scan lists of a stream, as the indexes of their messages. -/
def chunkIndices (cfg : WriterConfig) (catalog : ChunkCatalog) (stream : Stream) : List Nat :=
  (catalog.streams stream).toList.map (fun item => item.2.startSlot / cfg.slotsPerChunk)

/-- What is due of a scanned archive is sent as the recorded messages of its chunks, in the
order of the catalog. -/
theorem due_updates (roundTrip : reader.codecs.RoundTrip) (positive : 0 < cfg.slotsPerChunk)
    (recordable : ∀ stream, Recordable reader.codecs cfg (recorded stream))
    {catalog : ChunkCatalog} (sealedOnly : ∀ entry, catalog.Holds entry →
      Sealed cfg reader recorded entry) (stream : Stream) (fromSlot : Nat) :
    ((archived roundTrip positive recordable).due parsed catalog fromSlot stream).map
        (fun item => (Replay.handed item).update) =
      (((chunkIndices cfg catalog stream).flatMap (recorded stream)).filter
        (fun a => fromSlot ≤ a.slot ∧ parsed.selects reader.codecs stream a.msg.inner = true)).map
          (fun a => setFilters a.msg.inner
            (parsed.satisfiedNames reader.codecs stream a.msg.inner)) := by
  simp only [Collection.due, chunkIndices, List.filter_flatMap, List.map_flatMap,
    List.flatMap_map]
  refine List.flatMap_congr (fun item listed => ?_)
  obtain ⟨-, inStream, isHeld⟩ := ChunkCatalog.mem_toList.mp listed
  obtain ⟨idx, reason, -, -, same⟩ := sealedOnly _ isHeld
  have index : item.2.startSlot / cfg.slotsPerChunk = idx := by
    rw [same]
    exact Nat.mul_div_cancel _ positive
  rw [index, same, inStream]
  exact sent_selected roundTrip positive recordable stream idx reason fromSlot

/-- The chunks of a stream are listed by ascending index. -/
theorem chunkIndices_ascending (positive : 0 < cfg.slotsPerChunk) {catalog : ChunkCatalog}
    (sealedOnly : ∀ entry, catalog.Holds entry → Sealed cfg reader recorded entry)
    (stream : Stream) : (chunkIndices cfg catalog stream).Pairwise (· < ·) := by
  have index : ∀ item ∈ (catalog.streams stream).toList,
      item.2.startSlot = item.2.startSlot / cfg.slotsPerChunk * cfg.slotsPerChunk := by
    intro item listed
    obtain ⟨-, -, isHeld⟩ := ChunkCatalog.mem_toList.mp listed
    obtain ⟨idx, reason, -, -, same⟩ := sealedOnly _ isHeld
    rw [same]
    simp [entryOf, Nat.mul_div_cancel _ positive]
  rw [chunkIndices, List.pairwise_map]
  refine (ChunkCatalog.toList_ascending catalog stream).imp_of_mem
    (fun {first second} isFirst isSecond less => ?_)
  rw [index first isFirst, index second isSecond] at less
  exact Nat.lt_of_mul_lt_mul_right less

/-- The catalog of everything that was recorded lists the recorded messages in chunk
order. -/
theorem chunkIndices_flatMap (positive : 0 < cfg.slotsPerChunk) {catalog : ChunkCatalog}
    (sealedIff : ∀ entry, catalog.Holds entry ↔ Sealed cfg reader recorded entry)
    (archives : ∀ stream, Archive reader.codecs stream cfg (reader.files stream) (recorded stream))
    {stream : Stream} {messages : List Arrival}
    (isRecorded : ∀ idx, recorded stream idx = inChunk cfg idx messages) :
    (chunkIndices cfg catalog stream).flatMap (recorded stream) = inChunkOrder cfg messages := by
  have ascending := chunkIndices_ascending positive (fun entry => (sealedIff entry).mp) stream
  rw [inChunkOrder, Buckets.sortBy_eq_flatMap ascending]
  · exact List.flatMap_congr (fun idx _ => isRecorded idx)
  · intro a member
    have filled : recorded stream (a.slot / cfg.slotsPerChunk) ≠ [] := by
      rw [isRecorded]
      exact List.ne_nil_of_mem (List.mem_filter.mpr ⟨member, by simp⟩)
    obtain ⟨reason, files⟩ := (archives stream).chunks _ filled
    have holds := (sealedIff (entryOf reader.codecs stream cfg (a.slot / cfg.slotsPerChunk)
      (recorded stream (a.slot / cfg.slotsPerChunk)) reason)).mpr
        ⟨_, reason, filled, files, rfl⟩
    refine List.mem_map.mpr ⟨(_, _), ChunkCatalog.mem_toList.mpr ⟨rfl, rfl, holds⟩, ?_⟩
    simp [Nat.mul_div_cancel _ positive]

/-- What the chunkers of the streams record in each chunk. -/
def recordedBy (k : Codecs) (cfg : WriterConfig) (ops : Stream → List Op) (stream : Stream)
    (idx : Nat) : List Arrival :=
  inChunk cfg idx (accepted k (new stream cfg ∅) (ops stream))

/-- Accepted messages can be recorded when they fit. -/
theorem recordable_accepted {k : Codecs} {ops : Stream → List Op} {stream : Stream}
    (fits : ∀ a ∈ arrivals (ops stream), Fits cfg a.slot)
    (slots : ∀ a ∈ arrivals (ops stream), extractSlot a.msg.inner = some a.slot)
    (small : ∀ a ∈ arrivals (ops stream), (k.prostEncode a.msg.inner).length < u32Bound)
    (few : ∀ idx, (recordedBy k cfg ops stream idx).length < u32Bound) :
    Recordable k cfg (recordedBy k cfg ops stream) := by
  have arrived : ∀ idx, ∀ a ∈ recordedBy k cfg ops stream idx, a ∈ arrivals (ops stream) :=
    fun idx a member => (accepted_sublist k _ _).subset (List.mem_filter.mp member).1
  exact ⟨fun idx a member => by simpa using (List.mem_filter.mp member).2,
    fun idx a member => fits a (arrived idx a member),
    fun idx a member => slots a (arrived idx a member), few,
    fun idx a member => small a (arrived idx a member)⟩

/-- The directory in which a run of a chunker ends is an archive of what it accepted. -/
theorem archive_recordedBy {k : Codecs} (positive : 0 < cfg.slotsPerChunk)
    (capped : 0 < cfg.maxOpenChunks) {ops : Stream → List Op} {stream : Stream}
    (fits : ∀ a ∈ arrivals (ops stream), Fits cfg a.slot) {s final : Chunker}
    (ran : run k (new stream cfg ∅) (ops stream) = .ok s) (shut : shutdown k s = .ok final) :
    Archive k stream cfg final.baseDir (recordedBy k cfg ops stream) := by
  obtain ⟨s', final', ran', shut', archive⟩ :=
    run_archive positive capped (archive_empty k stream cfg) (ops stream) fits
  obtain rfl := Except.ok.inj (ran.symm.trans ran')
  obtain rfl := Except.ok.inj (shut.symm.trans shut')
  exact archive

/-- A replay of an accepted plan over sealed chunks ends, and if it is drained, it has sent
of each stream what was recorded in the listed chunks. -/
theorem replay_recorded (roundTrip : reader.codecs.RoundTrip) (positive : 0 < cfg.slotsPerChunk)
    (recordable : ∀ stream, Recordable reader.codecs cfg (recorded stream))
    {catalog : ChunkCatalog}
    (sealedIff : ∀ entry, catalog.Holds entry ↔ Sealed cfg reader recorded entry)
    {explicit : Option Nat} {indexCache indexCache' : IndexCache}
    (indexes : indexCache.Holds (reader.IndexAgrees catalog.Holds)) {plan : ReplayPlan}
    (planned : reader.planReplay catalog parsed indexCache explicit = .ok (plan, indexCache'))
    {chunkCache : ChunkCache} (chunks : chunkCache.Holds (ChunkAgrees reader (Replay.Has plan)))
    (env : Nat → Iteration) (pacer : Pacer) :
    ∃ outcome, Replay.driveReplay reader env plan chunkCache pacer = .ok outcome ∧
      (outcome.stats.drained = true → ∀ stream,
        (outcome.sent.filter (fun sent => sent.1 = stream)).map (fun sent => sent.2.update) =
          (((chunkIndices cfg catalog stream).flatMap (recorded stream)).filter
            (fun a => plan.fromSlot ≤ a.slot ∧
              parsed.selects reader.codecs stream a.msg.inner = true)).map
            (fun a => setFilters a.msg.inner
              (parsed.satisfiedNames reader.codecs stream a.msg.inner))) := by
  let collection := archived roundTrip positive recordable
  have holds : ∀ entry, catalog.Holds entry → collection.held entry :=
    fun entry => (sealedIff entry).mp
  have indexes' : indexCache.Holds (reader.IndexAgrees collection.held) :=
    fun key index cached entry isSealed =>
      indexes key index cached entry ((sealedIff entry).mpr isSealed)
  obtain ⟨covers, -⟩ := Reader.planReplay_inv collection.distinguished holds indexes' planned
  have oneFile : OneFile reader (Replay.Has plan) := fun first second isFirst isSecond =>
    Collection.oneFile first second (Collection.plansOf_has holds covers isFirst)
      (Collection.plansOf_has holds covers isSecond)
  obtain ⟨outcome, whole, taken, driven, serves, -⟩ :=
    Collection.replay_serves oneFile holds covers (fun _ has => has) chunks env pacer
  refine ⟨outcome, driven, fun drained stream => ?_⟩
  have sent : (outcome.sent.filter (fun sent => sent.1 = stream)).map Prod.snd =
      (collection.due parsed catalog plan.fromSlot stream).map Replay.handed := by
    rw [serves.sent, Replay.toSent_restrict, serves.drained drained,
      KWayMerge.merged_restrict serves.merged]
  rw [← due_updates roundTrip positive recordable holds]
  calc (outcome.sent.filter (fun sent => sent.1 = stream)).map (fun sent => sent.2.update)
      = ((outcome.sent.filter (fun sent => sent.1 = stream)).map Prod.snd).map Sent.update :=
        (List.map_map ..).symm
    _ = _ := by rw [sent, List.map_map]; rfl

/-- A drained replay of an accepted plan over recorded streams sends of each stream what
was recorded. -/
theorem driveReplay_replayed (roundTrip : reader.codecs.RoundTrip)
    (positive : 0 < cfg.slotsPerChunk)
    (recordable : ∀ stream, Recordable reader.codecs cfg (recorded stream))
    (archives : ∀ stream, Archive reader.codecs stream cfg (reader.files stream) (recorded stream))
    {messages : Stream → List Arrival}
    (isRecorded : ∀ stream idx, recorded stream idx = inChunk cfg idx (messages stream))
    {catalog : ChunkCatalog}
    (sealedIff : ∀ entry, catalog.Holds entry ↔ Sealed cfg reader recorded entry)
    {explicit : Option Nat} {indexCache indexCache' : IndexCache}
    (indexes : indexCache.Holds (reader.IndexAgrees catalog.Holds)) {plan : ReplayPlan}
    (planned : reader.planReplay catalog parsed indexCache explicit = .ok (plan, indexCache'))
    {chunkCache : ChunkCache} (chunks : chunkCache.Holds (ChunkAgrees reader (Replay.Has plan)))
    {env : Nat → Iteration} {pacer : Pacer} {outcome : Replay.Outcome}
    (driven : Replay.driveReplay reader env plan chunkCache pacer = .ok outcome)
    (drained : outcome.stats.drained = true) (stream : Stream) :
    (outcome.sent.filter (fun sent => sent.1 = stream)).map (fun sent => sent.2.update) =
      replayed reader.codecs cfg parsed stream plan.fromSlot (messages stream) := by
  obtain ⟨outcome', driven', sent⟩ := replay_recorded roundTrip positive recordable sealedIff
    indexes planned chunks env pacer
  obtain rfl := Except.ok.inj (driven.symm.trans driven')
  rw [sent drained stream, chunkIndices_flatMap positive sealedIff archives (isRecorded stream)]
  rfl

/-- A drained replay of what the chunkers recorded sends of each stream what was accepted,
from the plan's slot on and as far as it satisfies one of the stream's filters, chunk after
chunk. -/
theorem record_replay (reader : Reader) (roundTrip : reader.codecs.RoundTrip) (cfg : WriterConfig)
    (positive : 0 < cfg.slotsPerChunk) (capped : 0 < cfg.maxOpenChunks) (ops : Stream → List Op)
    (fits : ∀ stream, ∀ a ∈ arrivals (ops stream), Fits cfg a.slot)
    (slots : ∀ stream, ∀ a ∈ arrivals (ops stream), extractSlot a.msg.inner = some a.slot)
    (small : ∀ stream, ∀ a ∈ arrivals (ops stream),
      (reader.codecs.prostEncode a.msg.inner).length < 2 ^ 32)
    (few : ∀ stream idx, (recordedBy reader.codecs cfg ops stream idx).length < 2 ^ 32)
    (s final : Stream → Chunker)
    (ran : ∀ stream, run reader.codecs (new stream cfg ∅) (ops stream) = .ok (s stream))
    (shut : ∀ stream, shutdown reader.codecs (s stream) = .ok (final stream))
    (files : ∀ stream, reader.files stream = (final stream).baseDir)
    (listing : Stream → List FileName)
    (listed : ∀ stream name, name ∈ listing stream ↔ name ∈ (reader.files stream).keys)
    (parsed : SubscriptionFilters) (explicit : Option Nat) (indexCache indexCache' : IndexCache)
    (indexes : indexCache.Holds (reader.IndexAgrees
      (ChunkCatalog.scan reader.codecs reader.files listing).Holds))
    (plan : ReplayPlan)
    (planned : reader.planReplay (ChunkCatalog.scan reader.codecs reader.files listing) parsed
      indexCache explicit = .ok (plan, indexCache'))
    (chunkCache : ChunkCache)
    (chunks : chunkCache.Holds (ChunkAgrees reader (Replay.Has plan)))
    (env : Nat → Iteration) (pacer : Pacer) (outcome : Replay.Outcome)
    (driven : Replay.driveReplay reader env plan chunkCache pacer = .ok outcome)
    (drained : outcome.stats.drained = true) (stream : Stream) :
    (outcome.sent.filter (fun sent => sent.1 = stream)).map (fun sent => sent.2.update) =
      replayed reader.codecs cfg parsed stream plan.fromSlot
        (accepted reader.codecs (new stream cfg ∅) (ops stream)) := by
  have archives : ∀ stream, Archive reader.codecs stream cfg (reader.files stream)
      (recordedBy reader.codecs cfg ops stream) := by
    intro stream
    rw [files]
    exact archive_recordedBy positive capped (fits stream) (ran stream) (shut stream)
  have recordable : ∀ stream, Recordable reader.codecs cfg
      (recordedBy reader.codecs cfg ops stream) :=
    fun stream => recordable_accepted (fits stream) (slots stream) (small stream) (few stream)
  exact driveReplay_replayed roundTrip positive recordable archives (fun _ _ => rfl)
    (scan_holds roundTrip.json positive archives recordable listed) indexes planned chunks driven
    drained stream

/-- The chunker of a stream behind its calls, and behind its shutdown. -/
def ranOn (cfg : WriterConfig) (ops : Stream → List Op) (stream : Stream) : Chunker :=
  (run PlainCodecs.plain (new stream cfg ∅) (ops stream)).toOption.getD (new stream cfg ∅)

/-- The chunker of a stream behind its calls and the shutdown. -/
def shutOn (cfg : WriterConfig) (ops : Stream → List Op) (stream : Stream) : Chunker :=
  (shutdown PlainCodecs.plain (ranOn cfg ops stream)).toOption.getD (ranOn cfg ops stream)

/-- A reader of the directories that such chunkers leave. -/
def readerOf (cfg : WriterConfig) (ops : Stream → List Op) : Reader where
  codecs := PlainCodecs.plain
  files stream := (shutOn cfg ops stream).baseDir
  indexBudgetBytes := 1000
  chunkBudgetBytes := 1000
  indexHeapBytes _ := 100

/-- Calls whose messages can be recorded. -/
structure Sound (cfg : WriterConfig) (ops : Stream → List Op) : Prop where
  positive : 0 < cfg.slotsPerChunk
  capped : 0 < cfg.maxOpenChunks
  short : ∀ stream, (arrivals (ops stream)).length < 2 ^ 32
  fits : ∀ stream, ∀ a ∈ arrivals (ops stream), Fits cfg a.slot
  slots : ∀ stream, ∀ a ∈ arrivals (ops stream), extractSlot a.msg.inner = some a.slot
  small : ∀ stream, ∀ a ∈ arrivals (ops stream),
    (PlainCodecs.plain.prostEncode a.msg.inner).length < 2 ^ 32

namespace Sound

variable {ops : Stream → List Op}

/-- No call of a lane fails, nor does its shutdown. -/
theorem ran (sound : Sound cfg ops) (stream : Stream) :
    run PlainCodecs.plain (new stream cfg ∅) (ops stream) = .ok (ranOn cfg ops stream) ∧
      shutdown PlainCodecs.plain (ranOn cfg ops stream) = .ok (shutOn cfg ops stream) := by
  obtain ⟨s, final, ran, shut, -⟩ := run_archive sound.positive sound.capped
    (archive_empty PlainCodecs.plain stream cfg) (ops stream) (sound.fits stream)
  have isRan : ranOn cfg ops stream = s := by simp [ranOn, ran, Except.toOption]
  rw [isRan]
  exact ⟨ran, by simp [shutOn, isRan, shut, Except.toOption]⟩

/-- A chunk has fewer messages than an ordinal can number. -/
theorem few (sound : Sound cfg ops) (stream : Stream) (idx : Nat) :
    (recordedBy PlainCodecs.plain cfg ops stream idx).length < 2 ^ 32 :=
  lt_of_le_of_lt ((List.length_filter_le _ _).trans
    (accepted_sublist PlainCodecs.plain _ _).length_le) (sound.short stream)

/-- What a lane has recorded can be sealed and read back. -/
theorem recordable (sound : Sound cfg ops) (stream : Stream) :
    Recordable PlainCodecs.plain cfg (recordedBy PlainCodecs.plain cfg ops stream) :=
  recordable_accepted (sound.fits stream) (sound.slots stream) (sound.small stream)
    (sound.few stream)

/-- The directory of a stream is an archive of what its lane has recorded. -/
theorem archives (sound : Sound cfg ops) (stream : Stream) :
    Archive PlainCodecs.plain stream cfg ((readerOf cfg ops).files stream)
      (recordedBy PlainCodecs.plain cfg ops stream) :=
  archive_recordedBy sound.positive sound.capped (sound.fits stream) (sound.ran stream).1
    (sound.ran stream).2

/-- What the chunkers recorded, for the reader of their directories. -/
def collection (sound : Sound cfg ops) : Collection (readerOf cfg ops) :=
  archived PlainCodecs.plain_roundTrip sound.positive sound.recordable

/-- The chunks of the lanes are told apart by stream and start slot. -/
theorem apart (sound : Sound cfg ops) : sound.collection.Apart :=
  fun _ _ isHeld otherHeld _ less => sealed_apart isHeld otherHeld less

/-- Messages that arrive in slot order are recorded in it. -/
theorem inOrder (sound : Sound cfg ops)
    (sorted : ∀ stream, (arrivals (ops stream)).Pairwise (fun a b => a.slot ≤ b.slot)) :
    sound.collection.InOrder := by
  intro entry _
  have recorded : (recordedBy PlainCodecs.plain cfg ops entry.stream
      (entry.startSlot / cfg.slotsPerChunk)).Sublist (arrivals (ops entry.stream)) :=
    List.filter_sublist.trans (accepted_sublist _ _ _)
  refine List.pairwise_map.mpr (((sorted entry.stream).sublist recorded).imp_of_mem
    (fun {a b} isFirst isSecond order => ?_))
  rw [sound.slots _ a (recorded.subset isFirst), sound.slots _ b (recorded.subset isSecond)]
  exact order

end Sound

/-- The calls of chunkers that record transactions of the slots 1100 and 900 and a block. -/
def lanes : Stream → List Op
  | .tx =>
      [.ingest ⟨0, ⟨0, Replay.bareTx 1100⟩, 1100⟩, .ingest ⟨1, ⟨1, Replay.bareTx 900⟩, 900⟩]
  | .acct => []
  | .block => [.ingest ⟨0, ⟨0, Replay.bareBlock 950⟩, 950⟩, .tick (301 * 10 ^ 9)]

/-- A subscription to everything. -/
def everything : SubscriptionFilters where
  transactions := [("t", ⟨none, none, none, [], [], []⟩)]
  accounts := [("a", ⟨[], []⟩)]
  blocksMeta := [("b", {})]
  fromSlot := none

/-- A subscriber that takes every message at once. -/
def promptly : Nat → Iteration := fun _ => ⟨0, false, .sent, 0⟩

/-- The plan and the replay of this subscription over the scan of the directories. -/
def lanesReplay : Option (ReplayPlan × Replay.Outcome) := do
  let reader := readerOf ⟨1000, 200, 4⟩ lanes
  let (plan, _) ← (reader.planReplay (ChunkCatalog.scan reader.codecs reader.files
    (fun stream => (reader.files stream).keys)) everything Lru.Cache.new none).toOption
  let outcome ← (Replay.driveReplay reader promptly plan Lru.Cache.new
    (Pacer.ofConfig ⟨false, id, 0, 0⟩)).toOption
  some (plan, outcome)

/-- The two lanes keep what their callers promise. -/
theorem lanes_sound : Sound ⟨1000, 200, 4⟩ lanes where
  positive := by decide
  capped := by decide
  short stream := by cases stream <;> decide
  fits stream a member := by
    cases stream <;> simp only [lanes, arrivals_ingest, arrivals_tick, arrivals_nil,
      List.mem_cons, List.not_mem_nil, or_false] at member
    · rcases member with rfl | rfl <;> exact ⟨by decide, by decide, by decide⟩
    · subst member
      exact ⟨by decide, by decide, by decide⟩
  slots stream := by cases stream <;> decide
  small stream := by cases stream <;> decide +kernel

/-- The transactions come back in the order of their chunks. -/
theorem record_replay_lanes :
    ∃ plan outcome, lanesReplay = some (plan, outcome) ∧
      (outcome.sent.filter (fun sent => sent.1 = .tx)).map (fun sent => sent.2.update) =
        [setFilters (Replay.bareTx 900) ["t"], setFilters (Replay.bareTx 1100) ["t"]] := by
  have computed : lanesReplay.map (fun result => (result.1.fromSlot, result.2.stats.drained)) =
      some (0, true) := by decide +kernel
  obtain ⟨⟨plan, outcome⟩, replay, bounds⟩ := Option.map_eq_some_iff.mp computed
  obtain ⟨start, drained⟩ := Prod.mk.inj bounds
  refine ⟨plan, outcome, replay, ?_⟩
  simp only [lanesReplay, Option.bind_eq_bind, Option.bind_eq_some_iff] at replay
  obtain ⟨⟨plan', indexCache⟩, planned, outcome', driven, same⟩ := replay
  obtain ⟨rfl, rfl⟩ := Prod.mk.inj (Option.some.inj same)
  have sent := record_replay (readerOf ⟨1000, 200, 4⟩ lanes) PlainCodecs.plain_roundTrip
    ⟨1000, 200, 4⟩ lanes_sound.positive lanes_sound.capped lanes lanes_sound.fits
    lanes_sound.slots lanes_sound.small lanes_sound.few (ranOn ⟨1000, 200, 4⟩ lanes)
    (shutOn ⟨1000, 200, 4⟩ lanes) (fun stream => (lanes_sound.ran stream).1)
    (fun stream => (lanes_sound.ran stream).2) (fun _ => rfl) _ (fun _ _ => Iff.rfl) everything
    none Lru.Cache.new indexCache Lru.holds_new plan' (ok_of_toOption planned)
    Lru.Cache.new Lru.holds_new promptly _ outcome' (ok_of_toOption driven) drained .tx
  have order : inChunkOrder ⟨1000, 200, 4⟩
      (accepted PlainCodecs.plain (new .tx ⟨1000, 200, 4⟩ ∅) (lanes .tx)) =
        [0, 1].flatMap (fun idx =>
          (accepted PlainCodecs.plain (new .tx ⟨1000, 200, 4⟩ ∅) (lanes .tx)).filter
            (fun a => a.slot / 1000 = idx)) :=
    Buckets.sortBy_eq_flatMap (by decide) (by decide +kernel)
  rw [sent, start]
  simp only [replayed]
  rw [show (readerOf ⟨1000, 200, 4⟩ lanes).codecs = PlainCodecs.plain from rfl, order]
  decide +kernel

end Sillage
