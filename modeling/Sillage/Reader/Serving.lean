import Sillage.Reader.Merge
import Sillage.Reader.Publication

/-!
# Subscriptions beside the syncer

The syncer changes the disk file by file and swaps the published catalog, while
subscriptions plan and replay from the catalog that was published when they began. All of
them share the two caches. A run is a list of acts, each between two points at which
somebody else can come in: one change of a file, one part of an access to a cache, the
decoding of one message.

What a replay does between two peeks is left open: its cursors are peeked at and its heads
are taken in any order and at any time, the order of the merge being one of them.
-/

namespace Sillage

open LittleEndian Idx Directory

namespace Reader

/-- A reader that finds the given files. -/
def seeing (reader : Reader) (files : Files) : Reader := { reader with files }

end Reader

namespace ReplayPlan

/-- A plan with one more chunk. -/
def push (plan : ReplayPlan) (stream : Stream) (chunk : ChunkPlan) : ReplayPlan :=
  { plan with
    plansPerStream :=
      Function.update plan.plansPerStream stream (plan.plansPerStream stream ++ [chunk]) }

end ReplayPlan

namespace Serving

open Sync

/-- A planning under way: the plan so far, and the chunks whose index is still to be
looked up. -/
structure Planning where
  parsed : SubscriptionFilters
  plan : ReplayPlan
  todo : List (Stream × ChunkEntry)

/-- Why a subscription ends with an error. -/
inductive Failure where
  | plan (error : PlanError)
  | replay (error : ReplayError)

/-- What a subscription is doing, and how far the access has come that it is in. -/
inductive Caller where
  | idle
  | planning (planning : Planning) (phase : Lru.Phase ChunkIndex)
  | replaying (parsed : SubscriptionFilters) (cursors : Stream → Option StreamCursor)
      (phases : Stream → Lru.Phase DecodedChunk)
  | failed (failure : Failure)

/-- The chunks of the subscribed streams that overlap a range of slots. -/
def chunksToPlan (catalog : ChunkCatalog) (parsed : SubscriptionFilters)
    (fromSlot toSlotExclusive : Nat) (streams : List Stream) : List (Stream × ChunkEntry) :=
  (streams.filter (fun stream => parsed.hasStream stream)).flatMap (fun stream =>
    (catalog.chunksInRange stream fromSlot toSlotExclusive).map (fun entry => (stream, entry)))

/-- A subscription that begins with a catalog. -/
def subscribed (catalog : ChunkCatalog) (parsed : SubscriptionFilters)
    (explicitFromSlot : Option Nat) : Caller :=
  match Reader.firstAvailable catalog parsed with
  | none => .failed (.plan .noChunksAvailable)
  | some firstAvailable =>
      match Reader.startSlot firstAvailable explicitFromSlot with
      | .error error => .failed (.plan error)
      | .ok fromSlot =>
          let toSlotExclusive := catalog.newestEndSlot.getD 0
          .planning
            { parsed
              plan := { fromSlot, toSlotExclusive, plansPerStream := fun _ => [] }
              todo := chunksToPlan catalog parsed fromSlot toSlotExclusive Stream.all }
            .lookup

/-- One part of a planning. Behind the last chunk the replay begins. -/
def planPart (reader : Reader) (cache : IndexCache) (planning : Planning)
    (phase : Lru.Phase ChunkIndex) : Caller × IndexCache :=
  match planning.todo with
  | [] =>
      (.replaying planning.parsed (Replay.opening planning.plan) (fun _ => .lookup), cache)
  | (stream, entry) :: rest =>
      match cache.advance reader.indexHeapBytes reader.indexBudgetBytes ⟨stream, entry.startSlot⟩
          (parseChunkIndex reader.codecs (reader.idxFile entry)) phase with
      | (.error error, cache) => (.failed (.plan (.other error)), cache)
      | (.ok (.goesOn phase), cache) => (.planning planning phase, cache)
      | (.ok (.returns index), cache) =>
          (.planning
            { planning with
              plan := planning.plan.push stream
                (reader.chunkPlan planning.parsed stream entry index)
              todo := rest }
            .lookup, cache)

/-- One part of peeking at a cursor: the next message of the chunk that is open, or a part
of opening the next chunk. -/
def peekPart (reader : Reader) (cache : ChunkCache) (cursor : StreamCursor)
    (phase : Lru.Phase DecodedChunk) :
    Except ReplayError (StreamCursor × Lru.Phase DecodedChunk) × ChunkCache :=
  match cursor.peeked, cursor.currentOrds with
  | some _, _ => (.ok (cursor, phase), cache)
  | none, some (ord :: rest) =>
      ((StreamCursor.decodeNext reader cursor ord rest).map (fun made => (made.2, phase)), cache)
  | none, _ =>
      match StreamCursor.skipEmpty (cursor.plans.drop cursor.planIdx) cursor.planIdx with
      | (none, planIdx) => (.ok ({ cursor with planIdx }, phase), cache)
      | (some plan, planIdx) =>
          match cache.advance DecodedChunk.heapBytes reader.chunkBudgetBytes
              ⟨plan.stream, plan.entry.startSlot⟩
              (decodeChunk reader.codecs (reader.zstFile plan.entry)) phase with
          | (.error error, cache) => (.error (.decode error), cache)
          | (.ok (.goesOn phase), cache) => (.ok (cursor, phase), cache)
          | (.ok (.returns decoded), cache) =>
              (.ok ({ cursor with
                planIdx
                currentDecoded := some decoded
                currentOrds := some (ordinals plan.union) }, .lookup), cache)

/-- Where the syncer is in its cycle. -/
inductive Stage where
  | idle
  | downloading
  | sweeping
deriving DecidableEq

/-- The syncer: the changes that it has still to make, in lanes that do not wait for each
other, and whether it will publish a catalog at the end of the cycle. -/
structure Syncer where
  stage : Stage
  lanes : List (List (Stream × FileStep))
  changed : Bool

/-- The disk, the published catalog, the caches, the syncer and the subscriptions. -/
structure World where
  files : Files
  catalog : ChunkCatalog
  syncer : Syncer
  indexes : IndexCache
  chunks : ChunkCache
  callers : Nat → Caller

/-- What happens next. The orders in which sets and directories are iterated are part of
it. -/
inductive Act where
  | list (remote : List ChunkKey) (fetch : ChunkKey → String → Fetch)
  | disk (lane : Nat)
  | sweep (visits : List ChunkKey) (refuses : Stream → FileName → Bool)
  | publish (order : DirOrder)
  | subscribe (id : Nat) (parsed : SubscriptionFilters) (explicitFromSlot : Option Nat)
  | plan (id : Nat)
  | peek (id : Nat) (stream : Stream)
  | take (id : Nat) (stream : Stream)
  | leave (id : Nat)

namespace World

/-- A reader that has just started: the directories have been scanned, and nobody has
subscribed. -/
def boot (k : Codecs) (order : DirOrder) (files : Files) : World where
  files := (Sync.boot k order files).files
  catalog := (Sync.boot k order files).catalog
  syncer := ⟨.idle, [], false⟩
  indexes := Lru.Cache.new
  chunks := Lru.Cache.new
  callers _ := .idle

/-- The syncer has nothing left to change. -/
def settled (w : World) : Bool := w.syncer.lanes.all List.isEmpty

/-- One subscription goes on, and the others stay where they are. -/
def setCaller (w : World) (id : Nat) (caller : Caller) : World :=
  { w with callers := Function.update w.callers id caller }

end World

variable (reader : Reader) (retentionHours : Nat)

/-- The world behind an act. An act whose time has not come changes nothing. -/
def act (w : World) : Act → World
  | .list remote fetch =>
      if w.syncer.stage = .idle then
        let keys := diffForSync (localChunks w.files) remote retentionHours
        { w with
          syncer :=
            { stage := .downloading
              lanes := keys.map (fun key => chunkSteps key (fetch key))
              changed := keys.any (fun key => (downloadSteps key (fetch key) trio).2) } }
      else w
  | .disk lane =>
      match w.syncer.lanes[lane]? with
      | some (step :: rest) =>
          { w with
            files := applyOn w.files step
            syncer := { w.syncer with lanes := w.syncer.lanes.set lane rest } }
      | _ => w
  | .sweep visits refuses =>
      if w.syncer.stage = .downloading ∧ w.settled = true ∧ visits.Nodup ∧
          visits.toFinset = evicted (localChunks w.files) retentionHours then
        { w with
          syncer :=
            { stage := .sweeping
              lanes := [visits.flatMap (removals refuses)]
              changed := w.syncer.changed || !visits.isEmpty } }
      else w
  | .publish order =>
      if w.syncer.stage = .sweeping ∧ w.settled = true then
        { w with
          catalog := if w.syncer.changed then scanIn reader.codecs order w.files else w.catalog
          syncer := ⟨.idle, [], false⟩ }
      else w
  | .subscribe id parsed explicitFromSlot =>
      match w.callers id with
      | .idle => w.setCaller id (subscribed w.catalog parsed explicitFromSlot)
      | _ => w
  | .plan id =>
      match w.callers id with
      | .planning planning phase =>
          let (caller, indexes) := planPart (reader.seeing w.files) w.indexes planning phase
          { w.setCaller id caller with indexes }
      | _ => w
  | .peek id stream =>
      match w.callers id with
      | .replaying parsed cursors phases =>
          match cursors stream with
          | none => w
          | some cursor =>
              match peekPart (reader.seeing w.files) w.chunks cursor (phases stream) with
              | (.error error, chunks) => { w.setCaller id (.failed (.replay error)) with chunks }
              | (.ok (cursor, phase), chunks) =>
                  { w.setCaller id (.replaying parsed
                      (Function.update cursors stream (some cursor))
                      (Function.update phases stream phase)) with chunks }
      | _ => w
  | .take id stream =>
      match w.callers id with
      | .replaying parsed cursors phases =>
          match (cursors stream).bind StreamCursor.takePeeked with
          | none => w
          | some (_, cursor) =>
              w.setCaller id
                (.replaying parsed (Function.update cursors stream (some cursor)) phases)
      | _ => w
  | .leave id => w.setCaller id .idle

/-- The world behind some acts, one after the other. -/
def run (w : World) (acts : List Act) : World := acts.foldl (act reader retentionHours) w

variable {reader retentionHours}

/-- A run begins with its first act. -/
theorem run_cons (w : World) (first : Act) (rest : List Act) :
    run reader retentionHours w (first :: rest) =
      run reader retentionHours (act reader retentionHours w first) rest := rfl

/-- Runs go on one behind the other. -/
theorem run_append (w : World) (first second : List Act) :
    run reader retentionHours w (first ++ second) =
      run reader retentionHours (run reader retentionHours w first) second := by
  simp [run]

/-- A run ends with its last act. -/
theorem run_concat (w : World) (acts : List Act) (last : Act) :
    run reader retentionHours w (acts ++ [last]) =
      act reader retentionHours (run reader retentionHours w acts) last := by
  simp [run]

/-- What holds at the start and is kept by every act of a run holds behind the run. -/
theorem run_induction {motive : World → Prop} {start : World} (acts : List Act)
    (begins : motive start)
    (kept : ∀ front last, front ++ [last] <+: acts →
      motive (run reader retentionHours start front) →
      motive (act reader retentionHours (run reader retentionHours start front) last)) :
    motive (run reader retentionHours start acts) := by
  induction acts using List.reverseRecOn with
  | nil => exact begins
  | append_singleton acts last inductionHypothesis =>
    rw [run_concat]
    apply kept acts last (List.prefix_refl _)
    apply inductionHypothesis
    intro front other within
    exact kept front other (within.trans (List.prefix_append acts [last]))

/-- The chunks to plan are chunks of the catalog. -/
theorem mem_chunksToPlan {catalog : ChunkCatalog} {parsed : SubscriptionFilters}
    {fromSlot toSlotExclusive : Nat} {streams : List Stream} {item : Stream × ChunkEntry}
    (member : item ∈ chunksToPlan catalog parsed fromSlot toSlotExclusive streams) :
    item.2.stream = item.1 ∧ catalog.Holds item.2 := by
  obtain ⟨stream, -, listed⟩ := List.mem_flatMap.mp member
  obtain ⟨entry, inRange, rfl⟩ := List.mem_map.mp listed
  obtain ⟨ofStream, isHeld, -⟩ := ChunkCatalog.mem_chunksInRange.mp inRange
  exact ⟨ofStream, isHeld⟩

/-- Adding the plan of a chunk adds no other plan. -/
theorem mem_push {plan : ReplayPlan} {stream other : Stream} {chunk found : ChunkPlan}
    (member : found ∈ (plan.push stream chunk).plansPerStream other) :
    found ∈ plan.plansPerStream other ∨ other = stream ∧ found = chunk := by
  by_cases same : other = stream
  · subst same
    simp only [ReplayPlan.push, Function.update_self, List.mem_append, List.mem_singleton] at member
    exact member.imp_right (fun isLast => ⟨rfl, isLast⟩)
  · simp only [ReplayPlan.push, Function.update_of_ne same] at member
    exact .inl member

/-- A replay opens with the plans that were made. -/
theorem opening_plans {plan : ReplayPlan} {stream : Stream} {cursor : StreamCursor}
    (opened : Replay.opening plan stream = some cursor) :
    cursor = StreamCursor.new (plan.plansPerStream stream) := by
  rw [Replay.opening] at opened
  split at opened
  · cases opened
  · exact (Option.some.inj opened).symm

/-- A subscription that changes leaves the others as they are. -/
theorem forall_update {motive : Caller → Prop} {callers : Nat → Caller} {id : Nat}
    {caller : Caller} (others : ∀ id, motive (callers id)) (own : motive caller) (other : Nat) :
    motive (Function.update callers id caller other) :=
  (Function.forall_update_iff callers (p := fun _ caller => motive caller)).mpr
    ⟨own, fun id _ => others id⟩ other

/-! ## Chunks of block metadata -/

/-- What a chunk of block metadata with some slots has in its files. -/
def blockContent (key : ChunkKey) (slots : List Nat) (ext : String) : Bytes :=
  if ext = "zst" then Chunk.framed (slots.map (fun slot =>
    PlainCodecs.subscribeUpdate.put (Replay.bareBlock slot)))
  else if ext = "idx" then
    let header := PlainCodecs.idxHeader.put
      { stream := key.stream.asStr, startSlot := key.startSlot, endSlot := key.endSlot
        messageCount := slots.length, dimensions := [] }
    idxMagic ++ [idxVersion] ++ u32Bytes header.length ++ header
  else PlainCodecs.chunkMeta.put
    { schemaVersion := Chunk.schemaVersion, stream := key.stream.asStr, startSlot := key.startSlot
      endSlotExclusive := key.endSlot, firstMessageSlot := slots.head?
      lastMessageSlot := slots.getLast?, messageCount := slots.length, uncompressedBytes := 0
      compressedBytes := 0, recvNsFirst := none, recvNsLast := none, sealedReason := "slot_boundary"
      indexDimensions := [] }

/-- The downloads of chunks of block metadata. -/
def blockFetch (slots : ChunkKey → List Nat) (key : ChunkKey) (ext : String) : Fetch :=
  ⟨[], .lands (blockContent key (slots key) ext)⟩

/-- The directories with some chunks of block metadata, the first of them written first. -/
def blockFiles (slots : ChunkKey → List Nat) (keys : List ChunkKey) : Files :=
  performOn (fun _ => ∅) (keys.flatMap (fun key => chunkSteps key (blockFetch slots key)))

/-- A reader of these files. -/
def blockReader (files : Files) : Reader where
  codecs := PlainCodecs.plain
  files
  indexBudgetBytes := 1000
  chunkBudgetBytes := 1000
  indexHeapBytes _ := 1

/-- A subscription to all block metadata. -/
def allBlocks : SubscriptionFilters :=
  { transactions := [], accounts := [], blocksMeta := [("all", {})], fromSlot := none }

/-- Directories are listed from the oldest name to the newest. -/
def oldestFirst : DirOrder := ⟨fun dir => dir.keys.reverse, fun _ _ => List.mem_reverse⟩

end Serving

end Sillage
