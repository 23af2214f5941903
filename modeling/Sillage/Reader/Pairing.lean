import Sillage.Reader.Serving

/-!
# Index and payload of one chunk

Both caches know a chunk by its stream and its start slot. As long as chunks with these in
common have files that parse and decode alike, every subscription plans a chunk from the
chunk's own index and replays it from its own payload, whatever the others look up and
whenever something is evicted from a cache.
-/

namespace Sillage

open LittleEndian Idx Directory

namespace Serving

variable (reader : Reader)

/-- The plan of a chunk was made from the chunk's own index. -/
def OwnIndex (parsed : SubscriptionFilters) (stream : Stream) (plan : ChunkPlan) : Prop :=
  ∃ index, parseChunkIndex reader.codecs (reader.idxFile plan.entry) = .ok index ∧
    plan = reader.chunkPlan parsed stream plan.entry index

/-- A cursor in the middle of a chunk has the chunk's own payload. -/
def OwnPayload (cursor : StreamCursor) : Prop :=
  ∀ ord rest, cursor.currentOrds = some (ord :: rest) →
    ∃ plan chunk, StreamCursor.openPlan cursor.plans cursor.planIdx = some plan ∧
      cursor.currentDecoded = some chunk ∧
      decodeChunk reader.codecs (reader.zstFile plan.entry) = .ok chunk

/-- A subscription uses the index and the payload of the chunks that it plans and replays. -/
inductive Own : Caller → Prop where
  | idle : Own .idle
  | failed (failure : Failure) : Own (.failed failure)
  | planning {planning : Planning} {phase : Lru.Phase ChunkIndex}
      (plans : ∀ stream, ∀ plan ∈ planning.plan.plansPerStream stream,
        OwnIndex reader planning.parsed stream plan) : Own (.planning planning phase)
  | replaying {parsed : SubscriptionFilters} {cursors : Stream → Option StreamCursor}
      {phases : Stream → Lru.Phase DecodedChunk}
      (plans : ∀ stream cursor, cursors stream = some cursor →
        ∀ plan ∈ cursor.plans, OwnIndex reader parsed stream plan)
      (payload : ∀ stream cursor, cursors stream = some cursor → OwnPayload reader cursor) :
      Own (.replaying parsed cursors phases)

/-- The files of some chunks are as they were written, where they are there. -/
def Unchanged (held : ChunkEntry → Prop) (files : Files) : Prop :=
  ∀ entry, held entry →
    ((reader.seeing files).idxFile entry = none ∨
      (reader.seeing files).idxFile entry = reader.idxFile entry) ∧
    ((reader.seeing files).zstFile entry = none ∨
      (reader.seeing files).zstFile entry = reader.zstFile entry)

/-- Chunks with one stream and one start slot have files that parse and decode alike. -/
def Unmistakable (held : ChunkEntry → Prop) : Prop :=
  ∀ entry other, held entry → held other → entry.stream = other.stream →
    entry.startSlot = other.startSlot →
    (∀ index, parseChunkIndex reader.codecs (reader.idxFile entry) = .ok index →
      parseChunkIndex reader.codecs (reader.idxFile other) = .ok index) ∧
    (∀ chunk, decodeChunk reader.codecs (reader.zstFile entry) = .ok chunk →
      decodeChunk reader.codecs (reader.zstFile other) = .ok chunk)

/-- A cached payload is that of every chunk with its key among the given ones. -/
def PayloadAgrees (held : ChunkEntry → Prop) (key : CacheKey) (chunk : DecodedChunk) : Prop :=
  ∀ entry, held entry → key = ⟨entry.stream, entry.startSlot⟩ →
    decodeChunk reader.codecs (reader.zstFile entry) = .ok chunk

/-- What a subscription has looked up and will look up are chunks among the given ones,
and what it has loaded agrees with the chunk that it is looking up. -/
def Among (held : ChunkEntry → Prop) : Caller → Prop
  | .planning planning phase =>
      (∀ item ∈ planning.todo, item.2.stream = item.1 ∧ held item.2) ∧
      (∀ stream, ∀ plan ∈ planning.plan.plansPerStream stream,
        plan.entry.stream = stream ∧ held plan.entry) ∧
      ∀ item ∈ planning.todo.head?,
        phase.Holds (reader.IndexAgrees held ⟨item.1, item.2.startSlot⟩)
  | .replaying _ cursors phases =>
      ∀ stream cursor, cursors stream = some cursor →
        (∀ plan ∈ cursor.plans, plan.entry.stream = stream ∧ held plan.entry) ∧
        ∀ plan ∈ (StreamCursor.skipEmpty (cursor.plans.drop cursor.planIdx) cursor.planIdx).1,
          (phases stream).Holds
            (PayloadAgrees reader held ⟨plan.stream, plan.entry.startSlot⟩)
  | _ => True

/-- The caches and the subscriptions have each chunk's own index and payload. -/
structure Paired (held : ChunkEntry → Prop) (w : World) : Prop where
  indexes : w.indexes.Holds (reader.IndexAgrees held)
  chunks : w.chunks.Holds (PayloadAgrees reader held)
  among : ∀ id, Among reader held (w.callers id)
  own : ∀ id, Own reader (w.callers id)

variable {reader} {held : ChunkEntry → Prop} {files : Files}

/-- An index that is loaded from the disk agrees with the key of its chunk. -/
theorem indexAgrees_of_load (unchanged : Unchanged reader held files)
    (unmistakable : Unmistakable reader held) {entry : ChunkEntry} (isHeld : held entry)
    {index : ChunkIndex}
    (loaded : parseChunkIndex reader.codecs ((reader.seeing files).idxFile entry) = .ok index) :
    reader.IndexAgrees held ⟨entry.stream, entry.startSlot⟩ index := by
  rcases (unchanged entry isHeld).1 with gone | written
  · rw [gone] at loaded
    cases loaded
  · rw [written] at loaded
    intro other among same
    obtain ⟨stream, start⟩ := IndexCacheKey.mk.inj same
    exact (unmistakable entry other isHeld among stream start).1 index loaded

/-- A payload that is loaded from the disk agrees with the key of its chunk. -/
theorem payloadAgrees_of_load (unchanged : Unchanged reader held files)
    (unmistakable : Unmistakable reader held) {entry : ChunkEntry} (isHeld : held entry)
    {chunk : DecodedChunk}
    (loaded : decodeChunk reader.codecs ((reader.seeing files).zstFile entry) = .ok chunk) :
    PayloadAgrees reader held ⟨entry.stream, entry.startSlot⟩ chunk := by
  rcases (unchanged entry isHeld).2 with gone | written
  · rw [gone] at loaded
    cases loaded
  · rw [written] at loaded
    intro other among same
    obtain ⟨stream, start⟩ := CacheKey.mk.inj same
    exact (unmistakable entry other isHeld among stream start).2 chunk loaded

/-- A part of a planning keeps to each chunk's own index. -/
theorem planPart_paired {planning : Planning} {phase : Lru.Phase ChunkIndex}
    {cache after : IndexCache} {caller : Caller} (unchanged : Unchanged reader held files)
    (unmistakable : Unmistakable reader held) (holds : cache.Holds (reader.IndexAgrees held))
    (among : Among reader held (.planning planning phase))
    (own : Own reader (.planning planning phase))
    (done : planPart (reader.seeing files) cache planning phase = (caller, after)) :
    after.Holds (reader.IndexAgrees held) ∧ Among reader held caller ∧ Own reader caller := by
  obtain ⟨toPlan, made, loaded⟩ := among
  cases own with
  | planning own =>
  rw [planPart] at done
  split at done
  · obtain ⟨rfl, rfl⟩ := Prod.mk.inj done
    refine ⟨holds, ?_, ?_⟩
    · intro stream cursor opened
      obtain rfl := opening_plans opened
      refine ⟨made stream, fun plan next => ?_⟩
      trivial
    · apply Own.replaying
      · intro stream cursor opened
        obtain rfl := opening_plans opened
        exact own stream
      · intro stream cursor opened ord rest more
        obtain rfl := opening_plans opened
        cases more
  · next stream entry rest todo =>
    obtain ⟨⟨sameStream, isHeld⟩, later⟩ := List.forall_mem_cons.mp (todo ▸ toPlan)
    dsimp only at sameStream isHeld
    subst sameStream
    have begun : phase.Holds (reader.IndexAgrees held ⟨entry.stream, entry.startSlot⟩) :=
      loaded (entry.stream, entry) (by rw [todo]; rfl)
    split at done
    · next error between part =>
      obtain ⟨rfl, rfl⟩ := Prod.mk.inj done
      refine ⟨(Lru.holds_advance _ _ holds begun ?_ part).1, trivial, .failed _⟩
      exact fun fresh => indexAgrees_of_load unchanged unmistakable isHeld
    · next next' between part =>
      obtain ⟨rfl, rfl⟩ := Prod.mk.inj done
      obtain ⟨holds', result⟩ := Lru.holds_advance _ _ holds begun
        (fun fresh => indexAgrees_of_load unchanged unmistakable isHeld) part
      refine ⟨holds', ⟨toPlan, made, ?_⟩, .planning own⟩
      intro item first
      rw [todo] at first
      obtain rfl := Option.some.inj first
      exact result _ rfl
    · next index between part =>
      obtain ⟨rfl, rfl⟩ := Prod.mk.inj done
      obtain ⟨holds', result⟩ := Lru.holds_advance _ _ holds begun
        (fun fresh => indexAgrees_of_load unchanged unmistakable isHeld) part
      have isOwn : parseChunkIndex reader.codecs (reader.idxFile entry) = .ok index :=
        result _ rfl entry isHeld rfl
      refine ⟨holds', ⟨later, ?_, fun item first => trivial⟩, ?_⟩
      · intro stream plan member
        rcases mem_push member with before | ⟨rfl, rfl⟩
        · exact made stream plan before
        · exact ⟨rfl, isHeld⟩
      · apply Own.planning
        intro stream plan member
        rcases mem_push member with before | ⟨rfl, rfl⟩
        · exact own stream plan before
        · exact ⟨index, isOwn, rfl⟩

/-- A chunk that is planned for a stream is looked up under the key of the chunk. -/
theorem OwnIndex.key {parsed : SubscriptionFilters} {stream : Stream} {plan : ChunkPlan}
    (own : OwnIndex reader parsed stream plan) (ofStream : plan.entry.stream = stream) :
    plan.stream = plan.entry.stream := by
  obtain ⟨index, -, made⟩ := own
  rw [made]
  exact ofStream.symm

/-- What a cursor of a stream has to do with the given chunks. -/
def CursorAmong (reader : Reader) (held : ChunkEntry → Prop) (stream : Stream)
    (cursor : StreamCursor) (phase : Lru.Phase DecodedChunk) : Prop :=
  (∀ plan ∈ cursor.plans, plan.entry.stream = stream ∧ held plan.entry) ∧
  ∀ plan ∈ (StreamCursor.skipEmpty (cursor.plans.drop cursor.planIdx) cursor.planIdx).1,
    phase.Holds (PayloadAgrees reader held ⟨plan.stream, plan.entry.startSlot⟩)

/-- A part of peeking at a cursor keeps to each chunk's own payload. -/
theorem peekPart_paired {parsed : SubscriptionFilters} {stream : Stream} {cursor : StreamCursor}
    {phase : Lru.Phase DecodedChunk} {cache after : ChunkCache}
    {result : Except ReplayError (StreamCursor × Lru.Phase DecodedChunk)}
    (unchanged : Unchanged reader held files) (unmistakable : Unmistakable reader held)
    (holds : cache.Holds (PayloadAgrees reader held))
    (among : CursorAmong reader held stream cursor phase)
    (plans : ∀ plan ∈ cursor.plans, OwnIndex reader parsed stream plan)
    (own : OwnPayload reader cursor)
    (done : peekPart (reader.seeing files) cache cursor phase = (result, after)) :
    after.Holds (PayloadAgrees reader held) ∧
      ∀ cursor' phase', result = .ok (cursor', phase') → cursor'.plans = cursor.plans ∧
        CursorAmong reader held stream cursor' phase' ∧ OwnPayload reader cursor' := by
  obtain ⟨ofStream, loaded⟩ := among
  rw [peekPart] at done
  split at done
  · obtain ⟨rfl, rfl⟩ := Prod.mk.inj done
    refine ⟨holds, fun cursor' phase' same => ?_⟩
    obtain ⟨rfl, rfl⟩ := Prod.mk.inj (Except.ok.inj same)
    exact ⟨rfl, ⟨ofStream, loaded⟩, own⟩
  · next ord rest idle ords =>
    obtain ⟨rfl, rfl⟩ := Prod.mk.inj done
    refine ⟨holds, fun cursor' phase' same => ?_⟩
    cases decoded : StreamCursor.decodeNext (reader.seeing files) cursor ord rest with
    | error error =>
      rw [decoded] at same
      cases same
    | ok made =>
      rw [decoded] at same
      obtain ⟨rfl, rfl⟩ := Prod.mk.inj (Except.ok.inj same)
      obtain ⟨head, isNext⟩ := StreamCursor.decodeNext_inv decoded
      rw [isNext]
      refine ⟨rfl, ⟨ofStream, loaded⟩, fun next later _ => ?_⟩
      exact own ord rest ords
  · next idle exhausted =>
    have skipped := StreamCursor.skipEmpty_spec reader cursor.plans cursor.planIdx _ rfl
    split at done
    · next planIdx skips =>
      obtain ⟨rfl, rfl⟩ := Prod.mk.inj done
      rw [skips] at skipped
      refine ⟨holds, fun cursor' phase' same => ?_⟩
      obtain ⟨rfl, rfl⟩ := Prod.mk.inj (Except.ok.inj same)
      refine ⟨rfl, ⟨ofStream, fun plan next => ?_⟩, fun ord rest more => ?_⟩
      · dsimp only at next
        rw [skipped.2] at next
        cases next
      · exact absurd more (exhausted ord rest)
    · next plan planIdx skips =>
      rw [skips] at skipped
      obtain ⟨-, member, here, -⟩ := skipped
      have isPlan : plan ∈ cursor.plans := List.mem_of_mem_drop member
      obtain ⟨streamOf, isHeld⟩ := ofStream plan isPlan
      have key := (plans plan isPlan).key streamOf
      have begun := loaded plan (by rw [skips]; rfl)
      have loads : ∀ fresh, decodeChunk (reader.seeing files).codecs
          ((reader.seeing files).zstFile plan.entry) = .ok fresh →
          PayloadAgrees reader held ⟨plan.stream, plan.entry.startSlot⟩ fresh := by
        intro fresh fromDisk
        rw [key]
        exact payloadAgrees_of_load unchanged unmistakable isHeld fromDisk
      split at done
      · next error between part =>
        obtain ⟨rfl, rfl⟩ := Prod.mk.inj done
        refine ⟨(Lru.holds_advance _ _ holds begun loads part).1, fun cursor' phase' same => ?_⟩
        cases same
      · next next' between part =>
        obtain ⟨rfl, rfl⟩ := Prod.mk.inj done
        obtain ⟨holds', advanced⟩ := Lru.holds_advance _ _ holds begun loads part
        refine ⟨holds', fun cursor' phase' same => ?_⟩
        obtain ⟨rfl, rfl⟩ := Prod.mk.inj (Except.ok.inj same)
        refine ⟨rfl, ⟨ofStream, fun other next => ?_⟩, own⟩
        rw [skips] at next
        obtain rfl := Option.some.inj next
        exact advanced _ rfl
      · next chunk between part =>
        obtain ⟨rfl, rfl⟩ := Prod.mk.inj done
        obtain ⟨holds', advanced⟩ := Lru.holds_advance _ _ holds begun loads part
        refine ⟨holds', fun cursor' phase' same => ?_⟩
        obtain ⟨rfl, rfl⟩ := Prod.mk.inj (Except.ok.inj same)
        refine ⟨rfl, ⟨ofStream, fun other next => trivial⟩, fun ord rest _ => ?_⟩
        refine ⟨plan, chunk, here, rfl, ?_⟩
        exact advanced _ rfl plan.entry isHeld (by rw [key])

/-- A replay that has what is its own has planned with the indexes of its chunks and opens their
payloads. -/
theorem Own.replays {parsed : SubscriptionFilters} {cursors : Stream → Option StreamCursor}
    {phases : Stream → Lru.Phase DecodedChunk} (own : Own reader (.replaying parsed cursors phases)) :
    (∀ stream cursor, cursors stream = some cursor →
      ∀ plan ∈ cursor.plans, OwnIndex reader parsed stream plan) ∧
    ∀ stream cursor, cursors stream = some cursor → OwnPayload reader cursor := by
  cases own with
  | replaying plans payload => exact ⟨plans, payload⟩

/-- A replay keeps to each chunk's own payload when the cursor of one stream changes. -/
theorem replaying_update {parsed : SubscriptionFilters} {cursors : Stream → Option StreamCursor}
    {phases : Stream → Lru.Phase DecodedChunk} {stream : Stream} {cursor : StreamCursor}
    {phase : Lru.Phase DecodedChunk}
    (among : Among reader held (.replaying parsed cursors phases))
    (own : Own reader (.replaying parsed cursors phases))
    (amongNew : CursorAmong reader held stream cursor phase)
    (plans : ∀ plan ∈ cursor.plans, OwnIndex reader parsed stream plan)
    (payload : OwnPayload reader cursor) :
    Among reader held (.replaying parsed (Function.update cursors stream (some cursor))
        (Function.update phases stream phase)) ∧
      Own reader (.replaying parsed (Function.update cursors stream (some cursor))
        (Function.update phases stream phase)) := by
  obtain ⟨ownPlans, ownPayload⟩ := own.replays
  constructor
  · intro other cursor' found
    rcases Tables.update_some found with ⟨rfl, rfl⟩ | ⟨apart, before⟩
    · rw [Function.update_self]
      exact amongNew
    · rw [Function.update_of_ne apart]
      exact among other cursor' before
  · apply Own.replaying
    · exact Tables.forall_update_some ownPlans plans
    · exact Tables.forall_update_some ownPayload payload

/-- A subscription begins with chunks of its catalog. -/
theorem subscribed_among {catalog : ChunkCatalog} (parsed : SubscriptionFilters)
    (explicitFromSlot : Option Nat) (published : ∀ entry, catalog.Holds entry → held entry) :
    Among reader held (subscribed catalog parsed explicitFromSlot) ∧
      Own reader (subscribed catalog parsed explicitFromSlot) := by
  rw [subscribed]
  split
  · exact ⟨trivial, .failed _⟩
  · split
    · exact ⟨trivial, .failed _⟩
    · refine ⟨⟨?_, by simp, fun item first => trivial⟩, .planning (by simp)⟩
      intro item member
      obtain ⟨ofStream, isHeld⟩ := mem_chunksToPlan member
      exact ⟨ofStream, published item.2 isHeld⟩

/-- Every act keeps to each chunk's own index and payload. -/
theorem paired_act {retentionHours : Nat} {w : World} (paired : Paired reader held w)
    (published : ∀ entry, w.catalog.Holds entry → held entry)
    (unchanged : Unchanged reader held w.files) (unmistakable : Unmistakable reader held)
    (next : Act) : Paired reader held (act reader retentionHours w next) := by
  obtain ⟨indexes, chunks, among, own⟩ := paired
  cases next with
  | list remote fetch =>
    rw [act]
    split <;> exact ⟨indexes, chunks, among, own⟩
  | disk lane =>
    rw [act]
    split <;> exact ⟨indexes, chunks, among, own⟩
  | sweep visits refuses =>
    rw [act]
    split <;> exact ⟨indexes, chunks, among, own⟩
  | publish order =>
    rw [act]
    split <;> exact ⟨indexes, chunks, among, own⟩
  | subscribe id parsed explicitFromSlot =>
    rw [act]
    split
    · obtain ⟨amongNew, ownNew⟩ :=
        @subscribed_among reader held w.catalog parsed explicitFromSlot published
      exact ⟨indexes, chunks, forall_update among amongNew, forall_update own ownNew⟩
    · exact ⟨indexes, chunks, among, own⟩
  | plan id =>
    rw [act]
    split
    · next planning phase isPlanning =>
      have amongHere := among id
      have ownHere := own id
      rw [isPlanning] at amongHere ownHere
      obtain ⟨indexes', amongNew, ownNew⟩ :=
        planPart_paired unchanged unmistakable indexes amongHere ownHere rfl
      exact ⟨indexes', chunks, forall_update among amongNew, forall_update own ownNew⟩
    · exact ⟨indexes, chunks, among, own⟩
  | peek id stream =>
    rw [act]
    split
    · next parsed cursors phases isReplaying =>
      have amongHere := among id
      have ownHere := own id
      rw [isReplaying] at amongHere ownHere
      split
      · exact ⟨indexes, chunks, among, own⟩
      · next cursor has =>
        obtain ⟨ownPlans, ownPayload⟩ := ownHere.replays
        have plansHere := ownPlans stream cursor has
        have payloadHere := ownPayload stream cursor has
        split
        · next error after peeked =>
          obtain ⟨chunks', -⟩ := peekPart_paired unchanged unmistakable chunks
            (amongHere stream cursor has) plansHere payloadHere peeked
          exact ⟨indexes, chunks', forall_update among trivial, forall_update own (.failed _)⟩
        · next cursor' phase' after peeked =>
          obtain ⟨chunks', made⟩ := peekPart_paired unchanged unmistakable chunks
            (amongHere stream cursor has) plansHere payloadHere peeked
          obtain ⟨samePlans, amongNew, payloadNew⟩ := made cursor' phase' rfl
          obtain ⟨amongAll, ownAll⟩ := replaying_update amongHere ownHere amongNew
            (samePlans ▸ plansHere) payloadNew
          exact ⟨indexes, chunks', forall_update among amongAll, forall_update own ownAll⟩
    · exact ⟨indexes, chunks, among, own⟩
  | take id stream =>
    rw [act]
    split
    · next parsed cursors phases isReplaying =>
      split
      · exact ⟨indexes, chunks, among, own⟩
      · next item cursor' taken =>
        have amongHere := among id
        have ownHere := own id
        rw [isReplaying] at amongHere ownHere
        obtain ⟨ownPlans, ownPayload⟩ := ownHere.replays
        obtain ⟨cursor, has, removed⟩ := Option.bind_eq_some_iff.mp taken
        obtain ⟨head, shown, same⟩ := Option.map_eq_some_iff.mp removed
        obtain ⟨rfl, rfl⟩ := Prod.mk.inj same
        obtain ⟨amongAll, ownAll⟩ := @replaying_update reader held parsed cursors phases stream
          { cursor with peeked := none } (phases stream) amongHere ownHere
          (amongHere stream cursor has) (ownPlans stream cursor has) (ownPayload stream cursor has)
        rw [Function.update_eq_self] at amongAll ownAll
        exact ⟨indexes, chunks, forall_update among amongAll, forall_update own ownAll⟩
    · exact ⟨indexes, chunks, among, own⟩
  | leave id => exact ⟨indexes, chunks, forall_update among trivial, forall_update own .idle⟩

/-- Behind boot nothing is cached, and nobody has subscribed. -/
theorem paired_boot (order : Sync.DirOrder) :
    Paired reader held (World.boot reader.codecs order files) :=
  ⟨Lru.holds_new, Lru.holds_new, fun _ => trivial, fun _ => .idle⟩

/-- In a run the chunks of the published catalogs are among the given ones, and their files
do not change once they are written. -/
structure Written (reader : Reader) (retentionHours : Nat) (start : World) (acts : List Act)
    (held : ChunkEntry → Prop) : Prop where
  published : ∀ front, front <+: acts → ∀ entry,
    (run reader retentionHours start front).catalog.Holds entry → held entry
  unchanged : ∀ front, front <+: acts →
    Unchanged reader held (run reader retentionHours start front).files

/-- Whatever catalogs are published and however the subscriptions that share the caches
come in between each other and the syncer, every plan of a chunk is made from the chunk's
own index, and every replay of it from its own payload, as long as no two chunks with one
stream and one start slot have files that parse or decode differently. -/
theorem lookups_own (reader : Reader) (retentionHours : Nat) (order : Sync.DirOrder)
    (files : Files) (acts : List Act) (held : ChunkEntry → Prop)
    (written : Written reader retentionHours (World.boot reader.codecs order files) acts held)
    (unmistakable : Unmistakable reader held) (id : Nat) :
    Own reader ((run reader retentionHours
      (World.boot reader.codecs order files) acts).callers id) := by
  have paired := @run_induction reader retentionHours (Paired reader held)
    (World.boot reader.codecs order files) acts (paired_boot order) (fun front last within before =>
      have front' : front <+: acts := (List.prefix_append front [last]).trans within
      paired_act before (written.published front front') (written.unchanged front front')
        unmistakable last)
  exact paired.own id

/-- A chunk with the start slot and the files of one of some keys. -/
def OfKeys (keys : List ChunkKey) (entry : ChunkEntry) : Prop :=
  ∃ key ∈ keys, entry.stream = key.stream ∧ entry.startSlot = key.startSlot ∧
    entry.idxPath = key.file "idx" ∧ entry.zstPath = key.file "zst"

/-- Whether a chunk is one of some keys is a comparison of its fields. -/
instance (keys : List ChunkKey) (entry : ChunkEntry) : Decidable (OfKeys keys entry) :=
  inferInstanceAs (Decidable (∃ key ∈ keys, entry.stream = key.stream ∧
    entry.startSlot = key.startSlot ∧ entry.idxPath = key.file "idx" ∧
    entry.zstPath = key.file "zst"))

/-- A file is not there, or as it was written. -/
def AsWritten (reader : Reader) (files : Files) (key : ChunkKey) (ext : String) : Prop :=
  (files key.stream).lookup (key.file ext) = none ∨
    (files key.stream).lookup (key.file ext) = (reader.files key.stream).lookup (key.file ext)

/-- Whether a file is as it was written can be looked up. -/
instance (reader : Reader) (files : Files) (key : ChunkKey) (ext : String) :
    Decidable (AsWritten reader files key ext) :=
  inferInstanceAs (Decidable (_ ∨ _))

/-- What to check of every state of a run to know what is written in it. -/
theorem written_of_checks {retentionHours : Nat} {start : World} {acts : List Act}
    {keys : List ChunkKey}
    (checks : ∀ n < acts.length + 1, ∀ w, w = run reader retentionHours start (acts.take n) →
      (∀ stream ∈ Stream.all, ∀ item ∈ (w.catalog.streams stream).toList, OfKeys keys item.2) ∧
      ∀ key ∈ keys, AsWritten reader w.files key "idx" ∧ AsWritten reader w.files key "zst") :
    Written reader retentionHours start acts (OfKeys keys) := by
  have checked : ∀ front, front <+: acts → _ := fun front within =>
    checks front.length (Nat.lt_succ_of_le within.length_le) _
      (by rw [← List.prefix_iff_eq_take.mp within])
  constructor
  · intro front within entry holds
    have member : (entry.startSlot, entry) ∈
        ((run reader retentionHours start front).catalog.streams entry.stream).toList :=
      ChunkCatalog.mem_toList.mpr ⟨rfl, rfl, holds⟩
    exact (checked front within).1 entry.stream (Stream.mem_all _) _ member
  · rintro front within ⟨stream, start, stop, zstPath, idxPath, sidecar⟩
      ⟨key, member, rfl, rfl, rfl, rfl⟩
    exact (checked front within).2 key member

/-- A chunk of block metadata and a longer one with the same start slot. -/
def short : ChunkKey := ⟨.block, 0, 1000⟩

/-- A chunk with the same start, and a later end. -/
def long : ChunkKey := ⟨.block, 0, 2000⟩

/-- The slots in the two chunks. -/
def twinSlots (key : ChunkKey) : List Nat := if key = short then [5] else [5, 1500]

/-- Somebody plans the short chunk. Then the syncer downloads the long one and publishes it,
and somebody else plans that. -/
def twinActs : List Act :=
  [.subscribe 0 allBlocks none, .plan 0, .plan 0, .plan 0,
    .list [short, long] (blockFetch twinSlots)] ++ List.replicate 9 (.disk 0) ++
  [.sweep [] (fun _ _ => false), .publish oldestFirst, .subscribe 1 allBlocks none, .plan 1]

/-- A reader that holds both. -/
def twinReader : Reader := blockReader (blockFiles twinSlots [short, long])

/-- A disk that holds the short chunk. -/
def twinStart : World :=
  World.boot twinReader.codecs oldestFirst (blockFiles twinSlots [short])

/-- The plans that a subscription has for a stream. -/
def plannedChunks : Caller → Stream → List ChunkPlan
  | .planning planning _ => planning.plan.plansPerStream
  | .replaying _ cursors _ => fun stream => (cursors stream).elim [] StreamCursor.plans
  | _ => fun _ => []

/-- The long chunk, which has two messages, is planned from the index of the short one, which
has one, though no file ever changes. -/
theorem lookups_mixed :
    Written twinReader 24 twinStart twinActs (OfKeys [short, long]) ∧
      ∃ plan ∈ plannedChunks ((run twinReader 24 twinStart twinActs).callers 1) .block,
        ¬ OwnIndex twinReader allBlocks .block plan := by
  constructor
  · apply written_of_checks
    rintro n bound w rfl
    revert n
    decide +kernel
  · have planned : ((plannedChunks ((run twinReader 24 twinStart twinActs).callers 1) .block).map
        (fun plan => (plan.union, twinReader.idxFile plan.entry))) =
          [({0}, some (blockContent long [5, 1500] "idx"))] := by
      decide +kernel
    obtain ⟨plan, member, found⟩ := List.mem_map.mp (planned ▸ List.mem_singleton_self _)
    obtain ⟨union, file⟩ := Prod.mk.inj found
    refine ⟨plan, member, fun own => ?_⟩
    obtain ⟨index, parsed, made⟩ := own
    rw [file] at parsed
    -- its own index counts two messages
    have counts : (parseChunkIndex twinReader.codecs
        (some (blockContent long [5, 1500] "idx"))).toOption.map ChunkIndex.messageCount =
        some 2 := by
      decide +kernel
    rw [parsed] at counts
    have two : index.messageCount = 2 := Option.some.inj counts
    have whole : plan.union = ∅ ∪ Filter.matchAll index.messageCount := by
      rw [made]
      rfl
    rw [two, union] at whole
    revert whole
    decide

/-- Chunks of keys that stream and start slot tell apart are unmistakable. -/
theorem unmistakable_ofKeys (reader : Reader) {keys : List ChunkKey}
    (apart : ∀ key ∈ keys, ∀ other ∈ keys, key.stream = other.stream →
      key.startSlot = other.startSlot → key = other) : Unmistakable reader (OfKeys keys) := by
  rintro ⟨stream, start, stop, zstPath, idxPath, sidecar⟩
    ⟨stream', start', stop', zstPath', idxPath', sidecar'⟩
    ⟨key, member, rfl, rfl, rfl, rfl⟩ ⟨other, member', rfl, rfl, rfl, rfl⟩ sameStream sameStart
  obtain rfl := apart key member other member' sameStream sameStart
  exact ⟨fun _ parsed => parsed, fun _ decoded => decoded⟩

/-- The chunk behind the short one. -/
def following : ChunkKey := ⟨.block, 1000, 2000⟩

/-- The slots in these two chunks. -/
def rowSlots (key : ChunkKey) : List Nat := if key = short then [5] else [1200, 1500]

/-- A reader whose disk holds two chunks in a row. -/
def rowReader : Reader := blockReader (blockFiles rowSlots [short, following])

/-- Two subscriptions to both chunks, whose accesses to the caches come in between each
other; the first one leaves its first chunk while the second one opens it. -/
def sharedActs : List Act :=
  [.subscribe 0 allBlocks none, .plan 0, .subscribe 1 allBlocks none, .plan 0, .plan 1, .plan 0,
    .plan 1, .plan 0, .plan 1, .plan 0, .plan 1, .plan 0, .plan 1, .plan 0, .plan 1, .plan 1,
    .plan 1, .peek 0 .block, .peek 0 .block, .peek 1 .block, .peek 0 .block, .peek 0 .block,
    .take 0 .block, .peek 1 .block, .peek 0 .block, .peek 1 .block, .peek 0 .block,
    .peek 1 .block, .peek 0 .block, .peek 0 .block]

/-- With two chunks on the disk both subscriptions plan and replay each from its own files. -/
theorem lookups_own_shared :
    let w := run rowReader 24
      (World.boot rowReader.codecs oldestFirst (blockFiles rowSlots [short, following])) sharedActs
    (∀ id ∈ [0, 1], Own rowReader (w.callers id)) ∧
      ∀ id ∈ [0, 1], (plannedChunks (w.callers id) .block).map ChunkPlan.union = [{0}, {0, 1}] := by
  have written : Written rowReader 24
      (World.boot rowReader.codecs oldestFirst (blockFiles rowSlots [short, following]))
      sharedActs (OfKeys [short, following]) := by
    apply written_of_checks
    rintro n bound w rfl
    revert n
    decide +kernel
  have own := lookups_own rowReader 24 oldestFirst (blockFiles rowSlots [short, following])
    sharedActs (OfKeys [short, following]) written (unmistakable_ofKeys rowReader (by decide))
  refine ⟨fun id _ => own id, ?_⟩
  decide +kernel

end Serving

end Sillage
