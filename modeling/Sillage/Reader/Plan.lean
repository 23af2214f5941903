import Sillage.Reader.Catalog
import Sillage.Reader.DecodedChunk
import Sillage.Reader.Filter

/-!
# Planning a replay

The slot range of a subscription is resolved against the catalog, and every chunk of
a subscribed stream that overlaps it gets a plan: one bitmap of ordinals for each
named filter, and their union. Indexes are parsed through a cache.
-/

namespace Sillage

open LittleEndian Idx

/-- A parsed subscription. -/
structure SubscriptionFilters where
  transactions : List (String × SubscribeRequestFilterTransactions)
  accounts : List (String × SubscribeRequestFilterAccounts)
  blocksMeta : List (String × SubscribeRequestFilterBlocksMeta)
  fromSlot : Option Nat
deriving DecidableEq

namespace SubscriptionFilters

/-- Whether there is a filter of a stream. -/
def hasStream (parsed : SubscriptionFilters) : Stream → Bool
  | .tx => !parsed.transactions.isEmpty
  | .acct => !parsed.accounts.isEmpty
  | .block => !parsed.blocksMeta.isEmpty

/-- The named filters of a stream. -/
def named (parsed : SubscriptionFilters) : (stream : Stream) → List (String × StreamFilter stream)
  | .tx => parsed.transactions.map (fun entry => (entry.1, .tx entry.2))
  | .acct => parsed.accounts.map (fun entry => (entry.1, .acct entry.2))
  | .block => parsed.blocksMeta.map (fun entry => (entry.1, .block entry.2))

/-- A stream without a filter is not subscribed. -/
theorem named_eq_nil (parsed : SubscriptionFilters) (stream : Stream) :
    parsed.named stream = [] ↔ parsed.hasStream stream = false := by
  cases stream <;> simp [named, hasStream]

end SubscriptionFilters

/-- The plan of one chunk. -/
structure ChunkPlan where
  stream : Stream
  entry : ChunkEntry
  namedBitmaps : List (String × RoaringBitmap)
  union : RoaringBitmap
  chunkRecvNsFirst : Option Nat

/-- What is to be replayed: the slots, and the plans of the chunks of each stream. -/
structure ReplayPlan where
  fromSlot : Nat
  toSlotExclusive : Nat
  plansPerStream : Stream → List ChunkPlan

/-- Why a replay cannot be planned. -/
inductive PlanError where
  | fromSlotTooOld (requested firstAvailable : Nat)
  | noChunksAvailable
  | other (error : IndexError)
deriving DecidableEq

/-- The key of a parsed index in the cache. -/
structure IndexCacheKey where
  stream : Stream
  startSlot : Nat
deriving DecidableEq

/-- Parsed indexes under stream and start slot. -/
abbrev IndexCache := Lru.Cache IndexCacheKey ChunkIndex

/-- What a reader's replays share: the libraries, the chunk files and the budgets of
the caches. A chunk's files do not change once they are in a catalog, so that one state
of the directories serves all reads. What a parsed index takes on the heap depends on
how its tables were allocated and is a parameter. -/
structure Reader where
  codecs : Codecs
  files : Files
  indexBudgetBytes : Nat
  chunkBudgetBytes : Nat
  indexHeapBytes : ChunkIndex → Nat

namespace Reader

variable (reader : Reader)

/-- The content of a chunk's index file. -/
def idxFile (entry : ChunkEntry) : Option Bytes :=
  (reader.files entry.stream).lookup entry.idxPath

/-- The content of a chunk's payload file. -/
def zstFile (entry : ChunkEntry) : Option Bytes :=
  (reader.files entry.stream).lookup entry.zstPath

/-- A parsed index from the cache, or from its file on a miss. -/
def getOrParse (cache : IndexCache) (key : IndexCacheKey) (file : Option Bytes) :
    Except IndexError (ChunkIndex × IndexCache) :=
  cache.getOrLoad reader.indexHeapBytes reader.indexBudgetBytes key
    (parseChunkIndex reader.codecs file)

/-- The plan of a chunk whose index is given. -/
def chunkPlan (parsed : SubscriptionFilters) (stream : Stream) (entry : ChunkEntry)
    (index : ChunkIndex) : ChunkPlan :=
  let namedBitmaps := (parsed.named stream).map
    (fun filter => (filter.1, Filter.resolve reader.codecs index filter.2))
  { stream
    entry
    namedBitmaps
    union := namedBitmaps.foldl (fun union named => union ∪ named.2) ∅
    chunkRecvNsFirst := entry.meta.recvNsFirst }

/-- Plan the chunks of one stream in order. -/
def planEntries (parsed : SubscriptionFilters) (stream : Stream) :
    List ChunkEntry → IndexCache → Except IndexError (List ChunkPlan × IndexCache)
  | [], cache => .ok ([], cache)
  | entry :: rest, cache => do
      let (index, cache) ← reader.getOrParse cache ⟨stream, entry.startSlot⟩ (reader.idxFile entry)
      let (later, cache) ← planEntries parsed stream rest cache
      .ok (reader.chunkPlan parsed stream entry index :: later, cache)

/-- Plan the subscribed ones of a list of streams. -/
def planStreams (catalog : ChunkCatalog) (parsed : SubscriptionFilters)
    (fromSlot toSlotExclusive : Nat) :
    List Stream → IndexCache → Except IndexError ((Stream → List ChunkPlan) × IndexCache)
  | [], cache => .ok (fun _ => [], cache)
  | stream :: rest, cache =>
      if parsed.hasStream stream then do
        let (own, cache) ← planEntries reader parsed stream
          (catalog.chunksInRange stream fromSlot toSlotExclusive) cache
        let (later, cache) ← planStreams catalog parsed fromSlot toSlotExclusive rest cache
        .ok (Function.update later stream own, cache)
      else planStreams catalog parsed fromSlot toSlotExclusive rest cache

/-- The oldest slot held for the subscribed streams. -/
def firstAvailable (catalog : ChunkCatalog) (parsed : SubscriptionFilters) : Option Nat :=
  ((catalog.summary.filter (fun stream => parsed.hasStream stream.stream)).filterMap
    StreamSummary.minStart).min?

/-- The first slot of a replay: the requested one unless it is below the floor, else
the floor. -/
def startSlot (firstAvailable : Nat) : Option Nat → Except PlanError Nat
  | some requested =>
      if requested < firstAvailable then .error (.fromSlotTooOld requested firstAvailable)
      else .ok requested
  | none => .ok firstAvailable

/-- Resolve the slot range of a subscription and plan its chunks. -/
def planReplay (catalog : ChunkCatalog) (parsed : SubscriptionFilters) (cache : IndexCache)
    (explicitFromSlot : Option Nat) : Except PlanError (ReplayPlan × IndexCache) :=
  match firstAvailable catalog parsed with
  | none => .error .noChunksAvailable
  | some firstAvailable => do
      let toSlotExclusive := catalog.newestEndSlot.getD 0
      let fromSlot ← startSlot firstAvailable explicitFromSlot
      match planStreams reader catalog parsed fromSlot toSlotExclusive Stream.all cache with
      | .error error => .error (.other error)
      | .ok (plansPerStream, cache) => .ok ({ fromSlot, toSlotExclusive, plansPerStream }, cache)

/-- What a chunk's index file parses to, if it does. -/
def indexOf (entry : ChunkEntry) : ChunkIndex :=
  (parseChunkIndex reader.codecs (reader.idxFile entry)).toOption.getD default

/-- A chunk whose index file can be parsed. -/
def Parses (entry : ChunkEntry) : Prop :=
  parseChunkIndex reader.codecs (reader.idxFile entry) = .ok (reader.indexOf entry)

/-- A cached index is that of every chunk with its key among the given ones. -/
def IndexAgrees (held : ChunkEntry → Prop) (key : IndexCacheKey) (index : ChunkIndex) : Prop :=
  ∀ entry, held entry → key = ⟨entry.stream, entry.startSlot⟩ →
    parseChunkIndex reader.codecs (reader.idxFile entry) = .ok index

/-- Chunks that a stream and a start slot tell apart. -/
def Distinguished (held : ChunkEntry → Prop) : Prop :=
  ∀ entry other, held entry → held other → entry.stream = other.stream →
    entry.startSlot = other.startSlot → entry = other

variable {reader}
variable {held : ChunkEntry → Prop} {catalog : ChunkCatalog} {parsed : SubscriptionFilters}

/-- An index that was parsed can be parsed. -/
theorem parses_of_ok {entry : ChunkEntry} {index : ChunkIndex}
    (ok : parseChunkIndex reader.codecs (reader.idxFile entry) = .ok index) :
    reader.Parses entry := by
  simp [Parses, indexOf, ok, Except.toOption]

/-- What a chunk's file parses to agrees with the key of the chunk. -/
theorem indexAgrees_of_ok (distinguished : Distinguished held) {entry : ChunkEntry}
    (isHeld : held entry) {index : ChunkIndex}
    (ok : parseChunkIndex reader.codecs (reader.idxFile entry) = .ok index) :
    reader.IndexAgrees held ⟨entry.stream, entry.startSlot⟩ index := by
  intro other among same
  obtain ⟨stream, start⟩ := IndexCacheKey.mk.inj same
  exact distinguished entry other isHeld among stream start ▸ ok

/-- An access that succeeds returns what the chunk's file parses to. -/
theorem getOrParse_inv (distinguished : Distinguished held) {cache after : IndexCache}
    (agrees : cache.Holds (reader.IndexAgrees held)) {entry : ChunkEntry} (isHeld : held entry)
    {index : ChunkIndex}
    (returned : reader.getOrParse cache ⟨entry.stream, entry.startSlot⟩ (reader.idxFile entry) =
      .ok (index, after)) :
    reader.Parses entry ∧ index = reader.indexOf entry ∧
      after.Holds (reader.IndexAgrees held) := by
  obtain ⟨related, agrees'⟩ := Lru.holds_getOrLoad reader.indexHeapBytes reader.indexBudgetBytes
    agrees (fun fresh loaded => indexAgrees_of_ok distinguished isHeld loaded) returned
  have ok := related entry isHeld rfl
  have parses := parses_of_ok ok
  exact ⟨parses, Except.ok.inj (ok.symm.trans parses), agrees'⟩

/-- A chunk that can be parsed is found through a cache that agrees. -/
theorem getOrParse_ok (distinguished : Distinguished held) {cache : IndexCache}
    (agrees : cache.Holds (reader.IndexAgrees held)) {entry : ChunkEntry} (isHeld : held entry)
    (parses : reader.Parses entry) :
    ∃ after, reader.getOrParse cache ⟨entry.stream, entry.startSlot⟩ (reader.idxFile entry) =
      .ok (reader.indexOf entry, after) ∧ after.Holds (reader.IndexAgrees held) := by
  obtain ⟨value, after, returned⟩ := @Lru.getOrLoad_ok _ _ _ _ cache reader.indexHeapBytes
    reader.indexBudgetBytes ⟨entry.stream, entry.startSlot⟩ _ _ parses
  obtain ⟨-, rfl, agrees'⟩ := getOrParse_inv distinguished agrees isHeld returned
  exact ⟨after, returned, agrees'⟩

/-- The plan of a chunk. -/
def planOf (reader : Reader) (parsed : SubscriptionFilters) (entry : ChunkEntry) : ChunkPlan :=
  reader.chunkPlan parsed entry.stream entry (reader.indexOf entry)

/-- Planning chunks succeeds exactly when all can be parsed, and yields their plans. -/
theorem planEntries_inv (parsed : SubscriptionFilters) (distinguished : Distinguished held)
    (stream : Stream) (entries : List ChunkEntry)
    (inStream : ∀ entry ∈ entries, entry.stream = stream ∧ held entry) {cache : IndexCache}
    (agrees : cache.Holds (reader.IndexAgrees held)) {plans : List ChunkPlan}
    {after : IndexCache}
    (planned : reader.planEntries parsed stream entries cache = .ok (plans, after)) :
    (∀ entry ∈ entries, reader.Parses entry) ∧ plans = entries.map (reader.planOf parsed) ∧
      after.Holds (reader.IndexAgrees held) := by
  induction entries generalizing cache plans with
  | nil =>
    obtain ⟨rfl, rfl⟩ := Prod.mk.inj (Except.ok.inj planned)
    exact ⟨by simp, rfl, agrees⟩
  | cons entry rest inductionHypothesis =>
    obtain ⟨rfl, isHeld⟩ := inStream entry List.mem_cons_self
    simp only [planEntries, bind, Except.bind] at planned
    cases returned : reader.getOrParse cache ⟨entry.stream, entry.startSlot⟩
        (reader.idxFile entry) with
    | error error => simp [returned] at planned
    | ok found =>
      obtain ⟨index, cache₁⟩ := found
      obtain ⟨parses, rfl, agrees₁⟩ := getOrParse_inv distinguished agrees isHeld returned
      rw [returned] at planned
      dsimp only at planned
      cases rested : reader.planEntries parsed entry.stream rest cache₁ with
      | error error => simp [rested] at planned
      | ok later =>
        obtain ⟨plans', after'⟩ := later
        rw [rested] at planned
        obtain ⟨rfl, rfl⟩ := Prod.mk.inj (Except.ok.inj planned)
        obtain ⟨parses', rfl, agrees'⟩ := inductionHypothesis
          (fun other member => inStream other (List.mem_cons_of_mem _ member)) agrees₁ rested
        exact ⟨List.forall_mem_cons.mpr ⟨parses, parses'⟩, rfl, agrees'⟩

/-- Planning the chunks of a stream succeeds if their indexes can be parsed. -/
theorem planEntries_ok (parsed : SubscriptionFilters) (distinguished : Distinguished held)
    (stream : Stream) (entries : List ChunkEntry)
    (inStream : ∀ entry ∈ entries, entry.stream = stream ∧ held entry)
    (parses : ∀ entry ∈ entries, reader.Parses entry) {cache : IndexCache}
    (agrees : cache.Holds (reader.IndexAgrees held)) :
    ∃ plans after, reader.planEntries parsed stream entries cache = .ok (plans, after) := by
  induction entries generalizing cache with
  | nil => exact ⟨[], cache, rfl⟩
  | cons entry rest inductionHypothesis =>
    obtain ⟨rfl, isHeld⟩ := inStream entry List.mem_cons_self
    obtain ⟨parsesFirst, parsesRest⟩ := List.forall_mem_cons.mp parses
    obtain ⟨cache₁, returned, agrees₁⟩ := getOrParse_ok distinguished agrees isHeld parsesFirst
    obtain ⟨plans, after, rested⟩ := inductionHypothesis
      (fun other member => inStream other (List.mem_cons_of_mem _ member)) parsesRest agrees₁
    exact ⟨_, after, by simp [planEntries, returned, rested, bind, Except.bind]; rfl⟩

/-- The chunks of a range are held, and are of their stream. -/
theorem inRange_held (holds : ∀ entry, catalog.Holds entry → held entry) (stream : Stream)
    (fromSlot toSlotExclusive : Nat) :
    ∀ entry ∈ catalog.chunksInRange stream fromSlot toSlotExclusive,
      entry.stream = stream ∧ held entry := by
  intro entry member
  obtain ⟨same, isHeld, -⟩ := ChunkCatalog.mem_chunksInRange.mp member
  exact ⟨same, holds entry isHeld⟩

/-- What the plans of a list of distinct streams are, when they are made. -/
theorem planStreams_inv (parsed : SubscriptionFilters) (distinguished : Distinguished held)
    (holds : ∀ entry, catalog.Holds entry → held entry) (fromSlot toSlotExclusive : Nat)
    (streams : List Stream) (distinct : streams.Nodup) {cache : IndexCache}
    (agrees : cache.Holds (reader.IndexAgrees held)) {plans : Stream → List ChunkPlan}
    {after : IndexCache}
    (planned : reader.planStreams catalog parsed fromSlot toSlotExclusive streams cache =
      .ok (plans, after)) :
    (∀ stream ∈ streams, parsed.hasStream stream = true →
      ∀ entry ∈ catalog.chunksInRange stream fromSlot toSlotExclusive, reader.Parses entry) ∧
    (∀ stream, plans stream = if stream ∈ streams ∧ parsed.hasStream stream = true then
      (catalog.chunksInRange stream fromSlot toSlotExclusive).map (reader.planOf parsed)
        else []) ∧
    after.Holds (reader.IndexAgrees held) := by
  induction streams generalizing cache plans with
  | nil =>
    obtain ⟨rfl, rfl⟩ := Prod.mk.inj (Except.ok.inj planned)
    exact ⟨by simp, by simp, agrees⟩
  | cons stream rest inductionHypothesis =>
    obtain ⟨fresh, distinctRest⟩ := List.nodup_cons.mp distinct
    by_cases subscribed : parsed.hasStream stream = true
    · simp only [planStreams, subscribed, if_true, bind, Except.bind] at planned
      cases own : reader.planEntries parsed stream
          (catalog.chunksInRange stream fromSlot toSlotExclusive) cache with
      | error error => simp [own] at planned
      | ok made =>
        obtain ⟨ownPlans, cache₁⟩ := made
        obtain ⟨parses, rfl, agrees₁⟩ := planEntries_inv parsed distinguished stream _
          (inRange_held holds stream fromSlot toSlotExclusive) agrees own
        rw [own] at planned
        dsimp only at planned
        cases rested : reader.planStreams catalog parsed fromSlot toSlotExclusive rest cache₁ with
        | error error => simp [rested] at planned
        | ok later =>
          obtain ⟨laterPlans, after'⟩ := later
          rw [rested] at planned
          obtain ⟨rfl, rfl⟩ := Prod.mk.inj (Except.ok.inj planned)
          obtain ⟨parses', plansOf, agrees'⟩ := inductionHypothesis distinctRest agrees₁ rested
          refine ⟨?_, fun other => ?_, agrees'⟩
          · exact List.forall_mem_cons.mpr ⟨fun _ => parses, parses'⟩
          · by_cases same : other = stream
            · subst same
              simp [subscribed]
            · simp [plansOf other, same]
    · simp only [planStreams, if_neg subscribed] at planned
      obtain ⟨parses', plansOf, agrees'⟩ := inductionHypothesis distinctRest agrees planned
      refine ⟨List.forall_mem_cons.mpr ⟨fun asked => absurd asked subscribed, parses'⟩,
        fun other => ?_, agrees'⟩
      by_cases same : other = stream
      · subst same
        simp [plansOf, fresh, subscribed]
      · simp [plansOf, same]

/-- Planning succeeds if the indexes of all chunks in range can be parsed. -/
theorem planStreams_ok (parsed : SubscriptionFilters) (distinguished : Distinguished held)
    (holds : ∀ entry, catalog.Holds entry → held entry) (fromSlot toSlotExclusive : Nat)
    (streams : List Stream) (parses : ∀ stream ∈ streams, parsed.hasStream stream = true →
      ∀ entry ∈ catalog.chunksInRange stream fromSlot toSlotExclusive, reader.Parses entry)
    {cache : IndexCache} (agrees : cache.Holds (reader.IndexAgrees held)) :
    ∃ plans after, reader.planStreams catalog parsed fromSlot toSlotExclusive streams cache =
      .ok (plans, after) := by
  induction streams generalizing cache with
  | nil => exact ⟨fun _ => [], cache, rfl⟩
  | cons stream rest inductionHypothesis =>
    obtain ⟨parsesFirst, parsesRest⟩ := List.forall_mem_cons.mp parses
    by_cases subscribed : parsed.hasStream stream = true
    · have here := inRange_held holds stream fromSlot toSlotExclusive
      obtain ⟨own, cache₁, made⟩ := planEntries_ok parsed distinguished stream _ here
        (parsesFirst subscribed) agrees
      obtain ⟨-, -, agrees₁⟩ := planEntries_inv parsed distinguished stream _ here agrees made
      obtain ⟨plans, after, rested⟩ := inductionHypothesis parsesRest agrees₁
      exact ⟨Function.update plans stream own, after, by
        simp [planStreams, subscribed, made, rested, bind, Except.bind]⟩
    · obtain ⟨plans, after, rested⟩ := inductionHypothesis parsesRest agrees
      exact ⟨plans, after, by simp [planStreams, subscribed, rested]⟩

/-- What an accepted plan covers: for every subscribed stream the chunks that overlap its
range, all of them parsed. -/
structure Covers (reader : Reader) (catalog : ChunkCatalog) (parsed : SubscriptionFilters)
    (explicit : Option Nat) (plan : ReplayPlan) : Prop where
  start : ∃ first, firstAvailable catalog parsed = some first ∧
    first ≤ explicit.getD first ∧ plan.fromSlot = explicit.getD first
  stop : plan.toSlotExclusive = catalog.newestEndSlot.getD 0
  parses : ∀ stream, parsed.hasStream stream = true →
    ∀ entry ∈ catalog.chunksInRange stream plan.fromSlot plan.toSlotExclusive, reader.Parses entry
  plans : ∀ stream, plan.plansPerStream stream = if parsed.hasStream stream = true then
    (catalog.chunksInRange stream plan.fromSlot plan.toSlotExclusive).map (reader.planOf parsed)
      else []

/-- The start of a plan is the requested slot, if that is not below the floor. -/
theorem startSlot_ok {first start : Nat} {explicit : Option Nat} :
    startSlot first explicit = .ok start ↔ first ≤ explicit.getD first ∧
      start = explicit.getD first := by
  cases explicit with
  | none => simp [startSlot, eq_comm]
  | some requested =>
    by_cases old : requested < first
    · simp [startSlot, old, not_le.mpr old]
    · simp [startSlot, old, not_lt.mp old, eq_comm]

/-- An accepted plan covers its range. -/
theorem planReplay_inv (distinguished : Distinguished held)
    (holds : ∀ entry, catalog.Holds entry → held entry) {cache after : IndexCache}
    (agrees : cache.Holds (reader.IndexAgrees held)) {explicit : Option Nat} {plan : ReplayPlan}
    (accepted : reader.planReplay catalog parsed cache explicit = .ok (plan, after)) :
    Covers reader catalog parsed explicit plan ∧ after.Holds (reader.IndexAgrees held) := by
  cases available : firstAvailable catalog parsed with
  | none => simp [planReplay, available] at accepted
  | some first =>
    simp only [planReplay, available, bind, Except.bind] at accepted
    cases started : startSlot first explicit with
    | error error => simp [started] at accepted
    | ok fromSlot =>
      rw [started] at accepted
      dsimp only at accepted
      cases planned : reader.planStreams catalog parsed fromSlot (catalog.newestEndSlot.getD 0)
          Stream.all cache with
      | error error => simp [planned] at accepted
      | ok made =>
        obtain ⟨plans, cache'⟩ := made
        rw [planned] at accepted
        obtain ⟨rfl, rfl⟩ := Prod.mk.inj (Except.ok.inj accepted)
        obtain ⟨parses, plansOf, agrees'⟩ := planStreams_inv parsed distinguished holds fromSlot _
          Stream.all (by decide) agrees planned
        exact ⟨⟨⟨first, available, startSlot_ok.mp started⟩, rfl,
          fun stream => parses stream (Stream.mem_all stream), fun stream => by
            simp [plansOf, Stream.mem_all]⟩, agrees'⟩

/-- A plan is accepted when the requested slot is not below the floor and the chunks in
range can be parsed. -/
theorem planReplay_ok (distinguished : Distinguished held)
    (holds : ∀ entry, catalog.Holds entry → held entry) {cache : IndexCache}
    (agrees : cache.Holds (reader.IndexAgrees held)) {explicit : Option Nat} {first : Nat}
    (available : firstAvailable catalog parsed = some first)
    (young : first ≤ explicit.getD first)
    (parses : ∀ stream, parsed.hasStream stream = true →
      ∀ entry ∈ catalog.chunksInRange stream (explicit.getD first)
        (catalog.newestEndSlot.getD 0), reader.Parses entry) :
    ∃ plan after, reader.planReplay catalog parsed cache explicit = .ok (plan, after) := by
  obtain ⟨plans, after, planned⟩ := planStreams_ok parsed distinguished holds (explicit.getD first)
    (catalog.newestEndSlot.getD 0) Stream.all (fun stream _ => parses stream) agrees
  have started := startSlot_ok.mpr ⟨young, rfl⟩
  refine ⟨{ fromSlot := explicit.getD first
            toSlotExclusive := catalog.newestEndSlot.getD 0
            plansPerStream := plans }, after, ?_⟩
  simp only [planReplay, available, started, planned, bind, Except.bind]

end Reader

end Sillage
