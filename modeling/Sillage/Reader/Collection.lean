import Sillage.Reader.Merge

/-!
# Chunks and the messages they hold

A collection is a family of chunks together with the messages that were recorded in
them. A replay that is planned over chunks of a collection offers to its merge the
messages that satisfy one of the subscription's filters, chunk after chunk in recording
order, each under the names of the filters it satisfies.
-/

namespace Sillage

open LittleEndian Chunk KWayMerge

namespace SubscriptionFilters

variable (k : Codecs) (parsed : SubscriptionFilters) (stream : Stream)

/-- One of the stream's filters is satisfied. -/
def selects (update : SubscribeUpdate) : Bool :=
  (parsed.named stream).any (fun filter => Filter.satisfies k filter.2 update)

/-- The names of the satisfied ones of the stream's filters. -/
def satisfiedNames (update : SubscribeUpdate) : List String :=
  ((parsed.named stream).filter (fun filter => Filter.satisfies k filter.2 update)).map Prod.fst

end SubscriptionFilters

/-- A family of chunks with the messages recorded in each. An index that can be parsed
indexes the messages, and the payload decodes to them. -/
structure Collection (reader : Reader) where
  held : ChunkEntry → Prop
  messages : ChunkEntry → List SubscribeUpdate
  distinguished : Reader.Distinguished held
  ranged : ∀ entry, held entry → entry.startSlot < entry.endSlotExclusive
  inRange : ∀ entry, held entry → ∀ update ∈ messages entry, ∃ slot,
    extractSlot update = some slot ∧ entry.startSlot ≤ slot ∧ slot < entry.endSlotExclusive
  few : ∀ entry, held entry → (messages entry).length < u32Bound
  indexed : ∀ entry index, held entry →
    parseChunkIndex reader.codecs (reader.idxFile entry) = .ok index →
    Filter.Indexes reader.codecs entry.stream (messages entry) index
  decodes : ∀ entry, held entry → ∃ chunk,
    decodeChunk reader.codecs (reader.zstFile entry) = .ok chunk ∧
      ∀ ordinal update, (messages entry)[ordinal]? = some update →
        chunk.decodeMessage reader.codecs ordinal = .ok update

namespace Collection

variable {reader : Reader} (collection : Collection reader) (parsed : SubscriptionFilters)

/-- A recorded message as a cursor shows it. -/
def peeked (entry : ChunkEntry) (item : SubscribeUpdate × Nat) : Peeked where
  slot := (extractSlot item.1).getD 0
  update := item.1
  names := parsed.satisfiedNames reader.codecs entry.stream item.1
  recvNs := extractRecvNs item.1 entry.meta item.2
  origin := ⟨entry.stream, entry.startSlot, item.2⟩

/-- The messages of a chunk that are subscribed to. -/
def selected (entry : ChunkEntry) : List Peeked :=
  ((collection.messages entry).zipIdx.filter
    (fun item => parsed.selects reader.codecs entry.stream item.1)).map
      (@peeked reader parsed entry)

/-- The messages of a catalog's chunks that are subscribed to, from a slot on. -/
def due (catalog : ChunkCatalog) (fromSlot : Nat) (stream : Stream) : List Peeked :=
  ((((catalog.streams stream).toList.map Prod.snd).flatMap (collection.selected parsed))).filter
    (fun item => fromSlot ≤ item.slot)

variable {collection parsed}

/-- A chunk is planned with the ordinals that some filter of its stream resolves to. -/
theorem mem_union {entry : ChunkEntry} {index : ChunkIndex} {ord : Nat} :
    ord ∈ (reader.chunkPlan parsed entry.stream entry index).union ↔
      ∃ filter ∈ parsed.named entry.stream, ord ∈ Filter.resolve reader.codecs index filter.2 := by
  have general : ∀ (bitmaps : List (String × Idx.RoaringBitmap)) (union : Idx.RoaringBitmap),
      ord ∈ bitmaps.foldl (fun union named => union ∪ named.2) union ↔
        ord ∈ union ∨ ∃ named ∈ bitmaps, ord ∈ named.2 := by
    intro bitmaps
    induction bitmaps with
    | nil => simp
    | cons named rest inductionHypothesis =>
      intro union
      simp only [List.foldl_cons, inductionHypothesis, Finset.mem_union, List.exists_mem_cons_iff,
        or_assoc]
  simp [Reader.chunkPlan, general]

/-- A message of a chunk is in the union of its plan when a filter selects it. -/
theorem mem_union_planOf {entry : ChunkEntry} (isHeld : collection.held entry)
    (parses : reader.Parses entry) {ord : Nat} :
    ord ∈ (reader.planOf parsed entry).union ↔ ∃ update,
      (collection.messages entry)[ord]? = some update ∧
        parsed.selects reader.codecs entry.stream update = true := by
  have exact := fun filter => Filter.exact_resolve
    (collection.indexed entry _ isHeld parses) (collection.few entry isHeld) filter ord
  rw [Reader.planOf, mem_union]
  simp only [exact, SubscriptionFilters.selects, List.any_eq_true]
  constructor
  · rintro ⟨filter, member, update, stored, holds⟩
    exact ⟨update, stored, filter, member, holds⟩
  · rintro ⟨update, stored, filter, member, holds⟩
    exact ⟨filter, member, update, stored, holds⟩

/-- The names of a message in its plan are those of the satisfied filters. -/
theorem peekedAt_planOf {entry : ChunkEntry} (isHeld : collection.held entry)
    (parses : reader.Parses entry) {ord : Nat} {update : SubscribeUpdate}
    (stored : (collection.messages entry)[ord]? = some update) :
    peekedAt (reader.planOf parsed entry) ord update =
      @peeked reader parsed entry (update, ord) := by
  have exact : ∀ filter : StreamFilter entry.stream,
      ord ∈ Filter.resolve reader.codecs (reader.indexOf entry) filter ↔
      Filter.satisfies reader.codecs filter update = true := by
    intro filter
    have resolved := Filter.exact_resolve (collection.indexed entry _ isHeld parses)
      (collection.few entry isHeld) filter ord
    rw [resolved, stored]
    simp
  simp only [peekedAt, peeked, Reader.planOf, Reader.chunkPlan, List.filter_map, List.map_map,
    SubscriptionFilters.satisfiedNames]
  congr 1
  refine congrArg₂ List.map rfl (List.filter_congr (fun filter _ => ?_))
  simp [exact]

/-- The ordinals of a plan are those of the selected messages. -/
theorem ordinals_planOf {entry : ChunkEntry} (isHeld : collection.held entry)
    (parses : reader.Parses entry) :
    Idx.ordinals (reader.planOf parsed entry).union =
      ((collection.messages entry).zipIdx.filter
        (fun item => parsed.selects reader.codecs entry.stream item.1)).map Prod.snd := by
  have ascending : (((collection.messages entry).zipIdx.filter
      (fun item => parsed.selects reader.codecs entry.stream item.1)).map Prod.snd).Pairwise
        (· < ·) := by
    refine List.Pairwise.sublist (List.filter_sublist.map _) ?_
    rw [List.zipIdx_map_snd]
    exact List.pairwise_lt_range'
  refine List.Perm.eq_of_pairwise (fun a b _ _ less greater => absurd less greater.asymm)
    (Idx.ordinals_ascending _) ascending ?_
  refine (List.perm_ext_iff_of_nodup (Idx.ordinals_nodup _) (ascending.imp Nat.ne_of_lt)).mpr ?_
  intro ord
  rw [Idx.mem_ordinals, mem_union_planOf isHeld parses]
  simp only [List.mem_map, List.mem_filter, Prod.exists, exists_eq_right,
    List.mem_zipIdx_iff_getElem?]

/-- A plan offers the selected messages of its chunk. -/
theorem planItems_planOf {entry : ChunkEntry} (isHeld : collection.held entry)
    (parses : reader.Parses entry) :
    planItems reader (reader.planOf parsed entry) = collection.selected parsed entry := by
  obtain ⟨chunk, decoded, messages⟩ := collection.decodes entry isHeld
  have decoded' : decodeChunk reader.codecs (reader.zstFile (reader.planOf parsed entry).entry) =
      .ok chunk := decoded
  simp only [planItems, decoded']
  rw [ordinals_planOf isHeld parses, List.filterMap_map, selected, ← List.filterMap_eq_map]
  refine List.filterMap_congr (fun item member => ?_)
  have stored := List.mem_zipIdx_iff_getElem?.mp (List.mem_filter.mp member).1
  simp only [Function.comp_apply, itemAt, messages _ _ stored, Except.toOption, Option.map_some,
    peekedAt_planOf isHeld parses stored]

/-- A plan's chunk decodes to messages at all its ordinals. -/
theorem decodes_planOf {entry : ChunkEntry} (isHeld : collection.held entry)
    (parses : reader.Parses entry) :
    ∃ chunk, Decodes reader (reader.planOf parsed entry) chunk := by
  obtain ⟨chunk, decoded, messages⟩ := collection.decodes entry isHeld
  refine ⟨chunk, decoded, fun ord member => ?_⟩
  obtain ⟨update, stored, -⟩ := (mem_union_planOf isHeld parses).mp member
  exact ⟨update, messages ord update stored⟩

/-- The plans of the chunks of a collection that can be parsed. -/
def PlansOf (collection : Collection reader) (parsed : SubscriptionFilters) (plan : ChunkPlan) :
    Prop :=
  ∃ entry, collection.held entry ∧ reader.Parses entry ∧ plan = reader.planOf parsed entry

/-- Plans of one chunk are of one file. -/
theorem oneFile : OneFile reader (collection.PlansOf parsed) := by
  rintro _ _ ⟨entry, isHeld, -, rfl⟩ ⟨other, otherHeld, -, rfl⟩ stream start
  rw [collection.distinguished entry other isHeld otherHeld stream start]

/-- A selected message is one of the chunk that some filter of its stream selects. -/
theorem mem_selected {entry : ChunkEntry} {item : Peeked} :
    item ∈ collection.selected parsed entry ↔ ∃ update ord,
      (collection.messages entry)[ord]? = some update ∧
        parsed.selects reader.codecs entry.stream update = true ∧
        item = @peeked reader parsed entry (update, ord) := by
  simp only [selected, List.mem_map, List.mem_filter, Prod.exists, List.mem_zipIdx_iff_getElem?,
    and_assoc, eq_comm]

/-- What the selected messages of a chunk from a slot on are sent as. -/
theorem selected_updates (entry : ChunkEntry) (fromSlot : Nat) :
    ((collection.selected parsed entry).filter (fun item => fromSlot ≤ item.slot)).map
        (fun item => (Replay.handed item).update) =
      ((collection.messages entry).filter (fun update =>
        fromSlot ≤ (extractSlot update).getD 0 ∧
          parsed.selects reader.codecs entry.stream update = true)).map
        (fun update => setFilters update
          (parsed.satisfiedNames reader.codecs entry.stream update)) := by
  have undecorated := (List.zipIdx_map_fst 0 (collection.messages entry)).symm
  rw [undecorated, List.filter_map, List.map_map, selected, List.filter_map, List.map_map,
    List.filter_filter]
  refine congrArg₂ List.map rfl (List.filter_congr (fun item _ => ?_))
  simp only [Function.comp_apply, peeked, Bool.decide_and, Bool.decide_eq_true]
  rfl

/-- The slot of a selected message lies in its chunk's range. -/
theorem slot_selected {entry : ChunkEntry} (isHeld : collection.held entry) {item : Peeked}
    (member : item ∈ collection.selected parsed entry) :
    entry.startSlot ≤ item.slot ∧ item.slot < entry.endSlotExclusive := by
  obtain ⟨update, ord, stored, -, rfl⟩ := mem_selected.mp member
  obtain ⟨slot, isSlot, above, below⟩ :=
    collection.inRange entry isHeld update (List.mem_of_getElem? stored)
  simp [peeked, isSlot, above, below]

variable {catalog : ChunkCatalog}

/-- What is due of a stream are the selected messages of its chunks, from a slot on. -/
theorem mem_due {fromSlot : Nat} {stream : Stream} {item : Peeked} :
    item ∈ collection.due parsed catalog fromSlot stream ↔ ∃ entry, catalog.Holds entry ∧
      entry.stream = stream ∧ item ∈ collection.selected parsed entry ∧ fromSlot ≤ item.slot := by
  simp only [due, List.mem_filter, List.mem_flatMap, List.mem_map, decide_eq_true_eq]
  constructor
  · rintro ⟨⟨entry, ⟨_, listed, rfl⟩, member⟩, above⟩
    obtain ⟨-, inStream, isHeld⟩ := ChunkCatalog.mem_toList.mp listed
    exact ⟨_, isHeld, inStream, member, above⟩
  · rintro ⟨entry, isHeld, inStream, member, above⟩
    exact ⟨⟨entry, ⟨⟨entry.startSlot, entry⟩, ChunkCatalog.mem_toList.mpr
      ⟨rfl, inStream, isHeld⟩, rfl⟩, member⟩, above⟩

/-- Skipping items that contribute nothing. -/
theorem flatMap_filter_of_nil {α β : Type} (p : α → Bool) (f : α → List β) (items : List α)
    (nothing : ∀ x ∈ items, p x = false → f x = []) :
    (items.filter p).flatMap f = items.flatMap f := by
  induction items with
  | nil => rfl
  | cons x rest inductionHypothesis =>
    obtain ⟨here, later⟩ := List.forall_mem_cons.mp nothing
    cases kept : p x with
    | true => simp [kept, inductionHypothesis later]
    | false => simp [kept, inductionHypothesis later, here kept]

/-- What a plan offers from its slot on is what is due of the catalog: chunks outside its
range hold nothing from that slot on. -/
theorem offered_due (holds : ∀ entry, catalog.Holds entry → collection.held entry)
    {explicit : Option Nat} {plan : ReplayPlan}
    (covers : Reader.Covers reader catalog parsed explicit plan) (stream : Stream) :
    (Replay.offered reader plan stream).filter (fun item => plan.fromSlot ≤ item.slot) =
      collection.due parsed catalog plan.fromSlot stream := by
  have ranged : catalog.Ranged := fun entry isHeld => collection.ranged entry (holds entry isHeld)
  by_cases subscribed : parsed.hasStream stream = true
  · have items : Replay.offered reader plan stream =
        (catalog.chunksInRange stream plan.fromSlot plan.toSlotExclusive).flatMap
          (collection.selected parsed) := by
      rw [Replay.offered, covers.plans, if_pos subscribed, streamItems, List.flatMap_map]
      refine List.flatMap_congr (fun entry member => ?_)
      obtain ⟨-, isHeld, -⟩ := ChunkCatalog.mem_chunksInRange.mp member
      exact planItems_planOf (holds entry isHeld) (covers.parses stream subscribed entry member)
    rw [items, due, List.filter_flatMap, List.filter_flatMap, ChunkCatalog.chunksInRange,
      List.flatMap_map, List.flatMap_map, List.filter_filter]
    refine flatMap_filter_of_nil _ _ _ (fun listed member outside => ?_)
    obtain ⟨start, inStream, isHeld⟩ := ChunkCatalog.mem_toList.mp member
    have below := ChunkCatalog.start_below_newest ranged isHeld
    rw [← covers.stop] at below
    refine List.filter_eq_nil_iff.mpr (fun item chosen above => ?_)
    have limit := (slot_selected (holds _ isHeld) chosen).2
    simp only [decide_eq_true_eq] at above
    simp only [start, below, decide_true, Bool.and_true, decide_eq_false_iff_not] at outside
    omega
  · rw [Replay.offered, covers.plans, if_neg subscribed, due]
    have unnamed := (parsed.named_eq_nil stream).mpr (by simpa using subscribed)
    symm
    refine List.filter_eq_nil_iff.mpr (fun item member => ?_)
    obtain ⟨entry, listed, chosen⟩ := List.mem_flatMap.mp member
    obtain ⟨_, isListed, rfl⟩ := List.mem_map.mp listed
    obtain ⟨-, rfl, -⟩ := ChunkCatalog.mem_toList.mp isListed
    obtain ⟨update, ord, -, selects, -⟩ := mem_selected.mp chosen
    simp [SubscriptionFilters.selects, unnamed] at selects

/-- The origins of a chunk's selected messages differ. -/
theorem selected_nodup (entry : ChunkEntry) :
    ((collection.selected parsed entry).map Peeked.origin).Nodup := by
  have ordinals : (((collection.messages entry).zipIdx.filter
      (fun item => parsed.selects reader.codecs entry.stream item.1)).map Prod.snd).Nodup := by
    refine List.Nodup.sublist (List.filter_sublist.map _) ?_
    rw [List.zipIdx_map_snd]
    exact List.nodup_range'
  have origins := ordinals.map (f := fun ord => Origin.mk entry.stream entry.startSlot ord)
    (fun first second same => (Origin.mk.inj same).2.2)
  rw [List.map_map] at origins
  rw [selected, List.map_map]
  exact origins

/-- The origins of a stream's due messages differ. -/
theorem due_nodup (catalog : ChunkCatalog) (fromSlot : Nat) (stream : Stream) :
    ((collection.due parsed catalog fromSlot stream).map Peeked.origin).Nodup := by
  refine List.Nodup.sublist (List.filter_sublist.map _) ?_
  rw [List.map_flatMap, List.nodup_flatMap]
  refine ⟨fun entry _ => selected_nodup entry, ?_⟩
  rw [List.pairwise_map]
  refine (ChunkCatalog.toList_ascending catalog stream).imp (fun less => ?_)
  rintro origin first second
  obtain ⟨item, chosen, rfl⟩ := List.mem_map.mp first
  obtain ⟨item', chosen', same⟩ := List.mem_map.mp second
  obtain ⟨update, ord, -, -, rfl⟩ := mem_selected.mp chosen
  obtain ⟨update', ord', -, -, rfl⟩ := mem_selected.mp chosen'
  exact absurd (Origin.mk.inj same).2.1 less.ne'

/-- A due message comes from its stream. -/
theorem due_stream {fromSlot : Nat} {stream : Stream} {item : Peeked}
    (member : item ∈ collection.due parsed catalog fromSlot stream) :
    item.origin.stream = stream := by
  obtain ⟨entry, -, rfl, chosen, -⟩ := mem_due.mp member
  obtain ⟨update, ord, -, -, rfl⟩ := mem_selected.mp chosen
  rfl

/-- The messages of every chunk were recorded in slot order. -/
def InOrder (collection : Collection reader) : Prop :=
  ∀ entry, collection.held entry → (collection.messages entry).Pairwise
    (fun first second => (extractSlot first).getD 0 ≤ (extractSlot second).getD 0)

/-- The chunks of a stream do not overlap. -/
def Apart (collection : Collection reader) : Prop :=
  ∀ entry other, collection.held entry → collection.held other → entry.stream = other.stream →
    entry.startSlot < other.startSlot → entry.endSlotExclusive ≤ other.startSlot

/-- Chunks that were recorded in slot order and do not overlap have their messages due in
slot order. -/
theorem due_sorted (inOrder : collection.InOrder) (apart : collection.Apart)
    (holds : ∀ entry, catalog.Holds entry → collection.held entry) (fromSlot : Nat)
    (stream : Stream) : (collection.due parsed catalog fromSlot stream).Pairwise
      (fun first second => first.slot ≤ second.slot) := by
  refine List.Pairwise.filter _ (List.pairwise_flatMap.mpr ⟨fun entry listed => ?_, ?_⟩)
  · obtain ⟨_, isListed, rfl⟩ := List.mem_map.mp listed
    obtain ⟨-, -, isHeld⟩ := ChunkCatalog.mem_toList.mp isListed
    have ordered := inOrder _ (holds _ isHeld)
    rw [← List.zipIdx_map_fst 0 (collection.messages _), List.pairwise_map] at ordered
    rw [selected, List.pairwise_map]
    exact ordered.filter _
  · rw [List.pairwise_map]
    refine (ChunkCatalog.toList_ascending catalog stream).imp_of_mem
      (fun {first second} isFirst isSecond less item member item' member' => ?_)
    obtain ⟨-, inStream, isHeld⟩ := ChunkCatalog.mem_toList.mp isFirst
    obtain ⟨-, inStream', isHeld'⟩ := ChunkCatalog.mem_toList.mp isSecond
    have bound := apart _ _ (holds _ isHeld) (holds _ isHeld') (inStream.trans inStream'.symm) less
    have below := (slot_selected (holds _ isHeld) member).2
    have above := (slot_selected (holds _ isHeld') member').1
    omega

/-- An origin determines the selected message. -/
theorem selected_unique {entry other : ChunkEntry} (isHeld : collection.held entry)
    (otherHeld : collection.held other) {item item' : Peeked}
    (member : item ∈ collection.selected parsed entry)
    (member' : item' ∈ collection.selected parsed other) (same : item.origin = item'.origin) :
    entry = other ∧ item = item' := by
  obtain ⟨update, ord, stored, -, rfl⟩ := mem_selected.mp member
  obtain ⟨update', ord', stored', -, rfl⟩ := mem_selected.mp member'
  obtain ⟨stream, start, rfl⟩ := Origin.mk.inj same
  obtain rfl := collection.distinguished entry other isHeld otherHeld stream start
  obtain rfl := Option.some.inj (stored.symm.trans stored')
  exact ⟨rfl, rfl⟩

/-- What a replay over a catalog has sent: messages taken from the front of the merge of
what is due, all of them when it is drained. -/
structure Serves (collection : Collection reader) (parsed : SubscriptionFilters)
    (catalog : ChunkCatalog) (fromSlot : Nat) (outcome : Replay.Outcome)
    (whole taken : List (Stream × Peeked)) : Prop where
  merged : Merged Peeked.slot (collection.due parsed catalog fromSlot) whole
  front : taken <+: whole
  drained : outcome.stats.drained = true → taken = whole
  sent : outcome.sent = taken.map Replay.toSent
  lastSlot : outcome.stats.lastSlot = taken.getLast?.map (fun item => item.2.slot)

/-- The plans of an accepted replay are those of chunks of the collection. -/
theorem plansOf_has (holds : ∀ entry, catalog.Holds entry → collection.held entry)
    {explicit : Option Nat} {plan : ReplayPlan}
    (covers : Reader.Covers reader catalog parsed explicit plan) {chunkPlan : ChunkPlan}
    (has : Replay.Has plan chunkPlan) : collection.PlansOf parsed chunkPlan := by
  obtain ⟨stream, has⟩ := has
  rw [covers.plans] at has
  split at has
  · next subscribed =>
    obtain ⟨entry, member, rfl⟩ := List.mem_map.mp has
    obtain ⟨-, isHeld, -⟩ := ChunkCatalog.mem_chunksInRange.mp member
    exact ⟨entry, holds entry isHeld, covers.parses stream subscribed entry member, rfl⟩
  · cases has

/-- A replay of an accepted plan ends, and serves. -/
theorem replay_serves {plans : ChunkPlan → Prop} (oneFile : OneFile reader plans)
    (holds : ∀ entry, catalog.Holds entry → collection.held entry)
    {explicit : Option Nat} {plan : ReplayPlan}
    (covers : Reader.Covers reader catalog parsed explicit plan)
    (among : ∀ chunkPlan, Replay.Has plan chunkPlan → plans chunkPlan) {cache : ChunkCache}
    (agrees : cache.Holds (ChunkAgrees reader plans)) (env : Nat → Iteration) (pacer : Pacer) :
    ∃ outcome whole taken, Replay.driveReplay reader env plan cache pacer = .ok outcome ∧
      collection.Serves parsed catalog plan.fromSlot outcome whole taken ∧
      outcome.cache.Holds (ChunkAgrees reader plans) := by
  have decodable : ∀ chunkPlan, Replay.Has plan chunkPlan → chunkPlan.union ≠ ∅ →
      ∃ chunk, Decodes reader chunkPlan chunk := by
    intro chunkPlan has _
    obtain ⟨entry, isHeld, parses, rfl⟩ := plansOf_has holds covers has
    exact decodes_planOf isHeld parses
  obtain ⟨out, merged⟩ := exists_merged Peeked.slot (Replay.offered reader plan)
  obtain ⟨outcome, taken, done, delivers, agrees'⟩ :=
    Replay.driveReplay_delivers oneFile among decodable agrees env pacer merged
  have mergedDue := merged_filter plan.fromSlot merged
  rw [funext (offered_due holds covers)] at mergedDue
  exact ⟨outcome, Replay.fromOn plan.fromSlot out, taken, done, ⟨mergedDue, delivers.front,
    fun isDrained => delivers.whole (delivers.drained.mp isDrained), delivers.sent,
    delivers.lastSlot⟩, agrees'⟩

namespace Serves

variable {fromSlot : Nat} {outcome : Replay.Outcome} {whole taken : List (Stream × Peeked)}

/-- What is sent is due. -/
theorem due_of_mem (serves : collection.Serves parsed catalog fromSlot outcome whole taken)
    {item : Stream × Peeked} (member : item ∈ taken) :
    item.2 ∈ collection.due parsed catalog fromSlot item.1 :=
  (mem_merged serves.merged item).mp (serves.front.subset member)

/-- A drained replay has sent all that is due. -/
theorem mem_of_due (serves : collection.Serves parsed catalog fromSlot outcome whole taken)
    (isDrained : outcome.stats.drained = true) {stream : Stream} {item : Peeked}
    (isDue : item ∈ collection.due parsed catalog fromSlot stream) : (stream, item) ∈ taken := by
  rw [serves.drained isDrained]
  exact (mem_merged serves.merged (stream, item)).mpr isDue

/-- A replay sends no message twice. -/
theorem nodup (serves : collection.Serves parsed catalog fromSlot outcome whole taken) :
    (outcome.sent.map (fun sent => sent.2.origin)).Nodup := by
  have distinct : (whole.map (fun item => item.2.origin)).Nodup := merged_nodup serves.merged
    (due_nodup catalog fromSlot) (fun i j a b member member' same => by
      rw [← due_stream member, ← due_stream member', same])
  rw [serves.sent, List.map_map]
  exact distinct.sublist (serves.front.sublist.map _)

end Serves

end Collection

end Sillage
