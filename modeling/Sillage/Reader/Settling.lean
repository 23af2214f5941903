import Sillage.Reader.Accounting
import Sillage.Reader.Serving

/-!
# Following a catalog that no longer changes

A pass sends messages at or above its resume slot only, so that the slot it sends last is not
below that, and the next pass resumes behind it. The last slots of the passes that send
something are therefore distinct slots of stored messages, however the messages are ordered
in their chunks, and a follower of a catalog that stays as it is soon comes to a pass that
sends nothing.
-/

namespace Sillage

open LittleEndian Idx

/-- The slots of the messages of a decoded chunk. -/
def DecodedChunk.slots (k : Codecs) (chunk : DecodedChunk) : List Nat :=
  (List.range chunk.frames.length).filterMap (fun ord =>
    (chunk.decodeMessage k ord).toOption.map slotOf)

/-- The chunks of a catalog. -/
def ChunkCatalog.entries (catalog : ChunkCatalog) : List ChunkEntry :=
  Stream.all.flatMap (fun stream => (catalog.streams stream).toList.map Prod.snd)

/-- What is found for a chunk: what a cache has under its key, and what its file decodes to. -/
def contents (reader : Reader) (cache : ChunkCache) (entry : ChunkEntry) : List DecodedChunk :=
  (cache.map.lookup ⟨entry.stream, entry.startSlot⟩).toList ++
    (decodeChunk reader.codecs (reader.zstFile entry)).toOption.toList

/-- The slots of the stored messages of a catalog. -/
def storedSlots (reader : Reader) (catalog : ChunkCatalog) (cache : ChunkCache) : Finset Nat :=
  ((catalog.entries.flatMap (contents reader cache)).flatMap
    (DecodedChunk.slots reader.codecs)).toFinset

/-- What a cache has for a chunk of a catalog is what was found for it at first. -/
def FoundAtFirst (reader : Reader) (catalog : ChunkCatalog) (initial : ChunkCache) (key : CacheKey)
    (chunk : DecodedChunk) : Prop :=
  ∀ entry, catalog.Holds entry → key = ⟨entry.stream, entry.startSlot⟩ →
    chunk ∈ contents reader initial entry

variable {reader : Reader} {catalog : ChunkCatalog} {initial : ChunkCache}

/-- The slot of a decoded message is one of its chunk. -/
theorem DecodedChunk.mem_slots {k : Codecs} {chunk : DecodedChunk} {ord : Nat}
    {msg : SubscribeUpdate} (decoded : chunk.decodeMessage k ord = .ok msg) :
    slotOf msg ∈ chunk.slots k := by
  have inside : ord < chunk.frames.length := by
    by_contra outside
    have absent : chunk.frame ord = none := by
      rw [frame, List.getElem?_eq_none (Nat.le_of_not_lt outside), Option.map_none]
    rw [decodeMessage, absent] at decoded
    cases decoded
  refine List.mem_filterMap.mpr ⟨ord, List.mem_range.mpr inside, ?_⟩
  rw [decoded]
  rfl

/-- The entries of a catalog are the chunks that it holds. -/
theorem ChunkCatalog.mem_entries {entry : ChunkEntry} :
    entry ∈ catalog.entries ↔ catalog.Holds entry := by
  rw [entries, List.mem_flatMap]
  constructor
  · rintro ⟨stream, -, member⟩
    obtain ⟨item, listed, rfl⟩ := List.mem_map.mp member
    exact (mem_toList.mp listed).2.2
  · intro held
    refine ⟨entry.stream, Stream.mem_all _, List.mem_map.mpr ⟨(entry.startSlot, entry), ?_, rfl⟩⟩
    exact mem_toList.mpr ⟨rfl, rfl, held⟩

/-- A message of what is found for a chunk has a stored slot. -/
theorem mem_storedSlots {entry : ChunkEntry} (held : catalog.Holds entry) {chunk : DecodedChunk}
    (found : chunk ∈ contents reader initial entry) {slot : Nat}
    (among : slot ∈ chunk.slots reader.codecs) : slot ∈ storedSlots reader catalog initial := by
  refine List.mem_toFinset.mpr (List.mem_flatMap.mpr ⟨chunk, ?_, among⟩)
  exact List.mem_flatMap.mpr ⟨entry, ChunkCatalog.mem_entries.mpr held, found⟩

/-- At first a cache has what is found at first. -/
theorem foundAtFirst_initial : initial.Holds (FoundAtFirst reader catalog initial) := by
  rintro key chunk cached entry - rfl
  refine List.mem_append_left _ ?_
  rw [cached]
  exact List.mem_singleton_self chunk

/-- So has a cache that loads a chunk of the catalog. -/
theorem foundAtFirst_load {entry : ChunkEntry} (held : catalog.Holds entry) {chunk : DecodedChunk}
    (loaded : decodeChunk reader.codecs (reader.zstFile entry) = .ok chunk) :
    FoundAtFirst reader catalog initial ⟨entry.stream, entry.startSlot⟩ chunk := by
  intro other isHeld same
  obtain ⟨stream, start⟩ := CacheKey.mk.inj same
  obtain rfl : entry = other := by
    rw [ChunkCatalog.Holds, stream, start] at held
    exact Option.some.inj (held.symm.trans isHeld)
  refine List.mem_append_right _ ?_
  rw [loaded]
  exact List.mem_singleton_self chunk

/-! ## What a replay takes -/

namespace StreamCursor

/-- A cursor gives messages of chunks of a catalog only. -/
structure Lands (reader : Reader) (catalog : ChunkCatalog) (initial : ChunkCache)
    (cursor : StreamCursor) : Prop where
  plans : ∀ plan ∈ cursor.plans, plan.stream = plan.entry.stream ∧ catalog.Holds plan.entry
  opened : ∀ chunk, cursor.currentDecoded = some chunk →
    ∀ slot ∈ chunk.slots reader.codecs, slot ∈ storedSlots reader catalog initial
  head : ∀ item, cursor.peeked = some item → item.slot ∈ storedSlots reader catalog initial

variable {cursor cursor' : StreamCursor} {item : Option Peeked}

/-- A cursor at the front of its plans lands on stored slots. -/
theorem lands_new {plans : List ChunkPlan}
    (held : ∀ plan ∈ plans, plan.stream = plan.entry.stream ∧ catalog.Holds plan.entry) :
    (new plans).Lands reader catalog initial where
  plans := held
  opened chunk impossible := by cases impossible
  head item impossible := by cases impossible

/-- The next message of a chunk has one of its slots. -/
theorem decodeNext_lands {ord : Nat} {rest : List Nat}
    (lands : cursor.Lands reader catalog initial)
    (done : decodeNext reader cursor ord rest = .ok (item, cursor')) :
    cursor'.Lands reader catalog initial := by
  unfold decodeNext at done
  split at done
  · next chunk plan isOpen here =>
    split at done
    · cases done
    · next msg decoded =>
      cases done
      refine ⟨lands.plans, lands.opened, fun item shown => ?_⟩
      cases shown
      exact lands.opened chunk isOpen _ (DecodedChunk.mem_slots decoded)
  · cases done

/-- The first message of the next chunk has one of its slots, whether the chunk is decoded or
cached. -/
theorem openNext_lands {cache cache' : ChunkCache} (lands : cursor.Lands reader catalog initial)
    (holds : cache.Holds (FoundAtFirst reader catalog initial))
    (done : openNext reader cursor cache = .ok (item, cursor', cache')) :
    cursor'.Lands reader catalog initial ∧
      cache'.Holds (FoundAtFirst reader catalog initial) := by
  have opened := skipEmpty_spec reader cursor.plans cursor.planIdx _ rfl
  unfold openNext at done
  split at done
  · cases done
    exact ⟨⟨lands.plans, lands.opened, lands.head⟩, holds⟩
  · next plan after found =>
    rw [found] at opened
    obtain ⟨-, member, -⟩ := opened
    obtain ⟨sameStream, held⟩ := lands.plans plan (List.mem_of_mem_drop member)
    split at done
    · cases done
    · next chunk cache₁ accessed =>
      rw [sameStream] at accessed
      obtain ⟨known, holds₁⟩ := Lru.holds_getOrLoad DecodedChunk.heapBytes reader.chunkBudgetBytes
        holds (fun fresh loaded => foundAtFirst_load held loaded) accessed
      have lands₁ : Lands reader catalog initial { cursor with
          planIdx := after
          currentDecoded := some chunk
          currentOrds := some (ordinals plan.union) } := by
        refine ⟨lands.plans, fun other isOpen slot among => ?_, lands.head⟩
        cases isOpen
        exact mem_storedSlots held (known plan.entry held rfl) among
      split at done
      · simp only [bind, Except.bind] at done
        split at done
        · cases done
        · next made decodedNext =>
          cases done
          exact ⟨decodeNext_lands lands₁ decodedNext, holds₁⟩
      · cases done
        exact ⟨lands₁, holds₁⟩

/-- Peeking keeps a cursor on stored slots. -/
theorem peek_lands {cache cache' : ChunkCache} (lands : cursor.Lands reader catalog initial)
    (holds : cache.Holds (FoundAtFirst reader catalog initial))
    (done : cursor.peek reader cache = .ok (item, cursor', cache')) :
    cursor'.Lands reader catalog initial ∧
      cache'.Holds (FoundAtFirst reader catalog initial) := by
  unfold peek at done
  split at done
  · cases done
    exact ⟨lands, holds⟩
  · split at done
    · simp only [bind, Except.bind] at done
      split at done
      · cases done
      · next made decodedNext =>
        cases done
        exact ⟨decodeNext_lands lands decodedNext, holds⟩
    · exact openNext_lands lands holds done
    · exact openNext_lands lands holds done

end StreamCursor

namespace Replay

/-- The cursors give messages of chunks of a catalog only, and so does the cache. -/
structure Lands (reader : Reader) (catalog : ChunkCatalog) (initial : ChunkCache)
    (cursors : Stream → Option StreamCursor) (cache : ChunkCache) : Prop where
  cursors : ∀ stream cursor, cursors stream = some cursor → cursor.Lands reader catalog initial
  cache : cache.Holds (FoundAtFirst reader catalog initial)

variable {cursors cursors' : Stream → Option StreamCursor} {cache cache' : ChunkCache}

/-- A cursor that was moved on lands among the others. -/
theorem Lands.update (lands : Lands reader catalog initial cursors cache) {stream : Stream}
    {cursor : StreamCursor} (own : cursor.Lands reader catalog initial)
    (holds : cache'.Holds (FoundAtFirst reader catalog initial)) :
    Lands reader catalog initial (Function.update cursors stream (some cursor)) cache' :=
  ⟨Tables.forall_update_some lands.cursors own, holds⟩

/-- Peeking at all streams keeps their cursors on stored slots. -/
theorem peekStreams_lands {todo : List Stream} {best best' : Option (Stream × Nat)}
    (lands : Lands reader catalog initial cursors cache)
    (done : peekStreams reader todo cursors cache best = .ok (best', cursors', cache')) :
    Lands reader catalog initial cursors' cache' := by
  induction todo generalizing cursors cache best with
  | nil =>
    cases done
    exact lands
  | cons stream rest inductionHypothesis =>
    rw [peekStreams] at done
    split at done
    · exact inductionHypothesis lands done
    · next cursor found =>
      simp only [bind, Except.bind] at done
      split at done
      · cases done
      · next made peeked =>
        obtain ⟨item, cursor₁, cache₁⟩ := made
        obtain ⟨own, holds⟩ :=
          StreamCursor.peek_lands (lands.cursors stream cursor found) lands.cache peeked
        exact inductionHypothesis (lands.update own holds) done

/-- A head that is taken has a stored slot. -/
theorem dequeue_lands {head : Option (Stream × Nat × Peeked)}
    (lands : Lands reader catalog initial cursors cache)
    (done : dequeue reader cursors cache = .ok (head, cursors', cache')) :
    Lands reader catalog initial cursors' cache' ∧
      ∀ taken ∈ head, taken.2.2.slot ∈ storedSlots reader catalog initial := by
  simp only [dequeue, bind, Except.bind] at done
  split at done
  · cases done
  · next made peeked =>
    obtain ⟨best, cursors₁, cache₁⟩ := made
    have lands₁ := peekStreams_lands lands peeked
    cases best with
    | none =>
      cases done
      exact ⟨lands₁, fun taken impossible => by cases impossible⟩
    | some best =>
      obtain ⟨winner, slot⟩ := best
      dsimp only at done
      split at done
      · cases done
      · next item cursor taken =>
        cases done
        obtain ⟨holder, has, taken'⟩ := Option.bind_eq_some_iff.mp taken
        obtain ⟨isHead, -⟩ := StreamCursor.takePeeked_origins taken'
        obtain ⟨own, shown, same⟩ := Option.map_eq_some_iff.mp taken'
        cases same
        have landsHolder := lands₁.cursors winner holder has
        refine ⟨lands₁.update ⟨landsHolder.plans, landsHolder.opened, ?_⟩ lands₁.cache, ?_⟩
        · intro item impossible
          cases impossible
        · intro taken isTaken
          cases isTaken
          exact landsHolder.head item isHead

/-- The messages that a loop takes have stored slots. -/
theorem heads_lands (fuel : Nat) (lands : Lands reader catalog initial cursors cache) :
    ∀ item ∈ heads reader fuel cursors cache,
      item.2.slot ∈ storedSlots reader catalog initial := by
  induction fuel generalizing cursors cache with
  | zero => exact fun item member => by cases member
  | succ fuel inductionHypothesis =>
    rw [heads]
    split
    · next winner slot item cursors' cache' taken =>
      obtain ⟨lands', stored⟩ := dequeue_lands lands taken
      exact List.forall_mem_cons.mpr ⟨stored _ rfl, inductionHypothesis lands'⟩
    · exact fun item member => by cases member

/-- Handing a message over leaves the cursors and the cache as they are. -/
theorem emit_keeps (now : Iteration) (winner : Stream) (item : Peeked) (s : DriveState) :
    match emit reader now winner item s with
    | .continues s' => s'.cursors = s.cursors ∧ s'.cache = s.cache
    | .ends _ s' => s'.cursors = s.cursors ∧ s'.cache = s.cache := by
  rw [emit]
  rcases s.pacer.target now.targetNow item.recvNs with ⟨target, pacer⟩
  dsimp only
  cases now.cancelled with
  | true => exact ⟨rfl, rfl⟩
  | false =>
    cases now.outcome with
    | timedOut => exact ⟨rfl, rfl⟩
    | closed => exact ⟨rfl, rfl⟩
    | sent =>
      dsimp only
      rcases pacer.observeEmit now.emitNow target with ⟨_ | lag | lag, pacer⟩
      · exact ⟨rfl, rfl⟩
      · exact ⟨rfl, rfl⟩
      · exact ⟨rfl, rfl⟩

/-- A loop that ends leaves its cursors and its cache with chunks of the catalog. -/
theorem driveLoop_lands {fromSlot : Nat} {env : Nat → Iteration} {exit : Exit} {s' : DriveState}
    (fuel : Nat) {round : Nat} {s : DriveState}
    (lands : Lands reader catalog initial s.cursors s.cache)
    (done : driveLoop reader fromSlot env fuel round s = .ok (exit, s')) :
    Lands reader catalog initial s'.cursors s'.cache := by
  induction fuel generalizing round s with
  | zero => cases done
  | succ fuel inductionHypothesis =>
    simp only [driveLoop, driveStep_eq, bind, Except.bind] at done
    cases found : dequeue reader s.cursors s.cache with
    | error error =>
      rw [found] at done
      cases done
    | ok made =>
      obtain ⟨head, cursors, cache⟩ := made
      rw [found] at done
      obtain ⟨lands', -⟩ := dequeue_lands lands found
      cases head with
      | none =>
        cases done
        exact lands'
      | some head =>
        obtain ⟨winner, slot, item⟩ := head
        simp only [Except.map, deliver] at done
        by_cases below : slot < fromSlot
        · simp only [below, if_true] at done
          exact inductionHypothesis (s := { s with cursors, cache }) lands' done
        · simp only [below, if_false] at done
          have kept := @emit_keeps reader (env round) winner item { s with cursors, cache }
          cases delivered : emit reader (env round) winner item { s with cursors, cache } with
          | ends exit' s₁ =>
            rw [delivered] at done kept
            cases done
            rw [kept.1, kept.2]
            exact lands'
          | continues s₁ =>
            rw [delivered] at done kept
            refine inductionHypothesis ?_ done
            rw [kept.1, kept.2]
            exact lands'

/-- The plans are those of chunks of a catalog. -/
def PlansHeld (catalog : ChunkCatalog) (plan : ReplayPlan) : Prop :=
  ∀ stream, ∀ chunkPlan ∈ plan.plansPerStream stream,
    chunkPlan.stream = chunkPlan.entry.stream ∧ catalog.Holds chunkPlan.entry

/-- The last slot of a replay is a stored one and not below its start, and there is one if
anything was sent. -/
structure EndsOn (reader : Reader) (catalog : ChunkCatalog) (initial : ChunkCache)
    (plan : ReplayPlan) (stats : ReplayStats) : Prop where
  above : ∀ slot, stats.lastSlot = some slot → plan.fromSlot ≤ slot
  stored : ∀ slot, stats.lastSlot = some slot → slot ∈ storedSlots reader catalog initial
  sends : 0 < stats.sent → ∃ slot, stats.lastSlot = some slot

/-- The last slot of a replay is a stored one, and no less than its start. -/
theorem driveReplay_endsOn {env : Nat → Iteration} {plan : ReplayPlan} {cache : ChunkCache}
    {pacer : Pacer} {outcome : Outcome} (held : PlansHeld catalog plan)
    (holds : cache.Holds (FoundAtFirst reader catalog initial))
    (done : driveReplay reader env plan cache pacer = .ok outcome) :
    EndsOn reader catalog initial plan outcome.stats ∧
      outcome.cache.Holds (FoundAtFirst reader catalog initial) := by
  have opens : Lands reader catalog initial (opening plan) cache := by
    refine ⟨fun stream cursor has => ?_, holds⟩
    rw [opening] at has
    split at has
    · cases has
    · cases has
      exact StreamCursor.lands_new (held stream)
  obtain ⟨exit, s, accepted, ended, counts, rfl⟩ := driveReplay_counts done
  have lastSlot : s.lastSlot = accepted.getLast?.map (fun item => item.2.slot) := by
    rw [counts.sends.lastSlot]
    exact Option.or_none
  have isLast : ∀ slot, s.lastSlot = some slot →
      plan.fromSlot ≤ slot ∧ slot ∈ storedSlots reader catalog initial := by
    intro slot last
    rw [lastSlot] at last
    obtain ⟨item, isItem, rfl⟩ := Option.map_eq_some_iff.mp last
    have due := counts.front.subset (List.mem_of_mem_getLast? isItem)
    obtain ⟨taken, above⟩ := List.mem_filter.mp due
    exact ⟨of_decide_eq_true above, heads_lands (bound plan) opens item taken⟩
  refine ⟨⟨fun slot last => (isLast slot last).1, fun slot last => (isLast slot last).2, ?_⟩, ?_⟩
  · intro sent
    have counted := counts.counted
    have notEmpty : accepted ≠ [] := by
      rintro rfl
      have nothing : (begun plan cache pacer).emitted = 0 := rfl
      rw [nothing, List.length_nil] at counted
      dsimp only at sent
      omega
    rw [List.getLast?_eq_some_getLast notEmpty] at lastSlot
    exact ⟨_, lastSlot⟩
  · exact (driveLoop_lands (bound plan) (s := begun plan cache pacer) opens ended).cache

end Replay

namespace Reader

variable {parsed : SubscriptionFilters}

/-- What is planned of a stream are held chunks of it. -/
theorem planEntries_held {stream : Stream} {entries : List ChunkEntry}
    (held : ∀ entry ∈ entries, entry.stream = stream ∧ catalog.Holds entry)
    {cache after : IndexCache} {plans : List ChunkPlan}
    (planned : reader.planEntries parsed stream entries cache = .ok (plans, after)) :
    ∀ plan ∈ plans, plan.stream = plan.entry.stream ∧ catalog.Holds plan.entry := by
  induction entries generalizing cache plans with
  | nil =>
    cases planned
    exact fun plan member => by cases member
  | cons entry rest inductionHypothesis =>
    simp only [planEntries, bind, Except.bind] at planned
    split at planned
    · cases planned
    · split at planned
      · cases planned
      · next later rested =>
        cases planned
        obtain ⟨⟨sameStream, isHeld⟩, heldRest⟩ := List.forall_mem_cons.mp held
        exact List.forall_mem_cons.mpr
          ⟨⟨sameStream.symm, isHeld⟩, inductionHypothesis heldRest rested⟩

/-- What is planned are held chunks of their streams. -/
theorem planStreams_held {fromSlot toSlotExclusive : Nat} {streams : List Stream}
    {cache after : IndexCache} {plans : Stream → List ChunkPlan}
    (planned : reader.planStreams catalog parsed fromSlot toSlotExclusive streams cache =
      .ok (plans, after)) :
    ∀ stream, ∀ plan ∈ plans stream, plan.stream = plan.entry.stream ∧
      catalog.Holds plan.entry := by
  induction streams generalizing cache plans with
  | nil =>
    cases planned
    exact fun stream plan member => by cases member
  | cons stream rest inductionHypothesis =>
    rw [planStreams] at planned
    split at planned
    · simp only [bind, Except.bind] at planned
      split at planned
      · cases planned
      · next own ownPlanned =>
        split at planned
        · cases planned
        · next later rested =>
          cases planned
          intro other plan member
          by_cases same : other = stream
          · subst same
            rw [Function.update_self] at member
            exact planEntries_held (inRange_held (fun _ isHeld => isHeld) other _ _) ownPlanned
              plan member
          · rw [Function.update_of_ne same] at member
            exact inductionHypothesis rested other plan member
    · exact inductionHypothesis planned

/-- An accepted plan starts at the requested slot, or at the floor, and has chunks of its
catalog only. -/
theorem planReplay_held {cache after : IndexCache} {explicit : Option Nat} {plan : ReplayPlan}
    (accepted : reader.planReplay catalog parsed cache explicit = .ok (plan, after)) :
    Replay.PlansHeld catalog plan ∧ ∃ floor, firstAvailable catalog parsed = some floor ∧
      plan.fromSlot = explicit.getD floor := by
  cases available : firstAvailable catalog parsed with
  | none => simp [planReplay, available] at accepted
  | some floor =>
    simp only [planReplay, available, bind, Except.bind] at accepted
    cases started : startSlot floor explicit with
    | error error => simp [started] at accepted
    | ok fromSlot =>
      rw [started] at accepted
      dsimp only at accepted
      split at accepted
      · cases accepted
      · next made planned =>
        cases accepted
        exact ⟨planStreams_held planned, floor, rfl, (startSlot_ok.mp started).2⟩

end Reader

/-! ## Passes over one catalog -/

namespace Follow

/-- The passes that have sent something. -/
def productive (passes : List Pass) : List Pass :=
  passes.filter (fun pass => decide (0 < pass.outcome.stats.sent))

/-- The passes up to a resume slot: each starts no later, and earlier if it has sent
something, and as many have sent something as there are stored slots below. -/
structure Advances (reader : Reader) (catalog : ChunkCatalog) (initial : ChunkCache)
    (resume : Nat) (passes : List Pass) : Prop where
  notLater : ∀ pass ∈ passes, pass.plan.fromSlot ≤ resume
  earlier : ∀ pass ∈ passes, 0 < pass.outcome.stats.sent → pass.plan.fromSlot < resume
  increasing : passes.Pairwise (fun pass later =>
    0 < pass.outcome.stats.sent → pass.plan.fromSlot < later.plan.fromSlot)
  counted : (productive passes).length ≤
    ((storedSlots reader catalog initial).filter (fun slot => slot < resume)).card

/-- A pass from the resume slot on moves that slot behind the last one it sends. -/
theorem Advances.add {resume : Nat} {passes : List Pass}
    (advances : Advances reader catalog initial resume passes) (pass : Pass)
    (starts : pass.plan.fromSlot = resume)
    (ends : Replay.EndsOn reader catalog initial pass.plan pass.outcome.stats) :
    Advances reader catalog initial ((pass.outcome.stats.lastSlot.map (· + 1)).getD resume)
      (passes ++ [pass]) := by
  have increasing : (passes ++ [pass]).Pairwise (fun pass later =>
      0 < pass.outcome.stats.sent → pass.plan.fromSlot < later.plan.fromSlot) := by
    refine List.pairwise_append.mpr ⟨advances.increasing, List.pairwise_singleton _ _, ?_⟩
    intro before isBefore later isLast sent
    rw [List.mem_singleton.mp isLast, starts]
    exact advances.earlier before isBefore sent
  cases last : pass.outcome.stats.lastSlot with
  | none =>
    have sentNothing : ¬ 0 < pass.outcome.stats.sent := by
      intro sent
      obtain ⟨slot, isLast⟩ := ends.sends sent
      rw [last] at isLast
      cases isLast
    have same : productive (passes ++ [pass]) = productive passes := by
      rw [productive, List.filter_append, List.filter_cons_of_neg (by simpa using sentNothing),
        List.filter_nil, List.append_nil, productive]
    refine ⟨fun other member => ?_, fun other member sent => ?_, increasing, ?_⟩
    · rcases List.mem_append.mp member with member | member
      · exact advances.notLater other member
      · exact (List.mem_singleton.mp member ▸ starts).le
    · rcases List.mem_append.mp member with member | member
      · exact advances.earlier other member sent
      · exact absurd (List.mem_singleton.mp member ▸ sent) sentNothing
    · rw [same]
      exact advances.counted
  | some slot =>
    have above : resume ≤ slot := starts ▸ ends.above slot last
    have behind : ∀ other ∈ passes ++ [pass], other.plan.fromSlot < slot + 1 := by
      intro other member
      rcases List.mem_append.mp member with member | member
      · exact Nat.lt_succ_of_le ((advances.notLater other member).trans above)
      · rw [List.mem_singleton.mp member, starts]
        exact Nat.lt_succ_of_le above
    refine ⟨fun other member => (behind other member).le, fun other member _ => behind other member,
      increasing, ?_⟩
    -- the last slot is stored and not among those below the resume slot
    have newSlot : insert slot ((storedSlots reader catalog initial).filter (fun s => s < resume)) ⊆
        (storedSlots reader catalog initial).filter (fun s => s < slot + 1) := by
      intro other member
      rw [Finset.mem_filter]
      rcases Finset.mem_insert.mp member with rfl | member
      · exact ⟨ends.stored other last, Nat.lt_succ_self other⟩
      · obtain ⟨stored, below⟩ := Finset.mem_filter.mp member
        exact ⟨stored, Nat.lt_succ_of_lt (below.trans_le above)⟩
    have grown := Finset.card_le_card newSlot
    rw [Finset.card_insert_of_notMem
      (fun member => (Finset.mem_filter.mp member).2.not_ge above)] at grown
    have atMost : (productive (passes ++ [pass])).length ≤ (productive passes).length + 1 := by
      rw [productive, List.filter_append, List.length_append]
      exact Nat.add_le_add_left (List.length_filter_le _ _) _
    exact atMost.trans ((Nat.add_le_add_right advances.counted 1).trans grown)

/-- A follower in the middle of its passes over one catalog. Its first plan starts at the
first slot, and every other one where the passes before have come to. -/
structure Resuming (reader : Reader) (ctx : FollowContext) (catalog : ChunkCatalog)
    (initial : ChunkCache) (first : Nat) (s : FollowState) : Prop where
  begins : ∀ floor, Reader.firstAvailable catalog ctx.filters = some floor →
    first = ctx.filters.fromSlot.getD floor
  planned : ∀ own plan, s.planned = some (own, plan) →
    s.total.lastSlot = none ∧ Replay.PlansHeld catalog plan ∧ plan.fromSlot = first
  advances : Advances reader catalog initial ((s.total.lastSlot.map (· + 1)).getD first) s.passes
  stored : ∀ slot, s.total.lastSlot = some slot → slot ∈ storedSlots reader catalog initial
  chunks : s.chunkCache.Holds (FoundAtFirst reader catalog initial)
  drained : ∀ pass ∈ s.passes, pass.outcome.stats.drained = true

/-- The reasons for which a session ends before its follower has caught up. -/
def EndsEarlier : FollowEnd → Prop
  | .stopped => True
  | .overflow => False
  | .cannotPlan _ => True
  | .failed _ => True
  | .passEnded => True
  | .idle => False

/-- A pass that has found nothing to send. -/
def SendsNothing (pass : Pass) : Prop :=
  pass.outcome.stats.sent = 0 ∧ pass.outcome.stats.drained = true

/-- What the passes of a follower are like, however it has ended: the resume slots increase
behind every pass that has sent something, and these are no more than there are slots. -/
structure Settles (reader : Reader) (catalog : ChunkCatalog) (initial : ChunkCache)
    (passes : List Pass) : Prop where
  increasing : passes.Pairwise (fun pass later =>
    0 < pass.outcome.stats.sent → pass.plan.fromSlot < later.plan.fromSlot)
  counted : (productive passes).length ≤ (storedSlots reader catalog initial).card

/-- Passes whose resume slots grow settle. -/
theorem Advances.settles {resume : Nat} {passes : List Pass}
    (advances : Advances reader catalog initial resume passes) :
    Settles reader catalog initial passes :=
  ⟨advances.increasing, advances.counted.trans (Finset.card_filter_le _ _)⟩

variable {ctx : FollowContext} {first : Nat}

/-- A plan starts where the passes before have come to; no slot is so great that this fails. -/
theorem nextPlan_resumes {turn : Turn} {s : FollowState}
    (resuming : Resuming reader ctx catalog initial first s) (fixed : turn.catalog = catalog)
    (below : ∀ slot ∈ storedSlots reader catalog initial, slot + 1 < u64Bound) :
    match nextPlan reader ctx turn s with
    | .ok (_, plan, _) => Replay.PlansHeld catalog plan ∧
        plan.fromSlot = (s.total.lastSlot.map (· + 1)).getD first
    | .error reason => EndsEarlier reason := by
  cases left : s.planned with
  | some planned =>
    obtain ⟨own, plan⟩ := planned
    obtain ⟨none, held, starts⟩ := resuming.planned own plan left
    simp only [nextPlan, left]
    rw [none]
    exact ⟨held, starts⟩
  | none =>
    have resume : ∃ explicit, resumeFrom ctx s.total.lastSlot = .ok explicit ∧
        ∀ floor, Reader.firstAvailable catalog ctx.filters = some floor →
          explicit.getD floor = (s.total.lastSlot.map (· + 1)).getD first := by
      cases last : s.total.lastSlot with
      | none => exact ⟨_, rfl, fun floor available => (resuming.begins floor available).symm⟩
      | some slot =>
        refine ⟨some (slot + 1), ?_, fun floor _ => rfl⟩
        rw [resumeFrom, if_pos (below slot (resuming.stored slot last))]
    obtain ⟨explicit, resumes, starts⟩ := resume
    simp only [nextPlan, left, resumes, bind, Except.bind, fixed]
    cases accepted : reader.planReplay catalog ctx.filters s.indexCache explicit with
    | error error => trivial
    | ok made =>
      obtain ⟨held, floor, available, start⟩ := Reader.planReplay_held accepted
      exact ⟨held, start.trans (starts floor available)⟩

/-- A turn goes on behind one more drained pass, or it ends the follower: early, or behind a
pass that has found nothing to send. -/
theorem followTurn_resumes {turn : Turn} {s : FollowState}
    (resuming : Resuming reader ctx catalog initial first s) (fixed : turn.catalog = catalog)
    (below : ∀ slot ∈ storedSlots reader catalog initial, slot + 1 < u64Bound) :
    match followTurn reader ctx turn s with
    | .continues s' => Resuming reader ctx catalog initial first s' ∧
        s'.passes.length = s.passes.length + 1
    | .ends reason s' => Settles reader catalog initial s'.passes ∧
        (EndsEarlier reason ∨ ∃ pass ∈ s'.passes, SendsNothing pass) := by
  have planned := nextPlan_resumes resuming fixed below
  rcases followTurn_cases reader ctx turn s with
    ends | ⟨reason, next, ends⟩ | ⟨own, plan, indexCache, next, drives⟩
  · rw [ends]
    exact ⟨resuming.advances.settles, .inl trivial⟩
  · rw [next] at planned
    rw [ends]
    exact ⟨resuming.advances.settles, .inl planned⟩
  rw [next] at planned
  obtain ⟨held, starts⟩ := planned
  rcases drives with ⟨error, -, ends⟩ | ⟨outcome, done, settles⟩
  · rw [ends]
    exact ⟨resuming.advances.settles, .inl trivial⟩
  obtain ⟨endsOn, holds⟩ := Replay.driveReplay_endsOn held resuming.chunks done
  have added : Advances reader catalog initial
      (((addStats s.total outcome.stats).lastSlot.map (· + 1)).getD first)
      (s.passes ++ [⟨own, plan, outcome⟩]) := by
    have moved := resuming.advances.add ⟨own, plan, outcome⟩ starts endsOn
    rw [addStats_lastSlot]
    cases last : outcome.stats.lastSlot with
    | none => simpa [last] using moved
    | some slot => simpa [last] using moved
  have stored : ∀ slot, (addStats s.total outcome.stats).lastSlot = some slot →
      slot ∈ storedSlots reader catalog initial := by
    intro slot isLast
    rw [addStats_lastSlot] at isLast
    rcases Option.or_eq_some_iff.mp isLast with sent | ⟨-, before⟩
    · exact endsOn.stored slot sent
    · exact resuming.stored slot before
  have isLast : (⟨own, plan, outcome⟩ : Pass) ∈ s.passes ++ [⟨own, plan, outcome⟩] :=
    List.mem_append_right _ (List.mem_singleton_self _)
  rw [settles]
  rcases settle_cases ctx turn outcome.stats (passed s ⟨own, plan, outcome⟩ indexCache) with
    ⟨-, ends⟩ | ⟨drained, ⟨deadline, goesOn⟩ | ⟨nothing, ends⟩ | ends⟩
  · rw [ends]
    exact ⟨added.settles, .inl trivial⟩
  · rw [goesOn]
    refine ⟨⟨resuming.begins, fun _ _ impossible => (by cases impossible), added, stored, holds,
      fun pass member => ?_⟩, List.length_append⟩
    rcases List.mem_append.mp member with before | last
    · exact resuming.drained pass before
    · exact List.mem_singleton.mp last ▸ drained
  · rw [ends]
    exact ⟨added.settles, .inr ⟨_, isLast, nothing, drained⟩⟩
  · rw [ends]
    exact ⟨added.settles, .inl trivial⟩

/-- As long as a catalog stays as it is, the resume slot increases behind every pass that has
sent something, so that these passes are no more than the slots of its messages. After more
turns than that the follower has come to a pass that sends nothing, unless the session has
ended earlier. -/
theorem followReplay_settles (reader : Reader) (ctx : FollowContext) (catalog : ChunkCatalog)
    (env : Nat → Turn) (turns now : Nat) (plan : ReplayPlan) (indexCache indexCache' : IndexCache)
    (chunkCache : ChunkCache) (fixed : ∀ round, (env round).catalog = catalog)
    (accepted : reader.planReplay catalog ctx.filters indexCache ctx.filters.fromSlot =
      .ok (plan, indexCache'))
    (below : ∀ slot ∈ storedSlots reader catalog chunkCache, slot + 1 < u64Bound) :
    let followed := followReplay reader ctx env turns now catalog plan indexCache' chunkCache
    Settles reader catalog chunkCache followed.1.passes ∧
      ((storedSlots reader catalog chunkCache).card < turns →
        (∃ pass ∈ followed.1.passes, SendsNothing pass) ∨
          ∃ reason, followed.2 = some reason ∧ EndsEarlier reason) := by
  obtain ⟨held, floor, available, starts⟩ := Reader.planReplay_held accepted
  have begun : Resuming reader ctx catalog chunkCache plan.fromSlot
      { planned := some (catalog, plan)
        total := { sent := 0, bytes := 0, lagMax := 0, lastSlot := none, drained := true }
        pacer := Pacer.ofConfig ctx.pacing
        idleDeadline := now + ctx.idleTimeout
        indexCache := indexCache'
        chunkCache
        passes := [] } := by
    refine ⟨fun other isFloor => ?_, ?_, ?_, fun slot impossible => (by cases impossible),
      foundAtFirst_initial, fun pass member => (by cases member)⟩
    · rw [starts, Option.some.inj (available.symm.trans isFloor)]
    · intro own first same
      cases same
      exact ⟨rfl, held, rfl⟩
    · exact ⟨fun pass member => (by cases member), fun pass member => (by cases member), .nil,
        Nat.zero_le _⟩
  have run := followLoop_runs reader ctx
    (fun count s => Resuming reader ctx catalog chunkCache plan.fromSlot s ∧
      s.passes.length = count)
    (fun reason s => Settles reader catalog chunkCache s.passes ∧
      (EndsEarlier reason ∨ ∃ pass ∈ s.passes, SendsNothing pass))
    (by
      rintro round count s ⟨resuming, rfl⟩
      exact followTurn_resumes resuming (fixed round) below)
    turns 0 0 ⟨begun, rfl⟩
  rw [followReplay]
  split at run
  · next s ended =>
    obtain ⟨resuming, many⟩ := run
    rw [ended]
    refine ⟨resuming.advances.settles, fun enough => .inl ?_⟩
    by_contra noEmpty
    have allProductive : productive s.passes = s.passes := by
      refine List.filter_eq_self.mpr (fun pass member => decide_eq_true ?_)
      by_contra nothing
      exact noEmpty ⟨pass, member, Nat.eq_zero_of_not_pos nothing, resuming.drained pass member⟩
    have counted := resuming.advances.settles.counted
    rw [allProductive, many] at counted
    omega
  · next s reason ended =>
    obtain ⟨settles, early | empty⟩ := run
    · rw [ended]
      exact ⟨settles, fun _ => .inr ⟨reason, rfl, early⟩⟩
    · rw [ended]
      exact ⟨settles, fun _ => .inl empty⟩

/-- A reader with one chunk of block metadata in which slot 9 comes before slot 7. -/
def disordered : Reader :=
  Serving.blockReader (Serving.blockFiles (fun _ => [5, 9, 7]) [⟨.block, 0, 1000⟩])

/-- A scan of that chunk. -/
def disorderedCatalog : ChunkCatalog :=
  ChunkCatalog.scan disordered.codecs disordered.files
    (fun stream => (disordered.files stream).keys)

/-- A subscription to block metadata that is never paced. -/
def patient : FollowContext := ⟨Serving.allBlocks, ⟨false, id, 0, 0⟩, 1⟩

/-- Turns over the one catalog, with a subscriber that takes every message at once. -/
def undisturbed : Nat → Turn :=
  fun _ => ⟨false, disorderedCatalog, fun _ => ⟨0, false, .sent, 0⟩, 0, false⟩

/-- The follower sends all three messages, then slot 9 again behind slot 7, and nothing from
then on. -/
theorem followReplay_settles_disordered :
    ∃ plan indexCache, disordered.planReplay disorderedCatalog patient.filters .new none =
        .ok (plan, indexCache) ∧
      let followed := followReplay disordered patient undisturbed 4 0 disorderedCatalog plan
        indexCache .new
      Settles disordered disorderedCatalog .new followed.1.passes ∧
        (∃ pass ∈ followed.1.passes, SendsNothing pass) ∧
        followed.1.passes.map (fun pass => (pass.plan.fromSlot, pass.outcome.stats.sent)) =
          [(0, 3), (8, 1), (10, 0), (10, 0)] := by
  have runs : (disordered.planReplay disorderedCatalog patient.filters .new none).toOption.map
      (fun made =>
        let followed := followReplay disordered patient undisturbed 4 0 disorderedCatalog made.1
          made.2 .new
        (followed.1.passes.map (fun pass => (pass.plan.fromSlot, pass.outcome.stats.sent)),
          followed.2)) = some ([(0, 3), (8, 1), (10, 0), (10, 0)], none) := by
    decide +kernel
  cases accepted : disordered.planReplay disorderedCatalog patient.filters .new none with
  | error error =>
    rw [accepted] at runs
    cases runs
  | ok made =>
    obtain ⟨plan, indexCache⟩ := made
    rw [accepted] at runs
    obtain ⟨passes, goesOn⟩ := Prod.mk.inj (Option.some.inj runs)
    obtain ⟨settles, reaches⟩ := followReplay_settles disordered patient disorderedCatalog
      undisturbed 4 0 plan .new indexCache .new (fun _ => rfl) accepted (by decide +kernel)
    refine ⟨plan, indexCache, rfl, settles, ?_, passes⟩
    rcases reaches (by decide +kernel) with empty | ⟨reason, ended, -⟩
    · exact empty
    · rw [goesOn] at ended
      cases ended

end Follow

end Sillage
