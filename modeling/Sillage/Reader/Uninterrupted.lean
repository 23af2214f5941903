import Sillage.Reader.Serving

/-!
# What nobody interrupts

The acts of one party without any of the others in between are the operations as they are
when there is nobody else: the parts of a planning make up `planReplay`, the parts of peeking
at a cursor make up `StreamCursor.peek`, and the acts of the syncer make up a cycle.
-/

namespace Sillage

open LittleEndian Idx Directory

namespace ReplayPlan

/-- A plan with more chunks behind those of every stream. -/
def extended (plan : ReplayPlan) (more : Stream → List ChunkPlan) : ReplayPlan :=
  { plan with plansPerStream := fun stream => plan.plansPerStream stream ++ more stream }

/-- The chunks of one stream alone. -/
def only (stream : Stream) (chunks : List ChunkPlan) : Stream → List ChunkPlan :=
  Function.update (fun _ => []) stream chunks

/-- A plan extended by nothing stays as it is. -/
theorem extended_nothing (plan : ReplayPlan) : plan.extended (fun _ => []) = plan := by
  simp [extended]

/-- Extensions of a plan come one behind the other. -/
theorem extended_extended (plan : ReplayPlan) (first second : Stream → List ChunkPlan) :
    (plan.extended first).extended second =
      plan.extended (fun stream => first stream ++ second stream) := by
  simp [extended]

/-- A chunk that is pushed extends the plan of its stream. -/
theorem push_eq (plan : ReplayPlan) (stream : Stream) (chunk : ChunkPlan) :
    plan.push stream chunk = plan.extended (only stream [chunk]) := by
  rw [push, extended]
  congr 1
  funext other
  by_cases same : other = stream
  · subst same
    simp [only]
  · simp [only, Function.update_of_ne same]

end ReplayPlan

namespace Serving

open Sync

/-- An act, time and again, leads from one world to another. -/
def Repeats (reader : Reader) (retentionHours : Nat) (again : Act) (w w' : World) : Prop :=
  ∃ times, run reader retentionHours w (List.replicate times again) = w'

variable {reader : Reader} {retentionHours : Nat}

namespace Repeats

/-- An act may be repeated no times. -/
theorem refl (again : Act) (w : World) : Repeats reader retentionHours again w w := ⟨0, rfl⟩

/-- One more repetition in front. -/
theorem head {again : Act} {w w' w'' : World} (first : act reader retentionHours w again = w')
    (later : Repeats reader retentionHours again w' w'') :
    Repeats reader retentionHours again w w'' := by
  obtain ⟨times, rfl⟩ := later
  exact ⟨times + 1, by rw [List.replicate_succ, run_cons, first]⟩

/-- Repetitions come one behind the other. -/
theorem trans {again : Act} {w w' w'' : World} (first : Repeats reader retentionHours again w w')
    (second : Repeats reader retentionHours again w' w'') :
    Repeats reader retentionHours again w w'' := by
  obtain ⟨times, rfl⟩ := first
  obtain ⟨times', rfl⟩ := second
  exact ⟨times + times', by rw [← List.replicate_append_replicate, run_append]⟩

end Repeats

/-! ## Planning -/

/-- A world in which one subscription and the cached indexes have changed. -/
def World.plansOn (w : World) (id : Nat) (caller : Caller) (indexes : IndexCache) : World :=
  { w.setCaller id caller with indexes }

/-- A part of a planning, as an act of the world. -/
theorem act_plan (w : World) (id : Nat) (planning : Planning) (phase : Lru.Phase ChunkIndex)
    (indexes : IndexCache) :
    act reader retentionHours (w.plansOn id (.planning planning phase) indexes) (.plan id) =
      w.plansOn id (planPart (reader.seeing w.files) indexes planning phase).1
        (planPart (reader.seeing w.files) indexes planning phase).2 := by
  simp [act, World.plansOn, World.setCaller]

/-- The index of the next chunk is looked up, and its plan is added. -/
theorem lookup_alone {w : World} {id : Nat} {planning : Planning} {stream : Stream}
    {entry : ChunkEntry} {rest : List (Stream × ChunkEntry)}
    (todo : planning.todo = (stream, entry) :: rest) {indexes after : IndexCache}
    {index : ChunkIndex} (found : (reader.seeing w.files).getOrParse indexes
      ⟨stream, entry.startSlot⟩ ((reader.seeing w.files).idxFile entry) = .ok (index, after)) :
    Repeats reader retentionHours (.plan id) (w.plansOn id (.planning planning .lookup) indexes)
      (w.plansOn id (.planning
        { planning with
          plan := planning.plan.push stream
            ((reader.seeing w.files).chunkPlan planning.parsed stream entry index)
          todo := rest } .lookup) after) := by
  have part : ∀ (phase : Lru.Phase ChunkIndex) (cache : IndexCache),
      act reader retentionHours (w.plansOn id (.planning planning phase) cache) (.plan id) = _ :=
    fun phase cache => act_plan w id planning phase cache
  simp only [planPart, todo] at part
  rcases Lru.getOrLoad_parts found with hit | ⟨fresh, miss, load, store⟩
  · apply Repeats.head (part .lookup indexes)
    rw [Reader.seeing] at hit ⊢
    rw [hit]
    exact Repeats.refl _ _
  · apply Repeats.head (part .lookup indexes)
    rw [Reader.seeing] at *
    rw [miss]
    apply Repeats.head (part .load indexes)
    rw [load]
    apply Repeats.head (part (.store fresh) indexes)
    rw [store]
    exact Repeats.refl _ _

/-- An index that cannot be read or parsed ends the subscription. -/
theorem lookup_alone_fails {w : World} {id : Nat} {planning : Planning} {stream : Stream}
    {entry : ChunkEntry} {rest : List (Stream × ChunkEntry)}
    (todo : planning.todo = (stream, entry) :: rest) {indexes : IndexCache}
    {error : IndexError} (failed : (reader.seeing w.files).getOrParse indexes
      ⟨stream, entry.startSlot⟩ ((reader.seeing w.files).idxFile entry) = .error error) :
    Repeats reader retentionHours (.plan id) (w.plansOn id (.planning planning .lookup) indexes)
      (w.plansOn id (.failed (.plan (.other error))) indexes) := by
  have part : ∀ (phase : Lru.Phase ChunkIndex) (cache : IndexCache),
      act reader retentionHours (w.plansOn id (.planning planning phase) cache) (.plan id) = _ :=
    fun phase cache => act_plan w id planning phase cache
  simp only [planPart, todo] at part
  obtain ⟨miss, load⟩ := Lru.getOrLoad_fails failed
  apply Repeats.head (part .lookup indexes)
  rw [Reader.seeing] at *
  rw [miss]
  apply Repeats.head (part .load indexes)
  rw [load]
  exact Repeats.refl _ _

/-- The parts for the chunks of one stream plan them in order. -/
theorem planEntries_alone (w : World) (id : Nat) (parsed : SubscriptionFilters) (stream : Stream)
    (later : List (Stream × ChunkEntry)) (entries : List ChunkEntry) (plan : ReplayPlan)
    (indexes : IndexCache) :
    let begins := w.plansOn id (.planning ⟨parsed, plan,
      entries.map (fun entry => (stream, entry)) ++ later⟩ .lookup) indexes
    match (reader.seeing w.files).planEntries parsed stream entries indexes with
    | .ok (plans, after) => Repeats reader retentionHours (.plan id) begins
        (w.plansOn id
          (.planning ⟨parsed, plan.extended (ReplayPlan.only stream plans), later⟩ .lookup) after)
    | .error error => ∃ after, Repeats reader retentionHours (.plan id) begins
        (w.plansOn id (.failed (.plan (.other error))) after) := by
  induction entries generalizing plan indexes with
  | nil =>
    have nothing : ReplayPlan.only stream [] = fun _ => [] := Function.update_eq_self _ _
    simp only [Reader.planEntries, nothing, ReplayPlan.extended_nothing]
    exact Repeats.refl _ _
  | cons entry rest inductionHypothesis =>
    simp only [Reader.planEntries, bind, Except.bind]
    cases found : (reader.seeing w.files).getOrParse indexes ⟨stream, entry.startSlot⟩
        ((reader.seeing w.files).idxFile entry) with
    | error error => exact ⟨indexes, lookup_alone_fails rfl found⟩
    | ok looked =>
      obtain ⟨index, after⟩ := looked
      have first := @lookup_alone reader retentionHours w id
        ⟨parsed, plan, (stream, entry) :: (rest.map (fun entry => (stream, entry)) ++ later)⟩
        stream entry _ rfl indexes after index found
      have others := inductionHypothesis (plan.push stream
        ((reader.seeing w.files).chunkPlan parsed stream entry index)) after
      dsimp only at others ⊢
      cases planned : (reader.seeing w.files).planEntries parsed stream rest after with
      | error error =>
        rw [planned] at others
        obtain ⟨last, fails⟩ := others
        exact ⟨last, first.trans fails⟩
      | ok made =>
        obtain ⟨plans, last⟩ := made
        rw [planned] at others
        have together : ∀ chunk : ChunkPlan,
            (plan.push stream chunk).extended (ReplayPlan.only stream plans) =
              plan.extended (ReplayPlan.only stream (chunk :: plans)) := by
          intro chunk
          rw [ReplayPlan.push_eq, ReplayPlan.extended_extended]
          congr 1
          funext other
          by_cases same : other = stream
          · subst same
            simp [ReplayPlan.only]
          · simp [ReplayPlan.only, Function.update_of_ne same]
        dsimp only at others
        rw [together] at others
        exact first.trans others

/-- Streams that are not asked for get no plans. -/
theorem planStreams_absent {reader : Reader} {catalog : ChunkCatalog}
    {parsed : SubscriptionFilters} {fromSlot toSlotExclusive : Nat} {streams : List Stream}
    {stream : Stream} (absent : stream ∉ streams) {cache after : IndexCache}
    {plans : Stream → List ChunkPlan}
    (planned : reader.planStreams catalog parsed fromSlot toSlotExclusive streams cache =
      .ok (plans, after)) : plans stream = [] := by
  induction streams generalizing cache plans with
  | nil =>
    obtain ⟨rfl, rfl⟩ := Prod.mk.inj (Except.ok.inj planned)
    rfl
  | cons first rest inductionHypothesis =>
    obtain ⟨other, absentLater⟩ := not_or.mp (mt List.mem_cons.mpr absent)
    rw [Reader.planStreams] at planned
    split at planned
    · simp only [bind, Except.bind] at planned
      split at planned
      · cases planned
      · split at planned
        · cases planned
        · next made later =>
          obtain ⟨rfl, rfl⟩ := Prod.mk.inj (Except.ok.inj planned)
          rw [Function.update_of_ne other]
          exact inductionHypothesis absentLater later
    · exact inductionHypothesis absentLater planned

/-- The parts for some streams plan the subscribed ones. -/
theorem planStreams_alone (w : World) (id : Nat) (parsed : SubscriptionFilters)
    (fromSlot toSlotExclusive : Nat) {streams : List Stream} (once : streams.Nodup)
    (plan : ReplayPlan) (indexes : IndexCache) :
    let begins := w.plansOn id (.planning ⟨parsed, plan,
      chunksToPlan w.catalog parsed fromSlot toSlotExclusive streams⟩ .lookup) indexes
    match (reader.seeing w.files).planStreams w.catalog parsed fromSlot toSlotExclusive streams
      indexes with
    | .ok (plans, after) => Repeats reader retentionHours (.plan id) begins
        (w.plansOn id (.planning ⟨parsed, plan.extended plans, []⟩ .lookup) after)
    | .error error => ∃ after, Repeats reader retentionHours (.plan id) begins
        (w.plansOn id (.failed (.plan (.other error))) after) := by
  induction streams generalizing plan indexes with
  | nil =>
    simp only [Reader.planStreams, ReplayPlan.extended_nothing]
    exact Repeats.refl _ _
  | cons stream rest inductionHypothesis =>
    obtain ⟨absent, onceLater⟩ := List.nodup_cons.mp once
    rw [Reader.planStreams]
    by_cases asked : parsed.hasStream stream = true
    · have todo : chunksToPlan w.catalog parsed fromSlot toSlotExclusive (stream :: rest) =
          (w.catalog.chunksInRange stream fromSlot toSlotExclusive).map
            (fun entry => (stream, entry)) ++
          chunksToPlan w.catalog parsed fromSlot toSlotExclusive rest := by
        simp [chunksToPlan, asked]
      have own := @planEntries_alone reader retentionHours w id parsed stream
        (chunksToPlan w.catalog parsed fromSlot toSlotExclusive rest)
        (w.catalog.chunksInRange stream fromSlot toSlotExclusive) plan indexes
      simp only [if_pos asked, bind, Except.bind, todo]
      dsimp only at own
      split at own
      · next plans after planned =>
        rw [planned]
        have others := inductionHypothesis onceLater
          (plan.extended (ReplayPlan.only stream plans)) after
        dsimp only at others ⊢
        cases laterPlanned : (reader.seeing w.files).planStreams w.catalog parsed fromSlot
            toSlotExclusive rest after with
        | error error =>
          rw [laterPlanned] at others
          obtain ⟨last, fails⟩ := others
          exact ⟨last, own.trans fails⟩
        | ok made =>
          obtain ⟨later, last⟩ := made
          rw [laterPlanned] at others
          have together : (plan.extended (ReplayPlan.only stream plans)).extended later =
              plan.extended (Function.update later stream plans) := by
            rw [ReplayPlan.extended_extended]
            congr 1
            funext other
            by_cases same : other = stream
            · subst same
              simp [ReplayPlan.only, planStreams_absent absent laterPlanned]
            · simp [ReplayPlan.only, Function.update_of_ne same]
          dsimp only at others
          rw [together] at others
          exact own.trans others
      · next error planned =>
        rw [planned]
        exact own
    · have todo : chunksToPlan w.catalog parsed fromSlot toSlotExclusive (stream :: rest) =
          chunksToPlan w.catalog parsed fromSlot toSlotExclusive rest := by
        simp [chunksToPlan, asked]
      rw [if_neg asked, todo]
      exact inductionHypothesis onceLater plan indexes

/-- A subscription whose planning nobody interrupts replays what `planReplay` plans. -/
theorem subscribe_alone {w : World} {id : Nat} (isIdle : w.callers id = .idle)
    (parsed : SubscriptionFilters) (explicitFromSlot : Option Nat) :
    let begins := act reader retentionHours w (.subscribe id parsed explicitFromSlot)
    match (reader.seeing w.files).planReplay w.catalog parsed w.indexes explicitFromSlot with
    | .ok (plan, indexes) => Repeats reader retentionHours (.plan id) begins
        (w.plansOn id (.replaying parsed (Replay.opening plan) (fun _ => .lookup)) indexes)
    | .error error => ∃ indexes, Repeats reader retentionHours (.plan id) begins
        (w.plansOn id (.failed (.plan error)) indexes) := by
  have starts : act reader retentionHours w (.subscribe id parsed explicitFromSlot) =
      w.plansOn id (subscribed w.catalog parsed explicitFromSlot) w.indexes := by
    rw [act, isIdle]
    rfl
  rw [starts]
  cases floor : Reader.firstAvailable w.catalog parsed with
  | none =>
    simp only [Reader.planReplay, subscribed, floor]
    exact ⟨w.indexes, Repeats.refl _ _⟩
  | some firstAvailable =>
    cases start : Reader.startSlot firstAvailable explicitFromSlot with
    | error error =>
      simp only [Reader.planReplay, subscribed, floor, start, bind, Except.bind]
      exact ⟨w.indexes, Repeats.refl _ _⟩
    | ok fromSlot =>
      simp only [Reader.planReplay, subscribed, floor, start, bind, Except.bind]
      have planned := @planStreams_alone reader retentionHours w id parsed fromSlot
        (w.catalog.newestEndSlot.getD 0) Stream.all (by decide)
        { fromSlot, toSlotExclusive := w.catalog.newestEndSlot.getD 0,
          plansPerStream := fun _ => [] } w.indexes
      dsimp only at planned
      split at planned
      · next plans after made =>
        rw [made]
        apply planned.trans
        apply Repeats.head _ (Repeats.refl _ _)
        rw [act_plan, planPart]
        simp [ReplayPlan.extended]
      · next error failed =>
        rw [failed]
        exact planned

/-! ## Peeking -/

/-- A world in which one cursor, the part of its access and the decoded chunks have
changed. -/
def World.peeksOn (w : World) (id : Nat) (parsed : SubscriptionFilters)
    (cursors : Stream → Option StreamCursor) (phases : Stream → Lru.Phase DecodedChunk)
    (stream : Stream) (cursor : StreamCursor) (phase : Lru.Phase DecodedChunk)
    (chunks : ChunkCache) : World :=
  { w.setCaller id (.replaying parsed (Function.update cursors stream (some cursor))
      (Function.update phases stream phase)) with chunks }

/-- A world in which one replay has failed. -/
def World.replayFails (w : World) (id : Nat) (error : ReplayError) (chunks : ChunkCache) : World :=
  { w.setCaller id (.failed (.replay error)) with chunks }

section Peeking

variable {w : World} {id : Nat} {parsed : SubscriptionFilters}
  {cursors : Stream → Option StreamCursor} {phases : Stream → Lru.Phase DecodedChunk}
  {stream : Stream}

/-- A part of a peek, as an act of the world. -/
theorem act_peek (cursor : StreamCursor) (phase : Lru.Phase DecodedChunk) (chunks : ChunkCache) :
    act reader retentionHours (w.peeksOn id parsed cursors phases stream cursor phase chunks)
        (.peek id stream) =
      match peekPart (reader.seeing w.files) chunks cursor phase with
      | (.error error, chunks) => w.replayFails id error chunks
      | (.ok (cursor, phase), chunks) =>
          w.peeksOn id parsed cursors phases stream cursor phase chunks := by
  simp only [act, World.peeksOn, World.setCaller, Function.update_self]
  rcases peekPart (reader.seeing w.files) chunks cursor phase with ⟨error | made, after⟩
  · simp [World.replayFails, World.setCaller]
  · simp

/-- The next message of the open chunk is decoded. -/
theorem decodeNext_alone {cursor : StreamCursor} (idle : cursor.peeked = none) {ord : Nat}
    {rest : List Nat} (ords : cursor.currentOrds = some (ord :: rest)) (chunks : ChunkCache) :
    let begins := w.peeksOn id parsed cursors phases stream cursor .lookup chunks
    match StreamCursor.decodeNext (reader.seeing w.files) cursor ord rest with
    | .ok (_, cursor') => Repeats reader retentionHours (.peek id stream) begins
        (w.peeksOn id parsed cursors phases stream cursor' .lookup chunks)
    | .error error => Repeats reader retentionHours (.peek id stream) begins
        (w.replayFails id error chunks) := by
  have part := @act_peek reader retentionHours w id parsed cursors phases stream cursor .lookup
    chunks
  simp only [peekPart, idle, ords] at part
  cases decoded : StreamCursor.decodeNext (reader.seeing w.files) cursor ord rest with
  | error error =>
    rw [decoded] at part
    exact Repeats.head part (Repeats.refl _ _)
  | ok made =>
    rw [decoded] at part
    exact Repeats.head part (Repeats.refl _ _)

/-- The next chunk is looked up when the one before it has no messages left. -/
theorem peekPart_opens {reader : Reader} {cursor : StreamCursor} (idle : cursor.peeked = none)
    (between : cursor.currentOrds.getD [] = []) {plan : ChunkPlan} {planIdx : Nat}
    (skips : StreamCursor.skipEmpty (cursor.plans.drop cursor.planIdx) cursor.planIdx =
      (some plan, planIdx)) (cache : ChunkCache) (phase : Lru.Phase DecodedChunk) :
    peekPart reader cache cursor phase =
      match cache.advance DecodedChunk.heapBytes reader.chunkBudgetBytes
          ⟨plan.stream, plan.entry.startSlot⟩
          (decodeChunk reader.codecs (reader.zstFile plan.entry)) phase with
      | (.error error, cache) => (.error (.decode error), cache)
      | (.ok (.goesOn phase), cache) => (.ok (cursor, phase), cache)
      | (.ok (.returns decoded), cache) =>
          (.ok ({ cursor with
            planIdx
            currentDecoded := some decoded
            currentOrds := some (ordinals plan.union) }, .lookup), cache) := by
  rw [peekPart.eq_def, idle]
  generalize StreamCursor.skipEmpty (cursor.plans.drop cursor.planIdx) cursor.planIdx = skipped
    at skips ⊢
  subst skips
  rcases ords : cursor.currentOrds with _ | _ | ⟨ord, rest⟩
  · rfl
  · rfl
  · simp [ords] at between

/-- The next chunk with a message is opened. -/
theorem openNext_alone {cursor : StreamCursor} (idle : cursor.peeked = none)
    (between : cursor.currentOrds.getD [] = []) (chunks : ChunkCache) :
    let begins := w.peeksOn id parsed cursors phases stream cursor .lookup chunks
    match StreamCursor.openNext (reader.seeing w.files) cursor chunks with
    | .ok (_, cursor', after) => Repeats reader retentionHours (.peek id stream) begins
        (w.peeksOn id parsed cursors phases stream cursor' .lookup after)
    | .error error => ∃ after, Repeats reader retentionHours (.peek id stream) begins
        (w.replayFails id error after) := by
  have part : ∀ (phase : Lru.Phase DecodedChunk) (cache : ChunkCache),
      act reader retentionHours (w.peeksOn id parsed cursors phases stream cursor phase cache)
        (.peek id stream) = _ := fun phase cache => act_peek cursor phase cache
  rw [StreamCursor.openNext]
  rcases skips : StreamCursor.skipEmpty (cursor.plans.drop cursor.planIdx) cursor.planIdx with
    ⟨_ | plan, planIdx⟩
  · apply Repeats.head _ (Repeats.refl _ _)
    rw [part, peekPart.eq_def, idle]
    rcases ords : cursor.currentOrds with _ | _ | ⟨ord, rest⟩
    · simp only [skips]
    · simp only [skips]
    · simp [ords] at between
  · simp only [peekPart_opens idle between skips] at part
    dsimp only
    cases found : getOrDecode (reader.seeing w.files).codecs (reader.seeing w.files).chunkBudgetBytes
        chunks ⟨plan.stream, plan.entry.startSlot⟩ ((reader.seeing w.files).zstFile plan.entry) with
    | error error =>
      obtain ⟨miss, load⟩ := Lru.getOrLoad_fails found
      refine ⟨chunks, Repeats.head (part .lookup chunks) ?_⟩
      rw [miss]
      refine Repeats.head (part .load chunks) ?_
      rw [load]
      exact Repeats.refl _ _
    | ok looked =>
      obtain ⟨decoded, after⟩ := looked
      -- the chunk is open, and its first message is still to be decoded
      have opened : Repeats reader retentionHours (.peek id stream)
          (w.peeksOn id parsed cursors phases stream cursor .lookup chunks)
          (w.peeksOn id parsed cursors phases stream
            { cursor with
              planIdx
              currentDecoded := some decoded
              currentOrds := some (ordinals plan.union) } .lookup after) := by
        rcases Lru.getOrLoad_parts found with hit | ⟨fresh, miss, load, store⟩
        · apply Repeats.head (part .lookup chunks)
          rw [hit]
          exact Repeats.refl _ _
        · apply Repeats.head (part .lookup chunks)
          rw [miss]
          apply Repeats.head (part .load chunks)
          rw [load]
          apply Repeats.head (part (.store fresh) chunks)
          rw [store]
          exact Repeats.refl _ _
      dsimp only
      cases first : ordinals plan.union with
      | nil =>
        rw [first] at opened
        exact opened
      | cons ord rest =>
        rw [first] at opened
        have decodes := @decodeNext_alone reader retentionHours w id parsed cursors phases stream
          { cursor with
            planIdx
            currentDecoded := some decoded
            currentOrds := some (ord :: rest) } idle ord rest rfl after
        dsimp only [bind, Except.bind] at decodes ⊢
        split at decodes
        · next item cursor' done =>
          rw [done]
          exact opened.trans decodes
        · next error failed =>
          rw [failed]
          exact ⟨after, opened.trans decodes⟩

/-- Peeking at a cursor that nobody interrupts is `StreamCursor.peek`. -/
theorem peek_alone (isReplaying : w.callers id = .replaying parsed cursors phases)
    {cursor : StreamCursor} (has : cursors stream = some cursor)
    (fresh : phases stream = .lookup) :
    match cursor.peek (reader.seeing w.files) w.chunks with
    | .ok (_, cursor', chunks) => Repeats reader retentionHours (.peek id stream) w
        (w.peeksOn id parsed cursors phases stream cursor' .lookup chunks)
    | .error error => ∃ chunks, Repeats reader retentionHours (.peek id stream) w
        (w.replayFails id error chunks) := by
  have begins : w = w.peeksOn id parsed cursors phases stream cursor .lookup w.chunks := by
    rw [World.peeksOn, ← has, ← fresh, Function.update_eq_self, Function.update_eq_self,
      World.setCaller, ← isReplaying, Function.update_eq_self]
  rw [StreamCursor.peek]
  cases shown : cursor.peeked with
  | some item =>
    dsimp only
    rw [← begins]
    exact Repeats.refl _ _
  | none =>
    rcases ords : cursor.currentOrds with _ | _ | ⟨ord, rest⟩
    · have opens := @openNext_alone reader retentionHours w id parsed cursors phases stream cursor
        shown (by simp [ords]) w.chunks
      rw [← begins] at opens
      exact opens
    · have opens := @openNext_alone reader retentionHours w id parsed cursors phases stream cursor
        shown (by simp [ords]) w.chunks
      rw [← begins] at opens
      exact opens
    · have decodes := @decodeNext_alone reader retentionHours w id parsed cursors phases stream
        cursor shown ord rest ords w.chunks
      rw [← begins] at decodes
      dsimp only [bind, Except.bind] at decodes ⊢
      split at decodes
      · next item cursor' done =>
        rw [done]
        exact decodes
      · next error failed =>
        rw [failed]
        exact ⟨w.chunks, decodes⟩

end Peeking

/-! ## Cycles of the syncer -/

/-- A world in which the disk and the syncer have changed. -/
def World.syncs (w : World) (files : Files) (stage : Stage) (lanes : List (List (Stream × FileStep)))
    (changed : Bool) : World :=
  { w with files, syncer := { stage, lanes, changed } }

/-- An act of the syncer. -/
def Act.ofSyncer : Act → Bool
  | .list _ _ => true
  | .disk _ => true
  | .sweep _ _ => true
  | .publish _ => true
  | _ => false

/-- The changes of one lane are made one after the other. -/
theorem lane_alone (w : World) (files : Files) (stage : Stage) (changed : Bool)
    (before after : List (List (Stream × FileStep))) (steps : List (Stream × FileStep)) :
    Repeats reader retentionHours (.disk before.length)
      (w.syncs files stage (before ++ steps :: after) changed)
      (w.syncs (performOn files steps) stage (before ++ [] :: after) changed) := by
  induction steps generalizing files with
  | nil => exact Repeats.refl _ _
  | cons step rest inductionHypothesis =>
    apply Repeats.head _ (inductionHypothesis (applyOn files step))
    simp [act, World.syncs]

/-- The lanes are worked off one after the other. -/
theorem lanes_alone (w : World) (files : Files) (stage : Stage) (changed : Bool)
    (before after : List (List (Stream × FileStep))) :
    ∃ acts, acts.all Act.ofSyncer = true ∧
      run reader retentionHours (w.syncs files stage (before ++ after) changed) acts =
        w.syncs (performOn files after.flatten) stage
          (before ++ List.replicate after.length []) changed := by
  induction after generalizing files before with
  | nil => exact ⟨[], rfl, by simp [run, performOn]⟩
  | cons steps rest inductionHypothesis =>
    obtain ⟨times, own⟩ := @lane_alone reader retentionHours w files stage changed before rest steps
    obtain ⟨acts, syncer, others⟩ := inductionHypothesis (performOn files steps) (before ++ [[]])
    refine ⟨List.replicate times (.disk before.length) ++ acts, ?_, ?_⟩
    · simp [syncer, Act.ofSyncer]
    · rw [run_append, own, ← List.singleton_append, ← List.append_assoc, others,
        List.flatten_cons, performOn_append, List.length_cons, List.replicate_succ]
      simp

/-- A sweep visits exactly the chunks to evict. -/
theorem victims_toFinset (order : SetOrder) (files : Files) :
    (victims order retentionHours files).toFinset = evicted (localChunks files) retentionHours := by
  apply Finset.ext
  intro key
  rw [List.mem_toFinset, victims, List.mem_filter, order.lists, decide_eq_true_eq,
    and_iff_right_of_imp (fun isVictim => (mem_evicted.mp isVictim).1)]

/-- A cycle that nobody interrupts leaves the disk and the catalog that `cycle` does. -/
theorem cycle_alone {w : World} (isIdle : w.syncer = ⟨.idle, [], false⟩) (c : Cycle) :
    ∃ acts, acts.all Act.ofSyncer = true ∧
      let served := cycle reader.codecs retentionHours ⟨w.files, w.catalog⟩ c
      run reader retentionHours w acts =
        { w with files := served.files, catalog := served.catalog } := by
  cases asked : c.remote with
  | none => exact ⟨[], rfl, by simp [run, cycle, asked]⟩
  | some remote =>
    let keys := diffForSync (localChunks w.files) remote retentionHours
    let downloaded := performOn w.files (downloadsSteps c.fetch keys)
    let visits := victims c.sweeps retentionHours downloaded
    let landed := keys.any (fun key => (downloadSteps key (c.fetch key) trio).2)
    let swept := performOn downloaded (visits.flatMap (removals c.refuses))
    obtain ⟨downloads, downloading, downloads'⟩ := @lanes_alone reader retentionHours w w.files
      .downloading landed [] (keys.map (fun key => chunkSteps key (c.fetch key)))
    obtain ⟨sweeps, sweeping, sweeps'⟩ := @lanes_alone reader retentionHours w downloaded
      .sweeping (landed || !visits.isEmpty) [] [visits.flatMap (removals c.refuses)]
    refine ⟨.list remote c.fetch :: downloads ++ .sweep visits c.refuses :: sweeps ++ [.publish c.rescans],
      by simp [downloading, sweeping, Act.ofSyncer], ?_⟩
    have lists : act reader retentionHours w (.list remote c.fetch) = w.syncs w.files .downloading
        ([] ++ keys.map (fun key => chunkSteps key (c.fetch key))) landed := by
      simp [act, isIdle, World.syncs, keys, landed]
    have begins : act reader retentionHours (w.syncs downloaded .downloading
        ([] ++ List.replicate keys.length []) landed) (.sweep visits c.refuses) =
          w.syncs downloaded .sweeping ([] ++ [visits.flatMap (removals c.refuses)])
            (landed || !visits.isEmpty) := by
      have once : visits.Nodup := (c.sweeps.nodup _).filter _
      simp [act, World.syncs, World.settled, once, visits, victims_toFinset]
    have publishes : act reader retentionHours (w.syncs swept .sweeping ([] ++ List.replicate 1 [])
        (landed || !visits.isEmpty)) (.publish c.rescans) =
          { w with
            files := swept
            catalog := if (landed || !visits.isEmpty) = true then
              scanIn reader.codecs c.rescans swept else w.catalog } := by
      simp [act, World.syncs, World.settled, isIdle]
    have counts : (landed || !visits.isEmpty) = true ↔
        0 < (keys.filter (fun key => (downloadSteps key (c.fetch key) trio).2)).length ∨
          0 < visits.length := by
      simp [landed, List.length_pos_iff, List.filter_eq_nil_iff]
    have together : performOn w.files
        (keys.map (fun key => chunkSteps key (c.fetch key))).flatten = downloaded := rfl
    have removed : performOn downloaded [visits.flatMap (removals c.refuses)].flatten = swept := by
      simp [swept]
    rw [run_concat, List.cons_append, run_cons, lists, run_append, downloads', List.length_map,
      together, run_cons, begins, sweeps', removed, List.length_singleton, publishes]
    simp only [cycle, asked, downloadAll_eq, counts]
    rfl

end Serving

end Sillage
