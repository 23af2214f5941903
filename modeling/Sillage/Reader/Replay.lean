import Sillage.Reader.Pacing
import Sillage.Reader.Plan

/-!
# Driving a replay

Each planned stream has a cursor that decodes one message ahead. A replay repeatedly
takes the cursor whose message has the least slot, the earlier stream winning a tie,
skips the message if it is below the requested slot, and otherwise paces and sends it.

What the clock and the subscriber do in each iteration is a parameter. Every message
carries its origin, and the messages handed to the subscriber are collected; the source
keeps neither.
-/

namespace Sillage

open LittleEndian Idx Chunk

/-- The place of a stored message. -/
structure Origin where
  stream : Stream
  startSlot : Nat
  ordinal : Nat
deriving DecidableEq

/-- A decoded message at the head of a cursor. -/
structure Peeked where
  slot : Nat
  update : SubscribeUpdate
  names : List String
  recvNs : Option Nat
  origin : Origin
deriving DecidableEq

/-- A message handed to the subscriber. -/
structure Sent where
  origin : Origin
  slot : Nat
  update : SubscribeUpdate
deriving DecidableEq

/-- What ends a replay with an error. A panic stands for a failed `expect`; a replay
never stays unfinished. -/
inductive ReplayError where
  | decode (error : DecodeError)
  | panic
  | unfinished
deriving DecidableEq

/-- An update, labelled with the filters that selected it. -/
def setFilters (update : SubscribeUpdate) (names : List String) : SubscribeUpdate :=
  { update with filters := names }

/-- The receive time of a message: its own, or interpolated from the sidecar. Sums and
differences are narrowed to 64 bits. -/
def extractRecvNs (msg : SubscribeUpdate) (chunkMeta : ChunkMeta) (ordInChunk : Nat) :
    Option Nat :=
  let interpolated := chunkMeta.recvNsFirst.map (fun first =>
    let last := chunkMeta.recvNsLast.getD first
    let count := chunkMeta.messageCount
    if count ≤ 1 ∨ last = first then first
    else
      let span := (last + u64Bound - first) % u64Bound
      (first + ordInChunk * span / (count - 1)) % u64Bound)
  match msg.createdAt with
  | some ts =>
      if 0 ≤ ts.seconds then
        some ((ts.seconds.toNat * 10 ^ 9 + (ts.nanos % u64Bound).toNat) % u64Bound)
      else interpolated
  | none => interpolated

/-- The cursor of a stream: its plans, the chunk that is open, and the message that was peeked
at. -/
structure StreamCursor where
  plans : List ChunkPlan
  planIdx : Nat
  currentDecoded : Option DecodedChunk
  currentOrds : Option (List Nat)
  peeked : Option Peeked

/-- The message of a plan at an ordinal. -/
def peekedAt (plan : ChunkPlan) (ord : Nat) (msg : SubscribeUpdate) : Peeked where
  slot := (extractSlot msg).getD 0
  update := msg
  names := (plan.namedBitmaps.filter (fun named => ord ∈ named.2)).map Prod.fst
  recvNs := extractRecvNs msg plan.entry.meta ord
  origin := ⟨plan.stream, plan.entry.startSlot, ord⟩

namespace StreamCursor

/-- A cursor in front of its plans. -/
def new (plans : List ChunkPlan) : StreamCursor where
  plans := plans
  planIdx := 0
  currentDecoded := none
  currentOrds := none
  peeked := none

/-- The first of the plans left whose bitmap is not empty, and the index behind it. -/
def skipEmpty : List ChunkPlan → Nat → Option ChunkPlan × Nat
  | [], planIdx => (none, planIdx)
  | plan :: rest, planIdx =>
      if plan.union = ∅ then skipEmpty rest (planIdx + 1) else (some plan, planIdx + 1)

/-- The plan right before an index, which is that of the chunk that is open. Before the first
one there is none: the source's index would underflow. -/
def openPlan (plans : List ChunkPlan) : Nat → Option ChunkPlan
  | 0 => none
  | before + 1 => plans[before]?

/-- Decode the next ordinal of the current plan and keep it as the head. -/
def decodeNext (reader : Reader) (cursor : StreamCursor) (ord : Nat) (rest : List Nat) :
    Except ReplayError (Option Peeked × StreamCursor) :=
  match cursor.currentDecoded, openPlan cursor.plans cursor.planIdx with
  | some decoded, some plan =>
      match decoded.decodeMessage reader.codecs ord with
      | .error error => .error (.decode error)
      | .ok msg =>
          let item := peekedAt plan ord msg
          .ok (some item, { cursor with currentOrds := some rest, peeked := some item })
  | _, _ => .error .panic

/-- Go on to the next plan that holds a message. A plan whose bitmap is not empty has a
first ordinal, so that the last branch is never taken. -/
def openNext (reader : Reader) (cursor : StreamCursor) (cache : ChunkCache) :
    Except ReplayError (Option Peeked × StreamCursor × ChunkCache) :=
  match skipEmpty (cursor.plans.drop cursor.planIdx) cursor.planIdx with
  | (none, planIdx) => .ok (none, { cursor with planIdx }, cache)
  | (some plan, planIdx) =>
      match getOrDecode reader.codecs reader.chunkBudgetBytes cache
          ⟨plan.stream, plan.entry.startSlot⟩ (reader.zstFile plan.entry) with
      | .error error => .error (.decode error)
      | .ok (decoded, cache) =>
          let cursor := { cursor with
            planIdx
            currentDecoded := some decoded
            currentOrds := some (ordinals plan.union) }
          match ordinals plan.union with
          | ord :: rest => do
              let (item, cursor) ← decodeNext reader cursor ord rest
              .ok (item, cursor, cache)
          | [] => .ok (none, cursor, cache)

/-- The head of the cursor, decoded on demand. -/
def peek (reader : Reader) (cursor : StreamCursor) (cache : ChunkCache) :
    Except ReplayError (Option Peeked × StreamCursor × ChunkCache) :=
  match cursor.peeked with
  | some item => .ok (some item, cursor, cache)
  | none =>
      match cursor.currentOrds with
      | some (ord :: rest) => do
          let (item, cursor) ← decodeNext reader cursor ord rest
          .ok (item, cursor, cache)
      | some [] => openNext reader cursor cache
      | none => openNext reader cursor cache

/-- Take the head off the cursor. -/
def takePeeked (cursor : StreamCursor) : Option (Peeked × StreamCursor) :=
  cursor.peeked.map (fun item => (item, { cursor with peeked := none }))

end StreamCursor

/-- What a replay reports at its end. -/
structure ReplayStats where
  sent : Nat
  bytes : Nat
  lagMax : Nat
  lastSlot : Option Nat
  drained : Bool
deriving DecidableEq

/-- How the subscriber's channel takes a message. -/
inductive SendOutcome where
  | sent
  | timedOut
  | closed
deriving DecidableEq

/-- What happens around one iteration: the clock when the target is computed, whether
the shutdown signal comes before the target, the channel, and the clock after sending. -/
structure Iteration where
  targetNow : Nat
  cancelled : Bool
  outcome : SendOutcome
  emitNow : Nat

/-- Why a replay ends. -/
inductive Exit where
  | drained
  | shutdown
  | timedOut
  | closed
  | lagDrop
deriving DecidableEq

/-- What the loop of a replay carries from iteration to iteration. -/
structure DriveState where
  cursors : Stream → Option StreamCursor
  cache : ChunkCache
  pacer : Pacer
  emitted : Nat
  bytes : Nat
  lastSlot : Option Nat
  lagMax : Nat
  sent : List (Stream × Sent)

/-- One iteration goes on or ends the replay. -/
inductive Progress where
  | continues (s : DriveState)
  | ends (exit : Exit) (s : DriveState)

namespace Replay

variable (reader : Reader)

/-- A candidate precedes the best so far, by slot and then by stream. -/
def precedes (candidate : Nat × Stream) : Option (Stream × Nat) → Bool
  | none => true
  | some (stream, slot) =>
      candidate.1 < slot ∨ (candidate.1 = slot ∧ candidate.2 < stream)

/-- The best head so far, or the one that a stream shows if it precedes that. -/
def choose (stream : Stream) (best : Option (Stream × Nat)) : Option Peeked → Option (Stream × Nat)
  | none => best
  | some item => if precedes (item.slot, stream) best then some (stream, item.slot) else best

/-- Peek at the cursors of a list of streams and pick the best head. -/
def peekStreams : List Stream → (Stream → Option StreamCursor) → ChunkCache →
    Option (Stream × Nat) →
    Except ReplayError (Option (Stream × Nat) × (Stream → Option StreamCursor) × ChunkCache)
  | [], cursors, cache, best => .ok (best, cursors, cache)
  | stream :: rest, cursors, cache, best =>
      match cursors stream with
      | none => peekStreams rest cursors cache best
      | some cursor => do
          let (item, cursor, cache) ← cursor.peek reader cache
          peekStreams rest (Function.update cursors stream (some cursor)) cache
            (choose stream best item)

/-- Pace and send a message. -/
def emit (now : Iteration) (winner : Stream) (item : Peeked) (s : DriveState) : Progress :=
  let filtered := setFilters item.update item.names
  let (target, pacer) := s.pacer.target now.targetNow item.recvNs
  let s := { s with pacer }
  if now.cancelled then .ends .shutdown s
  else
    match now.outcome with
    | .timedOut => .ends .timedOut s
    | .closed => .ends .closed s
    | .sent =>
        let s := { s with
          bytes := s.bytes + (reader.codecs.prostEncode filtered).length
          lastSlot := some item.slot
          sent := s.sent ++ [(winner, Sent.mk item.origin item.slot filtered)] }
        match s.pacer.observeEmit now.emitNow target with
        | (.drop _, pacer) => .ends .lagDrop { s with pacer }
        | (.warn lag, pacer) =>
            .continues { s with pacer, lagMax := max s.lagMax lag, emitted := s.emitted + 1 }
        | (.ok, pacer) => .continues { s with pacer, emitted := s.emitted + 1 }

/-- One iteration of the merge loop. -/
def driveStep (fromSlot : Nat) (now : Iteration) (s : DriveState) :
    Except ReplayError Progress := do
  let (best, cursors, cache) ← peekStreams reader Stream.all s.cursors s.cache none
  match best with
  | none => .ok (.ends .drained { s with cursors, cache })
  | some (winner, slot) =>
      match (cursors winner).bind StreamCursor.takePeeked with
      | none => .error .panic
      | some (item, cursor) =>
          let s := { s with cursors := Function.update cursors winner (some cursor), cache }
          if slot < fromSlot then .ok (.continues s)
          else .ok (emit reader now winner item s)

/-- At most `fuel` iterations from the given one on. -/
def driveLoop (fromSlot : Nat) (env : Nat → Iteration) :
    Nat → Nat → DriveState → Except ReplayError (Exit × DriveState)
  | 0, _, _ => .error .unfinished
  | fuel + 1, round, s => do
      match ← driveStep reader fromSlot (env round) s with
      | .ends exit s => .ok (exit, s)
      | .continues s => driveLoop fromSlot env fuel (round + 1) s

/-- The number of messages that a stream's plans hold. -/
def planned (plans : List ChunkPlan) : Nat := (plans.map (fun plan => plan.union.card)).sum

/-- What a replay returns, with the reason it ended and the messages it sent. -/
structure Outcome where
  stats : ReplayStats
  exit : Exit
  sent : List (Stream × Sent)
  pacer : Pacer
  cache : ChunkCache

/-- Drive a replay to its end. Every iteration but the last takes one message off a
cursor, which bounds their number. -/
def driveReplay (env : Nat → Iteration) (plan : ReplayPlan) (cache : ChunkCache)
    (pacer : Pacer) : Except ReplayError Outcome := do
  let start : DriveState :=
    { cursors := fun stream =>
        if plan.plansPerStream stream = [] then none
        else some (StreamCursor.new (plan.plansPerStream stream))
      cache
      pacer
      emitted := 0
      bytes := 0
      lastSlot := none
      lagMax := 0
      sent := [] }
  let (exit, s) ← driveLoop reader plan.fromSlot env
    ((Stream.all.map (fun stream => planned (plan.plansPerStream stream))).sum + 1) 0 start
  .ok
    { stats :=
        { sent := s.emitted
          bytes := s.bytes
          lagMax := s.lagMax
          lastSlot := s.lastSlot
          drained := exit = .drained }
      exit
      sent := s.sent
      pacer := s.pacer
      cache := s.cache }

end Replay

end Sillage
