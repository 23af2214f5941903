import Sillage.Foundation.Promises
import Sillage.Reader.Accounting
import Sillage.Reader.Serving

/-!
# What a replay takes for granted

A cursor expects the chunk that it is in the middle of to be decoded, and indexes the plan
that it belongs to; the loop expects the cursor it has picked to show a message. None of
this can fail, whatever the chunks decode to and whatever the caches hold: what ends a
replay with an error is a chunk that cannot be decoded.
-/

namespace Sillage

open LittleEndian Idx

/-- An error that is about a chunk that cannot be decoded. -/
def Replay.IsDecode (error : ReplayError) : Prop := ∃ e, error = .decode e

namespace StreamCursor

/-- In the middle of a chunk a cursor has the decoded chunk and its plan. -/
def Placed (cursor : StreamCursor) : Prop :=
  ∀ ord rest, cursor.currentOrds = some (ord :: rest) →
    ∃ chunk plan, cursor.currentDecoded = some chunk ∧
      openPlan cursor.plans cursor.planIdx = some plan

variable {reader : Reader} {cursor : StreamCursor} {cache : ChunkCache}

/-- A new cursor has no chunk open, and so none behind a plan that is missing. -/
theorem placed_new (plans : List ChunkPlan) : (new plans).Placed := by
  intro ord rest impossible
  cases impossible

/-- With the chunk and the plan there, decoding fails for the message only. -/
theorem decodeNext_expects {ord : Nat} {rest : List Nat} {chunk : DecodedChunk} {plan : ChunkPlan}
    (isOpen : cursor.currentDecoded = some chunk)
    (here : openPlan cursor.plans cursor.planIdx = some plan) :
    Promises Replay.IsDecode (fun made => made.2.Placed) (decodeNext reader cursor ord rest) := by
  rw [decodeNext, isOpen, here]
  dsimp only
  cases chunk.decodeMessage reader.codecs ord with
  | error error => exact .error ⟨error, rfl⟩
  | ok msg => exact fun _ _ _ => ⟨chunk, plan, rfl, here⟩

/-- The next plan is there once it has been opened. -/
theorem openNext_expects (exhausted : cursor.currentOrds.getD [] = []) :
    Promises Replay.IsDecode (fun made => made.2.1.Placed) (openNext reader cursor cache) := by
  have opened := skipEmpty_spec reader cursor.plans cursor.planIdx _ rfl
  rw [openNext]
  rcases found : skipEmpty (cursor.plans.drop cursor.planIdx) cursor.planIdx with
    ⟨_ | plan, after⟩
  · intro ord rest ords
    rw [show cursor.currentOrds = some (ord :: rest) from ords] at exhausted
    cases exhausted
  · rw [found] at opened
    obtain ⟨-, -, here, -⟩ := opened
    dsimp only
    cases getOrDecode reader.codecs reader.chunkBudgetBytes cache
        ⟨plan.stream, plan.entry.startSlot⟩ (reader.zstFile plan.entry) with
    | error error => exact .error ⟨error, rfl⟩
    | ok accessed =>
      obtain ⟨chunk, cache₁⟩ := accessed
      dsimp only
      cases ordinals plan.union with
      | nil => exact fun _ _ _ => ⟨chunk, plan, rfl, here⟩
      | cons ord rest => exact (decodeNext_expects rfl here).bind (fun _ _ placed => placed)

/-- Peeking at a cursor fails only if something cannot be decoded. -/
theorem peek_expects (placed : cursor.Placed) :
    Promises Replay.IsDecode (fun made => made.2.1.Placed) (cursor.peek reader cache) := by
  rw [peek]
  cases cursor.peeked with
  | some head => exact placed
  | none =>
    dsimp only
    cases ords : cursor.currentOrds with
    | none => exact openNext_expects (by rw [ords]; rfl)
    | some left =>
      cases left with
      | nil => exact openNext_expects (by rw [ords]; rfl)
      | cons ord rest =>
        obtain ⟨chunk, plan, isOpen, here⟩ := placed ord rest ords
        exact (decodeNext_expects isOpen here).bind (fun _ _ placed => placed)

end StreamCursor

namespace Replay

variable {reader : Reader}

/-- All cursors are between two chunks or have theirs. -/
def Placed (cursors : Stream → Option StreamCursor) : Prop :=
  ∀ stream cursor, cursors stream = some cursor → cursor.Placed

/-- Peeking at the cursors of all streams fails only if something cannot be decoded. -/
theorem peekStreams_expects {todo : List Stream} {cursors : Stream → Option StreamCursor}
    {cache : ChunkCache} {best : Option (Stream × Nat)} (placed : Placed cursors) :
    Promises IsDecode (fun made => Placed made.2.1)
      (peekStreams reader todo cursors cache best) := by
  induction todo generalizing cursors cache best with
  | nil => exact placed
  | cons stream rest inductionHypothesis =>
    rw [peekStreams]
    cases found : cursors stream with
    | none => exact inductionHypothesis placed
    | some cursor =>
      exact (StreamCursor.peek_expects (placed stream cursor found)).bind
        (fun _ _ own => inductionHypothesis (Tables.forall_update_some placed own))

/-- The cursor that has been picked shows a message, so that taking a head fails for what it
decodes only. -/
theorem dequeue_expects {cursors : Stream → Option StreamCursor} {cache : ChunkCache}
    (placed : Placed cursors) (slotted : Slotted cursors) :
    Promises IsDecode (fun made => Placed made.2.1) (dequeue reader cursors cache) := by
  refine (peekStreams_expects placed).bind ?_
  rintro ⟨best, cursors₁, cache₁⟩ peeked placed₁
  have nothing : Shown cursors none := fun _ _ impossible => by cases impossible
  obtain ⟨-, -, shown, -⟩ := peekStreams_origins (by decide) slotted nothing
    (fun _ _ impossible => by cases impossible) peeked
  cases best with
  | none => exact placed₁
  | some best =>
    obtain ⟨winner, slot⟩ := best
    obtain ⟨cursor, item, has, isHead, -⟩ := shown winner slot rfl
    have taken : (cursors₁ winner).bind StreamCursor.takePeeked =
        some (item, { cursor with peeked := none }) := by
      rw [has, Option.bind_some, StreamCursor.takePeeked, isHead]
      rfl
    dsimp only
    rw [taken]
    exact Tables.forall_update_some placed₁ (fun ord rest ords => placed₁ winner cursor has ord rest ords)

/-- A loop with more iterations than messages fails for a chunk that cannot be decoded only. -/
theorem driveLoop_decodes {fromSlot : Nat} {env : Nat → Iteration} {error : ReplayError}
    (fuel : Nat) {round : Nat} {s : DriveState} (enough : left s.cursors < fuel)
    (placed : Placed s.cursors) (slotted : Slotted s.cursors)
    (failed : driveLoop reader fromSlot env fuel round s = .error error) : IsDecode error := by
  induction fuel generalizing round s with
  | zero => exact absurd enough (Nat.not_lt_zero _)
  | succ fuel inductionHypothesis =>
    simp only [driveLoop, driveStep_eq, bind, Except.bind] at failed
    cases taken : dequeue reader s.cursors s.cache with
    | error other =>
      rw [taken] at failed
      cases failed
      exact (dequeue_expects placed slotted).of_error taken
    | ok found =>
      obtain ⟨head, cursors, cache⟩ := found
      rw [taken] at failed
      have placed' : Placed cursors := (dequeue_expects placed slotted).of_ok taken
      cases head with
      | none => cases failed
      | some head =>
        have less := dequeue_left taken
        have enough' : left cursors < fuel := by omega
        obtain ⟨winner, slot, item⟩ := head
        obtain ⟨-, -, -, -, slotted'⟩ := dequeue_origins slotted taken
        simp only [Except.map, deliver] at failed
        by_cases below : slot < fromSlot
        · simp only [below, if_true] at failed
          exact @inductionHypothesis _ { s with cursors, cache } enough' placed' slotted' failed
        · simp only [below, if_false] at failed
          rcases @emit_spec reader (env round) winner item { s with cursors, cache } with
            ⟨s₁, emitted, sameCursors, -⟩ | ⟨exit, s₁, taken, ended, -⟩
          · rw [emitted] at failed
            have same : s₁.cursors = cursors := sameCursors
            exact inductionHypothesis (by rw [same]; exact enough') (by rw [same]; exact placed')
              (by rw [same]; exact slotted') failed
          · rw [ended] at failed
            cases failed

/-- The cursors of a new replay are in their places. -/
theorem placed_opening (plan : ReplayPlan) : Placed (opening plan) := by
  intro stream cursor has
  rw [opening] at has
  split at has
  · cases has
  · cases has
    exact StreamCursor.placed_new _

/-- A replay fails only if something cannot be decoded. -/
theorem driveReplay_decodes {env : Nat → Iteration} {plan : ReplayPlan} {cache : ChunkCache}
    {pacer : Pacer} {error : ReplayError}
    (failed : driveReplay reader env plan cache pacer = .error error) : IsDecode error := by
  rw [driveReplay_eq] at failed
  cases ended : driveLoop reader plan.fromSlot env (bound plan) 0 (begun plan cache pacer) with
  | error other =>
    rw [ended] at failed
    cases failed
    exact driveLoop_decodes (bound plan) (s := begun plan cache pacer) (left_opening plan)
      (placed_opening plan) (opening_origins plan).1 ended
  | ok found =>
    rw [ended] at failed
    cases failed

end Replay

namespace Follow

variable {reader : Reader} {ctx : FollowContext}

/-- There is no slot to resume from behind the greatest one. -/
theorem resumeFrom_fails {lastSlot : Option Nat} {reason : FollowEnd}
    (failed : resumeFrom ctx lastSlot = .error reason) :
    reason = .overflow ∧ ∃ slot, lastSlot = some slot ∧ u64Bound ≤ slot + 1 := by
  cases lastSlot with
  | none => cases failed
  | some slot =>
    rw [resumeFrom.eq_def] at failed
    dsimp only at failed
    split at failed
    · cases failed
    · next beyond =>
      cases failed
      exact ⟨rfl, slot, rfl, Nat.le_of_not_lt beyond⟩

/-- Without a plan there is no slot to resume from, or nothing can be planned from it. -/
theorem nextPlan_fails {turn : Turn} {s : FollowState} {reason : FollowEnd}
    (failed : nextPlan reader ctx turn s = .error reason) :
    (reason = .overflow ∧ ∃ slot, s.total.lastSlot = some slot ∧ u64Bound ≤ slot + 1) ∨
      ∃ error, reason = .cannotPlan error := by
  rw [nextPlan] at failed
  cases planned : s.planned with
  | some own =>
    rw [planned] at failed
    cases failed
  | none =>
    rw [planned] at failed
    dsimp only at failed
    cases resume : resumeFrom ctx s.total.lastSlot with
    | error other =>
      rw [resume] at failed
      cases failed
      exact .inl (resumeFrom_fails resume)
    | ok found =>
      rw [resume] at failed
      simp only [bind, Except.bind] at failed
      split at failed
      · next error _ =>
        cases failed
        exact .inr ⟨error, rfl⟩
      · cases failed

/-- What the end of a follower tells about it. -/
def Tells (s : FollowState) : FollowEnd → Prop
  | .overflow => ∃ slot, s.total.lastSlot = some slot ∧ u64Bound ≤ slot + 1
  | .failed error => Replay.IsDecode error
  | .passEnded => ∃ pass, s.passes.getLast? = some pass ∧ pass.outcome.exit ≠ .drained
  | _ => True

/-- The end of a turn tells what has been the matter. -/
theorem followTurn_tells {turn : Turn} {s s' : FollowState} {reason : FollowEnd}
    (ended : followTurn reader ctx turn s = .ends reason s') : Tells s' reason := by
  rcases followTurn_cases reader ctx turn s with stopped | ⟨other, next, unplanned⟩ |
    ⟨catalog, plan, indexCache, -, ⟨error, drove, failed⟩ | ⟨outcome, drove, settled⟩⟩
  · cases stopped.symm.trans ended
    trivial
  · cases unplanned.symm.trans ended
    rcases nextPlan_fails next with ⟨rfl, beyond⟩ | ⟨error, rfl⟩
    · exact beyond
    · trivial
  · cases failed.symm.trans ended
    exact Replay.driveReplay_decodes drove
  · rw [settled] at ended
    rcases settle_cases ctx turn outcome.stats (passed s ⟨catalog, plan, outcome⟩ indexCache) with
      ⟨undrained, early⟩ | ⟨-, ⟨deadline, goes⟩ | ⟨-, idle⟩ | stopped⟩
    · cases early.symm.trans ended
      refine ⟨⟨catalog, plan, outcome⟩, List.getLast?_concat, fun drained => ?_⟩
      obtain ⟨exit, drive, -, -, -, same⟩ := Replay.driveReplay_counts drove
      rw [same] at undrained drained
      exact of_decide_eq_false undrained drained
    · cases goes.symm.trans ended
    · cases idle.symm.trans ended
      trivial
    · cases stopped.symm.trans ended
      trivial

/-- A follower fails only if something cannot be decoded. -/
theorem followLoop_decodes {env : Nat → Turn} {turns round : Nat} {s : FollowState}
    {error : ReplayError}
    (failed : (followLoop reader ctx env turns round s).2 = some (.failed error)) :
    Replay.IsDecode error := by
  have run := followLoop_runs reader ctx (fun _ _ => True)
    (fun reason _ => ∀ error, reason = .failed error → Replay.IsDecode error)
    (by
      intro round _ s _
      cases turned : followTurn reader ctx (env round) s with
      | continues _ => trivial
      | ends reason s' =>
        rintro error rfl
        exact followTurn_tells turned)
    turns round 0 (s := s) trivial
  rcases ended : followLoop reader ctx env turns round s with ⟨s', reason⟩
  rw [ended] at run failed
  cases failed
  exact run error rfl

/-- Whatever the published catalogs, the clocks and the subscriber do, and whatever the chunk
files and the caches hold, a follower that ends with an error ends because a chunk cannot be
decoded. -/
theorem followReplay_decodes (reader : Reader) (ctx : FollowContext) (env : Nat → Turn)
    (turns now : Nat) (catalog : ChunkCatalog) (plan : ReplayPlan) (indexCache : IndexCache)
    (chunkCache : ChunkCache) {error : ReplayError}
    (failed : (followReplay reader ctx env turns now catalog plan indexCache chunkCache).2 =
      some (.failed error)) : ∃ e, error = .decode e :=
  followLoop_decodes failed

/-- A reader with a chunk of two messages whose index tells of three. -/
def shortened : Reader :=
  let key : ChunkKey := ⟨.block, 0, 1000⟩
  let slots (ext : String) := if ext = "zst" then [5, 7] else [5, 7, 9]
  Serving.blockReader (Sync.performOn (fun _ => ∅) (Sync.chunkSteps key (fun ext =>
    ⟨[], .lands (Serving.blockContent key (slots ext) ext)⟩)))

/-- A scan of that chunk. -/
def shortenedCatalog : ChunkCatalog :=
  ChunkCatalog.scan shortened.codecs shortened.files (fun stream => (shortened.files stream).keys)

/-- A follower sends the two messages and ends at the third, which is not there. -/
theorem followReplay_decodes_shortened :
    ∃ plan indexCache error, shortened.planReplay shortenedCatalog Serving.allBlocks .new none =
        .ok (plan, indexCache) ∧
      (followReplay shortened ⟨Serving.allBlocks, ⟨false, id, 0, 0⟩, 1⟩
        (fun _ => ⟨false, shortenedCatalog, fun _ => ⟨0, false, .sent, 0⟩, 0, false⟩) 1 0
        shortenedCatalog plan indexCache .new).2 = some (.failed (.decode error)) := by
  have runs : (shortened.planReplay shortenedCatalog Serving.allBlocks .new none).toOption.map
      (fun made => (followReplay shortened ⟨Serving.allBlocks, ⟨false, id, 0, 0⟩, 1⟩
        (fun _ => ⟨false, shortenedCatalog, fun _ => ⟨0, false, .sent, 0⟩, 0, false⟩) 1 0
        shortenedCatalog made.1 made.2 .new).2) =
      some (some (.failed (.decode (.ordinalOutOfRange 2 2)))) := by
    decide +kernel
  cases accepted : shortened.planReplay shortenedCatalog Serving.allBlocks .new none with
  | error error =>
    rw [accepted] at runs
    cases runs
  | ok made =>
    obtain ⟨plan, indexCache⟩ := made
    rw [accepted] at runs
    have failed := Option.some.inj runs
    obtain ⟨error, same⟩ := followReplay_decodes _ _ _ _ _ _ _ _ _ failed
    exact ⟨plan, indexCache, error, rfl, by rw [← same]; exact failed⟩

end Follow

end Sillage
