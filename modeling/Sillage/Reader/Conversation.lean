import Sillage.Reader.PassCatalogs

/-!
# What a client gets

However the tasks of a connection and the client take turns, and however small the channel
is, what goes into it comes out in order: the messages of the follower's passes, the answers
to the pings in between, and at most one status behind the last message. A client that
reads to the end of its stream has got all of it. If it finds no status, and neither the
shutdown nor its own side ended the connection, there was nothing left to send.
-/

namespace Sillage

open LittleEndian Idx Relation

namespace Connection

open Behaviour

variable {reader : Reader} {ctx : FollowContext} {texts : ErrorTexts} {begin : FollowState}
  {capacity : Nat}

/-- The customer's task is in its loop. -/
def Customer.Looping : Customer → Prop
  | .selecting => True
  | .answering _ => True
  | _ => False

/-- What has become of the pings. The last one has no answer as long as it is being answered,
and if the subscriber was dropped at it. -/
def Answered (customer : Customer) (left : List Leaving) (pings answers : List Int) : Prop :=
  match customer with
  | .selecting => pings = answers
  | .answering id => pings = answers ++ [id]
  | _ => pings = answers ∨ left = [.subscriberDropped] ∧ ∃ id, pings = answers ++ [id]

/-- The pings are answered in order, and at most the last one is not. -/
theorem Answered.front {customer : Customer} {left : List Leaving} {pings answers : List Int}
    (answered : Answered customer left pings answers) :
    answers <+: pings ∧ pings.length ≤ answers.length + 1 := by
  have whole : pings = answers ∨ ∃ id, pings = answers ++ [id] := by
    cases customer with
    | selecting => exact .inl answered
    | answering id => exact .inr ⟨id, answered⟩
    | joining => exact answered.imp_right And.right
    | finished => exact answered.imp_right And.right
  rcases whole with rfl | ⟨id, rfl⟩
  · exact ⟨List.prefix_rfl, Nat.le_succ _⟩
  · exact ⟨List.prefix_append _ _, by simp⟩

/-- Behind a status there are answers only. -/
def StatusLast (items : List Item) : Prop :=
  ∀ front status behind, items = front ++ .status status :: behind →
    ∀ item ∈ behind, ∃ id, item = .pong id

/-- An answer may come behind a status. -/
theorem StatusLast.answer {items : List Item} (last : StatusLast items) (id : Int) :
    StatusLast (items ++ [.pong id]) := by
  intro front status behind same item member
  rcases List.eq_nil_or_concat behind with rfl | ⟨earlier, final, rfl⟩
  · cases member
  · rw [List.concat_eq_append, ← List.cons_append, ← List.append_assoc] at same
    obtain ⟨before, one⟩ := List.append_inj' same rfl
    rw [List.concat_eq_append] at member
    rcases List.mem_append.mp member with inside | isFinal
    · exact last front status earlier before item inside
    · exact ⟨id, (List.mem_singleton.mp isFinal).trans (List.cons.inj one).1.symm⟩

/-- Where no status has come yet, anything may. -/
theorem StatusLast.first {items : List Item} (quiet : told Item.final items = []) (item : Item) :
    StatusLast (items ++ [item]) := by
  intro front status behind same
  rcases List.eq_nil_or_concat behind with rfl | ⟨earlier, final, rfl⟩
  · intro item member
    cases member
  · rw [List.concat_eq_append, ← List.cons_append, ← List.append_assoc] at same
    obtain ⟨rfl, -⟩ := List.append_inj' same rfl
    simp at quiet

/-- What holds of a connection behind every step: of what has gone into the channel and come
out of it, of the pings, and of why the customer's task has left its loop. -/
structure Sound (reader : Reader) (ctx : FollowContext) (texts : ErrorTexts) (begin : FollowState)
    (capacity : Nat) (entered received : List Item) (pings : List Int) (left : List Leaving)
    (s : State) : Prop where
  carries : s.channel.Carries entered received
  capacity : s.channel.capacity = capacity
  traced : s.replay.Traced reader ctx texts begin
  sent : told Item.message entered = s.replay.sent
  answered : Answered s.customer left pings (told Item.answer entered)
  last : StatusLast entered
  quiet : s.replay.conclusion = none → told Item.final entered = []
  final : ∀ reason behind, s.replay.conclusion = some (reason, behind) →
    told Item.final entered <+: (finalStatus texts reason behind).toList ∧
      (s.channel.hasReceiver = true →
        told Item.final entered = (finalStatus texts reason behind).toList)
  looping : s.customer.Looping → left = [] ∧ s.stop = false
  out : ¬ s.customer.Looping → s.stop = true ∧ ∃ why, left = [why] ∧
    (why = .replayEnded → s.replay.stage.hasReturned = true ∧ s.replay.Concluded Task.Unforced) ∧
    (why = .subscriberDropped → s.channel.hasReceiver = false)
  unforced : s.stop = false → s.replay.Concluded Task.Unforced
  unrefused : s.channel.hasReceiver = true → s.replay.Concluded Task.Unrefused
  hasSender : s.channel.hasSender = true ↔ s.customer ≠ .finished
  finished : s.customer = .finished → s.replay.stage.hasReturned = true

/-- Nothing has happened to a connection at first. -/
theorem Sound.start {now : Nat} {catalog : ChunkCatalog} {plan : ReplayPlan}
    {indexCache : IndexCache} {chunkCache : ChunkCache} {s : State}
    (started : Connection.start ctx capacity now catalog plan indexCache chunkCache = some s) :
    Sound reader ctx texts (Follow.started ctx now catalog plan indexCache chunkCache) capacity
      [] [] [] [] s := by
  unfold Connection.start at started
  split at started
  · cases started
  · obtain rfl := Option.some.inj started
    exact
      { carries := Channel.carries_new capacity
        capacity := rfl
        traced := .refl
        sent := rfl
        answered := rfl
        last := fun front status behind same => by simp at same
        quiet := fun _ => rfl
        final := fun reason behind impossible => by cases impossible
        looping := fun _ => ⟨rfl, rfl⟩
        out := fun notLooping => absurd trivial notLooping
        unforced := fun _ => trivial
        unrefused := fun _ => trivial
        hasSender := by simp
        finished := fun impossible => by cases impossible }

variable {entered received : List Item} {pings : List Int} {left : List Leaving} {s : State}

/-! ## The steps of the client -/

/-- The client takes the item at the front. -/
theorem Sound.receives (sound : Sound reader ctx texts begin capacity entered received pings left s)
    {item : Item} {channel : Channel Item} (taken : s.channel.recv = .item item channel) :
    Sound reader ctx texts begin capacity entered (received ++ [item]) pings left
      { s with channel } := by
  have takes := Channel.recv_item taken
  exact
    { sound with
      carries := sound.carries.takes takes
      capacity := takes.capacity.trans sound.capacity
      final := fun reason behind concluded => by
        rw [takes.hasReceiver]
        exact sound.final reason behind concluded
      out := fun notLooping => by
        rw [takes.hasReceiver]
        exact sound.out notLooping
      unrefused := fun held => sound.unrefused (takes.hasReceiver.symm.trans held)
      hasSender := by
        rw [takes.hasSender]
        exact sound.hasSender }

/-- The client goes away. From then on nothing more goes in, and what ends early need not be
told. -/
theorem Sound.hangsUp
    (sound : Sound reader ctx texts begin capacity entered received pings left s) :
    Sound reader ctx texts begin capacity entered received pings left
      { s with channel := s.channel.dropReceiver } :=
  { sound with
    carries := sound.carries
    final := fun reason behind concluded => ⟨(sound.final reason behind concluded).1, nofun⟩
    out := fun notLooping => by
      obtain ⟨stopped, why, isLeft, ended, -⟩ := sound.out notLooping
      exact ⟨stopped, why, isLeft, ended, fun _ => rfl⟩
    unrefused := nofun
    hasSender := sound.hasSender }

/-! ## The steps of the customer's task -/

/-- The customer's task leaves its loop. -/
theorem Sound.leaves (sound : Sound reader ctx texts begin capacity entered received pings left s)
    (why : Leaving) (looping : s.customer.Looping)
    (ended : why = .replayEnded → s.replay.stage.hasReturned = true)
    (dropped : why = .subscriberDropped → s.channel.hasReceiver = false)
    (answering : ∀ id, s.customer = .answering id → why = .subscriberDropped) :
    Sound reader ctx texts begin capacity entered received pings (left ++ [why]) s.leave := by
  obtain ⟨nothing, running⟩ := sound.looping looping
  have isLeft : left ++ [why] = [why] := by rw [nothing, List.nil_append]
  have answered : Answered .joining [why] pings (told Item.answer entered) := by
    have before := sound.answered
    cases same : s.customer with
    | selecting =>
      rw [same] at before
      exact .inl before
    | answering id =>
      rw [same] at before
      exact .inr ⟨by rw [answering id same], id, before⟩
    | joining =>
      rw [same] at looping
      exact looping.elim
    | finished =>
      rw [same] at looping
      exact looping.elim
  have open' : s.customer ≠ .finished := by
    intro same
    rw [same] at looping
    exact looping
  exact
    { sound with
      carries := sound.carries
      answered := by
        rw [isLeft]
        exact answered
      looping := nofun
      out := fun _ => ⟨rfl, why, isLeft,
        fun byReplay => ⟨ended byReplay, sound.unforced running⟩, dropped⟩
      unforced := nofun
      hasSender := ⟨nofun, fun _ => sound.hasSender.mpr open'⟩
      finished := nofun }

/-- A ping comes, and has no answer yet. -/
theorem Sound.pinged (sound : Sound reader ctx texts begin capacity entered received pings left s)
    (id : Int) (selecting : s.customer = .selecting) :
    Sound reader ctx texts begin capacity entered received (pings ++ [id]) left
      { s with customer := .answering id } := by
  have looping : s.customer.Looping := by
    rw [selecting]
    trivial
  have before := sound.answered
  rw [selecting] at before
  exact
    { sound with
      carries := sound.carries
      answered := congrArg (· ++ [id]) before
      looping := fun _ => sound.looping looping
      out := fun notLooping => absurd trivial notLooping
      hasSender := ⟨fun _ => nofun, fun _ => sound.hasSender.mpr (by rw [selecting]; exact nofun)⟩
      finished := nofun }

/-- The ping is answered, possibly behind a status. -/
theorem Sound.answers (sound : Sound reader ctx texts begin capacity entered received pings left s)
    {id : Int} (answering : s.customer = .answering id) {channel : Channel Item}
    (queued : s.channel.send (.pong id) = .queued channel) :
    Sound reader ctx texts begin capacity (entered ++ [.pong id]) received pings left
      { s with channel, customer := .selecting } := by
  have queues := Channel.send_queued queued
  have looping : s.customer.Looping := by
    rw [answering]
    trivial
  have finals : told Item.final (entered ++ [.pong id]) = told Item.final entered := by simp
  have before := sound.answered
  rw [answering] at before
  exact
    { sound with
      carries := sound.carries.queues queues
      capacity := queues.capacity.trans sound.capacity
      sent := by
        rw [told_append]
        exact (List.append_nil _).trans sound.sent
      answered := by
        rw [told_append]
        exact before
      last := sound.last.answer id
      quiet := finals ▸ sound.quiet
      final := fun reason behind concluded => by
        rw [finals]
        obtain ⟨front, whole⟩ := sound.final reason behind concluded
        exact ⟨front, fun _ => whole queues.hasReceiver.2⟩
      looping := fun _ => sound.looping looping
      out := fun notLooping => absurd trivial notLooping
      unrefused := fun _ => sound.unrefused queues.hasReceiver.2
      hasSender := by
        rw [queues.hasSender]
        exact ⟨fun _ => nofun, fun _ => sound.hasSender.mpr (by rw [answering]; exact nofun)⟩
      finished := nofun }

/-- The replay has returned, and the customer's task lets go of the channel. -/
theorem Sound.joins (sound : Sound reader ctx texts begin capacity entered received pings left s)
    (joining : s.customer = .joining) (returned : s.replay.stage.hasReturned = true) :
    Sound reader ctx texts begin capacity entered received pings left
      { s with channel := s.channel.dropSender, customer := .finished } := by
  have before := sound.answered
  rw [joining] at before
  have notLooping : ¬ s.customer.Looping := by
    rw [joining]
    exact id
  exact
    { sound with
      carries := sound.carries
      answered := before
      looping := nofun
      out := fun _ => sound.out notLooping
      hasSender := ⟨nofun, fun impossible => absurd rfl impossible⟩
      finished := fun _ => returned }

/-! ## The steps of the replay task -/

/-- Whatever the replay task does keeps a connection sound. -/
theorem Sound.replays (sound : Sound reader ctx texts begin capacity entered received pings left s)
    {items : List Item} {channel : Channel Item} {replay : Task}
    (moves : s.replay.Moves reader ctx texts begin s.stop s.channel items channel replay) :
    Sound reader ctx texts begin capacity (entered ++ items) received pings left
      { s with channel, replay } := by
  have silent : items = [] ∨ told Item.final entered = [] :=
    moves.speaks.imp And.left (fun speaks => sound.quiet speaks.1)
  obtain ⟨carries, capacity, sender, receiver, last⟩ :
      channel.Carries (entered ++ items) received ∧ channel.capacity = s.channel.capacity ∧
        channel.hasSender = s.channel.hasSender ∧
        channel.hasReceiver = s.channel.hasReceiver ∧ StatusLast (entered ++ items) := by
    rcases moves.enters with ⟨rfl, rfl⟩ | ⟨item, rfl, queues⟩
    · rw [List.append_nil]
      exact ⟨sound.carries, rfl, rfl, rfl, sound.last⟩
    · exact ⟨sound.carries.queues queues, queues.capacity, queues.hasSender,
        queues.hasReceiver.1.trans queues.hasReceiver.2.symm,
        .first (silent.resolve_left (List.cons_ne_nil item [])) item⟩
  exact
    { carries := carries
      capacity := capacity.trans sound.capacity
      traced := moves.traced
      sent := by
        rw [told_append, sound.sent]
        exact moves.sent.symm
      answered := by
        rw [told_append, show told Item.answer items = [] from moves.answers, List.append_nil]
        exact sound.answered
      last := last
      quiet := fun isNone => by
        rw [told_append]
        rcases moves.speaks with ⟨rfl, same⟩ | ⟨isOpen, stays, -⟩
        · rw [told_nil, List.append_nil]
          exact sound.quiet (same.symm.trans isNone)
        · rw [sound.quiet isOpen, List.nil_append]
          exact stays isNone
      final := fun reason behind concluded => by
        rw [told_append, receiver]
        rcases moves.speaks with ⟨rfl, same⟩ | ⟨isOpen, -, final⟩
        · rw [told_nil, List.append_nil]
          exact sound.final reason behind (same.symm.trans concluded)
        · rw [sound.quiet isOpen, List.nil_append]
          exact final reason behind concluded
      looping := sound.looping
      out := fun notLooping => by
        obtain ⟨stopped, why, isLeft, ended, dropped⟩ := sound.out notLooping
        refine ⟨stopped, why, isLeft, fun byReplay => ?_, fun byClient => ?_⟩
        · cases moves.open'.symm.trans (ended byReplay).1
        · exact receiver.trans (dropped byClient)
      unforced := fun running => moves.unforced running (sound.unforced running)
      unrefused := fun held => by
        have before := receiver.symm.trans held
        exact moves.unrefused before (sound.unrefused before)
      hasSender := by
        rw [sender]
        exact sound.hasSender
      finished := fun isFinished => by cases moves.open'.symm.trans (sound.finished isFinished) }

/-! ## Whole runs -/

/-- What holds of a connection, as the books have it. -/
def SoundBooks (reader : Reader) (ctx : FollowContext) (texts : ErrorTexts) (begin : FollowState)
    (capacity : Nat) (books : List Event) (s : State) : Prop :=
  Sound reader ctx texts begin capacity (told Event.entry books) (told Event.receipt books)
    (told Event.ping books) (told Event.leaving books) s

/-- What items tell that have gone into the channel. -/
theorem told_entered {β : Type} (kind : Event → Option β) (items : List Item) :
    told kind (items.map .entered) = items.filterMap (fun item => kind (.entered item)) := by
  rw [told, List.filterMap_map]
  rfl

variable {books : List Event}

/-- Whatever the customer's task does keeps the books sound. -/
theorem SoundBooks.customer (sound : SoundBooks reader ctx texts begin capacity books s)
    {action : CustomerAction} {more : List Event} {s' : State}
    (done : s.customerAct action = some (more, s')) :
    SoundBooks reader ctx texts begin capacity (books ++ more) s' := by
  have sound : Sound .. := sound
  have looping : s.customer = .selecting → s.customer.Looping := by
    intro selecting
    rw [selecting]
    trivial
  have notAnswering : s.customer = .selecting → ∀ {why : Leaving} (id : Int),
      s.customer = .answering id → why = .subscriberDropped := by
    intro selecting why id answering
    rw [selecting] at answering
    cases answering
  cases action with
  | shutDown =>
    simp only [State.customerAct] at done
    split at done
    · next here =>
      cases done
      simpa [SoundBooks] using sound.leaves .shutdown (looping here.1) (by rintro ⟨⟩)
        (by rintro ⟨⟩) (notAnswering here.1)
    · cases done
  | replayEnded =>
    simp only [State.customerAct] at done
    split at done
    · next here =>
      cases done
      simpa [SoundBooks] using sound.leaves .replayEnded (looping here.1)
        (fun _ => here.2.2) (by rintro ⟨⟩) (notAnswering here.1)
    · cases done
  | inbound message =>
    simp only [State.customerAct] at done
    split at done
    · next here =>
      cases message with
      | ping id =>
        cases done
        simpa [SoundBooks] using sound.pinged id here.1
      | unsupported =>
        cases done
        simpa [SoundBooks] using sound
      | closed =>
        cases done
        simpa [SoundBooks] using sound.leaves .inboundClosed (looping here.1) (by rintro ⟨⟩)
          (by rintro ⟨⟩) (notAnswering here.1)
      | failed =>
        cases done
        simpa [SoundBooks] using sound.leaves .inboundFailed (looping here.1) (by rintro ⟨⟩)
          (by rintro ⟨⟩) (notAnswering here.1)
    · cases done
  | pong =>
    simp only [State.customerAct] at done
    split at done
    · next id answering =>
      split at done
      · next channel queued =>
        cases done
        simpa [SoundBooks] using sound.answers answering queued
      · cases done
      · next closed =>
        cases done
        have isLooping : s.customer.Looping := by
          rw [answering]
          trivial
        simpa [SoundBooks] using sound.leaves .subscriberDropped isLooping (by rintro ⟨⟩)
          (fun _ => Channel.send_closed_iff.mp closed) (fun _ _ => rfl)
    · cases done
  | join =>
    simp only [State.customerAct] at done
    split at done
    · next here =>
      cases done
      simpa [SoundBooks] using sound.joins here.1 here.2
    · cases done

/-- Every step of a connection. -/
theorem SoundBooks.step (sound : SoundBooks reader ctx texts begin capacity books s)
    (fresh : begin.passes = []) {action : Action} {more : List Event} {s' : State}
    (done : act reader ctx texts s action = some (more, s')) :
    SoundBooks reader ctx texts begin capacity (books ++ more) s' := by
  cases action with
  | client action =>
    cases action with
    | receive =>
      simp only [act, State.clientAct] at done
      split at done
      · split at done
        · next item channel taken =>
          cases done
          simpa [SoundBooks] using Sound.receives sound taken
        · cases done
      · cases done
    | hangUp =>
      cases done
      simpa [SoundBooks] using Sound.hangsUp sound
  | shutdown =>
    cases done
    rw [List.append_nil]
    exact { sound with carries := sound.carries }
  | customer action => exact sound.customer done
  | replay action =>
    obtain ⟨⟨items, channel, replay⟩, stepped, same⟩ := Option.map_eq_some_iff.mp done
    cases same
    have moves := Task.step_moves sound.traced fresh stepped
    simpa [SoundBooks, told_entered] using Sound.replays sound moves

/-! ## What comes out of the channel -/

variable {now : Nat} {catalog : ChunkCatalog} {plan : ReplayPlan} {indexCache : IndexCache}
  {chunkCache : ChunkCache} {published : List ChunkCatalog}

/-- A follower has come as far as some turns lead, and messages are those of its passes and of
a part, from the front, of what its next plan calls for. Behind its end there is such a part
only if its last pass has failed. What its passes were planned on, and behind them that next
plan, is the catalog of the subscription and what has been published since, in this order. -/
structure Serves (reader : Reader) (ctx : FollowContext) (now : Nat) (catalog : ChunkCatalog)
    (plan : ReplayPlan) (indexCache : IndexCache) (chunkCache : ChunkCache)
    (published : List ChunkCatalog) (messages : List (Stream × Sent)) (follower : FollowState)
    (ended : Option FollowEnd) : Prop where
  follows : ∃ env turns, Follow.followReplay reader ctx env turns now catalog plan indexCache
    chunkCache = (follower, ended)
  messages : ∃ rest beside, messages = handedOver follower.passes ++ rest ∧
    List.Sublist (follower.passes.map Pass.catalog ++ beside) (catalog :: published) ∧
    (rest = [] ∨
      (∀ reason, ended = some reason → ∃ error, reason = .failed error) ∧
        ∃ latest found next behind, beside = [found] ∧
          Follow.nextPlan reader ctx (turnOn latest 0) follower = .ok (found, next, behind) ∧
          rest <+: (Replay.fromOn next.fromSlot
            (Replay.toTake reader next follower.chunkCache)).map Replay.toSent)

/-- A follower that has sent what its passes have. -/
theorem serves_of_goes {follower : FollowState}
    (goes : ReflTransGen (Follow.Goes reader ctx)
      (Follow.started ctx now catalog plan indexCache chunkCache) follower)
    (plansOn : List.Sublist (passCatalogs follower none) (catalog :: published)) :
    Serves reader ctx now catalog plan indexCache chunkCache published
      (handedOver follower.passes) follower none :=
  ⟨Follow.followReplay_of_goes goes, [], [], (List.append_nil _).symm, plansOn, .inl rfl⟩

/-- A pass under way has sent a part of what its plan calls for. -/
theorem Underway.serves {follower : FollowState} {d : Driving} {drive : DriveState}
    (underway : Underway reader ctx
      (Follow.started ctx now catalog plan indexCache chunkCache) follower d drive)
    (plansOn : List.Sublist (passCatalogs follower (some d)) (catalog :: published)) :
    Serves reader ctx now catalog plan indexCache chunkCache published
      (handedOver follower.passes ++ drive.sent) follower none := by
  obtain ⟨latest, next⟩ := underway.planned
  refine ⟨Follow.followReplay_of_goes underway.goes, drive.sent, [d.catalog], rfl, plansOn,
    .inr ⟨nofun, ?_⟩⟩
  exact ⟨latest, _, _, _, rfl, next, Replay.sent_of_iterates underway.iterates⟩

/-- A pass with a message in hand has sent what came before it. -/
theorem InHand.serves {follower : FollowState} {d : Driving} {head : Head}
    (inHand : InHand reader ctx
      (Follow.started ctx now catalog plan indexCache chunkCache) follower d head)
    (plansOn : List.Sublist (passCatalogs follower (some d)) (catalog :: published)) :
    Serves reader ctx now catalog plan indexCache chunkCache published
      (handedOver follower.passes ++ d.drive.sent) follower none := by
  obtain ⟨drive, underway, same, -⟩ := inHand
  rw [same]
  exact underway.serves plansOn

/-- What is kept beside the passes is a part of what the plan of a pass calls for. -/
theorem serves_of_ends {follower : FollowState} {reason : FollowEnd} {cut : Option Driving}
    (ends : Follow.Ends reader ctx
      (Follow.started ctx now catalog plan indexCache chunkCache) reason follower)
    (isCut : Cut reader ctx (Follow.started ctx now catalog plan indexCache chunkCache) reason
      follower cut)
    (plansOn : List.Sublist (passCatalogs follower cut) (catalog :: published)) :
    Serves reader ctx now catalog plan indexCache chunkCache published
      (handedOver follower.passes ++ sentShort cut) follower (some reason) := by
  refine ⟨Follow.followReplay_of_ends ends, sentShort cut, cut.toList.map Driving.catalog, rfl,
    plansOn, ?_⟩
  rcases isCut with rfl | ⟨failed, d, underway, rfl⟩
  · exact .inl rfl
  · obtain ⟨latest, next⟩ := underway.planned
    refine .inr ⟨fun other same => ?_, latest, _, _, _, rfl, next, ?_⟩
    · cases same
      exact failed
    · exact Replay.sent_of_iterates underway.iterates

/-- Wherever the replay task is, what it has sent is what a follower has that came as far. -/
theorem Task.Traced.serves {t : Task}
    (traced : t.Traced reader ctx texts
      (Follow.started ctx now catalog plan indexCache chunkCache))
    (plansOn : t.PlansOn catalog published) :
    ∃ follower ended,
      Serves reader ctx now catalog plan indexCache chunkCache published t.sent follower ended ∧
        ∀ reason cut, t.stage = .returned reason cut → follower = t.follower ∧ ended = some reason := by
  have catalogs := plansOn.catalogs
  obtain ⟨follower, stage⟩ := t
  cases stage with
  | turning => exact ⟨follower, none, serves_of_goes traced catalogs, nofun⟩
  | merging d => exact ⟨follower, none, Underway.serves traced catalogs, nofun⟩
  | pacing d head => exact ⟨follower, none, InHand.serves traced catalogs, nofun⟩
  | sending d head => exact ⟨follower, none, InHand.serves traced catalogs, nofun⟩
  | idling =>
    obtain ⟨before, turn, goes, turned⟩ := traced
    have on : ReflTransGen (Follow.Goes reader ctx) _ follower := goes.tail ⟨_, turned false⟩
    exact ⟨follower, none, serves_of_goes on catalogs, nofun⟩
  | notifying status behind reason cut =>
    obtain ⟨-, ends, isCut, -⟩ := traced
    exact ⟨behind, some reason, serves_of_ends ends isCut catalogs, nofun⟩
  | notified behind reason cut =>
    exact ⟨behind, some reason, serves_of_ends traced.1 traced.2 catalogs, nofun⟩
  | returned reason cut =>
    obtain ⟨ends, isCut⟩ := traced
    refine ⟨follower, some reason, serves_of_ends ends isCut catalogs, fun other _ same => ?_⟩
    cases same
    exact ⟨rfl, rfl⟩

/-- Every run of a connection is sound. -/
theorem soundBooks_of_steps {s₀ : State} {actions : List Action}
    (begun : start ctx capacity now catalog plan indexCache chunkCache = some s₀)
    (ran : Steps (act reader ctx texts) s₀ actions books s) :
    SoundBooks reader ctx texts (Follow.started ctx now catalog plan indexCache chunkCache)
      capacity books s :=
  ran.keeps (SoundBooks reader ctx texts _ capacity) (Sound.start begun)
    (fun _ _ _ _ _ sound done => sound.step rfl done)

/-- In every run of a connection what has gone into the channel is what the client has taken
and what lies in the queue, which is within its capacity. It holds at most one status and behind
it answers only; the answers are to the pings, in order, all but the last one; and the messages
are those of a follower of the catalogs that the turns have found published, up to where its
loop has come. -/
theorem connection_delivers (reader : Reader) (ctx : FollowContext) (texts : ErrorTexts)
    (capacity now : Nat) (catalog : ChunkCatalog) (plan : ReplayPlan) (indexCache : IndexCache)
    (chunkCache : ChunkCache) {s₀ s : State} {actions : List Action} {books : List Event}
    (begun : start ctx capacity now catalog plan indexCache chunkCache = some s₀)
    (ran : Steps (act reader ctx texts) s₀ actions books s) :
    let entered := told Event.entry books
    (entered = told Event.receipt books ++ s.channel.queue ∧ s.channel.queue.length ≤ capacity) ∧
      (StatusLast entered ∧ (told Item.final entered).length ≤ 1) ∧
      (told Item.answer entered <+: told Event.ping books ∧
        (told Event.ping books).length ≤ (told Item.answer entered).length + 1) ∧
      ∃ follower ended, Serves reader ctx now catalog plan indexCache chunkCache
          (told Action.published actions) (told Item.message entered) follower ended ∧
        ∀ reason cut, s.replay.stage = .returned reason cut →
          follower = s.replay.follower ∧ ended = some reason := by
  have sound : Sound .. := soundBooks_of_steps begun ran
  refine ⟨⟨sound.carries, sound.capacity ▸ s.channel.bounded⟩, ⟨sound.last, ?_⟩, ?_, ?_⟩
  · cases concluded : s.replay.conclusion with
    | none =>
      rw [sound.quiet concluded]
      exact Nat.zero_le 1
    | some told =>
      obtain ⟨reason, behind⟩ := told
      refine (sound.final reason behind concluded).1.length_le.trans ?_
      cases finalStatus texts reason behind with
      | none => exact Nat.zero_le 1
      | some status => exact Nat.le_refl 1
  · exact sound.answered.front
  · rw [sound.sent]
    exact sound.traced.serves (plansOn_of_steps begun ran)

/-- A reader with a chunk of two messages of block metadata. -/
def twoBlocks : Reader :=
  Serving.blockReader (Serving.blockFiles (fun _ => [5, 7]) [⟨.block, 0, 1000⟩])

/-- A scan of that chunk. -/
def twoBlocksCatalog : ChunkCatalog :=
  ChunkCatalog.scan twoBlocks.codecs twoBlocks.files (fun stream => (twoBlocks.files stream).keys)

/-- A subscription to all blocks, without pacing. -/
def unpaced : FollowContext := ⟨Serving.allBlocks, ⟨false, id, 0, 0⟩, 1⟩

/-- Texts for errors that do not come up here. -/
def bareTexts : ErrorTexts := ⟨fun _ => "unreadable index", fun _ => "unreadable chunk"⟩

/-- Through a channel with room for one item the client gets two messages and the answer to a
ping between them, and then its stream is closed. -/
def readOut : List Action :=
  [.replay (.turn twoBlocksCatalog), .replay (.take 0), .replay .due, .replay (.send 0),
    .customer (.inbound (.ping 3)), .client .receive, .customer .pong, .replay (.take 0),
    .replay .due, .client .receive, .replay (.send 0), .client .receive, .replay (.take 0),
    .replay (.turn twoBlocksCatalog), .replay (.take 0), .replay (.take 0), .replay (.take 9),
    .customer .replayEnded, .customer .join]

/-- A run from the first plan on. -/
def runFrom (capacity : Nat) (actions : List Action) : Option (List Event × State) := do
  let (plan, indexCache) ← (twoBlocks.planReplay twoBlocksCatalog Serving.allBlocks .new
    none).toOption
  let s₀ ← start unpaced capacity 0 twoBlocksCatalog plan indexCache .new
  acts (act twoBlocks unpaced bareTexts) s₀ actions

/-- Such a run begins with a connection and takes the steps of one. -/
theorem steps_of_runFrom {actions : List Action}
    (ran : runFrom capacity actions = some (books, s)) :
    ∃ plan indexCache s₀,
      start unpaced capacity 0 twoBlocksCatalog plan indexCache .new = some s₀ ∧
        Steps (act twoBlocks unpaced bareTexts) s₀ actions books s := by
  rw [runFrom] at ran
  obtain ⟨⟨plan, indexCache⟩, -, ran⟩ := Option.bind_eq_some_iff.mp ran
  obtain ⟨s₀, begun, ran⟩ := Option.bind_eq_some_iff.mp ran
  exact ⟨plan, indexCache, s₀, begun, steps_of_acts ran⟩

/-- The slots of the messages among some items. -/
def slotsOf (items : List Item) : List Nat := (told Item.message items).map (fun m => m.2.slot)

/-- The client has read both messages and the answer, and its stream is closed without a status.
-/
theorem readOut_runs : ∃ plan indexCache s₀ books s,
    start unpaced 1 0 twoBlocksCatalog plan indexCache .new = some s₀ ∧
      Steps (act twoBlocks unpaced bareTexts) s₀ readOut books s ∧
      told Event.ping books = [3] ∧ told Event.leaving books = [.replayEnded] ∧
      told Item.final (told Event.receipt books) = [] ∧
      slotsOf (told Event.entry books) = [5, 7] ∧ s.channel.hasReceiver = true ∧
      s.channel.queue = [] ∧ s.channel.hasSender = false := by
  have runs : (runFrom 1 readOut).any (fun ran =>
      told Event.ping ran.1 = [3] ∧ told Event.leaving ran.1 = [.replayEnded] ∧
        told Item.final (told Event.receipt ran.1) = [] ∧
        slotsOf (told Event.entry ran.1) = [5, 7] ∧ ran.2.channel.hasReceiver = true ∧
        ran.2.channel.queue = [] ∧ ran.2.channel.hasSender = false) = true := by
    decide +kernel
  obtain ⟨⟨books, s⟩, ran, all⟩ := (Option.any_eq_true _ _).mp runs
  obtain ⟨plan, indexCache, s₀, begun, steps⟩ := steps_of_runFrom ran
  exact ⟨plan, indexCache, s₀, books, s, begun, steps, of_decide_eq_true all⟩

/-- What has gone into the channel on the way are the two messages of one follower, and no
answer to another ping. -/
theorem connection_delivers_two : ∃ plan indexCache s₀ books s,
    Steps (act twoBlocks unpaced bareTexts) s₀ readOut books s ∧
      told Item.answer (told Event.entry books) <+: [3] ∧
      ∃ follower ended, Serves twoBlocks unpaced 0 twoBlocksCatalog plan indexCache .new
          [twoBlocksCatalog, twoBlocksCatalog] (told Item.message (told Event.entry books))
          follower ended ∧
        slotsOf (told Event.entry books) = [5, 7] := by
  obtain ⟨plan, indexCache, s₀, books, s, begun, ran, pings, -, -, slots, -⟩ := readOut_runs
  obtain ⟨-, -, ⟨answers, -⟩, follower, ended, serves, -⟩ := connection_delivers twoBlocks unpaced
    bareTexts 1 0 twoBlocksCatalog plan indexCache .new begun ran
  exact ⟨plan, indexCache, s₀, books, s, ran, pings ▸ answers, follower, ended, serves, slots⟩

/-! ## To the end of the stream -/

/-- Without a status, and neither stopped nor refused, a follower ends when nothing is left to
send, or when there is no slot to resume from. -/
theorem drained_of_silent {follower : FollowState} {reason : FollowEnd}
    (ends : Follow.Ends reader ctx begin reason follower) (fresh : begin.passes = [])
    (silent : finalStatus texts reason follower = none) (unforced : Task.Unforced reason follower)
    (unrefused : Task.Unrefused reason follower) :
    (∀ pass ∈ follower.passes, pass.Complete reader) ∧
      (reason = .idle ∨ ∃ slot, follower.total.lastSlot = some slot ∧ u64Bound ≤ slot + 1) := by
  obtain ⟨before, turn, goes, ended⟩ := ends
  have tells := Follow.followTurn_tells ended
  have early : reason ≠ .passEnded := by
    rintro rfl
    obtain ⟨pass, isLast, notDrained⟩ := tells
    have last := List.mem_of_getLast? isLast
    have notShutdown := unforced.2 pass last
    have notClosed := unrefused pass last
    rw [finalStatus, isLast, Option.bind_some] at silent
    cases exit : pass.outcome.exit with
    | drained => exact notDrained exit
    | shutdown => exact notShutdown exit
    | closed => exact notClosed exit
    | timedOut =>
      rw [exit] at silent
      cases silent
    | lagDrop =>
      rw [exit] at silent
      cases silent
  refine ⟨Follow.passes_of_ends ⟨before, turn, goes, ended⟩ fresh early, ?_⟩
  cases reason with
  | stopped => exact absurd rfl unforced.1
  | overflow => exact .inr tells
  | cannotPlan error => cases silent
  | failed error =>
    obtain ⟨e, rfl⟩ := tells
    cases silent
  | passEnded => exact absurd rfl early
  | idle => exact .inl rfl

/-- A client that holds its end and reads to the end of its stream has got all that was sent:
every ping is answered, and the status it finds, if any, is the one with which the follower
ended. If it finds none, and its stream was closed because the replay had ended, every pass has
sent all that was planned, and nothing was left but to wait, or there was no slot to resume
from. -/
theorem connection_closes (reader : Reader) (ctx : FollowContext) (texts : ErrorTexts)
    (capacity now : Nat) (catalog : ChunkCatalog) (plan : ReplayPlan) (indexCache : IndexCache)
    (chunkCache : ChunkCache) {s₀ s : State} {actions : List Action} {books : List Event}
    (begun : start ctx capacity now catalog plan indexCache chunkCache = some s₀)
    (ran : Steps (act reader ctx texts) s₀ actions books s)
    (holds : s.channel.hasReceiver = true) (readOut : s.channel.recv = .closed) :
    let received := told Event.receipt books
    ∃ reason why, told Event.leaving books = [why] ∧
      told Item.answer received = told Event.ping books ∧
      told Item.final received = (finalStatus texts reason s.replay.follower).toList ∧
      Serves reader ctx now catalog plan indexCache chunkCache (told Action.published actions)
        (told Item.message received) s.replay.follower (some reason) ∧
      (why = .replayEnded → told Item.final received = [] →
        (∀ pass ∈ s.replay.follower.passes, pass.Complete reader) ∧
          (reason = .idle ∨
            ∃ slot, s.replay.follower.total.lastSlot = some slot ∧ u64Bound ≤ slot + 1)) := by
  have sound : Sound .. := soundBooks_of_steps begun ran
  obtain ⟨empty, gone⟩ := Channel.recv_closed_iff.mp readOut
  have finished : s.customer = .finished := by
    by_contra notFinished
    cases gone.symm.trans (sound.hasSender.mpr notFinished)
  have same : told Event.receipt books = told Event.entry books := by
    have carried : told Event.entry books = told Event.receipt books ++ s.channel.queue :=
      sound.carries
    rw [empty, List.append_nil] at carried
    exact carried.symm
  obtain ⟨-, why, left, ended, dropped⟩ := sound.out (by rw [finished]; exact id)
  have answered : told Item.answer (told Event.entry books) = told Event.ping books := by
    have before := sound.answered
    rw [finished] at before
    rcases before with all | ⟨byClient, -⟩
    · exact all.symm
    · cases holds.symm.trans (dropped (List.cons.inj (left.symm.trans byClient)).1)
  cases stage : s.replay.stage with
  | returned reason cut =>
    have concluded : s.replay.conclusion = some (reason, s.replay.follower) := by
      rw [Task.conclusion, stage]
    obtain ⟨-, whole⟩ := sound.final reason _ concluded
    have traced := sound.traced
    have sent := sound.sent
    have catalogs := (plansOn_of_steps begun ran).catalogs
    have unrefused := sound.unrefused holds
    rw [Task.Traced, stage] at traced
    rw [Task.sent, stage] at sent
    rw [Task.catalogs, stage] at catalogs
    rw [Task.Concluded, stage] at unrefused
    obtain ⟨ends, isCut⟩ := traced
    rw [same]
    refine ⟨reason, why, left, answered, whole holds, ?_, fun byReplay silence => ?_⟩
    · rw [sent]
      exact serves_of_ends ends isCut catalogs
    · obtain ⟨-, unforced⟩ := ended byReplay
      rw [Task.Concluded, stage] at unforced
      have silent : finalStatus texts reason s.replay.follower = none :=
        Option.toList_eq_nil_iff.mp ((whole holds).symm.trans silence)
      exact drained_of_silent ends rfl silent unforced unrefused
  | _ =>
    have returned := sound.finished finished
    rw [stage] at returned
    cases returned

/-- At the end of the stream the ping is answered, and every pass has sent all that was planned.
-/
theorem connection_closes_two : ∃ plan indexCache s₀ books s,
    start unpaced 1 0 twoBlocksCatalog plan indexCache .new = some s₀ ∧
      Steps (act twoBlocks unpaced bareTexts) s₀ readOut books s ∧
      told Item.answer (told Event.receipt books) = [3] ∧
      (∀ pass ∈ s.replay.follower.passes, pass.Complete twoBlocks) ∧
      ∃ reason, Serves twoBlocks unpaced 0 twoBlocksCatalog plan indexCache .new
        [twoBlocksCatalog, twoBlocksCatalog] (told Item.message (told Event.receipt books))
        s.replay.follower (some reason) := by
  obtain ⟨plan, indexCache, s₀, books, s, begun, ran, pings, left, silent, -, held, empty, gone⟩ :=
    readOut_runs
  obtain ⟨reason, why, isLeft, answered, -, serves, drained⟩ := connection_closes twoBlocks unpaced
    bareTexts 1 0 twoBlocksCatalog plan indexCache .new begun ran held
      (Channel.recv_closed_iff.mpr ⟨empty, gone⟩)
  have byReplay : why = .replayEnded := (List.cons.inj (isLeft.symm.trans left)).1
  exact ⟨plan, indexCache, s₀, books, s, begun, ran, answered.trans pings,
    (drained byReplay silent).1, reason, serves⟩

end Connection

end Sillage
