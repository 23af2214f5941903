import Sillage.Common.PlainCodecs
import Sillage.Reader.Plan

/-!
# The advertised replay floor

A client learns the first slot it may ask for from the service, which looks at all
streams. A replay is planned against the first slot of the subscribed streams only. Here
is when the two agree well enough for a client to start where it was told to.
-/

namespace Sillage

/-- The identity behind a connection: the position of its token among the configured
ones, or none when no tokens are configured. -/
inductive ClientId where
  | anonymous
  | token (idx : Nat)
deriving DecidableEq

/-- The codes of a status that the reader answers with. -/
inductive Code where
  | unauthenticated
  | permissionDenied
  | resourceExhausted
  | deadlineExceeded
  | invalidArgument
  | outOfRange
  | unavailable
  | internal
deriving DecidableEq

/-- The error that ends a call. -/
structure Status where
  code : Code
  message : String
deriving DecidableEq

/-- What authentication reads of a request's headers: the text of `x-token` and the
decoded text of `x-token-bin`, each when it is there and can be read. -/
structure MetadataMap where
  xToken : Option String
  xTokenBin : Option String
deriving DecidableEq

/-- The caller behind a request. Without configured tokens everyone is let in. -/
def validateAuth (authTokens : List String) (metadata : MetadataMap) : Except Status ClientId :=
  if authTokens.isEmpty then .ok .anonymous
  else
    match metadata.xToken.or metadata.xTokenBin with
    | none => .error ⟨.unauthenticated, "missing x-token header"⟩
    | some token =>
        match authTokens.findIdx? (· = token) with
        | some idx => .ok (.token idx)
        | none => .error ⟨.permissionDenied, "invalid token"⟩

namespace ChunkCatalog

/-- The oldest slot held for any stream. -/
def firstAvailableSlot (catalog : ChunkCatalog) : Option Nat :=
  (catalog.summary.filterMap StreamSummary.minStart).min?

/-- The answer to a client that asks for the floor. -/
def subscribeReplayInfo (catalog : ChunkCatalog) (authTokens : List String)
    (metadata : MetadataMap) : Except Status (Option Nat) := do
  let _ ← validateAuth authTokens metadata
  .ok catalog.firstAvailableSlot

/-- A slot is the least start of the chunks of some streams. -/
structure IsFloor (catalog : ChunkCatalog) (asked : Stream → Bool) (floor : Nat) : Prop where
  reached : ∃ entry, catalog.Holds entry ∧ asked entry.stream = true ∧ entry.startSlot = floor
  least : ∀ entry, catalog.Holds entry → asked entry.stream = true → floor ≤ entry.startSlot

variable {catalog : ChunkCatalog}

/-- The first start in the summary of a stream is that of its oldest chunk. -/
theorem minStart_spec {stream : StreamSummary} (member : stream ∈ catalog.summary) :
    ∃ entry, catalog.Holds entry ∧ entry.stream = stream.stream ∧
      stream.minStart = some entry.startSlot ∧
      ∀ other, catalog.Holds other → other.stream = stream.stream →
        entry.startSlot ≤ other.startSlot := by
  obtain ⟨nonempty, -, minStart, -⟩ := mem_summary.mp member
  have ascending := toList_ascending catalog stream.stream
  cases listed : (catalog.streams stream.stream).toList with
  | nil => exact absurd listed nonempty
  | cons first rest =>
    have isMember : first ∈ (catalog.streams stream.stream).toList := by simp [listed]
    obtain ⟨same, inStream, held⟩ := mem_toList.mp isMember
    refine ⟨first.2, held, inStream, ?_, fun other isHeld sameStream => ?_⟩
    · rw [minStart, listed, ← same]
      rfl
    · have among : (other.startSlot, other) ∈ (catalog.streams stream.stream).toList :=
        mem_toList.mpr ⟨rfl, sameStream, isHeld⟩
      rw [listed] at ascending among
      rcases List.mem_cons.mp among with rfl | later
      · exact le_rfl
      · exact (List.rel_of_pairwise_cons ascending later).le

/-- The smallest first start over the summaries of some streams is their floor. -/
theorem isFloor_iff {asked : Stream → Bool} {floor : Nat} :
    ((catalog.summary.filter (fun stream => asked stream.stream)).filterMap
      StreamSummary.minStart).min? = some floor ↔ catalog.IsFloor asked floor := by
  rw [List.min?_eq_some_iff]
  simp only [List.mem_filterMap, List.mem_filter]
  constructor
  · rintro ⟨⟨stream, ⟨member, isAsked⟩, first⟩, least⟩
    obtain ⟨entry, held, same, minStart, -⟩ := minStart_spec member
    refine ⟨⟨entry, held, same ▸ isAsked, Option.some.inj (minStart.symm.trans first)⟩, ?_⟩
    intro other isHeld otherAsked
    obtain ⟨summary, inSummary, sameStream⟩ := summary_of_holds isHeld
    obtain ⟨oldest, -, -, minOther, below⟩ := minStart_spec inSummary
    exact (least _ ⟨summary, ⟨inSummary, sameStream ▸ otherAsked⟩, minOther⟩).trans
      (below other isHeld sameStream.symm)
  · rintro ⟨⟨entry, held, isAsked, rfl⟩, least⟩
    obtain ⟨stream, member, same⟩ := summary_of_holds held
    obtain ⟨oldest, oldestHeld, sameStream, minStart, below⟩ := minStart_spec member
    have equal : oldest.startSlot = entry.startSlot :=
      Nat.le_antisymm (below entry held same.symm)
        (least oldest oldestHeld (sameStream ▸ same ▸ isAsked))
    refine ⟨⟨stream, ⟨member, same ▸ isAsked⟩, equal ▸ minStart⟩, ?_⟩
    rintro start ⟨other, ⟨inSummary, otherAsked⟩, first⟩
    obtain ⟨oldest', held', sameStream', minStart', -⟩ := minStart_spec inSummary
    rw [← Option.some.inj (minStart'.symm.trans first)]
    exact least oldest' held' (sameStream' ▸ otherAsked)

/-- The first available slot is the least start over all streams. -/
theorem firstAvailableSlot_iff {floor : Nat} :
    catalog.firstAvailableSlot = some floor ↔ catalog.IsFloor (fun _ => true) floor := by
  rw [← isFloor_iff, List.filter_true, firstAvailableSlot]

/-- There is a least start among the chunks of some streams, if there is a chunk. -/
theorem exists_floor (asked : Stream → Bool) {entry : ChunkEntry} (held : catalog.Holds entry)
    (isAsked : asked entry.stream = true) : ∃ floor, catalog.IsFloor asked floor := by
  obtain ⟨stream, member, same⟩ := summary_of_holds held
  obtain ⟨oldest, -, -, minStart, -⟩ := minStart_spec member
  have listed : oldest.startSlot ∈ (catalog.summary.filter
      (fun stream => asked stream.stream)).filterMap StreamSummary.minStart :=
    List.mem_filterMap.mpr ⟨stream, List.mem_filter.mpr ⟨member, same ▸ isAsked⟩, minStart⟩
  obtain ⟨floor, isMin⟩ := Option.ne_none_iff_exists'.mp
    (mt List.min?_eq_none_iff.mp (List.ne_nil_of_mem listed))
  exact ⟨floor, isFloor_iff.mp isMin⟩

end ChunkCatalog

namespace Reader

open Chunk Directory Names ChunkCatalog

variable {reader : Reader} {catalog : ChunkCatalog} {parsed : SubscriptionFilters}

/-- A plan is refused as too old exactly if the requested slot is below the floor of the
subscribed streams. -/
theorem planReplay_tooOld {cache : IndexCache} {explicit : Option Nat} {requested floor : Nat} :
    reader.planReplay catalog parsed cache explicit = .error (.fromSlotTooOld requested floor) ↔
      explicit = some requested ∧ requested < floor ∧
        catalog.IsFloor (fun stream => parsed.hasStream stream) floor := by
  rw [← isFloor_iff, ← firstAvailable, planReplay]
  cases available : firstAvailable catalog parsed with
  | none => simp
  | some first =>
    cases explicit with
    | none =>
      simp only [startSlot, bind, Except.bind]
      split <;> simp
    | some asked =>
      by_cases old : asked < first
      · simp only [startSlot, if_pos old, bind, Except.bind]
        constructor
        · intro same
          obtain ⟨rfl, rfl⟩ := PlanError.fromSlotTooOld.inj (Except.error.inj same)
          exact ⟨rfl, old, rfl⟩
        · rintro ⟨same, -, same'⟩
          rw [Option.some.inj same, Option.some.inj same']
      · simp only [startSlot, if_neg old, bind, Except.bind]
        constructor
        · intro impossible
          split at impossible <;> simp at impossible
        · rintro ⟨same, below, same'⟩
          rw [Option.some.inj same, Option.some.inj same'] at old
          exact absurd below old

/-- A client with a chunk to be served that asks for the advertised floor is not told that
it asks for too old a slot, exactly if every chunk of a stream it is not subscribed to
starts at or above some chunk of a stream it is subscribed to. -/
theorem advertised_floor_iff (reader : Reader) (catalog : ChunkCatalog)
    (parsed : SubscriptionFilters) (cache : IndexCache) (authTokens : List String)
    (metadata : MetadataMap) (reported : Option Nat)
    (asked : catalog.subscribeReplayInfo authTokens metadata = .ok reported)
    (served : ∃ entry, catalog.Holds entry ∧ parsed.hasStream entry.stream = true) :
    (∀ requested floor, reader.planReplay catalog parsed cache reported ≠
      .error (.fromSlotTooOld requested floor)) ↔
    ∀ entry, catalog.Holds entry → parsed.hasStream entry.stream = false →
      ∃ other, catalog.Holds other ∧ parsed.hasStream other.stream = true ∧
        other.startSlot ≤ entry.startSlot := by
  obtain ⟨entry, held, subscribed⟩ := served
  obtain ⟨floor, isFloor⟩ := exists_floor (fun stream => parsed.hasStream stream) held subscribed
  obtain ⟨oldest, isOldest⟩ := exists_floor (fun _ => true) held rfl
  obtain rfl : reported = some oldest := by
    rw [← firstAvailableSlot_iff.mpr isOldest]
    unfold subscribeReplayInfo at asked
    cases allowed : validateAuth authTokens metadata with
    | error status => simp [allowed, bind, Except.bind] at asked
    | ok client => simpa [allowed, bind, Except.bind] using asked.symm
  constructor
  · intro accepted other otherHeld unsubscribed
    by_contra lower
    obtain ⟨first, firstHeld, firstSubscribed, rfl⟩ := isFloor.reached
    refine accepted oldest first.startSlot (planReplay_tooOld.mpr ⟨rfl, ?_, isFloor⟩)
    refine (isOldest.least other otherHeld rfl).trans_lt (Nat.lt_of_not_le (fun below => ?_))
    exact lower ⟨first, firstHeld, firstSubscribed, below⟩
  · intro covered requested floor' refused
    obtain ⟨same, below, isFloor'⟩ := planReplay_tooOld.mp refused
    obtain rfl := Option.some.inj same
    obtain ⟨first, firstHeld, -, rfl⟩ := isOldest.reached
    cases subscribed : parsed.hasStream first.stream with
    | true => exact absurd (isFloor'.least first firstHeld subscribed) (Nat.not_le_of_lt below)
    | false =>
      obtain ⟨other, otherHeld, otherSubscribed, lower⟩ := covered first firstHeld subscribed
      exact absurd ((isFloor'.least other otherHeld otherSubscribed).trans lower)
        (Nat.not_le_of_lt below)

/-- A directory with one complete chunk. -/
def trioDir (stream : Stream) (start stop : Nat) : Dir :=
  let sidecar : ChunkMeta := ⟨schemaVersion, stream.asStr, start, stop, some start, some start, 1,
    0, 0, none, none, "watermark", []⟩
  perform ∅ [.write (chunkFile start stop "zst") [], .write (chunkFile start stop "idx") [],
    .write (chunkFile start stop "meta.json") (PlainCodecs.plain.jsonEncode sidecar)]

/-- The catalog of a transaction chunk and an account chunk. -/
def scanPair (txStart acctStart : Nat) : ChunkCatalog :=
  let files : Files := fun
    | .tx => trioDir .tx txStart (txStart + 1000)
    | .acct => trioDir .acct acctStart (acctStart + 1000)
    | .block => ∅
  scan PlainCodecs.plain files (fun stream => (files stream).keys)

/-- A reader without files. -/
def bareReader : Reader := ⟨PlainCodecs.plain, fun _ => ∅, 0, 0, fun _ => 0⟩

/-- With equal starts in two streams the advertised slot is never turned down. -/
theorem advertised_floor_iff_equal :
    let parsed : SubscriptionFilters := ⟨[("all", ⟨none, none, none, [], [], []⟩)], [], [], none⟩
    (∀ requested floor, bareReader.planReplay (scanPair 1000 1000) parsed .new (some 1000) ≠
      .error (.fromSlotTooOld requested floor)) ∧
    (scanPair 1000 1000).subscribeReplayInfo [] ⟨none, none⟩ = .ok (some 1000) := by
  intro parsed
  have reported : (scanPair 1000 1000).subscribeReplayInfo [] ⟨none, none⟩ = .ok (some 1000) := by
    decide +kernel
  have isFloor : (scanPair 1000 1000).IsFloor (fun stream => parsed.hasStream stream) 1000 :=
    isFloor_iff.mp (by decide +kernel)
  have isOldest : (scanPair 1000 1000).IsFloor (fun _ => true) 1000 :=
    firstAvailableSlot_iff.mp (by decide +kernel)
  obtain ⟨first, held, subscribed, start⟩ := isFloor.reached
  refine ⟨(advertised_floor_iff bareReader (scanPair 1000 1000) parsed .new [] ⟨none, none⟩
    (some 1000) reported ⟨first, held, subscribed⟩).mpr ?_, reported⟩
  intro entry isHeld _
  exact ⟨first, held, subscribed, start ▸ isOldest.least entry isHeld rfl⟩

/-- An older chunk of a stream that is not subscribed to makes the advertised floor too
old. -/
theorem advertised_floor_refused :
    let parsed : SubscriptionFilters := ⟨[("all", ⟨none, none, none, [], [], []⟩)], [], [], none⟩
    (scanPair 1000 0).subscribeReplayInfo [] ⟨none, none⟩ = .ok (some 0) ∧
      (∃ entry, (scanPair 1000 0).Holds entry ∧ parsed.hasStream entry.stream = true) ∧
      bareReader.planReplay (scanPair 1000 0) parsed .new (some 0) =
        .error (.fromSlotTooOld 0 1000) := by
  intro parsed
  have isFloor : (scanPair 1000 0).IsFloor (fun stream => parsed.hasStream stream) 1000 :=
    isFloor_iff.mp (by decide +kernel)
  obtain ⟨first, held, subscribed, -⟩ := isFloor.reached
  exact ⟨by decide +kernel, ⟨first, held, subscribed⟩,
    planReplay_tooOld.mpr ⟨rfl, by decide, isFloor⟩⟩

end Reader

end Sillage
