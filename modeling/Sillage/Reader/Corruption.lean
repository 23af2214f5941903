import Sillage.Reader.Completeness
import Sillage.Reader.Lookups
import Sillage.Reader.Plan

/-!
# Entries that cannot be decoded

A lookup reports an entry whose bitmap cannot be decoded, and the filters take the report
for an empty bitmap. A plan is made all the same. It is right where every message is still
decided by what can be read: a satisfying message by the values that it carries, any other
message by a constraint that it is seen to break.
-/

namespace Sillage

open LittleEndian Idx

namespace Filter

/-- An entry is stored for a value, and its bitmap decodes. -/
def Readable (k : Codecs) (index : ChunkIndex) (lookup : Lookup) : Prop :=
  ∃ bitmap, index.bitmapFor k lookup.1 lookup.2 = .ok (some bitmap)

/-- Every stored entry decodes to the ordinals of the messages that carry its value, or it
does not decode. -/
def SoundEntries (k : Codecs) (stream : Stream) (updates : List SubscribeUpdate)
    (index : ChunkIndex) : Prop :=
  ∀ dim value bitmap, index.bitmapFor k dim value = .ok (some bitmap) →
    ∀ i, i ∈ bitmap ↔ CarriedAt stream updates i (dim, value)

/-- The message with an ordinal satisfies a filter. -/
def Wanted (k : Codecs) {stream : Stream} (updates : List SubscribeUpdate)
    (filter : StreamFilter stream) (i : Nat) : Prop :=
  ∃ update, updates[i]? = some update ∧ satisfies k filter update = true

/-- Every message is decided by what can be read. The ordinal of a satisfying one is below
the message count, and for every constraint that asks for a value it carries one with a
readable entry. Any other ordinal is past the message count or breaks a constraint whatever
the unreadable entries hold: a text that does not decode, a constraint none of whose values
it carries with a readable entry, or a negated one whose value it carries with a readable
entry. -/
structure Decided (k : Codecs) {stream : Stream} (updates : List SubscribeUpdate)
    (index : ChunkIndex) (filter : StreamFilter stream) : Prop where
  wanted : ∀ i, Wanted k updates filter i → i < index.messageCount % u32Bound ∧
    Clause.Supported (clauses k filter) (CarriedAt stream updates i) (Readable k index)
  other : ∀ i, ¬ Wanted k updates filter i → index.messageCount % u32Bound ≤ i ∨
    Clause.Barred (clauses k filter) (CarriedAt stream updates i) (Readable k index)

variable {k : Codecs} {stream : Stream} {updates : List SubscribeUpdate} {index : ChunkIndex}
  {i : Nat}

/-- An index lists the carried values whose entries can be read. -/
theorem lists_readable (sound : SoundEntries k stream updates index) (lookup : Lookup) :
    Lists k index i lookup ↔
      Clause.SeenOf (CarriedAt stream updates i) (Readable k index) lookup := by
  obtain ⟨dim, value⟩ := lookup
  simp only [Lists, bitmapOrDefault, Clause.SeenOf, Readable]
  cases returned : index.bitmapFor k dim value with
  | error error => simp
  | ok found =>
    cases found with
    | none => simp
    | some bitmap => simpa using sound dim value bitmap returned i

/-- A filter resolves to the satisfying messages exactly when every message is decided by
what can be read. -/
theorem exact_resolve_iff (sound : SoundEntries k stream updates index)
    (filter : StreamFilter stream) :
    Exact updates (resolve k index filter) (satisfies k filter) ↔
      Decided k updates index filter := by
  have resolved : ∀ i, i ∈ resolve k index filter ↔ i < index.messageCount % u32Bound ∧
      Clause.Met (clauses k filter)
        (Clause.SeenOf (CarriedAt stream updates i) (Readable k index)) := by
    intro i
    rw [mem_resolve, Clause.met_congr (lists_readable sound)]
  have met : ∀ i, Wanted k updates filter i →
      Clause.Met (clauses k filter) (CarriedAt stream updates i) := by
    rintro i ⟨update, found, holds⟩
    exact (Clause.met_congr (carriedAt_iff found)).mpr (satisfies_iff.mp holds)
  constructor
  · intro exact
    constructor
    case wanted =>
      intro i isWanted
      obtain ⟨below, seen⟩ := (resolved i).mp ((exact i).mpr isWanted)
      exact ⟨below, (Clause.met_seen_iff (met i isWanted)).mp seen⟩
    case other =>
      intro i unwanted
      have unresolved : i ∉ resolve k index filter := mt (exact i).mp unwanted
      rw [resolved, not_and_or, not_lt] at unresolved
      exact unresolved.imp_right Clause.not_met_seen_iff.mp
  · intro decided i
    constructor
    · intro member
      obtain ⟨below, seen⟩ := (resolved i).mp member
      by_contra unwanted
      rcases decided.other i unwanted with past | barred
      · exact absurd below (not_lt.mpr past)
      · exact Clause.not_met_seen_iff.mpr barred seen
    · intro isWanted
      obtain ⟨below, supported⟩ := decided.wanted i isWanted
      exact (resolved i).mpr ⟨below, (Clause.met_seen_iff (met i isWanted)).mpr supported⟩

/-- Every message is decided if the entries of the values that the messages carry and the
filter is about can be read. -/
theorem decided_of_readable {filter : StreamFilter stream}
    (count : index.messageCount % u32Bound = updates.length)
    (readable : ∀ i lookup, Clause.About (clauses k filter) lookup →
      CarriedAt stream updates i lookup → Readable k index lookup) :
    Decided k updates index filter where
  wanted := by
    rintro i ⟨update, found, holds⟩
    have met := (Clause.met_congr (carriedAt_iff found)).mpr (satisfies_iff.mp holds)
    refine ⟨count ▸ (List.getElem?_eq_some_iff.mp found).1, ?_⟩
    exact met.supported (fun lookup about carried => readable i lookup about carried)
  other := by
    intro i unwanted
    cases found : updates[i]? with
    | none => exact .inl (count ▸ List.getElem?_eq_none_iff.mp found)
    | some update =>
      have failed : ¬ Clause.Met (clauses k filter) (CarriedAt stream updates i) := fun met =>
        unwanted ⟨update, found, satisfies_iff.mpr ((Clause.met_congr (carriedAt_iff found)).mp met)⟩
      exact .inr (Clause.barred_of_not_met failed
        (fun lookup about carried => readable i lookup about carried))

end Filter

namespace Reader

open Sillage.Filter

variable {reader : Reader} {catalog : ChunkCatalog} {parsed : SubscriptionFilters}
  {explicit : Option Nat} {contents : ChunkEntry → List SubscribeUpdate}

/-- The chunks of a stream that a replay of a subscription goes over: those in range, if
the stream is subscribed to and the requested slot is not below the floor. -/
def plannedEntries (catalog : ChunkCatalog) (parsed : SubscriptionFilters)
    (explicit : Option Nat) (stream : Stream) : List ChunkEntry :=
  match firstAvailable catalog parsed with
  | none => []
  | some first =>
      if first ≤ explicit.getD first ∧ parsed.hasStream stream = true then
        catalog.chunksInRange stream (explicit.getD first) (catalog.newestEndSlot.getD 0)
      else []

/-- A plan holds for every chunk and every named filter the ordinals of exactly the
satisfying messages. -/
def PlanExact (k : Codecs) (contents : ChunkEntry → List SubscribeUpdate)
    (parsed : SubscriptionFilters) (plan : ReplayPlan) : Prop :=
  ∀ stream, ∀ chunk ∈ plan.plansPerStream stream,
    List.Forall₂ (fun named filter => named.1 = filter.1 ∧
        Exact (contents chunk.entry) named.2 (satisfies k filter.2))
      chunk.namedBitmaps (parsed.named stream)

/-- A catalog tells its chunks apart by stream and start slot. -/
theorem distinguished_catalog (catalog : ChunkCatalog) : Distinguished catalog.Holds := by
  intro entry other isHeld otherHeld sameStream sameStart
  rw [ChunkCatalog.Holds, sameStream, sameStart] at isHeld
  exact Option.some.inj (isHeld.symm.trans otherHeld)

/-- What is planned of a stream are chunks of that stream. -/
theorem plannedEntries_stream {stream : Stream} {entry : ChunkEntry}
    (member : entry ∈ plannedEntries catalog parsed explicit stream) : entry.stream = stream := by
  rw [plannedEntries] at member
  split at member
  · cases member
  · split at member
    · exact (ChunkCatalog.mem_chunksInRange.mp member).1
    · cases member

/-- An accepted plan consists of the plans of the planned chunks, all of them parsed. -/
theorem planReplay_planned {cache after : IndexCache}
    (agrees : cache.Holds (reader.IndexAgrees catalog.Holds)) {plan : ReplayPlan}
    (accepted : reader.planReplay catalog parsed cache explicit = .ok (plan, after))
    (stream : Stream) :
    plan.plansPerStream stream =
        (plannedEntries catalog parsed explicit stream).map (reader.planOf parsed) ∧
      ∀ entry ∈ plannedEntries catalog parsed explicit stream, reader.Parses entry := by
  obtain ⟨covers, -⟩ :=
    planReplay_inv (distinguished_catalog catalog) (fun _ isHeld => isHeld) agrees accepted
  obtain ⟨first, available, young, start⟩ := covers.start
  have planned : plannedEntries catalog parsed explicit stream =
      if parsed.hasStream stream = true then
        catalog.chunksInRange stream plan.fromSlot plan.toSlotExclusive else [] := by
    simp only [plannedEntries, available, young, true_and, start, covers.stop]
  rw [planned, covers.plans stream]
  by_cases subscribed : parsed.hasStream stream = true
  · rw [if_pos subscribed, if_pos subscribed]
    exact ⟨rfl, covers.parses stream subscribed⟩
  · rw [if_neg subscribed, if_neg subscribed]
    exact ⟨rfl, fun entry member => nomatch member⟩

/-- If all planned chunks can be parsed, a plan is made unless there is none to make. -/
theorem planReplay_of_parses {cache : IndexCache}
    (agrees : cache.Holds (reader.IndexAgrees catalog.Holds))
    (parses : ∀ stream, ∀ entry ∈ plannedEntries catalog parsed explicit stream,
      reader.Parses entry) :
    (∃ plan after, reader.planReplay catalog parsed cache explicit = .ok (plan, after)) ∨
      ∀ stream, plannedEntries catalog parsed explicit stream = [] := by
  cases available : firstAvailable catalog parsed with
  | none => exact .inr (fun stream => by simp only [plannedEntries, available])
  | some first =>
    by_cases young : first ≤ explicit.getD first
    · refine .inl (planReplay_ok (distinguished_catalog catalog) (fun _ isHeld => isHeld) agrees
        available young (fun stream subscribed entry member => parses stream entry ?_))
      simp only [plannedEntries, available, young, subscribed, and_self, if_true]
      exact member
    · exact .inr (fun stream => by simp only [plannedEntries, available, young, false_and, if_false])

/-- The plan of a chunk is right for every named filter exactly when every message is
decided for each of them. -/
theorem planOf_exact_iff {stream : Stream} {entry : ChunkEntry} (inStream : entry.stream = stream)
    (sound : SoundEntries reader.codecs stream (contents entry) (reader.indexOf entry)) :
    List.Forall₂ (fun named filter => named.1 = filter.1 ∧
        Exact (contents entry) named.2 (satisfies reader.codecs filter.2))
      (reader.planOf parsed entry).namedBitmaps (parsed.named stream) ↔
    ∀ filter ∈ parsed.named stream,
      Decided reader.codecs (contents entry) (reader.indexOf entry) filter.2 := by
  subst inStream
  simp only [planOf, chunkPlan, List.forall₂_map_left_iff, List.forall₂_same, true_and]
  exact forall₂_congr (fun filter _ => exact_resolve_iff sound filter.2)

/-- A plan is refused or right if and only if some planned chunk's index cannot be parsed or
every message of every planned chunk is decided, for every named filter, by what can be read
of the chunk's index. -/
theorem plan_exact_iff (reader : Reader) (catalog : ChunkCatalog) (parsed : SubscriptionFilters)
    (cache : IndexCache) (explicit : Option Nat) (contents : ChunkEntry → List SubscribeUpdate)
    (agrees : cache.Holds (reader.IndexAgrees catalog.Holds))
    (sound : ∀ stream, ∀ entry ∈ plannedEntries catalog parsed explicit stream,
      reader.Parses entry →
        SoundEntries reader.codecs stream (contents entry) (reader.indexOf entry)) :
    (∀ plan after, reader.planReplay catalog parsed cache explicit = .ok (plan, after) →
      PlanExact reader.codecs contents parsed plan) ↔
    (∃ stream, ∃ entry ∈ plannedEntries catalog parsed explicit stream, ¬ reader.Parses entry) ∨
      ∀ stream, ∀ entry ∈ plannedEntries catalog parsed explicit stream,
        ∀ filter ∈ parsed.named stream,
          Decided reader.codecs (contents entry) (reader.indexOf entry) filter.2 := by
  have exactly : ∀ plan after,
      reader.planReplay catalog parsed cache explicit = .ok (plan, after) →
      (PlanExact reader.codecs contents parsed plan ↔
        ∀ stream, ∀ entry ∈ plannedEntries catalog parsed explicit stream,
          ∀ filter ∈ parsed.named stream,
            Decided reader.codecs (contents entry) (reader.indexOf entry) filter.2) := by
    intro plan after accepted
    refine forall_congr' (fun stream => ?_)
    obtain ⟨plans, parses⟩ := planReplay_planned agrees accepted stream
    rw [plans, List.forall_mem_map]
    refine forall₂_congr (fun entry member => ?_)
    exact planOf_exact_iff (plannedEntries_stream member)
      (sound stream entry member (parses entry member))
  constructor
  · intro right
    by_cases parses : ∀ stream, ∀ entry ∈ plannedEntries catalog parsed explicit stream,
        reader.Parses entry
    · refine .inr ?_
      rcases planReplay_of_parses agrees parses with ⟨plan, after, accepted⟩ | nothing
      · exact (exactly plan after accepted).mp (right plan after accepted)
      · intro stream entry member
        rw [nothing stream] at member
        cases member
    · left
      push Not at parses
      exact parses
  · rintro (⟨stream, entry, member, unparsed⟩ | decided) plan after accepted
    · exact absurd ((planReplay_planned agrees accepted stream).2 entry member) unparsed
    · exact (exactly plan after accepted).mpr decided

/-- A reader with one chunk of transactions, whose index file is given. -/
def oneChunk (idx : Bytes) : Reader where
  codecs := PlainCodecs.plain
  files := ChunkCatalog.txOnly (Directory.perform (ChunkCatalog.addTrio 0 1000 ∅)
    [.write (Names.chunkFile 0 1000 "idx") idx])
  indexBudgetBytes := 0
  chunkBudgetBytes := 0
  indexHeapBytes := fun _ => 0

/-- The catalog that the reader scans. -/
def scanned (reader : Reader) : ChunkCatalog :=
  ChunkCatalog.scan reader.codecs reader.files (fun stream => (reader.files stream).keys)

/-- A subscription to votes and to other transactions. -/
def bothVotes : SubscriptionFilters where
  transactions := [("votes", ⟨some true, none, none, [], [], []⟩),
    ("others", ⟨some false, none, none, [], [], []⟩)]
  accounts := []
  blocksMeta := []
  fromSlot := none

/-- What is read of an index file is known for every chunk that is planned in its reader. -/
theorem indexOf_planned {idx : Bytes} {index : ChunkIndex}
    (parses : parseChunkIndex PlainCodecs.plain (some idx) = .ok index)
    (stored : ∀ stream, ∀ entry ∈ plannedEntries (oneChunk idx).scanned bothVotes none stream,
      stream = .tx ∧ (oneChunk idx).idxFile entry = some idx) (stream : Stream) :
    ∀ entry ∈ plannedEntries (oneChunk idx).scanned bothVotes none stream,
      stream = .tx ∧ (oneChunk idx).indexOf entry = index := by
  intro entry member
  obtain ⟨inStream, file⟩ := stored stream entry member
  refine ⟨inStream, ?_⟩
  rw [indexOf, file, show (oneChunk idx).codecs = PlainCodecs.plain from rfl, parses]
  rfl

/-- With the entry of votes at its place both filters are resolved rightly. -/
theorem plan_exact_iff_votes :
    let reader := oneChunk
      (IndexBuilder.serialize PlainCodecs.plain votesOnly 0 1000 1)
    ∀ plan after, reader.planReplay reader.scanned bothVotes .new none = .ok (plan, after) →
      PlanExact PlainCodecs.plain (fun _ => [transaction true]) bothVotes plan := by
  intro reader
  have indexed : ∀ stream, ∀ entry ∈ plannedEntries reader.scanned bothVotes none stream,
      stream = .tx ∧ reader.indexOf entry = votesIndex :=
    indexOf_planned (IndexBuilder.parse_serialize PlainCodecs.plain_roundTrip.msgpack votesOnly 0
      1000 1 (by decide +kernel)) (by decide +kernel)
  have readable : ∀ dim value bitmap,
      votesIndex.bitmapFor PlainCodecs.plain dim value = .ok (some bitmap) →
        dim = dimVoteFlag := by
    intro dim value bitmap returned
    refine present_votesIndex.mp ?_
    by_contra absent
    rw [Present, Option.not_isSome_iff_eq_none] at absent
    simp [ChunkIndex.bitmapFor, absent] at returned
  have sound : SoundEntries PlainCodecs.plain .tx [transaction true] votesIndex := by
    intro dim value bitmap returned i
    obtain rfl := readable dim value bitmap returned
    obtain ⟨found, returned', exact⟩ := exact_votesIndex value
    obtain rfl := Except.ok.inj (returned'.symm.trans returned)
    exact exact i
  refine (plan_exact_iff reader reader.scanned bothVotes .new none (fun _ => [transaction true])
    Lru.holds_new ?_).mpr (.inr ?_)
  · intro stream entry member _
    obtain ⟨rfl, index⟩ := indexed stream entry member
    exact index ▸ sound
  · intro stream entry member filter named
    obtain ⟨rfl, index⟩ := indexed stream entry member
    rw [index]
    refine decided_of_readable rfl (fun i lookup about carried => ?_)
    have vote : lookup = (dimVoteFlag, .bool true) := by
      simp only [bothVotes, SubscriptionFilters.named, List.map_cons, List.map_nil, List.mem_cons,
        List.not_mem_nil, or_false] at named
      rcases named with rfl | rfl
      · simpa [Clause.About, clauses, clausesTx, flagClauses, anyClauses] using about
      · simpa [Clause.About, clauses, clausesTx, flagClauses, anyClauses] using about
    rw [vote] at carried ⊢
    obtain ⟨found, returned, exact⟩ := exact_votesIndex (.bool true)
    cases found with
    | none => exact absurd ((exact i).mpr carried) (Finset.notMem_empty i)
    | some bitmap => exact ⟨bitmap, returned⟩

/-- The header of an index of one message whose only entry lies outside the file. -/
def brokenHeader : IdxHeader :=
  ⟨"tx", 0, 1000, 1, [⟨dimVoteFlag, .bool, [⟨.bool true, 0, 1⟩]⟩]⟩

/-- The file ends behind that header, so that the entry lies outside. -/
def brokenFile : Bytes :=
  let header := PlainCodecs.plain.msgpackEncode brokenHeader
  idxMagic ++ [idxVersion] ++ u32Bytes header.length ++ header

/-- The index that is read from it. -/
def brokenIndex : ChunkIndex where
  raw := brokenFile
  header := brokenHeader
  lookup := bitmapTable brokenHeader.dimensions
  bodyStart := 9 + (PlainCodecs.plain.msgpackEncode brokenHeader).length

/-- Parsing does not look at what the entries point to. -/
theorem parse_brokenFile : parseChunkIndex PlainCodecs.plain (some brokenFile) = .ok brokenIndex :=
  rfl

/-- The entry is reported, and there is no other. -/
theorem brokenIndex_unread (dim : String) (value : DimValue) (bitmap : RoaringBitmap) :
    brokenIndex.bitmapFor PlainCodecs.plain dim value ≠ .ok (some bitmap) := by
  intro returned
  by_cases vote : dim = dimVoteFlag
  · subst vote
    by_cases isTrue : value = .bool true
    · subst isTrue
      have outside : brokenIndex.bitmapFor PlainCodecs.plain dimVoteFlag (.bool true) =
          .error (.sliceExceedsBody 0 1 0) := rfl
      rw [outside] at returned
      cases returned
    · have entries : brokenIndex.lookup.lookup dimVoteFlag = some (Tables.tabulate
          DimEntryHeader.value (fun entry => (entry.offset, entry.length))
            [⟨.bool true, 0, 1⟩]) := rfl
      have absent := Tables.lookup_tabulate_of_absent DimEntryHeader.value
        (fun entry => (entry.offset, entry.length)) [⟨.bool true, 0, 1⟩] value
        (by simpa using Ne.symm isTrue)
      simp only [ChunkIndex.bitmapFor, entries, absent] at returned
      cases returned
  · have absent : brokenIndex.lookup.lookup dim = none :=
      Tables.lookup_tabulate_of_absent _ _ _ dim (by simpa [brokenHeader] using Ne.symm vote)
    simp only [ChunkIndex.bitmapFor, absent] at returned
    cases returned

/-- An entry that cannot be decoded hides a vote from the filter that asks for votes and lets
it through the one that excludes them. -/
theorem undecodable_plan :
    let reader := oneChunk brokenFile
    (∀ stream, ∀ entry ∈ plannedEntries reader.scanned bothVotes none stream,
      SoundEntries PlainCodecs.plain stream [transaction true] (reader.indexOf entry)) ∧
    ∃ plan after, reader.planReplay reader.scanned bothVotes .new none = .ok (plan, after) ∧
      (plan.plansPerStream .tx).map ChunkPlan.namedBitmaps = [[("votes", ∅), ("others", {0})]] ∧
      ¬ PlanExact PlainCodecs.plain (fun _ => [transaction true]) bothVotes plan := by
  intro reader
  refine ⟨?_, ?_⟩
  · intro stream entry member dim value bitmap returned
    obtain ⟨-, index⟩ := indexOf_planned parse_brokenFile (by decide +kernel) stream entry member
    rw [index] at returned
    exact absurd returned (brokenIndex_unread dim value bitmap)
  · have planned : (reader.planReplay reader.scanned bothVotes .new none).toOption.map
        (fun made => (made.1.plansPerStream .tx).map ChunkPlan.namedBitmaps) =
          some [[("votes", ∅), ("others", {0})]] := by
      decide +kernel
    cases accepted : reader.planReplay reader.scanned bothVotes .new none with
    | error error =>
      rw [accepted] at planned
      cases planned
    | ok made =>
      rw [accepted] at planned
      have bitmaps : (made.1.plansPerStream .tx).map ChunkPlan.namedBitmaps =
          [[("votes", ∅), ("others", {0})]] := Option.some.inj planned
      refine ⟨made.1, made.2, rfl, bitmaps, fun exact => ?_⟩
      have listed : [("votes", ∅), ("others", {0})] ∈
          (made.1.plansPerStream .tx).map ChunkPlan.namedBitmaps :=
        bitmaps ▸ List.mem_singleton_self _
      obtain ⟨chunk, member, held⟩ := List.mem_map.mp listed
      have resolved := exact .tx chunk member
      rw [held] at resolved
      obtain ⟨-, votes⟩ := (List.forall₂_cons.mp resolved).1
      exact absurd ((votes 0).mpr ⟨transaction true, rfl, by decide +kernel⟩)
        (Finset.notMem_empty 0)

end Reader

end Sillage
