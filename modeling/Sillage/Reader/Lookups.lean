import Sillage.Foundation.Clauses
import Sillage.Reader.Filter

/-!
# Filters as clauses over lookups

A filter is a conjunction of clauses whose atoms are values of dimensions. The reader
resolves it over the ordinals that the index lists under a value; the filter itself is
meant over the values that a message carries. Where the index lists the carried values of
the present dimensions only, a filter loses a message exactly when it asks for a value of
an absent one.
-/

namespace Sillage

open LittleEndian Idx

/-- A value of a dimension, as it is looked up in an index. -/
abbrev Lookup := String × DimValue

namespace Filter

variable (k : Codecs)

/-- The clause of a flag of which only the positive side is indexed. -/
def flagClauses (dim : String) : Option Bool → List (Clause Lookup)
  | none => []
  | some true => [.any [(dim, .bool true)]]
  | some false => [.absent (dim, .bool true)]

/-- The clause of a key that must be there; a text that does not decode cannot be met. -/
def strictClause (dim : String) : Option Bytes → Clause Lookup
  | none => .never
  | some key => .any [(dim, .bytes key)]

/-- The clause of an OR-list, if any of its entries decodes. -/
def anyClauses (dim : String) (entries : List String) : List (Clause Lookup) :=
  let keys := entries.filterMap (decodePubkey k)
  if keys.isEmpty then [] else [.any (keys.map (fun key => (dim, .bytes key)))]

/-- What a filter of transactions asks of the lookups, condition by condition. -/
def clausesTx (f : SubscribeRequestFilterTransactions) : List (Clause Lookup) :=
  flagClauses dimVoteFlag f.vote ++ flagClauses dimFailedFlag f.failed ++
    f.signature.toList.map (fun text => strictClause dimSignature (decodeSignature k text)) ++
    anyClauses k dimAccountKey f.accountInclude ++
    f.accountRequired.map (fun text => strictClause dimAccountKey (decodePubkey k text)) ++
    (f.accountExclude.filterMap (decodePubkey k)).map
      (fun key => .absent (dimAccountKey, .bytes key))

/-- What a filter of accounts asks of the lookups. -/
def clausesAcct (f : SubscribeRequestFilterAccounts) : List (Clause Lookup) :=
  anyClauses k dimAccountPubkey f.account ++ anyClauses k dimOwnerProgram f.owner

/-- The clauses of a filter. -/
def clauses {stream : Stream} : StreamFilter stream → List (Clause Lookup)
  | .tx f => clausesTx k f
  | .acct f => clausesAcct k f
  | .block _ => []

/-- An index lists an ordinal under a value. -/
def Lists (index : ChunkIndex) (i : Nat) (lookup : Lookup) : Prop :=
  i ∈ bitmapOrDefault k index lookup.1 lookup.2

variable {k}
variable {index : ChunkIndex} {i : Nat} {result : RoaringBitmap}

/-! ## Resolving is evaluating over what the index lists -/

/-- All ordinals are those below the count. -/
theorem mem_matchAll {messageCount : Nat} :
    i ∈ matchAll messageCount ↔ i < messageCount % u32Bound :=
  Finset.mem_range

/-- A flag is asked for by one clause, or by none. -/
theorem mem_restrictFlag {dim : String} {requested : Option Bool}
    (within : i ∈ result → i < index.messageCount % u32Bound) :
    i ∈ restrictFlag k index dim requested result ↔
      i ∈ result ∧ Clause.Met (flagClauses dim requested) (Lists k index i) := by
  cases requested with
  | none => simp [restrictFlag, flagClauses]
  | some side =>
    cases side with
    | true => simp [restrictFlag, flagClauses, Clause.Holds, Lists]
    | false =>
      simp only [restrictFlag, flagClauses, Clause.met_cons, Clause.met_nil, Clause.Holds, Lists,
        Finset.mem_inter, Finset.mem_sdiff, mem_matchAll, and_true]
      constructor
      · exact fun both => ⟨both.1, both.2.2⟩
      · exact fun both => ⟨both.1, within both.1, both.2⟩

/-- A signature is asked for by one clause, which a text that does not decode never meets. -/
theorem mem_restrictSignature {requested : Option String} :
    i ∈ (restrictSignature k index requested result).getD ∅ ↔
      i ∈ result ∧ Clause.Met (requested.toList.map
        (fun text => strictClause dimSignature (decodeSignature k text))) (Lists k index i) := by
  cases requested with
  | none => simp [restrictSignature]
  | some text =>
    cases decoded : decodeSignature k text with
    | none => simp [restrictSignature, decoded, strictClause, Clause.Holds]
    | some signature => simp [restrictSignature, decoded, strictClause, Clause.Holds, Lists]

/-- The union over an OR-list holds what is listed under one of its keys. -/
theorem mem_widen (k : Codecs) (index : ChunkIndex) (i : Nat) (dim : String) (entries : List String)
    (union : RoaringBitmap) (anyValid : Bool) :
    (entries.foldl (widen k index dim) (union, anyValid)).2 =
        (anyValid || !(entries.filterMap (decodePubkey k)).isEmpty) ∧
      (i ∈ (entries.foldl (widen k index dim) (union, anyValid)).1 ↔ i ∈ union ∨
        ∃ key ∈ entries.filterMap (decodePubkey k), Lists k index i (dim, .bytes key)) := by
  induction entries generalizing union anyValid with
  | nil => simp
  | cons text rest inductionHypothesis =>
    cases decoded : decodePubkey k text with
    | none => simpa [widen, decoded, List.filterMap_cons] using inductionHypothesis union anyValid
    | some key =>
      have later := inductionHypothesis (union ∪ bitmapOrDefault k index dim (.bytes key)) true
      simp only [List.foldl_cons, widen, decoded, List.filterMap_cons]
      exact ⟨by simp [later.1], by rw [later.2]; simp [Lists, or_assoc]⟩

/-- Some keys are asked for by one clause with a lookup for each that decodes. -/
theorem mem_restrictAny {dim : String} {entries : List String} :
    i ∈ restrictAny k index dim entries result ↔
      i ∈ result ∧ Clause.Met (anyClauses k dim entries) (Lists k index i) := by
  obtain ⟨valid, union⟩ := mem_widen k index i dim entries ∅ false
  simp only [restrictAny, valid, Bool.false_or, anyClauses]
  cases empty : (entries.filterMap (decodePubkey k)).isEmpty with
  | true => simp
  | false =>
    simp only [Bool.not_false, if_true, Finset.mem_inter, union, Finset.notMem_empty, false_or,
      Bool.false_eq_true, if_false, Clause.met_cons, Clause.met_nil, and_true, Clause.Holds]
    simp

/-- Required keys are asked for by a clause each. -/
theorem mem_restrictAll {entries : List String} :
    i ∈ (restrictAll k index entries result).getD ∅ ↔
      i ∈ result ∧ Clause.Met (entries.map
        (fun text => strictClause dimAccountKey (decodePubkey k text))) (Lists k index i) := by
  induction entries generalizing result with
  | nil => simp [restrictAll]
  | cons text rest inductionHypothesis =>
    cases decoded : decodePubkey k text with
    | none => simp [restrictAll, decoded, strictClause, Clause.Holds]
    | some key =>
      simp only [restrictAll, decoded, List.map_cons, Clause.met_cons, inductionHypothesis]
      simp [strictClause, Clause.Holds, Lists, and_assoc]

/-- Excluded keys are asked for by a clause each, unless they do not decode. -/
theorem mem_removeAll {entries : List String} :
    i ∈ entries.foldl (remove k index) result ↔
      i ∈ result ∧ Clause.Met ((entries.filterMap (decodePubkey k)).map
        (fun key => .absent (dimAccountKey, .bytes key))) (Lists k index i) := by
  induction entries generalizing result with
  | nil => simp
  | cons text rest inductionHypothesis =>
    cases decoded : decodePubkey k text with
    | none => simp [remove, decoded, inductionHypothesis]
    | some key => simp [remove, decoded, inductionHypothesis, Clause.Holds, Lists, and_assoc]

/-- A resolution that ended early holds nothing, as the empty bitmap does when it is passed
on. -/
theorem mem_ended {found : Option RoaringBitmap} {next : RoaringBitmap → RoaringBitmap}
    {kept : Prop} (step : ∀ result, i ∈ next result ↔ i ∈ result ∧ kept) :
    i ∈ (match found with
      | none => ∅
      | some result => next result) ↔ i ∈ found.getD ∅ ∧ kept := by
  cases found with
  | none => simp
  | some result => exact step result

/-- A filter of transactions resolves to the ordinals that meet its clauses. -/
theorem mem_filterTx {f : SubscribeRequestFilterTransactions} :
    i ∈ filterTx k index f ↔ i < index.messageCount % u32Bound ∧
      Clause.Met (clausesTx k f) (Lists k index i) := by
  have vote : i ∈ restrictFlag k index dimVoteFlag f.vote (matchAll index.messageCount) ↔ _ :=
    mem_restrictFlag (fun within => mem_matchAll.mp within)
  have failed : i ∈ restrictFlag k index dimFailedFlag f.failed
      (restrictFlag k index dimVoteFlag f.vote (matchAll index.messageCount)) ↔ _ :=
    mem_restrictFlag (fun within => mem_matchAll.mp (vote.mp within).1)
  have behind : ∀ result, i ∈ (match restrictAll k index f.accountRequired
        (restrictAny k index dimAccountKey f.accountInclude result) with
      | none => ∅
      | some result => f.accountExclude.foldl (remove k index) result) ↔
        i ∈ result ∧ Clause.Met (anyClauses k dimAccountKey f.accountInclude ++
          (f.accountRequired.map (fun text => strictClause dimAccountKey (decodePubkey k text)) ++
            (f.accountExclude.filterMap (decodePubkey k)).map
              (fun key => .absent (dimAccountKey, .bytes key)))) (Lists k index i) := by
    intro result
    rw [mem_ended (fun _ => mem_removeAll), mem_restrictAll, mem_restrictAny]
    simp only [Clause.met_append, and_assoc]
  refine (mem_ended behind).trans ?_
  rw [mem_restrictSignature, failed, vote, mem_matchAll]
  simp only [clausesTx, Clause.met_append, and_assoc]

/-- So does a filter of accounts. -/
theorem mem_filterAcct {f : SubscribeRequestFilterAccounts} :
    i ∈ filterAcct k index f ↔ i < index.messageCount % u32Bound ∧
      Clause.Met (clausesAcct k f) (Lists k index i) := by
  simp only [filterAcct, mem_restrictAny, mem_matchAll, clausesAcct, Clause.met_append, and_assoc]

/-- A filter resolves to the ordinals below the message count for which what the index lists
meets its clauses. -/
theorem mem_resolve {stream : Stream} {filter : StreamFilter stream} :
    i ∈ resolve k index filter ↔ i < index.messageCount % u32Bound ∧
      Clause.Met (clauses k filter) (Lists k index i) := by
  cases filter with
  | tx f => exact mem_filterTx
  | acct f => exact mem_filterAcct
  | block f => simp [resolve, filterBlock, mem_matchAll, clauses]

/-! ## Evaluating is evaluating over what a message carries -/

variable {update : SubscribeUpdate}

/-- The values that a message of a stream carries. -/
def Carries (stream : Stream) (update : SubscribeUpdate) (lookup : Lookup) : Prop :=
  IndexBuilder.carries stream update lookup.1 lookup.2

/-- An update has the flag as requested exactly if what it carries meets the clause. -/
theorem flag_iff {stream : Stream} {dim : String} {requested : Option Bool} {flag : Bool}
    (carried : flag = true ↔ Carries stream update (dim, .bool true)) :
    requested.all (· == flag) = true ↔
      Clause.Met (flagClauses dim requested) (Carries stream update) := by
  cases requested with
  | none => simp [flagClauses]
  | some side =>
    cases side with
    | true => simpa [flagClauses, Clause.Holds] using carried
    | false =>
      simp only [Option.all_some, flagClauses, Clause.met_cons, Clause.met_nil, Clause.Holds,
        and_true, ← carried]
      cases flag <;> simp

/-- An update has the text's key exactly if what it carries meets the strict clause. -/
theorem strict_iff {stream : Stream} {dim : String} {decoded : Option Bytes}
    {holds : Bytes → Bool} (carried : ∀ key, decoded = some key →
      (holds key = true ↔ Carries stream update (dim, .bytes key))) :
    decoded.any holds = true ↔ (strictClause dim decoded).Holds (Carries stream update) := by
  cases decoded with
  | none => simp [strictClause, Clause.Holds]
  | some key => simpa [strictClause, Clause.Holds] using carried key rfl

/-- An update has one of the keys exactly if what it carries meets the clause for all of them.
-/
theorem any_iff {stream : Stream} {dim : String} {entries : List String} {holds : Bytes → Bool}
    (carried : ∀ key : Bytes, key.length = 32 →
      (holds key = true ↔ Carries stream update (dim, .bytes key))) :
    anyDecodable k entries holds = true ↔
      Clause.Met (anyClauses k dim entries) (Carries stream update) := by
  have decoded : ∀ key ∈ entries.filterMap (decodePubkey k), key.length = 32 := by
    intro key member
    obtain ⟨text, -, decodes⟩ := List.mem_filterMap.mp member
    exact decodeExact_length decodes
  simp only [anyDecodable, anyClauses]
  cases empty : (entries.filterMap (decodePubkey k)).isEmpty with
  | true => simp
  | false =>
    simp only [Bool.false_or, Bool.false_eq_true, if_false, Clause.met_cons, Clause.met_nil,
      and_true, Clause.Holds, List.any_eq_true]
    constructor
    · rintro ⟨key, member, holds⟩
      exact ⟨_, List.mem_map_of_mem member, (carried key (decoded key member)).mp holds⟩
    · rintro ⟨atom, among, carries⟩
      obtain ⟨key, member, rfl⟩ := List.mem_map.mp among
      exact ⟨key, member, (carried key (decoded key member)).mpr carries⟩

/-- A list of keys that must all be there. -/
theorem required_iff {stream : Stream} {dim : String} {texts : List String}
    {decode : String → Option Bytes} {holds : Bytes → Bool}
    (carried : ∀ text key, decode text = some key →
      (holds key = true ↔ Carries stream update (dim, .bytes key))) :
    texts.all (fun text => (decode text).any holds) = true ↔
      Clause.Met (texts.map (fun text => strictClause dim (decode text)))
        (Carries stream update) := by
  simp only [List.all_eq_true, Clause.Met, List.forall_mem_map]
  exact forall_congr' (fun text => forall_congr' (fun _ => strict_iff (carried text)))

/-- An update has none of the keys exactly if what it carries meets the clauses against them. -/
theorem excluded_iff {stream : Stream} {dim : String} {texts : List String}
    {holds : Bytes → Bool} (carried : ∀ key : Bytes, key.length = 32 →
      (holds key = true ↔ Carries stream update (dim, .bytes key))) :
    texts.all (fun text => (decodePubkey k text).all (fun key => !holds key)) = true ↔
      Clause.Met ((texts.filterMap (decodePubkey k)).map (fun key => .absent (dim, .bytes key)))
        (Carries stream update) := by
  simp only [List.all_eq_true, Clause.Met, List.forall_mem_map, List.mem_filterMap,
    forall_exists_index, and_imp, Clause.Holds, Option.all_eq_true, Bool.not_eq_true']
  constructor
  · intro refused key text member decoded carries
    have holds := (carried key (decodeExact_length decoded)).mpr carries
    rw [refused text member key decoded] at holds
    cases holds
  · intro refused text member key decoded
    by_contra holds
    exact refused key text member decoded
      ((carried key (decodeExact_length decoded)).mp (Bool.not_eq_false _ ▸ holds))

/-- An update satisfies a filter of transactions exactly if what it carries meets the clauses.
-/
theorem satisfiesTx_iff {f : SubscribeRequestFilterTransactions} :
    satisfiesTx k f update = true ↔ Clause.Met (clausesTx k f) (Carries .tx update) := by
  obtain ⟨vote, failed, signature, keys⟩ := carries_tx update
  have signed : f.signature.all (fun text => (decodeSignature k text).any (hasSignature · update)) =
        true ↔
      Clause.Met (f.signature.toList.map
        (fun text => strictClause dimSignature (decodeSignature k text))) (Carries .tx update) := by
    have listed : f.signature.all (fun text => (decodeSignature k text).any (hasSignature · update)) =
        f.signature.toList.all (fun text => (decodeSignature k text).any (hasSignature · update)) := by
      cases f.signature <;> simp
    rw [listed]
    exact required_iff (fun text key decoded => signature key (decodeExact_length decoded))
  simp only [satisfiesTx, clausesTx, Bool.and_eq_true, Clause.met_append, and_assoc]
  exact and_congr (flag_iff vote) (and_congr (flag_iff failed) (and_congr signed
    (and_congr (any_iff keys) (and_congr (required_iff (fun text key decoded =>
      keys key (decodeExact_length decoded))) (excluded_iff keys)))))

/-- A message satisfies a filter if the values that it carries meet the clauses. -/
theorem satisfies_iff {stream : Stream} {filter : StreamFilter stream} :
    satisfies k filter update = true ↔
      Clause.Met (clauses k filter) (Carries stream update) := by
  cases filter with
  | tx f => exact satisfiesTx_iff
  | acct f =>
    simp only [satisfies, satisfiesAcct, clauses, clausesAcct, Bool.and_eq_true, Clause.met_append]
    exact and_congr (any_iff (fun key length => (carries_acct update key length).1))
      (any_iff (fun key length => (carries_acct update key length).2))
  | block f => simp [satisfies, clauses]

/-! ## Absent dimensions -/

variable {stream : Stream} {updates : List SubscribeUpdate}

/-- The values that the message with an ordinal carries, if there is one. -/
def CarriedAt (stream : Stream) (updates : List SubscribeUpdate) (i : Nat) (lookup : Lookup) :
    Prop :=
  ∃ update, updates[i]? = some update ∧ Carries stream update lookup

/-- What is carried at an ordinal is what the update there carries. -/
theorem carriedAt_iff (found : updates[i]? = some update) (lookup : Lookup) :
    CarriedAt stream updates i lookup ↔ Carries stream update lookup := by
  constructor
  · rintro ⟨other, found', carries⟩
    obtain rfl := Option.some.inj (found.symm.trans found')
    exact carries
  · exact fun carries => ⟨update, found, carries⟩

/-- An index was built with a dimension. -/
def Present (index : ChunkIndex) (dim : String) : Prop := (index.lookup.lookup dim).isSome

/-- What is found under a value are the ordinals of the messages that carry it; where
nothing is found, no message does. -/
def ExactAt (k : Codecs) (stream : Stream) (updates : List SubscribeUpdate) (index : ChunkIndex)
    (dim : String) (value : DimValue) : Prop :=
  ∃ found, index.bitmapFor k dim value = .ok found ∧
    ∀ i, i ∈ found.getD ∅ ↔ CarriedAt stream updates i (dim, value)

/-- The dimensions of which a filter asks for some value. -/
def Constrains (k : Codecs) (filter : StreamFilter stream) (dim : String) : Prop :=
  ∃ atoms, Clause.any atoms ∈ clauses k filter ∧ ∃ atom ∈ atoms, atom.1 = dim

/-- An exact bitmap lists an ordinal exactly if the update there carries the value. -/
theorem listsAt_iff {dim : String} {value : DimValue}
    (exact : ExactAt k stream updates index dim value) :
    Lists k index i (dim, value) ↔ CarriedAt stream updates i (dim, value) := by
  obtain ⟨found, returned, exact⟩ := exact
  rw [← exact]
  cases found with
  | none => simp [Lists, bitmapOrDefault, returned]
  | some bitmap => simp [Lists, bitmapOrDefault, returned]

/-- Of an absent dimension nothing is listed. -/
theorem lists_present {lookup : Lookup} (lists : Lists k index i lookup) :
    Present index lookup.1 := by
  by_contra absent
  rw [Present, Option.not_isSome_iff_eq_none] at absent
  simp [Lists, bitmapOrDefault, ChunkIndex.bitmapFor, absent] at lists

/-- Where the present dimensions are exact, the index lists what is carried in them. -/
theorem lists_seen (exact : ∀ dim, Present index dim → ∀ value,
      ExactAt k stream updates index dim value) (lookup : Lookup) :
    Lists k index i lookup ↔
      Clause.SeenOf (CarriedAt stream updates i) (fun lookup => Present index lookup.1) lookup := by
  obtain ⟨dim, value⟩ := lookup
  constructor
  · intro lists
    have present : Present index dim := lists_present lists
    exact ⟨(listsAt_iff (exact dim present value)).mp lists, present⟩
  · rintro ⟨carried, present⟩
    exact (listsAt_iff (exact dim present value)).mpr carried

/-- A clause asks for values of one dimension only. -/
def OneDim (clause : Clause Lookup) : Prop :=
  ∀ atoms, clause = .any atoms → ∃ dim, ∀ atom ∈ atoms, atom.1 = dim

/-- The clause for a flag looks into one dimension. -/
theorem oneDim_flag {dim : String} {requested : Option Bool} :
    ∀ clause ∈ flagClauses dim requested, OneDim clause := by
  rintro clause member atoms rfl
  cases requested with
  | none => cases member
  | some side =>
    cases side with
    | false => simp [flagClauses] at member
    | true =>
      obtain rfl := Clause.any.inj (List.mem_singleton.mp member)
      exact ⟨dim, by simp⟩

/-- A strict clause looks into one dimension. -/
theorem oneDim_strict {dim : String} {decoded : Option Bytes} :
    OneDim (strictClause dim decoded) := by
  intro atoms same
  cases decoded with
  | none => cases same
  | some key =>
    obtain rfl := Clause.any.inj same
    exact ⟨dim, by simp⟩

/-- A clause for some keys looks into one dimension. -/
theorem oneDim_any {dim : String} {entries : List String} :
    ∀ clause ∈ anyClauses k dim entries, OneDim clause := by
  rintro clause member atoms rfl
  simp only [anyClauses] at member
  split at member
  · cases member
  · obtain rfl := Clause.any.inj (List.mem_singleton.mp member)
    refine ⟨dim, fun atom among => ?_⟩
    obtain ⟨key, -, rfl⟩ := List.mem_map.mp among
    rfl

/-- Every clause of a filter looks into one dimension. -/
theorem oneDim_clauses (filter : StreamFilter stream) : ∀ clause ∈ clauses k filter, OneDim clause := by
  intro clause asked
  cases filter with
  | tx f =>
    simp only [clauses, clausesTx, List.mem_append, List.mem_map] at asked
    rcases asked with ((((flag | flag) | ⟨text, -, rfl⟩) | among) | ⟨text, -, rfl⟩) |
      ⟨key, -, rfl⟩
    · exact oneDim_flag clause flag
    · exact oneDim_flag clause flag
    · exact oneDim_strict
    · exact oneDim_any clause among
    · exact oneDim_strict
    · exact fun atoms same => nomatch same
  | acct f =>
    rcases List.mem_append.mp asked with among | among
    · exact oneDim_any clause among
    · exact oneDim_any clause among
  | block f => cases asked

/-- The clauses that a message meets are supported by the present dimensions exactly when
the constrained dimensions are present. -/
theorem supported_iff {filter : StreamFilter stream} {truth : Lookup → Prop}
    (met : Clause.Met (clauses k filter) truth) :
    Clause.Supported (clauses k filter) truth (fun lookup => Present index lookup.1) ↔
      ∀ dim, Constrains k filter dim → Present index dim := by
  constructor
  · rintro supported dim ⟨atoms, asked, atom, member, rfl⟩
    obtain ⟨other, among, -, present⟩ := supported atoms asked
    obtain ⟨dim, single⟩ := oneDim_clauses filter _ asked atoms rfl
    rw [single atom member, ← single other among]
    exact present
  · intro present atoms asked
    obtain ⟨atom, member, isTrue⟩ := met _ asked
    exact ⟨atom, member, isTrue, present atom.1 ⟨atoms, asked, atom, member, rfl⟩⟩

/-- A satisfying message is resolved exactly when its ordinal is below the message count and
the index has the dimensions of which the filter asks for a value. -/
theorem mem_resolve_present (exact : ∀ dim, Present index dim → ∀ value,
      ExactAt k stream updates index dim value) (filter : StreamFilter stream)
    (found : updates[i]? = some update) (holds : satisfies k filter update = true) :
    i ∈ resolve k index filter ↔ i < index.messageCount % u32Bound ∧
      ∀ dim, Constrains k filter dim → Present index dim := by
  have met : Clause.Met (clauses k filter) (CarriedAt stream updates i) :=
    (Clause.met_congr (carriedAt_iff found)).mpr (satisfies_iff.mp holds)
  rw [mem_resolve, Clause.met_congr (lists_seen exact), Clause.met_seen_iff met, supported_iff met]

/-- No satisfying message is hidden if and only if, where there is one, the filter asks for
values of present dimensions only and the ordinals of the satisfying messages lie below the
message count, narrowed to 32 bits. -/
theorem missing_dimension_iff (k : Codecs) (stream : Stream) (updates : List SubscribeUpdate)
    (index : ChunkIndex) (exact : ∀ dim, Present index dim → ∀ value,
      ExactAt k stream updates index dim value) (filter : StreamFilter stream) :
    (∀ (i : Nat) update, updates[i]? = some update → satisfies k filter update = true →
      i ∈ resolve k index filter) ↔
    ∀ (i : Nat) update, updates[i]? = some update → satisfies k filter update = true →
      i < index.messageCount % u32Bound ∧ ∀ dim, Constrains k filter dim → Present index dim := by
  refine forall_congr' (fun i => forall_congr' (fun update => forall_congr' (fun found =>
    forall_congr' (fun holds => ?_))))
  exact mem_resolve_present exact filter found holds

/-- A transaction that is a vote or is not. -/
def transaction (isVote : Bool) : SubscribeUpdate :=
  { filters := []
    createdAt := none
    updateOneof := some (.transaction
      { slot := 412
        transaction := some ⟨List.replicate 64 7, isVote, none, none⟩ })
    unread := [] }

/-- A builder that registers the flag of votes only, with one vote. -/
def votesOnly : IndexBuilder :=
  let table : List (String × DimValueType) := [(dimVoteFlag, .bool)]
  IndexBuilder.insert
    { stream := .tx
      dims := IndexBuilder.emptyDims table
      dimTypes := IndexBuilder.declaredTypes table
      order := table.map Prod.fst
      distinct := by decide
      registered := fun name => by simp [IndexBuilder.emptyDims, IndexBuilder.mem_foldl_insert]
      typed := fun name member =>
        (IndexBuilder.mem_foldl_insert Prod.snd _ ∅ name).mpr (.inl member) }
    dimVoteFlag (.bool true) 0

/-- An index that has the dimension of votes and no other. -/
def votesIndex : ChunkIndex := IndexBuilder.parsed PlainCodecs.plain votesOnly 0 1000 1

/-- No other dimension is there. -/
theorem present_votesIndex {dim : String} : Present votesIndex dim ↔ dim = dimVoteFlag := by
  have described := IndexBuilder.lookup_bitmapTable
    (IndexBuilder.serialize_describes PlainCodecs.plain votesOnly) votesOnly.distinct dim
  change ((bitmapTable _).lookup dim).isSome ↔ _
  cases found : (bitmapTable (IndexBuilder.serializeDims PlainCodecs.plain votesOnly []
      votesOnly.order).2).lookup dim with
  | none =>
    rw [found] at described
    have other : dim ≠ dimVoteFlag := by
      rintro rfl
      exact described (List.mem_singleton_self _)
    simpa using other
  | some map =>
    rw [found] at described
    obtain ⟨own, -, stored, -⟩ := described
    have member : dim ∈ votesOnly.order :=
      (votesOnly.registered dim).mp (AList.lookup_isSome.mp (Option.isSome_of_eq_some stored))
    simpa using List.mem_singleton.mp member

/-- The one dimension is exact. -/
theorem exact_votesIndex (value : DimValue) :
    ExactAt PlainCodecs.plain .tx [transaction true] votesIndex dimVoteFlag value := by
  refine ⟨_, IndexBuilder.bitmapFor_parsed PlainCodecs.plain_roundTrip.roaring votesOnly 0 1000 1
    dimVoteFlag value, fun i => ?_⟩
  have stored : votesOnly.dims.lookup dimVoteFlag = some ((∅ : Dimension).insert (.bool true) {0}) :=
    rfl
  have carried : CarriedAt .tx [transaction true] i (dimVoteFlag, value) ↔
      i = 0 ∧ value = .bool true := by
    have own : Carries .tx (transaction true) (dimVoteFlag, value) ↔ value = .bool true := by
      simp [Carries, IndexBuilder.carries, IndexBuilder.carriesTx, transaction, dimVoteFlag,
        dimFailedFlag, dimSignature, dimAccountKey, dimProgramId]
    cases i with
    | zero => simpa using (carriedAt_iff rfl (dimVoteFlag, value)).trans own
    | succ n => simp [CarriedAt]
  rw [carried, IndexBuilder.bitmap?, stored, Option.bind_some, Std.TreeMap.getElem?_insert]
  by_cases isTrue : value = .bool true
  · simp [isTrue]
  · have other : compare (DimValue.bool true) value ≠ .eq :=
      fun same => isTrue (Std.LawfulEqCmp.eq_of_compare same).symm
    simp [other, isTrue]

/-- With the flag of votes only, a vote that did not fail is found by the filter that asks
for both. -/
theorem missing_dimension_iff_votes :
    0 ∈ resolve PlainCodecs.plain votesIndex (.tx ⟨some true, some false, none, [], [], []⟩) := by
  refine (missing_dimension_iff PlainCodecs.plain .tx [transaction true] votesIndex
    (fun dim present value => present_votesIndex.mp present ▸ exact_votesIndex value) _).mpr ?_ 0
    (transaction true) rfl (by decide +kernel)
  intro i update found _
  obtain ⟨below, -⟩ := List.getElem?_eq_some_iff.mp found
  refine ⟨lt_of_lt_of_le below (by decide), ?_⟩
  rintro dim ⟨atoms, asked, atom, member, rfl⟩
  have vote : atoms = [(dimVoteFlag, .bool true)] := by
    simpa [clauses, clausesTx, flagClauses, anyClauses] using asked
  rw [vote, List.mem_singleton] at member
  exact present_votesIndex.mpr (member ▸ rfl)

/-- A builder that registers no dimension. -/
def unbuilt : IndexBuilder := ⟨.tx, ∅, ∅, [], by decide, by simp, by simp⟩

/-- The index of one message without any dimension. -/
def unbuiltIndex : ChunkIndex := IndexBuilder.parsed PlainCodecs.plain unbuilt 0 1000 1

/-- An index that was never built has no dimension. -/
theorem unbuiltIndex_absent (dim : String) : ¬ Present unbuiltIndex dim := by
  simp [Present, unbuiltIndex, IndexBuilder.parsed, unbuilt, IndexBuilder.serializeDims, bitmapTable,
    Tables.tabulate]

/-- Without any dimension, a vote is hidden from the filter that asks for votes. -/
theorem missing_dimension_hides :
    parseChunkIndex PlainCodecs.plain (some (IndexBuilder.serialize PlainCodecs.plain unbuilt
        0 1000 1)) = .ok unbuiltIndex ∧
      (∀ dim, Present unbuiltIndex dim → ∀ value,
        ExactAt PlainCodecs.plain .tx [transaction true] unbuiltIndex dim value) ∧
      ∃ f : SubscribeRequestFilterTransactions,
        satisfiesTx PlainCodecs.plain f (transaction true) = true ∧
          0 ∉ filterTx PlainCodecs.plain unbuiltIndex f := by
  refine ⟨IndexBuilder.parse_serialize PlainCodecs.plain_roundTrip.msgpack unbuilt 0 1000 1
    (by decide +kernel), fun dim present => absurd present (unbuiltIndex_absent dim),
    ⟨some true, none, none, [], [], []⟩, by decide +kernel, ?_⟩
  intro resolved
  obtain ⟨-, met⟩ := mem_filterTx.mp resolved
  obtain ⟨atom, -, lists⟩ := met (.any [(dimVoteFlag, .bool true)]) (by decide)
  exact unbuiltIndex_absent _ (lists_present lists)

end Filter

end Sillage
