import Sillage.Reader.ChunkIndex

/-!
# Resolving a filter through the index

A filter is resolved into a bitmap of ordinals without looking at a message.
`satisfies` evaluates the same filter on the message itself; the two agree on
every ordinal.
-/

namespace Sillage

open LittleEndian Idx

/-- The transaction filter of a subscription. -/
structure SubscribeRequestFilterTransactions where
  vote : Option Bool
  failed : Option Bool
  signature : Option String
  accountInclude : List String
  accountExclude : List String
  accountRequired : List String
deriving DecidableEq

/-- The account filter. Its other predicates are refused when a request is parsed. -/
structure SubscribeRequestFilterAccounts where
  account : List String
  owner : List String
deriving DecidableEq

/-- The block filter has no predicate. -/
structure SubscribeRequestFilterBlocksMeta where
deriving DecidableEq

/-- A filter for the messages of one stream. -/
inductive StreamFilter : Stream → Type where
  | tx (filter : SubscribeRequestFilterTransactions) : StreamFilter .tx
  | acct (filter : SubscribeRequestFilterAccounts) : StreamFilter .acct
  | block (filter : SubscribeRequestFilterBlocksMeta) : StreamFilter .block

namespace Filter

variable (k : Codecs)

/-- All ordinals below the message count, narrowed to 32 bits. -/
def matchAll (messageCount : Nat) : RoaringBitmap := Finset.range (messageCount % u32Bound)

/-- A base58 text that decodes to a buffer of the given length. -/
def decodeExact (length : Nat) (text : String) : Option Bytes :=
  (k.bs58Decode text).filter (fun key => key.length = length)

/-- A text that stands for a public key. -/
def decodePubkey (text : String) : Option Bytes := decodeExact k 32 text

/-- A text that stands for a signature. -/
def decodeSignature (text : String) : Option Bytes := decodeExact k 64 text

/-- The bitmap of a value; a missing or unreadable one counts as empty. -/
def bitmapOrDefault (index : ChunkIndex) (dim : String) (value : DimValue) : RoaringBitmap :=
  match index.bitmapFor k dim value with
  | .ok (some bitmap) => bitmap
  | _ => ∅

/-- Restrict to the requested side of a flag of which only the positive side is
indexed. -/
def restrictFlag (index : ChunkIndex) (dim : String) (requested : Option Bool)
    (result : RoaringBitmap) : RoaringBitmap :=
  match requested with
  | none => result
  | some true => result ∩ bitmapOrDefault k index dim (.bool true)
  | some false =>
      result ∩ (matchAll index.messageCount \ bitmapOrDefault k index dim (.bool true))

/-- One entry of an OR-list: the union so far, and whether any entry decoded. -/
def widen (index : ChunkIndex) (dim : String) (state : RoaringBitmap × Bool) (text : String) :
    RoaringBitmap × Bool :=
  match decodePubkey k text with
  | some key => (state.1 ∪ bitmapOrDefault k index dim (.bytes key), true)
  | none => state

/-- Restrict to an OR-list; if no entry decodes the constraint is dropped. -/
def restrictAny (index : ChunkIndex) (dim : String) (entries : List String)
    (result : RoaringBitmap) : RoaringBitmap :=
  let state := entries.foldl (widen k index dim) (∅, false)
  if state.2 then result ∩ state.1 else result

/-- Restrict to every required key; an entry that does not decode ends the whole
resolution with nothing. -/
def restrictAll (index : ChunkIndex) : List String → RoaringBitmap → Option RoaringBitmap
  | [], result => some result
  | text :: rest, result =>
      match decodePubkey k text with
      | none => none
      | some key =>
          restrictAll index rest (result ∩ bitmapOrDefault k index dimAccountKey (.bytes key))

/-- Remove the messages of one excluded key, if it decodes. -/
def remove (index : ChunkIndex) (result : RoaringBitmap) (text : String) : RoaringBitmap :=
  match decodePubkey k text with
  | some key => result \ bitmapOrDefault k index dimAccountKey (.bytes key)
  | none => result

/-- The signature restriction; a text that does not decode ends the resolution
with nothing. -/
def restrictSignature (index : ChunkIndex) (requested : Option String) (result : RoaringBitmap) :
    Option RoaringBitmap :=
  match requested with
  | none => some result
  | some text =>
      match decodeSignature k text with
      | some signature => some (result ∩ bitmapOrDefault k index dimSignature (.bytes signature))
      | none => none

/-- The transactions that a filter selects. One that cannot be satisfied selects none at once.
-/
def filterTx (index : ChunkIndex) (f : SubscribeRequestFilterTransactions) : RoaringBitmap :=
  let result := matchAll index.messageCount
  let result := restrictFlag k index dimVoteFlag f.vote result
  let result := restrictFlag k index dimFailedFlag f.failed result
  match restrictSignature k index f.signature result with
  | none => ∅
  | some result =>
      let result := restrictAny k index dimAccountKey f.accountInclude result
      match restrictAll k index f.accountRequired result with
      | none => ∅
      | some result => f.accountExclude.foldl (remove k index) result

/-- The account updates that a filter selects: by the account, then by its owner. -/
def filterAcct (index : ChunkIndex) (f : SubscribeRequestFilterAccounts) : RoaringBitmap :=
  let result := matchAll index.messageCount
  let result := restrictAny k index dimAccountPubkey f.account result
  restrictAny k index dimOwnerProgram f.owner result

/-- A filter of blocks has no condition. -/
def filterBlock (index : ChunkIndex) (_ : SubscribeRequestFilterBlocksMeta) : RoaringBitmap :=
  matchAll index.messageCount

/-- Resolve a filter of a stream. -/
def resolve (index : ChunkIndex) {stream : Stream} : StreamFilter stream → RoaringBitmap
  | .tx f => filterTx k index f
  | .acct f => filterAcct k index f
  | .block f => filterBlock index f

/-- The transaction of an update, if it carries one. -/
def txInfo (update : SubscribeUpdate) : Option SubscribeUpdateTransactionInfo :=
  match update.updateOneof with
  | some (.transaction t) => t.transaction
  | _ => none

/-- The account of an update. -/
def acctInfo (update : SubscribeUpdate) : Option SubscribeUpdateAccountInfo :=
  match update.updateOneof with
  | some (.account a) => a.account
  | _ => none

/-- The transaction of an update is a vote. -/
def isVote (update : SubscribeUpdate) : Bool := (txInfo update).any (·.isVote)

/-- The transaction of an update has failed. -/
def isFailed (update : SubscribeUpdate) : Bool :=
  (txInfo update).any (fun info => (info.meta.bind TransactionStatusMeta.err).isSome)

/-- The transaction of an update has a signature. -/
def hasSignature (signature : Bytes) (update : SubscribeUpdate) : Bool :=
  (txInfo update).any (fun info => info.signature = signature)

/-- The transaction of an update names a key. -/
def holdsKey (key : Bytes) (update : SubscribeUpdate) : Bool :=
  (txInfo update).any (fun info => key ∈ IndexBuilder.resolvedKeys info)

/-- The account of an update has a key. -/
def hasPubkey (key : Bytes) (update : SubscribeUpdate) : Bool :=
  (acctInfo update).any (fun info => info.pubkey = key)

/-- The account of an update belongs to a program. -/
def hasOwner (key : Bytes) (update : SubscribeUpdate) : Bool :=
  (acctInfo update).any (fun info => info.owner = key)

/-- Some decodable entry of an OR-list holds, or none is decodable. -/
def anyDecodable (entries : List String) (holds : Bytes → Bool) : Bool :=
  let keys := entries.filterMap (decodePubkey k)
  keys.isEmpty || keys.any holds

/-- An update satisfies a filter of transactions, condition by condition. -/
def satisfiesTx (f : SubscribeRequestFilterTransactions) (update : SubscribeUpdate) : Bool :=
  f.vote.all (· == isVote update) &&
    f.failed.all (· == isFailed update) &&
    f.signature.all (fun text => (decodeSignature k text).any (hasSignature · update)) &&
    anyDecodable k f.accountInclude (holdsKey · update) &&
    f.accountRequired.all (fun text => (decodePubkey k text).any (holdsKey · update)) &&
    f.accountExclude.all (fun text => (decodePubkey k text).all (fun key => !holdsKey key update))

/-- An update satisfies a filter of accounts, condition by condition. -/
def satisfiesAcct (f : SubscribeRequestFilterAccounts) (update : SubscribeUpdate) : Bool :=
  anyDecodable k f.account (hasPubkey · update) && anyDecodable k f.owner (hasOwner · update)

/-- A filter evaluated directly on a message. -/
def satisfies {stream : Stream} : StreamFilter stream → SubscribeUpdate → Bool
  | .tx f, update => satisfiesTx k f update
  | .acct f, update => satisfiesAcct k f update
  | .block _, _ => true

/-- A bitmap holds exactly the ordinals of the updates with a property. -/
def Exact (updates : List SubscribeUpdate) (bitmap : RoaringBitmap)
    (property : SubscribeUpdate → Bool) : Prop :=
  ∀ i : Nat, i ∈ bitmap ↔ ∃ update, updates[i]? = some update ∧ property update = true

variable {k}
variable {updates : List SubscribeUpdate} {left right : RoaringBitmap}
  {one two : SubscribeUpdate → Bool}

/-- The bitmap of all ordinals is that of all updates. -/
theorem exact_matchAll (bound : updates.length < u32Bound) :
    Exact updates (matchAll updates.length) (fun _ => true) := by
  intro i
  simp only [matchAll, Nat.mod_eq_of_lt bound, Finset.mem_range, and_true]
  constructor
  · exact fun below => ⟨updates[i], List.getElem?_eq_getElem below⟩
  · rintro ⟨update, found⟩
    exact (List.getElem?_eq_some_iff.mp found).1

/-- The empty bitmap is that of no update. -/
theorem exact_empty : Exact updates ∅ (fun _ => false) := by
  intro i
  simp

/-- Common ordinals are those of the updates with both properties. -/
theorem exact_inter (first : Exact updates left one) (second : Exact updates right two) :
    Exact updates (left ∩ right) (fun update => one update && two update) := by
  intro i
  rw [Finset.mem_inter, first, second]
  cases updates[i]? <;> simp

/-- The ordinals of two bitmaps are those of the updates with one of the properties. -/
theorem exact_union (first : Exact updates left one) (second : Exact updates right two) :
    Exact updates (left ∪ right) (fun update => one update || two update) := by
  intro i
  rw [Finset.mem_union, first, second]
  cases updates[i]? <;> simp

/-- What is left are the updates with the first property and without the second. -/
theorem exact_sdiff (first : Exact updates left one) (second : Exact updates right two) :
    Exact updates (left \ right) (fun update => one update && !two update) := by
  intro i
  rw [Finset.mem_sdiff, first, second]
  cases updates[i]? <;> simp

/-- Only what the property says of the updates matters. -/
theorem exact_congr (exact : Exact updates left one) (same : ∀ update, one update = two update) :
    Exact updates left two := by
  intro i
  rw [exact]
  simp only [same]

/-- The index that the reader parses from the file of a stream's updates. -/
structure Indexes (k : Codecs) (stream : Stream) (updates : List SubscribeUpdate)
    (index : ChunkIndex) : Prop where
  count : index.messageCount = updates.length
  bitmaps : ∀ dim value i, i ∈ bitmapOrDefault k index dim value ↔
    ∃ update, updates[i]? = some update ∧ IndexBuilder.carries stream update dim value

/-- Whatever the reader parses from a serialised index is the index of the
observed updates. -/
theorem indexes_parsed (msgpack : k.MsgpackRoundTrips) (delimited : k.MsgpackDelimited)
    (roaring : k.RoaringRoundTrips) (stream : Stream) (updates : List SubscribeUpdate)
    (startSlot endSlot : Nat) (index : ChunkIndex)
    (parsed : parseChunkIndex k (some (IndexBuilder.serialize k
      (IndexBuilder.observeFrom (IndexBuilder.forStream stream) 0 updates)
      startSlot endSlot updates.length)) = .ok index) : Indexes k stream updates index := by
  rw [IndexBuilder.parsed_of_ok msgpack delimited parsed]
  refine ⟨rfl, ?_⟩
  intro dim value i
  simp only [bitmapOrDefault, IndexBuilder.bitmapFor_parsed roaring]
  have exact := IndexBuilder.observeFrom_exact stream updates dim value
  cases stored : IndexBuilder.bitmap? (IndexBuilder.observeFrom (IndexBuilder.forStream stream) 0
      updates) dim value with
  | none =>
    rw [stored] at exact
    simp only [Finset.notMem_empty, false_iff]
    rintro ⟨update, found, here⟩
    exact exact i update found here
  | some bitmap =>
    rw [stored] at exact
    exact exact.2 i

variable {stream : Stream} {index : ChunkIndex} {result : RoaringBitmap}

/-- A value's bitmap is exact for the property of carrying the value. -/
theorem exact_carried (indexes : Indexes k stream updates index) (dim : String) (value : DimValue)
    (property : SubscribeUpdate → Bool)
    (same : ∀ update, property update = true ↔ IndexBuilder.carries stream update dim value) :
    Exact updates (bitmapOrDefault k index dim value) property := by
  intro i
  rw [indexes.bitmaps]
  simp only [same]

/-- A decoded key has the length that was asked for. -/
theorem decodeExact_length {length : Nat} {text : String} {key : Bytes}
    (decoded : decodeExact k length text = some key) : key.length = length := by
  have kept := (Option.filter_eq_some_iff.mp decoded).2
  simpa using kept

/-- Restricting to a flag keeps the updates that have it as requested. -/
theorem exact_flag (indexes : Indexes k stream updates index) (bound : updates.length < u32Bound)
    (dim : String) (flag : SubscribeUpdate → Bool)
    (carried : ∀ update, flag update = true ↔
      IndexBuilder.carries stream update dim (.bool true))
    (requested : Option Bool) (exact : Exact updates result one) :
    Exact updates (restrictFlag k index dim requested result)
      (fun update => one update && requested.all (· == flag update)) := by
  have positive := exact_carried indexes dim (.bool true) flag carried
  cases requested with
  | none => exact exact_congr exact (by simp)
  | some side =>
    cases side with
    | true => exact exact_congr (exact_inter exact positive) (by simp)
    | false =>
      have every := exact_matchAll bound
      rw [← indexes.count] at every
      exact exact_congr (exact_inter exact (exact_sdiff every positive)) (by simp)

/-- The fold over an OR-list collects the decodable entries. -/
theorem exact_widen (dim : String) (holds : Bytes → SubscribeUpdate → Bool)
    (carried : ∀ key, key.length = 32 →
      Exact updates (bitmapOrDefault k index dim (.bytes key)) (holds key))
    (entries : List String) (union : RoaringBitmap) (anyValid : Bool)
    (exact : Exact updates union one) :
    (entries.foldl (widen k index dim) (union, anyValid)).2 =
        (anyValid || !(entries.filterMap (decodePubkey k)).isEmpty) ∧
      Exact updates (entries.foldl (widen k index dim) (union, anyValid)).1
        (fun update => one update ||
          (entries.filterMap (decodePubkey k)).any (holds · update)) := by
  induction entries generalizing union anyValid one with
  | nil => exact ⟨by simp, exact_congr exact (by simp)⟩
  | cons text rest inductionHypothesis =>
    cases decoded : decodePubkey k text with
    | none =>
      have later := inductionHypothesis union anyValid exact
      simpa [widen, decoded, List.filterMap_cons] using later
    | some key =>
      have key32 := carried key (decodeExact_length decoded)
      have later := inductionHypothesis _ true (exact_union exact key32)
      simp only [List.foldl_cons, widen, decoded, List.filterMap_cons]
      exact ⟨by simp [later.1], exact_congr later.2 (by simp [Bool.or_assoc])⟩

/-- Restricting to one of some keys keeps the updates that carry a decodable one of them. -/
theorem exact_restrictAny (dim : String) (holds : Bytes → SubscribeUpdate → Bool)
    (carried : ∀ key, key.length = 32 →
      Exact updates (bitmapOrDefault k index dim (.bytes key)) (holds key))
    (entries : List String) (exact : Exact updates result one) :
    Exact updates (restrictAny k index dim entries result)
      (fun update => one update && anyDecodable k entries (holds · update)) := by
  obtain ⟨valid, union⟩ := exact_widen (k := k) dim holds carried entries ∅ false exact_empty
  simp only [restrictAny, valid, Bool.false_or]
  cases empty : (entries.filterMap (decodePubkey k)).isEmpty with
  | true => exact exact_congr exact (by simp [anyDecodable, empty])
  | false => exact exact_congr (exact_inter exact union) (by simp [anyDecodable, empty])

/-- Restricting to all of some keys keeps the updates that carry every one of them, if they can
be decoded. -/
theorem exact_restrictAll
    (carried : ∀ key, key.length = 32 →
      Exact updates (bitmapOrDefault k index dimAccountKey (.bytes key)) (holdsKey key))
    (entries : List String) (exact : Exact updates result one) :
    Exact updates ((restrictAll k index entries result).getD ∅)
      (fun update => one update &&
        entries.all (fun text => (decodePubkey k text).any (holdsKey · update))) := by
  induction entries generalizing result one with
  | nil => exact exact_congr exact (by simp)
  | cons text rest inductionHypothesis =>
    cases decoded : decodePubkey k text with
    | none =>
      simp only [restrictAll, decoded, Option.getD_none]
      exact exact_congr exact_empty (by simp [decoded])
    | some key =>
      simp only [restrictAll, decoded]
      have key32 := carried key (decodeExact_length decoded)
      exact exact_congr (inductionHypothesis (exact_inter exact key32))
        (by simp [decoded, Bool.and_assoc])

/-- Removing some keys keeps the updates that carry no decodable one of them. -/
theorem exact_removeAll
    (carried : ∀ key, key.length = 32 →
      Exact updates (bitmapOrDefault k index dimAccountKey (.bytes key)) (holdsKey key))
    (entries : List String) (exact : Exact updates result one) :
    Exact updates (entries.foldl (remove k index) result)
      (fun update => one update && entries.all
        (fun text => (decodePubkey k text).all (fun key => !holdsKey key update))) := by
  induction entries generalizing result one with
  | nil => exact exact_congr exact (by simp)
  | cons text rest inductionHypothesis =>
    cases decoded : decodePubkey k text with
    | none =>
      simp only [List.foldl_cons, remove, decoded]
      exact exact_congr (inductionHypothesis exact) (by simp [decoded])
    | some key =>
      simp only [List.foldl_cons, remove, decoded]
      have key32 := carried key (decodeExact_length decoded)
      exact exact_congr (inductionHypothesis (exact_sdiff exact key32))
        (by simp [decoded, Bool.and_assoc])

/-- What the transaction dimensions record, as properties of the update. -/
theorem carries_tx (update : SubscribeUpdate) :
    (isVote update = true ↔ IndexBuilder.carries .tx update dimVoteFlag (.bool true)) ∧
      (isFailed update = true ↔ IndexBuilder.carries .tx update dimFailedFlag (.bool true)) ∧
      (∀ signature : Bytes, signature.length = 64 → (hasSignature signature update = true ↔
        IndexBuilder.carries .tx update dimSignature (.bytes signature))) ∧
      ∀ key : Bytes, key.length = 32 → (holdsKey key update = true ↔
        IndexBuilder.carries .tx update dimAccountKey (.bytes key)) := by
  cases kind : update.updateOneof with
  | none => simp [IndexBuilder.carries, kind, isVote, isFailed, hasSignature, holdsKey, txInfo]
  | some oneof =>
    cases oneof with
    | account a =>
      simp [IndexBuilder.carries, kind, isVote, isFailed, hasSignature, holdsKey, txInfo]
    | blockMeta b =>
      simp [IndexBuilder.carries, kind, isVote, isFailed, hasSignature, holdsKey, txInfo]
    | other tag =>
      simp [IndexBuilder.carries, kind, isVote, isFailed, hasSignature, holdsKey, txInfo]
    | transaction t =>
      cases found : t.transaction with
      | none =>
        simp [IndexBuilder.carries, IndexBuilder.carriesTx, kind, found, isVote, isFailed,
          hasSignature, holdsKey, txInfo]
      | some info =>
        simp only [IndexBuilder.carries, IndexBuilder.carriesTx, kind, found, isVote, isFailed,
          hasSignature, holdsKey, txInfo, dimVoteFlag, dimFailedFlag, dimSignature, dimAccountKey,
          dimProgramId, Option.some.injEq, exists_eq_left', String.reduceEq, false_and, or_false,
          false_or, true_and, and_true, Option.any_some, DimValue.bytes.injEq, decide_eq_true_eq]
        refine ⟨?_, ?_⟩
        · intro signature length
          constructor
          · rintro rfl
            exact ⟨length, rfl⟩
          · exact fun both => both.2.symm
        · intro key length
          constructor
          · exact fun member => ⟨key, member, length, rfl⟩
          · rintro ⟨other, member, -, rfl⟩
            exact member

/-- What the account dimensions record. -/
theorem carries_acct (update : SubscribeUpdate) (key : Bytes) (length : key.length = 32) :
    (hasPubkey key update = true ↔
        IndexBuilder.carries .acct update dimAccountPubkey (.bytes key)) ∧
      (hasOwner key update = true ↔
        IndexBuilder.carries .acct update dimOwnerProgram (.bytes key)) := by
  cases kind : update.updateOneof with
  | none => simp [IndexBuilder.carries, kind, hasPubkey, hasOwner, acctInfo]
  | some oneof =>
    cases oneof with
    | transaction t => simp [IndexBuilder.carries, kind, hasPubkey, hasOwner, acctInfo]
    | blockMeta b => simp [IndexBuilder.carries, kind, hasPubkey, hasOwner, acctInfo]
    | other tag => simp [IndexBuilder.carries, kind, hasPubkey, hasOwner, acctInfo]
    | account a =>
      cases found : a.account with
      | none =>
        simp [IndexBuilder.carries, IndexBuilder.carriesAcct, kind, found, hasPubkey, hasOwner,
          acctInfo]
      | some info =>
        simp only [IndexBuilder.carries, IndexBuilder.carriesAcct, kind, found, hasPubkey,
          hasOwner, acctInfo, dimAccountPubkey, dimOwnerProgram, Option.some.injEq,
          exists_eq_left', String.reduceEq, false_and, or_false, false_or, true_and,
          Option.any_some, DimValue.bytes.injEq, decide_eq_true_eq]
        constructor
        · constructor
          · rintro rfl
            exact ⟨length, rfl⟩
          · exact fun both => both.2.symm
        · constructor
          · rintro rfl
            exact ⟨length, rfl⟩
          · exact fun both => both.2.symm

/-- A filter of transactions selects exactly the updates that satisfy it. -/
theorem exact_filterTx (indexes : Indexes k .tx updates index)
    (bound : updates.length < u32Bound) (f : SubscribeRequestFilterTransactions) :
    Exact updates (filterTx k index f) (satisfiesTx k f) := by
  have every := exact_matchAll bound
  rw [← indexes.count] at every
  have vote := exact_flag indexes bound dimVoteFlag isVote (fun u => (carries_tx u).1) f.vote every
  have failed := exact_flag indexes bound dimFailedFlag isFailed (fun u => (carries_tx u).2.1)
    f.failed vote
  have keys : ∀ key : Bytes, key.length = 32 →
      Exact updates (bitmapOrDefault k index dimAccountKey (.bytes key)) (holdsKey key) :=
    fun key length => exact_carried indexes dimAccountKey (.bytes key) (holdsKey key)
      (fun u => (carries_tx u).2.2.2 key length)
  -- the part behind the signature check, for whatever the check left over
  have behind : ∀ {found : RoaringBitmap} {property : SubscribeUpdate → Bool},
      Exact updates found property →
      Exact updates (match restrictAll k index f.accountRequired
          (restrictAny k index dimAccountKey f.accountInclude found) with
        | none => ∅
        | some result => f.accountExclude.foldl (remove k index) result)
        (fun u => property u && anyDecodable k f.accountInclude (holdsKey · u) &&
          f.accountRequired.all (fun text => (decodePubkey k text).any (holdsKey · u)) &&
          f.accountExclude.all (fun text =>
            (decodePubkey k text).all (fun key => !holdsKey key u))) := by
    intro found property exact
    have included := exact_restrictAny dimAccountKey holdsKey keys f.accountInclude exact
    have required := exact_restrictAll keys f.accountRequired included
    cases left : restrictAll k index f.accountRequired
        (restrictAny k index dimAccountKey f.accountInclude found) with
    | none =>
      rw [left] at required
      intro i
      constructor
      · simp
      · rintro ⟨u, here, holds⟩
        have shorter := (Bool.and_eq_true_iff.mp holds).1
        exact (required i).mpr ⟨u, here, shorter⟩
    | some result =>
      rw [left] at required
      exact exact_removeAll keys f.accountExclude required
  simp only [filterTx]
  cases requested : f.signature with
  | none =>
    simp only [restrictSignature]
    exact exact_congr (behind failed) (by simp [satisfiesTx, requested])
  | some text =>
    cases decoded : decodeSignature k text with
    | none =>
      simp only [restrictSignature, decoded]
      exact exact_congr exact_empty (by simp [satisfiesTx, requested, decoded])
    | some signature =>
      have length : signature.length = 64 := decodeExact_length decoded
      have signed := exact_inter failed (exact_carried indexes dimSignature (.bytes signature)
        (hasSignature signature) (fun u => (carries_tx u).2.2.1 signature length))
      simp only [restrictSignature, decoded]
      exact exact_congr (behind signed) (by simp [satisfiesTx, requested, decoded])

/-- So does a filter of accounts. -/
theorem exact_filterAcct (indexes : Indexes k .acct updates index)
    (bound : updates.length < u32Bound) (f : SubscribeRequestFilterAccounts) :
    Exact updates (filterAcct k index f) (satisfiesAcct k f) := by
  have every := exact_matchAll bound
  rw [← indexes.count] at every
  have account := exact_restrictAny dimAccountPubkey hasPubkey
    (fun key length => exact_carried indexes dimAccountPubkey (.bytes key) (hasPubkey key)
      (fun u => (carries_acct u key length).1)) f.account every
  have owner := exact_restrictAny dimOwnerProgram hasOwner
    (fun key length => exact_carried indexes dimOwnerProgram (.bytes key) (hasOwner key)
      (fun u => (carries_acct u key length).2)) f.owner account
  exact exact_congr owner (by simp [satisfiesAcct])

/-- Through the index of its stream's updates every filter resolves to exactly the
satisfying ones. -/
theorem exact_resolve (indexes : Indexes k stream updates index)
    (bound : updates.length < u32Bound) (filter : StreamFilter stream) :
    Exact updates (resolve k index filter) (satisfies k filter) := by
  cases filter with
  | tx f => exact exact_filterTx indexes bound f
  | acct f => exact exact_filterAcct indexes bound f
  | block f =>
    have every := exact_matchAll bound
    rw [← indexes.count] at every
    exact every

/-- Resolving a filter through a parsed index agrees with evaluating it on every
observed message. -/
theorem resolve_exact (msgpack : k.MsgpackRoundTrips) (delimited : k.MsgpackDelimited)
    (roaring : k.RoaringRoundTrips) (stream : Stream) (updates : List SubscribeUpdate)
    (bound : updates.length < 2 ^ 32) (startSlot endSlot : Nat) (index : ChunkIndex)
    (parsed : parseChunkIndex k (some (IndexBuilder.serialize k
      (IndexBuilder.observeFrom (IndexBuilder.forStream stream) 0 updates)
      startSlot endSlot updates.length)) = .ok index)
    (filter : StreamFilter stream) (i : Nat) :
    i ∈ resolve k index filter ↔
      ∃ update, updates[i]? = some update ∧ satisfies k filter update = true :=
  exact_resolve (indexes_parsed msgpack delimited roaring stream updates startSlot endSlot index
    parsed) bound filter i

/-- Of a vote and a failed transfer that holds the system program's key, a filter
for failed transactions of that program resolves to the second. -/
theorem resolve_exact_failed_transfer :
    let system : Bytes := List.replicate 32 0
    let transaction (isVote : Bool) (err : Option Bytes) : SubscribeUpdate :=
      { filters := []
        createdAt := none
        updateOneof := some (.transaction
          { slot := 412
            transaction := some
              { signature := List.replicate 64 7
                isVote
                transaction := some ⟨some ⟨[List.replicate 32 1], []⟩⟩
                «meta» := some ⟨err, [], [system]⟩ } })
        unread := [] }
    let updates := [transaction true none, transaction false (some [])]
    let builder := IndexBuilder.observeFrom (IndexBuilder.forStream .tx) 0 updates
    let filter : StreamFilter .tx := .tx
      { vote := some false, failed := some true, signature := none
        accountInclude := ["no key", "11111111111111111111111111111111"]
        accountExclude := [], accountRequired := ["11111111111111111111111111111111"] }
    let index := IndexBuilder.parsed PlainCodecs.plain builder 400 450 updates.length
    0 ∉ resolve PlainCodecs.plain index filter ∧ 1 ∈ resolve PlainCodecs.plain index filter := by
  intro system transaction updates builder filter index
  have parsed : parseChunkIndex PlainCodecs.plain (some (IndexBuilder.serialize
      PlainCodecs.plain builder 400 450 updates.length)) = .ok index :=
    IndexBuilder.parse_serialize PlainCodecs.plain_roundTrip.msgpack builder 400 450 _
      (by decide +kernel)
  have exact := resolve_exact PlainCodecs.plain_roundTrip.msgpack
    PlainCodecs.plain_roundTrip.msgpackDelimited PlainCodecs.plain_roundTrip.roaring .tx updates
    (by decide) 400 450 index parsed filter
  refine ⟨?_, (exact 1).mpr ⟨transaction false (some []), rfl, by decide +kernel⟩⟩
  rintro resolved
  obtain ⟨update, found, holds⟩ := (exact 0).mp resolved
  obtain rfl : transaction true none = update := Option.some.inj found
  exact absurd holds (by decide +kernel)

end Filter

end Sillage
