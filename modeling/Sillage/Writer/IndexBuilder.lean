import Sillage.Common.Codecs

/-!
# Building a chunk's index

The builder keeps, for every dimension of its stream, the set of ordinals under
each value seen so far. Observing an update inserts its ordinal under every value
the update carries. `carries` says on its own terms which those are; the builder
is shown to record exactly them.
-/

namespace Sillage

open LittleEndian Idx

/-- The values of one dimension, in ascending order, with their ordinals. -/
abbrev Dimension := Std.TreeMap DimValue RoaringBitmap

/-- The dimensions of a stream, in registration order. -/
def dimensionTable : Stream → List (String × DimValueType)
  | .tx => [(dimProgramId, .pubkey32), (dimAccountKey, .pubkey32), (dimSignature, .signature64),
      (dimVoteFlag, .bool), (dimFailedFlag, .bool)]
  | .acct => [(dimAccountPubkey, .pubkey32), (dimOwnerProgram, .pubkey32)]
  | .block => [(dimSlot, .u64), (dimParentSlot, .u64)]

/-- The builder. The registered dimensions are those of the order, so that the
lookups of serialisation cannot miss. -/
structure IndexBuilder where
  stream : Stream
  dims : AList (fun _ : String => Dimension)
  dimTypes : AList (fun _ : String => DimValueType)
  order : List String
  distinct : order.Nodup
  registered : ∀ name, name ∈ dims ↔ name ∈ order
  typed : ∀ name ∈ order, name ∈ dimTypes

namespace IndexBuilder

/-- Register a list of dimensions, none of them with a value yet. -/
def emptyDims (table : List (String × DimValueType)) : AList (fun _ : String => Dimension) :=
  table.foldl (fun dims row => dims.insert row.1 ∅) ∅

/-- The types of the dimensions of a stream. -/
def declaredTypes (table : List (String × DimValueType)) :
    AList (fun _ : String => DimValueType) :=
  table.foldl (fun types row => types.insert row.1 row.2) ∅

/-- A table has the names of the rows that were put into it, and those it had before. -/
theorem mem_foldl_insert {β : Type} (value : String × DimValueType → β)
    (table : List (String × DimValueType)) (start : AList (fun _ : String => β)) (name : String) :
    name ∈ table.foldl (fun map row => map.insert row.1 (value row)) start ↔
      name ∈ table.map Prod.fst ∨ name ∈ start := by
  induction table generalizing start with
  | nil => simp
  | cons row rest inductionHypothesis =>
    rw [List.foldl_cons, inductionHypothesis, AList.mem_insert, List.map_cons, List.mem_cons]
    tauto

/-- A fresh builder for a stream. -/
def forStream (stream : Stream) : IndexBuilder where
  stream := stream
  dims := emptyDims (dimensionTable stream)
  dimTypes := declaredTypes (dimensionTable stream)
  order := (dimensionTable stream).map Prod.fst
  distinct := by cases stream <;> decide
  registered name := by simp [emptyDims, mem_foldl_insert]
  typed name member := (mem_foldl_insert Prod.snd _ ∅ name).mpr (.inl member)

/-- The names of the dimensions, in the order of their declaration. -/
def dimensionNames (builder : IndexBuilder) : List String := builder.order

/-- Add an ordinal under a value of a registered dimension; an unregistered
dimension is ignored. -/
def insertDim (dims : AList (fun _ : String => Dimension)) (dim : String) (value : DimValue)
    (offset : Nat) : AList (fun _ : String => Dimension) :=
  match dims.lookup dim with
  | some map => dims.insert dim (map.insert value (Insert.insert offset (map.getD value ∅)))
  | none => dims

/-- Inserting registers no dimension. -/
theorem mem_insertDim (dims : AList (fun _ : String => Dimension)) (dim : String)
    (value : DimValue) (offset : Nat) (name : String) :
    name ∈ insertDim dims dim value offset ↔ name ∈ dims := by
  cases found : dims.lookup dim with
  | none => simp [insertDim, found]
  | some map =>
    have known : dim ∈ dims := AList.lookup_isSome.mp (by simp [found])
    simp only [insertDim, found, AList.mem_insert, or_iff_right_iff_imp]
    exact fun same => same ▸ known

/-- Note that a message carries a value in a dimension. -/
def insert (builder : IndexBuilder) (dim : String) (value : DimValue) (offset : Nat) :
    IndexBuilder :=
  { builder with
    dims := insertDim builder.dims dim value offset
    registered := fun name => (mem_insertDim _ _ _ _ name).trans (builder.registered name) }

/-- Static keys, then loaded writable, then loaded readonly addresses. -/
def resolvedKeys (info : SubscribeUpdateTransactionInfo) : List Bytes :=
  ((info.transaction.bind Transaction.message).map Message.accountKeys).getD [] ++
    ((info.meta.map TransactionStatusMeta.loadedWritableAddresses).getD [] ++
      (info.meta.map TransactionStatusMeta.loadedReadonlyAddresses).getD [])

/-- Insert a key if it has the length of a public key. -/
def insertKey (dim : String) (offset : Nat) (builder : IndexBuilder) (key : Bytes) :
    IndexBuilder :=
  if key.length = 32 then insert builder dim (.bytes key) offset else builder

/-- Insert the program of one top-level instruction; an index past the resolved
keys is ignored. -/
def insertProgram (resolved : List Bytes) (offset : Nat) (builder : IndexBuilder)
    (ix : CompiledInstruction) : IndexBuilder :=
  match resolved[ix.programIdIndex]? with
  | some key => insertKey dimProgramId offset builder key
  | none => builder

/-- Note what a transaction carries. -/
def observeTx (builder : IndexBuilder) (offset : Nat) (update : SubscribeUpdateTransaction) :
    IndexBuilder :=
  match update.transaction with
  | none => builder
  | some info =>
      let builder := if info.signature.length = 64
        then insert builder dimSignature (.bytes info.signature) offset else builder
      let builder := if info.isVote
        then insert builder dimVoteFlag (.bool true) offset else builder
      let builder := if (info.meta.bind TransactionStatusMeta.err).isSome
        then insert builder dimFailedFlag (.bool true) offset else builder
      let resolved := resolvedKeys info
      let builder := resolved.foldl (insertKey dimAccountKey offset) builder
      match info.transaction.bind Transaction.message with
      | none => builder
      | some msg => msg.instructions.foldl (insertProgram resolved offset) builder

/-- Note what an account update carries. -/
def observeAcct (builder : IndexBuilder) (offset : Nat) (update : SubscribeUpdateAccount) :
    IndexBuilder :=
  match update.account with
  | none => builder
  | some info =>
      insertKey dimOwnerProgram offset (insertKey dimAccountPubkey offset builder info.pubkey)
        info.owner

/-- Note what the metadata of a block carries. -/
def observeBlock (builder : IndexBuilder) (offset : Nat) (update : SubscribeUpdateBlockMeta) :
    IndexBuilder :=
  insert (insert builder dimSlot (.u64 update.slot) offset) dimParentSlot
    (.u64 update.parentSlot) offset

/-- Observe an update; a kind that is foreign to the stream is ignored. -/
def observe (builder : IndexBuilder) (offset : Nat) (update : SubscribeUpdate) : IndexBuilder :=
  match update.updateOneof, builder.stream with
  | some (.transaction t), .tx => observeTx builder offset t
  | some (.account a), .acct => observeAcct builder offset a
  | some (.blockMeta b), .block => observeBlock builder offset b
  | _, _ => builder

/-- Observe a list of updates with consecutive ordinals. -/
def observeFrom (builder : IndexBuilder) (offset : Nat) : List SubscribeUpdate → IndexBuilder
  | [] => builder
  | update :: rest => observeFrom (observe builder offset update) (offset + 1) rest

/-- Serialise the bitmaps of one dimension behind a body, noting where each one
lies. -/
def serializeEntries (k : Codecs) (body : Bytes) :
    List (DimValue × RoaringBitmap) → Bytes × List DimEntryHeader
  | [] => (body, [])
  | (value, bitmap) :: rest =>
      let offset := body.length
      let grown := body ++ k.roaringSerialize bitmap
      let later := serializeEntries k grown rest
      (later.1, ⟨value, offset, grown.length - offset⟩ :: later.2)

/-- Serialise the named dimensions behind a body. Registration makes both lookups
succeed. -/
def serializeDims (k : Codecs) (builder : IndexBuilder) (body : Bytes) :
    List String → Bytes × List DimensionHeader
  | [] => (body, [])
  | name :: rest =>
      match builder.dims.lookup name, builder.dimTypes.lookup name with
      | some map, some valueType =>
          let written := serializeEntries k body map.toList
          let later := serializeDims k builder written.1 rest
          (later.1, ⟨name, valueType, written.2⟩ :: later.2)
      | _, _ => serializeDims k builder body rest

/-- The header that goes in front of the body. -/
def header (k : Codecs) (builder : IndexBuilder) (startSlot endSlot messageCount : Nat) :
    IdxHeader where
  stream := builder.stream.asStr
  startSlot := startSlot
  endSlot := endSlot
  messageCount := messageCount
  dimensions := (serializeDims k builder [] builder.order).2

/-- The bytes of the index file. -/
def serialize (k : Codecs) (builder : IndexBuilder) (startSlot endSlot messageCount : Nat) :
    Bytes :=
  let headerBytes := k.msgpackEncode (header k builder startSlot endSlot messageCount)
  idxMagic ++ [idxVersion] ++ u32Bytes headerBytes.length ++ headerBytes ++
    (serializeDims k builder [] builder.order).1

/-- The value of a dimension that a transaction carries. -/
def carriesTx (update : SubscribeUpdateTransaction) (dim : String) (value : DimValue) : Prop :=
  ∃ info, update.transaction = some info ∧
    ((dim = dimSignature ∧ info.signature.length = 64 ∧ value = .bytes info.signature) ∨
      (dim = dimVoteFlag ∧ info.isVote = true ∧ value = .bool true) ∨
      (dim = dimFailedFlag ∧ (info.meta.bind TransactionStatusMeta.err).isSome ∧
        value = .bool true) ∨
      (dim = dimAccountKey ∧ ∃ key ∈ resolvedKeys info, key.length = 32 ∧ value = .bytes key) ∨
      (dim = dimProgramId ∧ ∃ msg, info.transaction.bind Transaction.message = some msg ∧
        ∃ ix ∈ msg.instructions, ∃ key, (resolvedKeys info)[ix.programIdIndex]? = some key ∧
          key.length = 32 ∧ value = .bytes key))

/-- What an account update carries: its key and its owner, if the account is there. -/
def carriesAcct (update : SubscribeUpdateAccount) (dim : String) (value : DimValue) : Prop :=
  ∃ info, update.account = some info ∧
    ((dim = dimAccountPubkey ∧ info.pubkey.length = 32 ∧ value = .bytes info.pubkey) ∨
      (dim = dimOwnerProgram ∧ info.owner.length = 32 ∧ value = .bytes info.owner))

/-- What the metadata of a block carries: its slot and that of its parent. -/
def carriesBlock (update : SubscribeUpdateBlockMeta) (dim : String) (value : DimValue) : Prop :=
  (dim = dimSlot ∧ value = .u64 update.slot) ∨
    (dim = dimParentSlot ∧ value = .u64 update.parentSlot)

/-- An update carries a value in a dimension of a stream. Updates of a kind
foreign to the stream carry nothing. -/
def carries (stream : Stream) (update : SubscribeUpdate) (dim : String) (value : DimValue) :
    Prop :=
  match update.updateOneof, stream with
  | some (.transaction t), .tx => carriesTx t dim value
  | some (.account a), .acct => carriesAcct a dim value
  | some (.blockMeta b), .block => carriesBlock b dim value
  | _, _ => False

/-- The bitmap a builder holds under a value of a dimension. -/
def bitmap? (builder : IndexBuilder) (dim : String) (value : DimValue) : Option RoaringBitmap :=
  (builder.dims.lookup dim).bind (·[value]?)

/-- An ordinal is recorded under a value of a dimension. -/
def Records (builder : IndexBuilder) (dim : String) (value : DimValue) (ord : Nat) : Prop :=
  ∃ bitmap, bitmap? builder dim value = some bitmap ∧ ord ∈ bitmap

/-- No value is present with an empty bitmap. -/
def Occupied (builder : IndexBuilder) : Prop :=
  ∀ dim value bitmap, bitmap? builder dim value = some bitmap → bitmap.Nonempty

/-- What observing can do: it adds one ordinal under a set of values and changes
nothing else. -/
structure Adds (before after : IndexBuilder) (offset : Nat) (added : String → DimValue → Prop) :
    Prop where
  stream : after.stream = before.stream
  order : after.order = before.order
  dims : ∀ dim, dim ∈ after.dims ↔ dim ∈ before.dims
  records : ∀ dim value ord, Records after dim value ord ↔
    Records before dim value ord ∨ (ord = offset ∧ added dim value)
  occupied : Occupied before → Occupied after

/-- A builder that stays as it is adds nothing. -/
theorem adds_nothing (builder : IndexBuilder) (offset : Nat) :
    Adds builder builder offset (fun _ _ => False) :=
  ⟨rfl, rfl, fun _ => Iff.rfl, fun _ _ _ => by simp, id⟩

/-- What two parts of an observation add. -/
theorem adds_trans {first second third : IndexBuilder} {offset : Nat}
    {one two : String → DimValue → Prop} (left : Adds first second offset one)
    (right : Adds second third offset two) :
    Adds first third offset (fun dim value => one dim value ∨ two dim value) where
  stream := right.stream.trans left.stream
  order := right.order.trans left.order
  dims dim := (right.dims dim).trans (left.dims dim)
  records dim value ord := by
    rw [right.records, left.records]
    tauto
  occupied full := right.occupied (left.occupied full)

/-- Only which values are added matters. -/
theorem adds_congr {before after : IndexBuilder} {offset : Nat}
    {one two : String → DimValue → Prop} (adds : Adds before after offset one)
    (same : ∀ dim value, one dim value ↔ two dim value) : Adds before after offset two :=
  { adds with records := fun dim value ord => by rw [adds.records, same] }

/-- Inserting into a registered dimension adds exactly that value. -/
theorem adds_insert (builder : IndexBuilder) (dim : String) (value : DimValue) (offset : Nat)
    (present : dim ∈ builder.dims) :
    Adds builder (insert builder dim value offset) offset
      (fun dim' value' => dim' = dim ∧ value' = value) := by
  obtain ⟨map, found⟩ := Option.isSome_iff_exists.mp (AList.lookup_isSome.mpr present)
  have lookup : ∀ asked, (insert builder dim value offset).dims.lookup asked =
      if asked = dim then some (map.insert value (Insert.insert offset (map.getD value ∅)))
      else builder.dims.lookup asked := by
    intro asked
    simp only [insert, insertDim, found]
    split
    · next same =>
      subst same
      exact AList.lookup_insert _
    · next distinct => exact AList.lookup_insert_ne distinct
  have bitmap : ∀ dim' value', bitmap? (insert builder dim value offset) dim' value' =
      if dim' = dim ∧ value' = value then some (Insert.insert offset (map.getD value ∅))
      else bitmap? builder dim' value' := by
    intro dim' value'
    simp only [bitmap?, lookup]
    by_cases sameDim : dim' = dim
    · subst sameDim
      simp only [if_true, Option.bind_some, found, true_and, Std.TreeMap.getElem?_insert,
        Std.LawfulEqCmp.compare_eq_iff_eq, eq_comm (a := value)]
    · simp [sameDim]
  have old : map.getD value ∅ = (bitmap? builder dim value).getD ∅ := by
    simp only [bitmap?, found, Option.bind_some, Std.TreeMap.getD_eq_getD_getElem?]
  refine ⟨rfl, rfl, fun asked => mem_insertDim _ _ _ _ asked, ?_, ?_⟩
  · intro dim' value' ord
    simp only [Records, bitmap]
    by_cases here : dim' = dim ∧ value' = value
    · obtain ⟨rfl, rfl⟩ := here
      simp only [and_self, if_true, Option.some.injEq, exists_eq_left', Finset.mem_insert, old,
        and_true]
      cases stored : bitmap? builder dim' value' with
      | none => simp
      | some bits => simp [or_comm]
    · simp [here]
  · intro full dim' value' bits stored
    rw [bitmap] at stored
    split at stored
    · exact Option.some.inj stored ▸ Finset.insert_nonempty _ _
    · exact full dim' value' bits stored

/-- A guarded insertion adds its value when the guard holds. -/
theorem adds_guarded (guard : Prop) [Decidable guard] (builder : IndexBuilder) (dim : String)
    (value : DimValue) (offset : Nat) (present : dim ∈ builder.dims) :
    Adds builder (if guard then insert builder dim value offset else builder) offset
      (fun dim' value' => dim' = dim ∧ guard ∧ value' = value) := by
  split
  · next holds =>
    exact adds_congr (adds_insert builder dim value offset present) (by simp [holds])
  · next fails => exact adds_congr (adds_nothing builder offset) (by simp [fails])

/-- A fold of steps that each add some values adds all of them. -/
theorem adds_foldl {α : Type} (step : IndexBuilder → α → IndexBuilder) (offset : Nat)
    (added : α → String → DimValue → Prop) (required : String) (items : List α)
    (steps : ∀ builder item, required ∈ builder.dims →
      Adds builder (step builder item) offset (added item))
    (builder : IndexBuilder) (present : required ∈ builder.dims) :
    Adds builder (items.foldl step builder) offset
      (fun dim value => ∃ item ∈ items, added item dim value) := by
  induction items generalizing builder with
  | nil => exact adds_congr (adds_nothing builder offset) (by simp)
  | cons item rest inductionHypothesis =>
    have first := steps builder item present
    have later := inductionHypothesis (step builder item) ((first.dims required).mpr present)
    exact adds_congr (adds_trans first later) (by simp)

/-- Observing a transaction adds exactly what it carries. -/
theorem adds_observeTx (builder : IndexBuilder) (offset : Nat)
    (update : SubscribeUpdateTransaction)
    (present : ∀ row ∈ dimensionTable .tx, row.1 ∈ builder.dims) :
    Adds builder (observeTx builder offset update) offset (carriesTx update) := by
  cases found : update.transaction with
  | none =>
    have same : observeTx builder offset update = builder := by simp [observeTx, found]
    rw [same]
    exact adds_congr (adds_nothing builder offset) (by simp [carriesTx, found])
  | some info =>
    have key : ∀ dim (b : IndexBuilder) bytes, dim ∈ b.dims →
        Adds b (insertKey dim offset b bytes) offset
          (fun dim' value' => dim' = dim ∧ bytes.length = 32 ∧ value' = .bytes bytes) :=
      fun dim b bytes here => adds_guarded _ b dim _ offset here
    have hasProgram := present (dimProgramId, .pubkey32) (by simp [dimensionTable])
    have hasKey := present (dimAccountKey, .pubkey32) (by simp [dimensionTable])
    have hasSignature := present (dimSignature, .signature64) (by simp [dimensionTable])
    have hasVote := present (dimVoteFlag, .bool) (by simp [dimensionTable])
    have hasFailed := present (dimFailedFlag, .bool) (by simp [dimensionTable])
    -- the five insertions in source order, each on the builder the previous one left
    have signature := adds_guarded (info.signature.length = 64) builder dimSignature
      (.bytes info.signature) offset hasSignature
    have vote := adds_trans signature (adds_guarded (info.isVote = true) _ dimVoteFlag
      (.bool true) offset ((signature.dims _).mpr hasVote))
    have failed := adds_trans vote
      (adds_guarded ((info.meta.bind TransactionStatusMeta.err).isSome = true) _ dimFailedFlag
        (.bool true) offset ((vote.dims _).mpr hasFailed))
    have keys := adds_trans failed (adds_foldl (insertKey dimAccountKey offset) offset _
      dimAccountKey (resolvedKeys info) (fun b bytes here => key dimAccountKey b bytes here) _
      ((failed.dims _).mpr hasKey))
    cases message : info.transaction.bind Transaction.message with
    | none =>
      simp only [observeTx, found, message]
      refine adds_congr keys (fun dim value => ?_)
      simp only [carriesTx, found, Option.some.injEq, exists_eq_left', message, reduceCtorEq,
        false_and, exists_false, and_false, or_false]
      grind
    | some msg =>
      have program : ∀ (b : IndexBuilder) ix, dimProgramId ∈ b.dims →
          Adds b (insertProgram (resolvedKeys info) offset b ix) offset
            (fun dim' value' => dim' = dimProgramId ∧
              ∃ bytes, (resolvedKeys info)[ix.programIdIndex]? = some bytes ∧
                bytes.length = 32 ∧ value' = .bytes bytes) := by
        intro b ix here
        cases stored : (resolvedKeys info)[ix.programIdIndex]? with
        | none =>
          simp only [insertProgram, stored]
          exact adds_congr (adds_nothing b offset) (by simp)
        | some bytes =>
          simp only [insertProgram, stored]
          exact adds_congr (key dimProgramId b bytes here) (by simp)
      have programs := adds_trans keys (adds_foldl (insertProgram (resolvedKeys info) offset)
        offset _ dimProgramId msg.instructions program _ ((keys.dims _).mpr hasProgram))
      simp only [observeTx, found, message]
      refine adds_congr programs (fun dim value => ?_)
      simp only [carriesTx, found, Option.some.injEq, exists_eq_left', message]
      grind

/-- Observing an account update adds exactly what it carries. -/
theorem adds_observeAcct (builder : IndexBuilder) (offset : Nat) (update : SubscribeUpdateAccount)
    (present : ∀ row ∈ dimensionTable .acct, row.1 ∈ builder.dims) :
    Adds builder (observeAcct builder offset update) offset (carriesAcct update) := by
  cases found : update.account with
  | none =>
    have same : observeAcct builder offset update = builder := by simp [observeAcct, found]
    rw [same]
    exact adds_congr (adds_nothing builder offset) (by simp [carriesAcct, found])
  | some info =>
    have hasPubkey := present (dimAccountPubkey, .pubkey32) (by simp [dimensionTable])
    have hasOwner := present (dimOwnerProgram, .pubkey32) (by simp [dimensionTable])
    have pubkey := adds_guarded (info.pubkey.length = 32) builder dimAccountPubkey
      (.bytes info.pubkey) offset hasPubkey
    have owner := adds_trans pubkey (adds_guarded (info.owner.length = 32) _ dimOwnerProgram
      (.bytes info.owner) offset ((pubkey.dims _).mpr hasOwner))
    simp only [observeAcct, found]
    exact adds_congr owner (fun dim value => by simp [carriesAcct, found])

/-- Observing a block adds its slot and its parent's slot. -/
theorem adds_observeBlock (builder : IndexBuilder) (offset : Nat)
    (update : SubscribeUpdateBlockMeta)
    (present : ∀ row ∈ dimensionTable .block, row.1 ∈ builder.dims) :
    Adds builder (observeBlock builder offset update) offset (carriesBlock update) := by
  have hasSlot := present (dimSlot, .u64) (by simp [dimensionTable])
  have hasParent := present (dimParentSlot, .u64) (by simp [dimensionTable])
  have slot := adds_insert builder dimSlot (.u64 update.slot) offset hasSlot
  exact adds_trans slot (adds_insert _ dimParentSlot (.u64 update.parentSlot) offset
    ((slot.dims _).mpr hasParent))

/-- Every dimension of the builder's stream is registered. -/
def Ready (builder : IndexBuilder) : Prop :=
  ∀ row ∈ dimensionTable builder.stream, row.1 ∈ builder.dims

/-- Observing an update adds exactly what it carries in the builder's stream. -/
theorem adds_observe (builder : IndexBuilder) (offset : Nat) (update : SubscribeUpdate)
    (ready : Ready builder) :
    Adds builder (observe builder offset update) offset (carries builder.stream update) := by
  unfold observe carries
  split
  · next t kind stream =>
    exact adds_observeTx builder offset t (by simpa [Ready, stream] using ready)
  · next a kind stream =>
    exact adds_observeAcct builder offset a (by simpa [Ready, stream] using ready)
  · next b kind stream =>
    exact adds_observeBlock builder offset b (by simpa [Ready, stream] using ready)
  · exact adds_nothing builder offset

/-- Observing leaves a builder ready for the next message. -/
theorem ready_adds {before after : IndexBuilder} {offset : Nat}
    {added : String → DimValue → Prop} (adds : Adds before after offset added)
    (ready : Ready before) : Ready after := by
  intro row member
  rw [adds.stream] at member
  exact (adds.dims row.1).mpr (ready row member)

/-- A fresh builder has its dimensions registered and no value recorded. -/
theorem forStream_fresh (stream : Stream) : Ready (forStream stream) ∧
    ∀ dim value, bitmap? (forStream stream) dim value = none := by
  refine ⟨?_, ?_⟩
  · intro row member
    exact (mem_foldl_insert (fun _ => ∅) _ ∅ row.1).mpr (.inl (List.mem_map_of_mem member))
  · intro dim value
    have empties : ∀ (table : List (String × DimValueType)) (start : AList fun _ : String => Dimension),
        (∀ map, start.lookup dim = some map → map[value]? = none) →
        ∀ map, (table.foldl (fun dims row => dims.insert row.1 ∅) start).lookup dim = some map →
          map[value]? = none := by
      intro table
      induction table with
      | nil => exact fun start empty => empty
      | cons row rest inductionHypothesis =>
        intro start empty
        apply inductionHypothesis
        intro map found
        by_cases same : dim = row.1
        · subst same
          rw [AList.lookup_insert, Option.some.injEq] at found
          simp [← found]
        · rw [AList.lookup_insert_ne same] at found
          exact empty map found
    cases stored : (forStream stream).dims.lookup dim with
    | none => simp [bitmap?, stored]
    | some map =>
      have none := empties (dimensionTable stream) ∅ (by simp) map stored
      simpa [bitmap?, stored] using none

/-- Observing a list records exactly the ordinals of the carrying updates, on top
of what was recorded before. Induction on the list; each update adds its own
ordinal. -/
theorem observeFrom_records (updates : List SubscribeUpdate) (builder : IndexBuilder)
    (offset : Nat) (ready : Ready builder) :
    let after := observeFrom builder offset updates
    after.stream = builder.stream ∧ after.order = builder.order ∧ Ready after ∧
      (Occupied builder → Occupied after) ∧
      ∀ dim value ord, Records after dim value ord ↔ Records builder dim value ord ∨
        ∃ i update, updates[i]? = some update ∧ ord = offset + i ∧
          carries builder.stream update dim value := by
  induction updates generalizing builder offset with
  | nil => exact ⟨rfl, rfl, ready, id, fun _ _ _ => by simp [observeFrom]⟩
  | cons update rest inductionHypothesis =>
    have first := adds_observe builder offset update ready
    obtain ⟨stream, order, readyAfter, occupied, records⟩ :=
      inductionHypothesis (observe builder offset update) (offset + 1) (ready_adds first ready)
    refine ⟨stream.trans first.stream, order.trans first.order, readyAfter,
      fun full => occupied (first.occupied full), ?_⟩
    intro dim value ord
    change Records (observeFrom (observe builder offset update) (offset + 1) rest) dim value ord ↔ _
    rw [records, first.records, first.stream, or_assoc]
    refine or_congr Iff.rfl ⟨?_, ?_⟩
    · rintro (⟨rfl, here⟩ | ⟨i, later, found, rfl, here⟩)
      · exact ⟨0, update, rfl, rfl, here⟩
      · exact ⟨i + 1, later, found, by omega, here⟩
    · rintro ⟨i, later, found, rfl, here⟩
      cases i with
      | zero =>
        obtain rfl : update = later := by simpa using found
        exact .inl ⟨rfl, here⟩
      | succ i => exact .inr ⟨i, later, by simpa using found, by omega, here⟩

/-- A fresh builder that has observed a list holds, under each value of each
dimension, exactly the ordinals of the carrying updates, and holds nothing where
no update carries the value. -/
theorem observeFrom_exact (stream : Stream) (updates : List SubscribeUpdate) (dim : String)
    (value : DimValue) :
    match bitmap? (observeFrom (forStream stream) 0 updates) dim value with
    | some bitmap => bitmap.Nonempty ∧ ∀ i : Nat, i ∈ bitmap ↔
        ∃ update, updates[i]? = some update ∧ carries stream update dim value
    | none => ∀ i : Nat, ∀ update, updates[i]? = some update →
        ¬ carries stream update dim value := by
  obtain ⟨ready, fresh⟩ := forStream_fresh stream
  have emptyFull : Occupied (forStream stream) := by
    intro dim value bitmap stored
    simp [fresh] at stored
  obtain ⟨-, -, -, occupied, records⟩ := observeFrom_records updates (forStream stream) 0 ready
  have exact : ∀ ord, Records (observeFrom (forStream stream) 0 updates) dim value ord ↔
      ∃ update, updates[ord]? = some update ∧ carries stream update dim value := by
    intro ord
    rw [records]
    constructor
    · rintro (⟨bitmap, stored, -⟩ | ⟨i, update, found, rfl, here⟩)
      · simp [fresh] at stored
      · exact ⟨update, by simpa using found, here⟩
    · rintro ⟨update, found, here⟩
      exact .inr ⟨ord, update, found, by omega, here⟩
  cases stored : bitmap? (observeFrom (forStream stream) 0 updates) dim value with
  | none =>
    intro i update found here
    obtain ⟨bitmap, present, -⟩ := (exact i).mpr ⟨update, found, here⟩
    simp [stored] at present
  | some bitmap =>
    refine ⟨occupied emptyFull dim value bitmap stored, ?_⟩
    intro i
    rw [← exact]
    simp [Records, stored]

end IndexBuilder

end Sillage
