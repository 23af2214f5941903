import Sillage.Common.Codecs
import Sillage.Foundation.Wire

/-!
# A reference instance of the encodings

Self-delimiting formats for the encoded types, composed from their parts, and the
base58 decoder. The instance meets every round trip that the results assume.
-/

namespace Sillage.PlainCodecs

open LittleEndian Idx Chunk Wire

/-- The index of the program that is called. -/
def instruction : Format CompiledInstruction :=
  via nat CompiledInstruction.programIdIndex CompiledInstruction.mk (fun _ => rfl)

/-- The keys that the message names, and its instructions. -/
def message : Format Message :=
  via (pair (list bytes) (list instruction)) (fun m => (m.accountKeys, m.instructions))
    (fun p => ⟨p.1, p.2⟩) (fun _ => rfl)

/-- A message that may be missing. -/
def transaction : Format Transaction :=
  via (option message) Transaction.message Transaction.mk (fun _ => rfl)

/-- An error that may be missing, and the keys loaded from tables. -/
def statusMeta : Format TransactionStatusMeta :=
  via (pair (option bytes) (pair (list bytes) (list bytes)))
    (fun m => (m.err, m.loadedWritableAddresses, m.loadedReadonlyAddresses))
    (fun p => ⟨p.1, p.2.1, p.2.2⟩) (fun _ => rfl)

/-- The signature, the vote flag, and what may be missing of the transaction. -/
def transactionInfo : Format SubscribeUpdateTransactionInfo :=
  via (pair bytes (pair bool (pair (option transaction) (option statusMeta))))
    (fun i => (i.signature, i.isVote, i.transaction, i.meta))
    (fun p => ⟨p.1, p.2.1, p.2.2.1, p.2.2.2⟩) (fun _ => rfl)

/-- The transaction that may be missing, and its slot. -/
def transactionUpdate : Format SubscribeUpdateTransaction :=
  via (pair nat (option transactionInfo)) (fun t => (t.slot, t.transaction))
    (fun p => ⟨p.1, p.2⟩) (fun _ => rfl)

/-- The key, the owner, and the rest of an account. -/
def accountInfo : Format SubscribeUpdateAccountInfo :=
  via (pair bytes bytes) (fun a => (a.pubkey, a.owner)) (fun p => ⟨p.1, p.2⟩) (fun _ => rfl)

/-- The account that may be missing, and its slot. -/
def accountUpdate : Format SubscribeUpdateAccount :=
  via (pair nat (option accountInfo)) (fun a => (a.slot, a.account)) (fun p => ⟨p.1, p.2⟩)
    (fun _ => rfl)

/-- The slot of a block, and that of its parent. -/
def blockMetaUpdate : Format SubscribeUpdateBlockMeta :=
  via (pair nat nat) (fun b => (b.slot, b.parentSlot)) (fun p => ⟨p.1, p.2⟩) (fun _ => rfl)

/-- A tag says which update it is. -/
def updateOneof : Format UpdateOneof :=
  via (sum (sum transactionUpdate accountUpdate) (sum blockMetaUpdate nat))
    (fun
      | .transaction t => .inl (.inl t)
      | .account a => .inl (.inr a)
      | .blockMeta b => .inr (.inl b)
      | .other tag => .inr (.inr tag))
    (fun
      | .inl (.inl t) => .transaction t
      | .inl (.inr a) => .account a
      | .inr (.inl b) => .blockMeta b
      | .inr (.inr tag) => .other tag)
    (fun update => by cases update <;> rfl)

/-- Seconds, and the nanoseconds behind them. -/
def timestamp : Format Timestamp :=
  via (pair int int) (fun t => (t.seconds, t.nanos)) (fun p => ⟨p.1, p.2⟩) (fun _ => rfl)

/-- The names of the filters, the update, and its time. -/
def subscribeUpdate : Format SubscribeUpdate :=
  via (pair (list string) (pair (option timestamp) (pair (option updateOneof) bytes)))
    (fun u => (u.filters, u.createdAt, u.updateOneof, u.unread))
    (fun p => ⟨p.1, p.2.1, p.2.2.1, p.2.2.2⟩) (fun _ => rfl)

/-- A tag says of which kind the value is. -/
def dimValue : Format DimValue :=
  via (sum bytes (sum nat bool))
    (fun
      | .bytes value => .inl value
      | .u64 value => .inr (.inl value)
      | .bool value => .inr (.inr value))
    (fun
      | .inl value => .bytes value
      | .inr (.inl value) => .u64 value
      | .inr (.inr value) => .bool value)
    (fun value => by cases value <;> rfl)

/-- A tag for each kind. -/
def dimValueType : Format DimValueType :=
  via (pair bool bool)
    (fun
      | .pubkey32 => (false, false)
      | .signature64 => (false, true)
      | .u64 => (true, false)
      | .bool => (true, true))
    (fun
      | (false, false) => .pubkey32
      | (false, true) => .signature64
      | (true, false) => .u64
      | (true, true) => .bool)
    (fun kind => by cases kind <;> rfl)

/-- The value, and where its bitmap lies. -/
def entryHeader : Format DimEntryHeader :=
  via (pair dimValue (pair nat nat)) (fun e => (e.value, e.offset, e.length))
    (fun p => ⟨p.1, p.2.1, p.2.2⟩) (fun _ => rfl)

/-- The name, the type, and the entries of a dimension. -/
def dimensionHeader : Format DimensionHeader :=
  via (pair string (pair dimValueType (list entryHeader)))
    (fun d => (d.name, d.valueType, d.entries)) (fun p => ⟨p.1, p.2.1, p.2.2⟩) (fun _ => rfl)

/-- The header of an index, field after field. -/
def idxHeader : Format IdxHeader :=
  via (pair string (pair nat (pair nat (pair nat (list dimensionHeader)))))
    (fun h => (h.stream, h.startSlot, h.endSlot, h.messageCount, h.dimensions))
    (fun p => ⟨p.1, p.2.1, p.2.2.1, p.2.2.2.1, p.2.2.2.2⟩) (fun _ => rfl)

/-- A bitmap, as its ordinals in ascending order. -/
def roaring : Format RoaringBitmap :=
  via (list nat) ordinals List.toFinset (fun bitmap => by ext ord; simp)

/-- The sidecar, field after field. -/
def chunkMeta : Format ChunkMeta :=
  via (pair nat (pair string (pair nat (pair nat (pair (option nat) (pair (option nat)
      (pair nat (pair nat (pair nat (pair (option nat) (pair (option nat)
        (pair string (list string)))))))))))))
    (fun m => (m.schemaVersion, m.stream, m.startSlot, m.endSlotExclusive, m.firstMessageSlot,
      m.lastMessageSlot, m.messageCount, m.uncompressedBytes, m.compressedBytes, m.recvNsFirst,
      m.recvNsLast, m.sealedReason, m.indexDimensions))
    (fun (a, b, c, d, e, f, g, h, i, j, l, m, n) => ⟨a, b, c, d, e, f, g, h, i, j, l, m, n⟩)
    (fun _ => rfl)

/-- The digits and letters without those that look alike. -/
def base58Alphabet : List Char :=
  "123456789ABCDEFGHJKLMNPQRSTUVWXYZabcdefghijkmnopqrstuvwxyz".toList

/-- Base58: every leading one is a zero byte, the rest is a number. -/
def base58Decode (text : String) : Option Bytes :=
  (text.toList.mapM (fun symbol => base58Alphabet.idxOf? symbol)).map (fun symbols =>
    let number := symbols.foldl (fun value symbol => 58 * value + symbol) 0
    List.replicate (symbols.takeWhile (· = 0)).length 0 ++ (digits number number).reverse)

/-- The reference instance; compression stores its input. -/
def plain : Codecs where
  zstdEncode := id
  zstdDecode := some
  prostEncode := subscribeUpdate.put
  prostDecode := subscribeUpdate.decode
  msgpackEncode := idxHeader.put
  msgpackDecode := idxHeader.decode
  roaringSerialize := roaring.put
  roaringDeserialize := roaring.decode
  jsonEncode := chunkMeta.put
  jsonDecode := chunkMeta.decode
  bs58Decode := base58Decode

/-- The reference instance meets every round trip. -/
theorem plain_roundTrip : plain.RoundTrip where
  zstd _ := rfl
  prost := subscribeUpdate.decode_put
  msgpack := idxHeader.decode_put
  msgpackDelimited := idxHeader.decode_cut
  roaring := roaring.decode_put
  json := chunkMeta.decode_put

/-- The key of the system program is written as thirty-two ones. -/
example : base58Decode "11111111111111111111111111111111" = some (List.replicate 32 0) := by
  decide

end Sillage.PlainCodecs
