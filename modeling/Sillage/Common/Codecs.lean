import Sillage.Common.Chunk
import Sillage.Common.Idx

/-!
# The external encodings

Compression, protobuf, MessagePack, roaring serialisation, JSON and base58 come
from libraries. The model takes them as parameters; what a result needs of them is
a hypothesis under the library's name.
-/

namespace Sillage

open LittleEndian Idx Chunk

/-- The library encoders and decoders that the writer and the reader call. -/
structure Codecs where
  zstdEncode : Bytes → Bytes
  zstdDecode : Bytes → Option Bytes
  prostEncode : SubscribeUpdate → Bytes
  prostDecode : Bytes → Option SubscribeUpdate
  msgpackEncode : IdxHeader → Bytes
  msgpackDecode : Bytes → Option IdxHeader
  roaringSerialize : RoaringBitmap → Bytes
  roaringDeserialize : Bytes → Option RoaringBitmap
  jsonEncode : ChunkMeta → Bytes
  jsonDecode : Bytes → Option ChunkMeta
  bs58Decode : String → Option Bytes

namespace Codecs

variable (k : Codecs)

/-- Decompression inverts compression. -/
def ZstdRoundTrips : Prop := ∀ raw, k.zstdDecode (k.zstdEncode raw) = some raw

/-- A protobuf message is decoded from its own encoding. -/
def ProstRoundTrips : Prop := ∀ update, k.prostDecode (k.prostEncode update) = some update

/-- A header is decoded from its own encoding. -/
def MsgpackRoundTrips : Prop := ∀ header, k.msgpackDecode (k.msgpackEncode header) = some header

/-- MessagePack values announce their own extent: a proper prefix of an encoding
decodes to nothing. -/
def MsgpackDelimited : Prop :=
  ∀ header cut, cut < (k.msgpackEncode header).length →
    k.msgpackDecode ((k.msgpackEncode header).take cut) = none

/-- A bitmap is deserialised from its own serialisation. -/
def RoaringRoundTrips : Prop :=
  ∀ bitmap, k.roaringDeserialize (k.roaringSerialize bitmap) = some bitmap

/-- A sidecar is parsed from its own JSON. -/
def JsonRoundTrips : Prop := ∀ sidecar, k.jsonDecode (k.jsonEncode sidecar) = some sidecar

/-- All the round trips that recording and replaying rely on. -/
structure RoundTrip : Prop where
  zstd : k.ZstdRoundTrips
  prost : k.ProstRoundTrips
  msgpack : k.MsgpackRoundTrips
  msgpackDelimited : k.MsgpackDelimited
  roaring : k.RoaringRoundTrips
  json : k.JsonRoundTrips

end Codecs

end Sillage
