import Sillage.Common.Codecs
import Sillage.Common.Names
import Sillage.Foundation.Lru

/-!
# Decompressed chunks and their cache

A decoded chunk keeps the decompressed payload and where each frame lies in it;
messages are decoded when they are asked for. The cache of decoded chunks is keyed
by stream and start slot.
-/

namespace Sillage

open LittleEndian Chunk

/-- What can go wrong with a chunk's payload. -/
inductive DecodeError where
  | unreadable
  | corruptZstd
  | corruptFrame (offset : Nat) (error : ChunkError)
  | ordinalOutOfRange (ordinal count : Nat)
  | undecodable (ordinal : Nat)
deriving DecidableEq

/-- The decompressed payload and the start and end of every frame's content. -/
structure DecodedChunk where
  raw : Bytes
  frames : List (Nat × Nat)
deriving DecidableEq

/-- The ranges of the frames that an iterator yields from an offset on. -/
def collectFrames : Nat → List (Except ChunkError Bytes) → Except DecodeError (List (Nat × Nat))
  | _, [] => .ok []
  | offset, .error error :: _ => .error (.corruptFrame offset error)
  | offset, .ok payload :: rest => do
      let payloadStart := offset + 4
      let payloadEnd := payloadStart + payload.length
      let later ← collectFrames payloadEnd rest
      .ok ((payloadStart, payloadEnd) :: later)

/-- Decode a payload file; `none` stands for a file that cannot be read. -/
def decodeChunk (k : Codecs) : Option Bytes → Except DecodeError DecodedChunk
  | none => .error .unreadable
  | some compressed =>
      match k.zstdDecode compressed with
      | none => .error .corruptZstd
      | some raw => do
          let frames ← collectFrames 0 (iterFrames raw)
          .ok { raw, frames }

namespace DecodedChunk

/-- The bytes of a frame. -/
def frame (chunk : DecodedChunk) (ordinal : Nat) : Option Bytes :=
  (chunk.frames[ordinal]?).map (fun range => (chunk.raw.drop range.1).take (range.2 - range.1))

/-- The message with an ordinal, out of its frame. -/
def decodeMessage (k : Codecs) (chunk : DecodedChunk) (ordinal : Nat) :
    Except DecodeError SubscribeUpdate :=
  match chunk.frame ordinal with
  | none => .error (.ordinalOutOfRange ordinal chunk.frames.length)
  | some bytes =>
      match k.prostDecode bytes with
      | none => .error (.undecodable ordinal)
      | some update => .ok update

/-- The size that the cache charges; a range takes two machine words. -/
def heapBytes (chunk : DecodedChunk) : Nat := chunk.raw.length + chunk.frames.length * 16

end DecodedChunk

/-- The frames of a list of payloads that stands behind some other bytes. -/
theorem collectFrames_framed (payloads : List Bytes) (front : Bytes) :
    ∃ frames, collectFrames front.length (payloads.map .ok) = .ok frames ∧
      ∀ ordinal, ({ raw := front ++ framed payloads, frames } : DecodedChunk).frame ordinal =
        payloads[ordinal]? := by
  induction payloads generalizing front with
  | nil => exact ⟨[], rfl, by simp [DecodedChunk.frame]⟩
  | cons payload rest inductionHypothesis =>
    obtain ⟨frames, collected, framesAt⟩ :=
      inductionHypothesis (front ++ (u32Bytes payload.length ++ payload))
    have length : (front ++ (u32Bytes payload.length ++ payload)).length =
        front.length + 4 + payload.length := by
      simp only [List.length_append, u32Bytes_length]
      omega
    rw [length] at collected
    refine ⟨(front.length + 4, front.length + 4 + payload.length) :: frames,
      by simp [collectFrames, collected, bind, Except.bind], ?_⟩
    have raw : front ++ framed (payload :: rest) =
        front ++ (u32Bytes payload.length ++ payload) ++ framed rest := by
      rw [framed_cons]
      simp
    intro ordinal
    rw [raw]
    cases ordinal with
    | zero =>
      have behind : (front ++ u32Bytes payload.length).length = front.length + 4 := by
        simp [u32Bytes_length]
      simp only [DecodedChunk.frame, List.getElem?_cons_zero, Option.map_some, ← behind]
      rw [← List.append_assoc, List.append_assoc _ payload, List.drop_left]
      simp
    | succ ordinal => exact framesAt ordinal

/-- A payload file that decompresses to framed messages decodes to its frames. -/
theorem decodeChunk_frames {k : Codecs} {compressed : Bytes} {payloads : List Bytes}
    (fit : ∀ payload ∈ payloads, payload.length < u32Bound)
    (decompressed : k.zstdDecode compressed = some (framed payloads)) :
    ∃ chunk, decodeChunk k (some compressed) = .ok chunk ∧
      ∀ ordinal, chunk.frame ordinal = payloads[ordinal]? := by
  obtain ⟨frames, collected, framesAt⟩ := collectFrames_framed payloads []
  refine ⟨{ raw := framed payloads, frames }, ?_, framesAt⟩
  simp only [decodeChunk, decompressed, iterFrames_framed payloads fit]
  rw [List.length_nil] at collected
  rw [collected]
  rfl

/-- A payload of framed messages decodes to its frames. -/
theorem decodeChunk_framed {k : Codecs} (zstd : k.ZstdRoundTrips) (payloads : List Bytes)
    (fit : ∀ payload ∈ payloads, payload.length < u32Bound) :
    ∃ chunk, decodeChunk k (some (k.zstdEncode (framed payloads))) = .ok chunk ∧
      ∀ ordinal, chunk.frame ordinal = payloads[ordinal]? :=
  decodeChunk_frames fit (zstd (framed payloads))

/-- A chunk has as many frames as it shows. -/
theorem DecodedChunk.length_of_frame {chunk : DecodedChunk} {payloads : List Bytes}
    (framesAt : ∀ ordinal, chunk.frame ordinal = payloads[ordinal]?) :
    chunk.frames.length = payloads.length := by
  have ended : ∀ ordinal, chunk.frames.length ≤ ordinal ↔ payloads.length ≤ ordinal := by
    intro ordinal
    rw [← List.getElem?_eq_none_iff, ← List.getElem?_eq_none_iff, ← framesAt ordinal]
    simp [DecodedChunk.frame]
  have least := (ended payloads.length).mpr (Nat.le_refl _)
  have most := (ended chunk.frames.length).mp (Nat.le_refl _)
  omega

/-- A complaint of the iterator fails the collection, at the offset of the complaint. -/
theorem collectFrames_error (payloads : List Bytes) (offset : Nat) (error : ChunkError) :
    collectFrames offset (payloads.map .ok ++ [.error error]) =
      .error (.corruptFrame (offset + (framed payloads).length) error) := by
  induction payloads generalizing offset with
  | nil => simp [collectFrames, framed]
  | cons payload rest inductionHypothesis =>
    have later := inductionHypothesis (offset + 4 + payload.length)
    have behind : offset + 4 + payload.length + (framed rest).length =
        offset + (framed (payload :: rest)).length := by
      rw [framed_cons]
      simp only [List.length_append, u32Bytes_length]
      omega
    simp only [List.map_cons, List.cons_append, collectFrames, later, behind, bind, Except.bind]

/-- A payload that is no sequence of whole frames is refused. -/
theorem decodeChunk_corrupt {k : Codecs} {compressed : Bytes} {payloads : List Bytes} {raw : Bytes}
    {error : ChunkError} (decompressed : k.zstdDecode compressed = some raw)
    (complains : iterFrames raw = payloads.map .ok ++ [.error error]) :
    decodeChunk k (some compressed) =
      .error (.corruptFrame (framed payloads).length error) := by
  have collected := collectFrames_error payloads 0 error
  rw [Nat.zero_add] at collected
  simp only [decodeChunk, decompressed, complains, collected, bind, Except.bind]

/-- The payload framing is an exact codec. The iterator and the decoder give back every
list of payloads; whole frames write back to the buffer they were read from; of any
other buffer the iterator yields the longest front of whole frames and one complaint,
and the decoder refuses it. Iteration ends on every buffer. -/
theorem framing_exact (k : Codecs) :
    (∀ payloads : List Bytes, (∀ payload ∈ payloads, payload.length < u32Bound) →
      iterFrames (framed payloads) = payloads.map .ok ∧
      ∀ compressed, k.zstdDecode compressed = some (framed payloads) →
        ∃ chunk, decodeChunk k (some compressed) = .ok chunk ∧
          chunk.frames.length = payloads.length ∧
          ∀ ordinal, chunk.frame ordinal = payloads[ordinal]?) ∧
    (∀ data payloads, iterFrames data = payloads.map .ok → framed payloads = data) ∧
    (∀ data, (¬ ∃ payloads : List Bytes, iterFrames data = payloads.map .ok) →
      ∃ payloads tail error, iterFrames data = payloads.map .ok ++ [.error error] ∧
        data = framed payloads ++ tail ∧ tail ≠ [] ∧
        (∀ payload later, payload.length < u32Bound →
          tail ≠ writeLenPrefixed [] payload ++ later) ∧
        ∀ compressed, k.zstdDecode compressed = some data →
          decodeChunk k (some compressed) =
            .error (.corruptFrame (framed payloads).length error)) ∧
    ∀ data, Exhausts data (iterFrames data) := by
  refine ⟨?_, ?_, ?_, iterFrames_exhausts⟩
  · intro payloads fit
    refine ⟨iterFrames_framed payloads fit, fun compressed decompressed => ?_⟩
    obtain ⟨chunk, decoded, framesAt⟩ := decodeChunk_frames fit decompressed
    exact ⟨chunk, decoded, chunk.length_of_frame framesAt, framesAt⟩
  · intro data payloads yields
    obtain ⟨frames, -, ⟨whole, rewritten⟩ | ⟨tail, error, partly, -⟩⟩ :=
      (iterFrames_exhausts data).splits
    · have same : payloads = frames :=
        List.map_injective_iff.mpr (fun _ _ => Except.ok.inj) (yields.symm.trans whole)
      rw [same, rewritten]
    · have complaint : (.error error : Except ChunkError Bytes) ∈ payloads.map .ok := by
        rw [← yields, partly]
        simp
      simp at complaint
  · intro data never
    obtain ⟨frames, -, ⟨whole, -⟩ | ⟨tail, error, partly, parts, malformed⟩⟩ :=
      (iterFrames_exhausts data).splits
    · exact absurd ⟨frames, whole⟩ never
    · exact ⟨frames, tail, error, partly, parts, (next_error malformed).1,
        next_error_maximal malformed, fun compressed decompressed =>
          decodeChunk_corrupt decompressed partly⟩

/-- A payload of encoded updates decodes to a chunk of these updates. -/
theorem decodeChunk_updates {k : Codecs} (zstd : k.ZstdRoundTrips) (prost : k.ProstRoundTrips)
    (updates : List SubscribeUpdate)
    (fit : ∀ update ∈ updates, (k.prostEncode update).length < u32Bound) :
    ∃ chunk, decodeChunk k (some (k.zstdEncode (framed (updates.map k.prostEncode)))) =
        .ok chunk ∧
      ∀ ordinal update, updates[ordinal]? = some update →
        chunk.decodeMessage k ordinal = .ok update := by
  obtain ⟨chunk, decoded, framesAt⟩ :=
    decodeChunk_framed zstd (updates.map k.prostEncode) (by simpa using fit)
  refine ⟨chunk, decoded, fun ordinal update stored => ?_⟩
  have bytes : chunk.frame ordinal = some (k.prostEncode update) := by
    rw [framesAt, List.getElem?_map, stored]
    rfl
  simp only [DecodedChunk.decodeMessage, bytes, prost update]

/-- The key of a decoded chunk in the cache. -/
structure CacheKey where
  stream : Stream
  startSlot : Nat
deriving DecidableEq

/-- Decoded chunks under stream and start slot. -/
abbrev ChunkCache := Lru.Cache CacheKey DecodedChunk

/-- A decoded chunk from the cache, or from its file on a miss. -/
def getOrDecode (k : Codecs) (budgetBytes : Nat) (cache : ChunkCache) (key : CacheKey)
    (file : Option Bytes) : Except DecodeError (DecodedChunk × ChunkCache) :=
  cache.getOrLoad DecodedChunk.heapBytes budgetBytes key (decodeChunk k file)

/-- A cache that agrees with a decodable file yields what the file decodes to. -/
theorem getOrDecode_ok {k : Codecs} {cache : ChunkCache} {agrees : CacheKey → DecodedChunk → Prop}
    (holds : cache.Holds agrees) (budgetBytes : Nat) {key : CacheKey} {file : Option Bytes}
    {chunk : DecodedChunk} (decodes : decodeChunk k file = .ok chunk) (right : agrees key chunk)
    (unique : ∀ other, agrees key other → other = chunk) :
    ∃ after, getOrDecode k budgetBytes cache key file = .ok (chunk, after) ∧ after.Holds agrees := by
  obtain ⟨value, after, returned⟩ :=
    @Lru.getOrLoad_ok _ _ _ _ cache DecodedChunk.heapBytes budgetBytes key _ _ decodes
  have related := Lru.holds_getOrLoad DecodedChunk.heapBytes budgetBytes holds
    (fun fresh loaded => Except.ok.inj (decodes.symm.trans loaded) ▸ right) returned
  obtain rfl := unique value related.1
  exact ⟨after, returned, related.2⟩

end Sillage
