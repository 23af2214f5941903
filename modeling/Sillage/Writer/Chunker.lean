import Sillage.Common.Names
import Sillage.Writer.IndexBuilder

/-!
# The chunker of one stream

Messages are bucketed by slot into open chunks. A chunk is sealed when the cap on
open chunks is reached, when the watermark has moved two chunks past it, when it
has been idle, or at shutdown. Sealing writes three files under temporary names
and renames them one after the other.

Clock readings are parameters, in nanoseconds. Additions on 64-bit slots that do
not fit are faults, and so is every panic of the source.
-/

namespace Sillage

open LittleEndian Idx Chunk Directory Names

/-- The part of the writer's configuration that the chunker reads. -/
structure WriterConfig where
  slotsPerChunk : Nat
  outOfOrderToleranceSlots : Nat
  maxOpenChunks : Nat
deriving DecidableEq

/-- A message at the chunker's door, with the clock reading of the call. -/
structure Arrival where
  now : Nat
  msg : Stamped
  slot : Nat
deriving DecidableEq

/-- A panic or an error that is not an input or output failure. -/
inductive Fault where
  | divisionByZero
  | overflow
  | noOpenChunk
  | missingChunk
  | encoderGone
deriving DecidableEq

/-- An open chunk. The encoder holds the bytes written to it so far. -/
structure OpenChunk where
  startSlot : Nat
  endSlotExclusive : Nat
  encoder : Option Bytes
  messageCount : Nat
  uncompressedBytes : Nat
  firstMessageSlot : Option Nat
  lastMessageSlot : Option Nat
  recvNsFirst : Option Nat
  recvNsLast : Option Nat
  lastActivity : Nat
  index : IndexBuilder

/-- The chunker of a stream: its configuration and directory, the open chunks, and the
watermark. -/
structure Chunker where
  stream : Stream
  cfg : WriterConfig
  baseDir : Dir
  «open» : Std.TreeMap Nat OpenChunk
  watermarkSlot : Option Nat

/-- What became of a message. The last two are the outcomes the source warns about. -/
inductive Verdict where
  | appended
  | olderThanTolerance
  | alreadySealed
deriving DecidableEq

/-- How many chunks a message must be ahead of one that is sealed. -/
def sealLookaheadChunks : Nat := 2

/-- Three hundred seconds. -/
def idleSealThreshold : Nat := 300 * 10 ^ 9

/-- A sum, unless it overflows. -/
def checkedAdd (a b : Nat) : Except Fault Nat :=
  if a + b < u64Bound then .ok (a + b) else .error .overflow

/-- A product of numbers below a bound. -/
def checkedMul (bound a b : Nat) : Except Fault Nat :=
  if a * b < bound then .ok (a * b) else .error .overflow

/-- A quotient, unless the divisor is zero. -/
def checkedDiv (a b : Nat) : Except Fault Nat :=
  if b = 0 then .error .divisionByZero else .ok (a / b)

/-- A result of two parts is one of the second, behind one of the first. -/
theorem ok_of_bind {ε α β : Type} {first : Except ε α} {next : α → Except ε β} {result : β}
    (done : (first >>= next) = .ok result) : ∃ a, first = .ok a ∧ next a = .ok result := by
  cases first with
  | error _ => cases done
  | ok a => exact ⟨a, rfl, done⟩

/-- What an option keeps of a result is the result. -/
theorem ok_of_toOption {ε α : Type} {result : Except ε α} {value : α}
    (found : result.toOption = some value) : result = .ok value := by
  cases result with
  | error _ => cases found
  | ok other => exact congrArg Except.ok (Option.some.inj found)

/-- A sum comes out exactly if it fits. -/
theorem checkedAdd_ok_iff {a b sum : Nat} :
    checkedAdd a b = .ok sum ↔ a + b < u64Bound ∧ a + b = sum := by
  rw [checkedAdd]
  split
  · next fits => simp [fits]
  · next beyond => simp [beyond]

/-- A product comes out exactly if it fits. -/
theorem checkedMul_ok_iff {bound a b product : Nat} :
    checkedMul bound a b = .ok product ↔ a * b < bound ∧ a * b = product := by
  rw [checkedMul]
  split
  · next fits => simp [fits]
  · next beyond => simp [beyond]

namespace OpenChunk

/-- A file of the chunk. -/
def file (chunk : OpenChunk) (ext : String) : FileName :=
  chunkFile chunk.startSlot chunk.endSlotExclusive ext

/-- A chunk without messages. -/
def fresh (stream : Stream) (startSlot endSlotExclusive now : Nat) : OpenChunk where
  startSlot := startSlot
  endSlotExclusive := endSlotExclusive
  encoder := some []
  messageCount := 0
  uncompressedBytes := 0
  firstMessageSlot := none
  lastMessageSlot := none
  recvNsFirst := none
  recvNsLast := none
  lastActivity := now
  index := IndexBuilder.forStream stream

/-- Append a message: one frame to the encoder, one ordinal to the index. -/
def append (k : Codecs) (chunk : OpenChunk) (a : Arrival) : Except Fault OpenChunk :=
  match chunk.encoder with
  | none => .error .encoderGone
  | some written =>
      let buf := k.prostEncode a.msg.inner
      let framed := writeLenPrefixed [] buf
      .ok
        { chunk with
          encoder := some (written ++ framed)
          index := IndexBuilder.observe chunk.index (chunk.messageCount % u32Bound) a.msg.inner
          messageCount := chunk.messageCount + 1
          uncompressedBytes := chunk.uncompressedBytes + framed.length
          firstMessageSlot := some (chunk.firstMessageSlot.elim a.slot (min · a.slot))
          lastMessageSlot := some (chunk.lastMessageSlot.elim a.slot (max · a.slot))
          recvNsFirst := some (chunk.recvNsFirst.elim a.msg.wallNs (min · a.msg.wallNs))
          recvNsLast := some (chunk.recvNsLast.elim a.msg.wallNs (max · a.msg.wallNs))
          lastActivity := a.now }

/-- The sidecar of a chunk whose compressed payload is given. -/
def sidecar (stream : Stream) (chunk : OpenChunk) (compressed : Bytes) (reason : String) :
    ChunkMeta where
  schemaVersion := schemaVersion
  stream := stream.asStr
  startSlot := chunk.startSlot
  endSlotExclusive := chunk.endSlotExclusive
  firstMessageSlot := chunk.firstMessageSlot
  lastMessageSlot := chunk.lastMessageSlot
  messageCount := chunk.messageCount
  uncompressedBytes := chunk.uncompressedBytes
  compressedBytes := compressed.length
  recvNsFirst := chunk.recvNsFirst
  recvNsLast := chunk.recvNsLast
  sealedReason := reason
  indexDimensions := chunk.index.dimensionNames

/-- The bytes of the chunk's index file. -/
def indexBytes (k : Codecs) (chunk : OpenChunk) : Bytes :=
  chunk.index.serialize k chunk.startSlot chunk.endSlotExclusive chunk.messageCount

/-- The file steps of sealing, in order: the payload and the sidecar are written
under temporary names, then the payload is renamed, the index is written and
renamed, and the sidecar is renamed last. -/
def sealSteps (k : Codecs) (stream : Stream) (chunk : OpenChunk) (written : Bytes)
    (reason : String) : List FileStep :=
  let compressed := k.zstdEncode written
  let metaJson := k.jsonEncode (sidecar stream chunk compressed reason)
  [ .write (chunk.file "zst.partial") compressed,
    .create (chunk.file "meta.json.partial"),
    .write (chunk.file "meta.json.partial") metaJson,
    .rename (chunk.file "zst.partial") (chunk.file "zst"),
    .create (chunk.file "idx.partial"),
    .write (chunk.file "idx.partial") (chunk.indexBytes k),
    .rename (chunk.file "idx.partial") (chunk.file "idx"),
    .rename (chunk.file "meta.json.partial") (chunk.file "meta.json") ]

end OpenChunk

namespace Chunker

/-- A chunker over a directory, with nothing open. -/
def new (stream : Stream) (cfg : WriterConfig) (baseDir : Dir) : Chunker where
  stream := stream
  cfg := cfg
  baseDir := baseDir
  «open» := ∅
  watermarkSlot := none

/-- Raise the watermark to a slot. -/
def advance (slot : Nat) (s : Chunker) : Chunker :=
  { s with watermarkSlot := some (s.watermarkSlot.elim slot (max · slot)) }

/-- Open a chunk unless it is open or a final payload or sidecar of its range is
on disk. -/
def openChunk (now chunkIdx : Nat) (s : Chunker) : Except Fault Chunker :=
  if s.open.contains chunkIdx then .ok s
  else do
    let startSlot ← checkedMul u64Bound chunkIdx s.cfg.slotsPerChunk
    let endSlotExclusive ← checkedAdd startSlot s.cfg.slotsPerChunk
    let chunk := OpenChunk.fresh s.stream startSlot endSlotExclusive now
    if (s.baseDir.lookup (chunk.file "zst")).isSome ∨
        (s.baseDir.lookup (chunk.file "meta.json")).isSome then .ok s
    else
      .ok { s with
        baseDir := FileStep.apply s.baseDir (.create (chunk.file "zst.partial"))
        «open» := s.open.insert chunkIdx chunk }

/-- Seal an open chunk. -/
def sealChunk (k : Codecs) (reason : String) (chunkIdx : Nat) (s : Chunker) :
    Except Fault Chunker :=
  match s.open[chunkIdx]? with
  | none => .error .missingChunk
  | some chunk =>
      match chunk.encoder with
      | none => .error .encoderGone
      | some written =>
          .ok { s with
            «open» := s.open.erase chunkIdx
            baseDir := perform s.baseDir (chunk.sealSteps k s.stream written reason) }

/-- The directory left behind when sealing an open chunk is cut off after some of
its file steps. -/
def sealCut (k : Codecs) (reason : String) (chunkIdx cut : Nat) (s : Chunker) :
    Except Fault Dir :=
  match s.open[chunkIdx]? with
  | none => .error .missingChunk
  | some chunk =>
      match chunk.encoder with
      | none => .error .encoderGone
      | some written =>
          .ok (performCut s.baseDir (chunk.sealSteps k s.stream written reason) cut)

/-- Seal a list of chunks in order. -/
def sealAll (k : Codecs) (reason : String) : List Nat → Chunker → Except Fault Chunker
  | [], s => .ok s
  | chunkIdx :: rest, s => do
      let s ← sealChunk k reason chunkIdx s
      sealAll k reason rest s

/-- Seal the oldest chunk while the cap on open chunks is reached. Every iteration
closes one chunk, so that one more iteration than there are open chunks is enough. -/
def makeRoom (k : Codecs) (chunkIdx : Nat) : Nat → Chunker → Except Fault Chunker
  | 0, s => .ok s
  | fuel + 1, s =>
      if s.cfg.maxOpenChunks ≤ s.open.size then
        match s.open.keys.head? with
        | none => .error .noOpenChunk
        | some oldest =>
            if oldest = chunkIdx then .ok s
            else do
              let s ← sealChunk k "cap-reached" oldest s
              makeRoom k chunkIdx fuel s
      else .ok s

/-- Open the chunk of a message, making room for it first. -/
def ensureOpen (k : Codecs) (now chunkIdx : Nat) (s : Chunker) : Except Fault Chunker :=
  if s.open.contains chunkIdx then .ok s
  else do
    let s ← makeRoom k chunkIdx (s.open.size + 1) s
    openChunk now chunkIdx s

/-- Append a message to its chunk, if that is open. -/
def appendTo (k : Codecs) (chunkIdx : Nat) (a : Arrival) (s : Chunker) :
    Except Fault (Verdict × Chunker) :=
  match s.open[chunkIdx]? with
  | none => .ok (.alreadySealed, s)
  | some chunk => do
      let chunk ← chunk.append k a
      .ok (.appended, { s with «open» := s.open.insert chunkIdx chunk })

/-- The chunks that the watermark has left two chunks behind. -/
def behind (watermarkChunk : Nat) : List Nat → Except Fault (List Nat)
  | [] => .ok []
  | idx :: rest => do
      let horizon ← checkedAdd idx sealLookaheadChunks
      let later ← behind watermarkChunk rest
      .ok (if horizon ≤ watermarkChunk then idx :: later else later)

/-- Take in one message. -/
def ingest (k : Codecs) (a : Arrival) (s : Chunker) : Except Fault (Verdict × Chunker) := do
  let s := advance a.slot s
  let watermark := s.watermarkSlot.getD 0
  let watermarkChunk ← checkedDiv watermark s.cfg.slotsPerChunk
  let chunkIdx ← checkedDiv a.slot s.cfg.slotsPerChunk
  let reach ← checkedAdd a.slot s.cfg.outOfOrderToleranceSlots
  if reach < watermark then .ok (.olderThanTolerance, s)
  else
    let s ← ensureOpen k a.now chunkIdx s
    let (verdict, s) ← appendTo k chunkIdx a s
    let toSeal ← behind watermarkChunk s.open.keys
    let s ← sealAll k "watermark" toSeal s
    .ok (verdict, s)

/-- A chunk has been idle for longer than the threshold. -/
def stale (now : Nat) (chunk : OpenChunk) : Bool := idleSealThreshold < now - chunk.lastActivity

/-- Seal the idle chunks. -/
def tick (k : Codecs) (now : Nat) (s : Chunker) : Except Fault Chunker :=
  sealAll k "shutdown" ((s.open.toList.filter (fun entry => stale now entry.2)).map Prod.fst) s

/-- Seal every open chunk. -/
def shutdown (k : Codecs) (s : Chunker) : Except Fault Chunker :=
  sealAll k "shutdown" s.open.keys s

/-- A call that the lane makes between its start and its end. -/
inductive Op where
  | ingest (a : Arrival)
  | tick (now : Nat)
deriving DecidableEq

/-- The effect of a call. -/
def step (k : Codecs) (s : Chunker) : Op → Except Fault Chunker
  | .ingest a => (ingest k a s).map Prod.snd
  | .tick now => tick k now s

/-- The calls of a lane, in order. The first fault ends the lane. -/
def run (k : Codecs) : Chunker → List Op → Except Fault Chunker
  | s, [] => .ok s
  | s, op :: rest => do
      let s ← step k s op
      run k s rest

end Chunker

end Sillage
