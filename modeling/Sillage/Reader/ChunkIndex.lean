import Sillage.Foundation.Tables
import Sillage.Common.PlainCodecs
import Sillage.Writer.IndexBuilder

/-!
# Reading a chunk's index

The reader parses the header of an index file, keeps the whole file, and cuts a
bitmap out of its body when one is asked for. The writer notes where every bitmap
lies while the body still grows; a bitmap stays where it was noted because the
body only grows at its end.
-/

namespace Sillage

open LittleEndian Idx Tables

/-- What can go wrong with an index file. -/
inductive IndexError where
  | unreadable
  | tooShort (size : Nat)
  | wrongMagic (got : Bytes)
  | wrongVersion (got : UInt8)
  | headerExceedsFile (headerLen size : Nat)
  | headerUndecodable
  | sliceExceedsBody (start stop bodyLength : Nat)
  | bitmapUndecodable (dim : String) (value : DimValue)
deriving DecidableEq

/-- Where the bitmap of every value of every dimension lies in the body. -/
abbrev BitmapTable := AList (fun _ : String => AList (fun _ : DimValue => Nat × Nat))

/-- A parsed index file; bitmaps stay serialised until they are asked for. -/
structure ChunkIndex where
  raw : Bytes
  header : IdxHeader
  lookup : BitmapTable
  bodyStart : Nat
deriving Inhabited

/-- The table of a header's dimensions and entries. -/
def bitmapTable (dimensions : List DimensionHeader) : BitmapTable :=
  tabulate DimensionHeader.name
    (fun dim => tabulate DimEntryHeader.value (fun entry => (entry.offset, entry.length))
      dim.entries) dimensions

/-- Parse an index file; `none` stands for a file that cannot be read. -/
def parseChunkIndex (k : Codecs) : Option Bytes → Except IndexError ChunkIndex
  | none => .error .unreadable
  | some raw =>
      match raw with
      | m₀ :: m₁ :: m₂ :: m₃ :: version :: b₀ :: b₁ :: b₂ :: b₃ :: rest =>
          if [m₀, m₁, m₂, m₃] ≠ idxMagic then .error (.wrongMagic [m₀, m₁, m₂, m₃])
          else if version ≠ idxVersion then .error (.wrongVersion version)
          else
            let headerLen := u32Value b₀ b₁ b₂ b₃
            if raw.length < 9 + headerLen then .error (.headerExceedsFile headerLen raw.length)
            else match k.msgpackDecode (rest.take headerLen) with
              | none => .error .headerUndecodable
              | some header =>
                  .ok { raw, header, lookup := bitmapTable header.dimensions,
                        bodyStart := 9 + headerLen }
      | _ => .error (.tooShort raw.length)

namespace ChunkIndex

/-- The number of messages, as the header has it. -/
def messageCount (index : ChunkIndex) : Nat := index.header.messageCount

/-- The name of the stream, as the header has it. -/
def stream (index : ChunkIndex) : String := index.header.stream

/-- Dimension names in header order. -/
def dimensions (index : ChunkIndex) : List String := index.header.dimensions.map (·.name)

/-- The bitmap of a value of a dimension; an absent dimension or value has none. -/
def bitmapFor (k : Codecs) (index : ChunkIndex) (dim : String) (value : DimValue) :
    Except IndexError (Option RoaringBitmap) :=
  match index.lookup.lookup dim with
  | none => .ok none
  | some dimMap =>
      match dimMap.lookup value with
      | none => .ok none
      | some (start, length) =>
          let body := index.raw.drop index.bodyStart
          let stop := start + length
          if body.length < stop then .error (.sliceExceedsBody start stop body.length)
          else match k.roaringDeserialize ((body.drop start).take length) with
            | none => .error (.bitmapUndecodable dim value)
            | some bitmap => .ok (some bitmap)

end ChunkIndex

namespace IndexBuilder

variable (k : Codecs)

/-- A body holds a bitmap at the place its entry notes. -/
structure Laid (body : Bytes) (entry : DimEntryHeader) (bitmap : RoaringBitmap) : Prop where
  slice : (body.drop entry.offset).take entry.length = k.roaringSerialize bitmap
  within : entry.offset + entry.length ≤ body.length

/-- The entries of a header describe the pairs of a dimension. -/
def Describes (body : Bytes) (entries : List DimEntryHeader)
    (items : List (DimValue × RoaringBitmap)) : Prop :=
  List.Forall₂ (fun entry item => entry.value = item.1 ∧ Laid k body entry item.2) entries items

variable {k}

/-- A body that grows at its end keeps what was laid in it. -/
theorem laid_append {body : Bytes} {entry : DimEntryHeader} {bitmap : RoaringBitmap}
    (laid : Laid k body entry bitmap) (more : Bytes) : Laid k (body ++ more) entry bitmap := by
  obtain ⟨slice, within⟩ := laid
  refine ⟨?_, by simp only [List.length_append]; omega⟩
  rw [List.drop_append_of_le_length (by omega), List.take_append_of_le_length ?_, slice]
  simp only [List.length_drop]
  omega

/-- Entries still describe their bitmaps when more is put behind the body. -/
theorem describes_append {body : Bytes} {entries : List DimEntryHeader}
    {items : List (DimValue × RoaringBitmap)} (describes : Describes k body entries items)
    (more : Bytes) : Describes k (body ++ more) entries items :=
  describes.imp (fun _ _ both => ⟨both.1, laid_append both.2 more⟩)

/-- Entries list the values of the pairs they describe. -/
theorem describes_values {body : Bytes} {entries : List DimEntryHeader}
    {items : List (DimValue × RoaringBitmap)} (describes : Describes k body entries items) :
    entries.map (·.value) = items.map Prod.fst := by
  induction describes with
  | nil => rfl
  | cons both later inductionHypothesis => simp [both.1, inductionHypothesis]

/-- Every entry describes some pair. -/
theorem describes_entry {body : Bytes} {entries : List DimEntryHeader}
    {items : List (DimValue × RoaringBitmap)} (describes : Describes k body entries items)
    {entry : DimEntryHeader} (present : entry ∈ entries) :
    ∃ item ∈ items, entry.value = item.1 ∧ Laid k body entry item.2 := by
  induction describes with
  | nil => simp at present
  | cons both later inductionHypothesis =>
    rcases List.mem_cons.mp present with rfl | among
    · exact ⟨_, List.mem_cons_self, both⟩
    · obtain ⟨item, among, both⟩ := inductionHypothesis among
      exact ⟨item, List.mem_cons_of_mem _ among, both⟩

/-- Serialising a dimension grows the body and notes where each bitmap lies.
Induction on the pairs; what an earlier pair laid survives the later ones. -/
theorem serializeEntries_describes (body : Bytes) (items : List (DimValue × RoaringBitmap)) :
    (∃ more, (serializeEntries k body items).1 = body ++ more) ∧
      Describes k (serializeEntries k body items).1 (serializeEntries k body items).2 items := by
  induction items generalizing body with
  | nil => exact ⟨⟨[], by simp [serializeEntries]⟩, List.Forall₂.nil⟩
  | cons item rest inductionHypothesis =>
    obtain ⟨value, bitmap⟩ := item
    obtain ⟨⟨more, grown⟩, later⟩ := inductionHypothesis (body ++ k.roaringSerialize bitmap)
    simp only [serializeEntries]
    refine ⟨⟨k.roaringSerialize bitmap ++ more, by rw [grown, List.append_assoc]⟩,
      List.Forall₂.cons ⟨rfl, ?_⟩ later⟩
    rw [grown]
    exact laid_append ⟨by simp, by simp⟩ more

/-- The dimensions of a header describe the named dimensions of a builder. -/
def DescribesDims (k : Codecs) (builder : IndexBuilder) (body : Bytes)
    (dimensions : List DimensionHeader) (names : List String) : Prop :=
  List.Forall₂ (fun dim name => dim.name = name ∧ ∃ map, builder.dims.lookup name = some map ∧
    Describes k body dim.entries map.toList) dimensions names

/-- Serialising the named dimensions grows the body and describes each of them. -/
theorem serializeDims_describes (builder : IndexBuilder) (body : Bytes) (names : List String)
    (known : ∀ name ∈ names, name ∈ builder.order) :
    (∃ more, (serializeDims k builder body names).1 = body ++ more) ∧
      DescribesDims k builder (serializeDims k builder body names).1
        (serializeDims k builder body names).2 names := by
  induction names generalizing body with
  | nil => exact ⟨⟨[], by simp [serializeDims]⟩, List.Forall₂.nil⟩
  | cons name rest inductionHypothesis =>
    have member := known name List.mem_cons_self
    obtain ⟨map, stored⟩ := Option.isSome_iff_exists.mp
      (AList.lookup_isSome.mpr ((builder.registered name).mpr member))
    obtain ⟨valueType, declared⟩ := Option.isSome_iff_exists.mp
      (AList.lookup_isSome.mpr (builder.typed name member))
    obtain ⟨⟨written, grown⟩, described⟩ := serializeEntries_describes (k := k) body map.toList
    obtain ⟨⟨more, grownLater⟩, later⟩ :=
      inductionHypothesis (serializeEntries k body map.toList).1
        (fun name member => known name (List.mem_cons_of_mem _ member))
    simp only [serializeDims, stored, declared]
    refine ⟨⟨written ++ more, by rw [grownLater, grown, List.append_assoc]⟩,
      List.Forall₂.cons ⟨rfl, map, stored, ?_⟩ later⟩
    rw [grownLater]
    exact describes_append described more

/-- Described dimensions carry the given names, in order. -/
theorem describesDims_names {builder : IndexBuilder} {body : Bytes}
    {dimensions : List DimensionHeader} {names : List String}
    (described : DescribesDims k builder body dimensions names) :
    dimensions.map (·.name) = names := by
  induction described with
  | nil => rfl
  | cons both later inductionHypothesis => simp [both.1, inductionHypothesis]

/-- Every described dimension is one of the builder's, with its pairs. -/
theorem describesDims_entries {builder : IndexBuilder} {body : Bytes}
    {dimensions : List DimensionHeader} {names : List String}
    (described : DescribesDims k builder body dimensions names) {header : DimensionHeader}
    (present : header ∈ dimensions) :
    ∃ map, builder.dims.lookup header.name = some map ∧
      Describes k body header.entries map.toList := by
  induction described with
  | nil => simp at present
  | cons both later inductionHypothesis =>
    rcases List.mem_cons.mp present with rfl | among
    · exact both.1 ▸ both.2
    · exact inductionHypothesis among

/-- The dimensions a builder writes describe all it holds. -/
theorem serialize_describes (k : Codecs) (builder : IndexBuilder) :
    DescribesDims k builder (serializeDims k builder [] builder.order).1
      (serializeDims k builder [] builder.order).2 builder.order :=
  (serializeDims_describes builder [] builder.order (fun _ member => member)).2

/-- The header that a builder writes names the registered dimensions in order. -/
theorem header_dimensions (k : Codecs) (builder : IndexBuilder)
    (startSlot endSlot messageCount : Nat) :
    (header k builder startSlot endSlot messageCount).dimensions.map (·.name) = builder.order :=
  describesDims_names (serialize_describes k builder)

/-- The table of what was described finds every dimension of the builder, with its
values laid in the body. -/
theorem lookup_bitmapTable {builder : IndexBuilder} {body : Bytes}
    {dimensions : List DimensionHeader} {names : List String}
    (described : DescribesDims k builder body dimensions names) (distinct : names.Nodup)
    (dim : String) :
    match (bitmapTable dimensions).lookup dim with
    | none => dim ∉ names
    | some dimMap => ∃ map entries, builder.dims.lookup dim = some map ∧
        dimMap = tabulate DimEntryHeader.value (fun entry => (entry.offset, entry.length)) entries ∧
        Describes k body entries map.toList := by
  have sameNames := describesDims_names described
  by_cases member : dim ∈ names
  · obtain ⟨header, present, named⟩ := List.mem_map.mp (sameNames.symm ▸ member)
    have found := lookup_tabulate DimensionHeader.name
      (fun dim => tabulate DimEntryHeader.value (fun entry => (entry.offset, entry.length))
        dim.entries) dimensions (sameNames.symm ▸ distinct) header present
    rw [named] at found
    simp only [bitmapTable, found]
    obtain ⟨map, stored, entries⟩ := describesDims_entries described present
    exact ⟨map, header.entries, named ▸ stored, rfl, entries⟩
  · have absent := lookup_tabulate_of_absent DimensionHeader.name
      (fun dim => tabulate DimEntryHeader.value (fun entry => (entry.offset, entry.length))
        dim.entries) dimensions dim (by
          intro header present same
          exact member (sameNames ▸ same ▸ List.mem_map_of_mem present))
    simp only [bitmapTable, absent]
    exact member

/-- Within a described dimension the table finds a laid bitmap for exactly the
values of the dimension. -/
theorem lookup_entries {body : Bytes} {entries : List DimEntryHeader} {map : Dimension}
    (described : Describes k body entries map.toList) (value : DimValue) :
    match (tabulate DimEntryHeader.value (fun entry => (entry.offset, entry.length))
      entries).lookup value with
    | none => map[value]? = none
    | some place => ∃ bitmap, map[value]? = some bitmap ∧
        Laid k body ⟨value, place.1, place.2⟩ bitmap := by
  have values := describes_values described
  have distinct : (entries.map (·.value)).Nodup := by
    rw [values, Std.TreeMap.map_fst_toList_eq_keys]
    exact Std.TreeMap.nodup_keys
  by_cases member : value ∈ entries.map (·.value)
  · obtain ⟨entry, present, same⟩ := List.mem_map.mp member
    have found := lookup_tabulate DimEntryHeader.value
      (fun entry => (entry.offset, entry.length)) entries distinct entry present
    rw [same] at found
    simp only [found]
    obtain ⟨⟨other, bitmap⟩, listed, named, laid⟩ := describes_entry described present
    obtain rfl : value = other := same.symm.trans named
    exact ⟨bitmap, Std.TreeMap.mem_toList_iff_getElem?_eq_some.mp listed, laid.slice, laid.within⟩
  · have absent := lookup_tabulate_of_absent DimEntryHeader.value
      (fun entry => (entry.offset, entry.length)) entries value (by
        intro entry present same
        exact member (same ▸ List.mem_map_of_mem present))
    simp only [absent]
    cases stored : map[value]? with
    | none => rfl
    | some bitmap =>
      have listed := Std.TreeMap.mem_toList_iff_getElem?_eq_some.mpr stored
      exact absurd (values ▸ List.mem_map_of_mem listed) member

/-- The index that the reader holds of a builder's file. -/
def parsed (k : Codecs) (builder : IndexBuilder) (startSlot endSlot messageCount : Nat) :
    ChunkIndex where
  raw := serialize k builder startSlot endSlot messageCount
  header := header k builder startSlot endSlot messageCount
  lookup := bitmapTable (serializeDims k builder [] builder.order).2
  bodyStart := 9 + (k.msgpackEncode (header k builder startSlot endSlot messageCount)).length

/-- Parsing reads the header length that the writer narrowed to 32 bits and decodes
that many bytes. -/
theorem parse_serialize_narrowed (builder : IndexBuilder) (startSlot endSlot messageCount : Nat) :
    let headerBytes := k.msgpackEncode (header k builder startSlot endSlot messageCount)
    parseChunkIndex k (some (serialize k builder startSlot endSlot messageCount)) =
      match k.msgpackDecode ((headerBytes ++ (serializeDims k builder [] builder.order).1).take
          (headerBytes.length % u32Bound)) with
      | none => .error .headerUndecodable
      | some header => .ok
          { raw := serialize k builder startSlot endSlot messageCount
            header
            lookup := bitmapTable header.dimensions
            bodyStart := 9 + headerBytes.length % u32Bound } := by
  intro headerBytes
  have narrowed : headerBytes.length % u32Bound ≤ headerBytes.length := Nat.mod_le _ _
  have within : ¬ (serialize k builder startSlot endSlot messageCount).length <
      9 + headerBytes.length % u32Bound := by
    simp only [serialize, idxMagic, u32Bytes, List.length_append, List.length_cons,
      List.length_nil]
    change ¬ 4 + (0 + 1) + 4 + headerBytes.length + _ < _
    omega
  simp only [serialize, idxMagic, u32Bytes, List.cons_append, List.nil_append] at within
  simp only [parseChunkIndex, serialize, idxMagic, u32Bytes, List.cons_append, List.nil_append,
    u32Value_bytes, ne_eq, not_true_eq_false, if_false]
  rw [if_neg within]

/-- A file whose header fits is parsed. -/
theorem parse_serialize (roundTrips : k.MsgpackRoundTrips) (builder : IndexBuilder)
    (startSlot endSlot messageCount : Nat)
    (fits : (k.msgpackEncode (header k builder startSlot endSlot messageCount)).length <
      u32Bound) :
    parseChunkIndex k (some (serialize k builder startSlot endSlot messageCount)) =
      .ok (parsed k builder startSlot endSlot messageCount) := by
  rw [parse_serialize_narrowed]
  simp only [Nat.mod_eq_of_lt fits, List.take_left, roundTrips _]
  rfl

/-- A file is parsed only if its header fits: of a longer header the reader sees a
proper prefix. -/
theorem parsed_of_ok (roundTrips : k.MsgpackRoundTrips) (delimited : k.MsgpackDelimited)
    {builder : IndexBuilder} {startSlot endSlot messageCount : Nat} {index : ChunkIndex}
    (ok : parseChunkIndex k (some (serialize k builder startSlot endSlot messageCount)) =
      .ok index) : index = parsed k builder startSlot endSlot messageCount := by
  by_cases fits : (k.msgpackEncode (header k builder startSlot endSlot messageCount)).length <
      u32Bound
  · rw [parse_serialize roundTrips builder startSlot endSlot messageCount fits] at ok
    exact (Except.ok.inj ok).symm
  · rw [parse_serialize_narrowed] at ok
    have cut : (k.msgpackEncode (header k builder startSlot endSlot messageCount)).length %
        u32Bound < (k.msgpackEncode (header k builder startSlot endSlot messageCount)).length :=
      lt_of_lt_of_le (Nat.mod_lt _ (by decide)) (not_lt.mp fits)
    simp only [List.take_append_of_le_length cut.le, delimited _ _ cut] at ok
    cases ok

/-- The reader finds in a builder's file exactly the bitmaps the builder holds. -/
theorem bitmapFor_parsed (roundTrips : k.RoaringRoundTrips) (builder : IndexBuilder)
    (startSlot endSlot messageCount : Nat) (dim : String) (value : DimValue) :
    (parsed k builder startSlot endSlot messageCount).bitmapFor k dim value =
      .ok (bitmap? builder dim value) := by
  have body : (parsed k builder startSlot endSlot messageCount).raw.drop
      (parsed k builder startSlot endSlot messageCount).bodyStart =
        (serializeDims k builder [] builder.order).1 := by
    have front : (idxMagic ++ [idxVersion] ++
        u32Bytes (k.msgpackEncode (header k builder startSlot endSlot messageCount)).length ++
        k.msgpackEncode (header k builder startSlot endSlot messageCount)).length =
          (parsed k builder startSlot endSlot messageCount).bodyStart := by
      simp [idxMagic, u32Bytes, parsed]
      omega
    rw [← front]
    simp only [parsed, serialize]
    exact List.drop_left
  have described := serialize_describes k builder
  have dims := lookup_bitmapTable described builder.distinct dim
  simp only [ChunkIndex.bitmapFor, body]
  change (match (bitmapTable (serializeDims k builder [] builder.order).2).lookup dim with
    | none => _
    | some dimMap => _) = _
  cases found : (bitmapTable (serializeDims k builder [] builder.order).2).lookup dim with
  | none =>
    rw [found] at dims
    have absent : builder.dims.lookup dim = none :=
      AList.lookup_eq_none.mpr (mt (builder.registered dim).mp dims)
    simp [bitmap?, absent]
  | some dimMap =>
    rw [found] at dims
    obtain ⟨map, entries, stored, rfl, describes⟩ := dims
    have places := lookup_entries describes value
    simp only [bitmap?, stored, Option.bind_some]
    cases located : (tabulate DimEntryHeader.value (fun entry => (entry.offset, entry.length))
        entries).lookup value with
    | none =>
      rw [located] at places
      simp [places]
    | some place =>
      rw [located] at places
      obtain ⟨bitmap, present, laid⟩ := places
      have within : ¬ (serializeDims k builder [] builder.order).1.length < place.1 + place.2 :=
        not_lt.mpr laid.within
      simp only [present, within, if_false, laid.slice, roundTrips bitmap]

/-- A serialised index is parsed back to its message count, its dimensions in
registration order and, under every value of every dimension, exactly the ordinals
of the updates that carry the value; a value that none carries has no bitmap. -/
theorem index_round_trip (msgpack : k.MsgpackRoundTrips) (roaring : k.RoaringRoundTrips)
    (stream : Stream) (updates : List SubscribeUpdate) (startSlot endSlot messageCount : Nat)
    (fits : (k.msgpackEncode (header k (observeFrom (forStream stream) 0 updates) startSlot
      endSlot messageCount)).length < u32Bound) :
    ∃ index, parseChunkIndex k (some (serialize k (observeFrom (forStream stream) 0 updates)
        startSlot endSlot messageCount)) = .ok index ∧
      index.messageCount = messageCount ∧
      index.dimensions = (dimensionTable stream).map Prod.fst ∧
      ∀ dim value,
        ((∃ update ∈ updates, carries stream update dim value) →
          ∃ bitmap, index.bitmapFor k dim value = .ok (some bitmap) ∧
            ∀ i : Nat, i ∈ bitmap ↔
              ∃ update, updates[i]? = some update ∧ carries stream update dim value) ∧
        ((¬ ∃ update ∈ updates, carries stream update dim value) →
          index.bitmapFor k dim value = .ok none) := by
  have ready := (forStream_fresh stream).1
  have order := (observeFrom_records updates (forStream stream) 0 ready).2.1
  refine ⟨parsed k (observeFrom (forStream stream) 0 updates) startSlot endSlot messageCount,
    parse_serialize msgpack _ startSlot endSlot messageCount fits, rfl, ?_, ?_⟩
  · have names := header_dimensions k (observeFrom (forStream stream) 0 updates) startSlot
      endSlot messageCount
    exact names.trans order
  · intro dim value
    rw [bitmapFor_parsed roaring]
    have exact := observeFrom_exact stream updates dim value
    cases stored : bitmap? (observeFrom (forStream stream) 0 updates) dim value with
    | none =>
      rw [stored] at exact
      refine ⟨?_, fun _ => rfl⟩
      rintro ⟨update, member, here⟩
      obtain ⟨i, found⟩ := List.mem_iff_getElem?.mp member
      exact absurd here (exact i update found)
    | some bitmap =>
      rw [stored] at exact
      refine ⟨fun _ => ⟨bitmap, rfl, exact.2⟩, ?_⟩
      intro nobody
      obtain ⟨i, member⟩ := exact.1
      obtain ⟨update, found, here⟩ := (exact.2 i).mp member
      exact absurd ⟨update, List.mem_of_getElem? found, here⟩ nobody

/-- One vote transaction whose only instruction runs its first static key. -/
theorem index_round_trip_vote :
    let update : SubscribeUpdate :=
      { filters := []
        createdAt := none
        updateOneof := some (.transaction
          { slot := 412
            transaction := some
              { signature := List.replicate 64 7
                isVote := true
                transaction := some
                  ⟨some ⟨[List.replicate 32 1, List.replicate 32 2], [⟨0⟩, ⟨9⟩]⟩⟩
                «meta» := none } })
        unread := [] }
    ∃ index, parseChunkIndex PlainCodecs.plain (some (serialize PlainCodecs.plain
        (observeFrom (forStream .tx) 0 [update]) 400 450 1)) = .ok index ∧
      index.messageCount = 1 ∧
      index.dimensions = (dimensionTable .tx).map Prod.fst ∧
      ∀ dim value,
        ((∃ carrier ∈ [update], carries .tx carrier dim value) →
          ∃ bitmap, index.bitmapFor PlainCodecs.plain dim value = .ok (some bitmap) ∧
            ∀ i : Nat, i ∈ bitmap ↔
              ∃ carrier, [update][i]? = some carrier ∧ carries .tx carrier dim value) ∧
        ((¬ ∃ carrier ∈ [update], carries .tx carrier dim value) →
          index.bitmapFor PlainCodecs.plain dim value = .ok none) :=
  index_round_trip PlainCodecs.plain_roundTrip.msgpack PlainCodecs.plain_roundTrip.roaring .tx _
    400 450 1 (by decide +kernel)

end IndexBuilder

end Sillage
