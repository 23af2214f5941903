import Mathlib.Data.List.Sort
import Sillage.Reader.Sync
import Sillage.Writer.Uploader

/-!
# Listing the bucket

The reader's listing groups the keys of the bucket by stream and by the two slots in
their names, whatever the spelling of the slots, and keeps the groups that have all three
files. The keys of all pages are given as one list.
-/

namespace Sillage

open LittleEndian Directory Names

namespace Listing

/-- Split at the first occurrence of a separator, which is dropped. -/
def splitFirst (separator : Char) (text : List Char) : Option (List Char × List Char) :=
  match text.dropWhile (· ≠ separator) with
  | [] => none
  | _ :: after => some (text.takeWhile (· ≠ separator), after)

/-- Split at the last occurrence of a separator, which is dropped. -/
def splitLast (separator : Char) (text : List Char) : Option (List Char × List Char) :=
  (splitFirst separator text.reverse).map (fun parts => (parts.2.reverse, parts.1.reverse))

/-- What follows a leading text, if a text starts with it. -/
def stripLeading (leading text : List Char) : Option (List Char) :=
  if leading <+: text then some (text.drop leading.length) else none

/-- The group of a key: the text of its stream and its two slots. -/
structure GroupKey where
  streamStr : List Char
  startSlot : Nat
  endSlot : Nat
deriving DecidableEq

/-- The order of the groups: by stream, then by start, then by end. -/
def GroupKey.precedes (a b : GroupKey) : Prop :=
  a.streamStr < b.streamStr ∨ a.streamStr = b.streamStr ∧
    (a.startSlot < b.startSlot ∨ a.startSlot = b.startSlot ∧ a.endSlot ≤ b.endSlot)

/-- The order of the groups is that of their stream, start and end. -/
instance : DecidableRel GroupKey.precedes := fun a b =>
  inferInstanceAs (Decidable (a.streamStr < b.streamStr ∨ a.streamStr = b.streamStr ∧
    (a.startSlot < b.startSlot ∨ a.startSlot = b.startSlot ∧ a.endSlot ≤ b.endSlot)))

/-- A chunk of the bucket with the common part of the keys of its files. -/
structure R2Chunk where
  stream : Stream
  startSlot : Nat
  endSlot : Nat
  keyPrefix : List Char
deriving DecidableEq

/-- The stem and the extension of a file name; the sidecar's extension has two parts. -/
def cutExtension (filename : FileName) : Option (List Char × List Char) := do
  let (stem, ext) ← splitLast '.' filename
  some
    (if ext = "json".toList ∧ ".meta".toList <:+ stem then
      ((stripSuffix ".meta".toList stem).getD stem, "meta.json".toList)
    else (stem, ext))

/-- The slots and the extension of a file name. -/
def parseFile (filename : FileName) : Option (Nat × Nat × List Char) := do
  let (stem, ext) ← cutExtension filename
  let (start, stop) ← splitFirst '-' stem
  let startSlot ← parseU64 start
  let endSlot ← parseU64 stop
  some (startSlot, endSlot, ext)

/-- The group of a key of the bucket, with the extension of the key. -/
def parseKey (key : List Char) : Option (GroupKey × List Char) := do
  let stripped ← stripLeading "chunks/".toList key
  let (streamStr, filename) ← splitFirst '/' stripped
  let (startSlot, endSlot, ext) ← parseFile filename
  some (⟨streamStr, startSlot, endSlot⟩, ext)

/-- The chunk of a group, if its stream is known and all three files are there. -/
def chunkOf (parsed : List (GroupKey × List Char)) (group : GroupKey) : Option R2Chunk := do
  let stream ← Stream.all.find? (fun stream => stream.asStr.toList = group.streamStr)
  let exts := (parsed.filter (fun entry => entry.1 = group)).map Prod.snd
  if "zst".toList ∈ exts ∧ "idx".toList ∈ exts ∧ "meta.json".toList ∈ exts then
    some
      { stream
        startSlot := group.startSlot
        endSlot := group.endSlot
        keyPrefix := "chunks/".toList ++ group.streamStr ++
          '/' :: stem group.startSlot group.endSlot }
  else none

/-- The chunks behind the keys of the bucket. -/
def listChunks (keys : List (List Char)) : List R2Chunk :=
  let parsed := keys.filterMap parseKey
  ((parsed.map Prod.fst).dedup.insertionSort GroupKey.precedes).filterMap (chunkOf parsed)

/-- The key of a file of a stream. -/
def keyOf (stream : Stream) (name : FileName) : List Char :=
  "chunks/".toList ++ stream.asStr.toList ++ '/' :: name

/-- Leading text that was put on comes off. -/
theorem stripLeading_append (leading text : List Char) :
    stripLeading leading (leading ++ text) = some text := by
  rw [stripLeading, if_pos (List.prefix_append _ _), List.drop_left]

/-- A split at the first separator leaves none in front. -/
theorem splitFirst_iff {separator : Char} {text before after : List Char} :
    splitFirst separator text = some (before, after) ↔
      text = before ++ separator :: after ∧ separator ∉ before := by
  constructor
  · intro split
    rw [splitFirst] at split
    cases dropped : text.dropWhile (· ≠ separator) with
    | nil =>
      rw [dropped] at split
      cases split
    | cons first rest =>
      rw [dropped] at split
      obtain ⟨rfl, rfl⟩ := Prod.mk.inj (Option.some.inj split)
      have stops : first = separator := by
        have head := List.head?_dropWhile_not (fun symbol => decide (symbol ≠ separator)) text
        rw [dropped] at head
        simpa using head
      refine ⟨?_, fun member => by simpa using List.mem_takeWhile_imp member⟩
      calc text = text.takeWhile (· ≠ separator) ++ text.dropWhile (· ≠ separator) :=
            List.takeWhile_append_dropWhile.symm
        _ = text.takeWhile (· ≠ separator) ++ separator :: rest := by rw [dropped, stops]
  · rintro ⟨rfl, absent⟩
    rw [splitFirst, dropWhile_separator absent, takeWhile_separator absent]

/-- A split at the last separator leaves none behind. -/
theorem splitLast_iff {separator : Char} {text before after : List Char} :
    splitLast separator text = some (before, after) ↔
      text = before ++ separator :: after ∧ separator ∉ after := by
  rw [splitLast, Option.map_eq_some_iff]
  constructor
  · rintro ⟨⟨last, first⟩, split, same⟩
    obtain ⟨rfl, rfl⟩ := Prod.mk.inj same
    obtain ⟨shape, absent⟩ := splitFirst_iff.mp split
    refine ⟨?_, by simpa using absent⟩
    rw [← List.reverse_reverse text, shape]
    simp
  · rintro ⟨rfl, absent⟩
    exact ⟨(after.reverse, before.reverse), splitFirst_iff.mpr ⟨by simp, by simpa using absent⟩,
      by simp⟩

/-- The two texts before and after the first dash of a stem are known from it. -/
theorem splitOnce_iff {text before after : List Char} :
    splitOnce text = some (before, after) ↔ text = before ++ '-' :: after ∧ '-' ∉ before :=
  splitFirst_iff

/-- A final extension is cut off with its dot. -/
theorem cutExtension_iff {filename stem : FileName} {ext : String} (final : ext ∈ finalExtensions) :
    cutExtension filename = some (stem, ext.toList) ↔ filename = stem ++ '.' :: ext.toList := by
  simp only [cutExtension, Option.bind_eq_bind, Option.bind_eq_some_iff]
  simp only [finalExtensions, List.mem_cons, List.not_mem_nil, or_false] at final
  constructor
  · rintro ⟨⟨before, after⟩, split, cut⟩
    obtain ⟨rfl, absent⟩ := splitLast_iff.mp split
    dsimp only at cut
    split at cut
    · next isMeta =>
      obtain ⟨rfl, body, rfl⟩ := isMeta
      rw [stripSuffix_append, Option.getD_some] at cut
      obtain ⟨rfl, same⟩ := Prod.mk.inj (Option.some.inj cut)
      rw [← same, List.append_assoc]
      rfl
    · obtain ⟨rfl, rfl⟩ := Prod.mk.inj (Option.some.inj cut)
      rfl
  · rintro rfl
    rcases final with rfl | rfl | rfl
    · have other : "zst".toList ≠ "json".toList := by decide
      exact ⟨(stem, "zst".toList), splitLast_iff.mpr ⟨rfl, by decide⟩,
        congrArg some (if_neg (fun both => other both.1))⟩
    · have other : "idx".toList ≠ "json".toList := by decide
      exact ⟨(stem, "idx".toList), splitLast_iff.mpr ⟨rfl, by decide⟩,
        congrArg some (if_neg (fun both => other both.1))⟩
    · refine ⟨(stem ++ ".meta".toList, "json".toList), splitLast_iff.mpr ⟨?_, by decide⟩, ?_⟩
      · rw [List.append_assoc]
        rfl
      · rw [if_pos ⟨rfl, List.suffix_append _ _⟩, stripSuffix_append, Option.getD_some]

/-- A file name made of two texts with a dash between them and an extension. -/
structure Shaped (name start stop : List Char) (ext : String) : Prop where
  parts : name = (start ++ '-' :: stop) ++ '.' :: ext.toList
  undashed : '-' ∉ start

/-- The name of a file whose two texts are read as numbers. -/
def Reads (name : FileName) (ext : String) (startSlot endSlot : Nat) : Prop :=
  ∃ start stop, Shaped name start stop ext ∧ parseU64 start = some startSlot ∧
    parseU64 stop = some endSlot

/-- A name has one shape at most with a given extension. -/
theorem Shaped.unique {name start stop start' stop' : List Char} {ext : String}
    (shaped : Shaped name start stop ext) (shaped' : Shaped name start' stop' ext) :
    start = start' ∧ stop = stop' := by
  have stems : start ++ '-' :: stop = start' ++ '-' :: stop' :=
    List.append_cancel_right (shaped.parts.symm.trans shaped'.parts)
  have first : splitFirst '-' (start ++ '-' :: stop) = some (start, stop) :=
    splitFirst_iff.mpr ⟨rfl, shaped.undashed⟩
  have second : splitFirst '-' (start ++ '-' :: stop) = some (start', stop') :=
    splitFirst_iff.mpr ⟨stems, shaped'.undashed⟩
  exact Prod.mk.inj (Option.some.inj (first.symm.trans second))

/-- The listing recognises a file whose name is two numbers and an extension. -/
theorem parseFile_iff {filename : FileName} {ext : String} (final : ext ∈ finalExtensions)
    {startSlot endSlot : Nat} :
    parseFile filename = some (startSlot, endSlot, ext.toList) ↔
      Reads filename ext startSlot endSlot := by
  simp only [parseFile, Option.bind_eq_bind, Option.bind_eq_some_iff]
  constructor
  · rintro ⟨⟨stem, ext'⟩, cut, ⟨start, stop⟩, split, first, parsed, last, parsed', same⟩
    obtain ⟨rfl, rfl, rfl⟩ : first = startSlot ∧ last = endSlot ∧ ext' = ext.toList := by
      simpa using same
    obtain ⟨rfl, undashed⟩ := splitFirst_iff.mp split
    exact ⟨start, stop, ⟨(cutExtension_iff final).mp cut, undashed⟩, parsed, parsed'⟩
  · rintro ⟨start, stop, ⟨rfl, undashed⟩, parsed, parsed'⟩
    exact ⟨(start ++ '-' :: stop, ext.toList), (cutExtension_iff final).mpr rfl, (start, stop),
      splitFirst_iff.mpr ⟨rfl, undashed⟩, startSlot, parsed, endSlot, parsed', rfl⟩

/-- The key of a file of a known stream is read as its stream and its name. -/
theorem parseKey_keyOf (stream : Stream) (name : FileName) :
    parseKey (keyOf stream name) =
      (parseFile name).map (fun file => (⟨stream.asStr.toList, file.1, file.2.1⟩, file.2.2)) := by
  have leading : stripLeading "chunks/".toList (keyOf stream name) =
      some (stream.asStr.toList ++ '/' :: name) :=
    (congrArg (stripLeading _) (List.append_assoc _ _ _)).trans (stripLeading_append _ _)
  have absent : '/' ∉ stream.asStr.toList := by cases stream <;> decide
  have slash : splitFirst '/' (stream.asStr.toList ++ '/' :: name) =
      some (stream.asStr.toList, name) := splitFirst_iff.mpr ⟨rfl, absent⟩
  simp only [parseKey, leading, slash, Option.bind_eq_bind, Option.bind_some]
  cases parseFile name <;> rfl

/-- A key that is read at all is that of a file in the directory of its stream's text. -/
theorem parseKey_some {key : List Char} {group : GroupKey} {ext : List Char}
    (parsed : parseKey key = some (group, ext)) :
    ∃ name, key = "chunks/".toList ++ group.streamStr ++ '/' :: name ∧
      parseFile name = some (group.startSlot, group.endSlot, ext) := by
  simp only [parseKey, Option.bind_eq_bind, Option.bind_eq_some_iff] at parsed
  obtain ⟨stripped, leading, ⟨streamStr, name⟩, slash, ⟨start, stop, ext'⟩, read, same⟩ := parsed
  obtain ⟨rfl, rfl⟩ := Prod.mk.inj (Option.some.inj same)
  obtain ⟨rfl, -⟩ := splitFirst_iff.mp slash
  refine ⟨name, ?_, read⟩
  rw [stripLeading] at leading
  split at leading
  · next starts =>
    obtain ⟨rest, rfl⟩ := starts
    rw [List.drop_left] at leading
    rw [Option.some.inj leading, List.append_assoc]
  · cases leading

/-- A listed chunk has a key for each of its files. -/
theorem mem_listChunks {keys : List (List Char)} {chunk : R2Chunk}
    (listed : chunk ∈ listChunks keys) : ∀ ext ∈ finalExtensions, ∃ key ∈ keys,
      parseKey key =
        some (⟨chunk.stream.asStr.toList, chunk.startSlot, chunk.endSlot⟩, ext.toList) := by
  simp only [listChunks, List.mem_filterMap] at listed
  obtain ⟨group, -, made⟩ := listed
  simp only [chunkOf, Option.bind_eq_bind, Option.bind_eq_some_iff] at made
  obtain ⟨stream, found, made⟩ := made
  have known : stream.asStr.toList = group.streamStr := by simpa using List.find?_some found
  split at made
  · next complete =>
    obtain rfl := Option.some.inj made
    intro ext final
    have member : ext.toList ∈ ((keys.filterMap parseKey).filter
        (fun entry => entry.1 = group)).map Prod.snd := by
      simp only [finalExtensions, List.mem_cons, List.not_mem_nil, or_false] at final
      rcases final with rfl | rfl | rfl
      · exact complete.1
      · exact complete.2.1
      · exact complete.2.2
    obtain ⟨⟨own, ext'⟩, among, rfl⟩ := List.mem_map.mp member
    obtain ⟨among, same⟩ := List.mem_filter.mp among
    obtain ⟨key, isKey, parsed⟩ := List.mem_filterMap.mp among
    obtain rfl : own = group := of_decide_eq_true same
    refine ⟨key, isKey, ?_⟩
    rw [parsed, known]
  · cases made

end Listing

end Sillage
