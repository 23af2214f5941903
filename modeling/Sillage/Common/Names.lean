import Sillage.Foundation.Decimal
import Sillage.Foundation.Directory

/-!
# Chunk file names

A chunk's files share the stem `{start:012}-{end:012}` and differ in their
extension. The readers of a directory recognise a chunk by its sidecar's name and
split the stem at the first dash.
-/

namespace Sillage.Names

open Decimal Directory LittleEndian

/-- The shared stem of a chunk's files. -/
def stem (start stop : Nat) : FileName := padded 12 start ++ '-' :: padded 12 stop

/-- A file of a chunk, with the extension after the dot. -/
def chunkFile (start stop : Nat) (ext : String) : FileName := stem start stop ++ '.' :: ext.toList

/-- The end of the names of sidecars. -/
def metaSuffix : FileName := ".meta.json".toList

/-- The end of the names of temporary files. -/
def partialSuffix : FileName := ".partial".toList

/-- The text before a suffix, if the name ends with it. -/
def stripSuffix (suffix name : FileName) : Option FileName :=
  if suffix <:+ name then some (name.take (name.length - suffix.length)) else none

/-- The unsigned 64-bit integer parser. -/
def parseU64 (text : List Char) : Option Nat := parseBelow u64Bound text

/-- Split at the first dash, the dash dropped; without a dash the second part is
missing. -/
def splitOnce (text : List Char) : Option (List Char × List Char) :=
  match text.dropWhile (· ≠ '-') with
  | [] => none
  | _ :: after => some (text.takeWhile (· ≠ '-'), after)

/-- A suffix that was put on comes off. -/
theorem stripSuffix_append (name suffix : FileName) :
    stripSuffix suffix (name ++ suffix) = some name := by
  simp [stripSuffix, List.suffix_append]

/-- A name with the suffix is its stripped text followed by the suffix. -/
theorem stripSuffix_some {suffix name text : FileName} (stripped : stripSuffix suffix name = some text) :
    name = text ++ suffix := by
  unfold stripSuffix at stripped
  split at stripped
  · next ends =>
    obtain ⟨before, rfl⟩ := ends
    simp only [List.length_append, Nat.add_sub_cancel, List.take_left, Option.some.injEq] at stripped
    rw [stripped]
  · simp at stripped

/-- A separator that does not occur before it cuts a list in two. -/
theorem takeWhile_separator {before after : List Char} {separator : Char}
    (absent : separator ∉ before) :
    (before ++ separator :: after).takeWhile (· ≠ separator) = before := by
  have passes : ∀ symbol ∈ before, decide (symbol ≠ separator) = true := by
    intro symbol member
    have distinct : symbol ≠ separator := fun same => absent (same ▸ member)
    simpa using distinct
  rw [List.takeWhile_append_of_pos passes, List.takeWhile_cons_of_neg (by simp), List.append_nil]

/-- Text without the separator is dropped up to the first one. -/
theorem dropWhile_separator {before after : List Char} {separator : Char}
    (absent : separator ∉ before) :
    (before ++ separator :: after).dropWhile (· ≠ separator) = separator :: after := by
  have passes : ∀ symbol ∈ before, decide (symbol ≠ separator) = true := by
    intro symbol member
    have distinct : symbol ≠ separator := fun same => absent (same ▸ member)
    simpa using distinct
  rw [List.dropWhile_append_of_pos passes, List.dropWhile_cons_of_neg (by simp)]

/-- A stem splits into its two numerals. -/
theorem splitOnce_stem (start stop : Nat) :
    splitOnce (stem start stop) = some (padded 12 start, padded 12 stop) := by
  have absent : '-' ∉ padded 12 start := not_mem_padded 12 start '-' (by decide)
  simp only [splitOnce, stem]
  rw [dropWhile_separator absent, takeWhile_separator absent]

/-- The numerals of a stem are read back while they fit 64 bits. -/
theorem parseU64_padded (n : Nat) (fits : n < u64Bound) : parseU64 (padded 12 n) = some n :=
  parse_padded u64Bound 12 n fits

/-- A numeral of a stem is never read as another number. -/
theorem parseU64_padded_eq {n m : Nat} (parsed : parseU64 (padded 12 n) = some m) : m = n := by
  rw [parseU64, parse_padded_iff] at parsed
  split at parsed
  · exact (Option.some.inj parsed).symm
  · cases parsed

/-- The parts of a chunk file name determine it and are determined by it. -/
theorem chunkFile_injective {start stop start' stop' : Nat} {ext ext' : String}
    (same : chunkFile start stop ext = chunkFile start' stop' ext') :
    start = start' ∧ stop = stop' ∧ ext = ext' := by
  simp only [chunkFile, stem, List.append_assoc, List.cons_append] at same
  have dash (n : Nat) : '-' ∉ padded 12 n := not_mem_padded 12 n '-' (by decide)
  have dot (n : Nat) : '.' ∉ padded 12 n := not_mem_padded 12 n '.' (by decide)
  have starts := congrArg (List.takeWhile (· ≠ '-')) same
  rw [takeWhile_separator (dash start), takeWhile_separator (dash start')] at starts
  have rest := congrArg (List.dropWhile (· ≠ '-')) same
  rw [dropWhile_separator (dash start), dropWhile_separator (dash start')] at rest
  have tails := (List.cons.inj rest).2
  have stops := congrArg (List.takeWhile (· ≠ '.')) tails
  rw [takeWhile_separator (dot stop), takeWhile_separator (dot stop')] at stops
  have exts := congrArg (List.dropWhile (· ≠ '.')) tails
  rw [dropWhile_separator (dot stop), dropWhile_separator (dot stop')] at exts
  exact ⟨padded_injective 12 start start' starts, padded_injective 12 stop stop' stops,
    String.toList_inj.mp (List.cons.inj exts).2⟩

/-- The sidecar's name is the stem followed by the sidecar suffix. -/
theorem chunkFile_meta (start stop : Nat) :
    chunkFile start stop "meta.json" = stem start stop ++ metaSuffix := rfl

/-- A name that does not end in the last letter of a suffix lacks the suffix. -/
theorem stripSuffix_of_ends {suffix name : FileName} {letter : Char}
    (ends : suffix.getLast? = some letter) (last : name.getLast? ≠ some letter) :
    stripSuffix suffix name = none := by
  rw [stripSuffix, if_neg]
  rintro ⟨text, rfl⟩
  apply last
  rw [List.getLast?_append, ends, Option.some_or]

/-- A name that does not end as sidecars do is not the name of one. -/
theorem stripSuffix_of_last {name : FileName} (last : name.getLast? ≠ some 'n') :
    stripSuffix metaSuffix name = none :=
  stripSuffix_of_ends (by decide) last

/-- No dot stands in a stem. -/
theorem dot_not_mem_stem (start stop : Nat) : '.' ∉ stem start stop := by
  intro member
  rcases List.mem_append.mp member with inStart | inStop
  · exact not_mem_padded 12 start '.' (by decide) inStart
  · rcases List.mem_cons.mp inStop with isDash | inStop
    · cases isDash
    · exact not_mem_padded 12 stop '.' (by decide) inStop

/-- A file of a chunk ends like its extension. -/
theorem chunkFile_last (start stop : Nat) {ext : String} {last : Char}
    (ends : ext.toList.getLast? = some last) : (chunkFile start stop ext).getLast? = some last := by
  rw [chunkFile, List.getLast?_append, List.getLast?_cons, ends]
  rfl

end Sillage.Names
