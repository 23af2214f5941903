import Sillage.Foundation.Slices
import Sillage.Reader.ChunkIndex

/-!
# Where reading an index can panic

The parser and the lookup of a bitmap again, with every slice and every addition as the
source writes them, on a target with 64-bit sizes. Parsing never panics. A lookup cuts
the bitmap out of the body after comparing its end with the length of the body; the end
is a sum that may not fit.
-/

namespace Sillage

open LittleEndian Idx Slices

/-- Parse an index file, slice by slice. -/
def parseChunkIndexAt (checks : Bool) (k : Codecs) :
    Option Bytes → Except Panic (Except IndexError ChunkIndex)
  | none => .ok (.error .unreadable)
  | some raw =>
      if raw.length < 9 then .ok (.error (.tooShort raw.length))
      else do
        let magic ← slice raw 0 4
        if magic ≠ idxMagic then .ok (.error (.wrongMagic magic))
        else do
          let version ← byteAt raw 4
          if version ≠ idxVersion then .ok (.error (.wrongVersion version))
          else do
            let lengthBytes ← slice raw 5 9
            let headerLen ← wordOf lengthBytes
            let bodyStart ← addWord checks 9 headerLen
            if raw.length < bodyStart then .ok (.error (.headerExceedsFile headerLen raw.length))
            else do
              let headerBytes ← slice raw 9 bodyStart
              match k.msgpackDecode headerBytes with
              | none => .ok (.error .headerUndecodable)
              | some header =>
                  .ok (.ok { raw, header, lookup := bitmapTable header.dimensions, bodyStart })

/-- Look up a bitmap, slice by slice. -/
def ChunkIndex.bitmapForAt (checks : Bool) (k : Codecs) (index : ChunkIndex) (dim : String)
    (value : DimValue) : Except Panic (Except IndexError (Option RoaringBitmap)) :=
  match index.lookup.lookup dim with
  | none => .ok (.ok none)
  | some dimMap =>
      match dimMap.lookup value with
      | none => .ok (.ok none)
      | some (start, length) => do
          let body ← sliceFrom index.raw index.bodyStart
          let stop ← addWord checks start length
          if body.length < stop then .ok (.error (.sliceExceedsBody start stop body.length))
          else do
            let blob ← slice body start stop
            match k.roaringDeserialize blob with
            | none => .ok (.error (.bitmapUndecodable dim value))
            | some bitmap => .ok (.ok (some bitmap))

/-- Whatever the file holds, it is parsed or refused without panic, and every bitmap
lookup in what was parsed returns. -/
structure PanicFree (checks : Bool) (k : Codecs) (file : Option Bytes) : Prop where
  parses : ∃ result, parseChunkIndexAt checks k file = .ok result
  looksUp : ∀ index, parseChunkIndexAt checks k file = .ok (.ok index) →
    ∀ dim value, ∃ result, index.bitmapForAt checks k dim value = .ok result

/-- The place noted for some bitmap of a file that parses. -/
def Noted (k : Codecs) (file : Option Bytes) (body : Bytes) (start length : Nat) : Prop :=
  ∃ index dim dimMap value, parseChunkIndex k file = .ok index ∧
    index.lookup.lookup dim = some dimMap ∧ dimMap.lookup value = some (start, length) ∧
    body = index.raw.drop index.bodyStart

variable {k : Codecs} {checks : Bool}

/-- Parsing does not panic, and its result is that of the parser on whole lists. -/
theorem parseChunkIndexAt_eq (checks : Bool) (k : Codecs) (file : Option Bytes) :
    parseChunkIndexAt checks k file = .ok (parseChunkIndex k file) := by
  cases file with
  | none => rfl
  | some raw =>
    match raw with
    | m₀ :: m₁ :: m₂ :: m₃ :: version :: b₀ :: b₁ :: b₂ :: b₃ :: rest =>
      have small := u32Value_lt b₀ b₁ b₂ b₃
      have fits : 9 + u32Value b₀ b₁ b₂ b₃ < u64Bound := by
        simp only [u32Bound] at small
        simp only [u64Bound]
        omega
      have long : ¬ (m₀ :: m₁ :: m₂ :: m₃ :: version :: b₀ :: b₁ :: b₂ :: b₃ :: rest).length < 9 := by
        simp only [List.length_cons]
        omega
      have magic : slice (m₀ :: m₁ :: m₂ :: m₃ :: version :: b₀ :: b₁ :: b₂ :: b₃ :: rest) 0 4 =
          .ok [m₀, m₁, m₂, m₃] := slice_ok (by decide) (by simp only [List.length_cons]; omega)
      have word : slice (m₀ :: m₁ :: m₂ :: m₃ :: version :: b₀ :: b₁ :: b₂ :: b₃ :: rest) 5 9 =
          .ok [b₀, b₁, b₂, b₃] := slice_ok (by decide) (by simp only [List.length_cons]; omega)
      simp only [parseChunkIndexAt, if_neg long, magic, word, bind, Except.bind, byteAt, wordOf,
        List.getElem?_cons_succ, List.getElem?_cons_zero, addWord_fits fits, parseChunkIndex]
      split
      · rfl
      split
      · rfl
      split
      · rfl
      · next inside =>
        rw [slice_ok (Nat.le_add_right 9 _) (Nat.le_of_not_lt inside), Nat.add_sub_cancel_left]
        simp only [List.drop_succ_cons, List.drop_zero]
        cases k.msgpackDecode (rest.take (u32Value b₀ b₁ b₂ b₃)) <;> rfl
    | [] | [_] | [_, _] | [_, _, _] | [_, _, _, _] | [_, _, _, _, _] | [_, _, _, _, _, _]
    | [_, _, _, _, _, _, _] | [_, _, _, _, _, _, _, _] => rfl

/-- The body of a parsed file starts inside the file. -/
theorem bodyStart_le {file : Option Bytes} {index : ChunkIndex}
    (parsed : parseChunkIndex k file = .ok index) : index.bodyStart ≤ index.raw.length := by
  cases file with
  | none => cases parsed
  | some raw =>
    unfold parseChunkIndex at parsed
    dsimp only at parsed
    split at parsed
    · split at parsed
      · cases parsed
      split at parsed
      · cases parsed
      split at parsed
      · cases parsed
      · next inside =>
        split at parsed
        · cases parsed
        · obtain rfl := Except.ok.inj parsed
          exact Nat.le_of_not_lt inside
    · cases parsed

/-- A lookup returns if the end of the bitmap is a sum without panic and the slice that it
is used for is ordered. -/
def Returns (checks : Bool) (body : Bytes) (start length : Nat) : Prop :=
  ∃ stop, addWord checks start length = .ok stop ∧ (body.length < stop ∨ start ≤ stop)

/-- A lookup returns exactly if the noted range can be cut out of the body and the sums do not
overflow where that is checked. -/
theorem bitmapForAt_iff {index : ChunkIndex} (inside : index.bodyStart ≤ index.raw.length)
    {dim : String} {value : DimValue} {dimMap : AList (fun _ : DimValue => Nat × Nat)}
    {start length : Nat} (dims : index.lookup.lookup dim = some dimMap)
    (values : dimMap.lookup value = some (start, length)) :
    (∃ result, index.bitmapForAt checks k dim value = .ok result) ↔
      Returns checks (index.raw.drop index.bodyStart) start length := by
  simp only [ChunkIndex.bitmapForAt, dims, values, sliceFrom_ok inside, bind, Except.bind, Returns]
  cases added : addWord checks start length with
  | error panic => simp
  | ok stop =>
    simp only [Except.ok.injEq, exists_eq_left']
    by_cases past : (index.raw.drop index.bodyStart).length < stop
    · rw [if_pos past]
      exact ⟨fun _ => .inl past, fun _ => ⟨_, rfl⟩⟩
    · rw [if_neg past]
      cases cut : slice (index.raw.drop index.bodyStart) start stop with
      | error panic =>
        have unordered : ¬ start ≤ stop := by
          intro ordered
          rw [slice_ok ordered (Nat.le_of_not_lt past)] at cut
          cases cut
        exact ⟨fun returns => (nomatch returns.choose_spec),
          fun either => absurd (either.resolve_left past) unordered⟩
      | ok blob =>
        have ordered := (slice_isOk.mp ⟨blob, cut⟩).1
        refine ⟨fun _ => .inr ordered, fun _ => ?_⟩
        dsimp only
        cases k.roaringDeserialize blob with
        | none => exact ⟨_, rfl⟩
        | some bitmap => exact ⟨_, rfl⟩

/-- A file is read without panic exactly if every lookup of a noted bitmap returns. -/
theorem panicFree_iff (file : Option Bytes) :
    PanicFree checks k file ↔
      ∀ body start length, Noted k file body start length → Returns checks body start length := by
  constructor
  · rintro ⟨-, looksUp⟩ body start length ⟨index, dim, dimMap, value, parsed, dims, values, rfl⟩
    exact (bitmapForAt_iff (bodyStart_le parsed) dims values).mp
      (looksUp index ((parseChunkIndexAt_eq checks k file).trans (congrArg _ parsed)) dim value)
  · intro returns
    refine ⟨⟨_, parseChunkIndexAt_eq checks k file⟩, fun index parsedAt dim value => ?_⟩
    have parsed : parseChunkIndex k file = .ok index :=
      Except.ok.inj ((parseChunkIndexAt_eq checks k file).symm.trans parsedAt)
    cases dims : index.lookup.lookup dim with
    | none => exact ⟨.ok none, by simp only [ChunkIndex.bitmapForAt, dims]⟩
    | some dimMap =>
      cases values : dimMap.lookup value with
      | none => exact ⟨.ok none, by simp only [ChunkIndex.bitmapForAt, dims, values]⟩
      | some place =>
        obtain ⟨start, length⟩ := place
        exact (bitmapForAt_iff (bodyStart_le parsed) dims values).mpr
          (returns _ start length ⟨index, dim, dimMap, value, parsed, dims, values, rfl⟩)

/-- A lookup whose end fits is that of the reader on natural numbers. -/
theorem bitmapForAt_eq (checks : Bool) {index : ChunkIndex}
    (inside : index.bodyStart ≤ index.raw.length) {dim : String} {value : DimValue}
    (fits : ∀ dimMap start length, index.lookup.lookup dim = some dimMap →
      dimMap.lookup value = some (start, length) → start + length < u64Bound) :
    index.bitmapForAt checks k dim value = .ok (index.bitmapFor k dim value) := by
  rw [ChunkIndex.bitmapForAt, ChunkIndex.bitmapFor]
  cases dims : index.lookup.lookup dim with
  | none => rfl
  | some dimMap =>
    dsimp only
    cases values : dimMap.lookup value with
    | none => rfl
    | some place =>
      obtain ⟨start, length⟩ := place
      simp only [sliceFrom_ok inside, bind, Except.bind,
        addWord_fits (fits dimMap start length dims values)]
      by_cases past : (index.raw.drop index.bodyStart).length < start + length
      · rw [if_pos past, if_pos past]
      · rw [if_neg past, if_neg past, slice_ok (Nat.le_add_right _ _) (Nat.le_of_not_lt past),
          Nat.add_sub_cancel_left]
        dsimp only
        cases k.roaringDeserialize (((index.raw.drop index.bodyStart).drop start).take length) <;>
          rfl

/-- Parsing any file returns. With overflow checks, reading it is free of panics exactly if
the end of every noted bitmap fits 64 bits; without, exactly if every such end, reduced to
64 bits, lies past the body or not before its start. -/
theorem index_panicFree_iff (k : Codecs) (file : Option Bytes) :
    (∀ checks, ∃ result, parseChunkIndexAt checks k file = .ok result) ∧
    (PanicFree true k file ↔
      ∀ body start length, Noted k file body start length → start + length < 2 ^ 64) ∧
    (PanicFree false k file ↔
      ∀ body start length, Noted k file body start length →
        body.length < (start + length) % 2 ^ 64 ∨ start ≤ (start + length) % 2 ^ 64) := by
  refine ⟨fun checks => ⟨_, parseChunkIndexAt_eq checks k file⟩, ?_, ?_⟩
  · rw [panicFree_iff]
    refine forall₄_congr (fun body start length _ => ?_)
    constructor
    · rintro ⟨stop, added, -⟩
      exact addWord_checked.mp ⟨stop, added⟩
    · intro fits
      exact ⟨start + length, addWord_fits fits true, .inr (Nat.le_add_right _ _)⟩
  · rw [panicFree_iff]
    refine forall₄_congr (fun body start length _ => ?_)
    rw [Returns, addWord_unchecked]
    simp only [Except.ok.injEq, exists_eq_left']
    rfl

/-- The file of an index whose one bitmap is said to end two bytes past the largest
64-bit offset. -/
def farBitmap : Bytes :=
  let header := PlainCodecs.plain.msgpackEncode
    ⟨"tx", 0, 1000, 1, [⟨dimVoteFlag, .bool, [⟨.bool true, 2 ^ 64 - 1, 2⟩]⟩]⟩
  idxMagic ++ [idxVersion] ++ u32Bytes header.length ++ header ++ [0, 0]

/-- A file that parses and whose lookup panics, with overflow checks at the sum, without
them at the slice. -/
theorem farBitmap_panics :
    ¬ PanicFree true PlainCodecs.plain (some farBitmap) ∧
      ¬ PanicFree false PlainCodecs.plain (some farBitmap) := by
  have looked : (parseChunkIndex PlainCodecs.plain (some farBitmap)).toOption.map (fun index =>
      [true, false].all (fun checks =>
        match index.bitmapForAt checks PlainCodecs.plain dimVoteFlag (.bool true) with
        | .ok _ => false
        | .error _ => true)) = some true := by
    decide +kernel
  cases parsed : parseChunkIndex PlainCodecs.plain (some farBitmap) with
  | error error => simp [parsed, Except.toOption] at looked
  | ok index =>
    simp only [parsed, Except.toOption, Option.map_some, Option.some.injEq, List.all_cons,
      List.all_nil, Bool.and_true, Bool.and_eq_true] at looked
    have fails : ∀ checks, PanicFree checks PlainCodecs.plain (some farBitmap) →
        ∃ result, index.bitmapForAt checks PlainCodecs.plain dimVoteFlag (.bool true) =
          .ok result :=
      fun checks free => free.looksUp index
        ((parseChunkIndexAt_eq checks _ _).trans (congrArg _ parsed)) _ _
    constructor
    · intro free
      obtain ⟨result, done⟩ := fails true free
      simp [done] at looked
    · intro free
      obtain ⟨result, done⟩ := fails false free
      simp [done] at looked

end Sillage
