import Mathlib.Data.List.Basic
import Sillage.Foundation.LittleEndian

/-!
# Chunk payload framing and the metadata sidecar

A payload is a sequence of frames, each a four-byte little-endian length followed
by that many bytes. The iterator stops after the first malformed frame.
-/

namespace Sillage.Chunk

open LittleEndian

/-- The sidecar version the writer writes and the reader demands. -/
def schemaVersion : Nat := 1

/-- The `.meta.json` sidecar. -/
structure ChunkMeta where
  schemaVersion : Nat
  stream : String
  startSlot : Nat
  endSlotExclusive : Nat
  firstMessageSlot : Option Nat
  lastMessageSlot : Option Nat
  messageCount : Nat
  uncompressedBytes : Nat
  compressedBytes : Nat
  recvNsFirst : Option Nat
  recvNsLast : Option Nat
  sealedReason : String
  indexDimensions : List String
deriving DecidableEq

/-- What the frame iterator can complain about. -/
inductive ChunkError where
  | truncatedLengthPrefix
  | lengthPastBuffer (declared remaining : Nat)
deriving DecidableEq

/-- Append one frame to a buffer. The length is narrowed to 32 bits. -/
def writeLenPrefixed (buf payload : Bytes) : Bytes :=
  buf ++ u32Bytes payload.length ++ payload

/-- One call of the frame iterator: the yielded item and the data left. -/
def FrameIter.next : Bytes → Option (Except ChunkError Bytes × Bytes)
  | [] => none
  | b₀ :: b₁ :: b₂ :: b₃ :: rest =>
      let len := u32Value b₀ b₁ b₂ b₃
      if rest.length < len then some (.error (.lengthPastBuffer len rest.length), [])
      else some (.ok (rest.take len), rest.drop len)
  | _ => some (.error .truncatedLengthPrefix, [])

/-- At most `fuel` calls of the iterator. -/
def framesWithin : Nat → Bytes → List (Except ChunkError Bytes)
  | 0, _ => []
  | fuel + 1, data =>
      match FrameIter.next data with
      | none => []
      | some (item, rest) => item :: framesWithin fuel rest

/-- Everything the iterator yields. Each call consumes at least one byte, so the
number of calls is bounded by the length of the buffer. -/
def iterFrames (data : Bytes) : List (Except ChunkError Bytes) := framesWithin data.length data

/-- The frames of a list of payloads, back to back. -/
def framed (payloads : List Bytes) : Bytes := payloads.foldl writeLenPrefixed []

/-- Writing payload after payload appends the frames of all of them. -/
theorem foldl_framed (buf : Bytes) (payloads : List Bytes) :
    payloads.foldl writeLenPrefixed buf = buf ++ framed payloads := by
  induction payloads generalizing buf with
  | nil => simp [framed]
  | cons payload rest inductionHypothesis =>
    have later := inductionHypothesis (writeLenPrefixed [] payload)
    simp only [framed, List.foldl_cons] at later ⊢
    rw [inductionHypothesis (writeLenPrefixed buf payload), later]
    simp [writeLenPrefixed, framed]

/-- The first payload's frame stands first. -/
theorem framed_cons (payload : Bytes) (rest : List Bytes) :
    framed (payload :: rest) = u32Bytes payload.length ++ payload ++ framed rest := by
  have opened := foldl_framed (writeLenPrefixed [] payload) rest
  simpa [framed, writeLenPrefixed] using opened

/-- Appending a frame appends a payload. -/
theorem framed_append (payloads : List Bytes) (payload : Bytes) :
    framed (payloads ++ [payload]) = writeLenPrefixed (framed payloads) payload := by
  simp [framed]

/-- The iterator takes a frame back off the front of a buffer. -/
theorem next_framed (payload rest : Bytes) (fits : payload.length < u32Bound) :
    FrameIter.next (u32Bytes payload.length ++ payload ++ rest) = some (.ok payload, rest) := by
  have length : u32Value (UInt8.ofNat payload.length) (UInt8.ofNat (payload.length / 2 ^ 8))
      (UInt8.ofNat (payload.length / 2 ^ 16)) (UInt8.ofNat (payload.length / 2 ^ 24)) =
        payload.length := u32Value_exact payload.length fits
  have within : ¬ payload.length + rest.length < payload.length := by omega
  simp only [u32Bytes, List.cons_append, List.nil_append, FrameIter.next, length,
    List.length_append, within, if_false, List.take_left, List.drop_left]

/-- The iterator recovers every payload. Each frame is at least four bytes long,
so the byte count is enough fuel for the frame count. -/
theorem framesWithin_framed (payloads : List Bytes)
    (fit : ∀ payload ∈ payloads, payload.length < u32Bound) (fuel : Nat)
    (enough : (framed payloads).length ≤ fuel) :
    framesWithin fuel (framed payloads) = payloads.map .ok := by
  induction payloads generalizing fuel with
  | nil => cases fuel <;> simp [framesWithin, framed, FrameIter.next]
  | cons payload rest inductionHypothesis =>
    rw [framed_cons] at enough ⊢
    simp only [List.length_append, u32Bytes_length] at enough
    obtain ⟨fuel, rfl⟩ : ∃ remaining, fuel = remaining + 1 := ⟨fuel - 1, by omega⟩
    have first := next_framed payload (framed rest) (fit payload List.mem_cons_self)
    rw [framesWithin, first, List.map_cons]
    have remaining := inductionHypothesis
      (fun later member => fit later (List.mem_cons_of_mem _ member)) fuel (by omega)
    exact congrArg (Except.ok payload :: ·) remaining

/-- Iterating over framed payloads yields exactly the payloads. -/
theorem iterFrames_framed (payloads : List Bytes)
    (fit : ∀ payload ∈ payloads, payload.length < u32Bound) :
    iterFrames (framed payloads) = payloads.map .ok :=
  framesWithin_framed payloads fit _ (Nat.le_refl _)

/-- Calling the iterator until it returns nothing yields these items. -/
inductive Exhausts : Bytes → List (Except ChunkError Bytes) → Prop
  | done {data : Bytes} (ended : FrameIter.next data = none) : Exhausts data []
  | item {data rest : Bytes} {first : Except ChunkError Bytes}
      {later : List (Except ChunkError Bytes)}
      (yields : FrameIter.next data = some (first, rest)) (remaining : Exhausts rest later) :
      Exhausts data (first :: later)

/-- A yielded frame stood at the front of the data, and what is left follows it. -/
theorem next_ok {data rest payload : Bytes} (yields : FrameIter.next data = some (.ok payload, rest)) :
    data = u32Bytes payload.length ++ payload ++ rest ∧ payload.length < u32Bound := by
  match data with
  | [] => cases yields
  | [_] | [_, _] | [_, _, _] => cases yields
  | b₀ :: b₁ :: b₂ :: b₃ :: behind =>
    rw [FrameIter.next] at yields
    split at yields
    · cases yields
    · rename_i within
      obtain ⟨rfl, rfl⟩ : behind.take (u32Value b₀ b₁ b₂ b₃) = payload ∧
          behind.drop (u32Value b₀ b₁ b₂ b₃) = rest := by simpa using yields
      have length : (behind.take (u32Value b₀ b₁ b₂ b₃)).length = u32Value b₀ b₁ b₂ b₃ :=
        List.length_take_of_le (Nat.le_of_not_lt within)
      rw [length, u32Bytes_value, List.append_assoc, List.take_append_drop]
      exact ⟨rfl, u32Value_lt b₀ b₁ b₂ b₃⟩

/-- A complaint drops the rest of the data. -/
theorem next_error {data rest : Bytes} {error : ChunkError}
    (yields : FrameIter.next data = some (.error error, rest)) : data ≠ [] ∧ rest = [] := by
  match data with
  | [] => cases yields
  | [_] | [_, _] | [_, _, _] => cases yields; exact ⟨List.cons_ne_nil _ _, rfl⟩
  | b₀ :: b₁ :: b₂ :: b₃ :: behind =>
    rw [FrameIter.next] at yields
    split at yields
    · cases yields
      exact ⟨List.cons_ne_nil _ _, rfl⟩
    · cases yields

/-- The iterator is done only with an empty buffer. -/
theorem next_none {data : Bytes} (ended : FrameIter.next data = none) : data = [] := by
  match data with
  | [] => rfl
  | [_] | [_, _] | [_, _, _] => cases ended
  | b₀ :: b₁ :: b₂ :: b₃ :: behind =>
    rw [FrameIter.next] at ended
    split at ended <;> cases ended

/-- Every call that yields something consumes data. -/
theorem next_shorter {data rest : Bytes} {item : Except ChunkError Bytes}
    (yields : FrameIter.next data = some (item, rest)) : rest.length < data.length := by
  cases item with
  | error error =>
    obtain ⟨nonempty, rfl⟩ := next_error yields
    exact List.length_pos_iff.mpr nonempty
  | ok payload =>
    obtain ⟨rfl, -⟩ := next_ok yields
    simp only [List.length_append, u32Bytes_length]
    omega

/-- With as much fuel as there are bytes the frames go on until there is no next one. -/
theorem framesWithin_exhausts (fuel : Nat) (data : Bytes) (enough : data.length ≤ fuel) :
    Exhausts data (framesWithin fuel data) := by
  induction fuel generalizing data with
  | zero =>
    rw [List.length_eq_zero_iff.mp (Nat.le_zero.mp enough)]
    exact .done rfl
  | succ fuel inductionHypothesis =>
    rw [framesWithin]
    split
    · rename_i ended
      exact .done ended
    · rename_i item rest yields
      have shorter := next_shorter yields
      exact .item yields (inductionHypothesis rest (by omega))

/-- Iteration ends on every buffer. -/
theorem iterFrames_exhausts (data : Bytes) : Exhausts data (iterFrames data) :=
  framesWithin_exhausts _ data (Nat.le_refl _)

/-- What the iterator yields: the frames of a front of the buffer and, unless that
is all of it, one complaint about the rest. -/
theorem Exhausts.splits {data : Bytes} {items : List (Except ChunkError Bytes)}
    (exhausts : Exhausts data items) :
    ∃ payloads, (∀ payload ∈ payloads, payload.length < u32Bound) ∧
      ((items = payloads.map .ok ∧ framed payloads = data) ∨
        ∃ tail error, items = payloads.map .ok ++ [.error error] ∧
          data = framed payloads ++ tail ∧ FrameIter.next tail = some (.error error, [])) := by
  induction exhausts with
  | done ended => exact ⟨[], by simp, .inl ⟨rfl, (next_none ended).symm⟩⟩
  | @item data rest first later yields remaining inductionHypothesis =>
    cases first with
    | error error =>
      obtain ⟨-, rfl⟩ := next_error yields
      cases remaining with
      | done ended => exact ⟨[], by simp, .inr ⟨data, error, rfl, rfl, yields⟩⟩
      | item more _ => cases more
    | ok payload =>
      obtain ⟨rfl, fits⟩ := next_ok yields
      obtain ⟨payloads, fit, outcome⟩ := inductionHypothesis
      refine ⟨payload :: payloads, List.forall_mem_cons.mpr ⟨fits, fit⟩, ?_⟩
      rcases outcome with ⟨rfl, rfl⟩ | ⟨tail, error, rfl, rfl, malformed⟩
      · exact .inl ⟨rfl, framed_cons payload payloads⟩
      · refine .inr ⟨tail, error, rfl, ?_, malformed⟩
        rw [framed_cons, List.append_assoc _ (framed payloads)]

/-- A tail that is complained about begins with no frame. -/
theorem next_error_maximal {tail rest : Bytes} {error : ChunkError}
    (malformed : FrameIter.next tail = some (.error error, rest)) (payload later : Bytes)
    (fits : payload.length < u32Bound) : tail ≠ writeLenPrefixed [] payload ++ later := by
  rintro rfl
  have yields : FrameIter.next (writeLenPrefixed [] payload ++ later) = some (.ok payload, later) :=
    next_framed payload later fits
  rw [yields] at malformed
  cases malformed

end Sillage.Chunk
