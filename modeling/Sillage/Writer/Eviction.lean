import Sillage.Writer.WriteOnce

/-!
# Whom the cap on open chunks evicts

When the cap is reached and the chunk of an arriving message is not open, the oldest
open chunk is sealed before it is known whether the message's chunk will be opened.
Here is when that seals an older chunk in favour of one that is opened.
-/

namespace Sillage

open LittleEndian Directory OpenChunk Tracks

namespace Chunker

/-- The watermark once a slot was seen. -/
def raised (s : Chunker) (slot : Nat) : Nat := s.watermarkSlot.elim slot (max · slot)

/-- The message is tolerated, its chunk is not open and the cap is reached. -/
structure MakesRoom (s : Chunker) (a : Arrival) : Prop where
  fits : a.slot + s.cfg.outOfOrderToleranceSlots < u64Bound
  tolerated : s.raised a.slot ≤ a.slot + s.cfg.outOfOrderToleranceSlots
  unopened : s.open[a.slot / s.cfg.slotsPerChunk]? = none
  full : s.cfg.maxOpenChunks ≤ s.open.size

/-- The oldest open chunk is older than the message's, which does not lie on disk and
ends at a 64-bit slot. -/
structure Yields (s : Chunker) (a : Arrival) : Prop where
  older : ∃ oldest, s.open.keys.head? = some oldest ∧ oldest < a.slot / s.cfg.slotsPerChunk
  free : ¬ OnDisk s.cfg s.baseDir (a.slot / s.cfg.slotsPerChunk)
  range : a.slot / s.cfg.slotsPerChunk * s.cfg.slotsPerChunk + s.cfg.slotsPerChunk < u64Bound

/-- Whether a message has to make room is a matter of comparisons and of one look-up. -/
theorem makesRoom_iff (s : Chunker) (a : Arrival) : MakesRoom s a ↔
    a.slot + s.cfg.outOfOrderToleranceSlots < u64Bound ∧
      s.raised a.slot ≤ a.slot + s.cfg.outOfOrderToleranceSlots ∧
      (s.open[a.slot / s.cfg.slotsPerChunk]?).isNone ∧ s.cfg.maxOpenChunks ≤ s.open.size := by
  constructor
  · rintro ⟨fits, tolerated, unopened, full⟩
    exact ⟨fits, tolerated, Option.isNone_iff_eq_none.mpr unopened, full⟩
  · rintro ⟨fits, tolerated, unopened, full⟩
    exact ⟨fits, tolerated, Option.isNone_iff_eq_none.mp unopened, full⟩

/-- Whether the oldest open chunk yields to a message, read off the first of the open chunks. -/
theorem yields_iff (s : Chunker) (a : Arrival) : Yields s a ↔
    (s.open.keys.head?.any (fun oldest => decide (oldest < a.slot / s.cfg.slotsPerChunk))) ∧
      ¬ OnDisk s.cfg s.baseDir (a.slot / s.cfg.slotsPerChunk) ∧
      a.slot / s.cfg.slotsPerChunk * s.cfg.slotsPerChunk + s.cfg.slotsPerChunk < u64Bound := by
  rw [Option.any_eq_true]
  constructor
  · rintro ⟨⟨oldest, first, less⟩, free, range⟩
    exact ⟨⟨oldest, first, decide_eq_true less⟩, free, range⟩
  · rintro ⟨⟨oldest, first, less⟩, free, range⟩
    exact ⟨⟨oldest, first, of_decide_eq_true less⟩, free, range⟩

/-- Whether a message has to make room can be computed. -/
instance (s : Chunker) (a : Arrival) : Decidable (MakesRoom s a) :=
  decidable_of_iff _ (makesRoom_iff s a).symm

/-- Whether the oldest open chunk yields to a message can be computed. -/
instance (s : Chunker) (a : Arrival) : Decidable (Yields s a) :=
  decidable_of_iff _ (yields_iff s a).symm

/-- Every chunk that is sealed because of the cap while the message is taken in is older
than the message's chunk, and that chunk is opened afterwards. -/
def ClosesOlder (k : Codecs) (s : Chunker) (a : Arrival) : Prop :=
  ∀ earlier moment later idx, (ingestTraced k a s).trail = earlier ++ moment :: later →
    moment.1 = .sealed idx "cap-reached" →
    idx < a.slot / s.cfg.slotsPerChunk ∧
      ∃ next ∈ later, next.1 = .opened (a.slot / s.cfg.slotsPerChunk)

/-- A change that is neither an opening nor a seal because of the cap. -/
def Harmless (event : Event) : Prop :=
  (∀ idx, event ≠ .opened idx) ∧ ∀ idx, event ≠ .sealed idx "cap-reached"

/-- The rest of taking in a message, once its chunk was asked for. -/
def finish (k : Codecs) (a : Arrival) (watermarkChunk chunkIdx : Nat) (s : Chunker) :
    Traced Moment Fault (Verdict × Chunker) := do
  let taken ← appendTraced k chunkIdx a s
  let toSeal ← Traced.ofExcept (behind watermarkChunk taken.2.open.keys)
  let s ← sealAllTraced k "watermark" toSeal taken.2
  return (taken.1, s)

variable {k : Codecs} {cfg : WriterConfig} {s s' : Chunker} {a : Arrival}

/-- Sealing for another reason than the cap is harmless. -/
theorem sealAllTraced_harmless {reason : String} (other : reason ≠ "cap-reached")
    {indices : List Nat} : ∀ moment ∈ (sealAllTraced k reason indices s).trail,
      Harmless moment.1 := by
  induction indices generalizing s with
  | nil =>
    intro moment member
    cases member
  | cons idx rest inductionHypothesis =>
    intro moment member
    rcases Traced.mem_trail_bind member with here | ⟨s₁, -, later⟩
    · cases done : sealChunk k reason idx s with
      | error fault =>
        rw [sealTraced, done] at here
        cases here
      | ok s₁ =>
        rw [sealTraced, done] at here
        obtain rfl := List.mem_singleton.mp here
        exact ⟨fun i same => (by cases same), fun i same => other (Event.sealed.inj same).2⟩
    · exact inductionHypothesis moment later

/-- Appending the message and advancing the watermark is harmless. -/
theorem finish_harmless (mark idx : Nat) :
    ∀ moment ∈ (finish k a mark idx s).trail, Harmless moment.1 := by
  intro moment member
  rcases Traced.mem_trail_bind member with here | ⟨taken, -, member⟩
  · rw [appendTraced] at here
    cases found : s.open[idx]? with
    | none =>
      rw [found] at here
      cases here
    | some chunk =>
      rw [found] at here
      rcases Traced.mem_trail_bind here with impossible | ⟨chunk', -, here⟩
      · cases impossible
      · obtain rfl := List.mem_singleton.mp here
        exact ⟨fun i same => (by cases same), fun i same => by cases same⟩
  · rcases Traced.mem_trail_bind member with impossible | ⟨toSeal, -, member⟩
    · cases impossible
    · rcases Traced.mem_trail_bind member with here | ⟨s₁, -, impossible⟩
      · exact sealAllTraced_harmless (by decide) moment here
      · cases impossible

/-- Taking in a message raises the watermark, and if the message is tolerated, asks for
its chunk. -/
theorem ingestTraced_trail (positive : 0 < s.cfg.slotsPerChunk) (a : Arrival) :
    (ingestTraced k a s).trail = (.advanced a.slot, advance a.slot s) ::
      if a.slot + s.cfg.outOfOrderToleranceSlots < u64Bound ∧
          s.raised a.slot ≤ a.slot + s.cfg.outOfOrderToleranceSlots then
        (ensureOpenTraced k a.now (a.slot / s.cfg.slotsPerChunk) (advance a.slot s) >>=
          finish k a (s.raised a.slot / s.cfg.slotsPerChunk)
            (a.slot / s.cfg.slotsPerChunk)).trail
      else [] := by
  have divides : ∀ b, checkedDiv b s.cfg.slotsPerChunk = .ok (b / s.cfg.slotsPerChunk) :=
    fun b => if_neg (Nat.ne_of_gt positive)
  have start : (ingestTraced k a s).trail = (.advanced a.slot, advance a.slot s) ::
      (Traced.ofExcept (checkedDiv (s.raised a.slot) s.cfg.slotsPerChunk) >>= fun mark =>
        Traced.ofExcept (checkedDiv a.slot s.cfg.slotsPerChunk) >>= fun idx =>
        Traced.ofExcept (checkedAdd a.slot s.cfg.outOfOrderToleranceSlots) >>= fun reach =>
        if reach < s.raised a.slot then pure (.olderThanTolerance, advance a.slot s)
        else ensureOpenTraced k a.now idx (advance a.slot s) >>= finish k a mark idx).trail := rfl
  rw [divides, divides, Traced.ofExcept_bind, Traced.ofExcept_bind] at start
  rw [start, checkedAdd]
  split
  · next fits =>
    rw [Traced.ofExcept_bind]
    by_cases late : a.slot + s.cfg.outOfOrderToleranceSlots < s.raised a.slot
    · rw [if_pos late, if_neg (fun both => absurd both.2 (Nat.not_le_of_lt late))]
      rfl
    · rw [if_neg late, if_pos ⟨fits, Nat.le_of_not_lt late⟩]
  · next beyond =>
    rw [Traced.trail_bind_error rfl, if_neg (fun both => beyond both.1)]
    rfl

/-- On a sound chunker at its cap, asking for a chunk that is not open seals the oldest
open one and then tries to open the chunk. -/
theorem ensureOpenTraced_full (capped : 0 < cfg.maxOpenChunks) (sound : Sound cfg s) {idx : Nat}
    (unopened : s.open[idx]? = none) (full : cfg.maxOpenChunks ≤ s.open.size) (now : Nat) :
    ∃ oldest s₁, s.open.keys.head? = some oldest ∧ oldest ≠ idx ∧
      sealChunk k "cap-reached" oldest s = .ok s₁ ∧
      ensureOpenTraced k now idx s =
        Traced.note (.sealed oldest "cap-reached", s₁) >>= fun _ => openTraced now idx s₁ := by
  have closed : ¬ s.open.contains idx = true := by rw [contains_iff.mpr unopened]; decide
  cases listed : s.open.keys with
  | nil =>
    have empty : s.open.size = 0 := by rw [← Std.TreeMap.length_keys, listed]; rfl
    omega
  | cons oldest later =>
    have isOpen : oldest ∈ s.open := by rw [← Std.TreeMap.mem_keys, listed]; simp
    have distinct : oldest ≠ idx := by
      rintro rfl
      exact closed (Std.TreeMap.contains_iff_mem.mpr isOpen)
    obtain ⟨chunk, found⟩ := Option.isSome_iff_exists.mp
      (Std.TreeMap.mem_iff_isSome_getElem?.mp isOpen)
    obtain ⟨-, written, held⟩ := sound.named oldest chunk found
    obtain ⟨s₁, done⟩ : ∃ s₁, sealChunk k "cap-reached" oldest s = .ok s₁ := by
      rw [sealChunk, found]
      simp [held]
    refine ⟨oldest, s₁, rfl, distinct, done, ?_⟩
    have smaller := size_sealChunk done
    have room : makeRoomTraced k idx s.open.size s₁ = pure s₁ := by
      obtain ⟨-, -, -, -, -, sameCfg, -, -⟩ := sealChunk_ok done
      have below := sound.capped
      rw [← smaller, makeRoomTraced, sameCfg, sound.sameCfg, if_neg (by omega)]
    have loop : makeRoomTraced k idx (s.open.size + 1) s =
        Traced.note (.sealed oldest "cap-reached", s₁) >>= fun _ =>
          makeRoomTraced k idx s.open.size s₁ := by
      rw [makeRoomTraced, sound.sameCfg, if_pos full, listed]
      dsimp only [List.head?_cons]
      rw [if_neg distinct, sealTraced, done]
      rfl
    rw [ensureOpenTraced, if_neg closed, loop, room]
    rfl

/-- Opening a chunk does nothing else. -/
theorem openTraced_only {idx now : Nat} :
    ∀ moment ∈ (openTraced now idx s).trail, moment.1 = .opened idx := by
  intro moment member
  rcases Traced.mem_trail_bind member with impossible | ⟨after, -, member⟩
  · cases impossible
  · split at member
    · cases member
    · obtain rfl := List.mem_singleton.mp member
      rfl

/-- A chunk that is not open is opened exactly if it does not lie on disk and its range
fits. -/
theorem openTraced_opens {idx : Nat} (unopened : s.open[idx]? = none) (now : Nat) :
    (∃ next ∈ (openTraced now idx s).trail, next.1 = .opened idx) ↔
      ¬ OnDisk s.cfg s.baseDir idx ∧
        idx * s.cfg.slotsPerChunk + s.cfg.slotsPerChunk < u64Bound := by
  have closed : ¬ s.open.contains idx = true := by rw [contains_iff.mpr unopened]; decide
  by_cases range : idx * s.cfg.slotsPerChunk + s.cfg.slotsPerChunk < u64Bound
  · have start : checkedMul u64Bound idx s.cfg.slotsPerChunk = .ok (idx * s.cfg.slotsPerChunk) :=
      if_pos (Nat.lt_of_le_of_lt (Nat.le_add_right _ _) range)
    have stop : checkedAdd (idx * s.cfg.slotsPerChunk) s.cfg.slotsPerChunk =
        .ok (idx * s.cfg.slotsPerChunk + s.cfg.slotsPerChunk) := if_pos range
    have named : ∀ ext, (OpenChunk.fresh s.stream (idx * s.cfg.slotsPerChunk)
        (idx * s.cfg.slotsPerChunk + s.cfg.slotsPerChunk) now).file ext =
          chunkName s.cfg idx ext := fun _ => rfl
    by_cases onDisk : OnDisk s.cfg s.baseDir idx
    · have kept : openChunk now idx s = .ok s := by
        rw [openChunk, if_neg closed, start]
        simp only [bind, Except.bind, stop, named]
        exact if_pos onDisk
      simp [openTraced, kept, onDisk]
    · have made : openChunk now idx s = .ok { s with
          baseDir := FileStep.apply s.baseDir (.create (chunkName s.cfg idx "zst.partial"))
          «open» := s.open.insert idx (OpenChunk.fresh s.stream (idx * s.cfg.slotsPerChunk)
            (idx * s.cfg.slotsPerChunk + s.cfg.slotsPerChunk) now) } := by
        rw [openChunk, if_neg closed, start]
        simp only [bind, Except.bind, stop, named]
        exact if_neg onDisk
      refine ⟨fun _ => ⟨onDisk, range⟩, fun _ => ?_⟩
      rw [openTraced, made, Traced.ofExcept_bind, if_neg ?_]
      · exact ⟨_, List.mem_singleton_self _, rfl⟩
      · rw [contains_iff.mpr unopened, Std.TreeMap.contains_insert_self]
        exact Bool.false_ne_true
  · refine ⟨?_, fun both => absurd both.2 range⟩
    rintro ⟨next, member, -⟩
    rcases Traced.mem_trail_bind member with impossible | ⟨after, done, -⟩
    · cases impossible
    · rw [Traced.outcome_ofExcept, openChunk, if_neg closed] at done
      obtain ⟨startSlot, multiplied, done⟩ := ok_of_bind done
      obtain ⟨endSlot, added, -⟩ := ok_of_bind done
      rcases checkedMul_cases idx s.cfg.slotsPerChunk with fits | beyond
      · obtain rfl := Except.ok.inj (fits.symm.trans multiplied)
        rw [checkedAdd, if_neg range] at added
        cases added
      · cases beyond.symm.trans multiplied

/-- Unless the cap is reached and the chunk is not open, nothing is sealed because of the
cap. -/
theorem ensureOpenTraced_room {idx : Nat}
    (free : s.open[idx]? ≠ none ∨ s.open.size < s.cfg.maxOpenChunks) (now : Nat) :
    ∀ moment ∈ (ensureOpenTraced k now idx s).trail,
      ∀ i, moment.1 ≠ .sealed i "cap-reached" := by
  intro moment member i same
  rw [ensureOpenTraced] at member
  split at member
  · cases member
  · next closed =>
    have room := free.resolve_left (fun isOpen =>
      isOpen (contains_iff.mp (Bool.eq_false_iff.mpr closed)))
    rw [makeRoomTraced, if_neg (Nat.not_le_of_lt room)] at member
    rw [openTraced_only moment member] at same
    cases same

/-- Sealing another chunk leaves it open which files a chunk has on disk. -/
theorem onDisk_sealChunk (positive : 0 < cfg.slotsPerChunk) (sound : Sound cfg s) {idx i : Nat}
    (distinct : i ≠ idx) {reason : String} (done : sealChunk k reason i s = .ok s') :
    OnDisk cfg s'.baseDir idx ↔ OnDisk cfg s.baseDir idx := by
  obtain ⟨chunk, written, found, -, -, -, -, dir⟩ := sealChunk_ok done
  have kept : ∀ ext, (perform s.baseDir (chunk.sealSteps k s.stream written reason)).lookup
      (chunkName cfg idx ext) = s.baseDir.lookup (chunkName cfg idx ext) :=
    lookup_seal_other positive (sound.named i chunk found).1 distinct.symm s.stream written reason
  rw [OnDisk, OnDisk, dir, kept, kept]

/-- Unless a message has to make room, nothing is sealed because of the cap. -/
theorem ingestTraced_room (positive : 0 < s.cfg.slotsPerChunk) {a : Arrival}
    (free : ¬ MakesRoom s a) : ∀ moment ∈ (ingestTraced k a s).trail,
      ∀ idx, moment.1 ≠ .sealed idx "cap-reached" := by
  intro moment member idx isSealed
  rw [ingestTraced_trail positive a] at member
  rcases List.mem_cons.mp member with rfl | member
  · cases isSealed
  · split at member
    · next tolerated =>
      rcases Traced.mem_trail_bind member with here | ⟨s₁, -, later⟩
      · refine ensureOpenTraced_room ?_ a.now moment here idx isSealed
        by_contra blocked
        obtain ⟨unopened, full⟩ := not_or.mp blocked
        exact free ⟨tolerated.1, tolerated.2, not_not.mp unopened, Nat.le_of_not_lt full⟩
      · exact (finish_harmless _ _ moment later).2 idx isSealed
    · cases member

/-- Taking in one message: the chunks sealed because of the cap are older and make place
for the message's chunk exactly if, whenever room has to be made, the oldest open chunk is
older and the message's chunk can be opened. -/
theorem closesOlder_iff (positive : 0 < cfg.slotsPerChunk) (capped : 0 < cfg.maxOpenChunks)
    (sound : Sound cfg s) (a : Arrival) :
    ClosesOlder k s a ↔ (MakesRoom s a → Yields s a) := by
  have sameCfg := sound.sameCfg
  have soundAfter : Sound cfg (advance a.slot s) := sound.change (.advanced (k := k) a.slot)
  have start := ingestTraced_trail (k := k) (sameCfg ▸ positive : 0 < s.cfg.slotsPerChunk) a
  by_cases room : MakesRoom s a
  · obtain ⟨fits, tolerated, unopened, full⟩ := room
    obtain ⟨oldest, s₁, first, distinct, done, asked⟩ :=
      ensureOpenTraced_full (k := k) capped soundAfter unopened (sameCfg ▸ full) a.now
    obtain ⟨chunk, written, found, -, sameStream, sameCfg₁, opened, -⟩ := sealChunk_ok done
    have unopened₁ : s₁.open[a.slot / s.cfg.slotsPerChunk]? = none := by
      rw [opened, Std.TreeMap.getElem?_erase]
      split
      · rfl
      · exact unopened
    have onDisk : OnDisk s.cfg s₁.baseDir (a.slot / s.cfg.slotsPerChunk) ↔
        OnDisk s.cfg s.baseDir (a.slot / s.cfg.slotsPerChunk) := by
      rw [sameCfg] at distinct ⊢
      exact onDisk_sealChunk positive soundAfter distinct done
    have opens := openTraced_opens unopened₁ a.now
    rw [sameCfg₁, show (advance a.slot s).cfg = s.cfg from rfl, onDisk] at opens
    rw [if_pos ⟨fits, tolerated⟩, asked] at start
    generalize tailed : (openTraced a.now (a.slot / s.cfg.slotsPerChunk) s₁ >>=
      finish k a (s.raised a.slot / s.cfg.slotsPerChunk)
        (a.slot / s.cfg.slotsPerChunk)).trail = tail
    replace start : (ingestTraced k a s).trail = (.advanced a.slot, advance a.slot s) ::
        (.sealed oldest "cap-reached", s₁) :: tail := by
      rw [start, ← tailed]
      rfl
    have kinds : ∀ moment ∈ tail,
        moment ∈ (openTraced a.now (a.slot / s.cfg.slotsPerChunk) s₁).trail ∨
          Harmless moment.1 := by
      intro moment member
      rw [← tailed] at member
      rcases Traced.mem_trail_bind member with here | ⟨s₂, -, later⟩
      · exact .inl here
      · exact .inr (finish_harmless _ _ moment later)
    constructor
    · intro closes _
      obtain ⟨less, next, member, isOpening⟩ := closes [(.advanced a.slot, advance a.slot s)] _
        tail oldest start rfl
      rcases kinds next member with here | harmless
      · obtain ⟨free, range⟩ := opens.mp ⟨next, here, isOpening⟩
        exact ⟨⟨oldest, first, less⟩, free, range⟩
      · exact absurd isOpening (harmless.1 _)
    · intro yields earlier moment later idx split isSealed
      obtain ⟨⟨oldest', first', less⟩, free, range⟩ := yields ⟨fits, tolerated, unopened, full⟩
      obtain rfl : oldest = oldest' := Option.some.inj (first.symm.trans first')
      rw [start] at split
      -- only the second moment is a seal because of the cap
      rcases earlier with _ | ⟨_, _ | ⟨_, rest⟩⟩
      · obtain ⟨rfl, -⟩ := List.cons.inj split
        cases isSealed
      · obtain ⟨-, split⟩ := List.cons.inj split
        obtain ⟨rfl, rfl⟩ := List.cons.inj split
        obtain ⟨rfl, -⟩ := Event.sealed.inj isSealed
        obtain ⟨next, here, isOpening⟩ := opens.mpr ⟨free, range⟩
        refine ⟨less, next, ?_, isOpening⟩
        rw [← tailed]
        exact Traced.mem_trail_left here _
      · obtain ⟨-, split⟩ := List.cons.inj split
        obtain ⟨-, split⟩ := List.cons.inj split
        have member : moment ∈ tail := split ▸ List.mem_append_right _ List.mem_cons_self
        rcases kinds moment member with here | harmless
        · rw [openTraced_only moment here] at isSealed
          cases isSealed
        · exact absurd isSealed (harmless.2 idx)
  · refine ⟨fun _ isRoom => absurd isRoom room, fun _ earlier moment later idx split isSealed => ?_⟩
    have member : moment ∈ (ingestTraced k a s).trail :=
      split ▸ List.mem_append_right _ List.mem_cons_self
    exact absurd isSealed
      (ingestTraced_room (sameCfg ▸ positive : 0 < s.cfg.slotsPerChunk) room moment member idx)

/-- In any run of calls over any directory, every message that is taken in makes room by
sealing older chunks in favour of its own exactly if, whenever it has to make room, the
oldest open chunk is older than its own, which does not lie on disk and ends at a 64-bit
slot. -/
theorem cap_closes_older_iff (k : Codecs) (stream : Stream) (cfg : WriterConfig)
    (positive : 1 ≤ cfg.slotsPerChunk) (capped : 1 ≤ cfg.maxOpenChunks) (dir : Dir)
    (cs : List Call) :
    (∀ before a later s, cs = before ++ .op (.ingest a) :: later →
      calls k (new stream cfg dir) before = .ok s → ClosesOlder k s a) ↔
    (∀ before a later s, cs = before ++ .op (.ingest a) :: later →
      calls k (new stream cfg dir) before = .ok s → MakesRoom s a → Yields s a) := by
  have each : ∀ before a s, calls k (new stream cfg dir) before = .ok s →
      (ClosesOlder k s a ↔ (MakesRoom s a → Yields s a)) := by
    intro before a s done
    have sound : Sound cfg s := (steady_calls positive capped (sound_new stream cfg dir)
      before).sound (sound_new stream cfg dir) ((outcome_callsTraced before).trans done)
    exact closesOlder_iff positive capped sound a
  constructor
  · intro closes before a later s split done
    exact (each before a s done).mp (closes before a later s split done)
  · intro yields before a later s split done
    exact (each before a s done).mpr (yields before a later s split done)

/-- With a cap of one, a message of the second chunk makes room by sealing the first. -/
theorem cap_closes_older_iff_one :
    let message (slot : Nat) : Arrival := ⟨0, ⟨slot, ⟨[], none, none, []⟩⟩, slot⟩
    (∀ before a later s, [Call.op (.ingest (message 8)), .op (.ingest (message 11))] =
        before ++ .op (.ingest a) :: later →
      calls PlainCodecs.plain (new .block ⟨10, 40, 1⟩ ∅) before = .ok s →
      ClosesOlder PlainCodecs.plain s a) ∧
    ∃ s, calls PlainCodecs.plain (new .block ⟨10, 40, 1⟩ ∅) [.op (.ingest (message 8))] = .ok s ∧
      MakesRoom s (message 11) ∧
      (ingestTraced PlainCodecs.plain (message 11) s).trail.map Prod.fst =
        [.advanced 11, .sealed 0 "cap-reached", .opened 1, .appended 1] := by
  intro message
  have reached : (calls PlainCodecs.plain (new .block ⟨10, 40, 1⟩ ∅)
      [.op (.ingest (message 8))]).toOption.any (fun s => decide
        (MakesRoom s (message 11) ∧ Yields s (message 11) ∧
          (ingestTraced PlainCodecs.plain (message 11) s).trail.map Prod.fst =
            [.advanced 11, .sealed 0 "cap-reached", .opened 1, .appended 1])) = true := by
    decide +kernel
  obtain ⟨full, isFull, holds⟩ := (Option.any_eq_true _ _).mp reached
  obtain ⟨room, yields, events⟩ := of_decide_eq_true holds
  have done : calls PlainCodecs.plain (new .block ⟨10, 40, 1⟩ ∅)
      [.op (.ingest (message 8))] = .ok full := by
    cases run : calls PlainCodecs.plain (new .block ⟨10, 40, 1⟩ ∅)
        [.op (.ingest (message 8))] with
    | error fault => simp [run, Except.toOption] at isFull
    | ok s => simpa [run, Except.toOption] using isFull
  refine ⟨(cap_closes_older_iff PlainCodecs.plain .block ⟨10, 40, 1⟩ (by decide) (by decide) ∅
    _).mpr ?_, full, done, room, events⟩
  intro before a later s split reaches makesRoom
  rcases before with _ | ⟨_, _ | ⟨_, rest⟩⟩
  · obtain rfl := Except.ok.inj reaches
    exact absurd makesRoom.full (by decide)
  · obtain ⟨rfl, tails⟩ := List.cons.inj split
    obtain ⟨isLast, -⟩ := List.cons.inj tails
    obtain rfl : message 11 = a := Op.ingest.inj (Call.op.inj isLast)
    obtain rfl := Except.ok.inj (done.symm.trans reaches)
    exact yields
  · have short := congrArg List.length split
    simp at short
/-- With a cap of one, a message of the chunk before the live one seals the live chunk. -/
theorem late_message_closes_newer :
    let message (slot : Nat) : Arrival := ⟨0, ⟨slot, ⟨[], none, none, []⟩⟩, slot⟩
    ¬ ∀ before a later s,
      [Call.op (.ingest (message 1000)), .op (.ingest (message 950))] =
        before ++ .op (.ingest a) :: later →
      calls PlainCodecs.plain (new .block ⟨1000, 100, 1⟩ ∅) before = .ok s →
      ClosesOlder PlainCodecs.plain s a := by
  intro message closes
  have trailed : ((calls PlainCodecs.plain (new .block ⟨1000, 100, 1⟩ ∅)
      [.op (.ingest (message 1000))]).toOption.map (fun s =>
        (ingestTraced PlainCodecs.plain (message 950) s).trail.map Prod.fst)) =
      some [.advanced 950, .sealed 1 "cap-reached", .opened 0, .appended 0] := by
    decide +kernel
  cases done : calls PlainCodecs.plain (new .block ⟨1000, 100, 1⟩ ∅)
      [.op (.ingest (message 1000))] with
  | error fault => simp [done, Except.toOption] at trailed
  | ok s =>
    rw [done] at trailed
    have events : (ingestTraced PlainCodecs.plain (message 950) s).trail.map Prod.fst =
        [.advanced 950, .sealed 1 "cap-reached", .opened 0, .appended 0] :=
      Option.some.inj trailed
    obtain ⟨first, rest, split, -, events⟩ := List.map_eq_cons_iff.mp events
    obtain ⟨second, later, rfl, isSealed, -⟩ := List.map_eq_cons_iff.mp events
    have less := (closes [.op (.ingest (message 1000))] (message 950) [] s rfl done [first] second
      later 1 split isSealed).1
    have sameCfg : s.cfg = ⟨1000, 100, 1⟩ := by
      have sound := sound_new .block ⟨1000, 100, 1⟩ ∅
      exact ((steady_calls (by decide) (by decide) sound _).sound sound
        ((outcome_callsTraced _).trans done)).sameCfg
    rw [sameCfg] at less
    exact absurd less (by decide)

end Chunker

end Sillage
