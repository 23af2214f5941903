import Sillage.Common.PlainCodecs
import Sillage.Writer.Runs

/-!
# What the tolerance and the idle seal keep

While two chunks may be open and the tolerance does not exceed a chunk, neither the
cap nor the watermark ever seals a chunk that a message within the tolerance can
still reach: every chunk they seal ends at least one whole chunk below the
watermark's. A tick obeys no such bound.
-/

namespace Sillage

open LittleEndian Directory OpenChunk Ledger Chunker

variable {k : Codecs} {stream : Stream} {cfg : WriterConfig} {l : Ledger}

/-- The invariant of a lane: the open chunks are the watermark's and the one before
it, and every other chunk with messages is marked or lies further behind. -/
structure Kept (cfg : WriterConfig) (earlier : List Arrival) (marked : Set Nat) (l : Ledger)
    (_ : List Op) : Prop where
  seen : ∀ b ∈ earlier, ∃ w, l.watermark = some w ∧ b.slot ≤ w
  reached : ∀ w, l.watermark = some w → ∃ b ∈ earlier, b.slot = w
  near : ∀ i ∈ l.opened, ∃ w, l.watermark = some w ∧
    w / cfg.slotsPerChunk < i + sealLookaheadChunks ∧ i ≤ w / cfg.slotsPerChunk
  far : ∀ i, l.contents i ≠ [] → i ∉ l.opened →
    i ∈ marked ∨ ∃ w, l.watermark = some w ∧ i + sealLookaheadChunks ≤ w / cfg.slotsPerChunk
  marks : ∀ i ∈ marked, i ∉ l.opened ∧ l.contents i ≠ []

/-- The watermark after a message is at or above its slot and every earlier
watermark. -/
theorem watermarkWith_above (slot : Nat) (l : Ledger) :
    slot ≤ l.watermarkWith slot ∧ (∀ w, l.watermark = some w → w ≤ l.watermarkWith slot) ∧
      (l.watermarkWith slot = slot ∨ l.watermark = some (l.watermarkWith slot)) := by
  cases known : l.watermark with
  | none => simp [watermarkWith, known]
  | some w =>
    simp only [watermarkWith, known, Option.elim_some, Option.some.injEq]
    refine ⟨le_max_right _ _, ?_, ?_⟩
    · rintro w' rfl
      exact le_max_left _ _
    · rcases max_choice w slot with first | second
      · exact .inr first.symm
      · exact .inl second

/-- The tolerance check sees the running maximum of the slots. -/
theorem late_iff {earlier : List Arrival} {marked : Set Nat} {ops : List Op} (a : Arrival)
    (kept : Kept cfg earlier marked l ops) :
    l.watermarkWith a.slot ≤ a.slot + cfg.outOfOrderToleranceSlots ↔
      inTolerance cfg earlier a = true := by
  simp only [inTolerance, List.all_eq_true, decide_eq_true_eq]
  obtain ⟨-, raised, attained⟩ := watermarkWith_above a.slot l
  constructor
  · intro inTime b member
    obtain ⟨w, known, below⟩ := kept.seen b member
    exact below.trans ((raised w known).trans inTime)
  · intro within
    rcases attained with own | old
    · omega
    · obtain ⟨b, member, same⟩ := kept.reached _ old
      exact same ▸ within b member

/-- A message within the tolerance reaches the chunk before the watermark's. -/
theorem reach_chunk (positive : 0 < cfg.slotsPerChunk)
    (tolerance : cfg.outOfOrderToleranceSlots ≤ cfg.slotsPerChunk) {slot watermark : Nat}
    (inTime : watermark ≤ slot + cfg.outOfOrderToleranceSlots) :
    watermark / cfg.slotsPerChunk ≤ slot / cfg.slotsPerChunk + 1 := by
  rw [← Nat.add_div_right slot positive]
  exact Nat.div_le_div_right (by omega)

/-- Making room for a message within the tolerance only seals chunks that lie two
chunks behind its watermark: the two open chunks would otherwise include its own. -/
theorem room_far (positive : 0 < cfg.slotsPerChunk)
    (tolerance : cfg.outOfOrderToleranceSlots ≤ cfg.slotsPerChunk)
    (capped : 2 ≤ cfg.maxOpenChunks) {earlier : List Arrival} {marked : Set Nat} {ops : List Op}
    (kept : Kept cfg earlier marked l ops) {a : Arrival} {left : Finset Nat}
    (inTime : l.watermarkWith a.slot ≤ a.slot + cfg.outOfOrderToleranceSlots)
    (unopened : a.slot / cfg.slotsPerChunk ∉ l.opened)
    (room : Room cfg.maxOpenChunks l.opened left) {i : Nat} (wasOpen : i ∈ l.opened)
    (notLeft : i ∉ left) :
    i + sealLookaheadChunks ≤ l.watermarkWith a.slot / cfg.slotsPerChunk := by
  have several : 1 < (l.opened.filter (i ≤ ·)).card :=
    lt_of_lt_of_le capped (room.needed i wasOpen notLeft)
  obtain ⟨j, among, distinct⟩ := Finset.exists_mem_ne several i
  obtain ⟨isOpen, above⟩ := Finset.mem_filter.mp among
  obtain ⟨w, known, nearI, -⟩ := kept.near i wasOpen
  obtain ⟨w', known', -, belowJ⟩ := kept.near j isOpen
  obtain rfl : w = w' := Option.some.inj (known.symm.trans known')
  obtain ⟨ownBelow, raised, -⟩ := watermarkWith_above a.slot l
  have raisedChunk := Nat.div_le_div_right (c := cfg.slotsPerChunk) (raised w known)
  have ownChunk := Nat.div_le_div_right (c := cfg.slotsPerChunk) ownBelow
  have reach := reach_chunk positive tolerance inTime
  simp only [sealLookaheadChunks] at nearI ⊢
  have next : j = i + 1 := by omega
  by_contra close
  have own : a.slot / cfg.slotsPerChunk = i ∨ a.slot / cfg.slotsPerChunk = j := by omega
  rcases own with same | same
  · exact unopened (same ▸ wasOpen)
  · exact unopened (same ▸ isOpen)

/-- The invariant accounts for every sealed chunk. -/
theorem kept_accounts (positive : 0 < cfg.slotsPerChunk)
    (tolerance : cfg.outOfOrderToleranceSlots ≤ cfg.slotsPerChunk)
    (capped : 2 ≤ cfg.maxOpenChunks) : Accounts cfg (Kept cfg) where
  late kept := late_iff _ kept
  marks kept := kept.marks
  sealed := by
    intro earlier marked l a rest kept inside unopened used
    rcases kept.far _ used unopened with isMarked | ⟨w, known, behind⟩
    · exact isMarked
    · have inTime := (late_iff a kept).mpr inside
      have reach := reach_chunk positive tolerance
        (((watermarkWith_above a.slot l).2.1 w known).trans inTime)
      simp only [sealLookaheadChunks] at behind
      omega
  tick := by
    intro earlier marked l now rest kept
    refine ⟨kept.seen, kept.reached, fun i isOpen => kept.near i (Finset.mem_filter.mp isOpen).1,
      ?_, ?_⟩
    · intro i full closed
      by_cases wasOpen : i ∈ l.opened
      · refine .inl (.inr ⟨wasOpen, ?_⟩)
        by_contra awake
        exact closed (Finset.mem_filter.mpr ⟨wasOpen, awake⟩)
      · rcases kept.far i full wasOpen with isMarked | behind
        · exact .inl (.inl isMarked)
        · exact .inr behind
    · rintro i (isMarked | ⟨wasOpen, isIdle⟩)
      · obtain ⟨closed, full⟩ := kept.marks i isMarked
        exact ⟨fun isOpen => closed (Finset.mem_filter.mp isOpen).1, full⟩
      · refine ⟨fun isOpen => (Finset.mem_filter.mp isOpen).2 isIdle, ?_⟩
        intro empty
        have impossible : idle now (l.contents i) = true := isIdle
        simp only [Ledger.tick] at empty
        simp [idle, empty] at impossible
  ingest := by
    intro earlier marked l a rest verdict l' kept takes
    obtain ⟨ownBelow, raised, attained⟩ := watermarkWith_above a.slot l
    have seen : ∀ b ∈ a :: earlier, ∃ w, some (l.watermarkWith a.slot) = some w ∧ b.slot ≤ w := by
      intro b member
      rcases List.mem_cons.mp member with rfl | old
      · exact ⟨_, rfl, ownBelow⟩
      · obtain ⟨w, known, below⟩ := kept.seen b old
        exact ⟨_, rfl, below.trans (raised w known)⟩
    have reached : ∀ w, some (l.watermarkWith a.slot) = some w → ∃ b ∈ a :: earlier, b.slot = w := by
      rintro w same
      obtain rfl := Option.some.inj same
      rcases attained with own | old
      · exact ⟨a, List.mem_cons_self, own.symm⟩
      · obtain ⟨b, member, slot⟩ := kept.reached _ old
        exact ⟨b, List.mem_cons_of_mem _ member, slot⟩
    have ownChunk := Nat.div_le_div_right (c := cfg.slotsPerChunk) ownBelow
    -- the bounds of the old ledger, read against the new watermark
    have oldNear : ∀ i ∈ l.opened, (∃ w, l.watermark = some w) ∧
        i ≤ l.watermarkWith a.slot / cfg.slotsPerChunk := by
      intro i isOpen
      obtain ⟨w, known, -, below⟩ := kept.near i isOpen
      exact ⟨⟨w, known⟩, below.trans (Nat.div_le_div_right (raised w known))⟩
    have oldFar : ∀ i, l.contents i ≠ [] → i ∉ l.opened → i ∈ marked ∨
        ∃ w, some (l.watermarkWith a.slot) = some w ∧
          i + sealLookaheadChunks ≤ w / cfg.slotsPerChunk := by
      intro i full closed
      rcases kept.far i full closed with isMarked | ⟨w, known, behind⟩
      · exact .inl isMarked
      · exact .inr ⟨_, rfl, behind.trans (Nat.div_le_div_right (raised w known))⟩
    have marks : ∀ i ∈ marked, i ∉ l'.opened ∧ l'.contents i ≠ [] := fun i isMarked =>
      takes.shut (kept.marks i isMarked).1 (kept.marks i isMarked).2
    cases takes with
    | olderThanTolerance late =>
      -- a late message leaves the watermark where it was
      have still : l.watermark = some (l.watermarkWith a.slot) := by
        rcases attained with own | old
        · omega
        · exact old
      have same : ∀ w, l.watermark = some w → some (l.watermarkWith a.slot) = some w :=
        fun w known => still.symm.trans known
      refine ⟨seen, reached, ?_, oldFar, marks⟩
      intro i isOpen
      obtain ⟨w, known, bounds⟩ := kept.near i isOpen
      exact ⟨w, same w known, bounds⟩
    | alreadySealed left inTime unopened used room =>
      refine ⟨seen, reached, ?_, ?_, marks⟩
      · intro i isOpen
        obtain ⟨kept', ahead'⟩ := Finset.mem_filter.mp isOpen
        exact ⟨_, rfl, ahead', (oldNear i (room.subset kept')).2⟩
      · intro i full closed
        by_cases wasOpen : i ∈ l.opened
        · refine .inr ⟨_, rfl, ?_⟩
          by_cases stays : i ∈ left
          · exact behind_of_shut stays closed
          · exact room_far positive tolerance capped kept inTime unopened room wasOpen stays
        · exact oldFar i full wasOpen
    | appended left inTime room =>
      have subset : left ⊆ l.opened := room_subset room
      have grown := Ledger.Takes.contents (.appended left inTime room)
      refine ⟨seen, reached, ?_, ?_, marks⟩
      · intro i isOpen
        obtain ⟨kept', ahead'⟩ := Finset.mem_filter.mp isOpen
        rcases Finset.mem_insert.mp kept' with rfl | old
        · exact ⟨_, rfl, ahead', ownChunk⟩
        · exact ⟨_, rfl, ahead', (oldNear i (subset old)).2⟩
      · intro i full closed
        by_cases stays : i ∈ insert (a.slot / cfg.slotsPerChunk) left
        · exact .inr ⟨_, rfl, behind_of_shut stays closed⟩
        · obtain ⟨other, notLeft⟩ := not_or.mp (mt Finset.mem_insert.mpr stays)
          have wasFull : l.contents i ≠ [] := by
            have elsewhere : ¬ a.slot / cfg.slotsPerChunk = i := fun same => other same.symm
            rw [grown] at full
            simpa [inChunk, elsewhere] using full
          by_cases wasOpen : i ∈ l.opened
          · rcases room with ⟨-, rfl⟩ | ⟨unopened, -, room⟩
            · exact absurd wasOpen notLeft
            · exact .inr ⟨_, rfl, room_far positive tolerance capped kept inTime unopened room
                wasOpen notLeft⟩
          · exact oldFar i wasFull wasOpen

/-- A lane starts with nothing seen and nothing sealed. -/
theorem kept_start (cfg : WriterConfig) (ops : List Op) :
    Kept cfg [] ∅ ⟨none, ∅, fun _ => []⟩ ops :=
  ⟨by simp, by simp, by simp, by simp, by simp⟩

/-- A directory determines how many messages each of its chunks holds. -/
theorem archive_length (json : k.JsonRoundTrips) (positive : 0 < cfg.slotsPerChunk) {dir : Dir}
    {contents contents' : Nat → List Arrival} (first : Archive k stream cfg dir contents)
    (second : Archive k stream cfg dir contents') (idx : Nat) :
    (contents idx).length = (contents' idx).length := by
  -- a chunk that one archive has, the other has
  have shared : ∀ {c c' : Nat → List Arrival}, Archive k stream cfg dir c →
      Archive k stream cfg dir c' → c idx ≠ [] → c' idx ≠ [] := by
    intro c c' one two full
    obtain ⟨reason, files⟩ := one.chunks idx full
    obtain ⟨idx', ext, full', -, named⟩ := two.only _ _ files.sidecar
    exact (chunkName_injective positive named).1 ▸ full'
  by_cases full : contents idx = []
  · have empty : contents' idx = [] := by
      by_contra full'
      exact shared second first full' full
    rw [full, empty]
  · obtain ⟨reason, files⟩ := first.chunks idx full
    obtain ⟨reason', files'⟩ := second.chunks idx (shared first second full)
    have bytes := Option.some.inj (files.sidecar.symm.trans files'.sidecar)
    have sidecars := congrArg k.jsonDecode bytes
    rw [json, json, Option.some.injEq] at sidecars
    exact congrArg Chunk.ChunkMeta.messageCount sidecars

/-- A sublist with as many messages in every chunk is the whole list. -/
theorem sublist_eq_of_inChunk (cfg : WriterConfig) {first second : List Arrival}
    (sublist : first.Sublist second)
    (same : ∀ idx, (inChunk cfg idx first).length = (inChunk cfg idx second).length) :
    first = second := by
  induction sublist with
  | slnil => rfl
  | @cons first second a shorter inductionHypothesis =>
    have here := same (a.slot / cfg.slotsPerChunk)
    have fewer := (shorter.filter
      (fun b => b.slot / cfg.slotsPerChunk = a.slot / cfg.slotsPerChunk)).length_le
    simp only [inChunk_cons, if_true, List.length_append, List.length_singleton] at here
    simp only [inChunk] at here
    omega
  | @cons_cons first second a shorter inductionHypothesis =>
    refine congrArg (a :: ·) (inductionHypothesis (fun idx => ?_))
    have here := same idx
    simp only [inChunk_cons, List.length_append] at here
    omega

/-- The archive of a part of some messages is the archive of all of them exactly when
nothing is missing. -/
theorem archive_inChunk_iff (json : k.JsonRoundTrips) (positive : 0 < cfg.slotsPerChunk)
    {dir : Dir} {part whole : List Arrival} (sublist : part.Sublist whole)
    (archive : Archive k stream cfg dir (fun idx => inChunk cfg idx part)) :
    Archive k stream cfg dir (fun idx => inChunk cfg idx whole) ↔ part = whole := by
  constructor
  · intro full
    exact sublist_eq_of_inChunk cfg sublist
      (fun idx => archive_length json positive archive full idx)
  · rintro rfl
    exact archive

/-- Over an empty directory a lane accepts only messages within the tolerance, and all
of them exactly when no tick interrupts. -/
theorem lane_accepts (k : Codecs) (stream : Stream) (positive : 0 < cfg.slotsPerChunk)
    (tolerance : cfg.outOfOrderToleranceSlots ≤ cfg.slotsPerChunk)
    (capped : 2 ≤ cfg.maxOpenChunks) (ops : List Op)
    (fits : ∀ a ∈ arrivals ops, Fits cfg a.slot) :
    (accepted k (new stream cfg ∅) ops).Sublist (tolerated cfg [] (arrivals ops)) ∧
      (accepted k (new stream cfg ∅) ops = tolerated cfg [] (arrivals ops) ↔
        ¬ Interrupts k cfg (new stream cfg ∅) [] ops) := by
  have nothing : Settled ⟨none, ∅, fun _ => []⟩ := ⟨by simp, by simp⟩
  obtain ⟨sublist, complete, -⟩ := run_accepts (kept_accounts positive tolerance capped) positive
    (by omega) [] ∅ ops (represents_new (archive_empty k stream cfg)) nothing fits
    (kept_start cfg ops)
  refine ⟨sublist, complete.trans ?_⟩
  simp

/-- Without ticks a lane keeps every message within the tolerance: after the shutdown
the directory holds, chunk by chunk and in order of arrival, exactly these messages. -/
theorem ingest_keeps_tolerated (k : Codecs) (stream : Stream) (cfg : WriterConfig)
    (positive : 1 ≤ cfg.slotsPerChunk)
    (tolerance : cfg.outOfOrderToleranceSlots ≤ cfg.slotsPerChunk)
    (capped : 2 ≤ cfg.maxOpenChunks) (messages : List Arrival)
    (fits : ∀ a ∈ messages, Fits cfg a.slot) :
    accepted k (new stream cfg ∅) (messages.map .ingest) = tolerated cfg [] messages ∧
      ∃ s final, run k (new stream cfg ∅) (messages.map .ingest) = .ok s ∧
        shutdown k s = .ok final ∧
        Archive k stream cfg final.baseDir
          (fun idx => inChunk cfg idx (tolerated cfg [] messages)) := by
  have listed := arrivals_map_ingest messages
  have fits' : ∀ a ∈ arrivals (messages.map .ingest), Fits cfg a.slot := by rwa [listed]
  have calm : ¬ Interrupts k cfg (new stream cfg ∅) [] (messages.map .ingest) := by
    rintro ⟨before, now, after, -, -, -, -, split, -⟩
    have member : Op.tick now ∈ messages.map Op.ingest := by rw [split]; simp
    simp at member
  have all := (lane_accepts k stream positive tolerance capped _ fits').2.mpr calm
  rw [listed] at all
  obtain ⟨s, final, ran, done, archive⟩ := run_archive positive (by omega)
    (archive_empty k stream cfg) (messages.map .ingest) fits'
  rw [all] at archive
  exact ⟨all, s, final, ran, done, archive⟩

/-- A message one slot beyond the tolerance and one at its edge. -/
theorem ingest_keeps_tolerated_edge :
    let cfg : WriterConfig := ⟨10, 5, 2⟩
    let message (slot : Nat) : Arrival := ⟨0, ⟨0, ⟨[], none, none, []⟩⟩, slot⟩
    let messages := [message 8, message 30, message 25, message 24]
    accepted PlainCodecs.plain (new .tx cfg ∅) (messages.map .ingest) =
        [message 8, message 30, message 25] ∧
      ∃ s final, run PlainCodecs.plain (new .tx cfg ∅) (messages.map .ingest) = .ok s ∧
        shutdown PlainCodecs.plain s = .ok final ∧
        Archive PlainCodecs.plain .tx cfg final.baseDir
          (fun idx => inChunk cfg idx [message 8, message 30, message 25]) := by
  intro cfg message messages
  have kept : tolerated cfg [] messages = [message 8, message 30, message 25] := by decide
  have fits : ∀ a ∈ messages, Fits cfg a.slot := by
    intro a member
    simp only [messages, List.mem_cons, List.not_mem_nil, or_false] at member
    rcases member with rfl | rfl | rfl | rfl <;> exact ⟨by decide, by decide, by decide⟩
  have result := ingest_keeps_tolerated PlainCodecs.plain .tx cfg (by decide) (by decide)
    (by decide) messages fits
  rwa [kept] at result

/-- With ticks the directory holds every message within the tolerance exactly when no
tick finds an idle chunk into whose range a later one of them falls. -/
theorem tick_keeps_tolerated_iff (k : Codecs) (json : k.JsonRoundTrips) (stream : Stream)
    (cfg : WriterConfig) (positive : 1 ≤ cfg.slotsPerChunk)
    (tolerance : cfg.outOfOrderToleranceSlots ≤ cfg.slotsPerChunk)
    (capped : 2 ≤ cfg.maxOpenChunks) (ops : List Op)
    (fits : ∀ a ∈ arrivals ops, Fits cfg a.slot) :
    ∃ s final, run k (new stream cfg ∅) ops = .ok s ∧ shutdown k s = .ok final ∧
      (Archive k stream cfg final.baseDir
          (fun idx => inChunk cfg idx (tolerated cfg [] (arrivals ops))) ↔
        ¬ Interrupts k cfg (new stream cfg ∅) [] ops) := by
  obtain ⟨sublist, complete⟩ := lane_accepts k stream positive tolerance capped
    ops fits
  obtain ⟨s, final, ran, done, archive⟩ := run_archive positive (by omega)
    (archive_empty k stream cfg) ops fits
  exact ⟨s, final, ran, done, (archive_inChunk_iff json positive sublist archive).trans complete⟩

/-- A message, five minutes of silence, a tick, and the next slot of the same chunk. -/
def silence : List Op :=
  let message (now slot : Nat) : Arrival := ⟨now, ⟨now, ⟨[], none, none, []⟩⟩, slot⟩
  [.ingest (message 0 500), .tick (301 * 10 ^ 9), .ingest (message (302 * 10 ^ 9) 501)]

/-- The slots of that run fit. -/
theorem silence_fits : ∀ a ∈ arrivals silence, Fits ⟨1000, 100, 4⟩ a.slot := by
  intro a member
  simp only [silence, arrivals_ingest, arrivals_tick, arrivals_nil, List.mem_cons,
    List.not_mem_nil, or_false] at member
  rcases member with rfl | rfl <;> exact ⟨by decide, by decide, by decide⟩

/-- A chunk that is silent for too long is closed, and loses what was still to come. -/
theorem tick_keeps_tolerated_iff_silence :
    ∃ s final, run PlainCodecs.plain (new .tx ⟨1000, 100, 4⟩ ∅) silence = .ok s ∧
      shutdown PlainCodecs.plain s = .ok final ∧
      (Archive PlainCodecs.plain .tx ⟨1000, 100, 4⟩ final.baseDir
          (fun idx => inChunk ⟨1000, 100, 4⟩ idx
            (tolerated ⟨1000, 100, 4⟩ [] (arrivals silence))) ↔
        ¬ Interrupts PlainCodecs.plain ⟨1000, 100, 4⟩ (new .tx ⟨1000, 100, 4⟩ ∅) [] silence) :=
  tick_keeps_tolerated_iff PlainCodecs.plain PlainCodecs.plain_roundTrip.json .tx _ (by decide)
    (by decide) (by decide) silence silence_fits

/-- The second message of the silence is within the tolerance and is recorded nowhere. -/
theorem silence_discards :
    ¬ ∃ s final, run PlainCodecs.plain (new .tx ⟨1000, 100, 4⟩ ∅) silence = .ok s ∧
      shutdown PlainCodecs.plain s = .ok final ∧
      Archive PlainCodecs.plain .tx ⟨1000, 100, 4⟩ final.baseDir
        (fun idx => inChunk ⟨1000, 100, 4⟩ idx
          (tolerated ⟨1000, 100, 4⟩ [] (arrivals silence))) := by
  rintro ⟨s, final, ran, done, whole⟩
  obtain ⟨s', final', ran', done', part⟩ := run_archive (by decide) (by decide)
    (archive_empty PlainCodecs.plain .tx ⟨1000, 100, 4⟩) silence silence_fits
  obtain rfl : s = s' := Except.ok.inj (ran.symm.trans ran')
  obtain rfl : final = final' := Except.ok.inj (done.symm.trans done')
  have counts := archive_length PlainCodecs.plain_roundTrip.json (by decide) part whole 0
  exact absurd counts (by decide +kernel)

end Sillage
