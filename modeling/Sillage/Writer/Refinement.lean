import Sillage.Writer.Ledger

/-!
# Every call of the chunker is a move of the ledger

The loops that seal chunks close a set of them, and taking in a message either
leaves the ledger's contents alone or records the message in the chunk of its
slot. No call fails while the slots leave room for the writer's additions.
-/

namespace Sillage

open LittleEndian Directory OpenChunk

namespace Ledger

/-- What is left open when chunks are sealed, oldest first, to get below the cap.
A sealed chunk was the oldest of at least as many open chunks as the cap. -/
structure Room (cap : Nat) (opened left : Finset Nat) : Prop where
  subset : left ⊆ opened
  oldest : ∀ i ∈ opened, i ∉ left → ∀ j ∈ left, i < j
  needed : ∀ i ∈ opened, i ∉ left → cap ≤ (opened.filter (i ≤ ·)).card

/-- The chunks that the watermark has not left behind. -/
def ahead (watermarkChunk : Nat) (opened : Finset Nat) : Finset Nat :=
  opened.filter (fun idx => watermarkChunk < idx + sealLookaheadChunks)

/-- The watermark after a message of the given slot. -/
def watermarkWith (slot : Nat) (l : Ledger) : Nat := l.watermark.elim slot (max · slot)

/-- What a message does to a ledger. -/
inductive Takes (cfg : WriterConfig) (a : Arrival) (l : Ledger) : Verdict → Ledger → Prop where
  | olderThanTolerance
      (late : a.slot + cfg.outOfOrderToleranceSlots < l.watermarkWith a.slot) :
      Takes cfg a l .olderThanTolerance (l.advance a.slot)
  | alreadySealed (left : Finset Nat)
      (inTime : l.watermarkWith a.slot ≤ a.slot + cfg.outOfOrderToleranceSlots)
      (unopened : a.slot / cfg.slotsPerChunk ∉ l.opened)
      (used : l.contents (a.slot / cfg.slotsPerChunk) ≠ [])
      (room : Room cfg.maxOpenChunks l.opened left) :
      Takes cfg a l .alreadySealed
        { l.advance a.slot with
          opened := ahead (l.watermarkWith a.slot / cfg.slotsPerChunk) left }
  | appended (left : Finset Nat)
      (inTime : l.watermarkWith a.slot ≤ a.slot + cfg.outOfOrderToleranceSlots)
      (room : (a.slot / cfg.slotsPerChunk ∈ l.opened ∧ left = l.opened) ∨
        (a.slot / cfg.slotsPerChunk ∉ l.opened ∧ l.contents (a.slot / cfg.slotsPerChunk) = [] ∧
          Room cfg.maxOpenChunks l.opened left)) :
      Takes cfg a l .appended
        { (l.advance a.slot).record (a.slot / cfg.slotsPerChunk) a with
          opened := ahead (l.watermarkWith a.slot / cfg.slotsPerChunk)
            (insert (a.slot / cfg.slotsPerChunk) left) }

/-- The last message of a chunk arrived longer ago than the idle threshold. -/
def idle (now : Nat) (arrivals : List Arrival) : Bool :=
  arrivals.getLast?.any (fun a => idleSealThreshold < now - a.now)

/-- The idle chunks are sealed. -/
def tick (now : Nat) (l : Ledger) : Ledger :=
  { l with opened := l.opened.filter (fun idx => ¬ idle now (l.contents idx)) }

/-- Every open chunk is sealed. -/
def shutdown (l : Ledger) : Ledger := { l with opened := ∅ }

end Ledger

open Ledger

/-- The slot leaves room for every addition that the writer makes with it. -/
structure Fits (cfg : WriterConfig) (slot : Nat) : Prop where
  reach : slot + cfg.outOfOrderToleranceSlots < u64Bound
  range : slot / cfg.slotsPerChunk * cfg.slotsPerChunk + cfg.slotsPerChunk < u64Bound
  lookahead : slot / cfg.slotsPerChunk + sealLookaheadChunks < u64Bound

variable {k : Codecs} {stream : Stream} {cfg : WriterConfig} {s : Chunker} {l : Ledger}

/-- Closing chunks one set after the other closes all of them. -/
theorem close_close (first second : Finset Nat) (l : Ledger) :
    (l.close first).close second = l.close (first ∪ second) := by
  simp [Ledger.close, sdiff_sdiff_left]

/-- Sealing a list of distinct open chunks closes all of them. -/
theorem represents_sealAll (positive : 0 < cfg.slotsPerChunk) (reason : String)
    (indices : List Nat) (distinct : indices.Nodup) (represents : Represents k stream cfg s l)
    (subset : ∀ idx ∈ indices, idx ∈ l.opened) (filled : ∀ idx ∈ l.opened, l.contents idx ≠ []) :
    ∃ s', Chunker.sealAll k reason indices s = .ok s' ∧
      Represents k stream cfg s' (l.close indices.toFinset) := by
  induction indices generalizing s l with
  | nil => exact ⟨s, rfl, by simpa [Ledger.close] using represents⟩
  | cons idx rest inductionHypothesis =>
    have member := subset idx List.mem_cons_self
    obtain ⟨fresh, distinctRest⟩ := List.nodup_cons.mp distinct
    obtain ⟨next, done, closed⟩ := represents_seal positive reason represents member
      (filled idx member)
    have remaining : ∀ i ∈ rest, i ∈ (l.close {idx}).opened := by
      intro i among
      have other : i ≠ idx := fun same => fresh (same ▸ among)
      simp [Ledger.close, subset i (List.mem_cons_of_mem _ among), other]
    obtain ⟨s', rested, represented⟩ := inductionHypothesis distinctRest closed remaining
      (fun i among => filled i (Finset.mem_sdiff.mp among).1)
    refine ⟨s', ?_, ?_⟩
    · simp only [Chunker.sealAll, done, bind, Except.bind, rested]
    · rw [close_close] at represented
      rwa [List.toFinset_cons, Finset.insert_eq]

/-- The keys of the open chunks are the ledger's, in ascending order. -/
theorem Represents.keys (represents : Represents k stream cfg s l) :
    s.open.keys.Pairwise (· < ·) ∧ s.open.keys.toFinset = l.opened ∧
      s.open.size = l.opened.card := by
  have ascending : s.open.keys.Pairwise (· < ·) :=
    Std.TreeMap.ordered_keys.imp (fun less => Nat.compare_eq_lt.mp less)
  have same : s.open.keys.toFinset = l.opened := by
    ext idx
    rw [List.mem_toFinset, Std.TreeMap.mem_keys, represents.opened]
  refine ⟨ascending, same, ?_⟩
  rw [← same, List.toFinset_card_of_nodup (ascending.imp Nat.ne_of_lt), Std.TreeMap.length_keys]

/-- Making room closes the oldest chunks until the cap is no longer reached. The
fuel exceeds the number of open chunks, one of which every iteration closes. -/
theorem represents_makeRoom (positive : 0 < cfg.slotsPerChunk) (capped : 0 < cfg.maxOpenChunks)
    (idx fuel : Nat) (represents : Represents k stream cfg s l)
    (filled : ∀ i ∈ l.opened, l.contents i ≠ []) (unopened : idx ∉ l.opened)
    (enough : l.opened.card < fuel) :
    ∃ s' left, Chunker.makeRoom k idx fuel s = .ok s' ∧ Room cfg.maxOpenChunks l.opened left ∧
      Represents k stream cfg s' { l with opened := left } := by
  induction fuel generalizing s l with
  | zero => exact absurd enough (Nat.not_lt_zero _)
  | succ fuel inductionHypothesis =>
    obtain ⟨ascending, keys, size⟩ := represents.keys
    rw [Chunker.makeRoom, represents.sameCfg]
    by_cases full : cfg.maxOpenChunks ≤ s.open.size
    · rw [if_pos full]
      cases listed : s.open.keys with
      | nil =>
        have empty : l.opened.card = 0 := by rw [← keys, listed]; rfl
        omega
      | cons oldest later =>
        have member : oldest ∈ l.opened := by rw [← keys, listed]; simp
        have first : ∀ j ∈ l.opened, j ≠ oldest → oldest < j := by
          intro j among other
          rw [← keys, listed, List.mem_toFinset, List.mem_cons] at among
          rw [listed] at ascending
          exact (List.pairwise_cons.mp ascending).1 j (among.resolve_left other)
        have distinct : oldest ≠ idx := fun same => unopened (same ▸ member)
        obtain ⟨next, done, closed⟩ := represents_seal positive "cap-reached" represents member
          (filled oldest member)
        have smaller : (l.close {oldest}).opened.card < fuel := by
          have shrunk : (l.opened \ {oldest}).card + 1 = l.opened.card := by
            rw [Finset.sdiff_singleton_eq_erase, Finset.card_erase_of_mem member]
            have nonempty := Finset.card_pos.mpr ⟨oldest, member⟩
            omega
          simp only [Ledger.close]
          omega
        obtain ⟨s', left, rested, room, represented⟩ := inductionHypothesis closed
          (fun i among => filled i (Finset.mem_sdiff.mp among).1)
          (fun among => unopened (Finset.mem_sdiff.mp among).1) smaller
        refine ⟨s', left, ?_, ⟨?_, ?_, ?_⟩, represented⟩
        · simp only [List.head?_cons, distinct, if_false, done, bind, Except.bind, rested]
        · exact room.subset.trans Finset.sdiff_subset
        · intro i among notLeft j kept
          have inRest := Finset.mem_sdiff.mp (room.subset kept)
          by_cases same : i = oldest
          · exact same ▸ first j inRest.1 (by simpa using inRest.2)
          · exact room.oldest i (by simp [Ledger.close, among, same]) notLeft j kept
        · intro i among notLeft
          by_cases same : i = oldest
          · have all : l.opened.filter (i ≤ ·) = l.opened := by
              refine Finset.filter_true_of_mem (fun j listed => ?_)
              by_cases sameJ : j = oldest
              · omega
              · have above := first j listed sameJ
                omega
            rw [all, ← size]
            exact full
          · have later := room.needed i (by simp [Ledger.close, among, same]) notLeft
            refine later.trans (Finset.card_le_card ?_)
            exact Finset.filter_subset_filter _ Finset.sdiff_subset
    · rw [if_neg full]
      exact ⟨s, l.opened, rfl, ⟨Finset.Subset.refl _, by simp +contextual, by simp +contextual⟩,
        represents⟩

/-- The chunks behind the watermark, while the look-ahead does not overflow. -/
theorem behind_eq (watermarkChunk : Nat) (indices : List Nat)
    (within : ∀ idx ∈ indices, idx + sealLookaheadChunks < u64Bound) :
    Chunker.behind watermarkChunk indices =
      .ok (indices.filter (fun idx => idx + sealLookaheadChunks ≤ watermarkChunk)) := by
  induction indices with
  | nil => rfl
  | cons idx rest inductionHypothesis =>
    have later := inductionHypothesis (fun i member => within i (List.mem_cons_of_mem _ member))
    have horizon : checkedAdd idx sealLookaheadChunks = .ok (idx + sealLookaheadChunks) :=
      if_pos (within idx List.mem_cons_self)
    simp only [Chunker.behind, horizon, later, bind, Except.bind, List.filter_cons,
      decide_eq_true_eq]

/-- Sealing what the watermark left behind keeps what is ahead of it. -/
theorem represents_behind (positive : 0 < cfg.slotsPerChunk) (watermarkChunk : Nat)
    (represents : Represents k stream cfg s l) (settled : Settled l) :
    ∃ toSeal s', Chunker.behind watermarkChunk s.open.keys = .ok toSeal ∧
      Chunker.sealAll k "watermark" toSeal s = .ok s' ∧
      Represents k stream cfg s' { l with opened := ahead watermarkChunk l.opened } := by
  obtain ⟨ascending, keys, -⟩ := represents.keys
  have listed : ∀ idx ∈ s.open.keys, idx ∈ l.opened := by
    intro idx member
    rw [← keys]
    exact List.mem_toFinset.mpr member
  have nodup : s.open.keys.Nodup := ascending.imp Nat.ne_of_lt
  obtain ⟨s', done, represented⟩ := represents_sealAll positive "watermark"
    (s.open.keys.filter (fun idx => idx + sealLookaheadChunks ≤ watermarkChunk))
    (nodup.filter _) represents (fun idx member => listed idx (List.mem_filter.mp member).1)
    settled.filled
  refine ⟨_, s', behind_eq watermarkChunk s.open.keys
    (fun idx member => settled.within idx (listed idx member)), done, ?_⟩
  have same : l.opened \ (s.open.keys.filter
      (fun idx => idx + sealLookaheadChunks ≤ watermarkChunk)).toFinset =
        ahead watermarkChunk l.opened := by
    ext idx
    simp only [← keys, ahead, Finset.mem_sdiff, List.mem_toFinset, List.mem_filter,
      Finset.mem_filter, decide_eq_true_eq, not_and, not_le]
    exact and_congr_right (fun member => ⟨fun skip => skip member, fun less _ => less⟩)
  simpa only [Ledger.close, same] using represented

/-- Taking in a message whose slot fits is a move of the ledger. -/
theorem ingest_takes (positive : 0 < cfg.slotsPerChunk) (capped : 0 < cfg.maxOpenChunks)
    (represents : Represents k stream cfg s l) (settled : Settled l) (a : Arrival)
    (fits : Fits cfg a.slot) :
    ∃ verdict s' l', Chunker.ingest k a s = .ok (verdict, s') ∧ Takes cfg a l verdict l' ∧
      Represents k stream cfg s' l' ∧ Settled l' := by
  have advanced := represents_advance a.slot represents
  have watermark : (s.advance a.slot).watermarkSlot.getD 0 = l.watermarkWith a.slot := by
    rw [advanced.sameWatermark]
    rfl
  have divide : ∀ n, checkedDiv n (s.advance a.slot).cfg.slotsPerChunk =
      .ok (n / cfg.slotsPerChunk) := by
    intro n
    rw [advanced.sameCfg, checkedDiv, if_neg positive.ne']
  have reach : checkedAdd a.slot (s.advance a.slot).cfg.outOfOrderToleranceSlots =
      .ok (a.slot + cfg.outOfOrderToleranceSlots) := by
    rw [advanced.sameCfg, checkedAdd, if_pos fits.reach]
  simp only [Chunker.ingest, watermark, divide, reach, bind, Except.bind]
  by_cases late : a.slot + cfg.outOfOrderToleranceSlots < l.watermarkWith a.slot
  · rw [if_pos late]
    exact ⟨_, _, _, rfl, .olderThanTolerance late, advanced, settled.filled, settled.within⟩
  rw [if_neg late]
  have inTime := not_lt.mp late
  have filled := settled.filled
  -- whatever stays open behind the watermark check is settled again
  have trimmed : ∀ {l' : Ledger}, Settled l' → ∀ watermarkChunk,
      Settled { l' with opened := ahead watermarkChunk l'.opened } := fun settled' _ =>
    ⟨fun i among => settled'.filled i (Finset.mem_filter.mp among).1,
      fun i among => settled'.within i (Finset.mem_filter.mp among).1⟩
  -- a recorded message keeps every open chunk filled
  have recorded : ∀ {left : Finset Nat}, left ⊆ l.opened →
      Settled { (l.advance a.slot).record (a.slot / cfg.slotsPerChunk) a with
        opened := insert (a.slot / cfg.slotsPerChunk) left } := by
    intro left subset
    refine ⟨?_, ?_⟩
    · intro i among
      by_cases same : i = a.slot / cfg.slotsPerChunk
      · subst same
        simp [Ledger.record]
      · have kept : i ∈ l.opened := subset ((Finset.mem_insert.mp among).resolve_left same)
        simpa [Ledger.record, Ledger.advance, Function.update_of_ne same] using filled i kept
    · intro i among
      rcases Finset.mem_insert.mp among with rfl | kept
      · exact fits.lookahead
      · exact settled.within i (subset kept)
  by_cases unopened : a.slot / cfg.slotsPerChunk ∉ l.opened
  · have notOpen : ¬ (s.advance a.slot).open.contains (a.slot / cfg.slotsPerChunk) = true := by
      rw [Std.TreeMap.contains_iff_mem, advanced.opened]
      exact unopened
    have size : (s.advance a.slot).open.size = l.opened.card := advanced.keys.2.2
    obtain ⟨roomy, left, made, room, representedRoom⟩ := represents_makeRoom positive capped
      (a.slot / cfg.slotsPerChunk) ((s.advance a.slot).open.size + 1) advanced filled unopened
      (by rw [size]; exact Nat.lt_succ_self _)
    have outside : a.slot / cfg.slotsPerChunk ∉ left := fun among => unopened (room.subset among)
    obtain ⟨opened, begun, representedOpen⟩ := represents_open positive a.now representedRoom
      outside fits.range
    simp only [Chunker.ensureOpen, notOpen, Bool.false_eq_true, if_false, made, begun, bind,
      Except.bind]
    by_cases used : l.contents (a.slot / cfg.slotsPerChunk) = []
    · have representedBegin : Represents k stream cfg opened
          { l.advance a.slot with opened := insert (a.slot / cfg.slotsPerChunk) left } := by
        have chosen : (Ledger.advance a.slot l).contents (a.slot / cfg.slotsPerChunk) = [] := used
        rwa [if_pos chosen] at representedOpen
      obtain ⟨written, appended, representedAppend⟩ := represents_append representedBegin a
        (Finset.mem_insert_self (a.slot / cfg.slotsPerChunk) left)
      obtain ⟨toSeal, s', found, done, represented⟩ := represents_behind positive
        (l.watermarkWith a.slot / cfg.slotsPerChunk) representedAppend (recorded room.subset)
      simp only [appended, found, done]
      exact ⟨_, _, _, rfl, .appended left inTime (.inr ⟨unopened, used, room⟩), represented,
        trimmed (recorded room.subset) _⟩
    · have representedSame : Represents k stream cfg opened
          { l.advance a.slot with opened := left } := by
        have chosen : ¬ (Ledger.advance a.slot l).contents (a.slot / cfg.slotsPerChunk) = [] := used
        rwa [if_neg chosen] at representedOpen
      have refused := represents_refused representedSame a outside
      have settledRoom : Settled { l.advance a.slot with opened := left } :=
        ⟨fun i among => filled i (room.subset among),
          fun i among => settled.within i (room.subset among)⟩
      obtain ⟨toSeal, s', found, done, represented⟩ := represents_behind positive
        (l.watermarkWith a.slot / cfg.slotsPerChunk) representedSame settledRoom
      simp only [refused, found, done]
      exact ⟨_, _, _, rfl, .alreadySealed left inTime unopened used room, represented,
        trimmed settledRoom _⟩
  · have member := not_not.mp unopened
    have isOpen : (s.advance a.slot).open.contains (a.slot / cfg.slotsPerChunk) = true := by
      rw [Std.TreeMap.contains_iff_mem, advanced.opened]
      exact member
    obtain ⟨written, appended, representedAppend⟩ := represents_append advanced a member
    have same : insert (a.slot / cfg.slotsPerChunk) l.opened = l.opened :=
      Finset.insert_eq_self.mpr member
    have settledAppend := recorded (Finset.Subset.refl l.opened)
    simp only [same] at settledAppend
    obtain ⟨toSeal, s', found, done, represented⟩ := represents_behind positive
      (l.watermarkWith a.slot / cfg.slotsPerChunk) representedAppend settledAppend
    simp only [Chunker.ensureOpen, isOpen, if_true, appended, found, done]
    refine ⟨_, _, _, rfl, .appended l.opened inTime (.inl ⟨member, rfl⟩), ?_, ?_⟩
    · rw [same]
      exact represented
    · rw [same]
      exact trimmed settledAppend _

/-- A chunk is idle when its last message is. -/
theorem stale_holding (now idx opening : Nat) (arrivals : List Arrival) (filled : arrivals ≠ []) :
    Chunker.stale now (holding k stream cfg idx opening arrivals) = idle now arrivals := by
  obtain ⟨last, found⟩ := Option.ne_none_iff_exists'.mp (mt List.getLast?_eq_none_iff.mp filled)
  simp [Chunker.stale, idle, holding, found]

/-- A tick seals the idle chunks. -/
theorem tick_represents (positive : 0 < cfg.slotsPerChunk) (now : Nat)
    (represents : Represents k stream cfg s l) (settled : Settled l) :
    ∃ s', Chunker.tick k now s = .ok s' ∧ Represents k stream cfg s' (l.tick now) ∧
      Settled (l.tick now) := by
  have entry : ∀ idx chunk, (idx, chunk) ∈ s.open.toList →
      idx ∈ l.opened ∧ Chunker.stale now chunk = idle now (l.contents idx) := by
    intro idx chunk listed
    have found := Std.TreeMap.mem_toList_iff_getElem?_eq_some.mp listed
    have member : idx ∈ l.opened :=
      (represents.opened idx).mp (Std.TreeMap.mem_iff_isSome_getElem?.mpr (by simp [found]))
    obtain ⟨opening, rfl⟩ := represents.holds idx chunk found
    exact ⟨member, stale_holding now idx opening _ (settled.filled idx member)⟩
  have listed : ∀ idx, idx ∈ (s.open.toList.filter
      (fun entry => Chunker.stale now entry.2)).map Prod.fst ↔
        idx ∈ l.opened ∧ idle now (l.contents idx) = true := by
    intro idx
    simp only [List.mem_map, List.mem_filter]
    constructor
    · rintro ⟨⟨i, chunk⟩, ⟨member, isStale⟩, rfl⟩
      obtain ⟨opened, same⟩ := entry i chunk member
      exact ⟨opened, same ▸ isStale⟩
    · rintro ⟨member, isIdle⟩
      obtain ⟨opening, found⟩ := represents.chunk member
      have present := Std.TreeMap.mem_toList_iff_getElem?_eq_some.mpr found
      exact ⟨_, ⟨present, (entry _ _ present).2 ▸ isIdle⟩, rfl⟩
  have nodup : ((s.open.toList.filter (fun entry => Chunker.stale now entry.2)).map
      Prod.fst).Nodup := by
    have keys : (s.open.toList.map Prod.fst).Nodup := by
      rw [Std.TreeMap.map_fst_toList_eq_keys]
      exact Std.TreeMap.nodup_keys
    exact keys.sublist (List.filter_sublist.map _)
  obtain ⟨s', done, represented⟩ := represents_sealAll positive "shutdown" _ nodup represents
    (fun idx member => ((listed idx).mp member).1) settled.filled
  refine ⟨s', done, ?_, ?_⟩
  · have same : l.opened \ ((s.open.toList.filter
        (fun entry => Chunker.stale now entry.2)).map Prod.fst).toFinset =
          (l.tick now).opened := by
      ext idx
      rw [Finset.mem_sdiff, List.mem_toFinset, listed]
      simp only [Ledger.tick, Finset.mem_filter, not_and]
      exact and_congr_right (fun member => ⟨fun skip => skip member, fun kept _ => kept⟩)
    change Represents k stream cfg s' { l with opened := (l.tick now).opened }
    rw [← same]
    exact represented
  · exact ⟨fun i among => settled.filled i (Finset.mem_filter.mp among).1,
      fun i among => settled.within i (Finset.mem_filter.mp among).1⟩

/-- Shutting down seals every open chunk. -/
theorem shutdown_represents (positive : 0 < cfg.slotsPerChunk)
    (represents : Represents k stream cfg s l) (settled : Settled l) :
    ∃ s', Chunker.shutdown k s = .ok s' ∧ Represents k stream cfg s' l.shutdown := by
  obtain ⟨ascending, keys, -⟩ := represents.keys
  obtain ⟨s', done, represented⟩ := represents_sealAll positive "shutdown" s.open.keys
    (ascending.imp Nat.ne_of_lt) represents
    (fun idx member => keys ▸ List.mem_toFinset.mpr member) settled.filled
  refine ⟨s', done, ?_⟩
  rw [keys] at represented
  simpa [Ledger.close, Ledger.shutdown] using represented

end Sillage
