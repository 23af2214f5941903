import Sillage.Writer.Runs

/-!
# Lanes fed in slot order

In a feed of non-decreasing slots no message is late and only the chunk of the
latest message can be met again. The sealed chunks then lie below the open ones,
whatever the cap and the tolerance are: the cap and the watermark seal the oldest
chunks first, and of two open chunks the older one has been idle for longer.
-/

namespace Sillage

open LittleEndian Directory OpenChunk Ledger Chunker

variable {k : Codecs} {stream : Stream} {cfg : WriterConfig} {l : Ledger}

/-- The chunk that covers the slot of a message. -/
def Arrival.chunk (cfg : WriterConfig) (a : Arrival) : Nat := a.slot / cfg.slotsPerChunk

/-- Slots and clock readings do not decrease from one message to the next. -/
structure Sorted (messages : List Arrival) : Prop where
  slots : messages.Pairwise (fun a b => a.slot ≤ b.slot)
  clock : messages.Pairwise (fun a b => a.now ≤ b.now)

/-- The invariant of a lane that is fed in order. What it says about the messages to
come replaces the watermark. -/
structure InOrder (cfg : WriterConfig) (earlier : List Arrival) (marked : Set Nat) (l : Ledger)
    (ops : List Op) : Prop where
  sorted : Sorted (arrivals ops)
  history : ∀ b ∈ earlier, ∀ a ∈ arrivals ops, b.slot ≤ a.slot
  above : ∀ a ∈ arrivals ops, ∀ w, l.watermark = some w → w ≤ a.slot
  below : ∀ i, l.contents i ≠ [] → ∀ a ∈ arrivals ops, i ≤ a.chunk cfg
  passed : ∀ i, l.contents i ≠ [] → i ∉ l.opened → i ∉ marked → ∀ a ∈ arrivals ops,
    i < a.chunk cfg
  marks : ∀ i ∈ marked, i ∉ l.opened ∧ l.contents i ≠ []
  layered : ∀ i, l.contents i ≠ [] → i ∉ l.opened → ∀ j ∈ l.opened, i < j
  filled : ∀ i ∈ l.opened, l.contents i ≠ []
  aged : ∀ i ∈ l.opened, ∀ j ∈ l.opened, i < j → ∀ x ∈ (l.contents i).getLast?,
    ∀ y ∈ (l.contents j).getLast?, x.now ≤ y.now
  past : ∀ i ∈ l.opened, ∀ x ∈ (l.contents i).getLast?, ∀ a ∈ arrivals ops, x.now ≤ a.now

/-- A message that is not below the watermark becomes the watermark. -/
theorem watermarkWith_in_order {slot : Nat} (above : ∀ w, l.watermark = some w → w ≤ slot) :
    l.watermarkWith slot = slot := by
  cases known : l.watermark with
  | none => simp [watermarkWith, known]
  | some w => simp [watermarkWith, known, above w known]

/-- In order every message is within the tolerance. -/
theorem tolerated_sorted {earlier later : List Arrival}
    (slots : later.Pairwise (fun a b => a.slot ≤ b.slot))
    (after : ∀ b ∈ earlier, ∀ a ∈ later, b.slot ≤ a.slot) : tolerated cfg earlier later = later := by
  induction later generalizing earlier with
  | nil => rfl
  | cons a rest inductionHypothesis =>
    obtain ⟨first, sorted⟩ := List.pairwise_cons.mp slots
    have within : inTolerance cfg earlier a = true := by
      simp only [inTolerance, List.all_eq_true, decide_eq_true_eq]
      intro b member
      have below := after b member a List.mem_cons_self
      omega
    rw [tolerated, if_pos within, inductionHypothesis sorted]
    intro b member c among
    rcases List.mem_cons.mp member with rfl | old
    · exact first c among
    · exact after b old c (List.mem_cons_of_mem _ among)

/-- An idle chunk is older than one that is not. -/
theorem idle_older {now : Nat} {first second : List Arrival} (isIdle : idle now first = true)
    (awake : ¬ idle now second = true) (full : second ≠ []) :
    ∃ x ∈ first.getLast?, ∃ y ∈ second.getLast?, x.now < y.now := by
  obtain ⟨y, last⟩ := Option.ne_none_iff_exists'.mp (mt List.getLast?_eq_none_iff.mp full)
  cases found : first.getLast? with
  | none => simp [idle, found] at isIdle
  | some x =>
    simp only [idle, found, last, Option.any_some, decide_eq_true_eq] at isIdle awake
    exact ⟨x, rfl, y, last, by omega⟩

/-- A tick marks the chunks that have been silent, and the rest is in order behind it. -/
theorem inOrder_tick {earlier : List Arrival} {marked : Set Nat} {now : Nat} {rest : List Op}
    (inOrder : InOrder cfg earlier marked l (.tick now :: rest)) :
    InOrder cfg earlier
      (marked ∪ {idx | idx ∈ l.opened ∧ idle now (l.contents idx) = true}) (l.tick now) rest := by
  have kept : ∀ i ∈ (l.tick now).opened, i ∈ l.opened :=
    fun i isOpen => (Finset.mem_filter.mp isOpen).1
  have closed : ∀ i, i ∉ (l.tick now).opened → i ∈ l.opened →
      idle now (l.contents i) = true := by
    intro i closed wasOpen
    by_contra awake
    exact closed (Finset.mem_filter.mpr ⟨wasOpen, awake⟩)
  refine ⟨inOrder.sorted, inOrder.history, inOrder.above, inOrder.below, ?_, ?_, ?_,
    fun i isOpen => inOrder.filled i (kept i isOpen),
    fun i isOpen j isOpen' => inOrder.aged i (kept i isOpen) j (kept j isOpen'),
    fun i isOpen => inOrder.past i (kept i isOpen)⟩
  · intro i full shut free
    obtain ⟨unmarked, awake⟩ := not_or.mp free
    by_cases wasOpen : i ∈ l.opened
    · exact absurd ⟨wasOpen, closed i shut wasOpen⟩ awake
    · exact inOrder.passed i full wasOpen unmarked
  · rintro i (isMarked | ⟨wasOpen, isIdle⟩)
    · obtain ⟨shut, full⟩ := inOrder.marks i isMarked
      exact ⟨fun isOpen => shut (kept i isOpen), full⟩
    · exact ⟨fun isOpen => (Finset.mem_filter.mp isOpen).2 isIdle, inOrder.filled i wasOpen⟩
  · intro i full shut j isOpen
    obtain ⟨wasOpenJ, awake⟩ := Finset.mem_filter.mp isOpen
    by_cases wasOpen : i ∈ l.opened
    · obtain ⟨x, lastX, y, lastY, older⟩ := idle_older (closed i shut wasOpen) awake
        (inOrder.filled j wasOpenJ)
      rcases Nat.lt_trichotomy i j with less | same | greater
      · exact less
      · exact absurd isOpen (same ▸ shut)
      · have younger := inOrder.aged j wasOpenJ i wasOpen greater y lastY x lastX
        omega
    · exact inOrder.layered i full wasOpen j wasOpenJ

/-- Behind a message the rest is in order with the ledger that it leaves. -/
theorem inOrder_ingest {earlier : List Arrival} {marked : Set Nat} {a : Arrival} {rest : List Op}
    {verdict : Verdict} {l' : Ledger}
    (inOrder : InOrder cfg earlier marked l (.ingest a :: rest))
    (takes : Takes cfg a l verdict l') : InOrder cfg (a :: earlier) marked l' rest := by
  obtain ⟨firstSlot, laterSlots⟩ := List.pairwise_cons.mp inOrder.sorted.slots
  obtain ⟨firstClock, laterClocks⟩ := List.pairwise_cons.mp inOrder.sorted.clock
  have watermark : l.watermarkWith a.slot = a.slot :=
    watermarkWith_in_order (inOrder.above a (by simp))
  have raised : ∀ b ∈ arrivals rest, ∀ w, (l.advance a.slot).watermark = some w → w ≤ b.slot := by
    intro b member w same
    have isSlot : w = a.slot := by
      rw [← watermark]
      exact (Option.some.inj same).symm
    exact isSlot ▸ firstSlot b member
  have history : ∀ b ∈ a :: earlier, ∀ c ∈ arrivals rest, b.slot ≤ c.slot := by
    intro b member c among
    rcases List.mem_cons.mp member with rfl | old
    · exact firstSlot c among
    · exact inOrder.history b old c (by simp [among])
  have nextChunk : ∀ b ∈ arrivals rest, a.chunk cfg ≤ b.chunk cfg :=
    fun b member => Nat.div_le_div_right (firstSlot b member)
  have below : ∀ i, l.contents i ≠ [] → i ≤ a.chunk cfg := fun i full => inOrder.below i full a
    (by simp)
  have marks : ∀ i ∈ marked, i ∉ l'.opened ∧ l'.contents i ≠ [] := fun i isMarked =>
    takes.shut (inOrder.marks i isMarked).1 (inOrder.marks i isMarked).2
  -- a chunk that making room closed lies below every chunk that it left and below the message's
  have roomBelow : ∀ left : Finset Nat, a.chunk cfg ∉ l.opened → ∀ i ∈ l.opened, i ∉ left →
      i < a.chunk cfg := by
    intro left unopened i wasOpen _
    have reach := below i (inOrder.filled i wasOpen)
    exact Nat.lt_of_le_of_ne reach (fun same => unopened (same ▸ wasOpen))
  cases takes with
  | olderThanTolerance late => omega
  | alreadySealed left inTime unopened used room =>
    have kept : ∀ i ∈ ahead (l.watermarkWith a.slot / cfg.slotsPerChunk) left, i ∈ left :=
      fun i isOpen => (Finset.mem_filter.mp isOpen).1
    have wasOpen : ∀ i ∈ ahead (l.watermarkWith a.slot / cfg.slotsPerChunk) left, i ∈ l.opened :=
      fun i isOpen => room.subset (kept i isOpen)
    refine ⟨⟨laterSlots, laterClocks⟩, history, raised,
      fun i full b member => inOrder.below i full b (by simp [member]), ?_, marks, ?_,
      fun i isOpen => inOrder.filled i (wasOpen i isOpen),
      fun i isOpen j isOpen' => inOrder.aged i (wasOpen i isOpen) j (wasOpen j isOpen'),
      fun i isOpen x last b member => inOrder.past i (wasOpen i isOpen) x last b (by simp [member])⟩
    · intro i full shut free b member
      by_cases wasOpen : i ∈ l.opened
      · have under := roomBelow left unopened i wasOpen
        have next := nextChunk b member
        by_cases stays : i ∈ left
        · have behind := behind_of_shut stays shut
          rw [watermark] at behind
          simp only [Arrival.chunk, sealLookaheadChunks] at behind next ⊢
          omega
        · exact lt_of_lt_of_le (under stays) next
      · exact inOrder.passed i full wasOpen free b (by simp [member])
    · intro i full shut j isOpen
      obtain ⟨stays, ahead'⟩ := Finset.mem_filter.mp isOpen
      by_cases wasOpen : i ∈ l.opened
      · by_cases staysI : i ∈ left
        · have behind := behind_of_shut staysI shut
          omega
        · exact room.oldest i wasOpen staysI j stays
      · exact inOrder.layered i full wasOpen j (room.subset stays)
  | appended left inTime room =>
    have grown := Ledger.Takes.contents (.appended left inTime room)
    have subset : left ⊆ l.opened := room_subset room
    have others : ∀ i, i ≠ a.chunk cfg →
        ((l.advance a.slot).record (a.slot / cfg.slotsPerChunk) a).contents i = l.contents i := by
      intro i other
      exact Function.update_of_ne other _ _
    have own : ((l.advance a.slot).record (a.slot / cfg.slotsPerChunk) a).contents
        (a.chunk cfg) = l.contents (a.chunk cfg) ++ [a] := Function.update_self _ _ _
    have oldOr : ∀ i ∈ ahead (l.watermarkWith a.slot / cfg.slotsPerChunk)
        (insert (a.slot / cfg.slotsPerChunk) left), i = a.chunk cfg ∨ i ∈ left :=
      fun i isOpen => Finset.mem_insert.mp (Finset.mem_filter.mp isOpen).1
    refine ⟨⟨laterSlots, laterClocks⟩, history, raised, ?_, ?_, marks, ?_, ?_, ?_, ?_⟩
    · intro i full b member
      by_cases same : i = a.chunk cfg
      · exact same ▸ nextChunk b member
      · exact inOrder.below i (by simpa only [others i same] using full) b (by simp [member])
    · intro i full shut free b member
      have next := nextChunk b member
      by_cases stays : i ∈ insert (a.slot / cfg.slotsPerChunk) left
      · have behind := behind_of_shut stays shut
        rw [watermark] at behind
        simp only [Arrival.chunk, sealLookaheadChunks] at behind next ⊢
        omega
      · obtain ⟨other, notLeft⟩ := not_or.mp (mt Finset.mem_insert.mpr stays)
        have wasFull : l.contents i ≠ [] := by simpa only [others i other] using full
        by_cases wasOpen : i ∈ l.opened
        · rcases room with ⟨-, rfl⟩ | ⟨unopened, -, -⟩
          · exact absurd wasOpen notLeft
          · exact lt_of_lt_of_le (roomBelow left unopened i wasOpen notLeft) next
        · exact inOrder.passed i wasFull wasOpen free b (by simp [member])
    · intro i full shut j isOpen
      obtain ⟨staysJ, ahead'⟩ := Finset.mem_filter.mp isOpen
      by_cases stays : i ∈ insert (a.slot / cfg.slotsPerChunk) left
      · have behind := behind_of_shut stays shut
        omega
      · obtain ⟨other, notLeft⟩ := not_or.mp (mt Finset.mem_insert.mpr stays)
        have wasFull : l.contents i ≠ [] := by simpa only [others i other] using full
        rcases Finset.mem_insert.mp staysJ with rfl | stays'
        · exact Nat.lt_of_le_of_ne (below i wasFull) other
        · by_cases wasOpen : i ∈ l.opened
          · rcases room with ⟨-, rfl⟩ | ⟨-, -, room⟩
            · exact absurd wasOpen notLeft
            · exact room.oldest i wasOpen notLeft j stays'
          · exact inOrder.layered i wasFull wasOpen j (subset stays')
    · intro i isOpen
      rw [grown]
      rcases oldOr i isOpen with rfl | old
      · simp [inChunk, Arrival.chunk]
      · simp [inOrder.filled i (subset old)]
    · intro i isOpen j isOpen' less x lastX y lastY
      rcases oldOr j isOpen' with rfl | oldJ
      · have isLast : y = a := by simpa [own] using lastY.symm
        rcases oldOr i isOpen with same | oldI
        · omega
        · simp only [others i (Nat.ne_of_lt less)] at lastX
          exact isLast ▸ inOrder.past i (subset oldI) x lastX a (by simp)
      · have reach := below j (inOrder.filled j (subset oldJ))
        rcases oldOr i isOpen with same | oldI
        · omega
        · simp only [others i (by omega)] at lastX
          by_cases sameJ : j = a.chunk cfg
          · subst sameJ
            have isLast : y = a := by simpa [own] using lastY.symm
            exact isLast ▸ inOrder.past i (subset oldI) x lastX a (by simp)
          · simp only [others j sameJ] at lastY
            exact inOrder.aged i (subset oldI) j (subset oldJ) less x lastX y lastY
    · intro i isOpen x last b member
      by_cases same : i = a.chunk cfg
      · subst same
        have isLast : x = a := by simpa [own] using last.symm
        exact isLast ▸ firstClock b member
      · simp only [others i same] at last
        exact inOrder.past i (subset ((oldOr i isOpen).resolve_left same)) x last b
          (by simp [member])

/-- In order the invariant accounts for every sealed chunk. -/
theorem inOrder_accounts (cfg : WriterConfig) : Accounts cfg (InOrder cfg) where
  ingest := inOrder_ingest
  tick := inOrder_tick
  late := by
    intro earlier marked l a rest inOrder
    have watermark := watermarkWith_in_order (inOrder.above a (by simp))
    simp only [watermark, Nat.le_add_right, inTolerance, List.all_eq_true, decide_eq_true_eq,
      true_iff]
    exact fun b member => (inOrder.history b member a (by simp)).trans (Nat.le_add_right _ _)
  sealed := by
    intro earlier marked l a rest inOrder _ unopened used
    by_contra free
    exact Nat.lt_irrefl _ (inOrder.passed _ used unopened free a (by simp))
  marks inOrder := inOrder.marks

end Sillage
