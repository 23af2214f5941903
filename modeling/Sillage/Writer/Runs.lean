import Sillage.Writer.Refinement

/-!
# What a lane's calls record

A run of calls appends the accepted messages to their chunks and no others. Which
messages a run accepts is settled by one induction rule: an invariant that accounts
for every sealed chunk as idle-sealed or out of reach decides it.
-/

namespace Sillage

open LittleEndian Directory OpenChunk Ledger

namespace Chunker

/-- The messages among the calls. -/
def arrivals (ops : List Op) : List Arrival :=
  ops.filterMap (fun | .ingest a => some a | .tick _ => none)

/-- Without calls there are no messages. -/
@[simp] theorem arrivals_nil : arrivals [] = [] := rfl

/-- A message that is ingested arrives. -/
@[simp] theorem arrivals_ingest (a : Arrival) (rest : List Op) :
    arrivals (.ingest a :: rest) = a :: arrivals rest := rfl

/-- A tick brings no message. -/
@[simp] theorem arrivals_tick (now : Nat) (rest : List Op) :
    arrivals (.tick now :: rest) = arrivals rest := rfl

/-- Messages that are ingested arrive, and no others. -/
theorem arrivals_map_ingest (messages : List Arrival) :
    arrivals (messages.map .ingest) = messages := by
  induction messages with
  | nil => rfl
  | cons a rest inductionHypothesis => simp [inductionHypothesis]

/-- The messages that a run of calls appends to a chunk. -/
def accepted (k : Codecs) : Chunker → List Op → List Arrival
  | _, [] => []
  | s, .ingest a :: rest =>
      match ingest k a s with
      | .ok (.appended, s') => a :: accepted k s' rest
      | .ok (_, s') => accepted k s' rest
      | .error _ => []
  | s, .tick now :: rest =>
      match tick k now s with
      | .ok s' => accepted k s' rest
      | .error _ => []

/-- Only messages that arrive are accepted. -/
theorem accepted_sublist (k : Codecs) (s : Chunker) (ops : List Op) :
    (accepted k s ops).Sublist (arrivals ops) := by
  induction ops generalizing s with
  | nil => exact List.Sublist.refl _
  | cons op rest inductionHypothesis =>
    cases op with
    | ingest a =>
      simp only [accepted, arrivals_ingest]
      split
      · exact (inductionHypothesis _).cons_cons a
      · exact (inductionHypothesis _).cons a
      · exact List.nil_sublist _
    | tick now =>
      simp only [accepted, arrivals_tick]
      split
      · exact inductionHypothesis _
      · exact List.nil_sublist _

/-- The slot reaches, with the tolerance, every slot that arrived earlier. -/
def inTolerance (cfg : WriterConfig) (earlier : List Arrival) (a : Arrival) : Bool :=
  earlier.all (fun b => b.slot ≤ a.slot + cfg.outOfOrderToleranceSlots)

/-- The messages within the tolerance, given those that arrived earlier. -/
def tolerated (cfg : WriterConfig) : List Arrival → List Arrival → List Arrival
  | _, [] => []
  | earlier, a :: rest =>
      if inTolerance cfg earlier a then a :: tolerated cfg (a :: earlier) rest
      else tolerated cfg (a :: earlier) rest

/-- Some tick finds an idle chunk into whose range a later message within the
tolerance falls. -/
def Interrupts (k : Codecs) (cfg : WriterConfig) (s : Chunker) (earlier : List Arrival)
    (ops : List Op) : Prop :=
  ∃ before now after s' idx chunk a, ops = before ++ .tick now :: after ∧
    run k s before = .ok s' ∧ s'.open[idx]? = some chunk ∧ stale now chunk = true ∧
    a ∈ tolerated cfg ((arrivals before).reverse ++ earlier) (arrivals after) ∧
    a.slot / cfg.slotsPerChunk = idx

end Chunker

open Chunker

variable {k : Codecs} {stream : Stream} {cfg : WriterConfig} {s : Chunker} {l : Ledger}

/-- The messages whose slot lies in the range of a chunk. -/
def inChunk (cfg : WriterConfig) (idx : Nat) (messages : List Arrival) : List Arrival :=
  messages.filter (fun a => a.slot / cfg.slotsPerChunk = idx)

/-- Without messages a chunk has none. -/
@[simp] theorem inChunk_nil (idx : Nat) : inChunk cfg idx [] = [] := rfl

/-- A message is in its own chunk. -/
theorem inChunk_cons (idx : Nat) (a : Arrival) (rest : List Arrival) :
    inChunk cfg idx (a :: rest) =
      (if a.slot / cfg.slotsPerChunk = idx then [a] else []) ++ inChunk cfg idx rest := by
  by_cases here : a.slot / cfg.slotsPerChunk = idx <;> simp [inChunk, here]

/-- Only an appended message changes the contents, at the end of its chunk. -/
theorem Ledger.Takes.contents {a : Arrival} {verdict : Verdict} {l' : Ledger}
    (takes : Takes cfg a l verdict l') (idx : Nat) :
    l'.contents idx = l.contents idx ++
      if verdict = .appended then inChunk cfg idx [a] else [] := by
  cases takes with
  | olderThanTolerance late => simp [Ledger.advance]
  | alreadySealed left inTime unopened used room => simp [Ledger.advance]
  | appended left inTime room =>
    by_cases here : a.slot / cfg.slotsPerChunk = idx
    · subst here
      simp [Ledger.record, Ledger.advance, inChunk]
    · simp [Ledger.record, Ledger.advance, inChunk, here, Function.update_of_ne (Ne.symm here)]

/-- What is left open behind a message was open before, but for the message's own chunk. -/
theorem room_subset {cap : Nat} {opened left : Finset Nat} {isOpen unopened unused : Prop}
    (room : (isOpen ∧ left = opened) ∨ (unopened ∧ unused ∧ Room cap opened left)) :
    left ⊆ opened := by
  rcases room with ⟨-, rfl⟩ | ⟨-, -, room⟩
  · exact Finset.Subset.refl left
  · exact room.subset

/-- A chunk that room was not made of is shut only behind the watermark. -/
theorem behind_of_shut {watermarkChunk idx : Nat} {left : Finset Nat} (stays : idx ∈ left)
    (shut : idx ∉ ahead watermarkChunk left) : idx + sealLookaheadChunks ≤ watermarkChunk :=
  not_lt.mp (fun less => shut (Finset.mem_filter.mpr ⟨stays, less⟩))

/-- A chunk that has been sealed stays so. -/
theorem Ledger.Takes.shut {a : Arrival} {verdict : Verdict} {l' : Ledger} {idx : Nat}
    (takes : Takes cfg a l verdict l') (closed : idx ∉ l.opened) (full : l.contents idx ≠ []) :
    idx ∉ l'.opened ∧ l'.contents idx ≠ [] := by
  refine ⟨?_, by rw [takes.contents]; simp [full]⟩
  cases takes with
  | olderThanTolerance late => exact closed
  | alreadySealed left inTime unopened used room =>
    exact fun isOpen => closed (room.subset (Finset.mem_filter.mp isOpen).1)
  | appended left inTime room =>
    intro isOpen
    rcases Finset.mem_insert.mp (Finset.mem_filter.mp isOpen).1 with rfl | old
    · rcases room with ⟨wasOpen, -⟩ | ⟨-, unused, -⟩
      · exact closed wasOpen
      · exact full unused
    · exact closed (room_subset room old)

/-- A run whose slots fit never fails, and appends exactly the accepted messages. -/
theorem run_contents (positive : 0 < cfg.slotsPerChunk) (capped : 0 < cfg.maxOpenChunks)
    (ops : List Op) (represents : Represents k stream cfg s l) (settled : Settled l)
    (fits : ∀ a ∈ arrivals ops, Fits cfg a.slot) :
    ∃ s' l', run k s ops = .ok s' ∧ Represents k stream cfg s' l' ∧ Settled l' ∧
      ∀ idx, l'.contents idx = l.contents idx ++ inChunk cfg idx (accepted k s ops) := by
  induction ops generalizing s l with
  | nil => exact ⟨s, l, rfl, represents, settled, by simp [accepted]⟩
  | cons op rest inductionHypothesis =>
    cases op with
    | ingest a =>
      obtain ⟨verdict, s₁, l₁, done, takes, represents₁, settled₁⟩ :=
        ingest_takes positive capped represents settled a (fits a (by simp))
      obtain ⟨s', l', rested, represents', settled', contents⟩ :=
        inductionHypothesis represents₁ settled₁ (fun b member => fits b (by simp [member]))
      refine ⟨s', l', by simp [run, step, done, bind, Except.bind, Except.map, rested],
        represents', settled', ?_⟩
      intro idx
      rw [contents, takes.contents]
      cases verdict with
      | appended => simp [accepted, done, inChunk_cons idx a (accepted k s₁ rest), inChunk_cons idx a []]
      | olderThanTolerance => simp [accepted, done]
      | alreadySealed => simp [accepted, done]
    | tick now =>
      obtain ⟨s₁, done, represents₁, settled₁⟩ := tick_represents positive now represents settled
      obtain ⟨s', l', rested, represents', settled', contents⟩ :=
        inductionHypothesis represents₁ settled₁ (fun b member => fits b (by simpa using member))
      refine ⟨s', l', by simp [run, step, done, bind, Except.bind, rested], represents', settled',
        ?_⟩
      intro idx
      rw [contents]
      simp [accepted, done, Ledger.tick]

/-- A run and the shutdown after it leave an archive of what was there before and the
accepted messages. -/
theorem run_archive (positive : 0 < cfg.slotsPerChunk) (capped : 0 < cfg.maxOpenChunks)
    {dir : Dir} {contents : Nat → List Arrival} (archive : Archive k stream cfg dir contents)
    (ops : List Op) (fits : ∀ a ∈ arrivals ops, Fits cfg a.slot) :
    ∃ s final, run k (new stream cfg dir) ops = .ok s ∧ shutdown k s = .ok final ∧
      Archive k stream cfg final.baseDir
        (fun idx => contents idx ++ inChunk cfg idx (accepted k (new stream cfg dir) ops)) := by
  have nothing : Settled ⟨none, ∅, contents⟩ := ⟨by simp, by simp⟩
  obtain ⟨s, l, ran, represents, settled, recorded⟩ :=
    run_contents positive capped ops (represents_new archive) nothing fits
  obtain ⟨final, done, represented⟩ := shutdown_represents positive represents settled
  refine ⟨s, final, ran, done, ?_⟩
  have sealed := represented.archive rfl
  have same : l.shutdown.contents = fun idx =>
      contents idx ++ inChunk cfg idx (accepted k (new stream cfg dir) ops) := funext recorded
  rwa [same] at sealed

/-- Calls go on behind the others. -/
theorem run_append (ops later : List Op) :
    run k s (ops ++ later) = (run k s ops).bind (fun s' => run k s' later) := by
  induction ops generalizing s with
  | nil => rfl
  | cons op rest inductionHypothesis =>
    simp only [List.cons_append, run, bind, Except.bind]
    cases step k s op with
    | error fault => rfl
    | ok s' => exact inductionHypothesis

/-- A call in front shifts the interruptions behind it; a tick adds its own. -/
theorem interrupts_ingest {earlier : List Arrival} {a : Arrival} {rest : List Op} {s' : Chunker}
    {verdict : Verdict} (done : ingest k a s = .ok (verdict, s')) :
    Interrupts k cfg s earlier (.ingest a :: rest) ↔ Interrupts k cfg s' (a :: earlier) rest := by
  constructor
  · rintro ⟨before, now, after, reached, idx, chunk, b, split, ran, found, isStale, member, here⟩
    cases before with
    | nil => cases split
    | cons op before =>
      obtain ⟨rfl, behind⟩ := List.cons.inj split
      refine ⟨before, now, after, reached, idx, chunk, b, behind, ?_, found, isStale, ?_, here⟩
      · simpa [run, step, done, bind, Except.bind, Except.map] using ran
      · simpa using member
  · rintro ⟨before, now, after, reached, idx, chunk, b, rfl, ran, found, isStale, member, here⟩
    refine ⟨.ingest a :: before, now, after, reached, idx, chunk, b, rfl, ?_, found, isStale, ?_,
      here⟩
    · simpa [run, step, done, bind, Except.bind, Except.map] using ran
    · simpa using member

/-- A tick interrupts a chunk that is stale and still to get a tolerated message, or the rest
does so behind it. -/
theorem interrupts_tick {earlier : List Arrival} {now : Nat} {rest : List Op} {s' : Chunker}
    (done : tick k now s = .ok s') :
    Interrupts k cfg s earlier (.tick now :: rest) ↔
      (∃ idx chunk, s.open[idx]? = some chunk ∧ stale now chunk = true ∧
        ∃ a ∈ tolerated cfg earlier (arrivals rest), a.slot / cfg.slotsPerChunk = idx) ∨
      Interrupts k cfg s' earlier rest := by
  constructor
  · rintro ⟨before, time, after, reached, idx, chunk, b, split, ran, found, isStale, member, here⟩
    cases before with
    | nil =>
      obtain ⟨same, rfl⟩ := List.cons.inj split
      cases same
      cases ran
      exact .inl ⟨idx, chunk, found, isStale, b, by simpa using member, here⟩
    | cons op before =>
      obtain ⟨rfl, behind⟩ := List.cons.inj split
      refine .inr ⟨before, time, after, reached, idx, chunk, b, behind, ?_, found, isStale, ?_,
        here⟩
      · simpa [run, step, done, bind, Except.bind] using ran
      · simpa using member
  · rintro (⟨idx, chunk, found, isStale, b, member, here⟩ |
      ⟨before, time, after, reached, idx, chunk, b, rfl, ran, found, isStale, member, here⟩)
    · exact ⟨[], now, rest, s, idx, chunk, b, rfl, rfl, found, isStale, by simpa using member,
        here⟩
    · refine ⟨.tick now :: before, time, after, reached, idx, chunk, b, rfl, ?_, found, isStale,
        ?_, here⟩
      · simpa [run, step, done, bind, Except.bind] using ran
      · simpa using member

/-- An invariant under which every sealed chunk that a message within the tolerance
can still meet is marked as idle-sealed. It relates the messages so far, the marked
chunks, the ledger and the calls to come. -/
structure Accounts (cfg : WriterConfig)
    (inv : List Arrival → Set Nat → Ledger → List Op → Prop) : Prop where
  ingest : ∀ {earlier marked l a rest verdict l'}, inv earlier marked l (.ingest a :: rest) →
    Takes cfg a l verdict l' → inv (a :: earlier) marked l' rest
  tick : ∀ {earlier marked l now rest}, inv earlier marked l (.tick now :: rest) →
    inv earlier (marked ∪ {idx | idx ∈ l.opened ∧ idle now (l.contents idx) = true})
      (l.tick now) rest
  late : ∀ {earlier marked l a rest}, inv earlier marked l (.ingest a :: rest) →
    (l.watermarkWith a.slot ≤ a.slot + cfg.outOfOrderToleranceSlots ↔
      inTolerance cfg earlier a = true)
  sealed : ∀ {earlier marked l a rest}, inv earlier marked l (.ingest a :: rest) →
    inTolerance cfg earlier a = true → a.slot / cfg.slotsPerChunk ∉ l.opened →
    l.contents (a.slot / cfg.slotsPerChunk) ≠ [] → a.slot / cfg.slotsPerChunk ∈ marked
  marks : ∀ {earlier marked l ops}, inv earlier marked l ops → ∀ idx ∈ marked,
    idx ∉ l.opened ∧ l.contents idx ≠ []

/-- What a run accepts, under an invariant that accounts for the sealed chunks. Every
accepted message is within the tolerance; a chunk that is never marked gets all of
them; and the run accepts all of them exactly when no message meets a marked chunk
and no tick interrupts. -/
theorem run_accepts {inv : List Arrival → Set Nat → Ledger → List Op → Prop}
    (accounts : Accounts cfg inv) (positive : 0 < cfg.slotsPerChunk)
    (capped : 0 < cfg.maxOpenChunks) (earlier : List Arrival) (marked : Set Nat) (ops : List Op)
    (represents : Represents k stream cfg s l) (settled : Settled l)
    (fits : ∀ a ∈ arrivals ops, Fits cfg a.slot) (holds : inv earlier marked l ops) :
    (accepted k s ops).Sublist (tolerated cfg earlier (arrivals ops)) ∧
      (accepted k s ops = tolerated cfg earlier (arrivals ops) ↔
        (∀ a ∈ tolerated cfg earlier (arrivals ops), a.slot / cfg.slotsPerChunk ∉ marked) ∧
          ¬ Interrupts k cfg s earlier ops) ∧
      ∃ marked' s' l', run k s ops = .ok s' ∧ Represents k stream cfg s' l' ∧ Settled l' ∧
        marked ⊆ marked' ∧ inv ((arrivals ops).reverse ++ earlier) marked' l' [] ∧
        (∀ idx, l'.contents idx = l.contents idx ++ inChunk cfg idx (accepted k s ops)) ∧
        ∀ idx, idx ∉ marked' → inChunk cfg idx (accepted k s ops) =
          inChunk cfg idx (tolerated cfg earlier (arrivals ops)) := by
  induction ops generalizing s l earlier marked with
  | nil =>
    refine ⟨List.Sublist.refl _, ⟨fun _ => ⟨by simp [tolerated], ?_⟩, fun _ => rfl⟩, marked, s, l,
      rfl, represents, settled, subset_rfl, holds, by simp [accepted], fun _ _ => rfl⟩
    rintro ⟨before, now, after, -, -, -, -, split, -⟩
    simp at split
  | cons op rest inductionHypothesis =>
    cases op with
    | tick now =>
      obtain ⟨s₁, done, represents₁, settled₁⟩ := tick_represents positive now represents settled
      obtain ⟨sublist, complete, marked', s', l', ran, represents', settled', grown, holds',
        contents, unmarked⟩ := inductionHypothesis earlier _ represents₁ settled₁
          (fun b member => fits b (by simpa using member)) (accounts.tick holds)
      have same : accepted k s (.tick now :: rest) = accepted k s₁ rest := by
        simp [accepted, done]
      simp only [same, arrivals_tick]
      refine ⟨sublist, ?_, marked', s', l', by simp [run, step, done, bind, Except.bind, ran],
        represents', settled', Set.subset_union_left.trans grown, holds', contents, unmarked⟩
      rw [complete, interrupts_tick done]
      simp only [Set.mem_union, Set.mem_ofPred_eq, not_or, not_exists, not_and, forall_and]
      constructor
      · rintro ⟨⟨clear, quiet⟩, calm⟩
        refine ⟨clear, ?_, calm⟩
        rintro idx chunk found isStale a member rfl
        obtain ⟨opening, rfl⟩ := represents.holds _ _ found
        have isOpen : a.slot / cfg.slotsPerChunk ∈ l.opened :=
          (represents.opened _).mp (Std.TreeMap.mem_iff_isSome_getElem?.mpr (by simp [found]))
        exact quiet a member isOpen
          ((stale_holding now _ opening _ (settled.filled _ isOpen)) ▸ isStale)
      · rintro ⟨clear, quiet, calm⟩
        refine ⟨⟨clear, ?_⟩, calm⟩
        intro a member isOpen isIdle
        obtain ⟨opening, found⟩ := represents.chunk isOpen
        exact quiet _ _ found
          ((stale_holding now _ opening _ (settled.filled _ isOpen)).trans isIdle) a member rfl
    | ingest a =>
      obtain ⟨verdict, s₁, l₁, done, takes, represents₁, settled₁⟩ :=
        ingest_takes positive capped represents settled a (fits a (by simp))
      obtain ⟨sublist, complete, marked', s', l', ran, represents', settled', grown, holds',
        contents, unmarked⟩ := inductionHypothesis (a :: earlier) marked represents₁ settled₁
          (fun b member => fits b (by simp [member])) (accounts.ingest holds takes)
      have finished : run k s (.ingest a :: rest) = .ok s' := by
        simp [run, step, done, bind, Except.bind, Except.map, ran]
      have history : (arrivals (.ingest a :: rest)).reverse ++ earlier =
          (arrivals rest).reverse ++ a :: earlier := by simp
      rw [interrupts_ingest done, history]
      simp only [arrivals_ingest, tolerated]
      cases takes with
      | olderThanTolerance late =>
        have outside : inTolerance cfg earlier a = false := by
          rw [Bool.eq_false_iff, ne_eq, ← accounts.late holds]
          exact not_le.mpr late
        have same : accepted k s (.ingest a :: rest) = accepted k s₁ rest := by
          simp [accepted, done]
        rw [same, outside]
        exact ⟨sublist, complete, marked', s', l', finished, represents', settled', grown, holds',
          contents, unmarked⟩
      | alreadySealed left inTime unopened used room =>
        have inside : inTolerance cfg earlier a = true := (accounts.late holds).mp inTime
        have isMarked := accounts.sealed holds inside unopened used
        have same : accepted k s (.ingest a :: rest) = accepted k s₁ rest := by
          simp [accepted, done]
        rw [same, inside]
        refine ⟨sublist.cons a, ⟨?_, ?_⟩, marked', s', l', finished, represents', settled', grown,
          holds', contents, ?_⟩
        · intro equal
          have shorter := sublist.length_le
          rw [equal, if_pos rfl, List.length_cons] at shorter
          omega
        · rintro ⟨clear, -⟩
          exact absurd isMarked (clear a (by simp))
        · intro idx free
          have elsewhere : a.slot / cfg.slotsPerChunk ≠ idx :=
            fun here => free (here ▸ grown isMarked)
          simp [inChunk_cons idx a, elsewhere, unmarked idx free]
      | appended left inTime room =>
        have inside : inTolerance cfg earlier a = true := (accounts.late holds).mp inTime
        have free : a.slot / cfg.slotsPerChunk ∉ marked := by
          intro isMarked
          obtain ⟨closed, used⟩ := accounts.marks holds _ isMarked
          rcases room with ⟨isOpen, -⟩ | ⟨-, unused, -⟩
          · exact closed isOpen
          · exact used unused
        have same : accepted k s (.ingest a :: rest) = a :: accepted k s₁ rest := by
          simp [accepted, done]
        rw [same, inside]
        refine ⟨sublist.cons_cons a, ?_, marked', s', l', finished, represents', settled', grown,
          holds', ?_, ?_⟩
        · simp only [if_true, List.cons.injEq, true_and, List.mem_cons, forall_eq_or_imp, free,
            not_false_eq_true, complete]
        · intro idx
          have first := Ledger.Takes.contents (.appended left inTime room) idx
          rw [contents, first, inChunk_cons idx a (accepted k s₁ rest), inChunk_cons idx a []]
          simp
        · intro idx outside
          simp [inChunk_cons idx a, unmarked idx outside]

end Sillage
