import Sillage.Common.PlainCodecs
import Sillage.Writer.InOrder
import Sillage.Writer.Recovery
import Sillage.Writer.Tolerance

/-!
# Stopping and resuming

A lane is stopped by a shutdown, or by a crash that no seal is in progress at. The
directory is recovered and a second lane is fed from the reported resume slot. The
resume slot is the end of the last sealed range, whether or not that range had been
read to its end.
-/

namespace Sillage

open LittleEndian Directory OpenChunk Ledger Chunker Recovery

variable {k : Codecs} {stream : Stream} {cfg : WriterConfig} {s : Chunker} {l : Ledger}

/-- How a lane ends. A crash can interrupt a call that was sealing the open chunks one
after the other, when some of the oldest are sealed already. -/
inductive Stop where
  | shutdown
  | crash (reason : String) (sealed : Nat)
deriving DecidableEq

/-- The directory that a stopped lane leaves behind. -/
def stop (k : Codecs) (s : Chunker) : Stop → Except Fault Dir
  | .shutdown => (Chunker.shutdown k s).map Chunker.baseDir
  | .crash reason sealed => (sealAll k reason (s.open.keys.take sealed) s).map Chunker.baseDir

/-- What a represented chunker has sealed remains when its open chunks are lost. -/
theorem represents_remains (represents : Represents k stream cfg s l) :
    Remains k stream cfg s.baseDir (fun idx => if idx ∈ l.opened then [] else l.contents idx) where
  chunks idx full := by
    by_cases isOpen : idx ∈ l.opened
    · simp [isOpen] at full
    · simp only [isOpen, if_false] at full ⊢
      exact represents.chunks idx isOpen full
  only name content stored kept := by
    rcases represents.only name content stored with ⟨idx, -, rfl⟩ | ⟨idx, ext, closed, full, final, rfl⟩
    · have leftover := isPartial_leftover cfg idx "zst"
      exact absurd leftover (by simpa using kept)
    · exact ⟨idx, ext, by simpa [closed] using full, final, rfl⟩

/-- The chunks that are open when a lane ends and that nothing seals any more. -/
def lost (s : Chunker) : Stop → List Nat
  | .shutdown => []
  | .crash _ sealed => s.open.keys.drop sealed

/-- A stopped lane leaves the sealed chunks and those the last call sealed, which were
older than the ones it lost. -/
theorem stop_remains (positive : 0 < cfg.slotsPerChunk) (represents : Represents k stream cfg s l)
    (settled : Settled l) (how : Stop) :
    ∃ dir, stop k s how = .ok dir ∧ (∀ i ∈ lost s how, i ∈ l.opened) ∧
      (∀ i ∈ l.opened, i ∉ lost s how → ∀ j ∈ lost s how, i < j) ∧
      Remains k stream cfg dir (fun idx => if idx ∈ lost s how then [] else l.contents idx) := by
  cases how with
  | shutdown =>
    obtain ⟨final, done, represented⟩ := shutdown_represents positive represents settled
    refine ⟨final.baseDir, by simp [stop, done, Except.map], by simp [lost], by simp [lost], ?_⟩
    simpa [Ledger.shutdown, lost] using represents_remains represented
  | crash reason sealed =>
    obtain ⟨ascending, keys, -⟩ := represents.keys
    have listed : ∀ idx, idx ∈ l.opened ↔ idx ∈ s.open.keys := by
      intro idx
      rw [← keys, List.mem_toFinset]
    have nodup : s.open.keys.Nodup := ascending.imp Nat.ne_of_lt
    obtain ⟨s', done, represented⟩ := represents_sealAll positive reason
      (s.open.keys.take sealed) (nodup.sublist (List.take_sublist _ _)) represents
      (fun idx member => (listed idx).mpr (List.mem_of_mem_take member)) settled.filled
    have halves := List.take_append_drop sealed s.open.keys
    rw [← halves, List.nodup_append] at nodup
    rw [← halves, List.pairwise_append] at ascending
    have split : ∀ idx, idx ∈ l.opened ↔
        idx ∈ s.open.keys.take sealed ∨ idx ∈ s.open.keys.drop sealed := by
      intro idx
      rw [listed, ← List.mem_append, halves]
    refine ⟨s'.baseDir, by simp [stop, done, Except.map], fun i member => (split i).mpr (.inr member),
      ?_, ?_⟩
    · intro i wasOpen found j among
      exact ascending.2.2 i (((split i).mp wasOpen).resolve_right found) j among
    · have same : ∀ idx, idx ∈ (l.close (s.open.keys.take sealed).toFinset).opened ↔
          idx ∈ s.open.keys.drop sealed := by
        intro idx
        simp only [Ledger.close, Finset.mem_sdiff, List.mem_toFinset, split]
        constructor
        · exact fun here => here.1.resolve_left here.2
        · exact fun dropped => ⟨.inr dropped, fun taken => nodup.2.2 idx taken idx dropped rfl⟩
      have remains := represents_remains represented
      simp only [same] at remains
      exact remains

/-- A message as the provider delivers it. -/
abbrev Delivery := Nat × SubscribeUpdate

/-- The delivered message behind an arrival. -/
def Arrival.delivery (a : Arrival) : Delivery := (a.slot, a.msg.inner)

/-- The messages of a feed whose slot lies in the range of a chunk. -/
def ofChunk (cfg : WriterConfig) (idx : Nat) (feed : List Delivery) : List Delivery :=
  feed.filter (fun m => m.1 / cfg.slotsPerChunk = idx)

/-- The messages of a chunk are its deliveries. -/
theorem map_inChunk (idx : Nat) (messages : List Arrival) :
    (inChunk cfg idx messages).map Arrival.delivery =
      ofChunk cfg idx (messages.map Arrival.delivery) := by
  rw [inChunk, ofChunk, List.filter_map]
  rfl

/-- Deliveries of a chunk come one behind the other. -/
theorem ofChunk_append (idx : Nat) (first second : List Delivery) :
    ofChunk cfg idx (first ++ second) = ofChunk cfg idx first ++ ofChunk cfg idx second :=
  List.filter_append ..

/-- What the provider delivers after a restart: every message at or above the resume
slot, or what comes after the stop when there is none. -/
def delivered (before after : List Delivery) : Option Nat → List Delivery
  | some resume => (before ++ after).filter (fun m => resume ≤ m.1)
  | none => after

/-- Every message of a feed is in exactly one sealed chunk, the one that covers its
slot, and nothing else is sealed. -/
def RecordsFeed (k : Codecs) (stream : Stream) (cfg : WriterConfig) (dir : Dir)
    (feed : List Delivery) : Prop :=
  ∃ contents, Archive k stream cfg dir contents ∧
    ∀ idx, (contents idx).map Arrival.delivery = ofChunk cfg idx feed

/-- The report names the resume slot of each stream's swept directory. -/
theorem resumeSlotOf_runRecovery (dirs : Dirs) (stream : Stream) :
    resumeSlotOf (runRecovery dirs).2 stream =
      latestSealedEndSlot (sweepPartials (dirs stream)).1 := by
  cases stream <;> rfl

/-- What a lane that is fed in order records over an archive whose chunks all lie below
its messages. -/
theorem inOrder_lane (positive : 0 < cfg.slotsPerChunk) (capped : 0 < cfg.maxOpenChunks)
    {dir : Dir} {contents : Nat → List Arrival} (archive : Archive k stream cfg dir contents)
    (ops : List Op) (fits : ∀ a ∈ arrivals ops, Fits cfg a.slot)
    (sorted : Sorted (arrivals ops))
    (clear : ∀ i, contents i ≠ [] → ∀ a ∈ arrivals ops, i < a.chunk cfg) :
    (accepted k (new stream cfg dir) ops).Sublist (arrivals ops) ∧
      (accepted k (new stream cfg dir) ops = arrivals ops ↔
        ¬ Interrupts k cfg (new stream cfg dir) [] ops) ∧
      ∃ (marked : Set Nat) (s : Chunker) (l : Ledger), run k (new stream cfg dir) ops = .ok s ∧
        Represents k stream cfg s l ∧ Settled l ∧ (∀ i ∈ marked, i ∉ l.opened ∧ l.contents i ≠ []) ∧
        (∀ i, l.contents i ≠ [] → i ∉ l.opened → ∀ j ∈ l.opened, i < j) ∧
        (∀ idx, l.contents idx =
          contents idx ++ inChunk cfg idx (accepted k (new stream cfg dir) ops)) ∧
        ∀ idx, idx ∉ marked → inChunk cfg idx (accepted k (new stream cfg dir) ops) =
          inChunk cfg idx (arrivals ops) := by
  have nothing : Settled ⟨none, ∅, contents⟩ := ⟨by simp, by simp⟩
  have start : InOrder cfg [] ∅ ⟨none, ∅, contents⟩ ops :=
    ⟨sorted, by simp, by simp, fun i full a member => (clear i full a member).le,
      fun i full _ _ a member => clear i full a member, by simp, by simp, by simp, by simp,
      by simp⟩
  obtain ⟨sublist, complete, marked, s, l, ran, represents, settled, -, inOrder, recorded,
    unmarked⟩ := run_accepts (inOrder_accounts cfg) positive capped [] ∅ ops
      (represents_new archive) nothing fits start
  have all : tolerated cfg [] (arrivals ops) = arrivals ops :=
    tolerated_sorted sorted.slots (by simp)
  rw [all] at sublist complete unmarked
  refine ⟨sublist, complete.trans (by simp), marked, s, l, ran, represents, settled,
    inOrder.marks, inOrder.layered, recorded, unmarked⟩

/-- What a stop leaves of a lane's accepted messages: whole chunks, all of them below
any that is left, and every chunk that missed a message. -/
structure Halted (cfg : WriterConfig) (fed taken : List Arrival) (left : Nat → List Arrival) :
    Prop where
  sublist : taken.Sublist fed
  part : ∀ idx, left idx = [] ∨ left idx = inChunk cfg idx taken
  lower : ∀ i j, left i ≠ [] → j ≤ i → left j = inChunk cfg j taken
  missed : ∀ idx, inChunk cfg idx taken ≠ inChunk cfg idx fed → left idx ≠ []

/-- The resume slot is the end of the last chunk that is left. -/
def ResumesAt (cfg : WriterConfig) (left : Nat → List Arrival) : Option Nat → Prop
  | none => ∀ idx, left idx = []
  | some resume => ∃ last, left last ≠ [] ∧
      resume = last * cfg.slotsPerChunk + cfg.slotsPerChunk ∧ ∀ idx, left idx ≠ [] → idx ≤ last

/-- A slot lies at or above the end of a range exactly when its chunk lies above. -/
theorem resume_le_iff (positive : 0 < cfg.slotsPerChunk) (last slot : Nat) :
    last * cfg.slotsPerChunk + cfg.slotsPerChunk ≤ slot ↔ last < slot / cfg.slotsPerChunk := by
  rw [← Nat.succ_le_iff, Nat.le_div_iff_mul_le positive, Nat.succ_mul]

/-- The restarted lane is fed the messages of the chunks above the resume slot. -/
theorem ofChunk_delivered (positive : 0 < cfg.slotsPerChunk) (before after : List Delivery)
    (last idx : Nat) :
    ofChunk cfg idx (delivered before after
        (some (last * cfg.slotsPerChunk + cfg.slotsPerChunk))) =
      if last < idx then ofChunk cfg idx (before ++ after) else [] := by
  simp only [ofChunk, delivered, List.filter_filter]
  split
  · next above =>
    refine List.filter_congr (fun m _ => ?_)
    by_cases here : m.1 / cfg.slotsPerChunk = idx
    · simp [here, (resume_le_iff positive last m.1).mpr (here ▸ above)]
    · simp [here]
  · next below =>
    refine List.filter_eq_nil_iff.mpr (fun m _ => ?_)
    simp only [Bool.and_eq_true, decide_eq_true_eq, not_and, resume_le_iff positive]
    omega

/-- A chunk has no delivery exactly if none is of its range. -/
theorem ofChunk_eq_nil {feed : List Delivery} {idx : Nat} :
    ofChunk cfg idx feed = [] ↔ ∀ m ∈ feed, m.1 / cfg.slotsPerChunk ≠ idx := by
  simp [ofChunk, List.filter_eq_nil_iff]

/-- Under the conditions the two lanes together record the feed: the chunks up to the
last one left come from the first lane, the others from the second. -/
theorem records_of_conditions (positive : 0 < cfg.slotsPerChunk) {fed₁ fed₂ taken : List Arrival}
    {left : Nat → List Arrival} {before after : List Delivery} {resume : Option Nat}
    (halted : Halted cfg fed₁ taken left) (resumes : ResumesAt cfg left resume)
    (first : fed₁.map Arrival.delivery = before)
    (second : fed₂.map Arrival.delivery = delivered before after resume)
    (reported : before = [] ∨ resume ≠ none)
    (reached : ∀ r, resume = some r → ∀ m ∈ after, r ≤ m.1) (calm : taken = fed₁) (idx : Nat) :
    (left idx ++ inChunk cfg idx fed₂).map Arrival.delivery = ofChunk cfg idx (before ++ after) := by
  rw [List.map_append, map_inChunk, second]
  cases resume with
  | none =>
    have nothing := reported.resolve_right (not_not.mpr rfl)
    rw [resumes idx, nothing]
    rfl
  | some r =>
    obtain ⟨last, full, rfl, greatest⟩ := resumes
    rw [ofChunk_delivered positive]
    split
    · next above =>
      have empty : left idx = [] := by
        by_contra more
        exact absurd (greatest idx more) (by omega)
      rw [empty]
      rfl
    · next below =>
      have nothingNew : ofChunk cfg idx after = [] := by
        refine ofChunk_eq_nil.mpr (fun m member here => ?_)
        have chunk := (resume_le_iff positive last m.1).mp (reached _ rfl m member)
        omega
      rw [halted.lower last idx full (by omega), calm, map_inChunk, first, ofChunk_append,
        nothingNew]

/-- When every chunk ends up with as many messages as the feed has in its range, the
conditions hold. -/
theorem conditions_of_records (positive : 0 < cfg.slotsPerChunk)
    {fed₁ fed₂ taken taken₂ : List Arrival} {left : Nat → List Arrival}
    {before after : List Delivery} {resume : Option Nat} (halted : Halted cfg fed₁ taken left)
    (resumes : ResumesAt cfg left resume) (first : fed₁.map Arrival.delivery = before)
    (second : fed₂.map Arrival.delivery = delivered before after resume)
    (sublist : taken₂.Sublist fed₂)
    (counts : ∀ idx, (left idx).length + (inChunk cfg idx taken₂).length =
      (ofChunk cfg idx (before ++ after)).length) :
    (before = [] ∨ resume ≠ none) ∧ (∀ r, resume = some r → ∀ m ∈ after, r ≤ m.1) ∧
      taken = fed₁ ∧ taken₂ = fed₂ := by
  have sizes : ∀ (fed : List Arrival) (idx : Nat), (inChunk cfg idx fed).length =
      (ofChunk cfg idx (fed.map Arrival.delivery)).length := by
    intro fed idx
    rw [← map_inChunk, List.length_map]
  have fewer : ∀ idx, (inChunk cfg idx taken₂).length ≤
      (ofChunk cfg idx (delivered before after resume)).length := by
    intro idx
    rw [← second, ← sizes]
    exact (sublist.filter _).length_le
  have kept : ∀ idx, (left idx).length ≤ (ofChunk cfg idx before).length := by
    intro idx
    rw [← first, ← sizes]
    rcases halted.part idx with none | whole
    · simp [none]
    · exact whole ▸ (halted.sublist.filter _).length_le
  simp only [ofChunk_append, List.length_append] at counts
  cases resume with
  | none =>
    have empty : before = [] := by
      refine List.eq_nil_iff_forall_not_mem.mpr (fun m member => ?_)
      have count := counts (m.1 / cfg.slotsPerChunk)
      have bound := fewer (m.1 / cfg.slotsPerChunk)
      rw [resumes] at count
      simp only [delivered, List.length_nil] at bound count
      have none : ofChunk cfg (m.1 / cfg.slotsPerChunk) before = [] :=
        List.eq_nil_of_length_eq_zero (by omega)
      exact ofChunk_eq_nil.mp none m member rfl
    have unfed : fed₁ = [] := List.map_eq_nil_iff.mp (first.trans empty)
    refine ⟨.inl empty, by simp, ?_, ?_⟩
    · have nothing := halted.sublist
      rw [unfed] at nothing ⊢
      exact List.sublist_nil.mp nothing
    · refine sublist_eq_of_inChunk cfg sublist (fun idx => ?_)
      rw [sizes fed₂, second]
      simpa [resumes idx, empty, ofChunk, delivered] using counts idx
  | some r =>
    obtain ⟨last, full, rfl, greatest⟩ := resumes
    simp only [ofChunk_delivered positive] at fewer
    -- up to the last chunk that is left, the first lane alone has to account for the feed
    have low : ∀ idx, idx ≤ last → (left idx).length = (ofChunk cfg idx before).length ∧
        (ofChunk cfg idx after).length = 0 ∧ (inChunk cfg idx taken₂).length = 0 := by
      intro idx below
      have count := counts idx
      have bound := fewer idx
      have some := kept idx
      rw [if_neg (by omega), List.length_nil] at bound
      omega
    refine ⟨.inr (by simp), ?_, ?_, ?_⟩
    · rintro r same m member
      obtain rfl := Option.some.inj same
      rw [resume_le_iff positive]
      by_contra below
      have none := List.eq_nil_of_length_eq_zero (low _ (not_lt.mp below)).2.1
      exact ofChunk_eq_nil.mp none m member rfl
    · refine sublist_eq_of_inChunk cfg halted.sublist (fun idx => ?_)
      by_contra short
      have wasLeft := halted.missed idx (fun same => short (congrArg List.length same))
      have whole := (halted.part idx).resolve_left wasLeft
      rw [sizes fed₁, first, ← (low idx (greatest idx wasLeft)).1, whole] at short
      exact short rfl
    · refine sublist_eq_of_inChunk cfg sublist (fun idx => ?_)
      rw [sizes fed₂, second, ofChunk_delivered positive]
      split
      · next above =>
        have empty : left idx = [] := by
          by_contra more
          exact absurd (greatest idx more) (by omega)
        simpa [empty, ofChunk_append] using counts idx
      · next below => exact (low idx (by omega)).2.2

/-- A lane that is fed in order over an empty directory halts where it is stopped. -/
theorem halted_stop (k : Codecs) (stream : Stream) (positive : 0 < cfg.slotsPerChunk)
    (capped : 0 < cfg.maxOpenChunks) (ops : List Op)
    (fits : ∀ a ∈ arrivals ops, Fits cfg a.slot) (sorted : Sorted (arrivals ops)) (how : Stop) :
    ∃ s dir, run k (new stream cfg ∅) ops = .ok s ∧ stop k s how = .ok dir ∧
      (accepted k (new stream cfg ∅) ops = arrivals ops ↔
        ¬ Interrupts k cfg (new stream cfg ∅) [] ops) ∧
      ∃ left : Nat → List Arrival, Halted cfg (arrivals ops) (accepted k (new stream cfg ∅) ops) left ∧
        (∀ idx, left idx ≠ [] ↔ idx ∉ lost s how ∧ ∃ a ∈ arrivals ops, a.chunk cfg = idx) ∧
        Remains k stream cfg dir left := by
  obtain ⟨sublist, complete, marked, s, l, ran, represents, settled, marks, layered, recorded,
    unmarked⟩ := inOrder_lane positive capped (archive_empty k stream cfg) ops fits sorted (by simp)
  obtain ⟨dir, stopped, wasOpen, older, remains⟩ := stop_remains positive represents settled how
  simp only [List.nil_append] at recorded
  simp only [recorded] at remains marks layered
  have missed : ∀ idx, inChunk cfg idx (accepted k (new stream cfg ∅) ops) ≠
      inChunk cfg idx (arrivals ops) →
      idx ∉ lost s how ∧ inChunk cfg idx (accepted k (new stream cfg ∅) ops) ≠ [] := by
    intro idx differs
    obtain ⟨shut, full⟩ := marks idx (by_contra (fun free => differs (unmarked idx free)))
    exact ⟨fun gone => shut (wasOpen idx gone), full⟩
  refine ⟨s, dir, ran, stopped, complete, _, ⟨sublist, ?_, ?_, ?_⟩, ?_, remains⟩
  · intro idx
    by_cases gone : idx ∈ lost s how <;> simp [gone]
  · intro i j full below
    by_cases goneI : i ∈ lost s how
    · simp [goneI] at full
    · have stays : j ∉ lost s how := by
        intro goneJ
        by_cases isOpen : i ∈ l.opened
        · exact absurd (older i isOpen goneI j goneJ) (by omega)
        · simp only [goneI, if_false] at full
          exact absurd (layered i full isOpen j (wasOpen j goneJ)) (by omega)
      simp [stays]
  · intro idx differs
    obtain ⟨stays, full⟩ := missed idx differs
    simpa [stays] using full
  · intro idx
    by_cases gone : idx ∈ lost s how
    · simp [gone]
    · simp only [gone, if_false, not_false_eq_true, true_and]
      have fed : (∃ a ∈ arrivals ops, a.chunk cfg = idx) ↔ inChunk cfg idx (arrivals ops) ≠ [] := by
        simp [inChunk, Arrival.chunk, List.filter_eq_nil_iff]
      rw [fed]
      by_cases same : inChunk cfg idx (accepted k (new stream cfg ∅) ops) =
          inChunk cfg idx (arrivals ops)
      · rw [same]
      · refine iff_of_true (missed idx same).2 (fun none => ?_)
        have shorter : (inChunk cfg idx (accepted k (new stream cfg ∅) ops)).Sublist
            (inChunk cfg idx (arrivals ops)) := sublist.filter _
        rw [none] at shorter
        exact (missed idx same).2 (List.sublist_nil.mp shorter)

/-- Over an archive recovery reports the end of the last chunk. -/
theorem resumesAt_archive (positive : 0 < cfg.slotsPerChunk) {dir : Dir}
    {left : Nat → List Arrival} (archive : Archive k stream cfg dir left)
    (fits : ∀ idx, left idx ≠ [] → idx * cfg.slotsPerChunk + cfg.slotsPerChunk < u64Bound) :
    ResumesAt cfg left (latestSealedEndSlot dir) := by
  have latest := latestSealedEndSlot_archive archive fits
  cases found : latestSealedEndSlot dir with
  | none => simpa [found, ResumesAt] using latest
  | some resume =>
    simp only [found] at latest
    obtain ⟨⟨last, full, rfl⟩, greatest⟩ := latest
    refine ⟨last, full, rfl, fun idx more => ?_⟩
    have ends := greatest idx more
    exact Nat.le_of_mul_le_mul_right (by omega) positive

/-- The conditions on the resume slot, read off the chunks that the first lane sealed. -/
theorem resume_conditions (positive : 0 < cfg.slotsPerChunk) {before after : List Delivery}
    {left : Nat → List Arrival} {resume : Option Nat} {gone : List Nat}
    (resumes : ResumesAt cfg left resume)
    (sealed : ∀ idx, left idx ≠ [] ↔ idx ∉ gone ∧ ∃ m ∈ before, m.1 / cfg.slotsPerChunk = idx)
    (ordered : ∀ m ∈ before, ∀ m' ∈ after, m.1 ≤ m'.1) :
    ((before = [] ∨ resume ≠ none) ↔
        (before = [] ∨ ∃ m ∈ before, m.1 / cfg.slotsPerChunk ∉ gone)) ∧
      ((∀ r, resume = some r → ∀ m' ∈ after, r ≤ m'.1) ↔
        ∀ m ∈ before, m.1 / cfg.slotsPerChunk ∉ gone →
          ∀ m' ∈ after, m'.1 / cfg.slotsPerChunk ≠ m.1 / cfg.slotsPerChunk) := by
  have wasSealed : ∀ m ∈ before, m.1 / cfg.slotsPerChunk ∉ gone →
      left (m.1 / cfg.slotsPerChunk) ≠ [] :=
    fun m member stays => (sealed _).mpr ⟨stays, m, member, rfl⟩
  cases resume with
  | none =>
    have nothing : ∀ m ∈ before, m.1 / cfg.slotsPerChunk ∈ gone := by
      intro m member
      by_contra stays
      exact wasSealed m member stays (resumes _)
    constructor
    · simp only [ne_eq, not_true_eq_false, or_false]
      exact ⟨.inl, fun either => either.resolve_right (fun ⟨m, member, stays⟩ =>
        stays (nothing m member))⟩
    · exact iff_of_true (by simp) (fun m member stays => absurd (nothing m member) stays)
  | some r =>
    obtain ⟨last, full, rfl, greatest⟩ := resumes
    obtain ⟨stays, m, member, isLast⟩ := (sealed last).mp full
    constructor
    · exact iff_of_true (.inr (by simp)) (.inr ⟨m, member, isLast ▸ stays⟩)
    · simp only [Option.some.injEq, forall_eq', resume_le_iff positive]
      constructor
      · intro above b among keeps m' later same
        have low := greatest _ (wasSealed b among keeps)
        have high := above m' later
        omega
      · intro apart m' later
        have reach := Nat.div_le_div_right (c := cfg.slotsPerChunk) (ordered m member m' later)
        have other := apart m member (isLast ▸ stays) m' later
        omega

/-- What is delivered was fed, and is not below the slot to resume from. -/
theorem mem_delivered {before after : List Delivery} {resume : Option Nat} {m : Delivery}
    (member : m ∈ delivered before after resume) :
    m ∈ before ++ after ∧ ∀ r, resume = some r → r ≤ m.1 := by
  cases resume with
  | none => exact ⟨List.mem_append_right _ member, by simp⟩
  | some r =>
    obtain ⟨among, above⟩ := List.mem_filter.mp member
    exact ⟨among, by simpa using above⟩

/-- What is delivered was fed, in this order. -/
theorem delivered_sublist (before after : List Delivery) (resume : Option Nat) :
    (delivered before after resume).Sublist (before ++ after) := by
  cases resume with
  | none => exact List.sublist_append_right _ _
  | some r => exact List.filter_sublist

/-- A lane's messages are in order when what it is fed is. -/
theorem sorted_of_feed {messages : List Arrival} {feed : List Delivery}
    (fed : messages.map Arrival.delivery = feed)
    (ordered : feed.Pairwise (fun m m' => m.1 ≤ m'.1))
    (clock : messages.Pairwise (fun a b => a.now ≤ b.now)) : Sorted messages := by
  subst fed
  rw [List.pairwise_map] at ordered
  exact ⟨ordered, clock⟩

/-- Messages of a feed whose slots fit, fit. -/
theorem fits_of_feed {messages : List Arrival} {feed : List Delivery}
    (fed : messages.map Arrival.delivery = feed) (fits : ∀ m ∈ feed, Fits cfg m.1) :
    ∀ a ∈ messages, Fits cfg a.slot := by
  subst fed
  exact fun a member => fits a.delivery (List.mem_map_of_mem member)

/-- A feed that is interrupted by a stop and resumed where recovery says is recorded,
every message once, exactly when some chunk is sealed at the stop, no message after the
stop falls into a chunk that was sealed by then, and no tick interrupts either lane. -/
theorem restart_iff (k : Codecs) (json : k.JsonRoundTrips) (stream : Stream) (cfg : WriterConfig)
    (positive : 1 ≤ cfg.slotsPerChunk) (capped : 1 ≤ cfg.maxOpenChunks)
    (before after : List Delivery)
    (ordered : (before ++ after).Pairwise (fun m m' => m.1 ≤ m'.1))
    (fits : ∀ m ∈ before ++ after, Fits cfg m.1) (ops₁ : List Op)
    (first : (arrivals ops₁).map Arrival.delivery = before)
    (clock₁ : (arrivals ops₁).Pairwise (fun a b => a.now ≤ b.now)) (how : Stop) :
    ∃ s₁ dir, run k (new stream cfg ∅) ops₁ = .ok s₁ ∧ stop k s₁ how = .ok dir ∧
      ∀ dirs : Dirs, dirs stream = dir → ∀ ops₂,
        (arrivals ops₂).map Arrival.delivery =
          delivered before after (resumeSlotOf (runRecovery dirs).2 stream) →
        (arrivals ops₂).Pairwise (fun a b => a.now ≤ b.now) →
        ∃ s₂ final, run k (new stream cfg ((runRecovery dirs).1 stream)) ops₂ = .ok s₂ ∧
          shutdown k s₂ = .ok final ∧
          (RecordsFeed k stream cfg final.baseDir (before ++ after) ↔
            (before = [] ∨ ∃ m ∈ before, m.1 / cfg.slotsPerChunk ∉ lost s₁ how) ∧
            (∀ m ∈ before, m.1 / cfg.slotsPerChunk ∉ lost s₁ how →
              ∀ m' ∈ after, m'.1 / cfg.slotsPerChunk ≠ m.1 / cfg.slotsPerChunk) ∧
            ¬ Interrupts k cfg (new stream cfg ∅) [] ops₁ ∧
            ¬ Interrupts k cfg (new stream cfg ((runRecovery dirs).1 stream)) [] ops₂) := by
  obtain ⟨orderedBefore, -, across⟩ := List.pairwise_append.mp ordered
  have fits₁ := fits_of_feed first (fun m member => fits m (List.mem_append_left _ member))
  obtain ⟨s₁, dir, ran₁, stopped, complete₁, left, halted, sealed, remains⟩ :=
    halted_stop k stream positive capped ops₁ fits₁
      (sorted_of_feed first orderedBefore clock₁) how
  refine ⟨s₁, dir, ran₁, stopped, ?_⟩
  rintro dirs rfl ops₂ second clock₂
  rw [resumeSlotOf_runRecovery] at second
  have archive : Archive k stream cfg ((runRecovery dirs).1 stream) left := archive_sweep remains
  have sealed' : ∀ idx, left idx ≠ [] ↔
      idx ∉ lost s₁ how ∧ ∃ m ∈ before, m.1 / cfg.slotsPerChunk = idx := by
    intro idx
    simp only [sealed, ← first, List.mem_map, exists_exists_and_eq_and]
    rfl
  have leftFits : ∀ idx, left idx ≠ [] → idx * cfg.slotsPerChunk + cfg.slotsPerChunk < u64Bound := by
    intro idx full
    obtain ⟨-, m, member, rfl⟩ := (sealed' idx).mp full
    exact (fits m (List.mem_append_left _ member)).range
  have resumes := resumesAt_archive positive archive leftFits
  have fits₂ := fits_of_feed second (fun m member => fits m (mem_delivered member).1)
  have clear : ∀ i, left i ≠ [] → ∀ a ∈ arrivals ops₂, i < a.chunk cfg := by
    intro i full a member
    have fed : a.delivery ∈ delivered before after
        (latestSealedEndSlot (sweepPartials (dirs stream)).1) := second ▸ List.mem_map_of_mem member
    cases found : latestSealedEndSlot ((runRecovery dirs).1 stream) with
    | none =>
      rw [found] at resumes
      exact absurd (resumes i) full
    | some r =>
      rw [found] at resumes
      obtain ⟨last, -, rfl, greatest⟩ := resumes
      have above := (mem_delivered fed).2 _ found
      exact lt_of_le_of_lt (greatest i full) ((resume_le_iff positive last a.slot).mp above)
  have sorted₂ := sorted_of_feed second (ordered.sublist (delivered_sublist _ _ _)) clock₂
  obtain ⟨sublist₂, complete₂, -⟩ := inOrder_lane positive capped archive ops₂ fits₂ sorted₂ clear
  obtain ⟨s₂, final, ran₂, done, recorded⟩ := run_archive positive capped archive ops₂ fits₂
  obtain ⟨reported, reached⟩ := resume_conditions positive resumes sealed' across
  refine ⟨s₂, final, ran₂, done, ?_⟩
  rw [← reported, ← reached, ← complete₁, ← complete₂]
  constructor
  · rintro ⟨contents, stored, records⟩
    refine conditions_of_records positive halted resumes first second sublist₂ (fun idx => ?_)
    rw [← records, List.length_map, ← archive_length json positive recorded stored idx,
      List.length_append]
  · rintro ⟨isReported, isReached, calm₁, calm₂⟩
    refine ⟨_, recorded, fun idx => ?_⟩
    rw [calm₂]
    exact records_of_conditions positive halted resumes first second isReported isReached calm₁ idx

/-- A feed of two slots of one range, stopped gracefully between them. -/
def midRange (slot : Nat) : List Delivery := [(slot, ⟨[], none, none, []⟩)]

/-- The calls of a lane that is fed a list of messages at time zero. -/
def fedAtOnce (feed : List Delivery) : List Op :=
  feed.map (fun m => .ingest ⟨0, ⟨0, m.2⟩, m.1⟩)

/-- The slots of that feed fit. -/
theorem midRange_fits : ∀ m ∈ midRange 500 ++ midRange 501, Fits ⟨1000, 100, 4⟩ m.1 := by
  intro m member
  simp only [midRange, List.cons_append, List.nil_append, List.mem_cons, List.not_mem_nil,
    or_false] at member
  rcases member with rfl | rfl <;> exact ⟨by decide, by decide, by decide⟩

/-- A shutdown in the middle of a range loses what is fed of it behind the restart. -/
theorem restart_iff_midRange :
    ∃ s₁ dir, run PlainCodecs.plain (new .tx ⟨1000, 100, 4⟩ ∅) (fedAtOnce (midRange 500)) =
        .ok s₁ ∧ stop PlainCodecs.plain s₁ .shutdown = .ok dir ∧
      ∀ dirs : Dirs, dirs .tx = dir → ∀ ops₂,
        (arrivals ops₂).map Arrival.delivery =
          delivered (midRange 500) (midRange 501) (resumeSlotOf (runRecovery dirs).2 .tx) →
        (arrivals ops₂).Pairwise (fun a b => a.now ≤ b.now) →
        ∃ s₂ final, run PlainCodecs.plain
            (new .tx ⟨1000, 100, 4⟩ ((runRecovery dirs).1 .tx)) ops₂ = .ok s₂ ∧
          shutdown PlainCodecs.plain s₂ = .ok final ∧
          (RecordsFeed PlainCodecs.plain .tx ⟨1000, 100, 4⟩ final.baseDir
              (midRange 500 ++ midRange 501) ↔
            (midRange 500 = [] ∨ ∃ m ∈ midRange 500, m.1 / 1000 ∉ lost s₁ .shutdown) ∧
            (∀ m ∈ midRange 500, m.1 / 1000 ∉ lost s₁ .shutdown →
              ∀ m' ∈ midRange 501, m'.1 / 1000 ≠ m.1 / 1000) ∧
            ¬ Interrupts PlainCodecs.plain ⟨1000, 100, 4⟩ (new .tx ⟨1000, 100, 4⟩ ∅) []
              (fedAtOnce (midRange 500)) ∧
            ¬ Interrupts PlainCodecs.plain ⟨1000, 100, 4⟩
              (new .tx ⟨1000, 100, 4⟩ ((runRecovery dirs).1 .tx)) [] ops₂) :=
  restart_iff PlainCodecs.plain PlainCodecs.plain_roundTrip.json .tx ⟨1000, 100, 4⟩ (by decide)
    (by decide) (midRange 500) (midRange 501) (by decide) midRange_fits
    (fedAtOnce (midRange 500)) rfl (by decide) .shutdown

/-- The stop seals the range of both slots, so that the lane resumes above the second,
which is recorded nowhere. -/
theorem restart_discards :
    ¬ ∀ s₁ dir, run PlainCodecs.plain (new .tx ⟨1000, 100, 4⟩ ∅) (fedAtOnce (midRange 500)) =
        .ok s₁ → stop PlainCodecs.plain s₁ .shutdown = .ok dir →
      ∀ dirs : Dirs, dirs .tx = dir → ∀ ops₂,
        (arrivals ops₂).map Arrival.delivery =
          delivered (midRange 500) (midRange 501) (resumeSlotOf (runRecovery dirs).2 .tx) →
        (arrivals ops₂).Pairwise (fun a b => a.now ≤ b.now) →
        ∃ s₂ final, run PlainCodecs.plain
            (new .tx ⟨1000, 100, 4⟩ ((runRecovery dirs).1 .tx)) ops₂ = .ok s₂ ∧
          shutdown PlainCodecs.plain s₂ = .ok final ∧
          RecordsFeed PlainCodecs.plain .tx ⟨1000, 100, 4⟩ final.baseDir
            (midRange 500 ++ midRange 501) := by
  intro continuous
  have positive : 0 < (⟨1000, 100, 4⟩ : WriterConfig).slotsPerChunk := by decide
  obtain ⟨s₁, dir, ran₁, stopped, -, left, halted, sealed, remains⟩ :=
    halted_stop PlainCodecs.plain .tx positive (by decide)
      (fedAtOnce (midRange 500))
      (fits_of_feed (rfl : _ = midRange 500)
        (fun m member => midRange_fits m (List.mem_append_left _ member)))
      (sorted_of_feed (rfl : _ = midRange 500) (by decide) (by decide)) .shutdown
  have archive := archive_sweep remains
  have onlyZero : ∀ idx, left idx ≠ [] → idx = 0 := by
    intro idx full
    obtain ⟨-, a, member, rfl⟩ := (sealed idx).mp full
    obtain rfl := List.mem_singleton.mp member
    rfl
  have full : left 0 ≠ [] := (sealed 0).mpr ⟨by simp [lost], _, List.mem_singleton_self _, rfl⟩
  have resumes := resumesAt_archive positive archive
    (fun idx more => onlyZero idx more ▸ by decide)
  cases found : latestSealedEndSlot (sweepPartials dir).1 with
  | none =>
    rw [found] at resumes
    exact full (resumes 0)
  | some resume =>
    rw [found] at resumes
    obtain ⟨last, wasLeft, rfl, -⟩ := resumes
    obtain rfl := onlyZero last wasLeft
    obtain ⟨s₂, final, ran₂, done, contents, stored, records⟩ :=
      continuous s₁ dir ran₁ stopped (fun _ => dir) rfl [] (by
        rw [resumeSlotOf_runRecovery, found]
        rfl) List.Pairwise.nil
    obtain ⟨s₂', final', ran₂', done', recorded⟩ :=
      run_archive positive (by decide) archive [] (by simp)
    obtain rfl := Except.ok.inj (ran₂.symm.trans ran₂')
    obtain rfl := Except.ok.inj (done.symm.trans done')
    have counts := archive_length PlainCodecs.plain_roundTrip.json positive recorded stored 0
    have two := congrArg List.length (records 0)
    rw [List.length_map, ← counts] at two
    have one : (left 0).length ≤ 1 := by
      rw [(halted.part 0).resolve_left full]
      exact (halted.sublist.filter _).length_le
    simp only [accepted, inChunk_nil, List.append_nil] at two
    exact absurd (two ▸ one) (by decide)

end Sillage
