import Sillage.Reader.Serving

/-!
# Files under a subscription

A catalog lists files, and a subscription opens them one by one, long after it has taken
the catalog. The syncer removes what has left its window whether a subscription still has
to open it or not. A subscription is spared when no sweep takes a file away that it may still
open. One that begins during a sweep may in addition have a catalog with chunks that are gone.
-/

namespace Sillage

open LittleEndian Idx Directory Names

namespace Serving

open Sync

/-- A file that a subscription may still open: index and payload of a chunk that is to be
planned, and the payload of a planned chunk that has not been opened. -/
inductive MayOpen : Caller → Stream → FileName → Prop where
  | index {planning : Planning} {phase : Lru.Phase ChunkIndex} {item : Stream × ChunkEntry}
      (next : item ∈ planning.todo) :
      MayOpen (.planning planning phase) item.2.stream item.2.idxPath
  | payload {planning : Planning} {phase : Lru.Phase ChunkIndex} {item : Stream × ChunkEntry}
      (next : item ∈ planning.todo) :
      MayOpen (.planning planning phase) item.2.stream item.2.zstPath
  | planned {planning : Planning} {phase : Lru.Phase ChunkIndex} {own : Stream}
      {plan : ChunkPlan} (made : plan ∈ planning.plan.plansPerStream own)
      (full : plan.union ≠ ∅) :
      MayOpen (.planning planning phase) plan.entry.stream plan.entry.zstPath
  | ahead {parsed : SubscriptionFilters} {cursors : Stream → Option StreamCursor}
      {phases : Stream → Lru.Phase DecodedChunk} {own : Stream} {cursor : StreamCursor}
      {plan : ChunkPlan} (has : cursors own = some cursor)
      (ahead : plan ∈ cursor.plans.drop cursor.planIdx) (full : plan.union ≠ ∅) :
      MayOpen (.replaying parsed cursors phases) plan.entry.stream plan.entry.zstPath

/-- Every file that a subscription may still open is there. -/
def Readable (files : Files) (caller : Caller) : Prop :=
  ∀ stream name, MayOpen caller stream name → Present (files stream) name

/-- A subscription that failed because a file could not be read. -/
inductive Unreadable : Caller → Prop where
  | index : Unreadable (.failed (.plan (.other .unreadable)))
  | payload : Unreadable (.failed (.replay (.decode .unreadable)))

/-- Nothing has been removed from the disk since the catalog was published. -/
def World.Quiet (w : World) : Prop :=
  w.syncer.stage = .sweeping → w.syncer.changed = false

/-- A sweep takes no file away that a subscription may still open, and a subscription that
begins while a sweep goes on begins with chunks whose files are there. -/
def Act.Spares (w : World) : Act → Prop
  | .disk lane => w.syncer.stage = .sweeping → ∀ step rest,
      w.syncer.lanes[lane]? = some (step :: rest) →
        ∀ id name, MayOpen (w.callers id) step.1 name → Keeps name step.2
  | .subscribe _ parsed explicitFromSlot => w.syncer.stage = .sweeping →
      Readable w.files (subscribed w.catalog parsed explicitFromSlot)
  | _ => True

/-- A subscription finds what it may still open, and has not failed for a file. -/
structure Spared (files : Files) (caller : Caller) : Prop where
  readable : Readable files caller
  final : ∀ stream name, MayOpen caller stream name → ¬ partialSuffix <:+ name
  found : ¬ Unreadable caller

/-- Index and payload of a chunk are there. -/
structure Stocked (files : Files) (entry : ChunkEntry) : Prop where
  zst : Present (files entry.stream) entry.zstPath
  idx : Present (files entry.stream) entry.idxPath

/-- Index and payload of a chunk have names that no download uses for a while. -/
structure Final (entry : ChunkEntry) : Prop where
  zst : ¬ partialSuffix <:+ entry.zstPath
  idx : ¬ partialSuffix <:+ entry.idxPath

/-- As long as nothing has been removed, the chunks of the catalog have their files, and the
syncer is not about to take any away. -/
structure Matching (w : World) : Prop where
  final : ∀ entry, w.catalog.Holds entry → Final entry
  stocked : w.Quiet → ∀ entry, w.catalog.Holds entry → Stocked w.files entry
  harmless : w.Quiet → ∀ lane ∈ w.syncer.lanes, ∀ step ∈ lane, ∀ name,
    ¬ partialSuffix <:+ name → Keeps name step.2

variable {reader : Reader} {files : Files}

/-- A subscription that may open no more than before is spared as before, unless it has
failed. -/
theorem Spared.mono {caller caller' : Caller} (spared : Spared files caller)
    (less : ∀ stream name, MayOpen caller' stream name → MayOpen caller stream name)
    (found : ¬ Unreadable caller') : Spared files caller' :=
  ⟨fun stream name may => spared.readable stream name (less stream name may),
    fun stream name may => spared.final stream name (less stream name may), found⟩

/-- A subscription that does not go on opens nothing. -/
theorem spared_idle : Spared files .idle := by
  refine ⟨fun stream name may => ?_, fun stream name may => ?_, fun impossible => ?_⟩
  · cases may
  · cases may
  · cases impossible

/-- A failure that is none of a missing file has nothing more to open. -/
theorem spared_failed {failure : Failure} (found : ¬ Unreadable (.failed failure)) :
    Spared files (.failed failure) := by
  refine ⟨fun stream name may => ?_, fun stream name may => ?_, found⟩
  · cases may
  · cases may

/-- A file that is there can be read, whatever it parses or decodes to. -/
theorem index_readable {file : Option Bytes} (present : file.isSome = true) :
    parseChunkIndex reader.codecs file ≠ .error .unreadable := by
  obtain ⟨raw, rfl⟩ := Option.isSome_iff_exists.mp present
  simp only [parseChunkIndex]
  split
  · split
    · simp
    · split
      · simp
      · split
        · simp
        · split <;> simp
  · simp

/-- The frames of a payload that is there are never reported as unreadable. -/
theorem collectFrames_readable (offset : Nat) (frames : List (Except Chunk.ChunkError Bytes)) :
    collectFrames offset frames ≠ .error .unreadable := by
  induction frames generalizing offset with
  | nil => simp [collectFrames]
  | cons frame rest inductionHypothesis =>
    cases frame with
    | error error => simp [collectFrames]
    | ok payload =>
      simp only [collectFrames, bind, Except.bind]
      split
      · next error failed =>
        rintro ⟨⟩
        exact inductionHypothesis _ failed
      · simp

/-- A payload that is there may be damaged, but is not unreadable. -/
theorem payload_readable {file : Option Bytes} (present : file.isSome = true) :
    decodeChunk reader.codecs file ≠ .error .unreadable := by
  obtain ⟨compressed, rfl⟩ := Option.isSome_iff_exists.mp present
  simp only [decodeChunk, bind, Except.bind]
  split
  · simp
  · split
    · next error failed =>
      rintro ⟨⟩
      exact collectFrames_readable _ _ failed
    · simp

/-- A message that is not decoded is no file that is not read. -/
theorem decodeNext_readable {cursor : StreamCursor} {ord : Nat} {rest : List Nat} :
    StreamCursor.decodeNext reader cursor ord rest ≠ .error (.decode .unreadable) := by
  rw [StreamCursor.decodeNext]
  split
  · split
    · next error failed =>
      rintro ⟨⟩
      rw [DecodedChunk.decodeMessage] at failed
      split at failed
      · cases failed
      · split at failed <;> cases failed
    · simp
  · simp

/-- A part of a planning leaves no more to open than before, and finds what it opens. -/
theorem planPart_spared {planning : Planning} {phase : Lru.Phase ChunkIndex}
    {cache after : IndexCache} {caller : Caller}
    (readable : Readable files (.planning planning phase))
    (done : planPart (reader.seeing files) cache planning phase = (caller, after)) :
    (∀ stream name, MayOpen caller stream name →
      MayOpen (.planning planning phase) stream name) ∧ ¬ Unreadable caller := by
  rw [planPart] at done
  split at done
  · obtain ⟨rfl, rfl⟩ := Prod.mk.inj done
    refine ⟨fun stream name may => ?_, fun impossible => by cases impossible⟩
    cases may with
    | ahead has ahead full =>
      obtain rfl := opening_plans has
      exact .planned (List.mem_of_mem_drop ahead) full
  · next stream entry rest todo =>
    have isNext : (stream, entry) ∈ planning.todo := by simp [todo]
    have present : ((reader.seeing files).idxFile entry).isSome = true :=
      readable _ _ (MayOpen.index isNext)
    split at done
    · next error between part =>
      obtain ⟨rfl, rfl⟩ := Prod.mk.inj done
      refine ⟨fun stream name may => (by cases may), fun unreadable => ?_⟩
      cases unreadable
      exact index_readable present (Lru.advance_error part)
    · next next' between part =>
      obtain ⟨rfl, rfl⟩ := Prod.mk.inj done
      refine ⟨fun stream name may => ?_, fun impossible => by cases impossible⟩
      cases may with
      | index next => exact .index next
      | payload next => exact .payload next
      | planned made full => exact .planned made full
    · next index between part =>
      obtain ⟨rfl, rfl⟩ := Prod.mk.inj done
      refine ⟨fun stream' name may => ?_, fun impossible => by cases impossible⟩
      cases may with
      | index next => exact .index (todo ▸ List.mem_cons_of_mem _ next)
      | payload next => exact .payload (todo ▸ List.mem_cons_of_mem _ next)
      | planned made full =>
        rcases mem_push made with before | ⟨rfl, rfl⟩
        · exact .planned before full
        · exact MayOpen.payload isNext

/-- What is ahead of a cursor that has gone on was ahead of it before. -/
theorem mem_drop_of_le {plans : List ChunkPlan} {plan : ChunkPlan} {before after : Nat}
    (le : before ≤ after) (member : plan ∈ plans.drop after) : plan ∈ plans.drop before :=
  (List.drop_sublist_drop_left plans le).subset member

/-- A part of peeking at a cursor leaves no more ahead of it than before, and finds the
payload that it opens. -/
theorem peekPart_spared {cursor : StreamCursor} {phase : Lru.Phase DecodedChunk}
    {cache after : ChunkCache}
    {result : Except ReplayError (StreamCursor × Lru.Phase DecodedChunk)}
    (readable : ∀ plan ∈ cursor.plans.drop cursor.planIdx, plan.union ≠ ∅ →
      Present (files plan.entry.stream) plan.entry.zstPath)
    (done : peekPart (reader.seeing files) cache cursor phase = (result, after)) :
    result ≠ .error (.decode .unreadable) ∧
      ∀ cursor' phase', result = .ok (cursor', phase') →
        ∀ plan ∈ cursor'.plans.drop cursor'.planIdx, plan ∈ cursor.plans.drop cursor.planIdx := by
  rw [peekPart] at done
  split at done
  · obtain ⟨rfl, rfl⟩ := Prod.mk.inj done
    refine ⟨by simp, fun cursor' phase' same => ?_⟩
    obtain ⟨rfl, rfl⟩ := Prod.mk.inj (Except.ok.inj same)
    exact fun plan member => member
  · next ord rest idle ords =>
    obtain ⟨rfl, rfl⟩ := Prod.mk.inj done
    cases decoded : StreamCursor.decodeNext (reader.seeing files) cursor ord rest with
    | error error =>
      refine ⟨fun unreadable => ?_, fun cursor' phase' same => by cases same⟩
      cases unreadable
      exact decodeNext_readable decoded
    | ok made =>
      refine ⟨by simp [Except.map], fun cursor' phase' same => ?_⟩
      obtain ⟨rfl, rfl⟩ := Prod.mk.inj (Except.ok.inj same)
      obtain ⟨head, isNext⟩ := StreamCursor.decodeNext_inv decoded
      rw [isNext]
      exact fun plan member => member
  · have forward := StreamCursor.skipEmpty_le (cursor.plans.drop cursor.planIdx) cursor.planIdx
    have skipped := StreamCursor.skipEmpty_spec reader cursor.plans cursor.planIdx _ rfl
    split at done
    · next planIdx skips =>
      obtain ⟨rfl, rfl⟩ := Prod.mk.inj done
      rw [skips] at forward
      refine ⟨by simp, fun cursor' phase' same => ?_⟩
      obtain ⟨rfl, rfl⟩ := Prod.mk.inj (Except.ok.inj same)
      exact fun plan member => mem_drop_of_le forward member
    · next plan planIdx skips =>
      rw [skips] at forward skipped
      obtain ⟨full, isAhead, -⟩ := skipped
      have present : ((reader.seeing files).zstFile plan.entry).isSome = true :=
        readable plan isAhead full
      split at done
      · next error between part =>
        obtain ⟨rfl, rfl⟩ := Prod.mk.inj done
        refine ⟨fun unreadable => ?_, fun cursor' phase' same => by cases same⟩
        cases unreadable
        exact payload_readable present (Lru.advance_error part)
      · next next' between part =>
        obtain ⟨rfl, rfl⟩ := Prod.mk.inj done
        refine ⟨by simp, fun cursor' phase' same => ?_⟩
        obtain ⟨rfl, rfl⟩ := Prod.mk.inj (Except.ok.inj same)
        exact fun plan member => member
      · next chunk between part =>
        obtain ⟨rfl, rfl⟩ := Prod.mk.inj done
        refine ⟨by simp, fun cursor' phase' same => ?_⟩
        obtain ⟨rfl, rfl⟩ := Prod.mk.inj (Except.ok.inj same)
        exact fun plan member => mem_drop_of_le forward member

/-- A replay whose cursor of one stream has gone on may open no more than before. -/
theorem mayOpen_update {parsed : SubscriptionFilters} {cursors : Stream → Option StreamCursor}
    {phases phases' : Stream → Lru.Phase DecodedChunk} {stream : Stream}
    {cursor cursor' : StreamCursor} (has : cursors stream = some cursor)
    (less : ∀ plan ∈ cursor'.plans.drop cursor'.planIdx, plan ∈ cursor.plans.drop cursor.planIdx)
    (other : Stream) (name : FileName)
    (may : MayOpen (.replaying parsed (Function.update cursors stream (some cursor')) phases')
      other name) : MayOpen (.replaying parsed cursors phases) other name := by
  cases may with
  | @ahead _ _ _ own cursor'' plan found ahead full =>
    rcases Tables.update_some found with ⟨rfl, rfl⟩ | ⟨-, before⟩
    · exact .ahead has (less plan ahead) full
    · exact .ahead before ahead full

/-- A change of the disk that keeps a name leaves its file there. -/
theorem present_applyOn {step : Stream × FileStep} {stream : Stream} {name : FileName}
    (present : Present (files stream) name) (keeps : step.1 = stream → Keeps name step.2) :
    Present (applyOn files step stream) name := by
  by_cases same : stream = step.1
  · subst same
    rw [applyOn, Function.update_self]
    have kept : ∀ other ∈ [step.2], Keeps name other := by
      simpa using keeps rfl
    exact present_perform present kept
  · rw [applyOn, Function.update_of_ne same]
    exact present

/-- What a subscription may open that begins with a catalog are files of its chunks. -/
theorem mayOpen_subscribed {catalog : ChunkCatalog} {parsed : SubscriptionFilters}
    {explicitFromSlot : Option Nat} {stream : Stream} {name : FileName}
    (may : MayOpen (subscribed catalog parsed explicitFromSlot) stream name) :
    ∃ entry, catalog.Holds entry ∧ entry.stream = stream ∧
      (name = entry.zstPath ∨ name = entry.idxPath) := by
  rw [subscribed] at may
  split at may
  · cases may
  · split at may
    · cases may
    · cases may with
      | index next => exact ⟨_, (mem_chunksToPlan next).2, rfl, .inr rfl⟩
      | payload next => exact ⟨_, (mem_chunksToPlan next).2, rfl, .inl rfl⟩
      | planned made full => cases made

/-- A subscription that begins has not failed for a file. -/
theorem subscribed_found (catalog : ChunkCatalog) (parsed : SubscriptionFilters)
    (explicitFromSlot : Option Nat) :
    ¬ Unreadable (subscribed catalog parsed explicitFromSlot) := by
  rw [subscribed]
  split
  · rintro ⟨⟩
  · next firstAvailable _ =>
    split
    · next error refused =>
      intro unreadable
      cases unreadable
      rw [Reader.startSlot.eq_def] at refused
      split at refused
      · split at refused <;> cases refused
      · cases refused
    · rintro ⟨⟩

/-- A subscription that begins is spared unless a sweep has come between the catalog and the
disk. -/
theorem subscribed_spared {w : World} (matching : Matching w) (parsed : SubscriptionFilters)
    (explicitFromSlot : Option Nat)
    (sweeping : w.syncer.stage = .sweeping →
      Readable w.files (subscribed w.catalog parsed explicitFromSlot)) :
    Spared w.files (subscribed w.catalog parsed explicitFromSlot) := by
  refine ⟨fun stream name may => ?_, fun stream name may => ?_, subscribed_found _ _ _⟩
  · by_cases duringSweep : w.syncer.stage = .sweeping
    · exact sweeping duringSweep stream name may
    · obtain ⟨entry, isHeld, rfl, isFile⟩ := mayOpen_subscribed may
      have stocked := matching.stocked (fun during => absurd during duringSweep) entry isHeld
      rcases isFile with rfl | rfl
      · exact stocked.zst
      · exact stocked.idx
  · obtain ⟨entry, isHeld, rfl, isFile⟩ := mayOpen_subscribed may
    rcases isFile with rfl | rfl
    · exact (matching.final entry isHeld).zst
    · exact (matching.final entry isHeld).idx

/-! ## The catalog beside the disk -/

/-- A scan finds chunks with their files. -/
theorem scanEntry_stocked {k : Codecs} {stream : Stream} {dir : Dir} {name : FileName}
    {entry : ChunkEntry} (scanned : ChunkCatalog.scanEntry k stream dir name = some entry) :
    Present dir entry.zstPath ∧ Present dir entry.idxPath ∧ Final entry := by
  obtain ⟨text, _, _, found⟩ := ChunkCatalog.scanEntry_iff.mp scanned
  refine ⟨found.payload, found.index, ?_, ?_⟩
  · rw [found.zstPath]
    exact not_partialSuffix_append text (show _ = some 't' by decide) (by decide)
  · rw [found.idxPath]
    exact not_partialSuffix_append text (show _ = some 'x' by decide) (by decide)

/-- What a scan finds has its files, and they have final names. -/
theorem scanIn_stocked {k : Codecs} {order : DirOrder} {entry : ChunkEntry}
    (isHeld : (scanIn k order files).Holds entry) : Stocked files entry ∧ Final entry := by
  obtain ⟨-, name, -, scanned⟩ := ChunkCatalog.scanStream_found _ _ _ _ _ _ isHeld
  obtain ⟨zst, idx, final⟩ := scanEntry_stocked scanned
  exact ⟨⟨zst, idx⟩, final⟩

/-- The syncer's acts keep the catalog matching the disk. The others change neither. -/
theorem matching_act {retentionHours : Nat} {w : World} (matching : Matching w) (next : Act) :
    Matching (act reader retentionHours w next) := by
  obtain ⟨final, stocked, harmless⟩ := matching
  cases next with
  | list remote fetch =>
    rw [act]
    split
    · next isIdle =>
      refine ⟨final, fun _ => stocked (fun during => ?_), ?_⟩
      · rw [isIdle] at during
        cases during
      · intro _ lane member step within name isFinal
        obtain ⟨key, -, rfl⟩ := List.mem_map.mp member
        obtain ⟨change, isChange, rfl⟩ := List.mem_map.mp within
        exact keeps_final isChange isFinal
    · exact ⟨final, stocked, harmless⟩
  | disk lane =>
    rw [act]
    split
    · next step rest pending =>
      have isLane : step :: rest ∈ w.syncer.lanes := List.mem_of_getElem? pending
      constructor
      · exact final
      · intro quiet entry isHeld
        have keeps := harmless quiet _ isLane step List.mem_cons_self
        obtain ⟨zst, idx⟩ := stocked quiet entry isHeld
        exact ⟨present_applyOn zst (fun _ => keeps _ (final entry isHeld).zst),
          present_applyOn idx (fun _ => keeps _ (final entry isHeld).idx)⟩
      · intro quiet other member
        rcases List.mem_or_eq_of_mem_set member with before | rfl
        · exact harmless quiet other before
        · exact fun later within => harmless quiet _ isLane later (List.mem_cons_of_mem _ within)
    · exact ⟨final, stocked, harmless⟩
  | sweep visits refuses =>
    rw [act]
    split
    · next asked =>
      have wasQuiet : w.Quiet := by
        intro during
        rw [asked.1] at during
        cases during
      -- a sweep that removes nothing leaves the syncer quiet
      refine ⟨final, fun _ => stocked wasQuiet, fun quiet lane member step within => ?_⟩
      have nothing := (Bool.or_eq_false_iff.mp (quiet rfl)).2
      obtain rfl : visits = [] := by simpa using nothing
      obtain rfl := List.mem_singleton.mp member
      cases within
    · exact ⟨final, stocked, harmless⟩
  | publish order =>
    rw [act]
    split
    · next asked =>
      by_cases changed : w.syncer.changed = true
      · rw [if_pos changed]
        exact ⟨fun entry isHeld => (scanIn_stocked isHeld).2,
          fun _ entry isHeld => (scanIn_stocked isHeld).1, fun _ lane member => by cases member⟩
      · rw [if_neg changed]
        have wasQuiet : w.Quiet := fun _ => Bool.eq_false_of_not_eq_true changed
        exact ⟨final, fun _ => stocked wasQuiet, fun _ lane member => by cases member⟩
    · exact ⟨final, stocked, harmless⟩
  | subscribe id parsed explicitFromSlot =>
    rw [act]
    split <;> exact ⟨final, stocked, harmless⟩
  | plan id =>
    rw [act]
    split <;> exact ⟨final, stocked, harmless⟩
  | peek id stream =>
    rw [act]
    split
    · split
      · exact ⟨final, stocked, harmless⟩
      · split <;> exact ⟨final, stocked, harmless⟩
    · exact ⟨final, stocked, harmless⟩
  | take id stream =>
    rw [act]
    split
    · split <;> exact ⟨final, stocked, harmless⟩
    · exact ⟨final, stocked, harmless⟩
  | leave id => exact ⟨final, stocked, harmless⟩

/-- The catalog at boot matches the disk. -/
theorem matching_boot {k : Codecs} {order : DirOrder} : Matching (World.boot k order files) := by
  refine ⟨fun entry isHeld => (scanIn_stocked isHeld).2, fun _ entry isHeld => ?_,
    fun _ lane member => by cases member⟩
  obtain ⟨stocked, final⟩ := scanIn_stocked isHeld
  have kept : ∀ name, Present (files entry.stream) name → ¬ partialSuffix <:+ name →
      Present (sweepPartials files entry.stream) name := by
    intro name present isFinal
    rw [Present, lookup_sweepPartials, if_neg isFinal]
    exact present
  exact ⟨kept _ stocked.zst final.zst, kept _ stocked.idx final.idx⟩

/-! ## Runs -/

/-- Every act that spares the subscriptions keeps them spared. -/
theorem spared_act {retentionHours : Nat} {w : World} (matching : Matching w)
    (spared : ∀ id, Spared w.files (w.callers id)) {next : Act} (spares : next.Spares w)
    (id : Nat) :
    Spared (act reader retentionHours w next).files
      ((act reader retentionHours w next).callers id) := by
  cases next with
  | list remote fetch =>
    rw [act]
    split <;> exact spared id
  | disk lane =>
    rw [act]
    split
    · next step rest pending =>
      refine ⟨fun stream name may => ?_, (spared id).final, (spared id).found⟩
      apply present_applyOn ((spared id).readable stream name may)
      rintro rfl
      by_cases duringSweep : w.syncer.stage = .sweeping
      · exact spares duringSweep step rest pending id name may
      · exact matching.harmless (fun during => absurd during duringSweep) _
          (List.mem_of_getElem? pending) step List.mem_cons_self name ((spared id).final _ name may)
    · exact spared id
  | sweep visits refuses =>
    rw [act]
    split <;> exact spared id
  | publish order =>
    rw [act]
    split <;> exact spared id
  | subscribe own parsed explicitFromSlot =>
    rw [act]
    split
    · exact forall_update spared (subscribed_spared matching parsed explicitFromSlot spares) id
    · exact spared id
  | plan own =>
    rw [act]
    split
    · next planning phase isPlanning =>
      have sparedHere := spared own
      rw [isPlanning] at sparedHere
      obtain ⟨less, found⟩ := @planPart_spared reader _ _ _ _ _ _ sparedHere.readable rfl
      exact forall_update spared (sparedHere.mono less found) id
    · exact spared id
  | peek own stream =>
    rw [act]
    split
    · next parsed cursors phases isReplaying =>
      have sparedHere := spared own
      rw [isReplaying] at sparedHere
      split
      · exact spared id
      · next cursor has =>
        have ahead : ∀ plan ∈ cursor.plans.drop cursor.planIdx, plan.union ≠ ∅ →
            Present (w.files plan.entry.stream) plan.entry.zstPath :=
          fun plan member full => sparedHere.readable _ _ (.ahead has member full)
        split
        · next error after peeked =>
          have finds := (peekPart_spared ahead peeked).1
          refine forall_update spared (spared_failed (fun unreadable => ?_)) id
          cases unreadable
          exact finds rfl
        · next cursor' phase' after peeked =>
          have less := (peekPart_spared ahead peeked).2 cursor' phase' rfl
          exact forall_update spared (sparedHere.mono (mayOpen_update has less) (by rintro ⟨⟩)) id
    · exact spared id
  | take own stream =>
    rw [act]
    split
    · next parsed cursors phases isReplaying =>
      have sparedHere := spared own
      rw [isReplaying] at sparedHere
      split
      · exact spared id
      · next item cursor' taken =>
        obtain ⟨cursor, has, removed⟩ := Option.bind_eq_some_iff.mp taken
        obtain ⟨head, shown, same⟩ := Option.map_eq_some_iff.mp removed
        obtain ⟨rfl, rfl⟩ := Prod.mk.inj same
        have less : ∀ other name, MayOpen (.replaying parsed
            (Function.update cursors stream (some { cursor with peeked := none })) phases)
            other name → MayOpen (.replaying parsed cursors phases) other name :=
          mayOpen_update has (fun plan member => member)
        exact forall_update spared (sparedHere.mono less (by rintro ⟨⟩)) id
    · exact spared id
  | leave own => exact forall_update spared spared_idle id

/-- In a run whose acts spare the subscriptions, however they come in between each other and
the syncer, every subscription finds what it may still open, and none fails for a file. -/
theorem isolated (reader : Reader) (retentionHours : Nat) (order : DirOrder) (files : Files)
    (acts : List Act)
    (spares : ∀ front last, front ++ [last] <+: acts →
      last.Spares (run reader retentionHours (World.boot reader.codecs order files) front))
    (id : Nat) :
    let w := run reader retentionHours (World.boot reader.codecs order files) acts
    Spared w.files (w.callers id) := by
  have all := @run_induction reader retentionHours
    (fun w => Matching w ∧ ∀ id, Spared w.files (w.callers id))
    (World.boot reader.codecs order files) acts ⟨matching_boot, fun _ => spared_idle⟩
    (fun front last within before => ⟨matching_act before.1 last,
      spared_act before.1 before.2 (spares front last within)⟩)
  exact all.2 id

/-- The subscription that begins, if the act is one. -/
def Act.subscriber : Act → Option Nat
  | .subscribe id _ _ => some id
  | _ => none

/-- Who does not subscribe stays idle. -/
theorem callers_idle {retentionHours : Nat} {k : Codecs} {order : DirOrder} {acts : List Act}
    {id : Nat} (absent : ∀ next ∈ acts, next.subscriber ≠ some id) :
    (run reader retentionHours (World.boot k order files) acts).callers id = .idle := by
  refine @run_induction reader retentionHours (fun w => w.callers id = .idle) _ acts
    rfl (fun front last within idle => ?_)
  have notOwn := absent last
    (within.subset (List.mem_append_right _ (List.mem_singleton_self last)))
  generalize run reader retentionHours (World.boot k order files) front = w at idle
  have elsewhere : ∀ own caller, own ≠ id →
      Function.update w.callers own caller id = .idle := by
    intro own caller other
    rw [Function.update_of_ne (Ne.symm other), idle]
  have other : ∀ own, w.callers own ≠ .idle → own ≠ id := by
    rintro own busy rfl
    exact busy idle
  cases last with
  | list remote fetch =>
    rw [act]
    split <;> exact idle
  | disk lane =>
    rw [act]
    split <;> exact idle
  | sweep visits refuses =>
    rw [act]
    split <;> exact idle
  | publish order =>
    rw [act]
    split <;> exact idle
  | subscribe own parsed explicitFromSlot =>
    have differs : own ≠ id := fun same => notOwn (congrArg some same)
    rw [act]
    split
    · exact elsewhere own _ differs
    · exact idle
  | plan own =>
    rw [act]
    split
    · next planning phase isPlanning => exact elsewhere own _ (other own (by simp [isPlanning]))
    · exact idle
  | peek own stream =>
    rw [act]
    split
    · next parsed cursors phases isReplaying =>
      have differs := other own (by simp [isReplaying])
      split
      · exact idle
      · split <;> exact elsewhere own _ differs
    · exact idle
  | take own stream =>
    rw [act]
    split
    · next parsed cursors phases isReplaying =>
      split
      · exact idle
      · exact elsewhere own _ (other own (by simp [isReplaying]))
    · exact idle
  | leave own =>
    rw [act]
    by_cases same : own = id
    · subst same
      exact Function.update_self ..
    · exact elsewhere own _ same

/-- Files among which all are that a subscription may still open. -/
def Caller.opens : Caller → List (Stream × FileName)
  | .planning made _ =>
      made.todo.flatMap (fun item =>
        [(item.2.stream, item.2.idxPath), (item.2.stream, item.2.zstPath)]) ++
      Stream.all.flatMap (fun own => (made.plan.plansPerStream own).map (fun plan =>
        (plan.entry.stream, plan.entry.zstPath)))
  | .replaying _ cursors _ =>
      Stream.all.flatMap (fun own => (cursors own).toList.flatMap (fun cursor =>
        (cursor.plans.drop cursor.planIdx).map (fun plan =>
          (plan.entry.stream, plan.entry.zstPath))))
  | _ => []

/-- What a subscription may open is among the files that it opens. -/
theorem opens_of_mayOpen {caller : Caller} {stream : Stream} {name : FileName}
    (may : MayOpen caller stream name) : (stream, name) ∈ caller.opens := by
  have all : ∀ own, own ∈ Stream.all := by decide
  cases may with
  | index next =>
    apply List.mem_append_left
    exact List.mem_flatMap.mpr ⟨_, next, List.mem_cons_self⟩
  | payload next =>
    apply List.mem_append_left
    exact List.mem_flatMap.mpr ⟨_, next, List.mem_cons_of_mem _ List.mem_cons_self⟩
  | planned made full =>
    apply List.mem_append_right
    exact List.mem_flatMap.mpr ⟨_, all _, List.mem_map.mpr ⟨_, made, rfl⟩⟩
  | ahead has ahead full =>
    exact List.mem_flatMap.mpr ⟨_, all _, List.mem_flatMap.mpr
      ⟨_, Option.mem_toList.mpr has, List.mem_map.mpr ⟨_, ahead, rfl⟩⟩⟩

/-- Whether an act spares the one subscription that there is: it begins outside a sweep, and
a sweep leaves the files alone that it may open. -/
def Act.sparesOnly (w : World) : Act → Bool
  | .disk lane => w.syncer.stage ≠ .sweeping ||
      (w.syncer.lanes[lane]?.bind List.head?).all (fun step =>
        (w.callers 0).opens.all (fun file => file.1 ≠ step.1 || Keeps file.2 step.2))
  | .subscribe _ _ _ => w.syncer.stage ≠ .sweeping
  | _ => true

/-- Where there is one subscription only, it is enough to look at that one. -/
theorem spares_of_only {w : World} (others : ∀ id ≠ 0, w.callers id = .idle) {next : Act}
    (checked : next.sparesOnly w = true) : next.Spares w := by
  cases next with
  | disk lane =>
    intro during step rest pending id name may
    by_cases first : id = 0
    · subst first
      simp only [Act.sparesOnly, during, ne_eq, not_true_eq_false, decide_false, Bool.false_or,
        pending, Option.bind_some, List.head?_cons, Option.all_some, List.all_eq_true,
        Bool.or_eq_true, decide_eq_true_eq] at checked
      exact (checked _ (opens_of_mayOpen may)).resolve_left (not_not.mpr rfl)
    · rw [others id first] at may
      cases may
  | subscribe own parsed explicitFromSlot =>
    exact fun during => absurd during (of_decide_eq_true checked)
  | _ => trivial

/-- A run with one subscription spares it when every one of its acts does. -/
theorem spares_of_checks {retentionHours : Nat} {k : Codecs} {order : DirOrder}
    {acts : List Act} (alone : ∀ next ∈ acts, next.subscriber.all (· = 0) = true)
    (checks : ∀ n < acts.length, acts[n]?.all (fun next =>
      next.sparesOnly (run reader retentionHours (World.boot k order files) (acts.take n))) = true)
    (front : List Act) (last : Act) (within : front ++ [last] <+: acts) :
    last.Spares (run reader retentionHours (World.boot k order files) front) := by
  obtain ⟨later, rfl⟩ := within
  have here := checks front.length (by simp)
  rw [List.append_assoc, List.take_left, List.singleton_append,
    List.getElem?_append_right (Nat.le_refl _), Nat.sub_self, List.getElem?_cons_zero,
    Option.all_some] at here
  refine spares_of_only (fun id other => callers_idle (fun next member isOwn => other ?_)) here
  have zero := alone next (by simp [member])
  rw [isOwn] at zero
  exact of_decide_eq_true zero

/-! ## A chunk that leaves the window -/

/-- A chunk of block metadata that leaves the window of one hour when the other comes. -/
def old : ChunkKey := ⟨.block, 0, 1000⟩

/-- The chunk whose window the old one is not in. -/
def newest : ChunkKey := ⟨.block, 99000, 100000⟩

/-- The slots in the two chunks. -/
def agedSlots (key : ChunkKey) : List Nat := if key = old then [5] else [99005]

/-- The newest chunk is downloaded, and the old one is swept. -/
def eviction : List Act :=
  .list [old, newest] (blockFetch agedSlots) :: List.replicate 9 (.disk 0) ++
    .sweep [old] (fun _ _ => false) :: List.replicate 3 (.disk 0)

/-- A reader that holds the old chunk. -/
def agedReader : Reader := blockReader (blockFiles agedSlots [old])

/-- The subscription behind some acts on a disk that holds the old chunk at boot. -/
def agedCaller (acts : List Act) : Caller :=
  (run agedReader 1 (World.boot agedReader.codecs oldestFirst (blockFiles agedSlots [old]))
    acts).callers 0

/-- A failure for a file that could not be read, if that is what a subscription ended with. -/
def unreadable : Caller → Bool
  | .failed (.plan (.other .unreadable)) => true
  | .failed (.replay (.decode .unreadable)) => true
  | _ => false

/-- Whether a subscription has failed at a missing file can be looked up. -/
theorem unreadable_iff (caller : Caller) : unreadable caller = true ↔ Unreadable caller := by
  constructor
  · intro failed
    rw [unreadable.eq_def] at failed
    split at failed
    · exact .index
    · exact .payload
    · cases failed
  · intro failed
    cases failed <;> rfl

/-- A subscription that has taken the catalog fails to plan the old chunk once the sweep has
removed it, and one that has planned it fails to replay it. Without the syncer neither
fails. -/
theorem snapshot_overtaken :
    let subscribes := [.subscribe 0 allBlocks none]
    let plans := List.replicate 4 (.plan 0)
    let peeks := List.replicate 4 (.peek 0 .block)
    (Unreadable (agedCaller (subscribes ++ eviction ++ plans ++ peeks)) ∧
      Unreadable (agedCaller (subscribes ++ plans ++ eviction ++ peeks))) ∧
    ¬ Unreadable (agedCaller (subscribes ++ plans ++ peeks)) := by
  simp only [← unreadable_iff]
  decide +kernel

/-- A reader whose disk holds both chunks. -/
def bothReader : Reader := blockReader (blockFiles agedSlots [old, newest])

/-- The slot of the message that a subscription holds ready from a stream. -/
def World.head (w : World) (id : Nat) (stream : Stream) : Option Nat :=
  match w.callers id with
  | .replaying _ cursors _ => (cursors stream).bind (fun cursor => cursor.peeked.map Peeked.slot)
  | _ => none

/-- A subscription has taken the message of the old chunk when a sweep removes that chunk, and
goes on to the newest one. -/
def passedActs : List Act :=
  .subscribe 0 allBlocks none :: List.replicate 8 (.plan 0) ++ List.replicate 5 (.peek 0 .block) ++
    [.take 0 .block, .list [newest] (blockFetch agedSlots), .sweep [old] (fun _ _ => false), .disk 0, .disk 0,
      .peek 0 .block, .disk 0, .publish oldestFirst] ++ List.replicate 4 (.peek 0 .block)

/-- The world behind some acts on that disk. -/
def bothWorld (acts : List Act) : World :=
  run bothReader 1 (World.boot bothReader.codecs oldestFirst (blockFiles agedSlots [old, newest]))
    acts

/-- A sweep removes the chunk that the one subscription has passed, while it is still to open
the other: it finds what it may still open all along, and comes to the newest message. -/
theorem isolated_during_sweep :
    let w := bothWorld passedActs
    let during := bothWorld (passedActs.take 18)
    Spared w.files (w.callers 0) ∧
      (bothWorld (passedActs.take 14)).head 0 .block = some 5 ∧
      (during.syncer.stage = .sweeping ∧
        (during.callers 0).opens = [(.block, newest.file "zst")]) ∧
      (∀ ext ∈ trio, (w.files .block).lookup (old.file ext) = none) ∧
      w.head 0 .block = some 99005 := by
  have alone : ∀ next ∈ passedActs, next.subscriber.all (· = 0) = true := by decide
  have checks : ∀ n < passedActs.length, passedActs[n]?.all (fun next =>
      next.sparesOnly (bothWorld (passedActs.take n))) = true := by
    decide +kernel
  have spared : Spared (bothWorld passedActs).files ((bothWorld passedActs).callers 0) := by
    rw [bothWorld]
    exact isolated bothReader 1 oldestFirst (blockFiles agedSlots [old, newest]) passedActs
      (spares_of_checks alone checks) 0
  refine ⟨spared, ?_, ?_, ?_, ?_⟩
  · decide +kernel
  · decide +kernel
  · decide +kernel
  · decide +kernel
end Serving

end Sillage
