import Sillage.Reader.ChunkIndex
import Sillage.Writer.Runs

/-!
# The three files of a sealed chunk agree

A lane calls its chunker to take in a message, to look for idle chunks and to shut
down. Whatever directory it started over, the sidecar, the index and the payload of
every chunk that it has sealed describe the same messages: those it appended to the
chunk, in the order in which they arrived.
-/

namespace Sillage

open LittleEndian Idx Chunk Directory OpenChunk

/-- A call on a chunker. -/
inductive Call where
  | op (op : Chunker.Op)
  | shutdown
deriving DecidableEq

namespace Chunker

/-- The effect of a call, or of the shutdown. -/
def call (k : Codecs) (s : Chunker) : Call → Except Fault Chunker
  | .op op => step k s op
  | .shutdown => shutdown k s

/-- Calls in any order. The first fault ends them. -/
def calls (k : Codecs) : Chunker → List Call → Except Fault Chunker
  | s, [] => .ok s
  | s, c :: rest => do
      let s ← call k s c
      calls k s rest

/-- The messages that a call appends to a chunk. -/
def taken (k : Codecs) (s : Chunker) : Call → List Arrival
  | .op op => accepted k s [op]
  | .shutdown => []

/-- The messages that a list of calls appends to a chunk. -/
def takenIn (k : Codecs) : Chunker → List Call → List Arrival
  | _, [] => []
  | s, c :: rest =>
      match call k s c with
      | .ok s' => taken k s c ++ takenIn k s' rest
      | .error _ => []

end Chunker

/-- What is known of a chunker that started over a directory and has appended some
messages. -/
structure Tracks (k : Codecs) (stream : Stream) (cfg : WriterConfig) (start : Dir) (s : Chunker)
    (messages : List Arrival) : Prop where
  sameStream : s.stream = stream
  sameCfg : s.cfg = cfg
  holds : ∀ idx chunk, s.open[idx]? = some chunk →
    ∃ opening, chunk = holding k stream cfg idx opening (inChunk cfg idx messages)
  unsealed : ∀ idx chunk, s.open[idx]? = some chunk →
    s.baseDir.lookup (chunkName cfg idx "meta.json") = none
  closed : ∀ idx, s.open[idx]? = none → inChunk cfg idx messages ≠ [] →
    ∃ reason, SealedFiles k stream cfg s.baseDir idx (inChunk cfg idx messages) reason
  untouched : ∀ idx, s.open[idx]? = none → inChunk cfg idx messages = [] →
    s.baseDir.lookup (chunkName cfg idx "meta.json") =
      start.lookup (chunkName cfg idx "meta.json")

/-- Every open chunk, with one possible exception, holds a message. -/
def FilledBut (cfg : WriterConfig) (except : Option Nat) (s : Chunker) (messages : List Arrival) :
    Prop :=
  ∀ idx chunk, s.open[idx]? = some chunk → some idx ≠ except → inChunk cfg idx messages ≠ []

namespace Tracks

variable {k : Codecs} {stream : Stream} {cfg : WriterConfig} {start : Dir} {s s' : Chunker}
  {messages : List Arrival}

/-- How a message is taken in: it is too old, or its chunk is ensured, it is appended, and
what has been left behind is sealed. -/
theorem ingest_ok_iff (positive : 0 < cfg.slotsPerChunk) (sameCfg : s.cfg = cfg) {a : Arrival}
    {watermark : Nat} (marked : (s.advance a.slot).watermarkSlot.getD 0 = watermark)
    {verdict : Verdict} :
    Chunker.ingest k a s = .ok (verdict, s') ↔
      a.slot + cfg.outOfOrderToleranceSlots < u64Bound ∧
      if a.slot + cfg.outOfOrderToleranceSlots < watermark then
        verdict = .olderThanTolerance ∧ s' = s.advance a.slot
      else ∃ s₁ s₂ toSeal,
        Chunker.ensureOpen k a.now (a.slot / cfg.slotsPerChunk) (s.advance a.slot) = .ok s₁ ∧
        Chunker.appendTo k (a.slot / cfg.slotsPerChunk) a s₁ = .ok (verdict, s₂) ∧
        Chunker.behind (watermark / cfg.slotsPerChunk) s₂.open.keys = .ok toSeal ∧
        Chunker.sealAll k "watermark" toSeal s₂ = .ok s' := by
  have divides : ∀ b, checkedDiv b cfg.slotsPerChunk = .ok (b / cfg.slotsPerChunk) :=
    fun b => if_neg (Nat.ne_of_gt positive)
  have config : (s.advance a.slot).cfg = cfg := sameCfg
  rw [Chunker.ingest]
  simp only [marked, config, divides, bind, Except.bind]
  by_cases fits : a.slot + cfg.outOfOrderToleranceSlots < u64Bound
  · rw [checkedAdd, if_pos fits]
    dsimp only
    split
    · simp [fits, eq_comm]
    · simp only [fits, true_and]
      constructor
      · intro done
        obtain ⟨s₁, ensured, done⟩ := ok_of_bind done
        obtain ⟨⟨verdict₂, s₂⟩, appended, done⟩ := ok_of_bind done
        obtain ⟨toSeal, listed, done⟩ := ok_of_bind done
        obtain ⟨s₃, sealed, done⟩ := ok_of_bind done
        cases done
        exact ⟨s₁, s₂, toSeal, ensured, appended, listed, sealed⟩
      · rintro ⟨s₁, s₂, toSeal, ensured, appended, listed, sealed⟩
        simp only [ensured, appended, listed, sealed]
  · rw [checkedAdd, if_neg fits]
    simp [fits]

/-- A message is taken with some verdict. -/
theorem call_ingest_ok_iff (a : Arrival) :
    Chunker.call k s (.op (.ingest a)) = .ok s' ↔
      ∃ verdict, Chunker.ingest k a s = .ok (verdict, s') := by
  cases taken : Chunker.ingest k a s with
  | error fault => simp [Chunker.call, Chunker.step, taken, Except.map]
  | ok result => simp [Chunker.call, Chunker.step, taken, Except.map, Prod.ext_iff]

/-- Nothing has been appended by a new chunker. -/
theorem new (k : Codecs) (stream : Stream) (cfg : WriterConfig) (start : Dir) :
    Tracks k stream cfg start (Chunker.new stream cfg start) [] where
  sameStream := rfl
  sameCfg := rfl
  holds idx chunk found := by simp [Chunker.new] at found
  unsealed idx chunk found := by simp [Chunker.new] at found
  closed idx _ full := absurd rfl full
  untouched idx _ _ := rfl

/-- What sealing a chunk does when it succeeds. -/
theorem sealChunk_ok {reason : String} {idx : Nat}
    (done : Chunker.sealChunk k reason idx s = .ok s') :
    ∃ chunk written, s.open[idx]? = some chunk ∧ chunk.encoder = some written ∧
      s'.stream = s.stream ∧ s'.cfg = s.cfg ∧ s'.open = s.open.erase idx ∧
      s'.baseDir = perform s.baseDir (chunk.sealSteps k s.stream written reason) := by
  rw [Chunker.sealChunk] at done
  split at done
  · cases done
  · next chunk found =>
    split at done
    · cases done
    · next written held =>
      cases done
      exact ⟨chunk, written, found, held, rfl, rfl, rfl, rfl⟩

/-- What is left behind an erased chunk was there, under another index. -/
theorem getElem?_erase_some {opened : Std.TreeMap Nat OpenChunk} {idx i : Nat} {chunk : OpenChunk}
    (stored : (opened.erase idx)[i]? = some chunk) : opened[i]? = some chunk ∧ i ≠ idx := by
  rw [Std.TreeMap.getElem?_erase] at stored
  split at stored
  · cases stored
  · next distinct => exact ⟨stored, fun same => distinct (by simp [same])⟩

/-- What is missing behind an erased chunk was missing, or is that chunk. -/
theorem getElem?_erase_none {opened : Std.TreeMap Nat OpenChunk} {idx i : Nat}
    (absent : (opened.erase idx)[i]? = none) (distinct : i ≠ idx) : opened[i]? = none := by
  rw [Std.TreeMap.getElem?_erase] at absent
  split at absent
  · next same => exact absurd (Std.LawfulEqCmp.compare_eq_iff_eq.mp same).symm distinct
  · exact absent

/-- What is found behind an inserted chunk is that chunk, or was there. -/
theorem getElem?_insert_some {opened : Std.TreeMap Nat OpenChunk} {idx i : Nat}
    {chunk chunk' : OpenChunk} (stored : (opened.insert idx chunk)[i]? = some chunk') :
    i = idx ∧ chunk' = chunk ∨ i ≠ idx ∧ opened[i]? = some chunk' := by
  rw [Std.TreeMap.getElem?_insert] at stored
  split at stored
  · next same =>
    exact .inl ⟨(Std.LawfulEqCmp.compare_eq_iff_eq.mp same).symm, (Option.some.inj stored).symm⟩
  · next distinct => exact .inr ⟨fun same => distinct (by simp [same]), stored⟩

/-- What is missing behind an inserted chunk was missing. -/
theorem getElem?_insert_none {opened : Std.TreeMap Nat OpenChunk} {idx i : Nat} {chunk : OpenChunk}
    (absent : (opened.insert idx chunk)[i]? = none) : i ≠ idx ∧ opened[i]? = none := by
  rw [Std.TreeMap.getElem?_insert] at absent
  split at absent
  · cases absent
  · next distinct => exact ⟨fun same => distinct (by simp [same]), absent⟩

/-- Sealing a chunk that holds a message leaves its three files. -/
theorem sealOne (positive : 0 < cfg.slotsPerChunk) (tracks : Tracks k stream cfg start s messages)
    {except : Option Nat} (filled : FilledBut cfg except s messages) {reason : String} {idx : Nat}
    (other : some idx ≠ except) (done : Chunker.sealChunk k reason idx s = .ok s') :
    Tracks k stream cfg start s' messages ∧ FilledBut cfg except s' messages := by
  obtain ⟨chunk, written, found, held, sameStream, sameCfg, opened, dir⟩ := sealChunk_ok done
  obtain ⟨opening, rfl⟩ := tracks.holds idx chunk found
  have whole : written = payload k (inChunk cfg idx messages) := (Option.some.inj held).symm
  have full := filled idx _ found other
  rw [tracks.sameStream, whole] at dir
  have elsewhere : ∀ i, i ≠ idx → ∀ ext, s'.baseDir.lookup (chunkName cfg i ext) =
      s.baseDir.lookup (chunkName cfg i ext) := by
    intro i distinct ext
    rw [dir]
    exact lookup_sealSteps_other positive _ distinct _ _ _ _
  refine ⟨⟨sameStream.trans tracks.sameStream, sameCfg.trans tracks.sameCfg, ?_, ?_, ?_, ?_⟩, ?_⟩
  · intro i chunk stored
    rw [opened] at stored
    exact tracks.holds i chunk (getElem?_erase_some stored).1
  · intro i chunk stored
    rw [opened] at stored
    obtain ⟨before, distinct⟩ := getElem?_erase_some stored
    exact (elsewhere i distinct _).trans (tracks.unsealed i chunk before)
  · intro i absent some
    rw [opened] at absent
    by_cases same : i = idx
    · subst same
      rw [dir]
      exact ⟨reason, sealedFiles_perform _ _ _ _ _⟩
    · obtain ⟨before, files⟩ := tracks.closed i (getElem?_erase_none absent same) some
      exact ⟨before, (elsewhere i same _).trans files.compressed,
        (elsewhere i same _).trans files.index, (elsewhere i same _).trans files.sidecar⟩
  · intro i absent none
    rw [opened] at absent
    have distinct : i ≠ idx := fun same => full (same ▸ none)
    exact (elsewhere i distinct _).trans
      (tracks.untouched i (getElem?_erase_none absent distinct) none)
  · intro i chunk stored
    rw [opened] at stored
    exact filled i chunk (getElem?_erase_some stored).1

/-- Sealing chunks keeps track of their messages. -/
theorem sealAll (positive : 0 < cfg.slotsPerChunk) {reason : String} {indices : List Nat}
    (tracks : Tracks k stream cfg start s messages) (filled : FilledBut cfg none s messages)
    (done : Chunker.sealAll k reason indices s = .ok s') :
    Tracks k stream cfg start s' messages ∧ FilledBut cfg none s' messages := by
  induction indices generalizing s with
  | nil =>
    cases done
    exact ⟨tracks, filled⟩
  | cons idx rest inductionHypothesis =>
    obtain ⟨s₁, first, later⟩ := ok_of_bind done
    obtain ⟨tracks₁, filled₁⟩ := tracks.sealOne positive filled (by simp) first
    exact inductionHypothesis tracks₁ filled₁ later

/-- So does making room for another one. -/
theorem makeRoom (positive : 0 < cfg.slotsPerChunk) {chunkIdx fuel : Nat}
    (tracks : Tracks k stream cfg start s messages) (filled : FilledBut cfg none s messages)
    (done : Chunker.makeRoom k chunkIdx fuel s = .ok s') :
    Tracks k stream cfg start s' messages ∧ FilledBut cfg none s' messages := by
  induction fuel generalizing s with
  | zero =>
    cases done
    exact ⟨tracks, filled⟩
  | succ fuel inductionHypothesis =>
    rw [Chunker.makeRoom] at done
    split at done
    · split at done
      · cases done
      · split at done
        · cases done
          exact ⟨tracks, filled⟩
        · obtain ⟨s₁, first, later⟩ := ok_of_bind done
          obtain ⟨tracks₁, filled₁⟩ := tracks.sealOne positive filled (by simp) first
          exact inductionHypothesis tracks₁ filled₁ later
    · cases done
      exact ⟨tracks, filled⟩

/-- What opening a chunk does when it succeeds. -/
theorem openChunk_ok {now idx : Nat} (done : Chunker.openChunk now idx s = .ok s') :
    s' = s ∨ s.open[idx]? = none ∧
      s.baseDir.lookup (chunkName s.cfg idx "zst") = none ∧
      s.baseDir.lookup (chunkName s.cfg idx "meta.json") = none ∧
      ∀ k, s' = { s with
        baseDir := FileStep.apply s.baseDir (.create (chunkName s.cfg idx "zst.partial"))
        «open» := s.open.insert idx (holding k s.stream s.cfg idx now []) } := by
  rw [Chunker.openChunk] at done
  split at done
  · exact .inl (Except.ok.inj done).symm
  · next unopened =>
    obtain ⟨startSlot, multiplied, done⟩ := ok_of_bind done
    obtain ⟨endSlot, added, done⟩ := ok_of_bind done
    obtain rfl : idx * s.cfg.slotsPerChunk = startSlot := by
      rw [checkedMul] at multiplied
      split at multiplied
      · exact Except.ok.inj multiplied
      · cases multiplied
    obtain rfl : idx * s.cfg.slotsPerChunk + s.cfg.slotsPerChunk = endSlot := by
      rw [checkedAdd] at added
      split at added
      · exact Except.ok.inj added
      · cases added
    dsimp only at done
    split at done
    · exact .inl (Except.ok.inj done).symm
    · next free =>
      obtain ⟨noPayload, noSidecar⟩ := not_or.mp free
      refine .inr ⟨?_, Option.not_isSome_iff_eq_none.mp noPayload,
        Option.not_isSome_iff_eq_none.mp noSidecar, fun k => (Except.ok.inj done).symm⟩
      exact Std.TreeMap.getElem?_eq_none
        (fun member => unopened (Std.TreeMap.contains_iff_mem.mpr member))

/-- A chunk is only opened while it has no messages. -/
theorem openChunk (positive : 0 < cfg.slotsPerChunk) {now idx : Nat}
    (tracks : Tracks k stream cfg start s messages) (filled : FilledBut cfg none s messages)
    (done : Chunker.openChunk now idx s = .ok s') :
    Tracks k stream cfg start s' messages ∧ FilledBut cfg (some idx) s' messages := by
  rcases openChunk_ok done with rfl | ⟨unopened, noPayload, noSidecar, opened⟩
  · exact ⟨tracks, fun i chunk stored _ => filled i chunk stored (by simp)⟩
  obtain ⟨rfl, rfl, holds, unsealed, closed, untouched⟩ := tracks
  rw [opened k]
  have empty : inChunk s.cfg idx messages = [] := by
    by_contra full
    obtain ⟨reason, files⟩ := closed idx unopened full
    rw [files.compressed] at noPayload
    cases noPayload
  have finals : ∀ i, ∀ ext ∈ finalExtensions,
      (FileStep.apply s.baseDir (.create (chunkName s.cfg idx "zst.partial"))).lookup
        (chunkName s.cfg i ext) = s.baseDir.lookup (chunkName s.cfg i ext) := by
    intro i ext final
    rw [lookup_create, if_neg]
    intro same
    have sameExt := (chunkName_injective positive same).2
    subst sameExt
    revert final
    decide
  refine ⟨⟨rfl, rfl, ?_, ?_, ?_, ?_⟩, ?_⟩
  · intro i chunk stored
    rcases getElem?_insert_some stored with ⟨rfl, rfl⟩ | ⟨-, before⟩
    · exact ⟨now, by rw [empty]⟩
    · exact holds i chunk before
  · intro i chunk stored
    rw [finals i "meta.json" (by decide)]
    rcases getElem?_insert_some stored with ⟨rfl, -⟩ | ⟨-, before⟩
    · exact noSidecar
    · exact unsealed i chunk before
  · intro i absent full
    obtain ⟨reason, files⟩ := closed i (getElem?_insert_none absent).2 full
    exact ⟨reason, (finals i "zst" (by decide)).trans files.compressed,
      (finals i "idx" (by decide)).trans files.index,
      (finals i "meta.json" (by decide)).trans files.sidecar⟩
  · intro i absent none
    exact (finals i "meta.json" (by decide)).trans (untouched i (getElem?_insert_none absent).2 none)
  · intro i chunk stored other
    rcases getElem?_insert_some stored with ⟨rfl, -⟩ | ⟨-, before⟩
    · exact absurd rfl other
    · exact filled i chunk before (by simp)

/-- Appending to a chunk of the message's range records the message there. -/
theorem appendTo {a : Arrival} (tracks : Tracks k stream cfg start s messages)
    (filled : FilledBut cfg (some (a.slot / cfg.slotsPerChunk)) s messages) {verdict : Verdict}
    (done : Chunker.appendTo k (a.slot / cfg.slotsPerChunk) a s = .ok (verdict, s')) :
    Tracks k stream cfg start s' (messages ++ if verdict = .appended then [a] else []) ∧
      FilledBut cfg none s' (messages ++ if verdict = .appended then [a] else []) := by
  rw [Chunker.appendTo] at done
  split at done
  · next unopened =>
    cases done
    rw [if_neg (by decide), List.append_nil]
    refine ⟨tracks, fun i chunk stored _ => filled i chunk stored ?_⟩
    intro same
    rw [Option.some.inj same, unopened] at stored
    cases stored
  · next chunk found =>
    obtain ⟨opening, rfl⟩ := tracks.holds _ _ found
    rw [append_holding] at done
    cases done
    rw [if_pos rfl]
    have here : inChunk cfg (a.slot / cfg.slotsPerChunk) (messages ++ [a]) =
        inChunk cfg (a.slot / cfg.slotsPerChunk) messages ++ [a] := by simp [inChunk]
    have elsewhere : ∀ i, i ≠ a.slot / cfg.slotsPerChunk →
        inChunk cfg i (messages ++ [a]) = inChunk cfg i messages := by
      intro i distinct
      simp [inChunk, Ne.symm distinct]
    refine ⟨⟨tracks.sameStream, tracks.sameCfg, ?_, ?_, ?_, ?_⟩, ?_⟩
    · intro i chunk stored
      rcases getElem?_insert_some stored with ⟨rfl, rfl⟩ | ⟨distinct, before⟩
      · exact ⟨opening, by rw [here]⟩
      · rw [elsewhere i distinct]
        exact tracks.holds i chunk before
    · intro i chunk stored
      rcases getElem?_insert_some stored with ⟨rfl, rfl⟩ | ⟨distinct, before⟩
      · exact tracks.unsealed _ _ found
      · exact tracks.unsealed i chunk before
    · intro i absent full
      obtain ⟨distinct, before⟩ := getElem?_insert_none absent
      rw [elsewhere i distinct] at full ⊢
      exact tracks.closed i before full
    · intro i absent none
      obtain ⟨distinct, before⟩ := getElem?_insert_none absent
      rw [elsewhere i distinct] at none
      exact tracks.untouched i before none
    · intro i chunk stored _
      rcases getElem?_insert_some stored with ⟨rfl, rfl⟩ | ⟨distinct, before⟩
      · rw [here]
        exact List.append_ne_nil_of_right_ne_nil _ (List.cons_ne_nil _ _)
      · rw [elsewhere i distinct]
        exact filled i chunk before (fun same => distinct (Option.some.inj same))

/-- Taking in a message appends it to the chunk of its slot or to none. -/
theorem ingest (positive : 0 < cfg.slotsPerChunk) {a : Arrival}
    (tracks : Tracks k stream cfg start s messages) (filled : FilledBut cfg none s messages)
    {verdict : Verdict} (done : Chunker.ingest k a s = .ok (verdict, s')) :
    Tracks k stream cfg start s' (messages ++ if verdict = .appended then [a] else []) ∧
      FilledBut cfg none s' (messages ++ if verdict = .appended then [a] else []) := by
  have advanced : Tracks k stream cfg start (s.advance a.slot) messages :=
    ⟨tracks.sameStream, tracks.sameCfg, tracks.holds, tracks.unsealed, tracks.closed,
      tracks.untouched⟩
  obtain ⟨-, settled⟩ := (ingest_ok_iff positive tracks.sameCfg rfl).mp done
  split at settled
  · obtain ⟨rfl, rfl⟩ := settled
    rw [if_neg (by decide), List.append_nil]
    exact ⟨advanced, filled⟩
  obtain ⟨s₁, s₂, toSeal, ensured, appended, -, sealed⟩ := settled
  have opened : Tracks k stream cfg start s₁ messages ∧
      FilledBut cfg (some (a.slot / cfg.slotsPerChunk)) s₁ messages := by
    rw [Chunker.ensureOpen] at ensured
    split at ensured
    · cases ensured
      exact ⟨advanced, fun i chunk stored _ => filled i chunk stored (by simp)⟩
    · obtain ⟨s₀, room, opens⟩ := ok_of_bind ensured
      obtain ⟨tracks₀, filled₀⟩ := advanced.makeRoom positive filled room
      exact tracks₀.openChunk positive filled₀ opens
  obtain ⟨tracks₂, filled₂⟩ := opened.1.appendTo opened.2 appended
  exact tracks₂.sealAll positive filled₂ sealed

/-- Any call keeps track of the messages appended so far. -/
theorem call (positive : 0 < cfg.slotsPerChunk) {c : Call}
    (tracks : Tracks k stream cfg start s messages) (filled : FilledBut cfg none s messages)
    (done : Chunker.call k s c = .ok s') :
    Tracks k stream cfg start s' (messages ++ Chunker.taken k s c) ∧
      FilledBut cfg none s' (messages ++ Chunker.taken k s c) := by
  cases c with
  | shutdown =>
    rw [Chunker.taken, List.append_nil]
    exact tracks.sealAll positive filled done
  | op op =>
    cases op with
    | tick now =>
      have nothing : Chunker.taken k s (.op (.tick now)) = [] := by
        simp only [Chunker.taken, Chunker.accepted]
        split <;> rfl
      rw [nothing, List.append_nil]
      exact tracks.sealAll positive filled done
    | ingest a =>
      obtain ⟨verdict, taken⟩ := (call_ingest_ok_iff a).mp done
      have one : Chunker.taken k s (.op (.ingest a)) =
          if verdict = .appended then [a] else [] := by
        cases verdict <;> simp [Chunker.taken, Chunker.accepted, taken]
      rw [one]
      exact tracks.ingest positive filled taken

/-- So do any number of calls. -/
theorem calls (positive : 0 < cfg.slotsPerChunk) {cs : List Call}
    (tracks : Tracks k stream cfg start s messages) (filled : FilledBut cfg none s messages)
    (done : Chunker.calls k s cs = .ok s') :
    Tracks k stream cfg start s' (messages ++ Chunker.takenIn k s cs) ∧
      FilledBut cfg none s' (messages ++ Chunker.takenIn k s cs) := by
  induction cs generalizing s messages with
  | nil =>
    cases done
    rw [Chunker.takenIn, List.append_nil]
    exact ⟨tracks, filled⟩
  | cons c rest inductionHypothesis =>
    obtain ⟨s₁, first, later⟩ := ok_of_bind done
    obtain ⟨tracks₁, filled₁⟩ := tracks.call positive filled first
    rw [Chunker.takenIn, first, ← List.append_assoc]
    exact inductionHypothesis tracks₁ filled₁ later

end Tracks

/-- The files of a chunk in a directory agree with each other and with the messages of
the chunk. The index is the one a builder serialises. -/
structure Trio (k : Codecs) (cfg : WriterConfig) (dir : Dir) (idx : Nat) (messages : List Arrival)
    (sidecar : ChunkMeta) (raw : Bytes) (builder : IndexBuilder) : Prop where
  payloadFile : dir.lookup (chunkName cfg idx "zst") = some (k.zstdEncode raw)
  sidecarFile : dir.lookup (chunkName cfg idx "meta.json") = some (k.jsonEncode sidecar)
  indexFile : dir.lookup (chunkName cfg idx "idx") = some (builder.serialize k sidecar.startSlot
    sidecar.endSlotExclusive sidecar.messageCount)
  starts : sidecar.startSlot = idx * cfg.slotsPerChunk
  ends : sidecar.endSlotExclusive = sidecar.startSlot + cfg.slotsPerChunk
  nonempty : messages ≠ []
  framed : raw = framed (messages.map (fun a => k.prostEncode a.msg.inner))
  frames : (∀ a ∈ messages, (k.prostEncode a.msg.inner).length < u32Bound) →
    iterFrames raw = (messages.map (fun a => k.prostEncode a.msg.inner)).map .ok
  counted : sidecar.messageCount = messages.length
  headerCounted : (builder.header k sidecar.startSlot sidecar.endSlotExclusive
    sidecar.messageCount).messageCount = sidecar.messageCount
  sized : sidecar.uncompressedBytes = raw.length
  slots : ∃ first last, sidecar.firstMessageSlot = some first ∧
    sidecar.lastMessageSlot = some last ∧ sidecar.startSlot ≤ first ∧
    last < sidecar.endSlotExclusive ∧ (∃ a ∈ messages, a.slot = first) ∧
    (∃ a ∈ messages, a.slot = last) ∧ ∀ a ∈ messages, first ≤ a.slot ∧ a.slot ≤ last
  stamps : ∃ first last, sidecar.recvNsFirst = some first ∧ sidecar.recvNsLast = some last ∧
    first ≤ last ∧ (∃ a ∈ messages, a.msg.wallNs = first) ∧
    (∃ a ∈ messages, a.msg.wallNs = last) ∧
    ∀ a ∈ messages, first ≤ a.msg.wallNs ∧ a.msg.wallNs ≤ last
  ordinals : ∀ dim value bitmap, builder.bitmap? dim value = some bitmap →
    ∀ ord ∈ bitmap, ord < sidecar.messageCount
  dimensions : sidecar.indexDimensions = (builder.header k sidecar.startSlot
    sidecar.endSlotExclusive sidecar.messageCount).dimensions.map (·.name)

/-- The least and the greatest value of some items, when there are any. -/
theorem min?_max? {α : Type} {items : List α} (some : items ≠ []) (value : α → Nat) :
    ∃ first last, (items.map value).min? = .some first ∧ (items.map value).max? = .some last ∧
      first ≤ last ∧ (∃ a ∈ items, value a = first) ∧ (∃ a ∈ items, value a = last) ∧
      ∀ a ∈ items, first ≤ value a ∧ value a ≤ last := by
  have values : items.map value ≠ [] := by simpa using some
  obtain ⟨first, least⟩ := Option.ne_none_iff_exists'.mp (mt List.min?_eq_none_iff.mp values)
  obtain ⟨last, most⟩ := Option.ne_none_iff_exists'.mp (mt List.max?_eq_none_iff.mp values)
  obtain ⟨firstMember, lower⟩ := List.min?_eq_some_iff.mp least
  obtain ⟨lastMember, upper⟩ := List.max?_eq_some_iff.mp most
  exact ⟨first, last, least, most, lower last lastMember, List.mem_map.mp firstMember,
    List.mem_map.mp lastMember, fun a member => ⟨lower _ (List.mem_map_of_mem member),
      upper _ (List.mem_map_of_mem member)⟩⟩

/-- Every ordinal in the index of some updates is that of one of them. -/
theorem indexed_ordinals (stream : Stream) {updates : List SubscribeUpdate}
    (few : updates.length < u32Bound) {dim : String} {value : DimValue} {bitmap : RoaringBitmap}
    (stored : (indexed stream updates).bitmap? dim value = some bitmap) :
    ∀ ord ∈ bitmap, ord < updates.length := by
  rw [indexed_observeFrom stream updates few.le] at stored
  have exact := IndexBuilder.observeFrom_exact stream updates dim value
  rw [stored] at exact
  intro ord member
  obtain ⟨update, found, -⟩ := (exact.2 ord).mp member
  exact (List.getElem?_eq_some_iff.mp found).1

/-- What sealing some messages of a chunk's range leaves is a trio. -/
theorem trio_of_sealed {k : Codecs} {stream : Stream} {cfg : WriterConfig}
    (positive : 0 < cfg.slotsPerChunk) {dir : Dir} {idx : Nat} {messages : List Arrival}
    {reason : String} (files : SealedFiles k stream cfg dir idx messages reason)
    (nonempty : messages ≠ []) (inside : ∀ a ∈ messages, a.slot / cfg.slotsPerChunk = idx)
    (few : messages.length < u32Bound) :
    Trio k cfg dir idx messages (OpenChunk.sidecar stream (holding k stream cfg idx 0 messages)
      (k.zstdEncode (payload k messages)) reason) (payload k messages)
      (indexed stream (messages.map (·.msg.inner))) where
  payloadFile := files.compressed
  sidecarFile := files.sidecar
  indexFile := files.index
  starts := rfl
  ends := rfl
  nonempty := nonempty
  framed := rfl
  frames := fun fit => iterFrames_framed _ (by simpa using fit)
  counted := rfl
  headerCounted := rfl
  sized := rfl
  slots := by
    obtain ⟨first, last, least, most, -, ⟨a, aMember, aFirst⟩, ⟨b, bMember, bLast⟩, bounds⟩ :=
      min?_max? nonempty (·.slot)
    have lower : idx * cfg.slotsPerChunk ≤ first := by
      rw [← aFirst, ← Nat.le_div_iff_mul_le positive]
      exact (inside a aMember).ge
    have upper : last < idx * cfg.slotsPerChunk + cfg.slotsPerChunk := by
      rw [← bLast, ← Nat.succ_mul, ← Nat.div_lt_iff_lt_mul positive, inside b bMember]
      exact Nat.lt_succ_self idx
    exact ⟨first, last, least, most, lower, upper, ⟨a, aMember, aFirst⟩, ⟨b, bMember, bLast⟩,
      bounds⟩
  stamps := min?_max? nonempty (·.msg.wallNs)
  ordinals := by
    intro dim value bitmap stored ord member
    have within := indexed_ordinals stream (by simpa using few) stored ord member
    rwa [List.length_map] at within
  dimensions := (IndexBuilder.header_dimensions k _ _ _ _).symm

open Chunker

/-- Every chunk that some calls have sealed is a trio of the messages that they
appended to it. A chunk is sealed by the calls when its sidecar is there and was not
there at their start. -/
theorem sealed_trio (k : Codecs) (stream : Stream) (cfg : WriterConfig)
    (positive : 1 ≤ cfg.slotsPerChunk) (start : Dir) (cs : List Call) (s : Chunker)
    (ran : calls k (new stream cfg start) cs = .ok s)
    (few : ∀ idx, (inChunk cfg idx (takenIn k (new stream cfg start) cs)).length < 2 ^ 32)
    (idx : Nat) (absent : start.lookup (chunkName cfg idx "meta.json") = none)
    (present : s.baseDir.lookup (chunkName cfg idx "meta.json") ≠ none) :
    ∃ sidecar raw builder, Trio k cfg s.baseDir idx
      (inChunk cfg idx (takenIn k (new stream cfg start) cs)) sidecar raw builder := by
  have nothing : FilledBut cfg none (new stream cfg start) [] := by
    intro i chunk stored
    simp [new] at stored
  obtain ⟨tracks, -⟩ := (Tracks.new k stream cfg start).calls positive nothing ran
  rw [List.nil_append] at tracks
  cases opened : s.open[idx]? with
  | some chunk => exact absurd (tracks.unsealed idx chunk opened) present
  | none =>
    have full : inChunk cfg idx (takenIn k (new stream cfg start) cs) ≠ [] :=
      fun empty => present ((tracks.untouched idx opened empty).trans absent)
    obtain ⟨reason, files⟩ := tracks.closed idx opened full
    exact ⟨_, _, _, trio_of_sealed positive files full
      (fun a member => of_decide_eq_true (List.mem_filter.mp member).2) (few idx)⟩

/-- A chunk with an early message behind a late one is sealed by the watermark. -/
theorem sealed_trio_watermark :
    let message (wallNs slot : Nat) : Arrival := ⟨0, ⟨wallNs, ⟨[], none, none, []⟩⟩, slot⟩
    let cs : List Call :=
      [.op (.ingest (message 5 8)), .op (.ingest (message 3 2)), .op (.tick 1),
        .op (.ingest (message 9 31))]
    ∃ s sidecar raw builder,
      calls PlainCodecs.plain (new .block ⟨10, 40, 4⟩ ∅) cs = .ok s ∧
        Trio PlainCodecs.plain ⟨10, 40, 4⟩ s.baseDir 0 [message 5 8, message 3 2] sidecar raw
          builder := by
  intro message cs
  have present : (calls PlainCodecs.plain (new .block ⟨10, 40, 4⟩ ∅) cs).toOption.any
      (fun s => (s.baseDir.lookup (chunkName ⟨10, 40, 4⟩ 0 "meta.json")).isSome) = true := by
    decide +kernel
  have taken : takenIn PlainCodecs.plain (new .block ⟨10, 40, 4⟩ ∅) cs =
      [message 5 8, message 3 2, message 9 31] := by
    decide +kernel
  cases ran : calls PlainCodecs.plain (new .block ⟨10, 40, 4⟩ ∅) cs with
  | error fault => simp [ran, Except.toOption] at present
  | ok s =>
    have found : s.baseDir.lookup (chunkName ⟨10, 40, 4⟩ 0 "meta.json") ≠ none := by
      simpa [ran, Except.toOption, Option.isSome_iff_ne_none] using present
    obtain ⟨sidecar, raw, builder, trio⟩ := sealed_trio PlainCodecs.plain .block ⟨10, 40, 4⟩
      (by decide) ∅ cs s ran
      (fun idx => (List.length_filter_le _ _).trans_lt (by rw [taken]; decide)) 0 (by decide)
      found
    have inside : inChunk ⟨10, 40, 4⟩ 0 [message 5 8, message 3 2, message 9 31] =
        [message 5 8, message 3 2] := by decide
    rw [taken, inside] at trio
    exact ⟨s, sidecar, raw, builder, rfl, trio⟩

end Sillage
