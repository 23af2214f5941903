import Sillage.Foundation.Traced
import Sillage.Writer.Frame
import Sillage.Writer.Trio

/-!
# A chunker, moment by moment

Between two calls a chunker goes through states that no caller sees. Here every change
of the watermark, the set of open chunks or the directory is noted with the state after
it. The outcome of a call is that of the call without notes. What is noted is a path of
single changes, and a call on a sound chunker can only fail on an overflow.
-/

namespace Sillage

open LittleEndian Directory OpenChunk Tracks

/-- A single change of a chunker. -/
inductive Event where
  | advanced (slot : Nat)
  | opened (idx : Nat)
  | appended (idx : Nat)
  | sealed (idx : Nat) (reason : String)
deriving DecidableEq

/-- A change and the chunker after it. -/
abbrev Moment := Event × Chunker

namespace Chunker

/-- A change, noted when it succeeds. -/
def noted (event : Event) (done : Except Fault Chunker) : Traced Moment Fault Chunker := do
  let s ← Traced.ofExcept done
  Traced.note (event, s)
  return s

/-- Seal a chunk, and note it. -/
def sealTraced (k : Codecs) (reason : String) (chunkIdx : Nat) (s : Chunker) :
    Traced Moment Fault Chunker :=
  noted (.sealed chunkIdx reason) (sealChunk k reason chunkIdx s)

/-- Opening a chunk is a change unless the chunk is open already or lies on disk. -/
def openTraced (now chunkIdx : Nat) (s : Chunker) : Traced Moment Fault Chunker := do
  let after ← Traced.ofExcept (openChunk now chunkIdx s)
  if s.open.contains chunkIdx = after.open.contains chunkIdx then pure after
  else noted (.opened chunkIdx) (.ok after)

/-- Seal chunks one after the other, noting each. -/
def sealAllTraced (k : Codecs) (reason : String) :
    List Nat → Chunker → Traced Moment Fault Chunker
  | [], s => pure s
  | chunkIdx :: rest, s => do
      let s ← sealTraced k reason chunkIdx s
      sealAllTraced k reason rest s

/-- Seal the oldest chunks until there is room, noting each. -/
def makeRoomTraced (k : Codecs) (chunkIdx : Nat) : Nat → Chunker → Traced Moment Fault Chunker
  | 0, s => pure s
  | fuel + 1, s =>
      if s.cfg.maxOpenChunks ≤ s.open.size then
        match s.open.keys.head? with
        | none => Traced.ofExcept (.error .noOpenChunk)
        | some oldest =>
            if oldest = chunkIdx then pure s
            else do
              let s ← sealTraced k "cap-reached" oldest s
              makeRoomTraced k chunkIdx fuel s
      else pure s

/-- Open the chunk of a message unless it is open or on disk, noting what it takes. -/
def ensureOpenTraced (k : Codecs) (now chunkIdx : Nat) (s : Chunker) :
    Traced Moment Fault Chunker :=
  if s.open.contains chunkIdx then pure s
  else do
    let s ← makeRoomTraced k chunkIdx (s.open.size + 1) s
    openTraced now chunkIdx s

/-- Append a message to its chunk, and note it. -/
def appendTraced (k : Codecs) (chunkIdx : Nat) (a : Arrival) (s : Chunker) :
    Traced Moment Fault (Verdict × Chunker) :=
  match s.open[chunkIdx]? with
  | none => pure (.alreadySealed, s)
  | some chunk => do
      let chunk ← Traced.ofExcept (chunk.append k a)
      let s ← noted (.appended chunkIdx) (.ok { s with «open» := s.open.insert chunkIdx chunk })
      return (.appended, s)

/-- Take a message, noting the watermark, the append and the seals. -/
def ingestTraced (k : Codecs) (a : Arrival) (s : Chunker) :
    Traced Moment Fault (Verdict × Chunker) := do
  let s ← noted (.advanced a.slot) (.ok (advance a.slot s))
  let watermark := s.watermarkSlot.getD 0
  let watermarkChunk ← Traced.ofExcept (checkedDiv watermark s.cfg.slotsPerChunk)
  let chunkIdx ← Traced.ofExcept (checkedDiv a.slot s.cfg.slotsPerChunk)
  let reach ← Traced.ofExcept (checkedAdd a.slot s.cfg.outOfOrderToleranceSlots)
  if reach < watermark then pure (.olderThanTolerance, s)
  else do
    let s ← ensureOpenTraced k a.now chunkIdx s
    let taken ← appendTraced k chunkIdx a s
    let toSeal ← Traced.ofExcept (behind watermarkChunk taken.2.open.keys)
    let s ← sealAllTraced k "watermark" toSeal taken.2
    return (taken.1, s)

/-- The effect of a call, with all its moments. -/
def callTraced (k : Codecs) (s : Chunker) : Call → Traced Moment Fault Chunker
  | .op (.ingest a) => do
      let taken ← ingestTraced k a s
      return taken.2
  | .op (.tick now) =>
      sealAllTraced k "shutdown"
        ((s.open.toList.filter (fun entry => stale now entry.2)).map Prod.fst) s
  | .shutdown => sealAllTraced k "shutdown" s.open.keys s

/-- The effects of some calls, with all their moments. -/
def callsTraced (k : Codecs) : Chunker → List Call → Traced Moment Fault Chunker
  | s, [] => pure s
  | s, c :: rest => do
      let s ← callTraced k s c
      callsTraced k s rest

variable {k : Codecs} {s s' : Chunker}

/-- A note changes nothing. -/
@[simp] theorem outcome_noted (event : Event) (done : Except Fault Chunker) :
    (noted event done).outcome = done := by
  cases done <;> rfl

/-- Tracing a seal changes nothing. -/
@[simp] theorem outcome_sealTraced (reason : String) (idx : Nat) :
    (sealTraced k reason idx s).outcome = sealChunk k reason idx s :=
  outcome_noted _ _

/-- Nor does tracing an opening. -/
@[simp] theorem outcome_openTraced (now idx : Nat) :
    (openTraced now idx s).outcome = openChunk now idx s := by
  rw [openTraced, Traced.outcome_bind, Traced.outcome_ofExcept]
  cases openChunk now idx s with
  | error fault => rfl
  | ok after =>
    change Traced.outcome (if _ then _ else _) = _
    split <;> simp

/-- Nor does tracing some seals. -/
@[simp] theorem outcome_sealAllTraced (reason : String) (indices : List Nat) :
    (sealAllTraced k reason indices s).outcome = sealAll k reason indices s := by
  induction indices generalizing s with
  | nil => rfl
  | cons idx rest inductionHypothesis =>
    simp only [sealAllTraced, sealAll, Traced.outcome_bind, outcome_sealTraced,
      inductionHypothesis]

/-- Nor does tracing how room is made. -/
@[simp] theorem outcome_makeRoomTraced (idx fuel : Nat) :
    (makeRoomTraced k idx fuel s).outcome = makeRoom k idx fuel s := by
  induction fuel generalizing s with
  | zero => rfl
  | succ fuel inductionHypothesis =>
    rw [makeRoomTraced, makeRoom]
    split
    · cases s.open.keys.head? with
      | none => rfl
      | some oldest =>
        dsimp only
        split
        · rfl
        · simp only [Traced.outcome_bind, outcome_sealTraced, inductionHypothesis]
    · rfl

/-- Nor does tracing how a chunk is made sure of. -/
@[simp] theorem outcome_ensureOpenTraced (now idx : Nat) :
    (ensureOpenTraced k now idx s).outcome = ensureOpen k now idx s := by
  rw [ensureOpenTraced, ensureOpen]
  split
  · rfl
  · simp only [Traced.outcome_bind, outcome_makeRoomTraced, outcome_openTraced]

/-- Nor does tracing an append. -/
@[simp] theorem outcome_appendTraced (idx : Nat) (a : Arrival) :
    (appendTraced k idx a s).outcome = appendTo k idx a s := by
  rw [appendTraced, appendTo]
  cases s.open[idx]? with
  | none => rfl
  | some chunk =>
    simp only [Traced.outcome_bind, Traced.outcome_ofExcept, outcome_noted]
    rfl

/-- Nor does tracing a message. -/
@[simp] theorem outcome_ingestTraced (a : Arrival) :
    (ingestTraced k a s).outcome = ingest k a s := by
  simp only [ingestTraced, ingest, Traced.outcome_bind, outcome_noted, Traced.outcome_ofExcept,
    apply_ite Traced.outcome, outcome_ensureOpenTraced, outcome_appendTraced,
    outcome_sealAllTraced, Traced.outcome_pure]
  rfl

/-- Nor does tracing a call. -/
@[simp] theorem outcome_callTraced (c : Call) :
    (callTraced k s c).outcome = call k s c := by
  cases c with
  | shutdown => exact outcome_sealAllTraced _ _
  | op op =>
    cases op with
    | tick now => exact outcome_sealAllTraced _ _
    | ingest a =>
      simp only [callTraced, call, step, Traced.outcome_bind, outcome_ingestTraced,
        Traced.outcome_pure]
      cases ingest k a s <;> rfl

/-- The notes do not change what the calls do. -/
@[simp] theorem outcome_callsTraced (cs : List Call) :
    (callsTraced k s cs).outcome = calls k s cs := by
  induction cs generalizing s with
  | nil => rfl
  | cons c rest inductionHypothesis =>
    simp only [callsTraced, calls, Traced.outcome_bind, outcome_callTraced, inductionHypothesis]

/-- What a single change is. A chunk is only opened while there is room for it and no
final payload or sidecar of its range lies on disk. -/
inductive Change (k : Codecs) (s : Chunker) : Event → Chunker → Prop where
  | advanced (slot : Nat) : Change k s (.advanced slot) (advance slot s)
  | opened {idx now : Nat} (room : s.open.size < s.cfg.maxOpenChunks)
      (unopened : s.open[idx]? = none)
      (noPayload : s.baseDir.lookup (chunkName s.cfg idx "zst") = none)
      (noSidecar : s.baseDir.lookup (chunkName s.cfg idx "meta.json") = none) :
      Change k s (.opened idx)
        { s with
          baseDir := FileStep.apply s.baseDir (.create (chunkName s.cfg idx "zst.partial"))
          «open» := s.open.insert idx (holding k s.stream s.cfg idx now []) }
  | appended {idx : Nat} {chunk chunk' : OpenChunk} {a : Arrival}
      (found : s.open[idx]? = some chunk) (done : chunk.append k a = .ok chunk') :
      Change k s (.appended idx) { s with «open» := s.open.insert idx chunk' }
  | sealed {idx : Nat} {chunk : OpenChunk} {written : Bytes} (reason : String)
      (found : s.open[idx]? = some chunk) (held : chunk.encoder = some written) :
      Change k s (.sealed idx reason)
        { s with
          «open» := s.open.erase idx
          baseDir := perform s.baseDir (chunk.sealSteps k s.stream written reason) }

/-- The open chunks are at most as many as the configuration allows, each is named after
its index, and each has its encoder. -/
structure Sound (cfg : WriterConfig) (s : Chunker) : Prop where
  sameCfg : s.cfg = cfg
  capped : s.open.size ≤ cfg.maxOpenChunks
  named : ∀ idx chunk, s.open[idx]? = some chunk →
    (∀ ext, chunk.file ext = chunkName cfg idx ext) ∧ ∃ written, chunk.encoder = some written

variable {cfg : WriterConfig}

/-- A chunk that is found is open. -/
theorem mem_of_getElem? {opened : Std.TreeMap Nat OpenChunk} {idx : Nat} {chunk : OpenChunk}
    (found : opened[idx]? = some chunk) : idx ∈ opened := by
  rw [Std.TreeMap.mem_iff_isSome_getElem?, found]
  rfl

/-- A chunk is not open exactly if it is not found. -/
theorem contains_iff {opened : Std.TreeMap Nat OpenChunk} {idx : Nat} :
    opened.contains idx = false ↔ opened[idx]? = none := by
  rw [Std.TreeMap.contains_eq_isSome_getElem?, Option.isSome_eq_false_iff, Option.isNone_iff_eq_none]

/-- A new chunker has no open chunks that could be wrong. -/
theorem sound_new (stream : Stream) (cfg : WriterConfig) (dir : Dir) :
    Sound cfg (new stream cfg dir) where
  sameCfg := rfl
  capped := by simp [new]
  named idx chunk found := by simp [new] at found

/-- An appended message leaves the encoder in place. -/
theorem append_encoder {chunk chunk' : OpenChunk} {a : Arrival}
    (done : chunk.append k a = .ok chunk') : ∃ written, chunk'.encoder = some written := by
  cases held : chunk.encoder with
  | none => simp [OpenChunk.append, held] at done
  | some written =>
    simp only [OpenChunk.append, held, Except.ok.injEq] at done
    subst done
    exact ⟨_, rfl⟩

/-- Every change keeps a chunker sound. -/
theorem Sound.change {event : Event} (sound : Sound cfg s) (change : Change k s event s') :
    Sound cfg s' := by
  obtain ⟨rfl, capped, named⟩ := sound
  cases change with
  | advanced slot => exact ⟨rfl, capped, named⟩
  | opened room unopened noPayload noSidecar =>
    refine ⟨rfl, (Std.TreeMap.size_insert_le).trans room, fun i chunk stored => ?_⟩
    rcases getElem?_insert_some stored with ⟨rfl, rfl⟩ | ⟨-, before⟩
    · exact ⟨fun _ => rfl, _, rfl⟩
    · exact named i chunk before
  | @appended idx chunk chunk' a found done =>
    refine ⟨rfl, ?_, fun i stored here => ?_⟩
    · have same : (s.open.insert idx chunk').size = s.open.size :=
        Std.TreeMap.size_insert.trans (if_pos (mem_of_getElem? found))
      exact same.trans_le capped
    · rcases getElem?_insert_some here with ⟨rfl, rfl⟩ | ⟨-, before⟩
      · exact ⟨fun ext => (append_file done ext).trans ((named _ _ found).1 ext),
          append_encoder done⟩
      · exact named i stored before
  | sealed reason found held =>
    refine ⟨rfl, (Std.TreeMap.size_erase_le).trans capped, fun i chunk stored => ?_⟩
    exact named i chunk (getElem?_erase_some stored).1

/-- A computation of a chunker whose notes are a path of changes and that fails on an
overflow only. -/
abbrev Steady {α : Type} (k : Codecs) (s : Chunker) (t : Traced Moment Fault α)
    (final : α → Chunker) : Prop :=
  Follows (Change k) (· = Fault.overflow) s t final

/-- Such a computation ends in a sound chunker. -/
theorem Steady.sound {α : Type} {t : Traced Moment Fault α} {final : α → Chunker} {a : α}
    (steady : Steady k s t final) (sound : Sound cfg s) (done : t.outcome = .ok a) :
    Sound cfg (final a) :=
  ((steady.done a done).invariant (fun _ _ _ sound change => sound.change change) sound).1

/-- A noted change is a step from moment to moment. -/
theorem steady_noted {event : Event} (change : Change k s event s') :
    Steady k s (noted event (.ok s')) id where
  done a done := by
    cases done
    exact .single change
  failed fault failed := by cases failed

/-- A sound chunker can seal any chunk that is open. -/
theorem steady_seal (sound : Sound cfg s) {idx : Nat} (isOpen : idx ∈ s.open) (reason : String) :
    Steady k s (sealTraced k reason idx s) id := by
  obtain ⟨chunk, found⟩ := Option.isSome_iff_exists.mp
    (Std.TreeMap.mem_iff_isSome_getElem?.mp isOpen)
  obtain ⟨-, written, held⟩ := sound.named idx chunk found
  rw [sealTraced, sealChunk, found]
  simp only [held]
  exact steady_noted (.sealed reason found held)

/-- Sealing open chunks goes on in steps. -/
theorem steady_sealAll (sound : Sound cfg s) {indices : List Nat} (distinct : indices.Nodup)
    (areOpen : ∀ idx ∈ indices, idx ∈ s.open) (reason : String) :
    Steady k s (sealAllTraced k reason indices s) id := by
  induction indices generalizing s with
  | nil => exact .pure rfl
  | cons idx rest inductionHypothesis =>
    obtain ⟨fresh, distinctRest⟩ := List.nodup_cons.mp distinct
    obtain ⟨here, later⟩ := List.forall_mem_cons.mp areOpen
    refine (steady_seal sound here reason).bind (fun s₁ done => ?_)
    refine inductionHypothesis ((steady_seal sound here reason).sound sound done) distinctRest ?_
    intro i member
    rw [outcome_sealTraced] at done
    obtain ⟨chunk, written, -, -, -, -, opened, -⟩ := sealChunk_ok done
    rw [id, opened, Std.TreeMap.mem_erase]
    refine ⟨fun same => fresh ?_, later i member⟩
    rwa [Std.LawfulEqCmp.compare_eq_iff_eq.mp same]

/-- Sealing a chunk leaves one open chunk less. -/
theorem size_sealChunk {reason : String} {idx : Nat} (done : sealChunk k reason idx s = .ok s') :
    s'.open.size + 1 = s.open.size := by
  obtain ⟨chunk, written, found, -, -, -, opened, -⟩ := sealChunk_ok done
  have member := mem_of_getElem? found
  have smaller : (s.open.erase idx).size = s.open.size - 1 :=
    Std.TreeMap.size_erase.trans (if_pos member)
  have positive : 0 < s.open.size := by
    rw [← Std.TreeMap.length_keys]
    exact List.length_pos_of_mem (Std.TreeMap.mem_keys.mpr member)
  rw [opened]
  omega

/-- With more fuel than there are open chunks the loop ends by its own condition. -/
theorem makeRoom_exits {idx fuel : Nat} (enough : s.open.size < fuel)
    (done : makeRoom k idx fuel s = .ok s') :
    s'.open.size < s'.cfg.maxOpenChunks ∨ s'.open.keys.head? = some idx := by
  induction fuel generalizing s with
  | zero => exact absurd enough (Nat.not_lt_zero _)
  | succ fuel inductionHypothesis =>
    rw [makeRoom] at done
    split at done
    · cases listed : s.open.keys.head? with
      | none =>
        rw [listed] at done
        cases done
      | some oldest =>
        rw [listed] at done
        dsimp only at done
        split at done
        · next own =>
          cases done
          exact .inr (own ▸ listed)
        · obtain ⟨s₁, first, later⟩ := ok_of_bind done
          have smaller := size_sealChunk first
          exact inductionHypothesis (by omega) later
    · next room =>
      cases done
      exact .inl (Nat.lt_of_not_le room)

/-- More fuel than that makes no difference. -/
theorem makeRoom_fuel {idx fuel : Nat} (enough : s.open.size < fuel) (extra : Nat) :
    makeRoom k idx (fuel + extra) s = makeRoom k idx fuel s := by
  induction fuel generalizing s with
  | zero => exact absurd enough (Nat.not_lt_zero _)
  | succ fuel inductionHypothesis =>
    rw [Nat.succ_add, makeRoom, makeRoom]
    split
    · cases s.open.keys.head? with
      | none => rfl
      | some oldest =>
        dsimp only
        split
        · rfl
        · cases first : sealChunk k "cap-reached" oldest s with
          | error fault => rfl
          | ok s₁ =>
            have smaller := size_sealChunk first
            exact inductionHypothesis (by omega)
    · rfl

/-- Making room opens nothing. -/
theorem makeRoom_unopened {idx i fuel : Nat} (unopened : s.open[i]? = none)
    (done : makeRoom k idx fuel s = .ok s') : s'.open[i]? = none := by
  induction fuel generalizing s with
  | zero =>
    cases done
    exact unopened
  | succ fuel inductionHypothesis =>
    rw [makeRoom] at done
    split at done
    · cases listed : s.open.keys.head? with
      | none =>
        rw [listed] at done
        cases done
      | some oldest =>
        rw [listed] at done
        dsimp only at done
        split at done
        · cases done
          exact unopened
        · obtain ⟨s₁, first, later⟩ := ok_of_bind done
          refine inductionHypothesis ?_ later
          obtain ⟨-, -, -, -, -, -, opened, -⟩ := sealChunk_ok first
          rw [opened, Std.TreeMap.getElem?_erase, unopened, ite_self]
    · cases done
      exact unopened

/-- With a positive cap the loop finds an open chunk whenever it looks for one. -/
theorem steady_makeRoom (capped : 0 < cfg.maxOpenChunks) (sound : Sound cfg s) (idx fuel : Nat) :
    Steady k s (makeRoomTraced k idx fuel s) id := by
  induction fuel generalizing s with
  | zero => exact .pure rfl
  | succ fuel inductionHypothesis =>
    rw [makeRoomTraced, sound.sameCfg]
    split
    · next full =>
      cases listed : s.open.keys with
      | nil =>
        have empty : s.open.size = 0 := by rw [← Std.TreeMap.length_keys, listed]; rfl
        omega
      | cons oldest later =>
        have isOpen : oldest ∈ s.open := by rw [← Std.TreeMap.mem_keys, listed]; simp
        dsimp only [List.head?_cons]
        split
        · exact .pure rfl
        · have first := steady_seal (k := k) sound isOpen "cap-reached"
          exact first.bind (fun s₁ done => inductionHypothesis (first.sound sound done))
    · exact .pure rfl

/-- Opening a chunk fails on an overflow only. -/
theorem openChunk_error {now idx : Nat} {fault : Fault}
    (failed : openChunk now idx s = .error fault) : fault = .overflow := by
  rw [openChunk] at failed
  split at failed
  · cases failed
  · rcases checkedMul_cases idx s.cfg.slotsPerChunk with start | start
    · rcases checkedAdd_cases (idx * s.cfg.slotsPerChunk) s.cfg.slotsPerChunk with stop | stop
      · simp only [start, stop, bind, Except.bind] at failed
        split at failed <;> cases failed
      · simp only [start, stop, bind, Except.bind] at failed
        exact (Except.error.inj failed).symm
    · simp only [start, bind, Except.bind] at failed
      exact (Except.error.inj failed).symm

/-- Opening a chunk is a step, if there is room. -/
theorem steady_open {idx : Nat} (room : s.open.size < s.cfg.maxOpenChunks) (now : Nat) :
    Steady k s (openTraced now idx s) id := by
  refine Follows.ofExcept_bind (fun fault failed => openChunk_error failed) (fun after done => ?_)
  rcases openChunk_ok done with rfl | ⟨unopened, noPayload, noSidecar, opened⟩
  · rw [if_pos rfl]
    exact .pure rfl
  · rw [if_neg ?_, opened k]
    · exact steady_noted (.opened room unopened noPayload noSidecar)
    · rw [opened k, contains_iff.mpr unopened, Std.TreeMap.contains_insert_self]
      exact Bool.false_ne_true

/-- A chunk that is not open is opened only after room was made for it. -/
theorem steady_ensureOpen (capped : 0 < cfg.maxOpenChunks) (sound : Sound cfg s) (now idx : Nat) :
    Steady k s (ensureOpenTraced k now idx s) id := by
  rw [ensureOpenTraced]
  split
  · exact .pure rfl
  · next closed =>
    refine (steady_makeRoom capped sound idx _).bind (fun s₁ done => ?_)
    rw [outcome_makeRoomTraced] at done
    refine steady_open ?_ now
    refine (makeRoom_exits (Nat.lt_succ_self _) done).resolve_right (fun first => ?_)
    have unopened := makeRoom_unopened (contains_iff.mp (Bool.eq_false_iff.mpr closed)) done
    have isOpen : idx ∈ s₁.open := Std.TreeMap.mem_keys.mp (List.mem_of_mem_head? first)
    rw [Std.TreeMap.mem_iff_isSome_getElem?, unopened] at isOpen
    cases isOpen

/-- A sound chunker appends without fault. -/
theorem steady_append (sound : Sound cfg s) (idx : Nat) (a : Arrival) :
    Steady k s (appendTraced k idx a s) Prod.snd := by
  rw [appendTraced]
  cases found : s.open[idx]? with
  | none => exact .pure rfl
  | some chunk =>
    obtain ⟨-, written, held⟩ := sound.named idx chunk found
    refine Follows.ofExcept_bind (fun fault failed => ?_) (fun chunk' done => ?_)
    · simp [OpenChunk.append, held] at failed
    · exact (steady_noted (.appended found done)).bind (fun _ _ => .pure rfl)

/-- The chunks left behind are open ones; comparing them fails on an overflow only. -/
theorem behind_sublist {watermarkChunk : Nat} {indices toSeal : List Nat}
    (done : behind watermarkChunk indices = .ok toSeal) : toSeal.Sublist indices ∧
      ∀ idx ∈ indices, idx ∉ toSeal → watermarkChunk < idx + sealLookaheadChunks := by
  induction indices generalizing toSeal with
  | nil =>
    cases done
    exact ⟨.slnil, by simp⟩
  | cons idx rest inductionHypothesis =>
    rw [behind] at done
    obtain ⟨horizon, added, done⟩ := ok_of_bind done
    obtain ⟨later, rested, done⟩ := ok_of_bind done
    obtain ⟨sublist, ahead⟩ := inductionHypothesis rested
    rcases checkedAdd_cases idx sealLookaheadChunks with fits | beyond
    · obtain rfl : idx + sealLookaheadChunks = horizon := Except.ok.inj (fits.symm.trans added)
      obtain rfl := Except.ok.inj done
      split
      · refine ⟨sublist.cons_cons idx, fun i member kept => ?_⟩
        rcases List.mem_cons.mp member with rfl | inRest
        · exact absurd List.mem_cons_self kept
        · exact ahead i inRest (fun among => kept (List.mem_cons_of_mem _ among))
      · next above =>
        refine ⟨sublist.cons idx, List.forall_mem_cons.mpr ⟨fun _ => Nat.lt_of_not_le above, ahead⟩⟩
    · rw [beyond] at added
      cases added

/-- Looking for the chunks left behind can only overflow. -/
theorem behind_error {watermarkChunk : Nat} {indices : List Nat} {fault : Fault}
    (failed : behind watermarkChunk indices = .error fault) : fault = .overflow := by
  induction indices with
  | nil => cases failed
  | cons idx rest inductionHypothesis =>
    rw [behind] at failed
    rcases checkedAdd_cases idx sealLookaheadChunks with fits | beyond
    · cases rested : behind watermarkChunk rest with
      | error other =>
        simp only [fits, rested, bind, Except.bind] at failed
        exact inductionHypothesis (rested.trans failed)
      | ok later =>
        simp only [fits, rested, bind, Except.bind] at failed
        cases failed
    · simp only [beyond, bind, Except.bind] at failed
      exact (Except.error.inj failed).symm

/-- No index is open twice. -/
theorem keys_nodup (opened : Std.TreeMap Nat OpenChunk) : opened.keys.Nodup :=
  Std.TreeMap.ordered_keys.imp (fun less => Nat.ne_of_lt (Nat.compare_eq_lt.mp less))

/-- A sum can only overflow. -/
theorem checkedAdd_error {a b : Nat} {fault : Fault} (failed : checkedAdd a b = .error fault) :
    fault = .overflow := by
  rcases checkedAdd_cases a b with fits | beyond
  · rw [fits] at failed
    cases failed
  · exact Except.error.inj (failed.symm.trans beyond)

/-- Taking a message goes on in steps. -/
theorem steady_ingest (positive : 0 < cfg.slotsPerChunk) (capped : 0 < cfg.maxOpenChunks)
    (sound : Sound cfg s) (a : Arrival) : Steady k s (ingestTraced k a s) Prod.snd := by
  have divides : ∀ b fault, checkedDiv b cfg.slotsPerChunk ≠ .error fault := by
    intro b fault
    rw [checkedDiv, if_neg (Nat.ne_of_gt positive)]
    simp
  refine (steady_noted (.advanced a.slot)).bind (fun s₀ advanced => ?_)
  rw [outcome_noted] at advanced
  cases advanced
  have sound₀ : Sound cfg (advance a.slot s) := sound.change (.advanced (k := k) a.slot)
  dsimp only [id]
  rw [sound₀.sameCfg]
  refine Follows.ofExcept_bind (fun fault failed => absurd failed (divides _ _)) (fun _ _ => ?_)
  refine Follows.ofExcept_bind (fun fault failed => absurd failed (divides _ _)) (fun idx _ => ?_)
  refine Follows.ofExcept_bind (fun fault failed => checkedAdd_error failed) (fun reach _ => ?_)
  split
  · exact .pure rfl
  have ensured := steady_ensureOpen (k := k) capped sound₀ a.now idx
  refine ensured.bind (fun s₁ done => ?_)
  have sound₁ := ensured.sound sound₀ done
  have appended := steady_append (k := k) sound₁ idx a
  refine appended.bind (fun taken done => ?_)
  have sound₂ := appended.sound sound₁ done
  refine Follows.ofExcept_bind (fun fault failed => behind_error failed) (fun toSeal listed => ?_)
  obtain ⟨sublist, -⟩ := behind_sublist listed
  refine Follows.bind (steady_sealAll sound₂ (sublist.nodup (keys_nodup _)) ?_ "watermark")
    (fun _ _ => .pure rfl)
  exact fun i member => Std.TreeMap.mem_keys.mp (sublist.subset member)

/-- The idle chunks are open ones. -/
theorem stale_sublist (now : Nat) :
    ((s.open.toList.filter (fun entry => stale now entry.2)).map Prod.fst).Sublist
      s.open.keys := by
  rw [← Std.TreeMap.map_fst_toList_eq_keys]
  exact List.filter_sublist.map _

/-- Every call on a sound chunker goes through single changes and fails on an overflow
only. -/
theorem steady_call (positive : 0 < cfg.slotsPerChunk) (capped : 0 < cfg.maxOpenChunks)
    (sound : Sound cfg s) (c : Call) : Steady k s (callTraced k s c) id := by
  cases c with
  | shutdown =>
    exact steady_sealAll sound (keys_nodup _) (fun _ member => Std.TreeMap.mem_keys.mp member) _
  | op op =>
    cases op with
    | ingest a =>
      exact (steady_ingest positive capped sound a).bind (fun _ _ => .pure rfl)
    | tick now =>
      exact steady_sealAll sound ((stale_sublist now).nodup (keys_nodup _))
        (fun i member => Std.TreeMap.mem_keys.mp ((stale_sublist now).subset member)) _

/-- So do any calls. -/
theorem steady_calls (positive : 0 < cfg.slotsPerChunk) (capped : 0 < cfg.maxOpenChunks)
    (sound : Sound cfg s) (cs : List Call) : Steady k s (callsTraced k s cs) id := by
  induction cs generalizing s with
  | nil => exact .pure rfl
  | cons c rest inductionHypothesis =>
    have first := steady_call (k := k) positive capped sound c
    exact first.bind (fun s₁ done => inductionHypothesis (first.sound sound done))

end Chunker

end Sillage
