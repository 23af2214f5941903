import Sillage.Settings
import Sillage.Writer.WriteOnce

/-!
# Which messages a chunker can take in

The settings are not checked for what the chunker needs of them, and slots come from the
network. A chunker panics on a message if the chunks have no slots, if no chunk may be open,
or if one of the sums that it makes with the slot exceeds 64 bits. Here these cases are told
from the messages alone, without a look at the states that the chunker goes through.
-/

namespace Sillage

open LittleEndian Directory OpenChunk Tracks

namespace Chunker

/-- The slots of the messages among some calls. -/
def slotsIn (cs : List Call) : List Nat :=
  cs.filterMap (fun c =>
    match c with
    | .op (.ingest a) => some a.slot
    | _ => none)

/-- The greatest of some slots. -/
def watermarkOf (slots : List Nat) : Nat := slots.foldl max 0

/-- The sums that the chunker makes with a slot, behind some earlier ones, do not exceed 64
bits. The bounds of the chunk are computed unless the message is dropped as too old; the
look-ahead of the chunk too, unless it lies on disk from the start. -/
structure Admits (cfg : WriterConfig) (dir : Dir) (earlier : List Nat) (slot : Nat) : Prop where
  reach : slot + cfg.outOfOrderToleranceSlots < u64Bound
  range : watermarkOf (earlier ++ [slot]) ≤ slot + cfg.outOfOrderToleranceSlots →
    slot / cfg.slotsPerChunk * cfg.slotsPerChunk + cfg.slotsPerChunk < u64Bound
  lookahead : watermarkOf (earlier ++ [slot]) ≤ slot + cfg.outOfOrderToleranceSlots →
    slot / cfg.slotsPerChunk + sealLookaheadChunks < u64Bound ∨
      OnDisk cfg dir (slot / cfg.slotsPerChunk)

/-- The open chunks have bounds and a look-ahead within 64 bits. A chunk whose look-ahead
exceeds them lies on disk if and only if it does so from the start. -/
structure Bounded (cfg : WriterConfig) (dir : Dir) (s : Chunker) : Prop where
  range : ∀ idx ∈ s.open, idx * cfg.slotsPerChunk + cfg.slotsPerChunk < u64Bound
  lookahead : ∀ idx ∈ s.open, idx + sealLookaheadChunks < u64Bound
  disk : ∀ idx, ¬ idx + sealLookaheadChunks < u64Bound →
    (OnDisk cfg s.baseDir idx ↔ OnDisk cfg dir idx)

variable {k : Codecs} {cfg : WriterConfig} {dir : Dir} {s s' : Chunker} {idx : Nat}

/-! ## Sealing -/

/-- Sealing a chunk changes the chunker by that seal. -/
theorem change_of_seal {reason : String} (done : sealChunk k reason idx s = .ok s') :
    Change k s (.sealed idx reason) s' := by
  rw [sealChunk] at done
  split at done
  · cases done
  · next chunk found =>
    split at done
    · cases done
    · next written held =>
      cases done
      exact .sealed reason found held

/-- Sealing a chunk touches no chunk whose look-ahead is too great. -/
theorem Bounded.sealChunk {reason : String} (positive : 0 < cfg.slotsPerChunk)
    (sound : Sound cfg s) (bounded : Bounded cfg dir s)
    (done : sealChunk k reason idx s = .ok s') : Bounded cfg dir s' := by
  obtain ⟨chunk, written, found, -, -, -, opened, files⟩ := sealChunk_ok done
  have remain : ∀ i ∈ s'.open, i ∈ s.open := by
    intro i member
    rw [opened] at member
    exact (Std.TreeMap.mem_erase.mp member).2
  refine ⟨fun i member => bounded.range i (remain i member),
    fun i member => bounded.lookahead i (remain i member), fun i far => ?_⟩
  have distinct : i ≠ idx := by
    rintro rfl
    exact far (bounded.lookahead i (mem_of_getElem? found))
  have named := (sound.named idx chunk found).1
  rw [← bounded.disk i far, OnDisk, OnDisk, files,
    lookup_seal_other positive named distinct, lookup_seal_other positive named distinct]

/-- Sealing chunks keeps the open ones within bounds. -/
theorem bounded_sealAll {reason : String} {indices : List Nat} (positive : 0 < cfg.slotsPerChunk)
    (sound : Sound cfg s) (bounded : Bounded cfg dir s)
    (done : sealAll k reason indices s = .ok s') : Sound cfg s' ∧ Bounded cfg dir s' := by
  induction indices generalizing s with
  | nil =>
    cases done
    exact ⟨sound, bounded⟩
  | cons idx rest inductionHypothesis =>
    obtain ⟨s₁, first, later⟩ := ok_of_bind done
    exact inductionHypothesis (sound.change (change_of_seal first))
      (bounded.sealChunk positive sound first) later

/-- So does making room. -/
theorem bounded_makeRoom {fuel : Nat} (positive : 0 < cfg.slotsPerChunk) (sound : Sound cfg s)
    (bounded : Bounded cfg dir s) (done : makeRoom k idx fuel s = .ok s') :
    Sound cfg s' ∧ Bounded cfg dir s' := by
  induction fuel generalizing s with
  | zero =>
    cases done
    exact ⟨sound, bounded⟩
  | succ fuel inductionHypothesis =>
    rw [makeRoom] at done
    split at done
    · cases listed : s.open.keys.head? with
      | none =>
        rw [listed] at done
        cases done
      | some oldest =>
        rw [listed] at done
        dsimp only at done
        split at done
        · cases done
          exact ⟨sound, bounded⟩
        · obtain ⟨s₁, first, later⟩ := ok_of_bind done
          exact inductionHypothesis (sound.change (change_of_seal first))
            (bounded.sealChunk positive sound first) later
    · cases done
      exact ⟨sound, bounded⟩

/-- Sealing makes no sums. -/
theorem sealChunk_inRange {reason : String} : sealChunk k reason idx s ≠ .error .overflow := by
  rw [sealChunk]
  split
  · simp
  · split <;> simp

/-- Sealing chunks computes nothing that could overflow. -/
theorem sealAll_inRange {reason : String} {indices : List Nat} :
    sealAll k reason indices s ≠ .error .overflow := by
  induction indices generalizing s with
  | nil => simp [sealAll]
  | cons idx rest inductionHypothesis =>
    intro failed
    cases first : sealChunk k reason idx s with
    | error fault =>
      simp only [sealAll, first, bind, Except.bind] at failed
      exact sealChunk_inRange (first.trans failed)
    | ok s₁ =>
      simp only [sealAll, first, bind, Except.bind] at failed
      exact inductionHypothesis failed

/-- Nor does making room. -/
theorem makeRoom_inRange {fuel : Nat} : makeRoom k idx fuel s ≠ .error .overflow := by
  induction fuel generalizing s with
  | zero => simp [makeRoom]
  | succ fuel inductionHypothesis =>
    rw [makeRoom]
    split
    · cases s.open.keys.head? with
      | none => simp
      | some oldest =>
        dsimp only
        split
        · simp
        · intro failed
          cases first : sealChunk k "cap-reached" oldest s with
          | error fault =>
            simp only [first, bind, Except.bind] at failed
            exact sealChunk_inRange (first.trans failed)
          | ok s₁ =>
            simp only [first, bind, Except.bind] at failed
            exact inductionHypothesis failed
    · simp

/-- A computation that fails on an overflow only, and makes no sums, succeeds. -/
theorem Steady.succeeds {α : Type} {t : Traced Moment Fault α} {final : α → Chunker}
    (steady : Steady k s t final) (inRange : t.outcome ≠ .error .overflow) :
    ∃ a, t.outcome = .ok a := by
  cases ended : t.outcome with
  | ok a => exact ⟨a, rfl⟩
  | error fault =>
    rw [ended, (steady.failed fault ended).1] at inRange
    exact absurd rfl inRange

/-- A sound chunker seals any of its chunks. -/
theorem sealAll_succeeds (sound : Sound cfg s) {indices : List Nat} (distinct : indices.Nodup)
    (areOpen : ∀ i ∈ indices, i ∈ s.open) (reason : String) :
    ∃ s', sealAll k reason indices s = .ok s' := by
  have steady := steady_sealAll (k := k) sound distinct areOpen reason
  rw [← outcome_sealAllTraced]
  exact steady.succeeds (by simpa using sealAll_inRange)

/-- A sound chunker makes room if a chunk may be open at all. -/
theorem makeRoom_succeeds (capped : 0 < cfg.maxOpenChunks) (sound : Sound cfg s)
    (idx fuel : Nat) : ∃ s', makeRoom k idx fuel s = .ok s' := by
  have steady := steady_makeRoom (k := k) capped sound idx fuel
  rw [← outcome_makeRoomTraced]
  exact steady.succeeds (by simpa using makeRoom_inRange)

/-! ## Opening -/

/-- Opening a chunk changes no final file. -/
theorem onDisk_openChunk {now : Nat} (positive : 0 < cfg.slotsPerChunk) (sameCfg : s.cfg = cfg)
    (done : openChunk now idx s = .ok s') (i : Nat) :
    OnDisk cfg s'.baseDir i ↔ OnDisk cfg s.baseDir i := by
  subst sameCfg
  rcases openChunk_ok done with rfl | ⟨-, -, -, opened⟩
  · exact Iff.rfl
  · have others : ∀ ext, ext ≠ "zst.partial" →
        s'.baseDir.lookup (chunkName s.cfg i ext) = s.baseDir.lookup (chunkName s.cfg i ext) := by
      intro ext other
      rw [opened PlainCodecs.plain]
      exact (lookup_create _ _ _).trans
        (if_neg (fun same => other (chunkName_injective positive same).2))
    rw [OnDisk, OnDisk, others "zst" (by decide), others "meta.json" (by decide)]

/-- A chunk that lies on disk is not opened. -/
theorem openChunk_closed {now : Nat} (sameCfg : s.cfg = cfg) (closed : s.open[idx]? = none)
    (onDisk : OnDisk cfg s.baseDir idx) (done : openChunk now idx s = .ok s') :
    s'.open[idx]? = none := by
  subst sameCfg
  rcases openChunk_ok done with rfl | ⟨-, noPayload, noSidecar, -⟩
  · exact closed
  · rcases onDisk with payload | sidecar
    · rw [noPayload] at payload
      cases payload
    · rw [noSidecar] at sidecar
      cases sidecar

/-- A chunk can be opened, or is found on disk, exactly if its bounds can be computed. -/
theorem openChunk_ok_iff {now : Nat} (closed : s.open[idx]? = none) :
    (∃ s', openChunk now idx s = .ok s') ↔
      idx * s.cfg.slotsPerChunk + s.cfg.slotsPerChunk < u64Bound := by
  rw [openChunk, if_neg (by simp [contains_iff.mpr closed])]
  constructor
  · rintro ⟨s', done⟩
    obtain ⟨start, multiplied, done⟩ := ok_of_bind done
    obtain ⟨stop, added, -⟩ := ok_of_bind done
    obtain ⟨-, rfl⟩ := checkedMul_ok_iff.mp multiplied
    exact (checkedAdd_ok_iff.mp added).1
  · intro fits
    have start := checkedMul_ok_iff.mpr ⟨Nat.lt_of_le_of_lt (Nat.le_add_right _ _) fits, rfl⟩
    have stop := checkedAdd_ok_iff.mpr ⟨fits, rfl⟩
    simp only [start, stop, bind, Except.bind]
    split
    · exact ⟨_, rfl⟩
    · exact ⟨_, rfl⟩

/-- A chunk that is not opened lies on disk. -/
theorem onDisk_of_closed {now : Nat} (sameCfg : s.cfg = cfg) (closed : s.open[idx]? = none)
    (done : openChunk now idx s = .ok s') (stillClosed : s'.open[idx]? = none) :
    OnDisk cfg s.baseDir idx := by
  subst sameCfg
  rw [openChunk, if_neg (by simp [contains_iff.mpr closed])] at done
  obtain ⟨start, multiplied, done⟩ := ok_of_bind done
  obtain ⟨stop, added, done⟩ := ok_of_bind done
  obtain ⟨-, rfl⟩ := checkedMul_ok_iff.mp multiplied
  obtain ⟨-, rfl⟩ := checkedAdd_ok_iff.mp added
  dsimp only at done
  split at done
  · next onDisk => exact onDisk
  · cases done
    simp at stillClosed

/-- What is so once the chunk of a message is open or found on disk. -/
structure Ensured (cfg : WriterConfig) (dir : Dir) (idx : Nat) (s s' : Chunker) : Prop where
  sound : Sound cfg s'
  range : ∀ i ∈ s'.open, i * cfg.slotsPerChunk + cfg.slotsPerChunk < u64Bound
  others : ∀ i ∈ s'.open, i ∈ s.open ∨ i = idx
  disk : ∀ i, ¬ i + sealLookaheadChunks < u64Bound →
    (OnDisk cfg s'.baseDir i ↔ OnDisk cfg dir i)
  far : ¬ idx + sealLookaheadChunks < u64Bound → (idx ∉ s'.open ↔ OnDisk cfg dir idx)

/-- Behind the opening the chunk is open, or found on disk. -/
theorem ensureOpen_ensured {now : Nat} (positive : 0 < cfg.slotsPerChunk)
    (capped : 0 < cfg.maxOpenChunks) (sound : Sound cfg s) (bounded : Bounded cfg dir s)
    (done : ensureOpen k now idx s = .ok s') : Ensured cfg dir idx s s' := by
  have steady := steady_ensureOpen (k := k) capped sound now idx
  have sound' : Sound cfg s' := steady.sound sound (by simpa using done)
  have others := (ensureOpen_open done).2
  rw [ensureOpen] at done
  split at done
  · next isOpen =>
    cases done
    have member : idx ∈ s.open := Std.TreeMap.contains_iff_mem.mp isOpen
    exact ⟨sound', bounded.range, others, bounded.disk,
      fun far => absurd (bounded.lookahead idx member) far⟩
  · next notOpen =>
    have closed : s.open[idx]? = none := contains_iff.mp (Bool.eq_false_iff.mpr notOpen)
    obtain ⟨s₁, room, opens⟩ := ok_of_bind done
    obtain ⟨sound₁, bounded₁⟩ := bounded_makeRoom positive sound bounded room
    have closed₁ := makeRoom_unopened closed room
    have fits := (openChunk_ok_iff closed₁).mp ⟨s', opens⟩
    rw [sound₁.sameCfg] at fits
    have disk := onDisk_openChunk positive sound₁.sameCfg opens
    refine ⟨sound', fun i member => ?_, others, fun i far => (disk i).trans (bounded₁.disk i far),
      fun far => ?_⟩
    · rcases others i member with before | rfl
      · exact bounded.range i before
      · exact fits
    · rw [← bounded₁.disk idx far, ← Std.TreeMap.contains_iff_mem, Bool.not_eq_true, contains_iff]
      constructor
      · exact onDisk_of_closed sound₁.sameCfg closed₁ opens
      · exact fun onDisk => openChunk_closed sound₁.sameCfg closed₁ onDisk opens

/-- The chunk of a message is open, or can be opened or found on disk, exactly if its bounds
can be computed. -/
theorem ensureOpen_ok_iff (capped : 0 < cfg.maxOpenChunks) (sound : Sound cfg s)
    (bounded : Bounded cfg dir s) (now idx : Nat) :
    (∃ s', ensureOpen k now idx s = .ok s') ↔
      idx * cfg.slotsPerChunk + cfg.slotsPerChunk < u64Bound := by
  rw [ensureOpen]
  split
  · next isOpen =>
    have member : idx ∈ s.open := Std.TreeMap.contains_iff_mem.mp isOpen
    exact ⟨fun _ => bounded.range idx member, fun _ => ⟨s, rfl⟩⟩
  · next notOpen =>
    have closed : s.open[idx]? = none := contains_iff.mp (Bool.eq_false_iff.mpr notOpen)
    obtain ⟨s₁, room⟩ := makeRoom_succeeds (k := k) capped sound idx (s.open.size + 1)
    have sameCfg : s₁.cfg = cfg := by
      have steady := steady_makeRoom (k := k) capped sound idx (s.open.size + 1)
      exact (steady.sound sound (by simpa using room)).sameCfg
    rw [← sameCfg, ← @openChunk_ok_iff s₁ idx now (makeRoom_unopened closed room)]
    simp only [room, bind, Except.bind]

/-- A sound chunker appends to an open chunk, and to no other. -/
theorem appendTo_succeeds (sound : Sound cfg s) (idx : Nat) (a : Arrival) :
    ∃ verdict s', appendTo k idx a s = .ok (verdict, s') ∧ Sound cfg s' ∧
      s'.baseDir = s.baseDir ∧ s'.watermarkSlot = s.watermarkSlot ∧
      ∀ i, i ∈ s'.open ↔ i ∈ s.open := by
  rw [appendTo]
  cases found : s.open[idx]? with
  | none => exact ⟨_, s, rfl, sound, rfl, rfl, fun i => Iff.rfl⟩
  | some chunk =>
    obtain ⟨-, written, held⟩ := sound.named idx chunk found
    have appended : ∃ chunk', chunk.append k a = .ok chunk' := by
      simp [OpenChunk.append, held]
    obtain ⟨chunk', appended⟩ := appended
    refine ⟨.appended, { s with «open» := s.open.insert idx chunk' }, ?_,
      sound.change (.appended found appended), rfl, rfl, fun i => ?_⟩
    · simp only [appended, bind, Except.bind]
    · rw [Std.TreeMap.mem_insert]
      constructor
      · rintro (same | before)
        · rw [← Std.LawfulEqCmp.compare_eq_iff_eq.mp same]
          exact mem_of_getElem? found
        · exact before
      · exact .inr

/-- The look-ahead of every chunk can be computed exactly if it does not exceed 64 bits. -/
theorem behind_ok_iff (watermarkChunk : Nat) (indices : List Nat) :
    (∃ toSeal, behind watermarkChunk indices = .ok toSeal) ↔
      ∀ idx ∈ indices, idx + sealLookaheadChunks < u64Bound := by
  constructor
  · rintro ⟨toSeal, done⟩
    induction indices generalizing toSeal with
    | nil => exact fun idx member => by cases member
    | cons idx rest inductionHypothesis =>
      rw [behind] at done
      obtain ⟨horizon, added, done⟩ := ok_of_bind done
      obtain ⟨later, rested, -⟩ := ok_of_bind done
      exact List.forall_mem_cons.mpr ⟨(checkedAdd_ok_iff.mp added).1,
        inductionHypothesis later rested⟩
  · exact fun within => ⟨_, behind_eq watermarkChunk indices within⟩

/-! ## Taking messages in -/

/-- What is so of a chunker behind some slots. -/
structure Behind (cfg : WriterConfig) (dir : Dir) (earlier : List Nat) (s : Chunker) : Prop where
  sound : Sound cfg s
  bounded : Bounded cfg dir s
  marked : s.watermarkSlot.getD 0 = watermarkOf earlier

variable {earlier : List Nat}

/-- The watermark of one more slot. -/
@[simp] theorem watermarkOf_append (slot : Nat) :
    watermarkOf (earlier ++ [slot]) = max (watermarkOf earlier) slot := by
  simp [watermarkOf]

/-- A chunker without a chunk is behind no slot. -/
theorem behind_new (stream : Stream) : Behind cfg dir [] (new stream cfg dir) where
  sound := sound_new stream cfg dir
  bounded := by
    have nothing : ∀ idx, idx ∉ (new stream cfg dir).open := by simp [new]
    exact ⟨fun idx member => absurd member (nothing idx),
      fun idx member => absurd member (nothing idx), fun idx _ => Iff.rfl⟩
  marked := rfl

/-- Raising the watermark to the slot of a message. -/
theorem Behind.advance (before : Behind cfg dir earlier s) (slot : Nat) :
    Behind cfg dir (earlier ++ [slot]) (advance slot s) where
  sound := before.sound.change (.advanced (k := PlainCodecs.plain) slot)
  bounded := ⟨before.bounded.range, before.bounded.lookahead, before.bounded.disk⟩
  marked := by
    rw [watermarkOf_append, ← before.marked, Chunker.advance]
    cases s.watermarkSlot with
    | none => simp
    | some watermark => rfl

/-- Sealing open chunks succeeds and leaves the chunker behind the same slots. -/
theorem Behind.sealAll (positive : 0 < cfg.slotsPerChunk) (before : Behind cfg dir earlier s)
    {indices : List Nat} (distinct : indices.Nodup) (areOpen : ∀ i ∈ indices, i ∈ s.open)
    (reason : String) :
    ∃ s', sealAll k reason indices s = .ok s' ∧ Behind cfg dir earlier s' := by
  obtain ⟨s', sealed⟩ := sealAll_succeeds (k := k) before.sound distinct areOpen reason
  obtain ⟨sound, bounded⟩ := bounded_sealAll positive before.sound before.bounded sealed
  refine ⟨s', sealed, sound, bounded, ?_⟩
  rw [(sealAll_open sealed).1, before.marked]

/-- The chunk of a message is open or found on disk, and its look-ahead can be computed if it
is open. -/
theorem Behind.ensure (positive : 0 < cfg.slotsPerChunk) (capped : 0 < cfg.maxOpenChunks)
    (before : Behind cfg dir earlier s) {now : Nat}
    (lookahead : idx + sealLookaheadChunks < u64Bound ∨ OnDisk cfg dir idx)
    (done : ensureOpen k now idx s = .ok s') : Behind cfg dir earlier s' := by
  have ensured := ensureOpen_ensured positive capped before.sound before.bounded done
  have ahead : ∀ i ∈ s'.open, i + sealLookaheadChunks < u64Bound := by
    intro i member
    rcases ensured.others i member with wasOpen | rfl
    · exact before.bounded.lookahead i wasOpen
    · by_contra far
      exact (ensured.far far).mpr (lookahead.resolve_left far) member
  refine ⟨ensured.sound, ⟨ensured.range, ahead, ensured.disk⟩, ?_⟩
  rw [(ensureOpen_open done).1, before.marked]

/-- Appending a message leaves the chunker behind the same slots. -/
theorem Behind.append (before : Behind cfg dir earlier s) (idx : Nat) (a : Arrival) :
    ∃ verdict s', appendTo k idx a s = .ok (verdict, s') ∧ Behind cfg dir earlier s' ∧
      ∀ i, i ∈ s'.open ↔ i ∈ s.open := by
  obtain ⟨verdict, s', appended, sound, disk, marked, same⟩ :=
    appendTo_succeeds (k := k) before.sound idx a
  refine ⟨verdict, s', appended, ⟨sound, ?_, marked ▸ before.marked⟩, same⟩
  constructor
  · exact fun i member => before.bounded.range i ((same i).mp member)
  · exact fun i member => before.bounded.lookahead i ((same i).mp member)
  · exact disk ▸ before.bounded.disk

/-- A message that the chunker admits is taken in, and leaves the chunker behind its slot too. -/
theorem Behind.ingest (positive : 0 < cfg.slotsPerChunk) (capped : 0 < cfg.maxOpenChunks)
    (before : Behind cfg dir earlier s) {a : Arrival} (admits : Admits cfg dir earlier a.slot) :
    ∃ verdict s', ingest k a s = .ok (verdict, s') ∧ Behind cfg dir (earlier ++ [a.slot]) s' := by
  have raised := before.advance a.slot
  by_cases late : a.slot + cfg.outOfOrderToleranceSlots < watermarkOf (earlier ++ [a.slot])
  · refine ⟨.olderThanTolerance, _,
      (ingest_ok_iff positive before.sound.sameCfg raised.marked).mpr ⟨admits.reach, ?_⟩, raised⟩
    rw [if_pos late]
    exact ⟨rfl, rfl⟩
  · have timely := Nat.le_of_not_lt late
    obtain ⟨s₁, ensured⟩ := (ensureOpen_ok_iff (k := k) capped raised.sound raised.bounded a.now
      (a.slot / cfg.slotsPerChunk)).mpr (admits.range timely)
    have behind₁ := raised.ensure positive capped (admits.lookahead timely) ensured
    obtain ⟨verdict, s₂, appended, behind₂, -⟩ := behind₁.append (k := k) _ a
    obtain ⟨toSeal, listed⟩ :=
      (behind_ok_iff (watermarkOf (earlier ++ [a.slot]) / cfg.slotsPerChunk) s₂.open.keys).mpr
        (fun i member => behind₂.bounded.lookahead i (Std.TreeMap.mem_keys.mp member))
    obtain ⟨sublist, -⟩ := behind_sublist listed
    obtain ⟨s₃, sealed, behind₃⟩ := behind₂.sealAll (k := k) positive
      (sublist.nodup (keys_nodup _))
      (fun i member => Std.TreeMap.mem_keys.mp (sublist.subset member)) "watermark"
    refine ⟨verdict, s₃,
      (ingest_ok_iff positive before.sound.sameCfg raised.marked).mpr ⟨admits.reach, ?_⟩, behind₃⟩
    rw [if_neg late]
    exact ⟨s₁, s₂, toSeal, ensured, appended, listed, sealed⟩

/-- A message that was taken in was admitted. -/
theorem Behind.admits (positive : 0 < cfg.slotsPerChunk) (capped : 0 < cfg.maxOpenChunks)
    (before : Behind cfg dir earlier s) {a : Arrival} {verdict : Verdict}
    (done : Chunker.ingest k a s = .ok (verdict, s')) : Admits cfg dir earlier a.slot := by
  have raised := before.advance a.slot
  obtain ⟨reach, settled⟩ := (ingest_ok_iff positive before.sound.sameCfg raised.marked).mp done
  split at settled
  · next late =>
    exact ⟨reach, fun timely => absurd timely (Nat.not_le_of_gt late),
      fun timely => absurd timely (Nat.not_le_of_gt late)⟩
  · obtain ⟨s₁, s₂, toSeal, ensured, appended, listed, -⟩ := settled
    refine ⟨reach, fun _ => ?_, fun _ => or_iff_not_imp_left.mpr (fun far => ?_)⟩
    · exact (ensureOpen_ok_iff capped raised.sound raised.bounded _ _).mp ⟨s₁, ensured⟩
    · have opened := ensureOpen_ensured positive capped raised.sound raised.bounded ensured
      refine (opened.far far).mp (fun member => far ?_)
      obtain ⟨verdict', s', appended', -, -, -, same⟩ :=
        appendTo_succeeds (k := k) opened.sound (a.slot / cfg.slotsPerChunk) a
      obtain ⟨rfl, rfl⟩ := Prod.mk.inj (Except.ok.inj (appended.symm.trans appended'))
      exact (behind_ok_iff _ _).mp ⟨toSeal, listed⟩ _
        (Std.TreeMap.mem_keys.mpr ((same _).mpr member))

/-- Ticks and shutdowns succeed. -/
theorem Behind.tick (positive : 0 < cfg.slotsPerChunk) (before : Behind cfg dir earlier s)
    (now : Nat) : ∃ s', tick k now s = .ok s' ∧ Behind cfg dir earlier s' :=
  before.sealAll positive ((stale_sublist now).nodup (keys_nodup _))
    (fun _ member => Std.TreeMap.mem_keys.mp ((stale_sublist now).subset member)) "shutdown"

/-- A shutdown succeeds behind any slots. -/
theorem Behind.shutdown (positive : 0 < cfg.slotsPerChunk) (before : Behind cfg dir earlier s) :
    ∃ s', shutdown k s = .ok s' ∧ Behind cfg dir earlier s' :=
  before.sealAll positive (keys_nodup _) (fun _ member => Std.TreeMap.mem_keys.mp member)
    "shutdown"

/-! ## Runs -/

/-- Every slot of some is admitted behind those before it. -/
def AdmitsAll (cfg : WriterConfig) (dir : Dir) (earlier slots : List Nat) : Prop :=
  ∀ before slot after, slots = before ++ slot :: after → Admits cfg dir (earlier ++ before) slot

/-- Slots are admitted one by one. -/
theorem admitsAll_cons (slot : Nat) (rest : List Nat) :
    AdmitsAll cfg dir earlier (slot :: rest) ↔
      Admits cfg dir earlier slot ∧ AdmitsAll cfg dir (earlier ++ [slot]) rest := by
  constructor
  · intro all
    refine ⟨by simpa using all [] slot rest rfl, fun before next after split => ?_⟩
    simpa using all (slot :: before) next after (congrArg (slot :: ·) split)
  · rintro ⟨first, later⟩ before next after split
    cases before with
    | nil =>
      obtain ⟨rfl, -⟩ := List.cons.inj split
      simpa using first
    | cons head before =>
      obtain ⟨rfl, splitRest⟩ := List.cons.inj split
      simpa using later before _ after splitRest

/-- Behind a call that succeeds the others follow. -/
theorem calls_cons_ok {c : Call} (rest : List Call) (first : call k s c = .ok s') :
    calls k s (c :: rest) = calls k s' rest := by
  simp only [calls, first, bind, Except.bind]

/-- A chunker with chunks to open takes calls exactly if it admits their messages. -/
theorem Behind.calls_ok_iff (positive : 0 < cfg.slotsPerChunk) (capped : 0 < cfg.maxOpenChunks)
    (before : Behind cfg dir earlier s) (cs : List Call) :
    (∃ s', calls k s cs = .ok s') ↔ AdmitsAll cfg dir earlier (slotsIn cs) := by
  induction cs generalizing s earlier with
  | nil => simp [calls, slotsIn, AdmitsAll]
  | cons c rest inductionHypothesis =>
    cases c with
    | shutdown =>
      obtain ⟨s₁, done, after⟩ := before.shutdown (k := k) positive
      rw [calls_cons_ok (c := .shutdown) rest done]
      exact inductionHypothesis after
    | op op =>
      cases op with
      | tick now =>
        obtain ⟨s₁, done, after⟩ := before.tick (k := k) positive now
        rw [calls_cons_ok (c := .op (.tick now)) rest done]
        exact inductionHypothesis after
      | ingest a =>
        change _ ↔ AdmitsAll cfg dir earlier (a.slot :: slotsIn rest)
        rw [admitsAll_cons]
        constructor
        · rintro ⟨s', done⟩
          obtain ⟨s₁, first, later⟩ := ok_of_bind done
          obtain ⟨verdict, ingested⟩ := (call_ingest_ok_iff a).mp first
          have admits := before.admits positive capped ingested
          obtain ⟨verdict', s₁', ingested', after⟩ := before.ingest (k := k) positive capped admits
          obtain ⟨rfl, rfl⟩ := Prod.mk.inj (Except.ok.inj (ingested.symm.trans ingested'))
          exact ⟨admits, (inductionHypothesis after).mp ⟨s', later⟩⟩
        · rintro ⟨admits, later⟩
          obtain ⟨verdict, s₁, ingested, after⟩ := before.ingest (k := k) positive capped admits
          rw [calls_cons_ok rest ((call_ingest_ok_iff a).mpr ⟨verdict, ingested⟩)]
          exact (inductionHypothesis after).mpr later

/-- With nothing open there is nothing to seal. -/
theorem call_idle (idle : s.open = ∅) {c : Call} (silent : slotsIn [c] = []) :
    call k s c = .ok s := by
  have nothing : s.open.toList = [] := by rw [idle]; rfl
  cases c with
  | shutdown =>
    rw [call, shutdown, ← Std.TreeMap.map_fst_toList_eq_keys, nothing]
    rfl
  | op op =>
    cases op with
    | tick now =>
      rw [call, step, tick, nothing]
      rfl
    | ingest a => cases silent

/-- A chunker that has no slots in its chunks, or may open none, fails on its first message. -/
theorem ingest_starved (starved : s.cfg.slotsPerChunk = 0 ∨ s.cfg.maxOpenChunks = 0)
    (idle : s.open = ∅) (unmarked : s.watermarkSlot = none) (a : Arrival)
    (result : Verdict × Chunker) : ingest k a s ≠ .ok result := by
  intro done
  obtain ⟨mark, divided, done⟩ := ok_of_bind done
  rcases starved with noSlots | noRoom
  · simp [advance, noSlots, checkedDiv] at divided
  · obtain ⟨chunkIdx, -, done⟩ := ok_of_bind done
    obtain ⟨reach, added, done⟩ := ok_of_bind done
    obtain ⟨-, rfl⟩ := checkedAdd_ok_iff.mp added
    have inTime : ¬ a.slot + s.cfg.outOfOrderToleranceSlots < a.slot :=
      Nat.not_lt_of_le (Nat.le_add_right _ _)
    simp only [advance, unmarked, Option.elim, Option.getD_some, if_neg inTime] at done
    obtain ⟨s₁, ensured, -⟩ := ok_of_bind done
    simp [ensureOpen, makeRoom, idle, noRoom, bind, Except.bind] at ensured

/-- A chunker without slots in a chunk, or without room for one, bears no message. -/
theorem calls_starved (starved : s.cfg.slotsPerChunk = 0 ∨ s.cfg.maxOpenChunks = 0)
    (idle : s.open = ∅) (unmarked : s.watermarkSlot = none) (cs : List Call) :
    (∃ s', calls k s cs = .ok s') ↔ slotsIn cs = [] := by
  induction cs with
  | nil => simp [calls, slotsIn]
  | cons c rest inductionHypothesis =>
    cases c with
    | shutdown =>
      rw [calls_cons_ok rest (call_idle idle (c := .shutdown) rfl)]
      exact inductionHypothesis
    | op op =>
      cases op with
      | tick now =>
        rw [calls_cons_ok rest (call_idle idle (c := .op (.tick now)) rfl)]
        exact inductionHypothesis
      | ingest a =>
        constructor
        · rintro ⟨s', done⟩
          obtain ⟨s₁, first, -⟩ := ok_of_bind done
          obtain ⟨verdict, ingested⟩ := (call_ingest_ok_iff a).mp first
          exact absurd ingested (ingest_starved starved idle unmarked a _)
        · intro silent
          cases silent

/-- A chunker takes calls without a panic or a wrap around exactly if no message is among
them, or its chunks have slots, it may open one, and every message is admitted behind those
before it. -/
theorem calls_total_iff (k : Codecs) (stream : Stream) (cfg : WriterConfig) (dir : Dir)
    (cs : List Call) :
    (∃ s, calls k (new stream cfg dir) cs = .ok s) ↔
      slotsIn cs = [] ∨ 0 < cfg.slotsPerChunk ∧ 0 < cfg.maxOpenChunks ∧
        ∀ before slot after, slotsIn cs = before ++ slot :: after → Admits cfg dir before slot := by
  by_cases fed : 0 < cfg.slotsPerChunk ∧ 0 < cfg.maxOpenChunks
  · obtain ⟨positive, capped⟩ := fed
    rw [(behind_new stream).calls_ok_iff positive capped]
    constructor
    · exact fun all => .inr ⟨positive, capped, all⟩
    · rintro (silent | ⟨-, -, all⟩)
      · intro before slot after split
        simp [silent] at split
      · exact all
  · have starved : cfg.slotsPerChunk = 0 ∨ cfg.maxOpenChunks = 0 := by omega
    rw [calls_starved (s := new stream cfg dir) starved rfl rfl]
    constructor
    · exact .inl
    · exact fun either => either.resolve_right (fun all => fed ⟨all.1, all.2.1⟩)

/-- Settings that pass the check let a chunker panic on its first message: with chunks of no
slots, with no chunk that may be open, and with nothing but the defaults on the last slot. -/
theorem accepted_faults :
    let texts : Texts :=
      { float := fun _ => "1"
        socketAddr := fun addr =>
          if addr = "0.0.0.0:10001" then none else some "invalid socket address syntax" }
    let flat : Settings :=
      { Settings.default with writer := { WriterConfig.default with slotsPerChunk := 0 } }
    let shut : Settings :=
      { Settings.default with writer := { WriterConfig.default with maxOpenChunks := 0 } }
    let first (slot : Nat) (settings : Settings) : Except Fault (Verdict × Chunker) :=
      ingest PlainCodecs.plain ⟨0, ⟨0, ⟨[], none, none, []⟩⟩, slot⟩
        (new .block settings.writer ∅)
    (flat.validate texts = .ok () ∧ first 7 flat = .error .divisionByZero) ∧
      (shut.validate texts = .ok () ∧ first 7 shut = .error .noOpenChunk) ∧
      (Settings.default.validate texts = .ok () ∧
        first (u64Bound - 1) Settings.default = .error .overflow) :=
  ⟨⟨rfl, rfl⟩, ⟨rfl, rfl⟩, ⟨rfl, rfl⟩⟩

end Chunker

end Sillage
