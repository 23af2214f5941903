import Sillage.Writer.Runs

/-!
# What a chunker does not look at

A chunker reads and writes only the files of the chunks its messages fall into. Two
chunkers whose directories agree from some chunk on accept the same messages of those
chunks, whatever lies below.
-/

namespace Sillage

open LittleEndian Directory OpenChunk

/-- Two calls fail alike, or both succeed with related results. -/
inductive Alike {α β : Type} (related : α → β → Prop) : Except Fault α → Except Fault β → Prop where
  | ok {a : α} {b : β} (both : related a b) : Alike related (.ok a) (.ok b)
  | fault (fault : Fault) : Alike related (.error fault) (.error fault)

/-- Two computations are alike if their parts are. -/
theorem Alike.bind {α β α' β' : Type} {related : α → β → Prop} {related' : α' → β' → Prop}
    {first : Except Fault α} {second : Except Fault β} {next : α → Except Fault α'}
    {next' : β → Except Fault β'} (alike : Alike related first second)
    (continues : ∀ a b, related a b → Alike related' (next a) (next' b)) :
    Alike related' (first >>= next) (second >>= next') := by
  cases alike with
  | ok both => exact continues _ _ both
  | fault fault => exact .fault fault

/-- A result is like itself. -/
theorem Alike.refl {α : Type} (result : Except Fault α) : Alike (· = ·) result result := by
  cases result with
  | ok a => exact .ok rfl
  | error fault => exact .fault fault

/-- The file names of the chunks from an index on. -/
def FromChunk (cfg : WriterConfig) (low : Nat) (name : FileName) : Prop :=
  ∃ idx ext, low ≤ idx ∧ name = chunkName cfg idx ext

/-- Two chunkers that can only differ in the files of chunks below an index. -/
structure SameFrom (cfg : WriterConfig) (low : Nat) (s t : Chunker) : Prop where
  sameStream : t.stream = s.stream
  sameCfg : s.cfg = cfg ∧ t.cfg = cfg
  sameOpen : t.open = s.open
  sameWatermark : t.watermarkSlot = s.watermarkSlot
  agree : Agree (FromChunk cfg low) s.baseDir t.baseDir
  placed : ∀ idx chunk, s.open[idx]? = some chunk →
    low ≤ idx ∧ ∀ ext, chunk.file ext = chunkName cfg idx ext

variable {k : Codecs} {cfg : WriterConfig} {low : Nat} {s t : Chunker}

/-- Sealing the same chunk of two chunkers that agree from an index on. -/
theorem alike_seal (reason : String) (idx : Nat) (same : SameFrom cfg low s t) :
    Alike (SameFrom cfg low) (Chunker.sealChunk k reason idx s)
      (Chunker.sealChunk k reason idx t) := by
  simp only [Chunker.sealChunk, same.sameOpen, same.sameStream]
  cases found : s.open[idx]? with
  | none => exact .fault _
  | some chunk =>
    cases held : chunk.encoder with
    | none =>
      simp only [held]
      exact .fault _
    | some written =>
      simp only [held]
      obtain ⟨above, named⟩ := same.placed idx chunk found
      refine .ok ⟨rfl, same.sameCfg, rfl, same.sameWatermark, agree_perform same.agree _ ?_, ?_⟩
      · have own : ∀ ext, FromChunk cfg low (chunk.file ext) := fun ext =>
          ⟨idx, ext, above, named ext⟩
        simp [sealSteps, FileStep.touches, own]
      · intro other stored remains
        rw [Std.TreeMap.getElem?_erase] at remains
        split at remains
        · cases remains
        · exact same.placed other stored remains

/-- Sealing the same chunks of both. -/
theorem alike_sealAll (reason : String) (indices : List Nat) (same : SameFrom cfg low s t) :
    Alike (SameFrom cfg low) (Chunker.sealAll k reason indices s)
      (Chunker.sealAll k reason indices t) := by
  induction indices generalizing s t with
  | nil => exact .ok same
  | cons idx rest inductionHypothesis =>
    exact (alike_seal reason idx same).bind (fun _ _ next => inductionHypothesis next)

/-- Making room in both evicts the same chunks. -/
theorem alike_makeRoom (idx fuel : Nat) (same : SameFrom cfg low s t) :
    Alike (SameFrom cfg low) (Chunker.makeRoom k idx fuel s) (Chunker.makeRoom k idx fuel t) := by
  induction fuel generalizing s t with
  | zero => exact .ok same
  | succ fuel inductionHypothesis =>
    simp only [Chunker.makeRoom, same.sameOpen, same.sameCfg]
    by_cases full : cfg.maxOpenChunks ≤ s.open.size
    · simp only [full, if_true]
      cases listed : s.open.keys.head? with
      | none => exact .fault _
      | some oldest =>
        by_cases own : oldest = idx
        · simpa [own] using Alike.ok same
        · simp only [own, if_false]
          exact (alike_seal _ oldest same).bind (fun _ _ next => inductionHypothesis next)
    · simpa [full] using Alike.ok same

/-- A product comes out, or overflows. -/
theorem checkedMul_cases (a b : Nat) :
    checkedMul u64Bound a b = .ok (a * b) ∨ checkedMul u64Bound a b = .error .overflow := by
  rw [checkedMul]
  split
  · exact .inl rfl
  · exact .inr rfl

/-- A sum comes out, or overflows. -/
theorem checkedAdd_cases (a b : Nat) :
    checkedAdd a b = .ok (a + b) ∨ checkedAdd a b = .error .overflow := by
  rw [checkedAdd]
  split
  · exact .inl rfl
  · exact .inr rfl

/-- Opening a chunk only looks for the files of that chunk. -/
theorem alike_open (now idx : Nat) (above : low ≤ idx) (same : SameFrom cfg low s t) :
    Alike (SameFrom cfg low) (Chunker.openChunk now idx s) (Chunker.openChunk now idx t) := by
  simp only [Chunker.openChunk, same.sameOpen, same.sameCfg, same.sameStream]
  by_cases isOpen : s.open.contains idx = true
  · simpa [isOpen] using Alike.ok same
  simp only [isOpen, if_false, Bool.false_eq_true]
  have named : ∀ stream ext, (fresh stream (idx * cfg.slotsPerChunk)
      (idx * cfg.slotsPerChunk + cfg.slotsPerChunk) now).file ext = chunkName cfg idx ext :=
    fun _ _ => rfl
  have own : ∀ ext, FromChunk cfg low (chunkName cfg idx ext) := fun ext => ⟨idx, ext, above, rfl⟩
  rcases checkedMul_cases idx cfg.slotsPerChunk with start | start
  · rcases checkedAdd_cases (idx * cfg.slotsPerChunk) cfg.slotsPerChunk with stop | stop
    · simp only [start, stop, bind, Except.bind]
      change Alike _
        (if (s.baseDir.lookup (chunkName cfg idx "zst")).isSome ∨
          (s.baseDir.lookup (chunkName cfg idx "meta.json")).isSome then _ else _)
        (if (t.baseDir.lookup (chunkName cfg idx "zst")).isSome ∨
          (t.baseDir.lookup (chunkName cfg idx "meta.json")).isSome then _ else _)
      rw [same.agree _ (own "zst"), same.agree _ (own "meta.json")]
      split
      · exact .ok same
      · refine .ok ⟨rfl, ⟨rfl, rfl⟩, rfl, same.sameWatermark,
          agree_apply same.agree _ (by simp [FileStep.touches, named, own]), ?_⟩
        intro other chunk stored
        rw [Std.TreeMap.getElem?_insert] at stored
        split at stored
        · next here =>
          obtain rfl : idx = other := Std.LawfulEqCmp.compare_eq_iff_eq.mp here
          obtain rfl := Option.some.inj stored
          exact ⟨above, named s.stream⟩
        · exact same.placed other chunk stored
    · simp only [start, stop, bind, Except.bind]
      exact .fault _
  · simp only [start, bind, Except.bind]
    exact .fault _

/-- Opening a chunk that is not below the index. -/
theorem alike_ensureOpen (now idx : Nat) (above : low ≤ idx) (same : SameFrom cfg low s t) :
    Alike (SameFrom cfg low) (Chunker.ensureOpen k now idx s)
      (Chunker.ensureOpen k now idx t) := by
  simp only [Chunker.ensureOpen, same.sameOpen]
  by_cases isOpen : s.open.contains idx = true
  · simpa [isOpen] using Alike.ok same
  · simp only [isOpen, if_false, Bool.false_eq_true]
    exact (alike_makeRoom idx _ same).bind (fun _ _ next => alike_open now idx above next)

/-- A chunk keeps its file names when a message is appended. -/
theorem append_file {chunk chunk' : OpenChunk} {a : Arrival} (done : chunk.append k a = .ok chunk')
    (ext : String) : chunk'.file ext = chunk.file ext := by
  cases held : chunk.encoder with
  | none => simp [append, held] at done
  | some written =>
    simp only [append, held, Except.ok.injEq] at done
    subst done
    rfl

/-- Appending the same message to both has the same effect. -/
theorem alike_append (idx : Nat) (a : Arrival) (same : SameFrom cfg low s t) :
    Alike (fun x y => x.1 = y.1 ∧ SameFrom cfg low x.2 y.2) (Chunker.appendTo k idx a s)
      (Chunker.appendTo k idx a t) := by
  simp only [Chunker.appendTo, same.sameOpen]
  cases found : s.open[idx]? with
  | none => exact .ok ⟨rfl, same⟩
  | some chunk =>
    cases done : chunk.append k a with
    | error fault =>
      simp only [done, bind, Except.bind]
      exact .fault _
    | ok chunk' =>
      simp only [done, bind, Except.bind]
      refine .ok ⟨rfl, same.sameStream, same.sameCfg, rfl, same.sameWatermark, same.agree, ?_⟩
      intro other stored found'
      rw [Std.TreeMap.getElem?_insert] at found'
      split at found'
      · next here =>
        obtain rfl : idx = other := Std.LawfulEqCmp.compare_eq_iff_eq.mp here
        obtain rfl := Option.some.inj found'
        obtain ⟨above, named⟩ := same.placed idx chunk found
        exact ⟨above, fun ext => (append_file done ext).trans (named ext)⟩
      · exact same.placed other stored found'

/-- Dividing the same numbers. -/
theorem alike_div (a b : Nat) :
    Alike (fun x y => x = y ∧ x = a / b) (checkedDiv a b) (checkedDiv a b) := by
  rw [checkedDiv]
  split
  · exact .fault _
  · exact .ok ⟨rfl, rfl⟩

/-- Taking in a message of a chunk from the index on gives the same verdict. -/
theorem alike_ingest (a : Arrival) (above : low ≤ a.slot / cfg.slotsPerChunk)
    (same : SameFrom cfg low s t) :
    Alike (fun x y => x.1 = y.1 ∧ SameFrom cfg low x.2 y.2) (Chunker.ingest k a s)
      (Chunker.ingest k a t) := by
  have advanced : SameFrom cfg low (s.advance a.slot) (t.advance a.slot) :=
    { same with sameWatermark := by simp [Chunker.advance, same.sameWatermark] }
  simp only [Chunker.ingest, advanced.sameWatermark, advanced.sameCfg]
  refine (Alike.refl _).bind ?_
  rintro watermarkChunk _ rfl
  refine (alike_div a.slot cfg.slotsPerChunk).bind ?_
  rintro idx _ ⟨rfl, isChunk⟩
  refine (Alike.refl _).bind ?_
  rintro reach _ rfl
  split
  · exact .ok ⟨rfl, advanced⟩
  · refine (alike_ensureOpen a.now idx (isChunk ▸ above) advanced).bind (fun s₁ t₁ opened => ?_)
    refine (alike_append idx a opened).bind ?_
    rintro ⟨verdict, s₂⟩ ⟨_, t₂⟩ ⟨rfl, (appended : SameFrom cfg low s₂ t₂)⟩
    simp only [appended.sameOpen]
    refine (Alike.refl _).bind ?_
    rintro toSeal _ rfl
    exact (alike_sealAll _ toSeal appended).bind (fun s₃ t₃ trimmed => .ok ⟨rfl, trimmed⟩)

/-- Both chunkers accept the same messages. -/
theorem accepted_sameFrom (ops : List Chunker.Op) (same : SameFrom cfg low s t)
    (above : ∀ a ∈ Chunker.arrivals ops, low ≤ a.slot / cfg.slotsPerChunk) :
    Chunker.accepted k s ops = Chunker.accepted k t ops := by
  induction ops generalizing s t with
  | nil => rfl
  | cons op rest inductionHypothesis =>
    cases op with
    | ingest a =>
      have later : ∀ b ∈ Chunker.arrivals rest, low ≤ b.slot / cfg.slotsPerChunk :=
        fun b member => above b (by simp [member])
      have alike := alike_ingest (k := k) a (above a (by simp)) same
      simp only [Chunker.accepted]
      cases first : Chunker.ingest k a s with
      | error fault =>
        rw [first] at alike
        cases second : Chunker.ingest k a t with
        | error fault' => rfl
        | ok result =>
          rw [second] at alike
          cases alike
      | ok result =>
        rw [first] at alike
        cases second : Chunker.ingest k a t with
        | error fault' =>
          rw [second] at alike
          cases alike
        | ok result' =>
          rw [second] at alike
          obtain ⟨verdict, s'⟩ := result
          obtain ⟨verdict', t'⟩ := result'
          cases alike with
          | ok both =>
            obtain ⟨rfl, next⟩ := both
            have same' := inductionHypothesis next later
            cases verdict <;> simp [same']
    | tick now =>
      have later : ∀ b ∈ Chunker.arrivals rest, low ≤ b.slot / cfg.slotsPerChunk :=
        fun b member => above b (by simpa using member)
      have alike : Alike (SameFrom cfg low) (Chunker.tick k now s) (Chunker.tick k now t) := by
        simp only [Chunker.tick, same.sameOpen]
        exact alike_sealAll _ _ same
      simp only [Chunker.accepted]
      cases first : Chunker.tick k now s with
      | error fault =>
        rw [first] at alike
        cases second : Chunker.tick k now t with
        | error fault' => rfl
        | ok t' =>
          rw [second] at alike
          cases alike
      | ok s' =>
        rw [first] at alike
        cases second : Chunker.tick k now t with
        | error fault' =>
          rw [second] at alike
          cases alike
        | ok t' =>
          rw [second] at alike
          cases alike with
          | ok next => exact inductionHypothesis next later

end Sillage
