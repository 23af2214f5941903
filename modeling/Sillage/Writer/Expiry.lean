import Sillage.Writer.Uploader

/-!
# The retention sweep of the writer

A sweep goes through the directories of the streams and removes the files of each chunk whose
marker has outlived the retention. A marker that is gone when its turn comes ends the sweep.
If no stem has a dot, no chunk goes with another one: the sweep reaches its end, and what it
leaves of a chunk depends on the age of the chunk's marker alone.

The ages and the listings are parameters, and no removal fails.
-/

namespace Sillage.Uploader

open Directory Names

/-- The files to remove for a listed name. There are none to tell for a marker that is gone. -/
def expired (up : UploaderConfig) (present : Bool) (age : Option Nat) (name : FileName) :
    Option (List FileName) :=
  match stripSuffix uploadedSuffix name with
  | none => some []
  | some stem =>
      if present = false then none
      else if age.any (retention up < ·) then some (siblings stem)
      else some []

/-- Sweep a directory: what is left of it, and whether the sweep goes on. -/
def sweepDir (up : UploaderConfig) (age : FileName → Option Nat) :
    Dir → List FileName → Dir × Bool
  | dir, [] => (dir, true)
  | dir, name :: rest =>
      match expired up (dir.lookup name).isSome (age name) name with
      | none => (dir, false)
      | some files => sweepDir up age (perform dir (files.map .remove)) rest

/-- Sweep the directories of some streams. -/
def sweepStreams (up : UploaderConfig) (age : Stream → FileName → Option Nat)
    (listing : Stream → List FileName) : List Stream → (Stream → Dir) → Stream → Dir
  | [], dirs => dirs
  | stream :: rest, dirs =>
      let swept := sweepDir up (age stream) (dirs stream) (listing stream)
      let dirs := Function.update dirs stream swept.1
      if swept.2 then sweepStreams up age listing rest dirs else dirs

/-- Remove the files of the chunks whose markers have become too old, stream by stream. -/
def sweepRetention (up : UploaderConfig) (age : Stream → FileName → Option Nat)
    (listing : Stream → List FileName) (dirs : Stream → Dir) : Stream → Dir :=
  sweepStreams up age listing Stream.all dirs

/-- The uploader decides about a listed entry as the sweep does. -/
theorem examineAct_expired (up : UploaderConfig) (w : Writer) (age : Option Nat)
    {pending : List PendingChunk} {stream : Stream} {name : FileName}
    {entries : List (Stream × FileName)}
    (isSweeping : w.phase = .sweeping pending ((stream, name) :: entries) []) :
    examineAct up w age =
      some ((expired up ((w.dir stream).lookup name).isSome age name).elim (.uploading pending [])
        (fun files => .sweeping pending entries (files.map (fun file => (stream, file))))) := by
  rw [examineAct, isSweeping]
  dsimp only [expired]
  cases stripSuffix uploadedSuffix name with
  | none => rfl
  | some stem =>
    cases found : (w.dir stream).lookup name with
    | none => simp
    | some content =>
      by_cases old : age.any (retention up < ·) = true
      · simp [old]
      · simp [old]

/-- The markers of a listing are in the directory, each once, and their stems have no dot. -/
structure Listed (dir : Dir) (names : List FileName) : Prop where
  nodup : names.Nodup
  present : ∀ name ∈ names, ∀ stem, stripSuffix uploadedSuffix name = some stem →
    (dir.lookup name).isSome = true
  plain : ∀ name ∈ names, ∀ stem, stripSuffix uploadedSuffix name = some stem → '.' ∉ stem

/-- A file is that of a chunk with an old marker. -/
def Goes (up : UploaderConfig) (age : FileName → Option Nat) (names : List FileName)
    (file : FileName) : Prop :=
  ∃ name ∈ names, ∃ stem, stripSuffix uploadedSuffix name = some stem ∧
    (age name).any (retention up < ·) = true ∧ file ∈ siblings stem

variable {up : UploaderConfig} {age : FileName → Option Nat} {dir : Dir}

/-- The files that go with a marker carry its stem. -/
theorem stem_of_sibling {stem file : FileName} (plain : '.' ∉ stem) (among : file ∈ siblings stem) :
    file.takeWhile (· ≠ '.') = stem := by
  simp only [siblings, List.mem_map, withExtension_plain plain] at among
  obtain ⟨ext, -, rfl⟩ := among
  exact takeWhile_separator plain

/-- A marker's name up to its first dot is the stem, if the stem has no dot. -/
theorem stem_of_marker {stem name : FileName} (plain : '.' ∉ stem)
    (isMarker : stripSuffix uploadedSuffix name = some stem) :
    name.takeWhile (· ≠ '.') = stem := by
  rw [stripSuffix_some isMarker]
  exact takeWhile_separator plain

/-- The sweep goes on behind a listed name, and removes the files that go with it. -/
theorem expired_listed {name : FileName} {rest : List FileName}
    (listed : Listed dir (name :: rest)) :
    ∃ files, expired up (dir.lookup name).isSome (age name) name = some files ∧
      ∀ file, file ∈ files ↔ Goes up age [name] file := by
  cases stripped : stripSuffix uploadedSuffix name with
  | none => exact ⟨[], by simp [expired, stripped], by simp [Goes, stripped]⟩
  | some stem =>
    have present := listed.present name List.mem_cons_self stem stripped
    by_cases old : (age name).any (retention up < ·) = true
    · exact ⟨siblings stem, by simp [expired, stripped, present, old],
        by simp [Goes, stripped, old]⟩
    · exact ⟨[], by simp [expired, stripped, present, old], by simp [Goes, stripped, old]⟩

/-- What the sweep of a listed name leaves of the others is listed still. -/
theorem Listed.next {name : FileName} {rest files : List FileName}
    (listed : Listed dir (name :: rest))
    (removes : ∀ file, file ∈ files ↔ Goes up age [name] file) :
    Listed (perform dir (files.map .remove)) rest := by
  obtain ⟨fresh, nodup⟩ := List.nodup_cons.mp listed.nodup
  refine ⟨nodup, fun other member stem isMarker => ?_, fun other member =>
    listed.plain other (List.mem_cons_of_mem _ member)⟩
  have later := List.mem_cons_of_mem name member
  rw [lookup_removeAll, if_neg]
  · exact listed.present other later stem isMarker
  · -- a marker that went with another one would carry its stem
    intro among
    obtain ⟨own, isName, stem', stripped, -, isSibling⟩ := (removes other).mp among
    obtain rfl := List.mem_singleton.mp isName
    have carries := stem_of_sibling (listed.plain own List.mem_cons_self stem' stripped) isSibling
    rw [stem_of_marker (listed.plain other later stem isMarker) isMarker] at carries
    subst carries
    exact fresh (stripSuffix_some stripped ▸ stripSuffix_some isMarker ▸ member)

/-- The sweep of a directory reaches its end, and removes the files with an old marker. -/
theorem sweepDir_listed {names : List FileName} (listed : Listed dir names) :
    (sweepDir up age dir names).2 = true ∧ ∀ file,
      ((sweepDir up age dir names).1.lookup file).isSome = true ↔
        (dir.lookup file).isSome = true ∧ ¬ Goes up age names file := by
  induction names generalizing dir with
  | nil => simp [sweepDir, Goes]
  | cons name rest inductionHypothesis =>
    obtain ⟨files, decided, removes⟩ :
        ∃ files, expired up (dir.lookup name).isSome (age name) name = some files ∧
          ∀ file, file ∈ files ↔ Goes up age [name] file := expired_listed listed
    obtain ⟨goesOn, leaves⟩ := inductionHypothesis (listed.next removes)
    rw [sweepDir, decided]
    refine ⟨goesOn, fun file => ?_⟩
    have split : Goes up age (name :: rest) file ↔
        Goes up age [name] file ∨ Goes up age rest file := by
      simp [Goes]
    rw [leaves, lookup_removeAll, split, ← removes]
    by_cases gone : file ∈ files
    · simp [gone]
    · simp [gone]

/-- The sweep of all directories removes the files with an old marker, and no others. -/
theorem sweepRetention_listed {ages : Stream → FileName → Option Nat}
    {listing : Stream → List FileName} {dirs : Stream → Dir}
    (listed : ∀ stream, Listed (dirs stream) (listing stream)) (stream : Stream)
    (file : FileName) :
    ((sweepRetention up ages listing dirs stream).lookup file).isSome = true ↔
      ((dirs stream).lookup file).isSome = true ∧
        ¬ Goes up (ages stream) (listing stream) file := by
  have general : ∀ (streams : List Stream) (dirs : Stream → Dir), streams.Nodup →
      (∀ other ∈ streams, Listed (dirs other) (listing other)) →
      sweepStreams up ages listing streams dirs stream =
        if stream ∈ streams then (sweepDir up (ages stream) (dirs stream) (listing stream)).1
        else dirs stream := by
    intro streams
    induction streams with
    | nil => exact fun dirs _ _ => by simp [sweepStreams]
    | cons first rest inductionHypothesis =>
      intro dirs nodup listed
      obtain ⟨fresh, nodupRest⟩ := List.nodup_cons.mp nodup
      obtain ⟨listedFirst, listedRest⟩ := List.forall_mem_cons.mp listed
      have untouched : ∀ other ∈ rest, ∀ dir, Function.update dirs first dir other = dirs other :=
        fun other member dir => by
          have distinct : other ≠ first := fun same => fresh (same ▸ member)
          exact Function.update_of_ne distinct _ _
      rw [sweepStreams]
      rw [if_pos (sweepDir_listed listedFirst).1, inductionHypothesis _ nodupRest
        (fun other member => (untouched other member _).symm ▸ listedRest other member)]
      by_cases later : stream ∈ rest
      · simp [later, untouched stream later]
      · by_cases here : stream = first
        · subst here
          simp [later]
        · simp [later, here]
  rw [sweepRetention, general Stream.all dirs (by decide) (fun other _ => listed other),
    if_pos (Stream.mem_all stream)]
  exact (sweepDir_listed (listed stream)).2 file

end Sillage.Uploader
