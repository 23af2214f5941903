import Sillage.EndToEnd.Convergence
import Sillage.Writer.Passes

/-!
# What is sealed reaches the cache

A pass of the uploader archives what was sealed before it, and a cycle of the syncer copies
what was archived before it. Between and beside the two, both processes may do what they
like, crash and start again included, but that the writer opens no archived chunk again and
seals no empty one. A chunk that is sealed before the pass is in the cache
behind the cycle, as its seal wrote it, unless it has fallen out of the window meanwhile.
-/

namespace Sillage.Mirror

open LittleEndian Directory Names Sync Syncer Uploader

/-- A pass of the uploader whose scan finds all that waits, in which fewer puts fail than an
upload has attempts, no upload is dropped and the writer does not crash. -/
inductive Passed (k : Codecs) (cfg : WriterConfig) (up : UploaderConfig) (sync : SyncerConfig)
    (m : Mirror) : List (Note ⊕ Entry) → Mirror → Prop where
  | pass {found : List PendingChunk} {actions : List (Uploader.Action ⊕ Syncer.Action)}
      {more later : List (Note ⊕ Entry)} {v m' : Mirror} (complete : scanPending m.1.dir ⊆ found)
      (scanned : act k cfg up sync m (.inl (.scan found)) = some (more, v))
      (ran : Behaviour.Steps (act k cfg up sync) v actions later m')
      (unhindered : ∀ action ∈ Behaviour.firsts actions, Unhindered action)
      (few : (Behaviour.firsts actions).countP Action.fails < up.retryAttempts)
      (ended : m'.1.phase = .idle) : Passed k cfg up sync m (more ++ later) m'

/-- A cycle of the syncer, from the start of its listing, in which nothing fails. -/
inductive Cycled (k : Codecs) (cfg : WriterConfig) (up : UploaderConfig) (sync : SyncerConfig)
    (m : Mirror) : List (Note ⊕ Entry) → Mirror → Prop where
  | cycle {actions : List (Uploader.Action ⊕ Syncer.Action)} {more : List (Note ⊕ Entry)}
      {m' : Mirror} (begun : m.2.phase = .listing Pages.Progress.start)
      (ran : Behaviour.Steps (act k cfg up sync) m actions more m')
      (undisturbed : ∀ action ∈ actions, Undisturbed action) (ended : m'.2.phase = .idle) :
      Cycled k cfg up sync m more m'

variable {k : Codecs} {cfg : WriterConfig} {up : UploaderConfig} {sync : SyncerConfig}
  {notes : List Note} {books more : List (Note ⊕ Entry)} {w w' : Writer} {m m' : Mirror}
  {stream : Stream} {idx : Nat}

/-- A pass consists of steps of the two. -/
theorem Passed.steps (passed : Passed k cfg up sync m more m') :
    ∃ actions, Behaviour.Steps (act k cfg up sync) m actions more m' := by
  obtain ⟨-, scanned, ran, -, -, -⟩ := passed
  have one : Behaviour.Steps (act k cfg up sync) m ([] ++ [_]) ([] ++ _) _ := .step _ .start scanned
  exact ⟨_, one.trans ran⟩

/-- Behind a pass a chunk that was secured before it is archived. -/
theorem passed_archives (positive : 0 < cfg.slotsPerChunk)
    (kept : Uploader.Kept k cfg notes m.1) (secured : Secured cfg m.1 stream idx)
    (fits : (chunkOf cfg stream idx).Fits) (passed : Passed k cfg up sync m more m') :
    Archived cfg m'.1.bucket stream idx := by
  obtain ⟨complete, scanned, ran, unhindered, few, ended⟩ := passed
  obtain ⟨⟨own, v⟩, acted, same⟩ := Option.map_eq_some_iff.mp scanned
  cases same
  exact (secured.passed positive kept fits.2 complete acted ran.first unhindered few ended).2

/-- What is archived stays archived. -/
theorem archived_along {actions : List (Uploader.Action ⊕ Syncer.Action)}
    (ran : Behaviour.Steps (act k cfg up sync) m actions more m')
    (archived : Archived cfg m.1.bucket stream idx) : Archived cfg m'.1.bucket stream idx := by
  refine ran.first.keeps (fun _ w => Archived cfg w.bucket stream idx) archived ?_
  intro _ v action noted v' archived done
  obtain ⟨-, -, events, acted, -⟩ := spare_done done
  exact archived_stays acted archived

/-- A chunk that is archived before a cycle is in the cache behind it, or stale. -/
theorem cycled_copies (positive : 0 < cfg.slotsPerChunk) (attempts : 0 < sync.retryAttempts)
    {entries : List Entry} (written : Written k cfg (fun _ => True) notes m.1)
    (synced : Synced sync m.1 entries m.2) (fits : (chunkOf cfg stream idx).Fits)
    (archived : Archived cfg m.1.bucket stream idx) (cycled : Cycled k cfg up sync m more m') :
    Intact m'.2.files (chunkOf cfg stream idx) ∨
      Stale sync m'.2.files (chunkOf cfg stream idx) := by
  obtain ⟨begun, ran, undisturbed, ended⟩ := cycled
  obtain ⟨-, synced', cycle⟩ := cycle_runs positive attempts written synced begun ran undisturbed
  rw [ended] at cycle
  cases cycle with
  | @idle remote listed held published =>
    have isListed := mem_remote written listed fits archived
    by_cases inWindow : InWindow sync remote (chunkOf cfg stream idx)
    · exact .inl (complete_of_held synced' held ((held _).mpr ⟨isListed, inWindow⟩))
    · have newest := newestListed_le synced'.sound.copied
        (fun key member inside => (held key).mpr ⟨member, inside⟩)
      rw [InWindow, Nat.not_le] at inWindow
      refine .inr (inWindow.trans_le ?_)
      exact Nat.sub_le_sub_right newest _

/-- A complete chunk of the cache is as it was sealed. -/
theorem complete_same {entries : List Entry} (written : Written k cfg (fun _ => True) notes m.1)
    (synced : Synced sync m.1 entries m.2)
    (complete : Intact m.2.files (chunkOf cfg stream idx)) {files : ChunkFiles}
    (isSealed : files ∈ sealings (booksOf notes) stream idx) :
    ∀ ext ∈ finalExtensions,
      (m.2.files stream).lookup (chunkName cfg idx ext) = some (files.content ext) := by
  intro ext final
  obtain ⟨content, stored⟩ := Option.isSome_iff_exists.mp (complete ext (trio_iff.mpr final))
  have named : (m.2.files stream).lookup (chunkName cfg idx ext) = some content := stored
  obtain ⟨-, reason, once, same⟩ :=
    content_sealed written.kept synced.sound (trio_iff.mpr final) named
  rw [once] at isSealed
  rw [named, same, List.mem_singleton.mp isSealed]

/-- A chunk that was sealed before a pass of the uploader is in the cache behind a later cycle
of the syncer as it was sealed, unless it is stale by then. The writer opens no archived chunk
again and seals no empty one. -/
theorem sealed_reaches_cache (k : Codecs) (cfg : WriterConfig) (up : UploaderConfig)
    (sync : SyncerConfig) (positive : 1 ≤ cfg.slotsPerChunk) (attempts : 1 ≤ sync.retryAttempts)
    (before between : List (Uploader.Action ⊕ Syncer.Action))
    (books passing meanwhile cycling : List (Note ⊕ Entry)) (m₀ m₁ m₂ m₃ : Mirror)
    (reached : Behaviour.Steps (act k cfg up sync) (start cfg) before books m₀)
    (passed : Passed k cfg up sync m₀ passing m₁)
    (waited : Behaviour.Steps (act k cfg up sync) m₁ between meanwhile m₂)
    (cycled : Cycled k cfg up sync m₂ cycling m₃)
    (stream : Stream) (idx : Nat) (fits : (chunkOf cfg stream idx).Fits) (files : ChunkFiles)
    (isSealed : files ∈ sealings (booksOf (Behaviour.firsts books)) stream idx) :
    (∀ ext ∈ finalExtensions,
      (m₃.2.files stream).lookup (chunkName cfg idx ext) = some (files.content ext)) ∨
      Stale sync m₃.2.files (chunkOf cfg stream idx) := by
  obtain ⟨kept, secured⟩ := AllSecured.runs positive reached.first
  have archived : Archived cfg m₂.1.bucket stream idx :=
    archived_along waited (passed_archives positive kept
      (secured stream idx (List.ne_nil_of_mem isSealed)) fits passed)
  obtain ⟨_, passed⟩ := passed.steps
  have ranBefore := (reached.trans passed).trans waited
  obtain ⟨written, synced⟩ := runs positive (fun _ => True) ranBefore (fun _ _ _ => trivial)
  refine (cycled_copies positive attempts written synced fits archived cycled).imp_left ?_
  intro complete
  obtain ⟨-, ran, -, -⟩ := cycled
  obtain ⟨written', synced'⟩ := runs positive (fun _ => True) (ranBefore.trans ran)
    (fun _ _ _ => trivial)
  refine complete_same written' synced' complete ?_
  simp only [Behaviour.firsts_append, booksOf_append, sealings_append, List.append_assoc]
  exact List.mem_append_left _ isSealed

/-- A pass whose first put fails, beside a start of the syncer. -/
def passPair : List (Uploader.Action ⊕ Syncer.Action) :=
  [.inl .endSweep, .inr (.boot asStored), .inl .spawn, .inl (.upload 0 .refused), .inr .serve] ++
    List.replicate 6 (.inl (.upload 0 .stored)) ++ [.inl .join]

/-- Both crash and start again. -/
def restartPair : List (Uploader.Action ⊕ Syncer.Action) :=
  [.inl .crash, .inr .crash, .inr (.boot asStored), .inl .boot, .inr .serve, .inr .begin]

/-- The scan of the pass. -/
def scannedPair (m : Mirror) : Option (List (Note ⊕ Entry) × Mirror) :=
  act PlainCodecs.plain ⟨1000, 100, 4⟩ ⟨4, 3, 24⟩ ⟨2, 3, 24⟩ m (.inl (.scan (scanPending m.1.dir)))

/-- A seal, the scan and the pass of the uploader, a crash and a restart of both, and a cycle of
the syncer. -/
def passagePair : Option (List (List (Note ⊕ Entry) × Mirror)) := do
  let actsPair := Behaviour.acts (act PlainCodecs.plain ⟨1000, 100, 4⟩ ⟨4, 3, 24⟩ ⟨2, 3, 24⟩)
  let before ← actsPair (start ⟨1000, 100, 4⟩) (sealLone.map .inl)
  let scanned ← scannedPair before.2
  let passed ← actsPair scanned.2 passPair
  let restarted ← actsPair passed.2 restartPair
  let cycled ← actsPair restarted.2 cyclePair
  some [before, scanned, passed, restarted, cycled]

/-- What is read off the run. -/
def passedOver (results : List (List (Note ⊕ Entry) × Mirror)) : Bool :=
  match results with
  | [recorded, _, passed, restarted, cycled] =>
    (sealings (booksOf (Behaviour.firsts recorded.1)) .tx 0).length = 1 ∧
      passed.2.1.phase.isIdle = true ∧
      restarted.2.2.phase = .listing Pages.Progress.start ∧ cycled.2.2.phase = .idle ∧
      newestHeld (localChunks cycled.2.2.files) = 1000
  | _ => false

/-- Behind them the cache has the three files of the chunk, as the seal wrote them. -/
theorem sealed_reaches_cache_pair : ∃ recorded scanned passed restarted cycled files,
    passagePair = some [recorded, scanned, passed, restarted, cycled] ∧
    files ∈ sealings (booksOf (Behaviour.firsts recorded.1)) .tx 0 ∧
    ∀ ext ∈ finalExtensions,
      (cycled.2.2.files .tx).lookup (chunkName ⟨1000, 100, 4⟩ 0 ext) = some (files.content ext) := by
  have computed : passagePair.any passedOver = true := by
    decide +kernel
  obtain ⟨results, steps, facts⟩ := Option.any_eq_true _ _ |>.mp computed
  have ran := steps
  simp only [passagePair, scannedPair, Option.bind_eq_bind, Option.bind_eq_some_iff] at ran
  obtain ⟨⟨books, m₀⟩, reached, ⟨more, v⟩, scanned, ⟨later, m₁⟩, passed, ⟨meanwhile, m₂⟩, waited,
    ⟨cycling, m₃⟩, cycled, same⟩ := ran
  cases same
  obtain ⟨count, joined, begun, ended, newest⟩ := of_decide_eq_true facts
  obtain ⟨files, once⟩ := List.length_eq_one_iff.mp count
  have isSealed : files ∈ sealings (booksOf (Behaviour.firsts books)) .tx 0 :=
    once ▸ List.mem_singleton_self files
  refine ⟨_, _, _, _, _, files, steps, isSealed, ?_⟩
  have isPass : Passed PlainCodecs.plain ⟨1000, 100, 4⟩ ⟨4, 3, 24⟩ ⟨2, 3, 24⟩ m₀ (more ++ later) m₁ :=
    .pass (List.Subset.refl _) scanned (Behaviour.steps_of_acts passed) (by decide) (by decide)
      (Phase.isIdle_iff.mp joined)
  have isCycle : Cycled PlainCodecs.plain ⟨1000, 100, 4⟩ ⟨4, 3, 24⟩ ⟨2, 3, 24⟩ m₂ cycling m₃ :=
    .cycle begun (Behaviour.steps_of_acts cycled) (by simp [cyclePair, Undisturbed, Smooth]) ended
  refine (sealed_reaches_cache PlainCodecs.plain ⟨1000, 100, 4⟩ ⟨4, 3, 24⟩ ⟨2, 3, 24⟩ (by decide)
    (by decide) (sealLone.map .inl) restartPair books (more ++ later) meanwhile cycling m₀ m₁ m₂ m₃
    (Behaviour.steps_of_acts reached) isPass (Behaviour.steps_of_acts waited) isCycle .tx 0
    ⟨by decide, by decide⟩ files isSealed).resolve_right ?_
  -- the window of a day is wider than the chunk is old
  have narrow : newestHeld (localChunks m₃.2.files) - retentionSlots 24 = 0 := by
    rw [show newestHeld (localChunks m₃.2.files) = 1000 from newest]
    decide
  intro stale
  rw [Stale, narrow] at stale
  exact Nat.not_lt_zero _ stale

end Sillage.Mirror
