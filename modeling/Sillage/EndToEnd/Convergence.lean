import Sillage.EndToEnd.Mirror

/-!
# An undisturbed cycle catches up

Where no step of the syncer fails from the start of a listing to the end of its cycle, the
cache holds exactly the chunks of the listing's window then, all of them complete, whatever
the writer does meanwhile short of opening an archived chunk again. The listing has every chunk
that was archived when it began, and no chunk that is not archived when the cycle ends.
-/

namespace Sillage

open LittleEndian Directory Names

namespace Syncer

open Sync Listing

/-- A step at which nothing fails. -/
def Smooth : Action → Prop
  | .page _ | .spawn | .download _ .done | .sweep _ | .evict true | .publish _ | .rest => True
  | _ => False

/-- What a listing has found that began when some keys were stored: all chunks of these keys,
and only chunks that are stored. -/
structure Listed (first : List (List Char)) (bucket : Uploader.Bucket) (remote : List ChunkKey) :
    Prop where
  complete : ∀ key : ChunkKey, key.Fits → (∀ ext ∈ trio, key.object ext ∈ first) → key ∈ remote
  sound : ∀ key ∈ remote, ∀ ext ∈ trio, (bucket.lookup (key.object ext)).isSome = true

/-- A chunk ends in the window of the newest listed one. -/
def InWindow (cfg : SyncerConfig) (remote : List ChunkKey) (key : ChunkKey) : Prop :=
  newestListed remote - retentionSlots cfg.localRetentionHours ≤ key.endSlot

/-- What is known in an undisturbed cycle, by where the syncer is, and by what it has entered
in the books since the start of the listing. -/
inductive CycleAt (k : Codecs) (cfg : SyncerConfig) (first : List (List Char))
    (bucket : Uploader.Bucket) (files : Files) (catalog : ChunkCatalog) (later : List Entry) :
    Phase → Prop where
  | listing {seen : Pages.Progress (List Char)} (known : first ⊆ listedKeys bucket)
      (covers : Pages.Covers first (listedKeys bucket) seen)
      (held : ∀ key, Held files key → ∀ ext ∈ trio, key.object ext ∈ first)
      (quiet : later = []) : CycleAt k cfg first bucket files catalog later (.listing seen)
  | downloading {remote waiting : List ChunkKey} {running : List Download} {downloaded : Nat}
      (listed : Listed first bucket remote) (held : ∀ key, Held files key → key ∈ remote)
      (left : ∀ key ∈ remote, InWindow cfg remote key →
        Held files key ∨ key ∈ waiting ++ running.map Download.key)
      (among : ∀ key ∈ waiting ++ running.map Download.key, key ∈ remote)
      (fresh : ∀ d ∈ running, d.attempt = 0) (counted : downloaded = 0 → later = []) :
      CycleAt k cfg first bucket files catalog later (.downloading waiting running downloaded)
  | evicting {remote : List ChunkKey} {removals : List (Stream × FileName)}
      {downloaded swept : Nat} (listed : Listed first bucket remote)
      (held : ∀ key, Held files key → key ∈ remote ∧
        (InWindow cfg remote key ∨ (key.stream, key.file "meta.json") ∈ removals))
      (window : ∀ key ∈ remote, InWindow cfg remote key → Held files key)
      (counted : downloaded = 0 → swept = 0 → later = [] ∧ removals = []) :
      CycleAt k cfg first bucket files catalog later (.evicting removals downloaded swept)
  | idle {remote : List ChunkKey} (listed : Listed first bucket remote)
      (held : ∀ key, Held files key ↔ key ∈ remote ∧ InWindow cfg remote key)
      (published : later = [] ∨ ∃ order, catalog = scanIn k order files) :
      CycleAt k cfg first bucket files catalog later .idle

variable {k : Codecs} {cfg : SyncerConfig} {first : List (List Char)}
  {bucket bucket' : Uploader.Bucket} {files : Files} {catalog : ChunkCatalog}
  {books later more : List Entry} {s s' : Syncer} {phase : Phase}

/-- What was archived when the listing began stays archived. -/
theorem Listed.grow {remote : List ChunkKey} (listed : Listed first bucket remote)
    (grows : Grows bucket bucket') : Listed first bucket' remote where
  complete := listed.complete
  sound := by
    intro key member ext final
    obtain ⟨object, stored⟩ := Option.isSome_iff_exists.mp (listed.sound key member ext final)
    exact Option.isSome_of_eq_some (grows _ _ stored)

/-- The bucket may grow meanwhile. -/
theorem CycleAt.grow (regular : Regular bucket) (regular' : Regular bucket')
    (grows : Grows bucket bucket') (cycle : CycleAt k cfg first bucket files catalog later phase) :
    CycleAt k cfg first bucket' files catalog later phase := by
  cases cycle with
  | listing known covers held quiet =>
    have more := listedKeys_grow regular regular' grows
    exact .listing (List.Subset.trans known more) (covers.grow more) held quiet
  | downloading listed held left among fresh counted =>
    exact .downloading (listed.grow grows) held left among fresh counted
  | evicting listed held window counted => exact .evicting (listed.grow grows) held window counted
  | idle listed held published => exact .idle (listed.grow grows) held published

/-! ## The windows of the listing and of the cache -/

section Windows

variable {remote : List ChunkKey}

/-- Where only listed chunks are held, stale ones lie below the window of the listing. -/
theorem Stale.below (copied : Copied bucket files) (held : ∀ key, Held files key → key ∈ remote)
    {key : ChunkKey} (stale : Stale cfg files key) : ¬ InWindow cfg remote key := by
  have newest : newestHeld (localChunks files) ≤ newestListed remote :=
    newestHeld_le_listed (fun key isLocal => held key (copied.mem_localChunks.mp isLocal))
  have below : key.endSlot <
      newestHeld (localChunks files) - retentionSlots cfg.localRetentionHours := stale
  rw [InWindow]
  omega

/-- The newest listed chunk lies in the window. -/
theorem newestListed_le (copied : Copied bucket files)
    (window : ∀ key ∈ remote, InWindow cfg remote key → Held files key) :
    newestListed remote ≤ newestHeld (localChunks files) := by
  cases isMax : (remote.map ChunkKey.endSlot).max? with
  | none => simp [newestListed, isMax]
  | some greatest =>
    obtain ⟨newest, member, rfl⟩ := List.mem_map.mp (List.max?_mem isMax)
    have ends : newestListed remote = newest.endSlot := by rw [newestListed, isMax]; rfl
    rw [ends]
    refine le_newestHeld (copied.mem_localChunks.mpr (window newest member ?_))
    rw [InWindow, ends]
    exact Nat.sub_le _ _

end Windows

/-! ## The steps of the cycle -/

/-- The steps that a download has left, if nothing fails. -/
def Download.left (d : Download) : Nat :=
  4 * d.rest.length +
    match d.stage with
    | .fetching => 4
    | .creating _ => 3
    | .writing _ => 2
    | .placing => 1

/-- A step of a download at which nothing fails brings it on, or ends it with all files in
place. -/
theorem DownloadSound.smooth {d : Download} {after : Advanced} (sound : DownloadSound bucket files d)
    (stored : ∀ ext ∈ trio, (bucket.lookup (d.key.object ext)).isSome = true)
    (attempts : 0 < cfg.retryAttempts) (fresh : d.attempt = 0)
    (moves : d.Moves cfg bucket files .done after) :
    (∃ d', after.next = some d' ∧ d'.key = d.key ∧ d'.attempt = 0 ∧ d'.left + 1 = d.left ∧
      after.complete = false) ∨
    after.next = none ∧ d.left = 1 ∧ after.complete = true := by
  have there : bucket.lookup (d.key.object d.ext) ≠ none :=
    Option.ne_none_iff_isSome.mpr (stored d.ext sound.final)
  cases moves with
  | ends _ failed =>
    rcases failed with failed | late | ⟨-, missing⟩
    · exact absurd rfl failed
    · omega
    · exact absurd missing there
  | retries _ failed =>
    rcases failed with failed | ⟨-, missing⟩
    · exact absurd rfl failed
    · exact absurd missing there
  | fetched isFetching _ => exact .inl ⟨_, rfl, rfl, fresh, by simp [Download.left, isFetching], rfl⟩
  | creates isCreating => exact .inl ⟨_, rfl, rfl, fresh, by simp [Download.left, isCreating], rfl⟩
  | writes isWriting => exact .inl ⟨_, rfl, rfl, fresh, by simp [Download.left, isWriting], rfl⟩
  | lands isPlacing isMore =>
    refine .inl ⟨_, rfl, rfl, rfl, ?_, rfl⟩
    simp [Download.left, isPlacing, isMore]
    omega
  | completes isPlacing last => exact .inr ⟨rfl, by simp [Download.left, isPlacing, last], rfl⟩

/-- The choice of downloads behind a listing. -/
theorem CycleAt.chooses (regular : Regular bucket) (copied : Copied bucket files)
    {seen : Pages.Progress (List Char)}
    (cycle : CycleAt k cfg first bucket files catalog later (.listing seen)) (count : Nat)
    (last : (seen.page (listedKeys bucket) count).2 = false) :
    CycleAt k cfg first bucket files catalog later (.downloading
      (diffForSync (localChunks files) (remoteOf (seen.page (listedKeys bucket) count).1.keys)
        cfg.localRetentionHours) [] 0) := by
  cases cycle with
  | listing known covers held quiet =>
    have behind := covers.page known count
    have remote : ∀ {key}, key ∈ remoteOf (seen.page (listedKeys bucket) count).1.keys ↔
        key.Fits ∧ ∀ ext ∈ trio, key.object ext ∈ (seen.page (listedKeys bucket) count).1.keys :=
      mem_remoteOf (regular_listed regular behind.sound)
    have listed : Listed first bucket (remoteOf (seen.page (listedKeys bucket) count).1.keys) := by
      refine ⟨fun key fits all => remote.mpr ⟨fits, fun ext final => ?_⟩,
        fun key member ext final => ?_⟩
      · exact covers.last known last _ (all ext final)
      · exact (mem_listedKeys regular).mp (behind.sound _ ((remote.mp member).2 ext final))
    refine .downloading listed (fun key isHeld => ?_) (fun key member inWindow => ?_)
      (fun key member => ?_) (by simp) (fun _ => quiet)
    · obtain ⟨content, stored⟩ := Option.isSome_iff_exists.mp isHeld
      exact listed.complete key (copied.object (by decide) stored).1 (held key isHeld)
    · by_cases isHeld : Held files key
      · exact .inl isHeld
      · refine .inr ?_
        simpa using mem_diffForSync.mpr
          ⟨member, inWindow, fun isLocal => isHeld (copied.mem_localChunks.mp isLocal)⟩
    · exact (mem_diffForSync.mp (by simpa using member)).1

/-- A step of a download. -/
theorem CycleAt.downloads {waiting : List ChunkKey} {running : List Download}
    {downloaded task : Nat} {d : Download} {after : Advanced} (attempts : 0 < cfg.retryAttempts)
    (cycle : CycleAt k cfg first bucket files catalog later
      (.downloading waiting running downloaded))
    (found : running[task]? = some d) (sound : DownloadSound bucket files d)
    (moves : d.Moves cfg bucket files .done after) :
    CycleAt k cfg first bucket after.files catalog
      (later ++ if after.complete then [.downloaded d.key] else [])
      (.downloading waiting (Tasks.replaced running task after.next)
        (if after.complete then downloaded + 1 else downloaded)) := by
  cases cycle with
  | @downloading remote _ _ _ listed held left among fresh counted =>
    have isAmong : d.key ∈ waiting ++ running.map Download.key :=
      List.mem_append_right _ (List.mem_map_of_mem (List.mem_of_getElem? found))
    have isFresh := fresh d (List.mem_of_getElem? found)
    obtain ⟨changed, -, complete⟩ := sound.moves moves
    have stays : ∀ key, Held files key → Held after.files key :=
      fun key isHeld => changed.present (by decide) isHeld
    have held' : ∀ key, Held after.files key → key ∈ remote := by
      intro key isHeld
      rcases changed.before (by decide) isHeld with before | ⟨rfl, -⟩
      · exact held key before
      · exact among d.key isAmong
    rcases sound.smooth (listed.sound d.key (among d.key isAmong)) attempts isFresh moves with
      ⟨d', next, sameKey, freshNext, -, incomplete⟩ | ⟨ended, -, isComplete⟩
    · rw [next, incomplete]
      have same : (Tasks.replaced running task (some d')).map Download.key = running.map Download.key :=
        Tasks.map_set found sameKey
      refine .downloading listed held' ?_ ?_ ?_ (by simpa using counted)
      · rw [same]
        exact fun key member inWindow => (left key member inWindow).imp_left (stays key)
      · rw [same]
        exact among
      · intro other member
        rcases Tasks.mem_replaced member with isNext | ⟨i, -, isOther⟩
        · exact Option.some.inj isNext ▸ freshNext
        · exact fresh other (List.mem_of_getElem? isOther)
    · rw [ended, isComplete]
      have others := Tasks.map_eraseIdx Download.key found
      refine .downloading listed held' (fun key member inWindow => ?_) (fun key member => ?_)
        (fun other member => ?_) (fun none => by simp at none)
      · rcases left key member inWindow with isHeld | isLeft
        · exact .inl (stays key isHeld)
        · rcases List.mem_append.mp isLeft with isWaiting | isRunning
          · exact .inr (List.mem_append_left _ isWaiting)
          · rcases List.mem_cons.mp (others.mem_iff.mpr isRunning) with rfl | isOther
            · exact .inl (complete isComplete).2
            · exact .inr (List.mem_append_right _ isOther)
      · rcases List.mem_append.mp member with isWaiting | isRunning
        · exact among key (List.mem_append_left _ isWaiting)
        · exact among key (List.mem_append_right _
            (others.mem_iff.mp (List.mem_cons_of_mem _ isRunning)))
      · exact fresh other (List.mem_of_mem_eraseIdx member)

/-- The start of a sweep. -/
theorem CycleAt.sweeps (copied : Copied bucket files) {victims : List ChunkKey} {downloaded : Nat}
    (cycle : CycleAt k cfg first bucket files catalog later (.downloading [] [] downloaded))
    (all : victims.toFinset = evicted (localChunks files) cfg.localRetentionHours) :
    CycleAt k cfg first bucket files catalog later
      (.evicting (victimFiles victims) downloaded victims.length) := by
  cases cycle with
  | @downloading remote _ _ _ listed held left among fresh counted =>
    have window : ∀ key ∈ remote, InWindow cfg remote key → Held files key :=
      fun key member inWindow => (left key member inWindow).resolve_right (by simp)
    refine .evicting listed (fun key isHeld => ⟨held key isHeld, ?_⟩) window
      (fun none nobody => ⟨counted none, ?_⟩)
    · by_cases inWindow : InWindow cfg remote key
      · exact .inl inWindow
      · have newest := newestListed_le copied window
        have isVictim : key ∈ victims := by
          rw [← List.mem_toFinset, all, mem_evicted]
          refine ⟨copied.mem_localChunks.mpr isHeld, ?_⟩
          rw [InWindow] at inWindow
          omega
        exact .inr (List.mem_flatMap.mpr ⟨key, isVictim, List.mem_map.mpr ⟨_, by decide, rfl⟩⟩)
    · rw [List.length_eq_zero_iff.mp nobody]
      rfl

/-- A removal takes a stale chunk's file. -/
theorem CycleAt.evicts (copied : Copied bucket files) {stream : Stream} {name : FileName}
    {removals : List (Stream × FileName)} {downloaded swept : Nat}
    (cycle : CycleAt k cfg first bucket files catalog later
      (.evicting ((stream, name) :: removals) downloaded swept))
    (stale : ∃ key, Stale cfg files key ∧ ∃ ext ∈ trio, (stream, name) = (key.stream, key.file ext)) :
    CycleAt k cfg first bucket (applyOn files (stream, .remove name)) catalog
      (later ++ [.removed stream name]) (.evicting removals downloaded swept) := by
  cases cycle with
  | @evicting remote _ _ _ listed held window counted =>
    obtain ⟨victim, isStale, ext, -, isFile⟩ := stale
    obtain ⟨rfl, rfl⟩ := Prod.mk.inj isFile
    have below := isStale.below copied (fun key isHeld => (held key isHeld).1)
    refine .evicting listed (fun key isHeld => ?_) (fun key member inWindow => ?_)
      (fun none nobody => nomatch (counted none nobody).2)
    · obtain ⟨apart, before⟩ := present_removed.mp isHeld
      refine ⟨(held key before).1, (held key before).2.imp_right (fun member => ?_)⟩
      rcases List.mem_cons.mp member with same | isLater
      · exact absurd (Prod.mk.inj same) apart
      · exact isLater
    · refine present_removed.mpr ⟨fun own => ?_, window key member inWindow⟩
      exact below (ChunkKey.file_injective own.1 own.2 ▸ inWindow)

/-- The last step of the cycle. -/
theorem CycleAt.ends {downloaded swept : Nat} {catalog' : ChunkCatalog}
    (cycle : CycleAt k cfg first bucket files catalog later (.evicting [] downloaded swept))
    (published : (∃ order, catalog' = scanIn k order files) ∨ downloaded = 0 ∧ swept = 0) :
    CycleAt k cfg first bucket files catalog' later .idle := by
  cases cycle with
  | @evicting remote _ _ _ listed held window counted =>
    refine .idle listed (fun key => ⟨fun isHeld => ?_, fun both => window key both.1 both.2⟩) ?_
    · exact ⟨(held key isHeld).1, (held key isHeld).2.resolve_right (by simp)⟩
    · exact published.symm.imp_left (fun none => (counted none.1 none.2).1)

/-- Every step of an undisturbed cycle keeps what is known of it. -/
theorem CycleAt.step (attempts : 0 < cfg.retryAttempts) (regular : Regular bucket)
    (sound : Sound cfg bucket books s)
    (cycle : CycleAt k cfg first bucket s.files s.catalog later s.phase) {action : Action}
    (smooth : Smooth action) (done : act k cfg bucket s action = some (more, s')) :
    CycleAt k cfg first bucket s'.files s'.catalog (later ++ more) s'.phase := by
  have phase := sound.phase
  cases act_stepped done with
  | @pages seen count isListing isMore =>
    rw [isListing] at cycle
    rw [List.append_nil]
    cases cycle with
    | listing known covers held quiet =>
      exact .listing known (covers.page known count) held quiet
  | chooses count isListing last =>
    rw [isListing] at cycle
    rw [List.append_nil]
    exact cycle.chooses regular sound.copied count last
  | @spawns key waiting running downloaded isDownloading room =>
    rw [isDownloading] at cycle
    rw [List.append_nil]
    cases cycle with
    | downloading listed held left among fresh counted =>
      have same := spawned_keys key waiting running
      refine .downloading listed held (fun other member inWindow => ?_) (fun other member => ?_)
        (fun d member => ?_) counted
      · exact (left other member inWindow).imp_right same.mem_iff.mpr
      · exact among other (same.mem_iff.mp member)
      · rcases List.mem_append.mp member with before | isNew
        · exact fresh d before
        · obtain rfl := List.mem_singleton.mp isNew
          rfl
  | @downloads waiting running downloaded task d result after isDownloading found moves =>
    rw [isDownloading] at cycle phase
    cases result with
    | done =>
      exact cycle.downloads attempts found (phase.2 d (List.mem_of_getElem? found)) moves
    | failed leftover => exact smooth.elim
  | sweeps isDownloading distinct all =>
    rw [isDownloading] at cycle
    rw [List.append_nil]
    exact cycle.sweeps sound.copied all
  | evicts isEvicting =>
    rw [isEvicting] at cycle phase
    exact cycle.evicts sound.copied (phase _ List.mem_cons_self)
  | @keeps stream name removals downloaded swept succeeds isEvicting failed =>
    rw [isEvicting] at cycle
    rw [List.append_nil]
    cases succeeds with
    | false => exact smooth.elim
    | true =>
      cases cycle with
      | evicting listed held window counted =>
        refine .evicting listed (fun key isHeld => ?_) window
          (fun none nobody => nomatch (counted none nobody).2)
        refine ⟨(held key isHeld).1, (held key isHeld).2.imp_right (fun member => ?_)⟩
        rcases List.mem_cons.mp member with same | isLater
        · obtain ⟨rfl, rfl⟩ := Prod.mk.inj same
          rw [Held, Present, failed rfl] at isHeld
          cases isHeld
        · exact isLater
  | publishes order isEvicting changed =>
    rw [isEvicting] at cycle
    rw [List.append_nil]
    exact cycle.ends (.inl ⟨order, rfl⟩)
  | rests isEvicting =>
    rw [isEvicting] at cycle
    rw [List.append_nil]
    exact cycle.ends (.inr ⟨rfl, rfl⟩)
  | _ => exact smooth.elim

end Syncer

namespace Mirror

open Sync Syncer Uploader

/-- A step of the writer, or one of the syncer at which nothing fails. -/
def Undisturbed : Uploader.Action ⊕ Syncer.Action → Prop
  | .inl _ => True
  | .inr action => Smooth action

variable {k : Codecs} {cfg : WriterConfig} {up : UploaderConfig} {sync : SyncerConfig}
  {notes : List Note} {entries : List Entry} {w : Writer} {s : Syncer}

/-- What is known of an undisturbed cycle holds behind all its steps. -/
theorem cycle_runs (positive : 0 < cfg.slotsPerChunk) (attempts : 0 < sync.retryAttempts)
    (written : Written k cfg (fun _ => True) notes w) (synced : Synced sync w entries s)
    (begun : s.phase = .listing Pages.Progress.start)
    {actions : List (Uploader.Action ⊕ Syncer.Action)} {more : List (Note ⊕ Entry)} {m : Mirror}
    (ran : Behaviour.Steps (act k cfg up sync) (w, s) actions more m)
    (undisturbed : ∀ action ∈ actions, Undisturbed action) :
    Written k cfg (fun _ => True) (notes ++ Behaviour.firsts more) m.1 ∧
      Synced sync m.1 (entries ++ Behaviour.seconds more) m.2 ∧
      CycleAt k sync (listedKeys w.bucket) m.1.bucket m.2.files m.2.catalog
        (Behaviour.seconds more) m.2.phase := by
  refine ran.beside_keeps undisturbed
    (fun later w => Written k cfg (fun _ => True) (notes ++ later) w)
    (fun v later s => Synced sync v (entries ++ later) s ∧
      CycleAt k sync (listedKeys w.bucket) v.bucket s.files s.catalog later s.phase) ?_ ?_ ?_
  · rw [List.append_nil, List.append_nil]
    refine ⟨written, synced, ?_⟩
    rw [show (w, s).2.phase = _ from begun]
    exact .listing (List.Subset.refl _) (.start _)
      (fun key held => held_listed (regular_of_kept written.kept) synced.sound.copied held) rfl
  · rintro later entries' v t action more v' written ⟨synced, cycle⟩ - done
    have written' := written_step positive written (fun _ _ _ => trivial) done
    rw [List.append_assoc] at written'
    have grows := grows_of_spare positive written.kept done
    have regular := regular_of_kept written.kept
    have regular' := regular_of_kept written'.kept
    exact ⟨written', ⟨synced.sound.grow regular regular' grows, synced.served⟩,
      cycle.grow regular regular' grows⟩
  · rintro later entries' v t action more t' written ⟨synced, cycle⟩ smooth done
    have regular := regular_of_kept written.kept
    rw [← List.append_assoc]
    exact ⟨⟨synced.sound.step regular done, synced.served.step regular synced.sound done⟩,
      cycle.step attempts regular synced.sound smooth done⟩

/-- A listing has every chunk that was archived when it began. -/
theorem mem_remote {property : Arrival → Prop} (written : Written k cfg property notes w)
    {bucket : Uploader.Bucket} {remote : List ChunkKey}
    (listed : Listed (listedKeys w.bucket) bucket remote) {stream : Stream} {idx : Nat}
    (fits : (chunkOf cfg stream idx).Fits) (archived : Archived cfg w.bucket stream idx) :
    chunkOf cfg stream idx ∈ remote := by
  refine listed.complete _ fits (fun ext final => ?_)
  exact (mem_listedKeys (regular_of_kept written.kept)).mpr (archived ext (trio_iff.mp final))

/-- Behind an undisturbed cycle, what is held is complete. -/
theorem complete_of_held (synced : Synced sync w entries s) {remote : List ChunkKey}
    (held : ∀ key, Held s.files key ↔ key ∈ remote ∧ InWindow sync remote key) {key : ChunkKey}
    (isHeld : Held s.files key) : Intact s.files key := by
  rcases synced.sound.whole key isHeld with accompanied | stale
  · exact complete_iff.mpr ⟨isHeld, accompanied⟩
  · have below := stale.below synced.sound.copied (fun key isHeld => ((held key).mp isHeld).1)
    exact absurd ((held key).mp isHeld).2 below

/-- Where nothing fails in a cycle of the syncer, and the writer beside it opens no archived
chunk again and seals no empty one, the cache holds behind it exactly the chunks in the window
of the cycle's listing, and holds them with all their files. The listing has every chunk that
was archived at its start, and only chunks that are archived by now. If the cycle has changed
anything, the published catalog is that of the cache. -/
theorem cycle_catches_up (k : Codecs) (cfg : WriterConfig) (up : UploaderConfig)
    (sync : SyncerConfig) (positive : 1 ≤ cfg.slotsPerChunk) (attempts : 1 ≤ sync.retryAttempts)
    (before actions : List (Uploader.Action ⊕ Syncer.Action)) (books more : List (Note ⊕ Entry))
    (m m' : Mirror) (reached : Behaviour.Steps (act k cfg up sync) (start cfg) before books m)
    (begun : m.2.phase = .listing Pages.Progress.start)
    (ran : Behaviour.Steps (act k cfg up sync) m actions more m')
    (undisturbed : ∀ action ∈ actions, Undisturbed action) (ended : m'.2.phase = .idle) :
    ∃ remote : List ChunkKey,
      (∀ stream idx, (chunkOf cfg stream idx).Fits → Archived cfg m.1.bucket stream idx →
        chunkOf cfg stream idx ∈ remote) ∧
      (∀ key ∈ remote, ∃ idx, key = chunkOf cfg key.stream idx ∧
        Archived cfg m'.1.bucket key.stream idx) ∧
      (∀ key, Held m'.2.files key ↔ key ∈ remote ∧
        newestListed remote - retentionSlots sync.localRetentionHours ≤ key.endSlot) ∧
      (∀ key, Held m'.2.files key → Intact m'.2.files key) ∧
      (Behaviour.seconds more = [] ∨ ∃ order, m'.2.catalog = scanIn k order m'.2.files) := by
  obtain ⟨written, synced⟩ := runs positive (fun _ => True) reached (fun _ _ _ => trivial)
  obtain ⟨written', synced', cycle⟩ := cycle_runs positive attempts written synced begun ran undisturbed
  rw [ended] at cycle
  cases cycle with
  | @idle remote listed held published =>
    refine ⟨remote, fun stream idx fits archived => mem_remote written listed fits archived,
      fun key member => ?_, held, fun key isHeld => complete_of_held synced' held isHeld, published⟩
    obtain ⟨object, stored⟩ := Option.isSome_iff_exists.mp
      (listed.sound key member "zst" (by decide))
    obtain ⟨stream, idx, ext, -, same⟩ := mem_bucket written'.kept stored
    obtain ⟨rfl, -⟩ := object_injective same
    exact ⟨idx, rfl, fun ext final => listed.sound _ member ext (trio_iff.mpr final)⟩

/-- The start of a cycle beside an archived chunk. -/
def beforePair : List (Uploader.Action ⊕ Syncer.Action) :=
  recordPair.map .inl ++ [.inr (.boot asStored), .inr .serve, .inr .begin]

/-- A cycle in which nothing fails. A lane begins its next chunk meanwhile. -/
def cyclePair : List (Uploader.Action ⊕ Syncer.Action) :=
  [.inr (.page 2), .inl (.openChunk .tx 9 1), .inr (.page 2), .inr .spawn] ++
    List.replicate 12 (.inr (.download 0 .done)) ++ [.inr (.sweep []), .inr (.publish asStored)]

/-- The run up to the start of the listing, and that of the cycle. -/
def caughtUpPair : Option ((List (Note ⊕ Entry) × Mirror) × List (Note ⊕ Entry) × Mirror) := do
  let begun ← Behaviour.acts (act PlainCodecs.plain ⟨1000, 100, 4⟩ ⟨4, 3, 24⟩ ⟨2, 3, 24⟩)
    (start ⟨1000, 100, 4⟩) beforePair
  let ended ← Behaviour.acts (act PlainCodecs.plain ⟨1000, 100, 4⟩ ⟨4, 3, 24⟩ ⟨2, 3, 24⟩)
    begun.2 cyclePair
  some (begun, ended)

/-- Behind the cycle the cache has the chunk with all its files, and the catalog is a scan of
it. -/
theorem cycle_catches_up_pair : ∃ begun ended order, caughtUpPair = some (begun, ended) ∧
    Intact ended.2.2.files (chunkOf ⟨1000, 100, 4⟩ .tx 0) ∧
    ended.2.2.catalog = scanIn PlainCodecs.plain order ended.2.2.files := by
  have computed : caughtUpPair.any (fun result =>
      result.1.2.2.phase = .listing Pages.Progress.start ∧ result.2.2.2.phase = .idle ∧
      Held result.2.2.2.files (chunkOf ⟨1000, 100, 4⟩ .tx 0) ∧
      Behaviour.seconds result.2.1 ≠ []) = true := by
    decide +kernel
  obtain ⟨⟨⟨books, m⟩, more, m'⟩, done, facts⟩ := Option.any_eq_true _ _ |>.mp computed
  obtain ⟨begun, ended, isHeld, changed⟩ := of_decide_eq_true facts
  have steps := done
  simp only [caughtUpPair, Option.bind_eq_bind, Option.bind_eq_some_iff] at steps
  obtain ⟨_, reached, _, ran, same⟩ := steps
  cases same
  have undisturbed : ∀ action ∈ cyclePair, Undisturbed action := by
    simp [cyclePair, Undisturbed, Smooth]
  obtain ⟨_, -, -, -, complete, published⟩ := cycle_catches_up PlainCodecs.plain ⟨1000, 100, 4⟩
    ⟨4, 3, 24⟩ ⟨2, 3, 24⟩ (by decide) (by decide) beforePair cyclePair books more m m'
    (Behaviour.steps_of_acts reached) begun (Behaviour.steps_of_acts ran) undisturbed ended
  obtain ⟨order, isCatalog⟩ := published.resolve_left changed
  exact ⟨(books, m), (more, m'), order, done, complete _ isHeld, isCatalog⟩

end Mirror

end Sillage
