import Sillage.EndToEnd.Copies

/-!
# No chunk is downloaded twice

A chunk goes from the cache only when it lies below the window of the newest held chunk,
and that window only moves up. The listing covers what is held, so that its window is no
lower. Hence no chunk that has gone is chosen again, over any number of cycles and
restarts, and a held chunk of the window has its three files.
-/

namespace Sillage

open LittleEndian Directory Names

namespace Syncer

open Sync Listing

/-- The chunks whose downloads have completed. -/
def downloadedIn (books : List Entry) : List ChunkKey :=
  Behaviour.told (fun | .downloaded key => some key | .removed _ _ => none) books

/-- Downloads are counted along the books. -/
theorem downloadedIn_append (books more : List Entry) :
    downloadedIn (books ++ more) = downloadedIn books ++ downloadedIn more :=
  Behaviour.told_append ..

/-- Both files beside the sidecar of a chunk are there. -/
def Accompanied (files : Files) (key : ChunkKey) : Prop :=
  Present (files key.stream) (key.file "zst") ∧ Present (files key.stream) (key.file "idx")

/-- What is known of the chunks of a cycle: none comes twice, none was downloaded before,
and the bucket has all their objects. -/
structure Chosen (bucket : Uploader.Bucket) (books : List Entry) (keys : List ChunkKey) : Prop where
  distinct : keys.Nodup
  fits : ∀ key ∈ keys, key.Fits
  fresh : ∀ key ∈ keys, key ∉ downloadedIn books
  stored : ∀ key ∈ keys, ∀ ext ∈ trio, (bucket.lookup (key.object ext)).isSome = true

/-- What is known of the syncer by where it is. -/
def PhaseSound (cfg : SyncerConfig) (bucket : Uploader.Bucket) (books : List Entry) (files : Files) :
    Phase → Prop
  | .clearing leftovers => ∀ file ∈ leftovers, partialSuffix <:+ file.2
  | .listing seen => ∃ first ⊆ listedKeys bucket, Pages.Covers first (listedKeys bucket) seen ∧
      ∀ key, Held files key → ∀ ext ∈ trio, key.object ext ∈ first
  | .downloading waiting running _ =>
      Chosen bucket books (waiting ++ running.map Download.key) ∧
        ∀ d ∈ running, DownloadSound bucket files d
  | .evicting removals _ _ => ∀ file ∈ removals, ∃ key, Stale cfg files key ∧
      ∃ ext ∈ trio, file = (key.stream, key.file ext)
  | _ => True

/-- The invariant of the syncer's runs. -/
structure Sound (cfg : SyncerConfig) (bucket : Uploader.Bucket) (books : List Entry) (s : Syncer) :
    Prop where
  copied : Copied bucket s.files
  whole : ∀ key, Held s.files key → Accompanied s.files key ∨ Stale cfg s.files key
  once : (downloadedIn books).Nodup
  gone : ∀ key ∈ downloadedIn books, Held s.files key ∨ Stale cfg s.files key
  phase : PhaseSound cfg bucket books s.files s.phase

variable {k : Codecs} {cfg : SyncerConfig} {bucket bucket' : Uploader.Bucket}
  {books more : List Entry} {s s' : Syncer}

/-- What is known of some chunks is known of a part of them, in any order. -/
theorem Chosen.of_subperm {keys keys' : List ChunkKey} (chosen : Chosen bucket books keys)
    (part : keys'.Subperm keys) : Chosen bucket books keys' where
  distinct := by
    obtain ⟨same, reordered, sublist⟩ := part
    exact reordered.nodup_iff.mp (chosen.distinct.sublist sublist)
  fits key member := chosen.fits key (part.subset member)
  fresh key member := chosen.fresh key (part.subset member)
  stored key member := chosen.stored key (part.subset member)

/-- A bucket that grows lists no fewer keys. -/
theorem listedKeys_grow (regular : Regular bucket) (regular' : Regular bucket')
    (grows : Grows bucket bucket') : listedKeys bucket ⊆ listedKeys bucket' := by
  intro name listed
  obtain ⟨object, stored⟩ := Option.isSome_iff_exists.mp ((mem_listedKeys regular).mp listed)
  exact (mem_listedKeys regular').mpr (Option.isSome_of_eq_some (grows name object stored))

/-- The bucket may grow at any time. -/
theorem Sound.grow (regular : Regular bucket) (regular' : Regular bucket')
    (grows : Grows bucket bucket') (sound : Sound cfg bucket books s) :
    Sound cfg bucket' books s := by
  refine ⟨sound.copied.grow grows, sound.whole, sound.once, sound.gone, ?_⟩
  have phase := sound.phase
  cases isPhase : s.phase with
  | listing seen =>
    rw [isPhase] at phase
    obtain ⟨first, known, covers, held⟩ := phase
    have more := listedKeys_grow regular regular' grows
    exact ⟨first, List.Subset.trans known more, covers.grow more, held⟩
  | downloading waiting running downloaded =>
    rw [isPhase] at phase
    refine ⟨⟨phase.1.distinct, phase.1.fits, phase.1.fresh, ?_⟩,
      fun d member => (phase.2 d member).grow grows⟩
    intro key member ext final
    obtain ⟨object, stored⟩ := Option.isSome_iff_exists.mp (phase.1.stored key member ext final)
    exact Option.isSome_of_eq_some (grows _ _ stored)
  | clearing leftovers =>
    rw [isPhase] at phase
    exact phase
  | evicting removals downloaded swept =>
    rw [isPhase] at phase
    exact phase
  | down => trivial
  | idle => trivial

/-- A syncer that has not started knows of nothing. -/
theorem Sound.start : Sound cfg bucket [] Syncer.start where
  copied stream name content stored := by simp [Syncer.start] at stored
  whole key held := by simp [Held, Present, Syncer.start] at held
  once := List.nodup_nil
  gone key member := by cases member
  phase := trivial

/-! ## The choice of downloads -/

/-- What is held is listed, if the sidecar's siblings are in the bucket. -/
theorem held_listed (regular : Regular bucket) {files : Files} (copied : Copied bucket files)
    {key : ChunkKey} (held : Held files key) : ∀ ext ∈ trio, key.object ext ∈ listedKeys bucket := by
  intro ext final
  obtain ⟨content, stored⟩ := Option.isSome_iff_exists.mp held
  have sidecar := (copied.object (by decide) stored).2
  exact (mem_listedKeys regular).mpr
    (regular.ordered key (Option.isSome_of_eq_some sidecar) ext final)

/-- What is chosen of a complete listing of what is held has not been downloaded before. -/
theorem Sound.chosen (regular : Regular bucket) (sound : Sound cfg bucket books s)
    {keys : List (List Char)} (listed : ∀ name ∈ keys, name ∈ listedKeys bucket)
    (complete : ∀ key, Held s.files key → ∀ ext ∈ trio, key.object ext ∈ keys) :
    Chosen bucket books
      (diffForSync (localChunks s.files) (remoteOf keys) cfg.localRetentionHours) := by
  have remote : ∀ {key}, key ∈ remoteOf keys ↔ key.Fits ∧ ∀ ext ∈ trio, key.object ext ∈ keys :=
    mem_remoteOf (regular_listed regular listed)
  have newest : newestHeld (localChunks s.files) ≤ newestListed (remoteOf keys) := by
    refine newestHeld_le_listed (fun key isLocal => remote.mpr ?_)
    exact ⟨fits_of_local isLocal, complete key (sound.copied.mem_localChunks.mp isLocal)⟩
  refine ⟨?_, ?_, ?_, ?_⟩
  · exact (List.perm_insertionSort _ _).nodup_iff.mpr
      (((remoteOf_nodup keys).filter _).filter _)
  · exact fun key member => (remote.mp (mem_diffForSync.mp member).1).1
  · intro key member before
    obtain ⟨-, inWindow, missing⟩ := mem_diffForSync.mp member
    rcases sound.gone key before with held | stale
    · exact missing (sound.copied.mem_localChunks.mpr held)
    · have below : key.endSlot <
          newestHeld (localChunks s.files) - retentionSlots cfg.localRetentionHours := stale
      omega
  · intro key member ext final
    exact (mem_listedKeys regular).mp
      (listed _ ((remote.mp (mem_diffForSync.mp member).1).2 ext final))

/-! ## The steps -/

/-- A step that leaves the disk and the books alone. -/
theorem Sound.moveOn (sound : Sound cfg bucket books s) {catalog : ChunkCatalog} {phase : Phase}
    (phaseSound : PhaseSound cfg bucket books s.files phase) :
    Sound cfg bucket books { s with catalog, phase } :=
  ⟨sound.copied, sound.whole, sound.once, sound.gone, phaseSound⟩

/-- A page of the listing. -/
theorem Sound.pages (regular : Regular bucket) (sound : Sound cfg bucket books s)
    {seen : Pages.Progress (List Char)} (isListing : s.phase = .listing seen) (count : Nat) :
    PhaseSound cfg bucket books s.files (.listing (seen.page (listedKeys bucket) count).1) ∧
      ((seen.page (listedKeys bucket) count).2 = false →
        Chosen bucket books (diffForSync (localChunks s.files)
          (remoteOf (seen.page (listedKeys bucket) count).1.keys) cfg.localRetentionHours)) := by
  have phase := sound.phase
  rw [isListing] at phase
  obtain ⟨first, known, covers, held⟩ := phase
  have behind : Pages.Covers first (listedKeys bucket) (seen.page (listedKeys bucket) count).1 :=
    .page ⟨covers.complete, covers.sound⟩ known count
  refine ⟨⟨first, known, behind, held⟩, fun isLast => ?_⟩
  exact sound.chosen regular behind.sound
    (fun key isHeld ext final => covers.last known isLast _ (held key isHeld ext final))

/-- A download that is started goes from the waiting to the running ones. -/
theorem spawned_keys (key : ChunkKey) (waiting : List ChunkKey) (running : List Download) :
    (waiting ++ (running ++ [Download.start key]).map Download.key).Perm
      (key :: waiting ++ running.map Download.key) := by
  rw [List.map_append, ← List.append_assoc]
  exact List.perm_append_comm

/-- The sidecar comes behind the other two files. -/
theorem before_sidecar {before rest : List String} (split : before ++ "meta.json" :: rest = trio) :
    before = ["zst", "idx"] := by
  rcases before with _ | ⟨first, _ | ⟨second, _ | ⟨third, before⟩⟩⟩ <;> simp_all [trio]

/-- The other downloads are those of other chunks. -/
theorem Chosen.apart {waiting : List ChunkKey} {running : List Download} {task : Nat}
    {d : Download} (chosen : Chosen bucket books (waiting ++ running.map Download.key))
    (found : running[task]? = some d) {i : Nat} {other : Download} (elsewhere : i ≠ task)
    (isOther : running[i]? = some other) : other.key ≠ d.key := by
  intro same
  have inside : i < (running.map Download.key).length := by
    simpa using (List.getElem?_eq_some_iff.mp isOther).1
  have distinct := (List.nodup_append.mp chosen.distinct).2.1
  refine elsewhere ((List.getElem?_inj inside distinct).mp ?_)
  rw [List.getElem?_map, List.getElem?_map, isOther, found, Option.map_some, Option.map_some, same]

/-- A chunk that has been downloaded is not among those that are left. -/
theorem Chosen.completes {waiting : List ChunkKey} {running : List Download} {task : Nat}
    {d : Download} (chosen : Chosen bucket books (waiting ++ running.map Download.key))
    (found : running[task]? = some d) :
    Chosen bucket (books ++ [.downloaded d.key])
      (waiting ++ (running.eraseIdx task).map Download.key) := by
  have reordered : (d.key :: (waiting ++ (running.eraseIdx task).map Download.key)).Perm
      (waiting ++ running.map Download.key) :=
    List.perm_middle.symm.trans (List.Perm.append_left waiting (Tasks.map_eraseIdx Download.key found))
  have left := chosen.of_subperm reordered.subperm
  refine ⟨left.distinct.of_cons, fun key member => left.fits key (List.mem_cons_of_mem _ member),
    fun key member => ?_, fun key member => left.stored key (List.mem_cons_of_mem _ member)⟩
  rw [downloadedIn_append, List.mem_append, not_or]
  refine ⟨left.fresh key (List.mem_cons_of_mem _ member), fun same => ?_⟩
  obtain rfl := List.mem_singleton.mp same
  exact (List.nodup_cons.mp left.distinct).1 member

/-- A step of a download. -/
theorem Sound.downloads (sound : Sound cfg bucket books s) {waiting : List ChunkKey}
    {running : List Download} {downloaded task : Nat} {d : Download} {result : Result}
    {after : Advanced} (isDownloading : s.phase = .downloading waiting running downloaded)
    (found : running[task]? = some d) (moves : d.Moves cfg bucket s.files result after)
    (count : Nat) :
    Sound cfg bucket (books ++ if after.complete then [.downloaded d.key] else [])
      { s with
        files := after.files
        phase := .downloading waiting (Tasks.replaced running task after.next) count } := by
  have phase := sound.phase
  rw [isDownloading] at phase
  obtain ⟨chosen, sounds⟩ := phase
  have own := sounds d (List.mem_of_getElem? found)
  obtain ⟨changed, next, complete⟩ := own.moves moves
  have copied := changed.copied own sound.copied
  have stays : ∀ key, Held s.files key → Held after.files key ∨ Stale cfg s.files key :=
    fun key held => .inl (changed.present (by decide) held)
  have newest := newestHeld_mono sound.copied copied stays
  have kept : ∀ key ∈ downloadedIn books, Held after.files key ∨ Stale cfg after.files key :=
    fun key member => (sound.gone key member).imp (changed.present (by decide))
      (fun stale => stale.mono newest)
  have isKey : d.key ∈ waiting ++ running.map Download.key :=
    List.mem_append_right _ (List.mem_map_of_mem (List.mem_of_getElem? found))
  refine ⟨copied, ?_, ?_, ?_, ?_, ?_⟩
  · intro key held
    rcases changed.before (by decide) held with before | ⟨rfl, isLast⟩
    · rcases sound.whole key before with accompanied | stale
      · exact .inl (accompanied.imp (changed.present (by decide)) (changed.present (by decide)))
      · exact .inr (stale.mono newest)
    · -- the sidecar lands last
      obtain ⟨before, split, present⟩ := own.split
      rw [← isLast] at split
      obtain rfl := before_sidecar split
      exact .inl ⟨changed.present (by decide) (present _ (by simp)),
        changed.present (by decide) (present _ (by simp))⟩
  · split
    · rw [downloadedIn_append]
      refine sound.once.append (List.nodup_singleton d.key) ?_
      exact List.disjoint_singleton.mpr (chosen.fresh d.key isKey)
    · simpa using sound.once
  · split
    · next isComplete =>
      intro key member
      rw [downloadedIn_append, List.mem_append] at member
      rcases member with before | isOwn
      · exact kept key before
      · obtain rfl := List.mem_singleton.mp isOwn
        exact .inl (complete isComplete).2
    · simpa using kept
  · split
    · next isComplete =>
      have ended : after.next = none := by
        cases moves <;> first | rfl | cases isComplete
      rw [ended]
      exact chosen.completes found
    · rw [List.append_nil]
      refine chosen.of_subperm (List.Sublist.subperm (List.Sublist.append (.refl waiting) ?_))
      exact Tasks.map_replaced found (fun d' isNext => (next d' isNext).1)
  · intro other member
    rcases Tasks.mem_replaced member with isNext | ⟨i, elsewhere, isOther⟩
    · exact (next other isNext).2
    · exact changed.other (chosen.apart found elsewhere isOther)
        (sounds other (List.mem_of_getElem? isOther))

/-- A file with its final name is there as before. -/
theorem present_removed {files : Files} {stream : Stream} {name : FileName} {key : ChunkKey}
    {ext : String} :
    Present (applyOn files (stream, .remove name) key.stream) (key.file ext) ↔
      ¬ (key.stream = stream ∧ key.file ext = name) ∧
        Present (files key.stream) (key.file ext) := by
  by_cases here : key.stream = stream
  · subst here
    rw [Present, Present, applyOn_own, lookup_remove]
    by_cases own : key.file ext = name <;> simp [own]
  · rw [Present, Present, applyOn, Function.update_of_ne here]
    simp [here]

/-- The removal of a file leaves copies only. -/
theorem Copied.remove {files : Files} (copied : Copied bucket files) (stream : Stream)
    (name : FileName) : Copied bucket (applyOn files (stream, .remove name)) := by
  intro stream' name' content stored
  refine copied stream' name' content ?_
  by_cases own : stream' = stream ∧ name' = name
  · obtain ⟨rfl, rfl⟩ := own
    rw [applyOn_own, lookup_remove, if_pos rfl] at stored
    cases stored
  · rwa [lookup_applyOn (by simpa [FileStep.touches] using own)] at stored

/-- A removal of a temporary file, or of a file of a stale chunk. -/
theorem Sound.removes (sound : Sound cfg bucket books s) {stream : Stream} {name : FileName}
    (expendable : ∀ key : ChunkKey, ∀ ext ∈ trio, key.stream = stream → key.file ext = name →
      Stale cfg s.files key)
    {phase : Phase}
    (phaseSound : (∀ key, Stale cfg s.files key →
        Stale cfg (applyOn s.files (stream, .remove name)) key) →
      PhaseSound cfg bucket books (applyOn s.files (stream, .remove name)) phase) :
    Sound cfg bucket books
      { s with files := applyOn s.files (stream, .remove name), phase := phase } := by
  have copied := sound.copied.remove stream name
  have fades : ∀ key : ChunkKey, ∀ ext ∈ trio, Present (s.files key.stream) (key.file ext) →
      Present (applyOn s.files (stream, .remove name) key.stream) (key.file ext) ∨
        Stale cfg s.files key := by
    intro key ext final present
    by_cases own : key.stream = stream ∧ key.file ext = name
    · exact .inr (expendable key ext final own.1 own.2)
    · exact .inl (present_removed.mpr ⟨own, present⟩)
  have newest := newestHeld_mono sound.copied copied (fun key => fades key "meta.json" (by decide))
  have stays : ∀ key, Stale cfg s.files key →
      Stale cfg (applyOn s.files (stream, .remove name)) key := fun _ stale => stale.mono newest
  refine ⟨copied, ?_, sound.once, ?_, phaseSound stays⟩
  · intro key held
    rcases sound.whole key (present_removed.mp held).2 with ⟨payload, index⟩ | stale
    · rcases fades key _ (by decide) payload with payload' | stale
      · exact (fades key _ (by decide) index).imp (fun index' => ⟨payload', index'⟩) (stays key)
      · exact .inr (stays key stale)
    · exact .inr (stays key stale)
  · intro key member
    rcases sound.gone key member with held | stale
    · exact (fades key _ (by decide) held).imp_right (stays key)
    · exact .inr (stays key stale)

/-- Every action keeps the invariant. -/
theorem Sound.step (regular : Regular bucket) (sound : Sound cfg bucket books s)
    {action : Action} (done : act k cfg bucket s action = some (more, s')) :
    Sound cfg bucket (books ++ more) s' := by
  have phase := sound.phase
  have quiet : ∀ {catalog phase}, PhaseSound cfg bucket books s.files phase →
      Sound cfg bucket (books ++ []) { s with catalog, phase } := by
    intro catalog phase phaseSound
    rw [List.append_nil]
    exact sound.moveOn phaseSound
  cases act_stepped done with
  | boots order isDown =>
    refine quiet (fun file member => ?_)
    obtain ⟨stream, -, inside⟩ := List.mem_flatMap.mp member
    obtain ⟨name, named, rfl⟩ := List.mem_map.mp inside
    exact of_decide_eq_true (List.mem_filter.mp named).2
  | clears isClearing =>
    rw [isClearing] at phase
    rw [List.append_nil]
    refine sound.removes (fun key ext final _ own => ?_)
      (fun _ file member => phase file (List.mem_cons_of_mem _ member))
    exact absurd (phase _ List.mem_cons_self) (own ▸ not_partialSuffix key final)
  | leaves isClearing =>
    rw [isClearing] at phase
    exact quiet (fun file member => phase file (List.mem_cons_of_mem _ member))
  | serves isClearing => exact quiet trivial
  | begins isIdle =>
    exact quiet ⟨listedKeys bucket, List.Subset.refl _, .start _,
      fun key held => held_listed regular sound.copied held⟩
  | pages count isListing more => exact quiet (sound.pages regular isListing count).1
  | chooses count isListing last =>
    refine quiet ⟨?_, by simp⟩
    simpa using (sound.pages regular isListing count).2 last
  | listFails isListing => exact quiet trivial
  | @spawns key waiting running downloaded isDownloading room =>
    rw [isDownloading] at phase
    obtain ⟨chosen, sounds⟩ := phase
    refine quiet ⟨chosen.of_subperm (spawned_keys key waiting running).subperm, fun d member => ?_⟩
    rcases List.mem_append.mp member with before | isNew
    · exact sounds d before
    · obtain rfl := List.mem_singleton.mp isNew
      exact ⟨chosen.fits key (by simp), ⟨[], rfl, by simp⟩, by simp [Download.start],
        by simp [Download.start]⟩
  | downloads task isDownloading found moves =>
    exact sound.downloads isDownloading found moves _
  | aborts task isDownloading =>
    rw [isDownloading] at phase
    refine quiet ⟨phase.1.of_subperm (List.Sublist.subperm ?_), fun d member =>
      phase.2 d (List.mem_of_mem_eraseIdx member)⟩
    exact List.Sublist.append (.refl _) ((List.eraseIdx_sublist _ _).map _)
  | sweeps isDownloading distinct all =>
    refine quiet (fun file member => ?_)
    obtain ⟨key, isVictim, inside⟩ := List.mem_flatMap.mp member
    obtain ⟨ext, final, rfl⟩ := List.mem_map.mp inside
    rw [← List.mem_toFinset, all, mem_evicted] at isVictim
    exact ⟨key, isVictim.2, ext, final, rfl⟩
  | @evicts stream name removals downloaded swept isEvicting =>
    rw [isEvicting] at phase
    obtain ⟨key, stale, ext, -, isFile⟩ := phase _ List.mem_cons_self
    obtain ⟨rfl, rfl⟩ := Prod.mk.inj isFile
    have unsaid : downloadedIn (books ++ [.removed key.stream (key.file ext)]) =
        downloadedIn books := by
      rw [downloadedIn_append]
      exact List.append_nil _
    have removed : Sound cfg bucket books
        { s with
          files := applyOn s.files (key.stream, .remove (key.file ext))
          phase := .evicting removals downloaded swept } := by
      refine sound.removes (fun other ext' _ here own => ChunkKey.file_injective here own ▸ stale)
        (fun stays file member => ?_)
      obtain ⟨other, isStale, named⟩ := phase file (List.mem_cons_of_mem _ member)
      exact ⟨other, stays other isStale, named⟩
    exact ⟨removed.copied, removed.whole, unsaid ▸ removed.once, unsaid ▸ removed.gone,
      removed.phase⟩
  | keeps succeeds isEvicting failed =>
    rw [isEvicting] at phase
    exact quiet (fun file member => phase file (List.mem_cons_of_mem _ member))
  | publishes order isEvicting changed => exact quiet trivial
  | publishFails isEvicting => exact quiet trivial
  | rests isEvicting => exact quiet trivial
  | crashes => exact quiet trivial

end Syncer

end Sillage
