import Sillage.EndToEnd.Churn

/-!
# What is served is on disk

The catalog that the syncer has published last names chunks with all their files, whatever
has happened since, but for those below the window of the newest held chunk. Only these
does a sweep take away.
-/

namespace Sillage

open LittleEndian Directory Names

/-- What identifies the chunk of an entry. -/
def ChunkEntry.key (entry : ChunkEntry) : ChunkKey :=
  ⟨entry.stream, entry.startSlot, entry.endSlotExclusive⟩

namespace Syncer

open Sync Listing

/-- All files of a chunk are in the cache. -/
def Intact (files : Files) (key : ChunkKey) : Prop :=
  ∀ ext ∈ trio, Present (files key.stream) (key.file ext)

/-- Every published chunk is complete in the cache, unless it is stale. -/
def Served (cfg : SyncerConfig) (s : Syncer) : Prop :=
  ∀ entry, s.catalog.Holds entry → Intact s.files entry.key ∨ Stale cfg s.files entry.key

variable {k : Codecs} {cfg : SyncerConfig} {bucket bucket' : Uploader.Bucket} {files files' : Files}
  {books more : List Entry} {s s' : Syncer} {key : ChunkKey} {entry : ChunkEntry}

/-- A chunk has its three files if its sidecar is there and the other two lie beside it. -/
theorem complete_iff : Intact files key ↔ Held files key ∧ Accompanied files key := by
  simp only [Intact, trio, List.mem_cons, List.not_mem_nil, or_false, forall_eq_or_imp, forall_eq]
  exact ⟨fun all => ⟨all.2.2, all.1, all.2.1⟩, fun all => ⟨all.2.1, all.2.2, all.1⟩⟩

/-- What a scan reads as a chunk of a cache. -/
structure ScannedIn (files : Files) (stream : Stream) (name : FileName) (entry : ChunkEntry) :
    Prop where
  stream : entry.stream = stream
  name : name = entry.key.file "meta.json"
  zstPath : entry.zstPath = entry.key.file "zst"
  idxPath : entry.idxPath = entry.key.file "idx"
  complete : Intact files entry.key

/-- Only a sidecar is named like one. -/
theorem sidecar_named (final : ext ∈ trio) {text : FileName}
    (named : name = key.file (ext ++ ".partial") ∨ name = key.file ext)
    (stripped : stripSuffix metaSuffix name = some text) : ext = "meta.json" ∧ name = key.file ext := by
  have unread : ∀ ext : String, ∀ last, ext.toList.getLast? = some last → last ≠ 'n' →
      name = key.file ext → False := by
    intro ext last ends distinct same
    rw [same, stripSuffix_of_last] at stripped
    · cases stripped
    · rw [ChunkKey.file, chunkFile_last _ _ ends]
      exact fun isLast => distinct (Option.some.inj isLast)
  simp only [trio, List.mem_cons, List.not_mem_nil, or_false] at final
  rcases named with same | same
  · exfalso
    rcases final with rfl | rfl | rfl <;> exact unread _ 'l' (by decide) (by decide) same
  · rcases final with rfl | rfl | rfl
    · exact (unread _ 't' (by decide) (by decide) same).elim
    · exact (unread _ 'x' (by decide) (by decide) same).elim
    · exact ⟨rfl, same⟩

/-- What is scanned of a cache are complete chunks. -/
theorem Copied.scanned (copied : Copied bucket files) {stream : Stream} {name : FileName}
    (found : ChunkCatalog.scanEntry k stream (files stream) name = some entry) :
    ScannedIn files stream name entry := by
  obtain ⟨text, start, stop, scanned⟩ := ChunkCatalog.scanEntry_iff.mp found
  obtain ⟨bytes, stored, -⟩ := scanned.sidecar
  obtain ⟨key, own, -, ext, final, named⟩ := copied stream name bytes stored
  obtain ⟨rfl, same⟩ := sidecar_named final (named.imp_right And.left) scanned.stripped
  have isText : text = stem key.startSlot key.endSlot := by
    have stripped := scanned.stripped
    rw [same, ChunkKey.file, chunkFile_meta, stripSuffix_append] at stripped
    exact (Option.some.inj stripped).symm
  have parts := scanned.parts
  rw [isText, splitOnce_stem] at parts
  obtain ⟨rfl, rfl⟩ := Prod.mk.inj (Option.some.inj parts)
  have isKey : entry.key = key := by
    rw [ChunkEntry.key, scanned.stream, ← own, parseU64_padded_eq scanned.startRead,
      parseU64_padded_eq scanned.stopRead]
  have zst : entry.zstPath = key.file "zst" := by rw [scanned.zstPath, isText]; rfl
  have idx : entry.idxPath = key.file "idx" := by rw [scanned.idxPath, isText]; rfl
  refine ⟨scanned.stream, isKey ▸ same, isKey ▸ zst, isKey ▸ idx, ?_⟩
  rw [isKey, complete_iff, Held, Accompanied, own, ← same, ← zst, ← idx]
  exact ⟨Option.isSome_of_eq_some stored, scanned.payload, scanned.index⟩

/-- A step leaves the files of chunks, unless they are stale. -/
theorem Sound.fades (sound : Sound cfg bucket books s) {action : Action}
    (done : act k cfg bucket s action = some (more, s')) {key : ChunkKey} {ext : String}
    (final : ext ∈ trio) (present : Present (s.files key.stream) (key.file ext)) :
    Present (s'.files key.stream) (key.file ext) ∨ Stale cfg s.files key := by
  have phase := sound.phase
  cases act_stepped done with
  | clears isClearing =>
    rw [isClearing] at phase
    refine .inl (present_removed.mpr ⟨fun own => ?_, present⟩)
    exact not_partialSuffix key final (own.2 ▸ phase _ List.mem_cons_self)
  | downloads task isDownloading found moves =>
    rw [isDownloading] at phase
    obtain ⟨changed, -⟩ := (phase.2 _ (List.mem_of_getElem? found)).moves moves
    exact .inl (changed.present final present)
  | @evicts stream name removals downloaded swept isEvicting =>
    rw [isEvicting] at phase
    obtain ⟨victim, stale, ext', -, isFile⟩ := phase _ List.mem_cons_self
    obtain ⟨rfl, rfl⟩ := Prod.mk.inj isFile
    by_cases own : key.stream = victim.stream ∧ key.file ext = victim.file ext'
    · exact .inr (ChunkKey.file_injective own.1 own.2 ▸ stale)
    · exact .inl (present_removed.mpr ⟨own, present⟩)
  | _ => exact .inl present

/-- The window of the newest held chunk does not move down. -/
theorem Sound.newest (regular : Regular bucket) (sound : Sound cfg bucket books s)
    {action : Action} (done : act k cfg bucket s action = some (more, s')) :
    newestHeld (localChunks s.files) ≤ newestHeld (localChunks s'.files) :=
  newestHeld_mono sound.copied (sound.step regular done).copied
    (fun _ held => sound.fades done (by decide) held)

/-- A syncer that has not started serves nothing. -/
theorem Served.start : Served cfg Syncer.start := by
  intro entry holds
  simp [ChunkCatalog.Holds, Syncer.start] at holds

/-- A catalog that is scanned now. -/
theorem Copied.served (copied : Copied bucket files) (order : DirOrder)
    (holds : (scanIn k order files).Holds entry) : Intact files entry.key := by
  obtain ⟨-, name, -, scanned⟩ := ChunkCatalog.scanStream_found _ _ _ _ _ _ holds
  exact (copied.scanned scanned).complete

/-- Every action keeps what is served on disk. -/
theorem Served.step (served : Served cfg s) (regular : Regular bucket)
    (sound : Sound cfg bucket books s) {action : Action}
    (done : act k cfg bucket s action = some (more, s')) : Served cfg s' := by
  have carried : s'.catalog = s.catalog → Served cfg s' := by
    intro same entry holds
    rw [same] at holds
    have newest := sound.newest regular done
    rcases served entry holds with complete | stale
    · by_cases stale : Stale cfg s.files entry.key
      · exact .inr (stale.mono newest)
      · exact .inl (fun ext final => (sound.fades done final (complete ext final)).resolve_right stale)
    · exact .inr (stale.mono newest)
  cases act_stepped done with
  | boots order isDown => exact fun entry holds => .inl (sound.copied.served order holds)
  | publishes order isEvicting changed =>
    exact fun entry holds => .inl (sound.copied.served order holds)
  | _ => exact carried rfl

end Syncer

end Sillage
