import Sillage.Reader.Publication
import Sillage.Settings
import Sillage.Writer.Expiry

/-!
# Retention by hours

Three places turn hours into a window: the reader's sweep and its choice of downloads into
slots, the writer's sweep into seconds. The products are narrowed to 64 bits, and no check of
the settings bounds the hours. More hours keep more, unless a product exceeds 64 bits: then
the window is that of the remainder.
-/

namespace Sillage

open LittleEndian Directory Names Sync

namespace Retention

/-- The greater of two numbers of hours keeps whatever the lesser one keeps: files behind a
sweep of the reader, chosen downloads, and files of listed chunks behind a sweep of the
writer. -/
structure Widens (hours more : Nat) : Prop where
  reader : ∀ (order : SetOrder) (refuses : Stream → FileName → Bool) (files : Files)
    (stream : Stream) (name : FileName),
    Present ((Sync.sweepRetention order refuses hours files).1 stream) name →
      Present ((Sync.sweepRetention order refuses more files).1 stream) name
  window : ∀ (held : Finset ChunkKey) (remote : List ChunkKey),
    ∀ key ∈ diffForSync held remote hours, key ∈ diffForSync held remote more
  writer : ∀ (up : UploaderConfig) (ages : Stream → FileName → Option Nat)
    (listing : Stream → List FileName) (dirs : Stream → Dir),
    (∀ stream, Uploader.Listed (dirs stream) (listing stream)) → ∀ stream name,
      Present (Uploader.sweepRetention { up with localRetentionHours := hours } ages listing dirs
        stream) name →
      Present (Uploader.sweepRetention { up with localRetentionHours := more } ages listing dirs
        stream) name

/-- The products do not come out of order. -/
def Ordered (hours more : Nat) : Prop :=
  hours * 18000 % u64Bound ≤ more * 18000 % u64Bound ∧
    hours * 3600 % u64Bound ≤ more * 3600 % u64Bound

variable {hours more : Nat}

/-- The slots of a window are half of a product. -/
theorem retentionSlots_eq (hours : Nat) : retentionSlots hours = hours * 18000 % u64Bound / 2 := by
  rw [retentionSlots, Nat.mod_mul_mod, Nat.mul_assoc]

/-- The product is even and stays so when it is narrowed. -/
theorem retentionSlots_le_iff :
    retentionSlots hours ≤ retentionSlots more ↔
      hours * 18000 % u64Bound ≤ more * 18000 % u64Bound := by
  rw [retentionSlots_eq, retentionSlots_eq]
  unfold u64Bound
  omega

/-- The seconds of the writer's window are a product. -/
theorem retention_le_iff (up : UploaderConfig) :
    Uploader.retention { up with localRetentionHours := hours } ≤
        Uploader.retention { up with localRetentionHours := more } ↔
      hours * 3600 % u64Bound ≤ more * 3600 % u64Bound :=
  Nat.mul_le_mul_right_iff (Nat.pow_pos (by decide))

/-! ## The reader -/

/-- A longer window evicts less. -/
theorem evicted_antitone (held : Finset ChunkKey)
    (longer : retentionSlots hours ≤ retentionSlots more) :
    evicted held more ⊆ evicted held hours := by
  intro key gone
  obtain ⟨isHeld, below⟩ := mem_evicted.mp gone
  exact mem_evicted.mpr ⟨isHeld, Nat.lt_of_lt_of_le below (Nat.sub_le_sub_left longer _)⟩

/-- A file stays behind the sweep exactly if its chunk is not evicted, or its removal fails. -/
theorem present_sweep_iff (order : SetOrder) (refuses : Stream → FileName → Bool) (files : Files)
    (stream : Stream) (name : FileName) :
    Present ((Sync.sweepRetention order refuses hours files).1 stream) name ↔
      Present (files stream) name ∧ ¬ ((∃ key ∈ evicted (localChunks files) hours,
        key.stream = stream ∧ ∃ ext ∈ trio, name = key.file ext) ∧ refuses stream name = false) := by
  have victim : ∀ key,
      key ∈ victims order hours files ↔ key ∈ evicted (localChunks files) hours := by
    intro key
    rw [victims, List.mem_filter, order.lists, decide_eq_true_eq, and_iff_right_iff_imp]
    exact fun gone => (mem_evicted.mp gone).1
  simp only [Sync.sweepRetention, sweepSteps, Present, lookup_flatMap_removals, victim]
  split
  · next gone => simp [gone]
  · next stays => simp [stays]

/-- What a sweep of the reader leaves, one with a longer window leaves too. -/
theorem reader_widens (longer : retentionSlots hours ≤ retentionSlots more) (order : SetOrder)
    (refuses : Stream → FileName → Bool) (files : Files) (stream : Stream) (name : FileName)
    (stays : Present ((Sync.sweepRetention order refuses hours files).1 stream) name) :
    Present ((Sync.sweepRetention order refuses more files).1 stream) name := by
  rw [present_sweep_iff] at stays ⊢
  refine ⟨stays.1, ?_⟩
  rintro ⟨⟨key, gone, own⟩, removes⟩
  exact stays.2 ⟨⟨key, evicted_antitone _ longer gone, own⟩, removes⟩

/-- A longer window downloads more. -/
theorem window_widens (longer : retentionSlots hours ≤ retentionSlots more)
    (held : Finset ChunkKey) (remote : List ChunkKey) :
    ∀ key ∈ diffForSync held remote hours, key ∈ diffForSync held remote more := by
  intro key chosen
  obtain ⟨listed, inWindow, missing⟩ := mem_diffForSync.mp chosen
  exact mem_diffForSync.mpr ⟨listed, (Nat.sub_le_sub_left longer _).trans inWindow, missing⟩

/-- Two chunks, the newer one ending some slots behind the older one. -/
theorem longer_of_window (widens : ∀ (held : Finset ChunkKey) (remote : List ChunkKey),
      ∀ key ∈ diffForSync held remote hours, key ∈ diffForSync held remote more) :
    retentionSlots hours ≤ retentionSlots more := by
  let old : ChunkKey := ⟨.tx, 0, 1⟩
  let newest : ChunkKey := ⟨.tx, retentionSlots hours, retentionSlots hours + 1⟩
  have top : newestListed [old, newest] = retentionSlots hours + 1 := by
    simp [newestListed, old, newest, List.max?_cons]
  have chosen : old ∈ diffForSync ∅ [old, newest] hours :=
    mem_diffForSync.mpr ⟨by simp, by rw [top]; simp [old], by simp⟩
  obtain ⟨-, inWindow, -⟩ := mem_diffForSync.mp (widens _ _ _ chosen)
  rw [top] at inWindow
  dsimp only [old] at inWindow
  omega

/-! ## The writer -/

/-- What a sweep of the writer leaves, one with a longer window leaves too. -/
theorem writer_widens (up : UploaderConfig)
    (longer : Uploader.retention { up with localRetentionHours := hours } ≤
      Uploader.retention { up with localRetentionHours := more })
    {ages : Stream → FileName → Option Nat} {listing : Stream → List FileName}
    {dirs : Stream → Dir} (listed : ∀ stream, Uploader.Listed (dirs stream) (listing stream))
    (stream : Stream) (name : FileName)
    (stays : Present (Uploader.sweepRetention { up with localRetentionHours := hours } ages listing
      dirs stream) name) :
    Present (Uploader.sweepRetention { up with localRetentionHours := more } ages listing dirs
      stream) name := by
  rw [Present, Uploader.sweepRetention_listed listed] at stays ⊢
  refine ⟨stays.1, ?_⟩
  rintro ⟨marker, member, stem, isMarker, old, isSibling⟩
  refine stays.2 ⟨marker, member, stem, isMarker, ?_, isSibling⟩
  simp only [Option.any_eq_true, decide_eq_true_eq] at old ⊢
  obtain ⟨age, isAge, exceeds⟩ := old
  exact ⟨age, isAge, Nat.lt_of_le_of_lt longer exceeds⟩

/-- The marker of one chunk, listed in its directory. -/
theorem listed_marker (start stop : Nat) :
    Uploader.Listed (FileStep.apply ∅ (.create (chunkFile start stop "uploaded")))
      [chunkFile start stop "uploaded"] ∧
    stripSuffix Uploader.uploadedSuffix (chunkFile start stop "uploaded") =
      some (stem start stop) := by
  have stripped : stripSuffix Uploader.uploadedSuffix (chunkFile start stop "uploaded") =
      some (stem start stop) := stripSuffix_append (stem start stop) Uploader.uploadedSuffix
  refine ⟨⟨List.nodup_singleton _, fun name member _ _ => ?_, fun name member text isMarker => ?_⟩,
    stripped⟩
  · rw [List.mem_singleton.mp member, lookup_create, if_pos rfl]
    rfl
  · rw [List.mem_singleton.mp member, stripped] at isMarker
    exact Option.some.inj isMarker ▸ dot_not_mem_stem start stop

/-- One chunk whose marker is as old as the retention. -/
theorem longer_of_writer (widens : ∀ (up : UploaderConfig) (ages : Stream → FileName → Option Nat)
      (listing : Stream → List FileName) (dirs : Stream → Dir),
      (∀ stream, Uploader.Listed (dirs stream) (listing stream)) → ∀ stream name,
        Present (Uploader.sweepRetention { up with localRetentionHours := hours } ages listing dirs
          stream) name →
        Present (Uploader.sweepRetention { up with localRetentionHours := more } ages listing dirs
          stream) name) (up : UploaderConfig) :
    Uploader.retention { up with localRetentionHours := hours } ≤
      Uploader.retention { up with localRetentionHours := more } := by
  generalize isAge : Uploader.retention { up with localRetentionHours := hours } = age
  obtain ⟨listed, isMarker⟩ := listed_marker 0 1
  generalize chunkFile 0 1 "uploaded" = marker at listed isMarker
  have sibling : marker ∈ Uploader.siblings (stem 0 1) := by
    rw [stripSuffix_some isMarker]
    simp only [Uploader.siblings, List.mem_map, Uploader.withExtension_stem]
    exact ⟨"uploaded", by simp, rfl⟩
  have present : ((FileStep.apply ∅ (.create marker)).lookup marker).isSome = true := by simp
  have stays := widens up (fun _ _ => some age) (fun _ => [marker])
    (fun _ => FileStep.apply ∅ (.create marker)) (fun _ => listed) .tx marker
  rw [Present, Uploader.sweepRetention_listed (fun _ => listed), Present,
    Uploader.sweepRetention_listed (fun _ => listed)] at stays
  by_contra shorter
  refine (stays ⟨present, ?_⟩).2 ⟨marker, by simp, stem 0 1, isMarker, ?_, sibling⟩
  · rintro ⟨_, -, _, -, old, -⟩
    rw [isAge, Option.any_some, decide_eq_true_eq] at old
    exact Nat.lt_irrefl age old
  · rw [Option.any_some, decide_eq_true_eq]
    exact Nat.lt_of_not_le shorter

/-! ## Both -/

/-- More hours keep more exactly if neither product comes out of order. -/
theorem widens_iff (hours more : Nat) : Widens hours more ↔ Ordered hours more := by
  have up : UploaderConfig := ⟨4, 3, 24⟩
  constructor
  · intro widens
    exact ⟨retentionSlots_le_iff.mp (longer_of_window widens.window),
      (retention_le_iff up).mp (longer_of_writer widens.writer up)⟩
  · rintro ⟨slots, seconds⟩
    have longer := retentionSlots_le_iff.mpr slots
    exact ⟨reader_widens longer, window_widens longer, fun up _ _ _ listed =>
      writer_widens up ((retention_le_iff up).mpr seconds) listed⟩

/-- The least number of hours whose product in slots exceeds 64 bits. -/
def firstWrapped : Nat := 1024819115206087

/-- The products of fewer hours come in order. -/
theorem ordered_of_lt (le : hours ≤ more) (below : more < firstWrapped) : Ordered hours more := by
  have fits : more * 18000 < u64Bound := by
    unfold firstWrapped at below
    unfold u64Bound
    omega
  have narrow : ∀ factor ≤ 18000, hours * factor % u64Bound ≤ more * factor % u64Bound := by
    intro factor small
    have lesser : hours * factor ≤ more * factor := Nat.mul_le_mul_right factor le
    have below : more * factor < u64Bound :=
      Nat.lt_of_le_of_lt (Nat.mul_le_mul_left more small) fits
    rw [Nat.mod_eq_of_lt below, Nat.mod_eq_of_lt (Nat.lt_of_le_of_lt lesser below)]
    exact lesser
  exact ⟨narrow 18000 le_rfl, narrow 3600 (by decide)⟩

/-- More hours keep more exactly if the products do not come out of order; and up to some
number of hours they always keep more exactly if its product in slots fits 64 bits. -/
theorem retention_monotone_iff (hours more : Nat) :
    (Widens hours more ↔ Ordered hours more) ∧
      ((∀ fewer most, fewer ≤ most → most ≤ more → Widens fewer most) ↔
        more * 18000 < u64Bound) := by
  refine ⟨widens_iff hours more, ?_⟩
  have fits : more * 18000 < u64Bound ↔ more < firstWrapped := by
    unfold u64Bound firstWrapped
    omega
  rw [fits]
  constructor
  · intro all
    by_contra wraps
    have widens := all (firstWrapped - 1) firstWrapped (Nat.sub_le _ _) (Nat.le_of_not_lt wraps)
    exact absurd ((widens_iff _ _).mp widens).1 (by decide)
  · intro below fewer most le within
    exact (widens_iff fewer most).mpr (ordered_of_lt le (Nat.lt_of_le_of_lt within below))

/-- Settings that are accepted keep for aeons less than for a day: a chunk that leaves the
window of the reader, and one that the writer removes within the hour. -/
theorem accepted_retention_shrinks :
    let texts : Texts :=
      { float := fun _ => "1"
        socketAddr := fun addr =>
          if addr = "0.0.0.0:10001" then none else some "invalid socket address syntax" }
    let settings : Settings :=
      { Settings.default with
        readerLocalRetentionHours := 1024819115206087
        uploaderLocalRetentionHours := 5124095576030432 }
    let old : ChunkKey := ⟨.tx, 0, 1000⟩
    let newest : ChunkKey := ⟨.tx, 99000, 100000⟩
    let marker := chunkFile 0 1000 "uploaded"
    let left (hours : Nat) : Dir :=
      (Uploader.sweepDir ⟨4, 3, hours⟩ (fun _ => some (3600 * 10 ^ 9))
        (FileStep.apply ∅ (.create marker)) [marker]).1
    settings.validate texts = .ok () ∧
      (old ∈ diffForSync ∅ [old, newest] Settings.default.readerLocalRetentionHours ∧
        old ∉ diffForSync ∅ [old, newest] settings.readerLocalRetentionHours) ∧
      (old ∉ evicted {old, newest} Settings.default.readerLocalRetentionHours ∧
        old ∈ evicted {old, newest} settings.readerLocalRetentionHours) ∧
      (Present (left Settings.default.uploaderLocalRetentionHours) marker ∧
        ¬ Present (left settings.uploaderLocalRetentionHours) marker) := by
  refine ⟨rfl, ?_, ?_, ?_⟩ <;> decide +kernel

end Retention

end Sillage
