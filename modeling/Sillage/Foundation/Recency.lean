import Mathlib.Algebra.GroupWithZero.Nat
import Sillage.Foundation.Lru
import Sillage.Foundation.Traced

/-!
# What a least-recently-used cache stands for

A cache stands for a list of rows from the one used last to the one used longest ago. Using
a key moves its row to the front, entering a key puts a row there, and eviction keeps the
longest prefix that fits the budget, and the first row in any case. The byte count, the keys
of the two maps and the order of the ticks follow from the rows.
-/

namespace Sillage.Lru

universe u v w
variable {κ : Type u} {ν : Type v}

/-- A key with its value and the tick of its last use. -/
structure Row (κ : Type u) (ν : Type v) where
  key : κ
  value : ν
  lastUsed : Nat

namespace Row

/-- The row's entry in the map. -/
def mapped (row : Row κ ν) : Sigma fun _ : κ => ν := ⟨row.key, row.value⟩

/-- The row's entry in the ticks. -/
def ticked (row : Row κ ν) : Sigma fun _ : κ => Nat := ⟨row.key, row.lastUsed⟩

end Row

section Rows

variable (size : ν → Nat)

/-- What the values of some rows take. -/
def total (rows : List (Row κ ν)) : Nat := (rows.map (fun row => size row.value)).sum

/-- The longest prefix that fits the room. -/
def fitting : Nat → List (Row κ ν) → List (Row κ ν)
  | _, [] => []
  | room, row :: rest =>
      if size row.value ≤ room then row :: fitting (room - size row.value) rest else []

/-- The rows that a budget leaves: the first one, and those behind it that fit with it. -/
def within (budget : Nat) : List (Row κ ν) → List (Row κ ν)
  | [] => []
  | row :: rest =>
      row :: if size row.value ≤ budget then fitting size (budget - size row.value) rest else []

/-- The rows were used one after the other, the first one last. -/
def Recent (rows : List (Row κ ν)) : Prop :=
  rows.Pairwise (fun row later => later.lastUsed < row.lastUsed)

/-- The rows used no earlier than at a tick. -/
def usedSince (tick : Nat) (rows : List (Row κ ν)) : List (Row κ ν) :=
  rows.filter (fun row => decide (tick ≤ row.lastUsed))

variable {size} {rows : List (Row κ ν)} {row : Row κ ν}

/-- No rows have no size. -/
@[simp] theorem total_nil : total size ([] : List (Row κ ν)) = 0 := rfl

/-- A row adds the size of its value. -/
@[simp] theorem total_cons (row : Row κ ν) (rows : List (Row κ ν)) :
    total size (row :: rows) = size row.value + total size rows := by
  simp [total]

/-- Sizes add up along the rows. -/
@[simp] theorem total_append (rows later : List (Row κ ν)) :
    total size (rows ++ later) = total size rows + total size later := by
  simp [total]

/-- Rows that fit are all kept. -/
theorem fitting_all {room : Nat} (fits : total size rows ≤ room) :
    fitting size room rows = rows := by
  induction rows generalizing room with
  | nil => rfl
  | cons row rest inductionHypothesis =>
    rw [total_cons] at fits
    rw [fitting, if_pos (by omega), inductionHypothesis (by omega)]

/-- A last row with which the rows do not fit makes no difference. -/
theorem fitting_concat {room : Nat} {last : Row κ ν}
    (exceeds : room < total size (rows ++ [last])) :
    fitting size room (rows ++ [last]) = fitting size room rows := by
  induction rows generalizing room with
  | nil =>
    have large : ¬ size last.value ≤ room := by simpa [total] using exceeds
    simp [fitting, large]
  | cons row rest inductionHypothesis =>
    rw [List.cons_append, total_cons] at exceeds
    rw [List.cons_append, fitting, fitting]
    split
    · rw [inductionHypothesis (by omega)]
    · rfl

/-- Rows that fit the budget are all kept. -/
theorem within_all {budget : Nat} (fits : total size rows ≤ budget) :
    within size budget rows = rows := by
  cases rows with
  | nil => rfl
  | cons row rest =>
    rw [total_cons] at fits
    rw [within, if_pos (by omega), fitting_all (by omega)]

/-- A row at the end is dropped while the rows exceed the budget. -/
theorem within_concat {budget : Nat} {last : Row κ ν}
    (exceeds : budget < total size (row :: rows ++ [last])) :
    within size budget (row :: rows ++ [last]) = within size budget (row :: rows) := by
  rw [List.cons_append, total_cons] at exceeds
  rw [List.cons_append, within, within]
  split
  · rw [fitting_concat (by omega)]
  · rfl

/-- A row is among those that fit exactly if the rows up to it fit. -/
theorem mem_fitting {room : Nat} (recent : Recent rows) :
    row ∈ fitting size room rows ↔
      row ∈ rows ∧ total size (usedSince row.lastUsed rows) ≤ room := by
  induction rows generalizing room with
  | nil => simp [fitting]
  | cons first rest inductionHypothesis =>
    obtain ⟨earlier, recent⟩ := List.pairwise_cons.mp recent
    have onlyFirst : usedSince first.lastUsed rest = [] := by
      refine List.filter_eq_nil_iff.mpr (fun other member => ?_)
      simpa using earlier other member
    have atFirst : total size (usedSince first.lastUsed (first :: rest)) = size first.value := by
      rw [usedSince, List.filter_cons_of_pos (by simp), total_cons, ← usedSince, onlyFirst]
      rfl
    have behind : row ∈ rest → total size (usedSince row.lastUsed (first :: rest)) =
        size first.value + total size (usedSince row.lastUsed rest) := by
      intro member
      have notLater : row.lastUsed ≤ first.lastUsed := Nat.le_of_lt (earlier row member)
      rw [usedSince, List.filter_cons_of_pos (by simpa using notLater), total_cons, usedSince]
    rw [fitting]
    split
    · next fits =>
      rw [List.mem_cons, List.mem_cons, inductionHypothesis recent]
      constructor
      · rintro (rfl | ⟨member, below⟩)
        · exact ⟨.inl rfl, atFirst ▸ fits⟩
        · rw [behind member]
          exact ⟨.inr member, by omega⟩
      · rintro ⟨rfl | member, below⟩
        · exact .inl rfl
        · rw [behind member] at below
          exact .inr ⟨member, by omega⟩
    · next exceeds =>
      constructor
      · intro member
        cases member
      · rintro ⟨member, below⟩
        rcases List.mem_cons.mp member with rfl | member
        · rw [atFirst] at below
          exact absurd below exceeds
        · rw [behind member] at below
          omega

/-- A budget leaves a row exactly if it is the first one or the rows up to it fit. -/
theorem mem_within {budget : Nat} {first : Row κ ν} (recent : Recent (first :: rows)) :
    row ∈ within size budget (first :: rows) ↔ row ∈ first :: rows ∧
      (row = first ∨ total size (usedSince row.lastUsed (first :: rows)) ≤ budget) := by
  have earlier := (List.pairwise_cons.mp recent).1
  have known := @mem_fitting κ ν size _ row budget recent
  rw [fitting] at known
  rw [within, List.mem_cons]
  by_cases same : row = first
  · simp [same]
  · split
    · next fits =>
      rw [if_pos fits, List.mem_cons] at known
      simp only [same, false_or] at known ⊢
      exact known
    · next exceeds =>
      rw [if_neg exceeds] at known
      simp only [same, false_or] at known ⊢
      exact known

/-- The rows that a budget leaves fit it, unless the first one alone does not. -/
theorem within_fits (budget : Nat) (rows : List (Row κ ν)) :
    total size (within size budget rows) ≤ budget ∨ (within size budget rows).length = 1 := by
  have fits : ∀ (rest : List (Row κ ν)) (room : Nat),
      total size (fitting size room rest) ≤ room := by
    intro rest
    induction rest with
    | nil => exact fun room => Nat.zero_le room
    | cons row rest inductionHypothesis =>
      intro room
      rw [fitting]
      split
      · have below := inductionHypothesis (room - size row.value)
        rw [total_cons]
        omega
      · exact Nat.zero_le room
  cases rows with
  | nil => exact .inl (Nat.zero_le budget)
  | cons row rest =>
    rw [within]
    split
    · have below := fits rest (budget - size row.value)
      rw [total_cons]
      exact .inl (by omega)
    · exact .inr rfl

end Rows

/-- The key chosen has the smallest tick. -/
theorem oldest_some {entries : List (Sigma fun _ : κ => Nat)} {key : κ} {tick : Nat}
    (chosen : oldest entries = some (key, tick)) :
    (⟨key, tick⟩ : Sigma fun _ : κ => Nat) ∈ entries ∧ ∀ entry ∈ entries, tick ≤ entry.2 := by
  induction entries generalizing key tick with
  | nil => cases chosen
  | cons first rest inductionHypothesis =>
    rw [oldest] at chosen
    split at chosen
    · next other earlier found =>
      obtain ⟨member, least⟩ := inductionHypothesis found
      split at chosen
      · next before =>
        cases chosen
        exact ⟨List.mem_cons_of_mem _ member,
          List.forall_mem_cons.mpr ⟨Nat.le_of_lt before, least⟩⟩
      · next notBefore =>
        cases chosen
        refine ⟨List.mem_cons_self, List.forall_mem_cons.mpr ⟨Nat.le_refl _, ?_⟩⟩
        exact fun entry isRest => Nat.le_trans (Nat.le_of_not_lt notBefore) (least entry isRest)
    · next found =>
      cases chosen
      refine ⟨List.mem_cons_self, List.forall_mem_cons.mpr ⟨Nat.le_refl _, ?_⟩⟩
      cases rest with
      | nil => exact fun entry member => by cases member
      | cons second rest =>
        rw [oldest] at found
        split at found
        · split at found <;> cases found
        · cases found

/-- There is a key to choose among any. -/
theorem oldest_isSome (first : Sigma fun _ : κ => Nat) (rest : List (Sigma fun _ : κ => Nat)) :
    ∃ chosen, oldest (first :: rest) = some chosen := by
  rw [oldest]
  split
  · split
    · exact ⟨_, rfl⟩
    · exact ⟨_, rfl⟩
  · exact ⟨_, rfl⟩

section Representation

variable [DecidableEq κ]

/-- A cache stands for rows: its maps have the rows' values and ticks, its byte count is what
the values take, and every tick given out is below the next one. -/
structure Cache.Represents (size : ν → Nat) (cache : Cache κ ν) (rows : List (Row κ ν)) :
    Prop where
  mapped : cache.map.entries.Perm (rows.map Row.mapped)
  ticked : cache.lastUsed.entries.Perm (rows.map Row.ticked)
  used : cache.used = total size rows
  recent : Recent rows
  below : ∀ row ∈ rows, row.lastUsed < cache.tick

/-- What holds of the two maps and the two counters whenever the lock is free. -/
structure Cache.Invariant (size : ν → Nat) (cache : Cache κ ν) : Prop where
  used : cache.used = (cache.map.entries.map (fun entry => size entry.2)).sum
  sameKeys : ∀ key, key ∈ cache.map ↔ key ∈ cache.lastUsed
  distinct : (cache.lastUsed.entries.map Sigma.snd).Nodup
  below : ∀ entry ∈ cache.lastUsed.entries, entry.2 < cache.tick

/-- What the values take whose keys were used no earlier than at a tick. -/
def Cache.since (size : ν → Nat) (cache : Cache κ ν) (tick : Nat) : Nat :=
  ((cache.map.entries.filter (fun entry =>
    (cache.lastUsed.lookup entry.1).any (fun used => decide (tick ≤ used)))).map
      (fun entry => size entry.2)).sum

variable {size : ν → Nat} {cache : Cache κ ν} {rows : List (Row κ ν)}

namespace Cache.Represents

/-- No key has two rows. -/
theorem keys_nodup (represents : cache.Represents size rows) : (rows.map Row.key).Nodup := by
  have keys : (cache.map.entries.map Sigma.fst).Perm ((rows.map Row.mapped).map Sigma.fst) :=
    represents.mapped.map Sigma.fst
  rw [List.map_map] at keys
  exact keys.nodup_iff.mp cache.map.keys_nodup

/-- The map has as many keys as there are rows. -/
theorem length_keys (represents : cache.Represents size rows) :
    cache.map.keys.length = rows.length := by
  have same := represents.mapped.length_eq
  rw [List.length_map] at same
  rw [AList.keys, List.keys, List.length_map, same]

/-- So has the table of last uses. -/
theorem length_ticks (represents : cache.Represents size rows) :
    cache.lastUsed.keys.length = rows.length := by
  have same := represents.ticked.length_eq
  rw [List.length_map] at same
  rw [AList.keys, List.keys, List.length_map, same]

/-- A key maps to the value of its row. -/
theorem lookup_map (represents : cache.Represents size rows) (key : κ) (value : ν) :
    cache.map.lookup key = some value ↔ ∃ row ∈ rows, row.key = key ∧ row.value = value := by
  rw [← Option.mem_def, AList.mem_lookup_iff, represents.mapped.mem_iff, List.mem_map]
  constructor
  · rintro ⟨row, member, same⟩
    cases same
    exact ⟨row, member, rfl, rfl⟩
  · rintro ⟨row, member, rfl, rfl⟩
    exact ⟨row, member, rfl⟩

/-- A key was used last at the tick of its row. -/
theorem lookup_lastUsed (represents : cache.Represents size rows) (key : κ) (tick : Nat) :
    cache.lastUsed.lookup key = some tick ↔ ∃ row ∈ rows, row.key = key ∧ row.lastUsed = tick := by
  rw [← Option.mem_def, AList.mem_lookup_iff, represents.ticked.mem_iff, List.mem_map]
  constructor
  · rintro ⟨row, member, same⟩
    cases same
    exact ⟨row, member, rfl, rfl⟩
  · rintro ⟨row, member, rfl, rfl⟩
    exact ⟨row, member, rfl⟩

/-- A row is known by its key. -/
theorem row_unique (represents : cache.Represents size rows) {row other : Row κ ν}
    (member : row ∈ rows) (isMember : other ∈ rows) (same : row.key = other.key) : row = other :=
  List.inj_on_of_nodup_map represents.keys_nodup member isMember same

/-- The keys of the map are those of the rows. -/
theorem mem_map (represents : cache.Represents size rows) (key : κ) :
    key ∈ cache.map ↔ ∃ row ∈ rows, row.key = key := by
  rw [← AList.lookup_isSome, Option.isSome_iff_exists]
  simp only [represents.lookup_map]
  constructor
  · rintro ⟨value, row, member, same, -⟩
    exact ⟨row, member, same⟩
  · rintro ⟨row, member, same⟩
    exact ⟨row.value, row, member, same, rfl⟩

/-- So are the keys of the table of last uses. -/
theorem mem_lastUsed (represents : cache.Represents size rows) (key : κ) :
    key ∈ cache.lastUsed ↔ ∃ row ∈ rows, row.key = key := by
  rw [← AList.lookup_isSome, Option.isSome_iff_exists]
  simp only [represents.lookup_lastUsed]
  constructor
  · rintro ⟨tick, row, member, same, -⟩
    exact ⟨row, member, same⟩
  · rintro ⟨row, member, same⟩
    exact ⟨row.lastUsed, row, member, same, rfl⟩

/-- A cache that stands for rows is as it has to be while the lock is free. -/
theorem invariant (represents : cache.Represents size rows) : cache.Invariant size where
  used := by
    have same := (represents.mapped.map (fun entry => size entry.2)).sum_nat
    rw [List.map_map] at same
    rw [represents.used, same]
    rfl
  sameKeys key := (represents.mem_map key).trans (represents.mem_lastUsed key).symm
  distinct := by
    have ticks : (cache.lastUsed.entries.map Sigma.snd).Perm
        ((rows.map Row.ticked).map Sigma.snd) := represents.ticked.map Sigma.snd
    rw [List.map_map] at ticks
    refine ticks.nodup_iff.mpr (List.pairwise_map.mpr ?_)
    exact represents.recent.imp (fun earlier => (Nat.ne_of_lt earlier).symm)
  below entry member := by
    obtain ⟨row, isRow, rfl⟩ := List.mem_map.mp (represents.ticked.mem_iff.mp member)
    exact represents.below row isRow

/-- What was used since a tick is what the rows used since then take. -/
theorem since_eq (represents : cache.Represents size rows) (tick : Nat) :
    cache.since size tick = total size (usedSince tick rows) := by
  have same := ((represents.mapped.filter (fun entry =>
    (cache.lastUsed.lookup entry.1).any (fun used => decide (tick ≤ used)))).map
      (fun entry => size entry.2)).sum_nat
  rw [List.filter_map, List.map_map] at same
  rw [Cache.since, same, total, usedSince]
  congr 2
  refine List.filter_congr (fun row member => ?_)
  have found : cache.lastUsed.lookup row.key = some row.lastUsed :=
    (represents.lookup_lastUsed row.key row.lastUsed).mpr ⟨row, member, rfl, rfl⟩
  simp [Row.mapped, found]

/-- What a mapped value takes is part of the byte count, so that it can be taken off. -/
theorem size_le (represents : cache.Represents size rows) {key : κ} {value : ν}
    (found : cache.map.lookup key = some value) : size value ≤ cache.used := by
  obtain ⟨row, member, -, rfl⟩ := (represents.lookup_map key value).mp found
  obtain ⟨before, after, rfl⟩ := List.append_of_mem member
  rw [represents.used, total_append, total_cons]
  omega

end Cache.Represents

/-! ## What the operations do to the rows -/

/-- A new cache has no rows. -/
theorem represents_new : (Cache.new : Cache κ ν).Represents size [] where
  mapped := .nil
  ticked := .nil
  used := rfl
  recent := .nil
  below row member := by cases member

/-- Erasing the key of a row from entries in which it occurs once. -/
theorem kerase_row {β : Type w} (entry : Row κ ν → Sigma fun _ : κ => β)
    (sameKey : ∀ row, (entry row).1 = row.key) {before after : List (Row κ ν)} {row : Row κ ν}
    (distinct : ((before ++ row :: after).map Row.key).Nodup) :
    List.kerase row.key ((before ++ row :: after).map entry) = (before ++ after).map entry := by
  have notBefore : row.key ∉ (before.map entry).keys := by
    intro member
    rw [List.keys, List.map_map] at member
    obtain ⟨other, isBefore, same⟩ := List.mem_map.mp member
    rw [Function.comp_apply, sameKey] at same
    rw [List.map_append, List.map_cons] at distinct
    have apart := (List.nodup_append.mp distinct).2.2 other.key (List.mem_map_of_mem isBefore)
      row.key List.mem_cons_self
    exact apart same
  rw [List.map_append, List.map_cons, List.kerase_append_right notBefore,
    List.kerase_cons_eq (sameKey row).symm, List.map_append]

/-- A use moves the row of its key to the front. -/
theorem represents_touch {before after : List (Row κ ν)} {row : Row κ ν}
    (represents : cache.Represents size (before ++ row :: after)) :
    (cache.touch row.key).Represents size
      ({ row with lastUsed := cache.tick } :: (before ++ after)) where
  mapped := by
    refine represents.mapped.trans ?_
    rw [List.map_append, List.map_cons, List.map_cons, List.map_append]
    exact List.perm_middle
  ticked := by
    have moved := represents.ticked.kinsert (a := row.key) (b := cache.tick)
      cache.lastUsed.nodupKeys
    rw [List.kinsert_def, List.kinsert_def,
      kerase_row Row.ticked (fun _ => rfl) represents.keys_nodup] at moved
    exact moved
  used := by
    have used := represents.used
    have same : (cache.touch row.key).used = cache.used := rfl
    simp only [total_append, total_cons] at used ⊢
    omega
  recent := by
    refine List.pairwise_cons.mpr ⟨fun other member => represents.below other ?_, ?_⟩
    · rcases List.mem_append.mp member with member | member
      · exact List.mem_append_left _ member
      · exact List.mem_append_right _ (List.mem_cons_of_mem _ member)
    · exact represents.recent.sublist
        (List.Sublist.append_left (List.sublist_cons_self row after) before)
  below other member := by
    rcases List.mem_cons.mp member with rfl | member
    · exact Nat.lt_succ_self cache.tick
    · refine Nat.lt_succ_of_lt (represents.below other ?_)
      rcases List.mem_append.mp member with member | member
      · exact List.mem_append_left _ member
      · exact List.mem_append_right _ (List.mem_cons_of_mem _ member)

/-- The cache with a new entry, before anything is evicted for it. -/
def Cache.enter (size : ν → Nat) (cache : Cache κ ν) (key : κ) (value : ν) : Cache κ ν :=
  let touched := cache.touch key
  { touched with map := touched.map.insert key value, used := touched.used + size value }

/-- A new entry comes before the rows. -/
theorem represents_enter (represents : cache.Represents size rows) {key : κ} (value : ν)
    (absent : key ∉ cache.map) :
    (cache.enter size key value).Represents size (⟨key, value, cache.tick⟩ :: rows) where
  mapped := by
    have same : (cache.enter size key value).map.entries = ⟨key, value⟩ :: cache.map.entries :=
      AList.entries_insert_of_notMem absent
    rw [same]
    exact represents.mapped.cons _
  ticked := by
    have unused : key ∉ cache.lastUsed :=
      fun member => absent ((represents.invariant.sameKeys key).mpr member)
    have same : (cache.enter size key value).lastUsed.entries =
        ⟨key, cache.tick⟩ :: cache.lastUsed.entries :=
      AList.entries_insert_of_notMem unused
    rw [same]
    exact represents.ticked.cons _
  used := by
    rw [total_cons, ← represents.used, Nat.add_comm]
    rfl
  recent := List.pairwise_cons.mpr ⟨represents.below, represents.recent⟩
  below other member := by
    rcases List.mem_cons.mp member with rfl | member
    · exact Nat.lt_succ_self cache.tick
    · exact Nat.lt_succ_of_lt (represents.below other member)

/-- Dropping the key of the last row takes that row away. -/
theorem represents_drop {last : Row κ ν} (represents : cache.Represents size (rows ++ [last])) :
    (cache.drop size last.key).Represents size rows where
  mapped := by
    have left := represents.mapped.kerase (a := last.key) cache.map.nodupKeys
    rw [kerase_row Row.mapped (fun _ => rfl) represents.keys_nodup, List.append_nil] at left
    exact left
  ticked := by
    have left := represents.ticked.kerase (a := last.key) cache.lastUsed.nodupKeys
    rw [kerase_row Row.ticked (fun _ => rfl) represents.keys_nodup, List.append_nil] at left
    exact left
  used := by
    have used := represents.used
    have found : cache.map.lookup last.key = some last.value :=
      (represents.lookup_map last.key last.value).mpr ⟨last, by simp, rfl, rfl⟩
    simp only [total_append, total_cons, total_nil] at used
    simp only [Cache.drop, found]
    omega
  recent := represents.recent.sublist (List.sublist_append_left rows [last])
  below other member := represents.below other (List.mem_append_left _ member)

/-- The key chosen for eviction is that of the last row. -/
theorem oldest_last {last : Row κ ν} (represents : cache.Represents size (rows ++ [last])) :
    oldest cache.lastUsed.entries = some (last.key, last.lastUsed) := by
  have held : last.ticked ∈ cache.lastUsed.entries :=
    represents.ticked.mem_iff.mpr (List.mem_map_of_mem (by simp))
  obtain ⟨⟨key, tick⟩, chosen⟩ : ∃ chosen, oldest cache.lastUsed.entries = some chosen := by
    rcases entries : cache.lastUsed.entries with _ | ⟨first, rest⟩
    · rw [entries] at held
      cases held
    · exact oldest_isSome first rest
  obtain ⟨member, least⟩ := oldest_some chosen
  obtain ⟨row, isRow, same⟩ := List.mem_map.mp (represents.ticked.mem_iff.mp member)
  cases same
  rcases List.mem_append.mp isRow with isBefore | isLast
  · have later := (List.pairwise_append.mp represents.recent).2.2 row isBefore last (by simp)
    exact absurd (least last.ticked held) (Nat.not_le_of_lt later)
  · rw [List.mem_singleton] at isLast
    rw [chosen, isLast]

/-! ## Eviction -/

/-- One round of the eviction loop: the budget is kept or one row is left, and the loop is
over; or the last row goes. -/
theorem evictLoop_step (budget : Nat) {first : Row κ ν}
    (represents : cache.Represents size (first :: rows)) :
    ((cache.used ≤ budget ∨ rows = []) ∧ ∀ fuel, evictLoop size budget fuel cache = cache) ∨
    ∃ others last, rows = others ++ [last] ∧ budget < cache.used ∧
      (cache.drop size last.key).Represents size (first :: others) ∧
      ∀ fuel, evictLoop size budget (fuel + 1) cache =
        evictLoop size budget fuel (cache.drop size last.key) := by
  have count : cache.map.keys.length = rows.length + 1 := represents.length_keys
  rcases List.eq_nil_or_concat' rows with rfl | ⟨others, last, rfl⟩
  · refine .inl ⟨.inr rfl, fun fuel => ?_⟩
    cases fuel with
    | zero => rfl
    | succ fuel => rw [evictLoop, if_neg (by simp [count])]
  · by_cases exceeds : budget < cache.used
    · refine .inr ⟨others, last, rfl, exceeds, represents_drop represents, fun fuel => ?_⟩
      have many : 1 < cache.map.keys.length := by
        rw [count, List.length_append]
        simp
      have whole : cache.Represents size ((first :: others) ++ [last]) := represents
      have chosen : oldest cache.lastUsed.entries = some (last.key, last.lastUsed) :=
        oldest_last whole
      rw [evictLoop, if_pos ⟨exceeds, many⟩, chosen]
    · refine .inl ⟨.inl (Nat.le_of_not_lt exceeds), fun fuel => ?_⟩
      cases fuel with
      | zero => rfl
      | succ fuel => rw [evictLoop, if_neg (fun more => exceeds more.1)]

/-- After any number of rounds the cache stands for the first row and some behind it. -/
theorem evictLoop_represents (budget fuel : Nat) {first : Row κ ν}
    (represents : cache.Represents size (first :: rows)) :
    ∃ others, (evictLoop size budget fuel cache).Represents size (first :: others) := by
  induction fuel generalizing cache rows with
  | zero => exact ⟨rows, represents⟩
  | succ fuel inductionHypothesis =>
    rcases evictLoop_step budget represents with
      ⟨-, finished⟩ | ⟨others, last, -, -, dropped, goesOn⟩
    · rw [finished]
      exact ⟨rows, represents⟩
    · rw [goesOn]
      exact inductionHypothesis dropped

/-- With as many rounds as there are rows, what the budget leaves is left. -/
theorem evictLoop_within (budget fuel : Nat) {first : Row κ ν}
    (represents : cache.Represents size (first :: rows)) (enough : rows.length + 1 ≤ fuel) :
    (evictLoop size budget fuel cache).Represents size (within size budget (first :: rows)) := by
  induction fuel generalizing cache rows with
  | zero => cases enough
  | succ fuel inductionHypothesis =>
    rcases evictLoop_step budget represents with
      ⟨kept, finished⟩ | ⟨others, last, rfl, exceeds, dropped, goesOn⟩
    · rw [finished]
      rcases kept with fits | rfl
      · rwa [within_all (represents.used ▸ fits)]
      · have alone : within size budget [first] = [first] := by
          rw [within]
          split <;> rfl
        rwa [alone]
    · rw [goesOn, ← List.cons_append, within_concat (represents.used ▸ exceeds)]
      refine inductionHypothesis dropped ?_
      rw [List.length_append, List.length_singleton] at enough
      exact Nat.le_of_succ_le_succ enough

/-- Rounds beyond the number of rows change nothing. -/
theorem evictLoop_over (budget : Nat) {fuel more : Nat} {first : Row κ ν}
    (represents : cache.Represents size (first :: rows)) (enough : rows.length + 1 ≤ fuel)
    (noFewer : fuel ≤ more) :
    evictLoop size budget more cache = evictLoop size budget fuel cache := by
  induction fuel generalizing cache rows more with
  | zero => cases enough
  | succ fuel inductionHypothesis =>
    obtain ⟨more, rfl⟩ : ∃ others, more = others + 1 := ⟨more - 1, by omega⟩
    rcases evictLoop_step budget represents with
      ⟨-, finished⟩ | ⟨others, last, rfl, -, dropped, goesOn⟩
    · rw [finished, finished]
    · rw [goesOn, goesOn]
      rw [List.length_append, List.length_singleton] at enough
      exact inductionHypothesis dropped (Nat.le_of_succ_le_succ enough)
        (Nat.le_of_succ_le_succ noFewer)

end Representation

end Sillage.Lru
