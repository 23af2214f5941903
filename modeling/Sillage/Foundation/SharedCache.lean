import Sillage.Foundation.Recency

/-!
# A cache that many callers share

Any number of accesses are under way at a time. Each goes through its parts, a lookup, a load
and a store, and the parts of different accesses come in any order. The lock makes a lookup
and a store one step each; a load takes place outside of it and brings whatever the file
holds at that moment.
-/

namespace Sillage.Lru

variable {κ ν ε : Type}

/-- How an access stands: before one of its parts, or at its end with what it returned. -/
inductive Standing (ν ε : Type) where
  | before (phase : Phase ν)
  | ended (result : Except ε ν)

/-- An access to a key by some caller. -/
structure Access (κ ν ε : Type) where
  key : κ
  standing : Standing ν ε

/-- The access has returned a value. -/
def Access.returned (access : Access κ ν ε) : Bool :=
  match access.standing with
  | .ended (.ok _) => true
  | _ => false

/-- How many accesses have returned when one that has not is moved on. -/
theorem returned_set {accesses : List (Access κ ν ε)} {k : Nat} {access access' : Access κ ν ε}
    (found : accesses[k]? = some access) (notYet : access.returned = false) :
    ((accesses.set k access').filter Access.returned).length =
      (accesses.filter Access.returned).length + ([access'].filter Access.returned).length := by
  obtain ⟨inside, here⟩ := List.getElem?_eq_some_iff.mp found
  obtain ⟨before, after, whole, -, changed⟩ := @List.exists_of_set _ k access' accesses inside
  have skipped : (access :: after).filter Access.returned = after.filter Access.returned :=
    List.filter_cons_of_neg (by simp [notYet])
  rw [here] at whole
  rw [changed, whole, List.filter_append, List.filter_append, skipped, ← List.singleton_append,
    List.filter_append]
  simp only [List.length_append]
  omega

variable [DecidableEq κ]

/-- The cache and the accesses to it, in the order in which they began. -/
structure Shared (κ ν ε : Type) [DecidableEq κ] where
  cache : Cache κ ν
  accesses : List (Access κ ν ε)

/-- What can happen next: a caller begins an access, or one goes through its next part. What
a load would bring is what the caller's file holds then. -/
inductive Act (κ ν ε : Type) where
  | begins (key : κ)
  | part (k : Nat) (load : Except ε ν)

/-- How an access stands after a part. -/
def Standing.after : Except ε (Advance ν) → Standing ν ε
  | .ok (.returns value) => .ended (.ok value)
  | .ok (.goesOn phase) => .before phase
  | .error error => .ended (.error error)

namespace Shared

/-- An empty cache that nobody has accessed. -/
def fresh : Shared κ ν ε := { cache := Cache.new, accesses := [] }

/-- One act, if it can take place. -/
def act (size : ν → Nat) (budget : Nat) (s : Shared κ ν ε) : Act κ ν ε → Option (Shared κ ν ε)
  | .begins key => some { s with accesses := s.accesses ++ [⟨key, .before .lookup⟩] }
  | .part k load =>
      match s.accesses[k]? with
      | some ⟨key, .before phase⟩ =>
          let (result, cache) := s.cache.advance size budget key load phase
          some { cache, accesses := s.accesses.set k ⟨key, .after result⟩ }
      | _ => none

/-- An act that takes place. -/
def Step (size : ν → Nat) (budget : Nat) (s : Shared κ ν ε) (a : Act κ ν ε)
    (s' : Shared κ ν ε) : Prop :=
  s.act size budget a = some s'

end Shared

/-- What the store of a key does that the cache has not: the budget is kept or one entry is
left, and the new entry is there. The other entries are left as long as they fit the budget
together with all that was used no earlier, and their ticks stay. The loop comes to this end
after at most one round for each entry, and in each round the bytes taken off are there. -/
structure Inserts (size : ν → Nat) (budget : Nat) (cache : Cache κ ν) (key : κ) (value : ν)
    (after : Cache κ ν) : Prop where
  bounded : after.used ≤ budget ∨ after.map.keys.length = 1
  inserted : after.map.lookup key = some value
  kept : ∀ other held, after.map.lookup other = some held ↔
    (cache.enter size key value).map.lookup other = some held ∧
      (other = key ∨ ∃ tick, (cache.enter size key value).lastUsed.lookup other = some tick ∧
        (cache.enter size key value).since size tick ≤ budget)
  ticks : ∀ other ∈ after.map,
    after.lastUsed.lookup other = (cache.enter size key value).lastUsed.lookup other
  rounds : ∀ n, (evictLoop size budget n (cache.enter size key value)).Invariant size ∧
    ∀ other held, (evictLoop size budget n (cache.enter size key value)).map.lookup other =
      some held → size held ≤ (evictLoop size budget n (cache.enter size key value)).used
  ends : ∀ n, cache.map.keys.length + 1 ≤ n →
    evictLoop size budget n (cache.enter size key value) = after

/-- What holds of a cache that callers share, whenever the lock is free: the invariant, a tick
for each access that has returned a value, and what the next part of any access does. A key
that the cache has is returned as it is there and only used once more; the store of another
one inserts it. -/
structure Shared.Sound (size : ν → Nat) (budget : Nat) (s : Shared κ ν ε) : Prop where
  invariant : s.cache.Invariant size
  tick : s.cache.tick = (s.accesses.filter Access.returned).length
  hit : ∀ key phase (load : Except ε ν) found, s.cache.map.lookup key = some found → phase ≠ .load →
    s.cache.advance size budget key load phase = (.ok (.returns found), s.cache.touch key)
  miss : ∀ key (load : Except ε ν), s.cache.map.lookup key = none →
    s.cache.advance size budget key load .lookup = (.ok (.goesOn .load), s.cache)
  loading : ∀ key (load : Except ε ν), (s.cache.advance size budget key load .load).2 = s.cache
  insertion : ∀ key value (load : Except ε ν), s.cache.map.lookup key = none → ∃ after,
    s.cache.advance size budget key load (.store value) = (.ok (.returns value), after) ∧
      Inserts size budget s.cache key value after

variable {size : ν → Nat} {budget : Nat} {cache : Cache κ ν} {rows : List (Row κ ν)}

/-- A key that is mapped is a hit, and counts as used. -/
theorem hit_some {key : κ} {found : ν} (mapped : cache.map.lookup key = some found) :
    cache.hit key = some (found, cache.touch key) := by
  rw [Cache.hit, mapped, Option.map_some]

/-- A key that is not mapped is no hit. -/
theorem hit_none {key : κ} (absent : cache.map.lookup key = none) : cache.hit key = none := by
  rw [Cache.hit, absent, Option.map_none]

/-- A value whose key is not mapped enters the cache, and others may be evicted for it. -/
theorem store_absent {key : κ} (value : ν) (absent : cache.map.lookup key = none) :
    cache.store size budget key value =
      (value, (cache.enter size key value).evict size budget) := by
  rw [Cache.store, hit_none absent]
  rfl

/-- A use of a key that the cache has keeps a cache standing for rows. -/
theorem represents_hit (represents : cache.Represents size rows) {key : κ} {found : ν}
    (mapped : cache.map.lookup key = some found) :
    ∃ rows', (cache.touch key).Represents size rows' := by
  obtain ⟨row, member, rfl, -⟩ := (represents.lookup_map key found).mp mapped
  obtain ⟨before, after, rfl⟩ := List.append_of_mem member
  exact ⟨_, represents_touch represents⟩

/-- After a new entry and the eviction for it, what the budget leaves is left. -/
theorem represents_evict (represents : cache.Represents size rows) {key : κ} (value : ν)
    (absent : cache.map.lookup key = none) :
    ((cache.enter size key value).evict size budget).Represents size
      (within size budget (⟨key, value, cache.tick⟩ :: rows)) := by
  have entered := represents_enter represents value (AList.lookup_eq_none.mp absent)
  refine evictLoop_within budget _ entered ?_
  rw [entered.length_ticks, List.length_cons]

/-- The store of a key that the cache has not. -/
theorem inserts_of_represents (represents : cache.Represents size rows) {key : κ} (value : ν)
    (absent : cache.map.lookup key = none) :
    Inserts size budget cache key value ((cache.enter size key value).evict size budget) := by
  have entered := represents_enter represents value (AList.lookup_eq_none.mp absent)
  have left : ((cache.enter size key value).evict size budget).Represents size
      (within size budget (⟨key, value, cache.tick⟩ :: rows)) :=
    represents_evict represents value absent
  have isLeft : ∀ row, row ∈ within size budget (⟨key, value, cache.tick⟩ :: rows) ↔ _ :=
    fun row => mem_within entered.recent
  constructor
  case bounded =>
    rw [left.used, left.length_keys]
    exact within_fits budget _
  case inserted =>
    refine (left.lookup_map key value).mpr ⟨⟨key, value, cache.tick⟩, ?_, rfl, rfl⟩
    exact (isLeft _).mpr ⟨List.mem_cons_self, .inl rfl⟩
  case kept =>
    intro other held
    rw [left.lookup_map, entered.lookup_map]
    constructor
    · rintro ⟨row, member, rfl, rfl⟩
      obtain ⟨isRow, isFirst | fits⟩ := (isLeft row).mp member
      · exact ⟨⟨row, isRow, rfl, rfl⟩, .inl (congrArg Row.key isFirst)⟩
      · refine ⟨⟨row, isRow, rfl, rfl⟩, .inr ⟨row.lastUsed, ?_, ?_⟩⟩
        · exact (entered.lookup_lastUsed _ _).mpr ⟨row, isRow, rfl, rfl⟩
        · rwa [entered.since_eq]
    · rintro ⟨⟨row, isRow, rfl, rfl⟩, isNew | ⟨tick, used, fits⟩⟩
      · have isFirst := entered.row_unique isRow List.mem_cons_self isNew
        exact ⟨row, (isLeft row).mpr ⟨isRow, .inl isFirst⟩, rfl, rfl⟩
      · obtain ⟨sameRow, isSame, sameKey, rfl⟩ := (entered.lookup_lastUsed _ _).mp used
        obtain rfl := entered.row_unique isSame isRow sameKey
        rw [entered.since_eq] at fits
        exact ⟨sameRow, (isLeft sameRow).mpr ⟨isRow, .inr fits⟩, rfl, rfl⟩
  case ticks =>
    intro other member
    obtain ⟨row, isRow, rfl⟩ := (left.mem_map other).mp member
    rw [(left.lookup_lastUsed row.key row.lastUsed).mpr ⟨row, isRow, rfl, rfl⟩,
      (entered.lookup_lastUsed row.key row.lastUsed).mpr ⟨row, ((isLeft row).mp isRow).1, rfl, rfl⟩]
  case rounds =>
    intro n
    obtain ⟨others, here⟩ := evictLoop_represents budget n entered
    exact ⟨here.invariant, fun other held found => here.size_le found⟩
  case ends =>
    intro n enough
    rw [represents.length_keys] at enough
    have ticks : (cache.enter size key value).lastUsed.keys.length = rows.length + 1 :=
      entered.length_ticks
    rw [Cache.evict, ticks]
    exact evictLoop_over budget entered (Nat.le_refl _) enough

/-! ## Runs -/

/-- The cache stands for some rows, and each access that has returned a value took a tick. -/
structure Shared.Represented (size : ν → Nat) (s : Shared κ ν ε) : Prop where
  represents : ∃ rows, s.cache.Represents size rows
  tick : s.cache.tick = (s.accesses.filter Access.returned).length

/-- Eviction uses no tick. -/
theorem evictLoop_tick (fuel : Nat) (cache : Cache κ ν) :
    (evictLoop size budget fuel cache).tick = cache.tick := by
  induction fuel generalizing cache with
  | zero => rfl
  | succ fuel inductionHypothesis =>
    rw [evictLoop]
    split
    · split
      · exact inductionHypothesis _
      · rfl
    · rfl

/-- A part of an access keeps a cache standing for rows, and takes a tick exactly if it
returns a value. -/
theorem advance_represents (represents : cache.Represents size rows) (key : κ)
    (load : Except ε ν) (phase : Phase ν) {result : Except ε (Advance ν)} {after : Cache κ ν}
    (done : cache.advance size budget key load phase = (result, after)) :
    (∃ rows', after.Represents size rows') ∧
      after.tick = cache.tick +
        ([(⟨key, .after result⟩ : Access κ ν ε)].filter Access.returned).length := by
  cases phase with
  | lookup =>
    rw [Cache.advance] at done
    cases mapped : cache.map.lookup key with
    | none =>
      rw [hit_none mapped] at done
      cases done
      exact ⟨⟨rows, represents⟩, rfl⟩
    | some found =>
      rw [hit_some mapped] at done
      cases done
      exact ⟨represents_hit represents mapped, rfl⟩
  | load =>
    cases done
    cases load with
    | error error => exact ⟨⟨rows, represents⟩, rfl⟩
    | ok value => exact ⟨⟨rows, represents⟩, rfl⟩
  | store value =>
    rw [Cache.advance] at done
    cases mapped : cache.map.lookup key with
    | none =>
      rw [store_absent value mapped] at done
      cases done
      exact ⟨⟨_, represents_evict represents value mapped⟩, evictLoop_tick _ _⟩
    | some found =>
      rw [Cache.store, hit_some mapped] at done
      cases done
      exact ⟨represents_hit represents mapped, rfl⟩

/-- A part of an access is done on the cache and moves that access on. -/
theorem act_part {s s' : Shared κ ν ε} {k : Nat} {load : Except ε ν}
    (done : s.act size budget (.part k load) = some s') :
    ∃ key phase result cache, s.accesses[k]? = some ⟨key, .before phase⟩ ∧
      s.cache.advance size budget key load phase = (result, cache) ∧
      s' = { cache, accesses := s.accesses.set k ⟨key, .after result⟩ } := by
  rw [Shared.act] at done
  split at done
  · next key phase found =>
    refine ⟨key, phase, (s.cache.advance size budget key load phase).1,
      (s.cache.advance size budget key load phase).2, found, rfl, ?_⟩
    exact (Option.some.inj done).symm
  · cases done

/-- An act keeps the cache standing for rows, with a tick for each access that has returned. -/
theorem represented_step {s s' : Shared κ ν ε} {a : Act κ ν ε} (represented : s.Represented size)
    (step : s.Step size budget a s') : s'.Represented size := by
  obtain ⟨⟨rows, represents⟩, tick⟩ := represented
  cases a with
  | begins key =>
    cases step
    refine ⟨⟨rows, represents⟩, ?_⟩
    rw [List.filter_append, List.length_append]
    exact tick
  | part k load =>
    obtain ⟨key, phase, result, cache, found, done, rfl⟩ := act_part step
    obtain ⟨represents', taken⟩ := advance_represents represents key load phase done
    refine ⟨represents', ?_⟩
    rw [returned_set found rfl, taken, tick]

/-- A cache that stands for rows is sound. -/
theorem Shared.Represented.sound {s : Shared κ ν ε} (represented : s.Represented size)
    (budget : Nat) : s.Sound size budget := by
  obtain ⟨⟨rows, represents⟩, tick⟩ := represented
  constructor
  case invariant => exact represents.invariant
  case tick => exact tick
  case hit =>
    intro key phase load found mapped notLoad
    cases phase with
    | lookup => rw [Cache.advance, hit_some mapped]
    | load => exact absurd rfl notLoad
    | store value => rw [Cache.advance, Cache.store, hit_some mapped]
  case miss =>
    intro key load absent
    rw [Cache.advance, hit_none absent]
  case loading => exact fun key load => rfl
  case insertion =>
    intro key value load absent
    refine ⟨(s.cache.enter size key value).evict size budget, ?_, ?_⟩
    · rw [Cache.advance, store_absent value absent]
    · exact inserts_of_represents represents value absent

/-- Whatever callers do in whatever order, the cache that they share is sound after each act. -/
theorem sound_of_path {moments : List (Act κ ν ε × Shared κ ν ε)} {last : Shared κ ν ε}
    (path : Path (Shared.Step size budget) Shared.fresh moments last) :
    last.Sound size budget ∧ ∀ moment ∈ moments, moment.2.Sound size budget := by
  have begun : (Shared.fresh : Shared κ ν ε).Represented size := ⟨⟨[], represents_new⟩, rfl⟩
  have kept : ∀ (s : Shared κ ν ε) (act : Act κ ν ε) (s' : Shared κ ν ε),
      s.Represented size → Shared.Step size budget s act s' → s'.Represented size :=
    fun _ _ _ represented step => represented_step represented step
  obtain ⟨atEnd, along⟩ := path.invariant kept begun
  exact ⟨atEnd.sound budget, fun moment member => (along moment member).sound budget⟩

end Sillage.Lru
