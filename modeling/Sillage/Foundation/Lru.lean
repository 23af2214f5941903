import Mathlib.Data.List.AList

/-!
# A byte-budgeted least-recently-used cache

The cache maps keys to values and remembers for each key the tick of its last
use. A lookup is one critical section; storing a freshly loaded value and
evicting down to the budget is another. Loading happens between the two, so that
the second section looks the key up again.

Eviction removes the key with the smallest tick while the budget is exceeded and
more than one entry is held. Every iteration drops a key from the ticks, which
bounds the number of iterations by their count.
-/

namespace Sillage.Lru

universe u v
variable {κ : Type u} {ν : Type v} [DecidableEq κ] {ε : Type}

/-- The state behind the cache's lock. -/
structure Cache (κ : Type u) (ν : Type v) [DecidableEq κ] where
  map : AList (fun _ : κ => ν)
  used : Nat
  tick : Nat
  lastUsed : AList (fun _ : κ => Nat)

/-- A cache that holds nothing. -/
def Cache.new : Cache κ ν := { map := ∅, used := 0, tick := 0, lastUsed := ∅ }

/-- Record a use of a key at the current tick. -/
def Cache.touch (cache : Cache κ ν) (key : κ) : Cache κ ν :=
  { cache with tick := cache.tick + 1, lastUsed := cache.lastUsed.insert key cache.tick }

/-- First critical section: a hit refreshes the key and returns its value. -/
def Cache.hit (cache : Cache κ ν) (key : κ) : Option (ν × Cache κ ν) :=
  (cache.map.lookup key).map (fun value => (value, cache.touch key))

/-- The entry with the smallest tick, the first of them in iteration order. -/
def oldest : List (Sigma fun _ : κ => Nat) → Option (κ × Nat)
  | [] => none
  | ⟨key, tick⟩ :: rest =>
      match oldest rest with
      | some (other, earlier) => if earlier < tick then some (other, earlier) else some (key, tick)
      | none => some (key, tick)

/-- Remove one key, giving back the bytes of the value it mapped to. -/
def Cache.drop (size : ν → Nat) (cache : Cache κ ν) (key : κ) : Cache κ ν :=
  { cache with
    map := cache.map.erase key
    lastUsed := cache.lastUsed.erase key
    used := match cache.map.lookup key with
      | some value => cache.used - size value
      | none => cache.used }

/-- Evict while the budget is exceeded and more than one entry is held. -/
def evictLoop (size : ν → Nat) (budget : Nat) : Nat → Cache κ ν → Cache κ ν
  | 0, cache => cache
  | fuel + 1, cache =>
      if budget < cache.used ∧ 1 < cache.map.keys.length then
        match oldest cache.lastUsed.entries with
        | some (key, _) => evictLoop size budget fuel (cache.drop size key)
        | none => cache
      else cache

/-- The eviction loop with as many iterations as there are ticks to drop. -/
def Cache.evict (size : ν → Nat) (budget : Nat) (cache : Cache κ ν) : Cache κ ν :=
  evictLoop size budget cache.lastUsed.keys.length cache

/-- Second critical section: another caller may have stored the key meanwhile,
in which case its value is returned; otherwise the loaded value is stored and
the cache is evicted down to the budget. -/
def Cache.store (size : ν → Nat) (budget : Nat) (cache : Cache κ ν) (key : κ) (value : ν) :
    ν × Cache κ ν :=
  match cache.hit key with
  | some found => found
  | none =>
      let touched := cache.touch key
      (value, Cache.evict size budget
        { touched with map := touched.map.insert key value, used := touched.used + size value })

/-- A whole access: a hit, or a load followed by the second critical section. A
failed load leaves the cache as it was. -/
def Cache.getOrLoad (size : ν → Nat) (budget : Nat) (cache : Cache κ ν) (key : κ)
    (load : Except ε ν) : Except ε (ν × Cache κ ν) :=
  match cache.hit key with
  | some found => .ok found
  | none =>
      match load with
      | .ok value => .ok (cache.store size budget key value)
      | .error e => .error e

/-- Every cached pair satisfies the given relation. -/
def Cache.Holds (relation : κ → ν → Prop) (cache : Cache κ ν) : Prop :=
  ∀ key value, cache.map.lookup key = some value → relation key value

variable {relation : κ → ν → Prop}

/-- A new cache holds nothing, and so nothing that is wrong. -/
theorem holds_new : (Cache.new : Cache κ ν).Holds relation := by
  intro key value found
  simp [Cache.new] at found

/-- A hit returns a cached pair and changes no pair. -/
theorem holds_hit {cache after : Cache κ ν} {key : κ} {value : ν} (holds : cache.Holds relation)
    (found : cache.hit key = some (value, after)) :
    relation key value ∧ after.Holds relation := by
  obtain ⟨stored, mapped, same⟩ := Option.map_eq_some_iff.mp found
  obtain ⟨rfl, rfl⟩ := Prod.mk.inj same
  exact ⟨holds key stored mapped, holds⟩

/-- Removing a key introduces no pair. -/
theorem holds_drop {cache : Cache κ ν} (size : ν → Nat) (key : κ) (holds : cache.Holds relation) :
    (cache.drop size key).Holds relation := by
  intro other value found
  by_cases same : other = key
  · subst same
    simp [Cache.drop] at found
  · exact holds other value (by simpa [Cache.drop, AList.lookup_erase_ne same] using found)

/-- Eviction only removes pairs. -/
theorem holds_evictLoop (size : ν → Nat) (budget fuel : Nat) {cache : Cache κ ν}
    (holds : cache.Holds relation) : (evictLoop size budget fuel cache).Holds relation := by
  induction fuel generalizing cache with
  | zero => exact holds
  | succ fuel inductionHypothesis =>
    rw [evictLoop]
    split
    · split
      · next key tick chosen => exact inductionHypothesis (holds_drop size key holds)
      · exact holds
    · exact holds

/-- Storing a related pair returns a related value and keeps every pair related. -/
theorem holds_store {cache : Cache κ ν} (size : ν → Nat) (budget : Nat) {key : κ} {value : ν}
    (holds : cache.Holds relation) (loaded : relation key value) :
    relation key (cache.store size budget key value).1 ∧
      (cache.store size budget key value).2.Holds relation := by
  rw [Cache.store]
  split
  · next found present => exact holds_hit holds present
  · refine ⟨loaded, holds_evictLoop size budget _ ?_⟩
    intro other stored found
    by_cases same : other = key
    · subst same
      simp only [AList.lookup_insert, Option.some.injEq] at found
      exact found ▸ loaded
    · exact holds other stored (by simpa [Cache.touch, AList.lookup_insert_ne same] using found)

/-- If every load of a key is related to it, an access returns a related value
and the cache stays related. -/
theorem holds_getOrLoad {cache after : Cache κ ν} (size : ν → Nat) (budget : Nat) {key : κ}
    {value : ν} {load : Except ε ν} (holds : cache.Holds relation)
    (loads : ∀ fresh, load = .ok fresh → relation key fresh)
    (returned : cache.getOrLoad size budget key load = .ok (value, after)) :
    relation key value ∧ after.Holds relation := by
  unfold Cache.getOrLoad at returned
  split at returned
  · next found present =>
    cases returned
    exact holds_hit holds present
  · cases load with
    | error e => simp at returned
    | ok fresh =>
      simp only [Except.ok.injEq] at returned
      have stored := holds_store size budget holds (loads fresh rfl)
      rwa [returned] at stored

/-- An access fails only if the load does. -/
theorem getOrLoad_ok {cache : Cache κ ν} (size : ν → Nat) (budget : Nat) (key : κ) {fresh : ν}
    {load : Except ε ν} (loads : load = .ok fresh) :
    ∃ value after, cache.getOrLoad size budget key load = .ok (value, after) := by
  unfold Cache.getOrLoad
  rw [loads]
  split
  · next found present => exact ⟨found.1, found.2, rfl⟩
  · exact ⟨_, _, rfl⟩

/-! ## Accesses that others interrupt -/

/-- How far an access has come: it is about to look the key up, to load the value, or to
store what it has loaded. -/
inductive Phase (ν : Type v) where
  | lookup
  | load
  | store (value : ν)

/-- What a part of an access brings about: the value, or the part to come. -/
inductive Advance (ν : Type v) where
  | returns (value : ν)
  | goesOn (phase : Phase ν)

/-- One part of an access, between two points at which others can come in. -/
def Cache.advance (size : ν → Nat) (budget : Nat) (cache : Cache κ ν) (key : κ)
    (load : Except ε ν) : Phase ν → Except ε (Advance ν) × Cache κ ν
  | .lookup =>
      match cache.hit key with
      | some (value, after) => (.ok (.returns value), after)
      | none => (.ok (.goesOn .load), cache)
  | .load => (load.map (fun value => .goesOn (.store value)), cache)
  | .store value =>
      let (found, after) := cache.store size budget key value
      (.ok (.returns found), after)

/-- A loaded value is related to its key. -/
def Phase.Holds (relation : ν → Prop) : Phase ν → Prop
  | .store value => relation value
  | _ => True

/-- What a part of an access brings about is related to the key. -/
def Advance.Holds (relation : ν → Prop) : Advance ν → Prop
  | .returns value => relation value
  | .goesOn phase => phase.Holds relation

/-- If every load of a key is related to it, every part of an access keeps that, whatever
others have done before it. -/
theorem holds_advance {cache after : Cache κ ν} (size : ν → Nat) (budget : Nat) {key : κ}
    {load : Except ε ν} {phase : Phase ν} {result : Except ε (Advance ν)}
    (holds : cache.Holds relation) (begun : phase.Holds (relation key))
    (loads : ∀ fresh, load = .ok fresh → relation key fresh)
    (done : cache.advance size budget key load phase = (result, after)) :
    after.Holds relation ∧ ∀ made, result = .ok made → made.Holds (relation key) := by
  cases phase with
  | lookup =>
    rw [Cache.advance] at done
    split at done
    · next value after' found =>
      obtain ⟨rfl, rfl⟩ := Prod.mk.inj done
      obtain ⟨related, holds'⟩ := holds_hit holds found
      refine ⟨holds', fun made same => ?_⟩
      cases same
      exact related
    · obtain ⟨rfl, rfl⟩ := Prod.mk.inj done
      refine ⟨holds, fun made same => ?_⟩
      cases same
      trivial
  | load =>
    obtain ⟨rfl, rfl⟩ := Prod.mk.inj done
    refine ⟨holds, fun made same => ?_⟩
    cases load with
    | error error => cases same
    | ok fresh =>
      cases same
      exact loads fresh rfl
  | store value =>
    obtain ⟨rfl, rfl⟩ := Prod.mk.inj done
    obtain ⟨related, holds'⟩ := holds_store size budget holds begun
    refine ⟨holds', fun made same => ?_⟩
    cases same
    exact related

/-- A part of an access fails only in the load. -/
theorem advance_error {cache after : Cache κ ν} {size : ν → Nat} {budget : Nat} {key : κ}
    {load : Except ε ν} {phase : Phase ν} {error : ε}
    (done : cache.advance size budget key load phase = (.error error, after)) :
    load = .error error := by
  cases phase with
  | lookup =>
    rw [Cache.advance] at done
    split at done <;> cases (Prod.mk.inj done).1
  | load =>
    have failed := (Prod.mk.inj done).1
    cases load with
    | error error => exact congrArg Except.error (Except.error.inj failed)
    | ok fresh => cases failed
  | store value => cases (Prod.mk.inj done).1

/-- An access that nobody interrupts is a hit, or a miss, a load and a store. -/
theorem getOrLoad_parts {cache after : Cache κ ν} {size : ν → Nat} {budget : Nat} {key : κ}
    {load : Except ε ν} {value : ν}
    (returned : cache.getOrLoad size budget key load = .ok (value, after)) :
    cache.advance size budget key load .lookup = (.ok (.returns value), after) ∨
    ∃ fresh, cache.advance size budget key load .lookup = (.ok (.goesOn .load), cache) ∧
      cache.advance size budget key load .load = (.ok (.goesOn (.store fresh)), cache) ∧
      cache.advance size budget key load (.store fresh) = (.ok (.returns value), after) := by
  cases present : cache.hit key with
  | some found =>
    obtain ⟨value', after'⟩ := found
    simp only [Cache.getOrLoad, present, Except.ok.injEq, Prod.mk.injEq] at returned
    obtain ⟨rfl, rfl⟩ := returned
    exact .inl (by simp [Cache.advance, present])
  | none =>
    cases load with
    | error error => simp [Cache.getOrLoad, present] at returned
    | ok fresh =>
      simp only [Cache.getOrLoad, present, Except.ok.injEq] at returned
      refine .inr ⟨fresh, by simp [Cache.advance, present], rfl, ?_⟩
      simp [Cache.advance, returned]

/-- An access that nobody interrupts and that fails is a miss and a load that fails. -/
theorem getOrLoad_fails {cache : Cache κ ν} {size : ν → Nat} {budget : Nat} {key : κ}
    {load : Except ε ν} {error : ε}
    (failed : cache.getOrLoad size budget key load = .error error) :
    cache.advance size budget key load .lookup = (.ok (.goesOn .load), cache) ∧
      cache.advance size budget key load .load = (.error error, cache) := by
  cases present : cache.hit key with
  | some found => simp [Cache.getOrLoad, present] at failed
  | none =>
    cases load with
    | error error' =>
      simp only [Cache.getOrLoad, present, Except.error.injEq] at failed
      subst failed
      exact ⟨by simp [Cache.advance, present], rfl⟩
    | ok fresh => simp [Cache.getOrLoad, present] at failed

end Sillage.Lru
