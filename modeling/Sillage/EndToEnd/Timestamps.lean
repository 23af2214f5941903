import Sillage.Common.PlainCodecs
import Sillage.Foundation.Interpolation
import Sillage.Reader.Replay
import Sillage.Writer.Trio

/-!
# The receive times of replayed messages

A message has its own time or one between the two times of the sidecar. The sums, the
difference and the product on the way are not checked against their bounds, and neither are
the times and the number of messages of a sidecar that the catalog takes. Here the sums and
products are checked ones, and it is told for which messages and sidecars they do not fail.
The sidecars that the writer writes are among these.
-/

namespace Sillage

open LittleEndian Chunk Directory Names Interpolation Tracks

/-- A difference, unless it would be negative. -/
def checkedSub (a b : Nat) : Except Fault Nat :=
  if b ≤ a then .ok (a - b) else .error .overflow

/-- The time of a message by the times of its sidecar. The product is one of 128 bits,
and the quotient is narrowed to 64. -/
def checkedInterpolated (chunkMeta : ChunkMeta) (ordInChunk : Nat) :
    Except Fault (Option Nat) :=
  match chunkMeta.recvNsFirst with
  | none => .ok none
  | some first =>
      let last := chunkMeta.recvNsLast.getD first
      let count := chunkMeta.messageCount
      if count ≤ 1 ∨ last = first then .ok (some first)
      else do
        let span ← checkedSub last first
        let product ← checkedMul (u64Bound * u64Bound) ordInChunk span
        let sum ← checkedAdd first (product / (count - 1) % u64Bound)
        .ok (some sum)

/-- The receive time of a message, with every overflow a fault. Conversions do not overflow:
negative nanoseconds become a great number. -/
def checkedRecvNs (msg : SubscribeUpdate) (chunkMeta : ChunkMeta) (ordInChunk : Nat) :
    Except Fault (Option Nat) :=
  match msg.createdAt with
  | some ts =>
      if 0 ≤ ts.seconds then do
        let whole ← checkedMul u64Bound ts.seconds.toNat (10 ^ 9)
        let sum ← checkedAdd whole (ts.nanos % u64Bound).toNat
        .ok (some sum)
      else checkedInterpolated chunkMeta ordInChunk
  | none => checkedInterpolated chunkMeta ordInChunk

namespace Timestamps

/-- The time of its own that a message goes by. -/
def ownTime (msg : SubscribeUpdate) : Option Timestamp :=
  msg.createdAt.filter (fun ts => 0 ≤ ts.seconds)

/-- The receive time of a message in numbers without bounds. -/
def exactRecvNs (msg : SubscribeUpdate) (chunkMeta : ChunkMeta) (ordInChunk : Nat) : Option Int :=
  match ownTime msg with
  | some ts => some (ts.seconds * 10 ^ 9 + ts.nanos)
  | none =>
      chunkMeta.recvNsFirst.map (fun first =>
        let last := chunkMeta.recvNsLast.getD first
        if chunkMeta.messageCount ≤ 1 then (first : Int)
        else first + ordInChunk * ((last : Int) - first) / (chunkMeta.messageCount - 1 : Nat))

/-- The receive time of a message is exact. That of a message without a time of its own, at
an ordinal that the sidecar counts, lies between the times of the sidecar and behind those of
earlier ordinals, and is one of the two at the first and at the last ordinal. -/
structure Resolved (msg : SubscribeUpdate) (chunkMeta : ChunkMeta) (ordInChunk : Nat)
    (time : Option Nat) : Prop where
  exact : time.map (fun (ns : Nat) => (ns : Int)) = exactRecvNs msg chunkMeta ordInChunk
  ordered : ownTime msg = none → ordInChunk < chunkMeta.messageCount →
    ∀ earlier ≤ ordInChunk, ∀ before, checkedRecvNs msg chunkMeta earlier = .ok before →
      ∀ early ∈ before, ∀ ns ∈ time, early ≤ ns
  bounded : ownTime msg = none → ordInChunk < chunkMeta.messageCount → ∀ ns ∈ time,
    (∀ first ∈ chunkMeta.recvNsFirst, first ≤ ns) ∧ ∀ last ∈ chunkMeta.recvNsLast, ns ≤ last
  starts : ownTime msg = none → ordInChunk < chunkMeta.messageCount → ordInChunk = 0 →
    time = chunkMeta.recvNsFirst
  ends : ownTime msg = none → 1 < chunkMeta.messageCount →
    ordInChunk + 1 = chunkMeta.messageCount → ∀ last ∈ chunkMeta.recvNsLast, time = some last

/-- What a message and a sidecar need for that. The time of its own has no negative
nanoseconds and fits 64 bits. Otherwise a sidecar with a last time has a first one, and it
comes no later; and if the chunk holds messages that the sidecar does not count, their times
fit 64 bits too. -/
structure Clean (msg : SubscribeUpdate) (chunkMeta : ChunkMeta) (ordInChunk : Nat) : Prop where
  own : ∀ ts ∈ ownTime msg, 0 ≤ ts.nanos ∧ ts.seconds * 10 ^ 9 + ts.nanos < u64Bound
  paired : ownTime msg = none → 1 < chunkMeta.messageCount →
    ordInChunk + 1 = chunkMeta.messageCount → chunkMeta.recvNsFirst = none →
      chunkMeta.recvNsLast = none
  inOrder : ownTime msg = none → 1 < chunkMeta.messageCount ∨ ordInChunk < chunkMeta.messageCount →
    ∀ first ∈ chunkMeta.recvNsFirst, ∀ last ∈ chunkMeta.recvNsLast, first ≤ last
  uncounted : ownTime msg = none → 1 < chunkMeta.messageCount →
    chunkMeta.messageCount ≤ ordInChunk →
    ∀ first ∈ chunkMeta.recvNsFirst, ∀ last ∈ chunkMeta.recvNsLast,
      ordInChunk * (last - first) < (u64Bound - first) * (chunkMeta.messageCount - 1)

/-- A difference comes out exactly if it is none below zero. -/
theorem checkedSub_ok_iff {a b difference : Nat} :
    checkedSub a b = .ok difference ↔ b ≤ a ∧ a - b = difference := by
  rw [checkedSub]
  split
  · next fits => simp [fits]
  · next beyond => simp [beyond]

/-- Scaling and adding fails exactly if the result is too great. -/
theorem scaled_ok_iff {a scale b : Nat} {time : Option Nat} :
    (do
      let whole ← checkedMul u64Bound a scale
      let sum ← checkedAdd whole b
      .ok (some sum)) = .ok time ↔ a * scale + b < u64Bound ∧ some (a * scale + b) = time := by
  constructor
  · intro done
    obtain ⟨whole, multiplied, done⟩ := ok_of_bind done
    obtain ⟨sum, added, done⟩ := ok_of_bind done
    obtain ⟨-, rfl⟩ := checkedMul_ok_iff.mp multiplied
    obtain ⟨below, rfl⟩ := checkedAdd_ok_iff.mp added
    exact ⟨below, Except.ok.inj done⟩
  · rintro ⟨below, rfl⟩
    have multiplied := checkedMul_ok_iff.mpr
      ⟨Nat.lt_of_le_of_lt (Nat.le_add_right (a * scale) b) below, rfl⟩
    simp only [multiplied, checkedAdd_ok_iff.mpr ⟨below, rfl⟩, bind, Except.bind]

variable {msg : SubscribeUpdate} {chunkMeta : ChunkMeta} {ord : Nat} {time : Option Nat}

/-- The two ways to a receive time. -/
theorem checkedRecvNs_cases (msg : SubscribeUpdate) :
    (∃ ts, ownTime msg = some ts ∧ 0 ≤ ts.seconds ∧ ∀ chunkMeta ord,
      checkedRecvNs msg chunkMeta ord = do
        let whole ← checkedMul u64Bound ts.seconds.toNat (10 ^ 9)
        let sum ← checkedAdd whole (ts.nanos % u64Bound).toNat
        .ok (some sum)) ∨
    ownTime msg = none ∧ ∀ chunkMeta ord,
      checkedRecvNs msg chunkMeta ord = checkedInterpolated chunkMeta ord := by
  simp only [ownTime, checkedRecvNs]
  cases msg.createdAt with
  | none => exact .inr ⟨rfl, fun _ _ => rfl⟩
  | some ts =>
    by_cases after : 0 ≤ ts.seconds
    · exact .inl ⟨ts, by simp [after], after, fun _ _ => by simp [after]⟩
    · exact .inr ⟨by simpa using after, fun _ _ => by simp [after]⟩

/-- A message with a time of its own. -/
theorem own_resolved_iff {ts : Timestamp} (own : ownTime msg = some ts) (after : 0 ≤ ts.seconds)
    (path : ∀ chunkMeta ord, checkedRecvNs msg chunkMeta ord = do
      let whole ← checkedMul u64Bound ts.seconds.toNat (10 ^ 9)
      let sum ← checkedAdd whole (ts.nanos % u64Bound).toNat
      .ok (some sum)) :
    (∃ time, checkedRecvNs msg chunkMeta ord = .ok time ∧ Resolved msg chunkMeta ord time) ↔
      Clean msg chunkMeta ord := by
  have noneOwn : ownTime msg ≠ none := by simp [own]
  have fits : Clean msg chunkMeta ord ↔
      0 ≤ ts.nanos ∧ ts.seconds * 10 ^ 9 + ts.nanos < u64Bound := by
    constructor
    · exact fun clean => clean.own ts own
    · intro fits
      constructor
      · intro ts' same
        rw [own] at same
        obtain rfl := Option.some.inj same
        exact fits
      all_goals exact fun other => absurd other noneOwn
  have exactly : exactRecvNs msg chunkMeta ord = some (ts.seconds * 10 ^ 9 + ts.nanos) := by
    simp [exactRecvNs, own]
  rw [fits, path]
  constructor
  · rintro ⟨time, done, resolved⟩
    obtain ⟨below, rfl⟩ := scaled_ok_iff.mp done
    have exact := resolved.exact
    rw [exactly, Option.map_some, Option.some_inj] at exact
    have positive : 0 < u64Bound := by simp [u64Bound]
    have low := Int.emod_nonneg ts.nanos (b := u64Bound) (by omega)
    omega
  · rintro ⟨positive, below⟩
    have narrow : ts.nanos % u64Bound = ts.nanos := Int.emod_eq_of_lt positive (by omega)
    refine ⟨some (ts.seconds.toNat * 10 ^ 9 + ts.nanos.toNat), ?_, ?_⟩
    · rw [narrow]
      exact scaled_ok_iff.mpr ⟨by omega, rfl⟩
    · constructor
      · rw [exactly, Option.map_some, Option.some_inj]
        omega
      all_goals exact fun other => absurd other noneOwn

/-- What a sidecar needs for a message without a time of its own. -/
theorem clean_iff_of_none (none : ownTime msg = none) :
    Clean msg chunkMeta ord ↔
      (1 < chunkMeta.messageCount → ord + 1 = chunkMeta.messageCount →
        chunkMeta.recvNsFirst = .none → chunkMeta.recvNsLast = .none) ∧
      ∀ first ∈ chunkMeta.recvNsFirst, ∀ last ∈ chunkMeta.recvNsLast,
        (1 < chunkMeta.messageCount ∨ ord < chunkMeta.messageCount → first ≤ last) ∧
        (1 < chunkMeta.messageCount → chunkMeta.messageCount ≤ ord →
          ord * (last - first) < (u64Bound - first) * (chunkMeta.messageCount - 1)) := by
  constructor
  · intro clean
    exact ⟨clean.paired none, fun first isFirst last isLast =>
      ⟨fun counted => clean.inOrder none counted first isFirst last isLast,
        fun many beyond => clean.uncounted none many beyond first isFirst last isLast⟩⟩
  · rintro ⟨paired, times⟩
    constructor
    · intro ts same
      rw [none] at same
      cases same
    · exact fun _ => paired
    · exact fun _ counted first isFirst last isLast => (times first isFirst last isLast).1 counted
    · exact fun _ many beyond first isFirst last isLast =>
        (times first isFirst last isLast).2 many beyond

section Interpolated

variable {first last : Nat}

/-- One message, or times that do not differ. -/
theorem checkedInterpolated_flat (isFirst : chunkMeta.recvNsFirst = some first)
    (flat : chunkMeta.messageCount ≤ 1 ∨ chunkMeta.recvNsLast.getD first = first) (ord : Nat) :
    checkedInterpolated chunkMeta ord = .ok (some first) := by
  simp only [checkedInterpolated, isFirst]
  rw [if_pos flat]

/-- Several messages between two times. -/
theorem checkedInterpolated_ok_iff (isFirst : chunkMeta.recvNsFirst = some first)
    (isLast : chunkMeta.recvNsLast.getD first = last) (many : 1 < chunkMeta.messageCount)
    (distinct : last ≠ first) :
    checkedInterpolated chunkMeta ord = .ok time ↔
      first ≤ last ∧ ord * (last - first) < u64Bound * u64Bound ∧
        first + ord * (last - first) / (chunkMeta.messageCount - 1) % u64Bound < u64Bound ∧
        some (first + ord * (last - first) / (chunkMeta.messageCount - 1) % u64Bound) = time := by
  have spread : ¬ (chunkMeta.messageCount ≤ 1 ∨ last = first) := by omega
  simp only [checkedInterpolated, isFirst, isLast, if_neg spread]
  constructor
  · intro done
    obtain ⟨span, subtracted, done⟩ := ok_of_bind done
    obtain ⟨ordered, rfl⟩ := checkedSub_ok_iff.mp subtracted
    obtain ⟨product, multiplied, done⟩ := ok_of_bind done
    obtain ⟨wide, rfl⟩ := checkedMul_ok_iff.mp multiplied
    obtain ⟨sum, added, done⟩ := ok_of_bind done
    obtain ⟨fits, rfl⟩ := checkedAdd_ok_iff.mp added
    exact ⟨ordered, wide, fits, Except.ok.inj done⟩
  · rintro ⟨ordered, wide, fits, rfl⟩
    simp only [checkedSub_ok_iff.mpr ⟨ordered, rfl⟩, checkedMul_ok_iff.mpr ⟨wide, rfl⟩,
      checkedAdd_ok_iff.mpr ⟨fits, rfl⟩, bind, Except.bind]

/-- The unchecked difference of two times is theirs. -/
theorem wrapped_sub (ordered : first ≤ last) (below : last < u64Bound) :
    (last + u64Bound - first) % u64Bound = last - first := by
  rw [Nat.sub_add_comm ordered, Nat.add_mod_right, Nat.mod_eq_of_lt (by omega)]

/-- Where nothing overflows, the unchecked computation finds the same time. -/
theorem extractRecvNs_of_checked (below : ∀ ns ∈ chunkMeta.recvNsLast, ns < u64Bound)
    (done : checkedRecvNs msg chunkMeta ord = .ok time) :
    extractRecvNs msg chunkMeta ord = time := by
  have between : ∀ time, checkedInterpolated chunkMeta ord = .ok time →
      chunkMeta.recvNsFirst.map (fun first =>
        let last := chunkMeta.recvNsLast.getD first
        if chunkMeta.messageCount ≤ 1 ∨ last = first then first
        else (first + ord * ((last + u64Bound - first) % u64Bound) /
          (chunkMeta.messageCount - 1)) % u64Bound) = time := by
    intro time done
    cases isFirst : chunkMeta.recvNsFirst with
    | none =>
      simp only [checkedInterpolated, isFirst] at done
      exact Except.ok.inj done
    | some first =>
      dsimp only [Option.map_some]
      split
      · next flat =>
        exact Except.ok.inj ((checkedInterpolated_flat isFirst flat ord).symm.trans done)
      · next spread =>
        obtain ⟨many, distinct⟩ := not_or.mp spread
        obtain ⟨ordered, -, fits, rfl⟩ := (checkedInterpolated_ok_iff isFirst rfl
          (Nat.lt_of_not_le many) distinct).mp done
        have narrow : chunkMeta.recvNsLast.getD first < u64Bound := by
          cases isLast : chunkMeta.recvNsLast with
          | none => simp [isLast] at distinct
          | some last => exact below last isLast
        rw [wrapped_sub ordered narrow, ← Nat.add_mod_mod, Nat.mod_eq_of_lt fits]
  rw [checkedRecvNs] at done
  rw [extractRecvNs]
  cases created : msg.createdAt with
  | none =>
    rw [created] at done
    exact between time done
  | some ts =>
    rw [created] at done
    dsimp only at done ⊢
    split at done
    · next after =>
      obtain ⟨fits, rfl⟩ := scaled_ok_iff.mp done
      rw [if_pos after, Nat.mod_eq_of_lt fits]
    · next before =>
      rw [if_neg before]
      exact between time done

/-- The value between two times in order, if it fits. -/
theorem checkedInterpolated_between (isFirst : chunkMeta.recvNsFirst = some first)
    (isLast : chunkMeta.recvNsLast.getD first = last) (many : 1 < chunkMeta.messageCount)
    (ordered : first ≤ last) (wide : ord * (last - first) < u64Bound * u64Bound)
    (fits : interpolate first last (chunkMeta.messageCount - 1) ord < u64Bound) :
    checkedInterpolated chunkMeta ord =
      .ok (some (interpolate first last (chunkMeta.messageCount - 1) ord)) := by
  by_cases same : last = first
  · rw [checkedInterpolated_flat isFirst (.inr (isLast.trans same)), same, interpolate]
    simp
  · have narrow : ord * (last - first) / (chunkMeta.messageCount - 1) % u64Bound =
        ord * (last - first) / (chunkMeta.messageCount - 1) :=
      Nat.mod_eq_of_lt (Nat.lt_of_le_of_lt (Nat.le_add_left _ first) fits)
    rw [checkedInterpolated_ok_iff isFirst isLast many same, narrow]
    exact ⟨ordered, wide, fits, rfl⟩

/-- Between two different times, no other value is exact. -/
theorem between_of_exact (isFirst : chunkMeta.recvNsFirst = some first)
    (isLast : chunkMeta.recvNsLast.getD first = last) (many : 1 < chunkMeta.messageCount)
    (distinct : last ≠ first) (none : ownTime msg = none)
    (done : checkedInterpolated chunkMeta ord = .ok time)
    (exact : time.map (fun (ns : Nat) => (ns : Int)) = exactRecvNs msg chunkMeta ord) :
    first ≤ last ∧ interpolate first last (chunkMeta.messageCount - 1) ord < u64Bound := by
  obtain ⟨ordered, -, fits, rfl⟩ :=
    (checkedInterpolated_ok_iff isFirst isLast many distinct).mp done
  simp only [exactRecvNs, none, isFirst, Option.map_some, isLast, if_neg (Nat.not_le_of_lt many),
    ← interpolate_cast ordered, Option.some_inj, Int.natCast_inj] at exact
  exact ⟨ordered, exact ▸ fits⟩

/-- The value between two times in order is as it should be. -/
theorem resolved_between (none : ownTime msg = none)
    (path : ∀ chunkMeta ord, checkedRecvNs msg chunkMeta ord = checkedInterpolated chunkMeta ord)
    (isFirst : chunkMeta.recvNsFirst = some first)
    (isLast : chunkMeta.recvNsLast.getD first = last) (many : 1 < chunkMeta.messageCount)
    (ordered : first ≤ last) (wide : ord * (last - first) < u64Bound * u64Bound)
    (fits : interpolate first last (chunkMeta.messageCount - 1) ord < u64Bound) :
    Resolved msg chunkMeta ord
      (some (interpolate first last (chunkMeta.messageCount - 1) ord)) := by
  have steps : 0 < chunkMeta.messageCount - 1 := by omega
  have ofLast : ∀ l ∈ chunkMeta.recvNsLast, l = last := by
    intro l isLast'
    rw [← isLast, isLast', Option.getD_some]
  constructor
  case exact =>
    simp only [exactRecvNs, none, isFirst, Option.map_some, isLast, if_neg (Nat.not_le_of_lt many),
      interpolate_cast ordered]
  case ordered =>
    intro _ counted earlier le before done early isEarly ns isTime
    have upTo := @interpolate_monotone first last (chunkMeta.messageCount - 1) _ _ le
    have narrower := Nat.lt_of_le_of_lt (Nat.mul_le_mul_right (last - first) le) wide
    rw [path, checkedInterpolated_between isFirst isLast many ordered narrower
      (Nat.lt_of_le_of_lt upTo fits)] at done
    obtain rfl := Except.ok.inj done
    obtain rfl := Option.some.inj isEarly
    obtain rfl := Option.some.inj isTime
    exact upTo
  case bounded =>
    intro _ counted ns isTime
    obtain rfl := Option.some.inj isTime
    constructor
    · intro f isFirst'
      rw [isFirst] at isFirst'
      obtain rfl := Option.some.inj isFirst'
      exact le_interpolate ord
    · intro l isLast'
      rw [ofLast l isLast']
      exact interpolate_le_last steps ordered (by omega)
  case starts =>
    intro _ counted atStart
    rw [atStart, interpolate_zero, isFirst]
  case ends =>
    intro _ _ atEnd l isLast'
    rw [ofLast l isLast', show ord = chunkMeta.messageCount - 1 by omega,
      interpolate_last steps ordered]

/-- The time of a chunk that holds one message at most. -/
theorem resolved_few (none : ownTime msg = none)
    (path : ∀ chunkMeta ord, checkedRecvNs msg chunkMeta ord = checkedInterpolated chunkMeta ord)
    (isFirst : chunkMeta.recvNsFirst = some first) (few : chunkMeta.messageCount ≤ 1)
    (ordered : ord < chunkMeta.messageCount → ∀ last ∈ chunkMeta.recvNsLast, first ≤ last) :
    Resolved msg chunkMeta ord (some first) := by
  constructor
  case exact => simp [exactRecvNs, none, isFirst, few]
  case ordered =>
    intro _ counted earlier le before done early isEarly ns isTime
    rw [path, checkedInterpolated_flat isFirst (.inl few)] at done
    obtain rfl := Except.ok.inj done
    obtain rfl := Option.some.inj isEarly
    exact (Option.some.inj isTime).le
  case bounded =>
    intro _ counted ns isTime
    obtain rfl := Option.some.inj isTime
    refine ⟨fun f isFirst' => ?_, ordered counted⟩
    rw [isFirst] at isFirst'
    exact (Option.some.inj isFirst').ge
  case starts => exact fun _ _ _ => isFirst.symm
  case ends => exact fun _ many => absurd many (Nat.not_lt_of_le few)

/-- A message without a time of its own, and a sidecar with two times or one. -/
theorem interpolated_resolved_iff (none : ownTime msg = none)
    (path : ∀ chunkMeta ord, checkedRecvNs msg chunkMeta ord = checkedInterpolated chunkMeta ord)
    (isFirst : chunkMeta.recvNsFirst = some first)
    (isLast : chunkMeta.recvNsLast.getD first = last) (small : ord < u32Bound)
    (below : last < u64Bound) :
    (∃ time, checkedRecvNs msg chunkMeta ord = .ok time ∧ Resolved msg chunkMeta ord time) ↔
      (1 < chunkMeta.messageCount ∨ ord < chunkMeta.messageCount → first ≤ last) ∧
      (1 < chunkMeta.messageCount → chunkMeta.messageCount ≤ ord →
        ord * (last - first) < (u64Bound - first) * (chunkMeta.messageCount - 1)) := by
  by_cases many : 1 < chunkMeta.messageCount
  · have steps : 0 < chunkMeta.messageCount - 1 := by omega
    constructor
    · rintro ⟨time, done, resolved⟩
      rw [path] at done
      have between : first ≤ last ∧
          interpolate first last (chunkMeta.messageCount - 1) ord < u64Bound := by
        by_cases same : last = first
        · subst same
          simp [interpolate, below]
        · exact between_of_exact isFirst isLast many same none done resolved.exact
      exact ⟨fun _ => between.1, fun _ _ => (interpolate_lt_iff steps).mp between.2⟩
    · rintro ⟨inOrder, uncounted⟩
      have ordered := inOrder (.inl many)
      have wide : ord * (last - first) < u64Bound * u64Bound := by
        have narrow : u32Bound ≤ u64Bound := by decide
        exact Nat.mul_lt_mul'' (by omega) (by omega)
      have fits : interpolate first last (chunkMeta.messageCount - 1) ord < u64Bound := by
        rcases Nat.lt_or_ge ord chunkMeta.messageCount with counted | beyond
        · exact Nat.lt_of_le_of_lt (interpolate_le_last steps ordered (by omega)) below
        · exact (interpolate_lt_iff steps).mpr (uncounted many beyond)
      rw [path, checkedInterpolated_between isFirst isLast many ordered wide fits]
      exact ⟨_, rfl, resolved_between none path isFirst isLast many ordered wide fits⟩
  · have few : chunkMeta.messageCount ≤ 1 := Nat.le_of_not_lt many
    rw [path, checkedInterpolated_flat isFirst (.inl few)]
    constructor
    · rintro ⟨time, done, resolved⟩
      obtain rfl := Except.ok.inj done
      refine ⟨fun counted => ?_, fun other => absurd other many⟩
      cases stored : chunkMeta.recvNsLast with
      | none =>
        rw [stored, Option.getD_none] at isLast
        exact isLast.le
      | some l =>
        rw [stored, Option.getD_some] at isLast
        exact isLast ▸ (resolved.bounded none (counted.resolve_left many) first rfl).2 l stored
    · rintro ⟨inOrder, -⟩
      refine ⟨some first, rfl, resolved_few none path isFirst few (fun counted l stored => ?_)⟩
      rw [stored, Option.getD_some] at isLast
      exact isLast ▸ inOrder (.inr counted)

end Interpolated

/-- For every message, sidecar and ordinal: no arithmetic overflows on the way to the receive
time, and it is exact, in order and between the times of the sidecar, exactly if the message
and the sidecar are clean. -/
theorem recvNs_resolved_iff (msg : SubscribeUpdate) (chunkMeta : ChunkMeta) (ord : Nat)
    (small : ord < u32Bound) (first : ∀ ns ∈ chunkMeta.recvNsFirst, ns < u64Bound)
    (last : ∀ ns ∈ chunkMeta.recvNsLast, ns < u64Bound) :
    (∃ time, checkedRecvNs msg chunkMeta ord = .ok time ∧ Resolved msg chunkMeta ord time) ↔
      Clean msg chunkMeta ord := by
  rcases checkedRecvNs_cases msg with ⟨ts, own, after, path⟩ | ⟨none, path⟩
  · exact own_resolved_iff own after path
  rw [clean_iff_of_none none]
  cases isFirst : chunkMeta.recvNsFirst with
  | none =>
    have done : checkedRecvNs msg chunkMeta ord = .ok .none := by
      simp [path, checkedInterpolated, isFirst]
    rw [done]
    constructor
    · rintro ⟨time, same, resolved⟩
      obtain rfl := Except.ok.inj same
      refine ⟨fun many atEnd _ => ?_, by simp⟩
      by_contra hasLast
      obtain ⟨l, isLast⟩ := Option.ne_none_iff_exists'.mp hasLast
      cases resolved.ends none many atEnd l isLast
    · rintro ⟨paired, -⟩
      refine ⟨.none, rfl, ?_⟩
      constructor
      case exact => simp [exactRecvNs, none, isFirst]
      case starts => exact fun _ _ _ => isFirst.symm
      case ends =>
        intro _ many atEnd l isLast
        rw [paired many atEnd rfl] at isLast
        cases isLast
      all_goals simp
  | some f =>
    have fits := first f isFirst
    cases isLast : chunkMeta.recvNsLast with
    | none =>
      have single : chunkMeta.recvNsLast.getD f = f := by simp [isLast]
      rw [interpolated_resolved_iff none path isFirst single small fits]
      have room : 1 < chunkMeta.messageCount → 0 < (u64Bound - f) * (chunkMeta.messageCount - 1) :=
        fun many => Nat.mul_pos (by omega) (by omega)
      simpa using fun many _ => room many
    | some l =>
      have pair : chunkMeta.recvNsLast.getD f = l := by simp [isLast]
      rw [interpolated_resolved_iff none path isFirst pair small (last l isLast)]
      simp

/-- The second of three messages between two times. -/
theorem recvNs_resolved_pair :
    let sidecar : ChunkMeta := ⟨schemaVersion, "tx", 0, 1000, some 0, some 5, 3, 0, 0, some 100,
      some 131, "watermark", []⟩
    (∃ time, checkedRecvNs ⟨[], none, none, []⟩ sidecar 1 = .ok time ∧
      Resolved ⟨[], none, none, []⟩ sidecar 1 time) ∧
    checkedRecvNs ⟨[], none, none, []⟩ sidecar 1 = .ok (some 115) := by
  intro sidecar
  refine ⟨(recvNs_resolved_iff ⟨[], none, none, []⟩ sidecar 1 (by decide) (by decide)
    (by decide)).mpr ?_, by decide⟩
  exact (clean_iff_of_none rfl).mpr (by decide)

/-- The catalog takes a sidecar whose last time comes before its first one, and on that the
difference overflows; so do the nanoseconds of a far or of a negative time. -/
theorem scanned_recvNs_overflows :
    let sidecar : ChunkMeta := ⟨schemaVersion, "tx", 0, 1000, some 0, some 5, 2, 0, 0, some 10,
      some 3, "watermark", []⟩
    let dir : Dir := perform ∅ [.write (chunkFile 0 1000 "zst") [],
      .write (chunkFile 0 1000 "idx") [],
      .write (chunkFile 0 1000 "meta.json") (PlainCodecs.plain.jsonEncode sidecar)]
    let files : Files := fun stream => if stream = .tx then dir else ∅
    let update (createdAt : Option Timestamp) : SubscribeUpdate :=
      ⟨[], createdAt, some (.transaction ⟨5, none⟩), []⟩
    ((ChunkCatalog.scan PlainCodecs.plain files (fun stream => (files stream).keys)).streams
        .tx)[0]?.map ChunkEntry.meta = some sidecar ∧
      checkedRecvNs (update none) sidecar 1 = .error .overflow ∧
      checkedRecvNs (update (some ⟨9223372036854775807, 0⟩)) sidecar 1 = .error .overflow ∧
      checkedRecvNs (update (some ⟨1, -1⟩)) sidecar 1 = .error .overflow := by
  decide +kernel

/-- The sidecars that the writer writes are clean for the messages that they count. -/
theorem clean_of_trio {k : Codecs} {cfg : WriterConfig} {dir : Dir} {idx : Nat}
    {messages : List Arrival} {sidecar : ChunkMeta} {raw : Bytes} {builder : IndexBuilder}
    (trio : Trio k cfg dir idx messages sidecar raw builder) (none : ownTime msg = none)
    (counted : ord < sidecar.messageCount) : Clean msg sidecar ord := by
  obtain ⟨first, last, isFirst, isLast, ordered, -⟩ := trio.stamps
  rw [clean_iff_of_none none, isFirst, isLast]
  refine ⟨fun _ _ impossible => (by cases impossible), ?_⟩
  intro f same l same'
  obtain rfl := Option.some.inj same
  obtain rfl := Option.some.inj same'
  exact ⟨fun _ => ordered, fun _ beyond => absurd counted (Nat.not_lt_of_le beyond)⟩

end Timestamps

end Sillage
