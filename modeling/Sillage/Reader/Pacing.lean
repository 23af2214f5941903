import Sillage.Foundation.LittleEndian
import Sillage.Foundation.Rounding

/-!
# Pacing a replay against the clock

The first message with a timestamp anchors the replay; later ones are due at the
anchor plus the scaled difference of their timestamps. Clock readings are parameters in
nanoseconds, and so is the scaling by the speed, which the source computes with
floating-point numbers.
-/

namespace Sillage

/-- The pacing part of the configuration. -/
structure PacingConfig where
  enabled : Bool
  scale : Nat → Nat
  lagWarnMs : Nat
  lagDropMs : Nat

/-- A pacer with its settings, its anchor, and what it remembers of the lag. -/
structure Pacer where
  enabled : Bool
  scale : Nat → Nat
  lagWarn : Nat
  lagDrop : Nat
  anchor : Option (Nat × Nat)
  lastWarn : Option Nat

/-- The scaling at speed 1. A difference of timestamps becomes a float of 53 significant
bits and is narrowed back to 64 bits. -/
def atSpeedOne (delta : Nat) : Nat :=
  min (Rounding.significant 53 delta) (LittleEndian.u64Bound - 1)

/-- What to do about the lag of an emission. -/
inductive LagAction where
  | ok
  | warn (lag : Nat)
  | drop (lag : Nat)
deriving DecidableEq

namespace Pacer

/-- A pacer that has not been anchored yet. -/
def ofConfig (cfg : PacingConfig) : Pacer where
  enabled := cfg.enabled
  scale := cfg.scale
  lagWarn := cfg.lagWarnMs * 10 ^ 6
  lagDrop := cfg.lagDropMs * 10 ^ 6
  anchor := none
  lastWarn := none

/-- When a message with the given timestamp is due. -/
def target (now : Nat) (sourceNs : Option Nat) (pacer : Pacer) : Nat × Pacer :=
  if !pacer.enabled then (now, pacer)
  else
    match sourceNs with
    | none => (now, pacer)
    | some ts =>
        match pacer.anchor with
        | none => (now, { pacer with anchor := some (ts, now) })
        | some (anchorTs, anchorReal) => (anchorReal + pacer.scale (ts - anchorTs), pacer)

/-- Judge an emission that was due at the target; warnings come at most every ten
seconds. -/
def observeEmit (now target : Nat) (pacer : Pacer) : LagAction × Pacer :=
  if !pacer.enabled then (.ok, pacer)
  else if now ≤ target then (.ok, pacer)
  else
    let lag := now - target
    if pacer.lagDrop ≤ lag then (.drop lag, pacer)
    else if pacer.lagWarn ≤ lag ∧ pacer.lastWarn.all (fun last => 10 * 10 ^ 9 < now - last) then
      (.warn lag, { pacer with lastWarn := some now })
    else (.ok, pacer)

/-- What no step of a pacer changes. -/
structure SameLimits (pacer after : Pacer) : Prop where
  enabled : after.enabled = pacer.enabled
  scale : after.scale = pacer.scale
  lagDrop : after.lagDrop = pacer.lagDrop

/-- Limits that stay the same twice stay the same. -/
theorem SameLimits.trans {pacer between after : Pacer} (first : pacer.SameLimits between)
    (second : between.SameLimits after) : pacer.SameLimits after :=
  ⟨second.enabled.trans first.enabled, second.scale.trans first.scale,
    second.lagDrop.trans first.lagDrop⟩

/-- Computing a target sets the anchor at most. -/
theorem target_limits (pacer : Pacer) (now : Nat) (recvNs : Option Nat) :
    pacer.SameLimits (pacer.target now recvNs).2 := by
  rw [target.eq_def]
  split
  · exact ⟨rfl, rfl, rfl⟩
  · split
    · exact ⟨rfl, rfl, rfl⟩
    · split <;> exact ⟨rfl, rfl, rfl⟩

/-- Judging an emission remembers a warning at most, and drops only what is as late as the
limit says. -/
theorem observeEmit_limits (pacer : Pacer) (now target : Nat) :
    pacer.SameLimits (pacer.observeEmit now target).2 ∧
      ∀ lag, (pacer.observeEmit now target).1 = .drop lag →
        pacer.enabled = true ∧ target < now ∧ target + pacer.lagDrop ≤ now := by
  rw [observeEmit]
  split
  · exact ⟨⟨rfl, rfl, rfl⟩, fun lag impossible => by cases impossible⟩
  · next paces =>
    split
    · exact ⟨⟨rfl, rfl, rfl⟩, fun lag impossible => by cases impossible⟩
    · next late =>
      dsimp only
      split
      · exact ⟨⟨rfl, rfl, rfl⟩, fun lag _ => ⟨by simpa using paces, by omega, by omega⟩⟩
      · split
        · exact ⟨⟨rfl, rfl, rfl⟩, fun lag impossible => by cases impossible⟩
        · exact ⟨⟨rfl, rfl, rfl⟩, fun lag impossible => by cases impossible⟩

end Pacer

end Sillage
