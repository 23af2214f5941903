import Mathlib.Data.Rat.Defs
import Sillage.Writer.Chunker

/-!
# Loaded settings

Both programs load one file of settings and check it before they start. The check looks at
the replay speed, at the paths of the certificate and at the address of the metrics, and at
nothing else: whatever the writer's section and the hours of retention are, it passes them.

Floating point numbers are the rational numbers that they stand for, if they do. How the
standard library prints them and reads addresses is a parameter.
-/

namespace Sillage

/-- A floating point number. -/
inductive F64 where
  | nan
  | infinite (negative : Bool)
  | finite (value : Rat)
deriving DecidableEq

namespace F64

/-- A number that is neither infinite nor undefined. -/
def isFinite : F64 → Bool
  | .finite _ => true
  | _ => false

/-- Whether the number is at most zero. No comparison with a number that is none holds. -/
def notPositive : F64 → Bool
  | .nan => false
  | .infinite negative => negative
  | .finite value => value ≤ 0

end F64

/-- The identity of the listener. -/
structure TlsConfig where
  enabled : Bool
  certPath : String
  keyPath : String
deriving DecidableEq

/-- Whether metrics are served, and where. -/
structure MetricsConfig where
  enabled : Bool
  listenAddr : String
deriving DecidableEq

/-- The settings that are checked, and those that the chunker and the sweeps of old chunks
read. -/
structure Settings where
  tls : TlsConfig
  writer : WriterConfig
  uploaderLocalRetentionHours : Nat
  readerLocalRetentionHours : Nat
  speedMultiplier : F64
  metrics : MetricsConfig
deriving DecidableEq

/-- What the check takes from the standard library: how a number is printed, and what is
wrong with the text of an address, if anything is. -/
structure Texts where
  float : F64 → String
  socketAddr : String → Option String

/-- The writer's section when the file has none. -/
def WriterConfig.default : WriterConfig where
  slotsPerChunk := 1000
  outOfOrderToleranceSlots := 100
  maxOpenChunks := 4

namespace Settings

/-- The settings of a file that sets none of them. -/
def default : Settings where
  tls := { enabled := false, certPath := "", keyPath := "" }
  writer := WriterConfig.default
  uploaderLocalRetentionHours := 24
  readerLocalRetentionHours := 24
  speedMultiplier := .finite 1
  metrics := { enabled := true, listenAddr := "0.0.0.0:10001" }

/-- The speed of the replay. An error is the text of what is wrong. -/
def checkSpeed (texts : Texts) (m : F64) : Except String Unit :=
  if !m.isFinite || m.notPositive then
    .error ("reader.pacing.speed_multiplier must be a finite positive number, got " ++
      texts.float m)
  else .ok ()

/-- The paths of the identity, if there is to be one. -/
def checkIdentity (tls : TlsConfig) : Except String Unit :=
  if tls.enabled then
    if tls.certPath = "" then
      .error "server.tls.enabled is true but server.tls.cert_path is empty"
    else if tls.keyPath = "" then
      .error "server.tls.enabled is true but server.tls.key_path is empty"
    else .ok ()
  else .ok ()

/-- The address of the metrics, if there are to be any. -/
def checkAddress (texts : Texts) (metrics : MetricsConfig) : Except String Unit :=
  if metrics.enabled then
    match texts.socketAddr metrics.listenAddr with
    | none => .ok ()
    | some wrong => .error ("invalid metrics listen_addr: " ++ wrong)
  else .ok ()

/-- Check the settings, in this order. -/
def validate (texts : Texts) (settings : Settings) : Except String Unit := do
  checkSpeed texts settings.speedMultiplier
  checkIdentity settings.tls
  checkAddress texts settings.metrics

/-- Settings that pass the check. -/
structure Accepted (texts : Texts) (settings : Settings) : Prop where
  speed : ∃ value, settings.speedMultiplier = .finite value ∧ 0 < value
  identity : settings.tls.enabled = true → settings.tls.certPath ≠ "" ∧ settings.tls.keyPath ≠ ""
  address : settings.metrics.enabled = true → texts.socketAddr settings.metrics.listenAddr = none

/-- A speed is accepted if it is finite and positive. -/
theorem checkSpeed_ok (texts : Texts) (m : F64) :
    checkSpeed texts m = .ok () ↔ ∃ value, m = .finite value ∧ 0 < value := by
  rw [checkSpeed]
  cases m with
  | nan => simp [F64.isFinite]
  | infinite negative => simp [F64.isFinite]
  | finite value =>
    have positive : ¬ value ≤ 0 ↔ 0 < value := Rat.not_le
    simp only [F64.isFinite, F64.notPositive, Bool.not_true, Bool.false_or, decide_eq_true_eq,
      F64.finite.injEq, exists_eq_left', ← positive]
    split <;> simp [*]

/-- Where encryption is on, both paths must be set. -/
theorem checkIdentity_ok (tls : TlsConfig) :
    checkIdentity tls = .ok () ↔ (tls.enabled = true → tls.certPath ≠ "" ∧ tls.keyPath ≠ "") := by
  rw [checkIdentity]
  cases tls.enabled with
  | false => simp
  | true =>
    by_cases cert : tls.certPath = ""
    · simp [cert]
    · by_cases key : tls.keyPath = ""
      · simp [cert, key]
      · simp [cert, key]

/-- Where metrics are served, their address must be one. -/
theorem checkAddress_ok (texts : Texts) (metrics : MetricsConfig) :
    checkAddress texts metrics = .ok () ↔
      (metrics.enabled = true → texts.socketAddr metrics.listenAddr = none) := by
  rw [checkAddress]
  cases metrics.enabled with
  | false => simp
  | true => cases texts.socketAddr metrics.listenAddr <;> simp

/-- The check passes exactly the settings with a positive speed, a full identity if one is
needed and an address if one is needed. -/
theorem validate_ok_iff (texts : Texts) (settings : Settings) :
    settings.validate texts = .ok () ↔ settings.Accepted texts := by
  have speed := checkSpeed_ok texts settings.speedMultiplier
  have identity := checkIdentity_ok settings.tls
  have address := checkAddress_ok texts settings.metrics
  simp only [validate, bind, Except.bind]
  constructor
  · intro passed
    cases first : checkSpeed texts settings.speedMultiplier with
    | error message => simp [first] at passed
    | ok =>
      cases second : checkIdentity settings.tls with
      | error message => simp [first, second] at passed
      | ok =>
        rw [first, second] at passed
        exact ⟨speed.mp first, identity.mp second, address.mp passed⟩
  · intro accepted
    rw [speed.mpr accepted.speed, identity.mpr accepted.identity]
    exact address.mpr accepted.address

/-- Whether settings are accepted does not depend on the writer's section or on the hours of
retention. -/
theorem accepted_any {texts : Texts} {settings : Settings} (accepted : settings.Accepted texts)
    (writer : WriterConfig) (uploaderHours readerHours : Nat) :
    Accepted texts { settings with
      writer
      uploaderLocalRetentionHours := uploaderHours
      readerLocalRetentionHours := readerHours } :=
  ⟨accepted.speed, accepted.identity, accepted.address⟩

/-- The settings of an empty file are accepted where its address is one. -/
theorem accepted_default {texts : Texts} (address : texts.socketAddr "0.0.0.0:10001" = none) :
    default.Accepted texts where
  speed := ⟨1, rfl, by decide⟩
  identity impossible := by cases impossible
  address _ := address

end Settings

end Sillage
