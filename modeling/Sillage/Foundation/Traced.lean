import Mathlib.Control.Monad.Writer

/-!
# Computations that leave a trail

A computation that may fail notes what it went through, also when it fails later. The
trail of a computation over a state lists events with the state after each of them.
That the trail is a path of a step relation is proved along the computation, and what
the steps keep holds all along a path.
-/

namespace Sillage

/-- A computation that may fail and leaves a trail. -/
abbrev Traced (μ ε : Type) := ExceptT ε (Writer (List μ))

namespace Traced

variable {μ ε α β : Type}

/-- What the computation went through, in order. -/
def trail (t : Traced μ ε α) : List μ := (WriterT.run (ExceptT.run t)).2

/-- The result of a computation, or its fault. -/
def outcome (t : Traced μ ε α) : Except ε α := (WriterT.run (ExceptT.run t)).1

/-- A result without a trail. -/
def ofExcept (result : Except ε α) : Traced μ ε α := ExceptT.mk (pure result)

/-- A moment to note. -/
def note (moment : μ) : Traced μ ε Unit := ExceptT.lift (tell [moment])

/-- A value is its own result. -/
@[simp] theorem outcome_pure (a : α) : (pure a : Traced μ ε α).outcome = .ok a := rfl

/-- A value leaves no trail. -/
@[simp] theorem trail_pure (a : α) : (pure a : Traced μ ε α).trail = [] := rfl

/-- A plain result is the outcome. -/
@[simp] theorem outcome_ofExcept (result : Except ε α) :
    (ofExcept result : Traced μ ε α).outcome = result := rfl

/-- A plain result leaves no trail. -/
@[simp] theorem trail_ofExcept (result : Except ε α) :
    (ofExcept result : Traced μ ε α).trail = [] := rfl

/-- A note does not fail. -/
@[simp] theorem outcome_note (moment : μ) : (note moment : Traced μ ε Unit).outcome = .ok () := rfl

/-- A note is a moment of the trail. -/
@[simp] theorem trail_note (moment : μ) : (note moment : Traced μ ε Unit).trail = [moment] := rfl

/-- The trail does not influence the outcome. -/
@[simp] theorem outcome_bind (t : Traced μ ε α) (next : α → Traced μ ε β) :
    (t >>= next).outcome = t.outcome >>= fun a => (next a).outcome := by
  rcases t with ⟨fault | a, moments⟩ <;> rfl

/-- The trail of a computation goes on behind one that succeeds. -/
theorem trail_bind_ok {t : Traced μ ε α} {a : α} (done : t.outcome = .ok a)
    (next : α → Traced μ ε β) : (t >>= next).trail = t.trail ++ (next a).trail := by
  rcases t with ⟨fault | b, moments⟩
  · cases done
  · cases done
    rfl

/-- The trail ends with a computation that fails. -/
theorem trail_bind_error {t : Traced μ ε α} {fault : ε} (failed : t.outcome = .error fault)
    (next : α → Traced μ ε β) : (t >>= next).trail = t.trail := by
  rcases t with ⟨other | b, moments⟩
  · exact List.append_nil moments
  · cases failed

/-- What follows a plain result goes on with it. -/
@[simp] theorem ofExcept_bind (a : α) (next : α → Traced μ ε β) :
    (ofExcept (.ok a) >>= next) = next a := rfl

/-- What was noted was noted by the first computation or by the one after it. -/
theorem mem_trail_bind {t : Traced μ ε α} {next : α → Traced μ ε β} {moment : μ}
    (member : moment ∈ (t >>= next).trail) :
    moment ∈ t.trail ∨ ∃ a, t.outcome = .ok a ∧ moment ∈ (next a).trail := by
  cases reached : t.outcome with
  | error fault =>
    rw [trail_bind_error reached] at member
    exact .inl member
  | ok a =>
    rw [trail_bind_ok reached] at member
    exact (List.mem_append.mp member).imp_right (fun later => ⟨a, rfl, later⟩)

/-- The moments of a computation stay in the trail of what follows it. -/
theorem mem_trail_left {t : Traced μ ε α} {moment : μ} (member : moment ∈ t.trail)
    (next : α → Traced μ ε β) : moment ∈ (t >>= next).trail := by
  cases reached : t.outcome with
  | error fault => rwa [trail_bind_error reached]
  | ok a =>
    rw [trail_bind_ok reached]
    exact List.mem_append_left _ member

end Traced

/-- A path of a step relation: every event leads from the state before it to the state
noted beside it. -/
inductive Path {σ ε : Type} (step : σ → ε → σ → Prop) : σ → List (ε × σ) → σ → Prop where
  | nil (s : σ) : Path step s [] s
  | cons {s s' last : σ} {event : ε} {rest : List (ε × σ)} (first : step s event s')
      (tail : Path step s' rest last) : Path step s ((event, s') :: rest) last

namespace Path

variable {σ ε : Type} {step : σ → ε → σ → Prop} {s mid last : σ}

/-- One step is a path. -/
theorem single {event : ε} (first : step s event last) : Path step s [(event, last)] last :=
  .cons first (.nil last)

/-- A path goes on where another one has ended. -/
theorem append {early late : List (ε × σ)} (first : Path step s early mid)
    (second : Path step mid late last) : Path step s (early ++ late) last := by
  induction first with
  | nil => exact second
  | cons taken _ inductionHypothesis => exact .cons taken (inductionHypothesis second)

/-- What every step keeps holds at the end of a path and all along it. -/
theorem invariant {inv : σ → Prop} (keeps : ∀ s event s', inv s → step s event s' → inv s')
    {moments : List (ε × σ)} (path : Path step s moments last) (start : inv s) :
    inv last ∧ ∀ moment ∈ moments, inv moment.2 := by
  induction path with
  | nil => exact ⟨start, by simp⟩
  | cons taken _ inductionHypothesis =>
    have here := keeps _ _ _ start taken
    obtain ⟨atEnd, along⟩ := inductionHypothesis here
    exact ⟨atEnd, List.forall_mem_cons.mpr ⟨here, along⟩⟩

/-- A path is the steps before a moment, the step to it and the steps after it. -/
theorem split {early late : List (ε × σ)} {moment : ε × σ}
    (path : Path step s (early ++ moment :: late) last) :
    ∃ before, Path step s early before ∧ step before moment.1 moment.2 ∧
      Path step moment.2 late last := by
  induction early generalizing s with
  | nil =>
    cases path with
    | cons taken tail => exact ⟨s, .nil s, taken, tail⟩
  | cons first rest inductionHypothesis =>
    cases path with
    | cons taken tail =>
      obtain ⟨before, reached, here, later⟩ := inductionHypothesis tail
      exact ⟨before, .cons taken reached, here, later⟩

end Path

/-- The trail of a computation from a state is a path to the state it ends in, and if it
fails, it does so with one of the faults allowed. -/
structure Follows {σ ε φ α : Type} (step : σ → ε → σ → Prop) (allowed : φ → Prop) (s : σ)
    (t : Traced (ε × σ) φ α) (final : α → σ) : Prop where
  done : ∀ a, t.outcome = .ok a → Path step s t.trail (final a)
  failed : ∀ fault, t.outcome = .error fault →
    allowed fault ∧ ∃ last, Path step s t.trail last

namespace Follows

variable {σ ε φ α β : Type} {step : σ → ε → σ → Prop} {allowed : φ → Prop} {s : σ}

/-- A value takes no step. -/
theorem pure {final : α → σ} {a : α} (same : final a = s) :
    Follows step allowed s (Pure.pure a : Traced (ε × σ) φ α) final where
  done b done := by
    cases done
    rw [same]
    exact .nil s
  failed fault failed := by cases failed

/-- One computation after the other. -/
theorem bind {t : Traced (ε × σ) φ α} {final : α → σ} {next : α → Traced (ε × σ) φ β}
    {final' : β → σ} (first : Follows step allowed s t final)
    (second : ∀ a, t.outcome = .ok a → Follows step allowed (final a) (next a) final') :
    Follows step allowed s (t >>= next) final' := by
  cases reached : t.outcome with
  | error fault =>
    obtain ⟨isAllowed, last, path⟩ := first.failed fault reached
    refine ⟨fun b done => ?_, fun other failed => ?_⟩
    · rw [Traced.outcome_bind, reached] at done
      cases done
    · rw [Traced.outcome_bind, reached] at failed
      cases failed
      exact ⟨isAllowed, last, by rwa [Traced.trail_bind_error reached]⟩
  | ok a =>
    have path := first.done a reached
    have later := second a reached
    have same : (t >>= next).outcome = (next a).outcome := by
      rw [Traced.outcome_bind, reached]
      rfl
    refine ⟨fun b done => ?_, fun fault failed => ?_⟩
    · rw [Traced.trail_bind_ok reached]
      exact path.append (later.done b (same ▸ done))
    · rw [Traced.trail_bind_ok reached]
      obtain ⟨isAllowed, last, rest⟩ := later.failed fault (same ▸ failed)
      exact ⟨isAllowed, last, path.append rest⟩

/-- A result without a trail, and a computation after it. -/
theorem ofExcept_bind {result : Except φ α} {next : α → Traced (ε × σ) φ β} {final : β → σ}
    (only : ∀ fault, result = .error fault → allowed fault)
    (second : ∀ a, result = .ok a → Follows step allowed s (next a) final) :
    Follows step allowed s (Traced.ofExcept result >>= next) final := by
  cases result with
  | error fault =>
    refine ⟨fun b done => (nomatch done), fun other failed => ?_⟩
    cases failed
    exact ⟨only fault rfl, s, .nil s⟩
  | ok a => exact second a rfl

end Follows

end Sillage
