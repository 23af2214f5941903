import Sillage.Reader.Realization

/-!
# The catalogs behind the passes

A replay task plans its first pass on the catalog of its subscription, and every later one on
the catalog that it finds published at the top of a turn. So the catalogs of its passes, and
behind them the one of the pass that is under way or has failed, come out of those, in their
order.
-/

namespace Sillage

namespace Connection

open Behaviour

/-- The catalog that a turn of the replay task finds published. -/
@[simp] def Action.published : Action → Option ChunkCatalog
  | .replay (.turn catalog) => some catalog
  | _ => none

/-- The catalogs of the passes of a follower, and of one that is kept beside them. -/
def passCatalogs (s : FollowState) (beside : Option Driving) : List ChunkCatalog :=
  s.passes.map Pass.catalog ++ beside.toList.map Driving.catalog

namespace Task

/-- The catalogs that the task has planned on. -/
def catalogs (t : Task) : List ChunkCatalog :=
  match t.stage with
  | .turning => passCatalogs t.follower none
  | .merging d => passCatalogs t.follower (some d)
  | .pacing d _ => passCatalogs t.follower (some d)
  | .sending d _ => passCatalogs t.follower (some d)
  | .idling => passCatalogs t.follower none
  | .notifying _ s _ cut => passCatalogs s cut
  | .notified s _ cut => passCatalogs s cut
  | .returned _ cut => passCatalogs t.follower cut

/-- The task has planned on the catalog of the subscription and on catalogs that turns have
found published. Until it has returned, the first plan is still to be driven as long as there
is no pass. -/
structure PlansOn (catalog : ChunkCatalog) (published : List ChunkCatalog) (t : Task) : Prop where
  catalogs : List.Sublist t.catalogs (catalog :: published)
  planned : t.stage.hasReturned = false → t.follower.planned = none ∨
    (∃ plan, t.follower.planned = some (catalog, plan)) ∧ t.follower.passes = []

/-- A task has planned on nothing but some catalogs. Until it has returned, it has left the first
plan of a follower where it is, or has driven it. -/
structure KeepsTo (catalogs : List ChunkCatalog) (s : FollowState) (t : Task) : Prop where
  catalogs : List.Sublist t.catalogs catalogs
  planned : t.stage.hasReturned = false → t.follower.planned = none ∨
    t.follower.planned = s.planned ∧ t.follower.passes = s.passes

variable {reader : Reader} {ctx : FollowContext} {texts : ErrorTexts} {stop : Bool}
  {catalog : ChunkCatalog} {published : List ChunkCatalog} {t t' : Task}

/-- What keeps to the catalogs of a task has planned on what that task has. -/
theorem PlansOn.keeps (plansOn : t.PlansOn catalog published) (isOpen : t.stage.hasReturned = false)
    (keeps : t'.KeepsTo t.catalogs t.follower) : t'.PlansOn catalog published where
  catalogs := keeps.catalogs.trans plansOn.catalogs
  planned := fun isOpen' => by
    rcases keeps.planned isOpen' with driven | ⟨samePlan, samePasses⟩
    · exact .inl driven
    · rw [samePlan, samePasses]
      exact plansOn.planned isOpen

/-! ## One lemma for each part of a step -/

/-- A pass counts with its catalog, under way or behind. -/
theorem passCatalogs_passed (d : Driving) (exit : Exit) (drive : DriveState) :
    passCatalogs (t.passed d exit drive) none = passCatalogs t.follower (some d) := by
  simp [passCatalogs, passed_passes]

/-- Behind a message the task has planned on nothing else. -/
theorem behind_keepsTo (d : Driving) (progress : Progress) :
    (t.behind d progress).KeepsTo (passCatalogs t.follower (some d)) t.follower := by
  cases progress with
  | continues drive => exact ⟨List.Sublist.refl _, fun _ => .inr ⟨rfl, rfl⟩⟩
  | ends exit drive =>
    have sublist : List.Sublist (passCatalogs (t.passed d exit drive) none)
        (passCatalogs t.follower (some d)) := by
      rw [passCatalogs_passed]
    simp only [behind]
    cases notice exit with
    | none => exact ⟨sublist, fun _ => .inl rfl⟩
    | some status => exact ⟨sublist, fun _ => .inr ⟨rfl, rfl⟩⟩

/-- Nor has it behind a pass that was drained. -/
theorem settle_keepsTo (now : Nat) (d : Driving) (drive : DriveState) :
    (t.settle ctx now d drive).KeepsTo (passCatalogs t.follower (some d)) t.follower := by
  have sublist : List.Sublist (passCatalogs (t.passed d .drained drive) none)
      (passCatalogs t.follower (some d)) := by
    rw [passCatalogs_passed]
  rw [settle]
  rcases Follow.settle_cases ctx (turnOn d.catalog now) (Replay.outcomeOf .drained drive).stats
    (t.passed d .drained drive) with ⟨-, ended⟩ | ⟨-, ⟨deadline, goes⟩ | ⟨-, ended⟩ | ended⟩
  · rw [ended]
    exact ⟨sublist, fun _ => .inl rfl⟩
  · rw [goes]
    dsimp only
    split
    · exact ⟨sublist, fun _ => .inl rfl⟩
    · exact ⟨sublist, fun _ => .inl rfl⟩
  · rw [ended]
    exact ⟨sublist, fun _ => .inl rfl⟩
  · rw [ended]
    exact ⟨sublist, fun _ => .inl rfl⟩

/-- Nor has it at the top of an iteration. -/
theorem take_keepsTo (now : Nat) (d : Driving) :
    (t.take reader ctx texts now d).KeepsTo (passCatalogs t.follower (some d)) t.follower := by
  have stays : ∀ stage : Stage, Task.catalogs ⟨t.follower, stage⟩ =
      passCatalogs t.follower (some d) →
      KeepsTo (passCatalogs t.follower (some d)) t.follower ⟨t.follower, stage⟩ :=
    fun stage same => ⟨by rw [same], fun _ => .inr ⟨rfl, rfl⟩⟩
  rw [take]
  cases Replay.dequeue reader d.drive.cursors d.drive.cache with
  | error error => cases error <;> exact stays _ rfl
  | ok found =>
    obtain ⟨head, cursors, cache⟩ := found
    cases head with
    | none => exact settle_keepsTo now d _
    | some head =>
      obtain ⟨winner, slot, item⟩ := head
      dsimp only
      split
      · exact stays _ rfl
      · exact stays _ rfl

/-- The top of a turn plans on the first catalog, or on the one that the turn finds. -/
theorem turn_plansOn (plansOn : t.PlansOn catalog published) (turning : t.stage = .turning)
    (latest : ChunkCatalog) :
    (t.turn reader ctx texts stop latest).PlansOn catalog (published ++ [latest]) := by
  have before : List.Sublist (passCatalogs t.follower none) (catalog :: published) := by
    have catalogs := plansOn.catalogs
    rw [Task.catalogs, turning] at catalogs
    exact catalogs
  have wider : List.Sublist (catalog :: published) (catalog :: (published ++ [latest])) :=
    (List.sublist_append_left published [latest]).cons_cons catalog
  have isOpen : t.stage.hasReturned = false := by
    rw [turning]
    rfl
  have planned := plansOn.planned isOpen
  rw [turn]
  cases stop with
  | true => exact ⟨before.trans wider, fun _ => planned⟩
  | false =>
    simp only [Bool.false_eq_true, if_false]
    cases next : Follow.nextPlan reader ctx (turnOn latest 0) t.follower with
    | error reason => cases reason <;> exact ⟨before.trans wider, fun _ => planned⟩
    | ok found =>
      obtain ⟨found, plan, indexCache⟩ := found
      refine ⟨?_, fun _ => planned⟩
      simp only [Task.catalogs]
      rw [Follow.nextPlan] at next
      rcases planned with driven | ⟨⟨first, isFirst⟩, noPass⟩
      · -- every later pass is planned on the catalog of its turn
        have same : found = latest := by
          rw [driven] at next
          cases resumed : Follow.resumeFrom ctx t.follower.total.lastSlot with
          | error reason =>
            rw [resumed] at next
            cases next
          | ok resume =>
            rw [resumed] at next
            simp only [bind, Except.bind] at next
            split at next
            · cases next
            · cases next
              rfl
        rw [same]
        simpa [passCatalogs] using before.append (List.Sublist.refl [latest])
      · rw [isFirst] at next
        cases next
        simp [passCatalogs, noPass]

/-- A task that steps has not returned. -/
theorem step_isOpen {channel channel' : Channel Item} {items : List Item}
    {action : ReplayAction}
    (done : t.step reader ctx texts stop channel action = some (items, channel', t')) :
    t.stage.hasReturned = false := by
  obtain ⟨follower, stage⟩ := t
  cases stage with
  | returned reason cut => cases action <;> cases done
  | _ => rfl

/-- Every step of the replay task but the top of a turn keeps to what has been planned on. -/
theorem step_keepsTo {channel channel' : Channel Item} {items : List Item}
    {action : ReplayAction} (silent : (Action.replay action).published = none)
    (done : t.step reader ctx texts stop channel action = some (items, channel', t')) :
    t'.KeepsTo t.catalogs t.follower := by
  have stays : ∀ stage : Stage, Task.catalogs ⟨t.follower, stage⟩ = t.catalogs →
      KeepsTo t.catalogs t.follower ⟨t.follower, stage⟩ :=
    fun stage same => ⟨by rw [same], fun _ => .inr ⟨rfl, rfl⟩⟩
  obtain ⟨follower, stage⟩ := t
  cases action with
  | turn latest => cases silent
  | take now =>
    cases stage with
    | merging d =>
      cases done
      exact take_keepsTo now d
    | _ => cases done
  | due =>
    cases stage with
    | pacing d head =>
      cases done
      exact stays _ rfl
    | _ => cases done
  | cancelled =>
    cases stage with
    | pacing d head =>
      simp only [step] at done
      split at done
      · cases done
        exact behind_keepsTo d _
      · cases done
    | idling =>
      simp only [step] at done
      split at done
      · cases done
        exact stays _ rfl
      · cases done
    | _ => cases done
  | send now =>
    cases stage with
    | sending d head =>
      simp only [step] at done
      split at done
      · cases done
        exact behind_keepsTo d _
      · cases done
      · cases done
        exact behind_keepsTo d _
    | _ => cases done
  | timeOut =>
    cases stage with
    | sending d head =>
      simp only [step] at done
      split at done
      · cases done
        exact behind_keepsTo d _
      · cases done
    | _ => cases done
  | notify =>
    cases stage with
    | notifying status s reason cut =>
      simp only [step] at done
      split at done
      · cases done
        exact stays _ rfl
      · cases done
      · cases done
        exact stays _ rfl
    | _ => cases done
  | finish =>
    cases stage with
    | notified s reason cut =>
      cases done
      exact ⟨List.Sublist.refl _, by rintro ⟨⟩⟩
    | _ => cases done
  | poll =>
    cases stage with
    | idling =>
      cases done
      exact stays _ rfl
    | _ => cases done

/-- A step of the replay task plans on what has been published, the top of a turn on what it
finds there. -/
theorem step_plansOn {channel channel' : Channel Item} {items : List Item}
    {action : ReplayAction} (plansOn : t.PlansOn catalog published)
    (done : t.step reader ctx texts stop channel action = some (items, channel', t')) :
    t'.PlansOn catalog (published ++ told Action.published [.replay action]) := by
  have isOpen : t.stage.hasReturned = false := step_isOpen done
  have others : (Action.replay action).published = none →
      t'.PlansOn catalog (published ++ told Action.published [.replay action]) := by
    intro silent
    rw [told_cons, silent]
    simpa using plansOn.keeps isOpen (step_keepsTo silent done)
  cases action with
  | turn latest =>
    obtain ⟨follower, stage⟩ := t
    cases stage with
    | turning =>
      cases done
      exact turn_plansOn plansOn rfl latest
    | _ => cases done
  | _ => exact others rfl

end Task

/-- The client does not touch the replay task. -/
theorem clientAct_replay {s s' : State} {action : ClientAction} {more : List Event}
    (done : s.clientAct action = some (more, s')) : s'.replay = s.replay := by
  cases action with
  | receive =>
    simp only [State.clientAct] at done
    split at done
    · split at done
      · cases done
        rfl
      · cases done
    · cases done
  | hangUp =>
    cases done
    rfl

/-- The customer's task stops the replay task, and leaves it where it is. -/
theorem customerAct_replay {s s' : State} {action : CustomerAction} {more : List Event}
    (done : s.customerAct action = some (more, s')) : s'.replay = s.replay := by
  cases action with
  | inbound message =>
    simp only [State.customerAct] at done
    split at done
    · cases message <;> (cases done; rfl)
    · cases done
  | pong =>
    simp only [State.customerAct] at done
    split at done
    · split at done
      · cases done
        rfl
      · cases done
      · cases done
        rfl
    · cases done
  | _ =>
    simp only [State.customerAct] at done
    split at done
    · cases done
      rfl
    · cases done

/-- The catalogs behind a run are the first one and those that its turns have found. -/
theorem plansOn_of_steps {reader : Reader} {ctx : FollowContext} {texts : ErrorTexts}
    {capacity now : Nat} {catalog : ChunkCatalog} {plan : ReplayPlan} {indexCache : IndexCache}
    {chunkCache : ChunkCache} {s₀ s : State} {actions : List Action} {books : List Event}
    (begun : start ctx capacity now catalog plan indexCache chunkCache = some s₀)
    (ran : Steps (act reader ctx texts) s₀ actions books s) :
    s.replay.PlansOn catalog (told Action.published actions) := by
  refine ran.keeps_with
    (fun actions _ s => s.replay.PlansOn catalog (told Action.published actions)) ?_ ?_
  · unfold start at begun
    split at begun
    · cases begun
    · cases begun
      exact ⟨List.nil_sublist _, fun _ => .inr ⟨⟨plan, rfl⟩, rfl⟩⟩
  · intro actions books s action more s' plansOn done
    rw [told_append]
    have others : told Action.published [action] = [] → s'.replay = s.replay →
        s'.replay.PlansOn catalog
          (told Action.published actions ++ told Action.published [action]) := by
      intro silent same
      rw [silent, List.append_nil, same]
      exact plansOn
    cases action with
    | client action => exact others rfl (clientAct_replay done)
    | shutdown =>
      cases done
      exact others rfl rfl
    | customer action => exact others rfl (customerAct_replay done)
    | replay action =>
      obtain ⟨⟨items, channel, replay⟩, stepped, same⟩ := Option.map_eq_some_iff.mp done
      cases same
      exact Task.step_plansOn plansOn stepped

end Connection

end Sillage
