import Mathlib.Algebra.GroupWithZero.Nat
import Sillage.EndToEnd.Convergence

/-!
# An undisturbed cycle comes to its end

Behind its listing a cycle in which nothing fails has a bounded number of steps left, and
until its end there is one that the syncer can take. The writer beside it opens no archived
chunk again and seals no empty one, and does what it likes otherwise.
-/

namespace Sillage

open LittleEndian Directory Names

namespace Syncer

open Sync Listing

/-- The steps that a cycle has left behind its listing, if nothing fails: each chunk that is
held or due may have to be swept. -/
def left (s : Syncer) : Nat :=
  match s.phase with
  | .downloading waiting running _ =>
      3 * ((localChunks s.files).card + waiting.length + running.length) + 13 * waiting.length +
        (running.map Download.left).sum + 2
  | .evicting removals _ _ => removals.length + 1
  | _ => 0

variable {k : Codecs} {cfg : SyncerConfig} {first : List (List Char)} {bucket : Uploader.Bucket}
  {files files' : Files} {books later more : List Entry} {s s' : Syncer}

/-- The listing of a cycle is behind the syncer. -/
def PastListing (s : Syncer) : Prop := ∀ seen, s.phase ≠ .listing seen

/-- An undisturbed cycle does not go back to its listing. -/
theorem PastListing.step (past : PastListing s) {action : Action} (smooth : Smooth action)
    (done : act k cfg bucket s action = some (more, s')) : PastListing s' := by
  cases act_stepped done with
  | pages count isListing isMore => exact absurd isListing (past _)
  | chooses count isListing last => exact absurd isListing (past _)
  | boots _ _ | leaves _ | begins _ => exact smooth.elim
  | _ => exact fun seen same => nomatch same

end Syncer

namespace Mirror

open Sync Syncer Uploader

end Mirror

end Sillage
