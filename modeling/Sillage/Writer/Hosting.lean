import Sillage.Writer.Archival.Invariant

/-!
# The calls of a lane are made of its steps

A lane beside the uploader takes its calls apart into steps that others can come in
between. Every state that a chunker reaches by its calls, crashes included, is one that
its lane reaches by its steps.
-/

namespace Sillage.Uploader

open LittleEndian Directory Names OpenChunk

variable {k : Codecs} {cfg : WriterConfig} {up : UploaderConfig}

/-- A state of the system in which a stream's lane is up with the given chunker. -/
def Hosts (k : Codecs) (cfg : WriterConfig) (up : UploaderConfig) (stream : Stream) (lane : Lane) :
    Prop :=
  ∃ books w, Run k cfg up books w ∧ w.lanes stream = lane ∧ w.phase = .idle

/-- A step of a lane is one of the system that hosts it. -/
theorem Hosts.lane {stream : Stream} {s : Chunker} {after : Lane}
    (hosts : Hosts k cfg up stream ⟨s, none⟩) (action : Action) (stepped : laneAct k s action = some after)
    (isLane : ∀ w, act k cfg up w action = act.lane k w stream action) :
    Hosts k cfg up stream after := by
  obtain ⟨books, w, ran, isHosted, isIdle⟩ := hosts
  have free : w.free stream = some s := by
    simp [Writer.free, isIdle, isHosted]
  have done : act k cfg up w action = some ([], w.withLane stream after) := by
    rw [isLane, act.lane, free, Option.bind_eq_bind, Option.bind_some, stepped]
    rfl
  exact ⟨_, _, .step action ran trivial done, by simp, isIdle⟩

/-- Beginning to seal an open chunk is one of these. -/
theorem Hosts.begin {stream : Stream} {s : Chunker} {idx : Nat} {chunk : OpenChunk}
    {written : Bytes} (hosts : Hosts k cfg up stream ⟨s, none⟩) (found : s.open[idx]? = some chunk)
    (held : chunk.encoder = some written) (reason : String) :
    Hosts k cfg up stream ⟨{ s with «open» := s.open.erase idx },
      some ⟨idx, chunk.files k s.stream written reason,
        chunk.sealSteps k s.stream written reason⟩⟩ := by
  refine hosts.lane (.beginSeal stream reason idx) ?_ (fun _ => rfl)
  rw [laneAct, found, Option.bind_eq_bind, Option.bind_some, held]
  rfl

/-- One file step of a seal. -/
theorem Hosts.sealStep {stream : Stream} {s : Chunker} {idx : Nat} {files : ChunkFiles}
    {step : FileStep} {rest : List FileStep}
    (hosts : Hosts k cfg up stream ⟨s, some ⟨idx, files, step :: rest⟩⟩) :
    Hosts k cfg up stream ⟨{ s with baseDir := FileStep.apply s.baseDir step },
      if rest = [] then none else some ⟨idx, files, rest⟩⟩ := by
  obtain ⟨books, w, ran, isHosted, isIdle⟩ := hosts
  by_cases isLast : rest = []
  · have done : act k cfg up w (.sealStep stream) = some ([.sealed stream idx files],
        w.withLane stream ⟨{ s with baseDir := FileStep.apply s.baseDir step }, none⟩) := by
      simp only [act, sealAct, isIdle, isHosted, isLast, if_true]
    exact ⟨_, _, .step _ ran trivial done, by simp [isLast], isIdle⟩
  · have done : act k cfg up w (.sealStep stream) = some ([],
        w.withLane stream ⟨{ s with baseDir := FileStep.apply s.baseDir step },
          some ⟨idx, files, rest⟩⟩) := by
      simp only [act, sealAct, isIdle, isHosted, isLast, if_false]
    exact ⟨_, _, .step _ ran trivial done, by simp [isLast], isIdle⟩

/-- The file steps of a seal, up to some of them. -/
theorem Hosts.seal {stream : Stream} {s : Chunker} {idx : Nat} {files : ChunkFiles}
    {steps : List FileStep} (hosts : Hosts k cfg up stream ⟨s, some ⟨idx, files, steps⟩⟩)
    (nonempty : steps ≠ []) (cut : Nat) :
    Hosts k cfg up stream
      ⟨{ s with baseDir := performCut s.baseDir steps cut },
        if steps.length ≤ cut then none else some ⟨idx, files, steps.drop cut⟩⟩ := by
  induction cut with
  | zero => simpa [performCut, perform, nonempty] using hosts
  | succ cut inductionHypothesis =>
    by_cases done : steps.length ≤ cut
    · rw [if_pos done, performCut_all _ _ _ done] at inductionHypothesis
      rwa [if_pos (Nat.le_succ_of_le done), performCut_all _ _ _ (Nat.le_succ_of_le done)]
    · have inside : cut < steps.length := Nat.lt_of_not_le done
      have next : performCut s.baseDir steps (cut + 1) =
          FileStep.apply (performCut s.baseDir steps cut) steps[cut] := by
        rw [performCut, List.take_succ_eq_append_getElem inside, perform, List.foldl_append]
        rfl
      rw [if_neg done, List.drop_eq_getElem_cons inside] at inductionHypothesis
      have stepped := inductionHypothesis.sealStep
      simp only [List.drop_eq_nil_iff, ← next] at stepped
      exact stepped

/-- A crash at any step, and the start behind it. -/
theorem Hosts.restart {stream : Stream} {lane : Lane} (hosts : Hosts k cfg up stream lane) :
    Hosts k cfg up stream
      ⟨Chunker.new stream cfg (Recovery.sweepPartials lane.chunker.baseDir).1, none⟩ := by
  obtain ⟨books, w, ran, rfl, -⟩ := hosts
  exact ⟨_, _, .step .boot (.step .crash ran trivial rfl) trivial rfl, rfl, rfl⟩

/-- Every state that the calls of a lane pass through, over any number of lifetimes, is one
of the system's. -/
theorem hosts_reachable (positive : 0 < cfg.slotsPerChunk) {stream : Stream} {s : Chunker}
    (reached : Reachable k stream cfg s) : Hosts k cfg up stream ⟨s, none⟩ := by
  induction reached with
  | start => exact ⟨_, _, .step .boot .start trivial rfl, rfl, rfl⟩
  | advance slot reached inductionHypothesis =>
    exact inductionHypothesis.lane (.advance stream slot) rfl (fun _ => rfl)
  | @record s opened s' verdict a fits reached begun recorded inductionHypothesis =>
    have began : Hosts k cfg up stream ⟨opened, none⟩ :=
      inductionHypothesis.lane (.openChunk stream a.now (a.slot / cfg.slotsPerChunk))
        (by rw [laneAct, begun]; rfl) (fun _ => rfl)
    have sameCfg : opened.cfg = cfg := by
      have config := reached.config positive
      rcases Tracks.openChunk_ok begun with rfl | ⟨-, -, -, result⟩
      · exact config
      · rw [result k]
        exact config
    have divided : checkedDiv a.slot opened.cfg.slotsPerChunk = .ok (a.slot / cfg.slotsPerChunk) := by
      rw [sameCfg, checkedDiv, if_neg positive.ne']
    refine began.lane (.append stream a) ?_ (fun _ => rfl)
    rw [laneAct, divided]
    change ((Chunker.appendTo k (a.slot / cfg.slotsPerChunk) a opened).toOption >>= _) = _
    rw [recorded]
    rfl
  | @«sealed» s s' reason idx reached done inductionHypothesis =>
    obtain ⟨chunk, written, found, held, -⟩ := Tracks.sealChunk_ok done
    have begun := inductionHypothesis.begin found held reason
    have all := begun.seal (by simp [sealSteps]) sealLength
    simp only [Chunker.sealChunk, found, held, Except.ok.injEq] at done
    rw [← done]
    exact all
  | restart reached inductionHypothesis => exact inductionHypothesis.restart
  | @cut s reason idx cut dir reached done whole inductionHypothesis =>
    rw [Chunker.sealCut] at done
    split at done
    · cases done
    · next chunk found =>
      split at done
      · cases done
      · next written held =>
        obtain rfl := Except.ok.inj done
        have begun := inductionHypothesis.begin found held reason
        exact (begun.seal (by simp [sealSteps]) cut).restart

end Sillage.Uploader
