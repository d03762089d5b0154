import LayerPack.Proofs.Pipeline.Steps

/-! The state in which a run ends, for any collaborators and any host: `done` if it has succeeded, and
otherwise that of the stage that failed. -/
namespace LayerPack

open Program

variable {α β : Type}

/-- A part of a run that succeeds leaves the run like this; one that fails leaves it in the state of the
stage that failed. -/
def Steps.Leaves (P : Progress → Prop) (x : Steps α) : Prop :=
  ∀ p, (x p).Returns fun r => match r.1 with
    | .ok _ => P r.2
    | .error failure => r.2.state = .failed failure.stage

namespace Steps

variable {P : Progress → Prop}

theorem Leaves.bind {x : Steps α} {f : α → Steps β} (hx : x.Leaves fun _ => True)
    (hf : ∀ a, (f a).Leaves P) : (x >>= f).Leaves P := fun p =>
  Returns.bind (hx p) fun r hr => by
    obtain ⟨r, p'⟩ := r
    cases r with
    | ok a => exact hf a p'
    | error failure => exact hr

theorem leaves_update (f : Progress → Progress) : (update f).Leaves fun _ => True := fun _ => trivial

end Steps

namespace Pipeline

theorem stage_leaves (limit : Option Nat) (stage : Stage) (work : Work α) :
    (Pipeline.stage limit stage work).Leaves fun _ => True := by
  intro p _ started
  refine Returns.bind (p := work.run _) (returns_true _) fun r _ => ?_
  cases r with
  | ok a => exact fun _ _ => trivial
  | error stop => exact (rfl : RunState.failed stage = .failed stage)

theorem finish_leaves {s : Settings} {t : Toolchain} {startedAt : Nat} {workspace : Workspace}
    {wheel : Wheel} {treeDigest : String} {archive : Archive.Summary} :
    (finish s t startedAt workspace wheel treeDigest archive).Leaves (·.state = .done) := by
  have reconciled : (reconcile t s wheel).Leaves fun _ => True := by
    unfold reconcile
    split
    · exact (stage_leaves _ _ _).bind fun _ _ => trivial
    · exact fun _ _ => trivial
  exact reconciled.bind fun replaced p => (rfl : RunState.done = .done)

theorem stages_leaves (s : Settings) (t : Toolchain) (startedAt : Nat) :
    (stages s t startedAt).Leaves (·.state = .done) := by
  refine (stage_leaves _ _ _).bind fun workspace => ?_
  refine (Steps.leaves_update _).bind fun _ => ?_
  refine (stage_leaves _ _ _).bind fun wheel => (stage_leaves _ _ _).bind fun treeDigest => ?_
  exact (stage_leaves _ _ _).bind fun archive => finish_leaves

/-- A run is done if it succeeds; if it fails, the state names the stage. -/
theorem run_returns (s : Settings) (t : Toolchain) (previous : RunState) :
    (run s t previous).Returns fun r => match r.1 with
      | .ok _ => r.2 = .done
      | .error failure => r.2 = .failed failure.stage := by
  intro startedAt
  refine (stages_leaves s t startedAt { state := previous }).bind fun r hr => ?_
  refine (returns_true (cleanUp s r.2.workspace)).bind fun _ _ => ?_
  refine (returns_true (logOutcome r.1)).bind fun _ _ => ?_
  obtain ⟨r, p⟩ := r
  cases r <;> exact hr

end Pipeline

end LayerPack
