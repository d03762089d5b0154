import LayerPack.Proofs.Pipeline.Requests
import LayerPack.Proofs.Pipeline.Steps

/-! All that a run can ask, whatever its collaborators are: it looks around, makes directories, removes
its workspace and an old archive, and archives. The workspace that it removes is that of its
settings. -/
namespace LayerPack

open Program Request

variable {α β : Type} {p : Progress}

theorem Steps.returns_bind {x : Steps α} {f : α → Steps β}
    {P : Except Failure α × Progress → Prop} {Q : Except Failure β × Progress → Prop}
    (hx : (x p).Returns P) (next : ∀ a p', P (.ok a, p') → (f a p').Returns Q)
    (failed : ∀ failure p', P (.error failure, p') → Q (.error failure, p')) :
    ((x >>= f) p).Returns Q := by
  refine Returns.bind hx fun r hr => ?_
  obtain ⟨_ | a, p'⟩ := r
  · exact failed _ p' hr
  · exact next a p' hr

namespace Pipeline

variable {s : Settings} {t : Toolchain} {K : Request → Prop}

/-- A stage leaves the workspace of a run as it is, and what fails in it fails with its name. -/
theorem returns_stage {limit : Option Nat} {stage : Stage} {work : Work α} {P : α → Prop}
    (hw : work.Yields P) : (Pipeline.stage limit stage work p).Returns fun r =>
      r.2.workspace = p.workspace ∧ match r.1 with
        | .ok a => P a
        | .error failure => failure.stage = stage := by
  intro _ started
  refine (hw (limit.map (started + ·))).bind fun r hr => ?_
  cases r with
  | error stop => exact ⟨rfl, rfl⟩
  | ok a => exact fun _ _ => ⟨rfl, hr a rfl⟩

/-- The workspace of a run is known, and its first stage has not failed. -/
def Begun (s : Settings) (r : Except Failure α × Progress) : Prop :=
  r.2.workspace = some ⟨s.workspace⟩ ∧ ∀ failure, r.1 = .error failure → failure.stage ≠ .clean

theorem begun_ok {a : α} (hp : p.workspace = some ⟨s.workspace⟩) : Begun s (.ok a, p) :=
  ⟨hp, fun _ h => by cases h⟩

/-- A stage after the first, and what follows it. -/
theorem begun_stage {stage : Stage} {work : Work α} {f : α → Steps β} (hs : stage ≠ .clean)
    (hp : p.workspace = some ⟨s.workspace⟩)
    (next : ∀ a p', p'.workspace = some ⟨s.workspace⟩ → (f a p').Returns (Begun s)) :
    ((Pipeline.stage s.stageTimeout stage work >>= f) p).Returns (Begun s) := by
  refine Steps.returns_bind (returns_stage (Work.yields_true work)) ?_ ?_
  · exact fun a p' h => next a p' (h.1.trans hp)
  · rintro failure p' ⟨h, rfl⟩
    exact ⟨h.trans hp, fun _ he => by cases he; exact hs⟩

theorem begun_finish {startedAt : Nat} {workspace : Workspace} {wheel : Wheel} {treeDigest : String}
    {archive : Archive.Summary} (hp : p.workspace = some ⟨s.workspace⟩) :
    (finish s t startedAt workspace wheel treeDigest archive p).Returns (Begun s) := by
  refine Steps.returns_bind (P := Begun s) ?_ (fun _ p' h => begun_ok h.1) fun failure p' h => ?_
  · unfold reconcile
    cases s.reconcile with
    | false => exact fun _ => begun_ok hp
    | true => exact begun_stage (by decide) hp fun _ p' h => begun_ok h
  · exact ⟨h.1, fun _ he => by cases he; exact h.2 failure rfl⟩

/-- All stages but the first. -/
def laterStages (s : Settings) (t : Toolchain) (startedAt : Nat) (workspace : Workspace) :
    Steps Report := do
  let limit := s.stageTimeout
  let wheel ← stage limit .build (buildWheel t s.source s.dist s.project)
  let treeDigest ← stage limit .materialize (install t s workspace wheel)
  let archive ← stage limit .archive (Archive.write workspace.target s.output)
  finish s t startedAt workspace wheel treeDigest archive

theorem stages_eq (s : Settings) (t : Toolchain) (startedAt : Nat) :
    stages s t startedAt = (do
      let workspace ← stage s.stageTimeout .clean (clean s)
      Steps.update fun p => { p with workspace := some workspace }
      laterStages s t startedAt workspace) := rfl

theorem begun_laterStages {startedAt : Nat} {workspace : Workspace}
    (hp : p.workspace = some ⟨s.workspace⟩) :
    (laterStages s t startedAt workspace p).Returns (Begun s) :=
  begun_stage (by decide) hp fun _ _ hp => begun_stage (by decide) hp fun _ _ hp =>
    begun_stage (by decide) hp fun _ _ hp => begun_finish hp

/-- A run knows its workspace when the first stage is over. -/
theorem returns_stages (startedAt : Nat) (previous : RunState) :
    (stages s t startedAt { state := previous }).Returns fun r =>
      r.2.workspace = none ∨ Begun s r := by
  rw [stages_eq]
  refine Steps.returns_bind (returns_stage (clean_yields s)) ?_ fun _ p' h => .inl h.1
  rintro _ p₁ ⟨-, rfl⟩
  exact Returns.mono (p := laterStages s t startedAt ⟨s.workspace⟩ _) (begun_laterStages rfl)
    fun r h => .inr h

section Only

variable (s : Settings) (previous : RunState)

/-- What a whole run can ask, apart from what its collaborators ask. -/
theorem only_run (hQ : ∀ q, Quiet q → K q)
    (hL : ∀ level text, K (.log level text)) (hM : ∀ p, K (.mkdir p))
    (hR : ∀ q, q.Removes s.workspace → K q) (hU : K (.unlink s.output))
    (hA : ∀ q fresh, q.Archives s.output fresh → K q) (hC : ∀ call, (t.perform call).Only K) :
    (run s t previous).Only K := by
  have makes {p : Path} (q : Request) (h : q.Makes p) : K q :=
    h.elim (hQ q) fun ⟨up, _, h⟩ => h ▸ hM up
  have cleaned : (clean s).Only K := (only_clean s).mono fun q h => by
    rcases h with h | h | h | ⟨-, h⟩ | rfl
    · exact hR q h
    · exact makes q h
    · exact makes q h
    · exact makes q h
    · exact hU
  have staged {α : Type} {stage : Stage} {work : Work α} {p : Progress} (hw : work.Only K) :
      (Pipeline.stage s.stageTimeout stage work p).Only K := only_stage hL (hQ _ trivial) hw
  have all (startedAt : Nat) : (stages s t startedAt { state := previous }).Only K := by
    refine only_steps_bind (staged cleaned) fun workspace p => ?_
    refine only_steps_bind (x := Steps.update _) trivial fun _ p => ?_
    refine only_steps_bind (staged (only_buildWheel s hQ (hC _))) fun wheel p => ?_
    refine only_steps_bind (staged (only_install s _ wheel hQ (fun p _ => hM p) (hC _))) fun digest p => ?_
    refine only_steps_bind (staged (Archive.only_write _ _ hA fun p _ => hM p)) fun archive p => ?_
    exact only_finish s _ _ _ _ _ _ hL hQ fun call _ => hC call
  refine (only_request.mpr (hQ .clock trivial)).bind fun startedAt => ?_
  refine (all startedAt).bind_returns (returns_stages startedAt previous) fun r known => ?_
  refine Only.bind ?_ fun _ => (only_logOutcome r.1 hL).bind fun _ => trivial
  rcases known with h | ⟨h, -⟩
  · rw [h]
    trivial
  · rw [h]
    exact only_cleanUp s _ hL hR

end Only

end Pipeline

end LayerPack
