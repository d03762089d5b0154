import LayerPack.Pipeline.Run
import LayerPack.Proofs.Program.Requests

/-! Running the stages one after another. A run of a stage is a run of its work between two looks
at the clock, and what follows a stage runs only if the stage has succeeded. -/
namespace LayerPack

open Program

variable {α β σ : Type} {answer : Answers σ} {host : σ}

theorem Steps.ends_bind {x : Steps α} {f : α → Steps β} {p : Progress}
    {Q : Except Failure β × Progress → List (Request × σ) → σ → Prop} :
    ((x >>= f) p).Ends answer host Q ↔
      (x p).Ends answer host fun r es h => match r with
        | (.ok a, p') => (f a p').Ends answer h fun r' es' h' => Q r' (es ++ es') h'
        | (.error failure, p') => Q (.error failure, p') es h := by
  change ((x p).bind _).Ends answer host Q ↔ _
  rw [Program.ends_bind]
  unfold Program.Ends
  rcases (x p).run answer host with ⟨⟨r, p'⟩, h⟩
  cases r with
  | ok a => exact Iff.rfl
  | error failure => simp [Program.run, Program.trace]

@[simp] theorem Steps.ends_update {f : Progress → Progress} {p : Progress}
    {Q : Except Failure Unit × Progress → List (Request × σ) → σ → Prop} :
    (Steps.update f p).Ends answer host Q ↔ Q (.ok (), f p) [] host := Iff.rfl

@[simp] theorem Steps.ends_completed {p : Progress}
    {Q : Except Failure (List StageRecord) × Progress → List (Request × σ) → σ → Prop} :
    (Steps.completed p).Ends answer host Q ↔ Q (.ok p.completed, p) [] host := Iff.rfl

@[simp] theorem Steps.ends_pure {a : α} {p : Progress}
    {Q : Except Failure α × Progress → List (Request × σ) → σ → Prop} :
    ((pure a : Steps α) p).Ends answer host Q ↔ Q (.ok a, p) [] host := Iff.rfl

namespace Pipeline

/-- The host at the start of the work of a stage, after the announcement and a look at the
clock. -/
def atWork (answer : Answers σ) (stage : Stage) (host : σ) : σ :=
  (answer .clock (answer (.log .info stage.announcement) host).2).2

/-- The deadline of the work of a stage. -/
def deadlineOf (answer : Answers σ) (limit : Option Nat) (stage : Stage) (host : σ) : Option Nat :=
  limit.map ((answer .clock (answer (.log .info stage.announcement) host).2).1 + ·)

def opening (answer : Answers σ) (stage : Stage) (host : σ) : List (Request × σ) :=
  [(.log .info stage.announcement, host),
    (.clock, (answer (.log .info stage.announcement) host).2)]

def closing (answer : Answers σ) (stage : Stage) (duration : Nat) (host : σ) :
    List (Request × σ) :=
  [(.clock, host), (.log .debug (stage.completion duration), (answer .clock host).2)]

def afterWork (answer : Answers σ) (stage : Stage) (duration : Nat) (host : σ) : σ :=
  (answer (.log .debug (stage.completion duration)) (answer .clock host).2).2

/-- A stage ends as its work does; it is recorded if it succeeds. -/
theorem ends_stage {limit : Option Nat} {stage : Stage} {work : Work α} {p : Progress}
    {Q : Except Failure α × Progress → List (Request × σ) → σ → Prop}
    (h : (work (deadlineOf answer limit stage host)).Ends answer (atWork answer stage host)
      fun r es h' => match r with
        | .ok a => ∀ duration,
          Q (.ok a, { p with
            state := .running stage, completed := p.completed ++ [⟨stage, duration⟩] })
            (opening answer stage host ++ es ++ closing answer stage duration h')
            (afterWork answer stage duration h')
        | .error stop =>
          Q (.error ⟨stage, timeoutOf stage limit stop, p.completed⟩,
            { p with state := .failed stage }) (opening answer stage host ++ es) h') :
    (Pipeline.stage limit stage work p).Ends answer host Q := by
  change ((work (deadlineOf answer limit stage host)).bind _).Ends answer (atWork answer stage host)
    fun r es h' => Q r (opening answer stage host ++ es) h'
  rw [Program.ends_bind]
  refine h.mono fun r es h' hr => ?_
  cases r with
  | ok a =>
    have := hr ((answer .clock h').1 - (answer .clock (answer (.log .info stage.announcement) host).2).1)
    rw [List.append_assoc] at this
    exact this
  | error stop =>
    change Q _ (opening answer stage host ++ (es ++ [])) h'
    rw [List.append_nil]
    exact hr

/-- What follows a stage runs only if its work has succeeded. -/
theorem ends_stage_bind {limit : Option Nat} {stage : Stage} {work : Work α} {f : α → Steps β}
    {p : Progress} {Q : Except Failure β × Progress → List (Request × σ) → σ → Prop}
    (h : (work (deadlineOf answer limit stage host)).Ends answer (atWork answer stage host)
      fun r es h' => match r with
        | .ok a => ∀ duration, (f a { p with
            state := .running stage, completed := p.completed ++ [⟨stage, duration⟩] }).Ends
            answer (afterWork answer stage duration h') fun r es' h'' =>
              Q r (opening answer stage host ++ es ++ closing answer stage duration h' ++ es') h''
        | .error stop => Q (.error ⟨stage, timeoutOf stage limit stop, p.completed⟩,
            { p with state := .failed stage }) (opening answer stage host ++ es) h') :
    ((Pipeline.stage limit stage work >>= f) p).Ends answer host Q := by
  refine Steps.ends_bind.mpr (ends_stage (h.mono fun r es h' hr => ?_))
  cases r with
  | ok a => exact hr
  | error stop => exact hr

/-- The last stage is the only one that fails after the archive. -/
theorem finish_ends {s : Settings} {startedAt : Nat} {workspace : Workspace} {wheel : Wheel}
    {treeDigest : String} {archive : Archive.Summary} {p : Progress} :
    (finish s Toolchain.outside startedAt workspace wheel treeDigest archive p).Ends answer host
      fun r _ _ => r.2.workspace = p.workspace ∧
        match r.1 with
        | .ok report => report.archive = archive ∧ report.treeDigest = treeDigest ∧ report.wheel = wheel
        | .error failure => failure.stage = .reconcile := by
  refine Steps.ends_bind.mpr ?_
  unfold reconcile
  cases s.reconcile with
  | false => exact ⟨rfl, rfl, rfl, rfl⟩
  | true =>
    refine Steps.ends_bind.mpr (ends_stage (Ends.mono (Q := fun _ _ _ => True) trivial ?_))
    rintro (stop | installed) es m₁ -
    · exact ⟨rfl, rfl⟩
    · exact fun duration => ⟨rfl, rfl, rfl, rfl⟩

/-- After the stages the workspace is cleaned up and the outcome is logged. -/
theorem ends_run {s : Settings} {t : Toolchain} {previous : RunState}
    {Q : Except Failure Report × RunState → List (Request × σ) → σ → Prop}
    (h : (stages s t (answer .clock host).1 { state := previous }).Ends answer
      (answer .clock host).2 fun r es h₁ => (cleanUp s r.2.workspace).Ends answer h₁
        fun _ es₁ h₂ => (logOutcome r.1).Ends answer h₂ fun _ es₂ h₃ =>
          Q (r.1, r.2.state) ((.clock, host) :: (es ++ (es₁ ++ es₂))) h₃) :
    (run s t previous).Ends answer host Q := by
  refine Ends.bind (p := request .clock) (M := fun startedAt es h =>
    startedAt = (answer .clock host).1 ∧ es = [(.clock, host)] ∧ h = (answer .clock host).2)
    ⟨rfl, rfl, rfl⟩ ?_
  rintro _ _ _ ⟨rfl, rfl, rfl⟩
  refine Ends.bind h fun r es h₁ hclean => ?_
  refine Ends.bind hclean fun _ es₁ h₂ hlog => ?_
  refine Ends.bind hlog fun _ es₂ h₃ hpost => ?_
  change Q _ ((.clock, host) :: (es ++ (es₁ ++ (es₂ ++ [])))) h₃
  rwa [List.append_nil]

/-- The workspace that is prepared is the one that was asked for. -/
theorem prepare_yields (root : Path) : (Workspace.prepare root).Yields (· = ⟨root⟩) :=
  (Work.yields_true _).bind fun _ _ => (Work.yields_true _).bind fun _ _ =>
  (Work.yields_true _).bind fun _ _ => (Work.yields_true _).bind fun _ _ =>
  (Work.yields_true _).bind fun _ _ => (Work.yields_true _).bind fun _ _ =>
  (Work.yields_true _).bind fun _ _ => (Work.yields_true _).bind fun _ _ => Work.yields_pure rfl

/-- The first stage leaves the workspace of the settings. -/
theorem clean_yields (s : Settings) : (clean s).Yields (· = ⟨s.workspace⟩) := by
  refine (prepare_yields s.workspace).bind fun workspace hw => ?_
  exact (Work.yields_true _).bind fun _ _ => (Work.yields_true _).bind fun _ _ =>
    Work.yields_pure hw

end Pipeline

end LayerPack
