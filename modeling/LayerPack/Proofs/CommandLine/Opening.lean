import LayerPack.Proofs.CommandLine.Requests

/-! A session of the command line in three parts: the opening up to the lock and the announcement of
the run, the run of the pipeline, and the conclusion with its report. -/
namespace LayerPack

open Program Session

variable {α β σ : Type} {answer : Answers σ} {state : σ}

namespace Session

/-- What follows in a session runs only if it has got so far. -/
theorem ends_bind {x : Session α} {f : α → Session β}
    {Q : Except RunError β → List (Request × σ) → σ → Prop} :
    (x >>= f).run.Ends answer state Q ↔
      x.run.Ends answer state fun r es s => match r with
        | .ok a => (f a).run.Ends answer s fun r' es' s' => Q r' (es ++ es') s'
        | .error e => Q (.error e) es s := by
  rw [ExceptT.run_bind, Program.bind_eq, Program.ends_bind]
  unfold Program.Ends
  rcases x.run.run answer state with ⟨r, s⟩
  cases r with
  | ok a => exact Iff.rfl
  | error e => simp [pure_eq_done, Program.trace]

theorem ends_printing {p : Program (Except SystemError α)}
    {Q : Except RunError α → List (Request × σ) → σ → Prop} :
    (printing p).run.Ends answer state Q ↔
      p.Ends answer state fun r es s => Q (r.mapError .system) es s := by
  change (p.bind fun r => done (r.mapError .system)).Ends answer state Q ↔ _
  rw [Program.ends_bind]
  simp [Program.Ends, Program.run, Program.trace]

theorem ends_bundling {p : Program (Except Error α)}
    {Q : Except RunError α → List (Request × σ) → σ → Prop} :
    (bundling p).run.Ends answer state Q ↔
      p.Ends answer state fun r es s => Q (r.mapError .bundle) es s := by
  change (p.bind fun r => done (r.mapError .bundle)).Ends answer state Q ↔ _
  rw [Program.ends_bind]
  simp [Program.Ends, Program.run, Program.trace]

/-- What the result of a session can be, however it is answered, and with which exit statuses it can
fail. -/
def Gives (codes : List Nat) (P : α → Prop) (x : Session α) : Prop :=
  x.run.Returns fun r => match r with
    | .ok a => P a
    | .error e => e.exitCode ∈ codes

variable {codes : List Nat} {P : α → Prop} {Q : β → Prop}

theorem Gives.bind {x : Session α} {f : α → Session β} (hx : x.Gives codes P)
    (hf : ∀ a, P a → (f a).Gives codes Q) : (x >>= f).Gives codes Q := by
  rw [Gives, ExceptT.run_bind]
  refine Returns.bind hx fun r hr => ?_
  cases r with
  | ok a => exact hf a hr
  | error e => exact hr

theorem Gives.mono {codes' : List Nat} {x : Session α} (hx : x.Gives codes P)
    (sub : codes ⊆ codes') : x.Gives codes' P :=
  Returns.mono hx fun r hr => by
    cases r with
    | ok a => exact hr
    | error e => exact sub hr

theorem Gives.ends {x : Session α} (hx : x.Gives codes P) : x.run.Ends answer state fun r _ _ =>
    (∀ a, r = .ok a → P a) ∧ ∀ e, r = .error e → e.exitCode ∈ codes := by
  have hr := Returns.run hx answer state
  constructor
  · intro a ha
    rwa [ha] at hr
  · intro e he
    rwa [he] at hr

theorem gives_printing (p : Program (Except SystemError α)) (h : 1 ∈ codes) :
    (printing p).Gives codes fun _ => True :=
  (returns_true p).bind fun r _ => by
    cases r with
    | ok => trivial
    | error => exact h

theorem gives_bundling (p : Program (Except Error α)) (h : 1 ∈ codes) :
    (bundling p).Gives codes fun _ => True :=
  (returns_true p).bind fun r _ => by
    cases r with
    | ok => trivial
    | error => exact h

theorem gives_now (p : Program α) : (now p).Gives codes fun _ => True := by
  rw [Gives, now, ExceptT.run_lift, map_eq_pure_bind]
  exact (returns_true p).bind fun _ _ => trivial

end Session

namespace Args

/-- What is settled when the run of the pipeline begins. -/
structure Ready where
  settings : Settings
  python : Path
  lock : RunLock
  deriving DecidableEq

/-- What is printed under the lock before the first stage. -/
def announceRun (t : Terminal) (s : Settings) (lock : RunLock) : Session Unit := do
  printing (t.detail ("Holding " ++ lock.path.display))
  announce t (Pipeline.planned s)
  printing (t.progress ("Running " ++ toString (Pipeline.planned s).length ++ " stages"))

/-- Takes the lock and announces the run. If that cannot be printed, the lock is given back. -/
def enter (t : Terminal) (s : Settings) : Session RunLock := do
  let lock ← orFail (RunLock.acquire s.workspace)
  ExceptT.mk do
    match ← (announceRun t s lock).run with
    | .ok () => return .ok lock
    | .error e =>
      lock.release
      return .error e

/-- Everything before the run of the pipeline. -/
def opening (a : Args) (t : Terminal) : Session Ready := do
  let (s, python) ← a.prepare t
  let lock ← enter t s
  return ⟨s, python, lock⟩

/-- The run of the pipeline, after which the lock is given back. -/
def Ready.perform (r : Ready) : Session Report := ExceptT.mk do
  let (result, _) ← Pipeline.run r.settings (Pip.ofSettings r.settings r.python).toolchain
  r.lock.release
  return result.mapError .pipeline

/-- What is done with the report of a run. -/
def conclude (a : Args) (t : Terminal) (report : Report) : Session Unit := do
  let checked ← a.checkLimitsOf t report
  a.printReport t report checked
  verdict checked

theorem lockAndRun_eq (t : Terminal) (s : Settings) (python : Path) :
    lockAndRun t s python = enter t s >>= fun lock => Ready.perform ⟨s, python, lock⟩ := by
  have run (lock : RunLock) : runLocked t s python lock = announceRun t s lock >>= fun _ =>
      ExceptT.mk (Pipeline.run s (Pip.ofSettings s python).toolchain >>= fun r =>
        pure (r.1.mapError .pipeline)) := by
    simp only [runLocked, announceRun, LawfulMonad.bind_assoc]
    refine congrArg _ (funext fun _ => congrArg _ (funext fun _ => congrArg _ (funext fun _ => ?_)))
    refine ExceptT.ext ?_
    simp only [now, ExceptT.run_bind, ExceptT.run_lift, ExceptT.run_mk, bind_map_left]
    refine congrArg _ (funext fun r => ?_)
    obtain ⟨r, state⟩ := r
    cases r with
    | ok => rfl
    | error => rfl
  unfold lockAndRun enter
  simp only [LawfulMonad.bind_assoc]
  refine congrArg _ (funext fun lock => ?_)
  rw [run]
  refine ExceptT.ext ?_
  simp only [ExceptT.run_bind, ExceptT.run_mk, LawfulMonad.bind_assoc]
  refine congrArg _ (funext fun r => ?_)
  cases r with
  | error e => simp
  | ok =>
    simp only [Ready.perform, ExceptT.run_mk, LawfulMonad.bind_assoc, pure_bind]

/-- A session is its opening, its run and its conclusion. -/
theorem execute_eq (a : Args) : a.execute =
    Terminal.openWith a.isVerbose a.isQuiet >>= fun t =>
      (a.opening t >>= fun r => r.perform >>= fun report => a.conclude t report).run := by
  unfold execute opening conclude
  simp only [lockAndRun_eq, LawfulMonad.bind_assoc, pure_bind]

end Args

end LayerPack
