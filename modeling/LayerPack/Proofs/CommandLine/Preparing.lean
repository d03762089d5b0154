import LayerPack.Proofs.CommandLine.Opening
import LayerPack.Proofs.Settings.Accepted

/-! What happens before a session tries the lock. The host is only looked at, and the installer is
asked for its version. What ends a session there has an exit status of its own, that of no stage. -/
namespace LayerPack

open Program Request Session

variable {α β : Type}

/-- What is asked before the lock is tried. -/
inductive Request.Preparing : Request → Prop
  | quiet {q : Request} (h : q.Quiet) : Preparing q
  | log (level : Level) (text : String) : Preparing (.log level text)
  | print (stream : Stream) (text : String) : Preparing (.print stream text)
  | version (python : Path) (deadline : Option Nat) :
    Preparing (.run (Interpreter.versionCommand python) deadline)

namespace Session

variable {K : Request → Prop}

theorem only_orFail {p : Program (Except RunError α)} (hp : p.Only K) : (orFail p).run.Only K := hp

theorem only_bundling {p : Program (Except Error α)} (hp : p.Only K) :
    (bundling p).run.Only K := Only.bind hp fun _ => trivial

end Session

namespace Files

theorem only_readText (p : Path) : (readText p).Only Quiet := by
  refine (only_openRead p).bind fun r => ?_
  cases r with
  | error e => trivial
  | ok file =>
    refine (only_readAll _ file).bind fun r => ?_
    cases r with
    | error e => trivial
    | ok content =>
      dsimp only
      split <;> trivial

end Files

namespace Metadata

theorem only_loadPyproject (p : Path) : (loadPyproject p).Only Quiet := by
  refine (Files.only_kindIs .file p).bind fun there => ?_
  split
  · refine (Files.only_readText p).bind fun r => ?_
    cases r with
    | error e => trivial
    | ok content =>
      dsimp only
      split <;> trivial
  · trivial

theorem only_loadSetupCfg (p : Path) (m : Metadata) : (loadSetupCfg p m).Only Quiet := by
  refine (Files.only_kindIs .file p).bind fun there => ?_
  split
  · refine (Files.only_readText p).bind fun r => ?_
    cases r with
    | error e => trivial
    | ok content =>
      dsimp only
      split <;> trivial
  · trivial

theorem only_load {K : Request → Prop} (hQ : ∀ q, Quiet q → K q)
    (hL : ∀ level text, K (.log level text)) (source : Path) : (load source).Only K := by
  refine ((only_loadPyproject _).mono hQ).bind fun r => ?_
  cases r with
  | error e => trivial
  | ok m =>
    dsimp only
    split
    · trivial
    refine ((only_loadSetupCfg _ m).mono hQ).bind fun r => ?_
    cases r with
    | error e => trivial
    | ok m =>
      dsimp only
      split
      · exact (only_request.mpr (hL _ _)).bind fun _ => trivial
      · trivial

end Metadata

theorem Options.only_resolve (options : Options) : options.resolve.Only Quiet := by
  unfold resolve
  split
  · trivial
  · refine (only_request.mpr trivial).bind fun r => ?_
    cases r with
    | error e => trivial
    | ok current => exact (Files.only_kindIs .dir _).bind fun there => by cases there <;> trivial

namespace Interpreter

theorem only_searchIn (name : Path) (dirs : List Path) : (searchIn name dirs).Only Quiet := by
  induction dirs with
  | nil => trivial
  | cons dir rest ih =>
    have executable : (isExecutable (dir.join name)).Only Quiet :=
      (Files.only_stat _).bind fun r => by cases r <;> trivial
    refine executable.bind fun there => ?_
    split
    · trivial
    · exact ih

theorem only_search (name : Path) : (search name).Only Quiet := by
  refine (only_request.mpr trivial).bind fun r => ?_
  cases r with
  | none => trivial
  | some value =>
    refine (only_searchIn name _).bind fun r => ?_
    cases r with
    | none => trivial
    | some found => exact (only_request.mpr trivial).bind fun r => by cases r <;> trivial

section

variable {K : Request → Prop} (hQ : ∀ q, Quiet q → K q) (hL : ∀ level text, K (.log level text))
include hL

theorem only_installerVersion (python : Path)
    (hV : ∀ deadline, K (.run (versionCommand python) deadline)) :
    (installerVersion python).Only K := by
  refine (Command.only_run hL _ hV).bind fun output => ?_
  split
  · exact (Work.Only.now (only_request.mpr (hL _ _))).bind fun _ => Work.only_pure _
  · exact (Work.Only.now (only_request.mpr (hL _ _))).bind fun _ => Work.only_fail _

include hQ

theorem only_firstOf (names : List String) : (firstOf names).Only K := by
  induction names with
  | nil => trivial
  | cons name rest ih =>
    refine ((only_search _).mono hQ).bind fun r => ?_
    cases r with
    | ok p => exact (only_request.mpr (hL _ _)).bind fun _ => trivial
    | error e => exact (only_request.mpr (hL _ _)).bind fun _ => ih

theorem only_resolve (requested : Path) : (resolve requested).Only K := by
  unfold resolve
  split
  · refine ((Files.only_kindIs .file _).mono hQ).bind fun there => ?_
    split <;> trivial
  · refine ((only_search requested).mono hQ).bind fun r => ?_
    cases r with
    | ok p => trivial
    | error e =>
      dsimp only
      split
      · exact (only_firstOf hQ hL _).bind fun r => by cases r <;> trivial
      · trivial

end

end Interpreter

theorem Work.Only.toProgram {w : Work α} {K : Request → Prop} (hw : w.Only K) :
    w.toProgram.Only K := (hw none).bind fun r => by
  rcases r with (_ | _) | _ <;> trivial

theorem Terminal.only_openWith (verbose quiet : Bool) : (openWith verbose quiet).Only Quiet :=
  (only_request.mpr trivial).bind fun _ => (only_request.mpr trivial).bind fun _ => trivial

namespace Args

section

variable {K : Request → Prop} (hQ : ∀ q, Quiet q → K q)
include hQ

theorem only_checked (a : Args) : a.checked.run.Only K := by
  unfold checked
  split
  · trivial
  · refine Session.only_bind (x := now (Files.isDir a.source)) ?_ fun there => ?_
    · exact Only.bind ((Files.only_kindIs .dir _).mono hQ) fun _ => trivial
    · split <;> trivial

theorem only_settings (a : Args) (m : Metadata) : (a.settings m).Only K := by
  unfold settings
  split
  · trivial
  · exact ((Options.only_resolve _).mono hQ).bind fun _ => trivial

/-- Preparing a session looks at the host, asks for the version of the installer, and tells about it. -/
theorem only_prepare (a : Args) (t : Terminal) (hL : ∀ level text, K (.log level text))
    (hV : ∀ python deadline, K (.run (Interpreter.versionCommand python) deadline))
    (hP : t.quiet = false → ∀ text, K (.print .out text)) : (a.prepare t).run.Only K := by
  have told (message : String) : (printing (t.detail message)).run.Only K :=
    only_printing (t.only_detail hP message)
  unfold prepare
  refine only_bind (only_checked hQ a) fun _ => ?_
  refine only_bind (only_orFail (Metadata.only_load hQ hL _)) fun project => ?_
  have settled : Only K (do
      let s ← orFail (a.settings project)
      printing (t.section_ ("Bundling layer for " ++ s.project))
      printing (t.detail ("Source: " ++ s.source.display))
      printing (t.detail ("Workspace: " ++ s.workspace.display))
      printing (t.detail ("Output: " ++ s.output.display))
      let python ← bundling (Interpreter.resolve s.python)
      let installer ← bundling (Interpreter.installerVersion python).toProgram
      printing (t.detail installer)
      return (s, python) : Session (Settings × Path)).run := by
    refine only_bind (only_orFail (only_settings hQ a project)) fun s => ?_
    refine only_bind (only_printing (t.only_unlessQuiet hP _ _ _)) fun _ => ?_
    refine only_bind (told _) fun _ => only_bind (told _) fun _ => only_bind (told _) fun _ => ?_
    refine only_bind (only_bundling (Interpreter.only_resolve hQ hL _)) fun python => ?_
    refine only_bind (only_bundling (Interpreter.only_installerVersion hL python (hV _)).toProgram)
      fun _ => ?_
    exact only_bind (told _) fun _ => trivial
  split
  · exact only_bind (told _) fun _ => settled
  · exact settled

end

end Args

/-! ### How it can fail -/

theorem RunError.exitCode_invalid (reason : String) :
    (invalidArguments reason).exitCode ∈ [1, 2] := by simp [exitCode]

theorem RunError.exitCode_execution (command reason : String) :
    (execution command reason).exitCode ∈ [1, 2] := by simp [exitCode]

namespace Metadata

theorem load_fails (source : Path) :
    (load source).Returns fun r => ∀ e, r = .error e → e.exitCode ∈ [1, 2] := by
  have pyproject (p : Path) :
      (loadPyproject p).Returns fun r => ∀ e, r = .error e → e.exitCode ∈ [1, 2] := by
    refine (returns_true (Files.isFile p)).bind fun there _ => ?_
    split
    · refine (returns_true (Files.readText p)).bind fun r _ => ?_
      cases r with
      | error e =>
        rintro _ ⟨⟩
        exact RunError.exitCode_execution ..
      | ok content =>
        dsimp only
        split
        · rintro _ ⟨⟩
          exact RunError.exitCode_invalid _
        · exact fun _ h => by cases h
    · exact fun _ h => by cases h
  have setupCfg (p : Path) (m : Metadata) :
      (loadSetupCfg p m).Returns fun r => ∀ e, r = .error e → e.exitCode ∈ [1, 2] := by
    refine (returns_true (Files.isFile p)).bind fun there _ => ?_
    split
    · refine (returns_true (Files.readText p)).bind fun r _ => ?_
      cases r with
      | error e =>
        rintro _ ⟨⟩
        exact RunError.exitCode_execution ..
      | ok content =>
        dsimp only
        split <;> exact fun _ h => by cases h
    · exact fun _ h => by cases h
  refine (pyproject _).bind fun r hr => ?_
  cases r with
  | error e => exact hr
  | ok m =>
    dsimp only
    split
    · exact fun _ h => by cases h
    refine (setupCfg _ m).bind fun r hr => ?_
    cases r with
    | error e => exact hr
    | ok m =>
      dsimp only
      split
      · exact fun _ _ h => by cases h
      · exact fun _ h => by cases h

end Metadata

namespace Args

theorem options_error {a : Args} {m : Metadata} {e : RunError} (h : a.options m = .error e) :
    e = missingName := by
  unfold options at h
  split at h
  · exact (Except.error.inj h).symm
  · cases h

theorem settings_gives (a : Args) (m : Metadata) :
    (orFail (a.settings m)).Gives [1, 2] Settings.Laid := by
  have missing : missingName.exitCode ∈ [1, 2] := by simp [missingName, RunError.exitCode]
  change (a.settings m).Returns _
  unfold settings
  cases h : a.options m with
  | error e =>
    obtain rfl := options_error h
    exact missing
  | ok options =>
    refine (Options.resolve_returns options).bind fun r hr => ?_
    cases r with
    | ok s =>
      obtain ⟨current, package, source, hs⟩ := hr s rfl
      exact Options.laid_of_settle hs
    | error e => exact RunError.exitCode_invalid _

/-- Before the lock is tried, a session ends with the exit status of a usage error or a plain one. What
it has settled otherwise are settings that have been checked. -/
theorem prepare_gives (a : Args) (t : Terminal) :
    (a.prepare t).Gives [1, 2] fun found => found.1.Laid := by
  have one : 1 ∈ [1, 2] := by decide
  have checked : a.checked.Gives [1, 2] fun _ => True := by
    unfold checked
    split
    · exact RunError.exitCode_invalid _
    · refine (gives_now _).bind fun there _ => ?_
      split
      · exact trivial
      · exact RunError.exitCode_invalid _
  have loaded : (orFail (Metadata.load a.source)).Gives [1, 2] fun _ => True :=
    Returns.mono (Metadata.load_fails a.source) fun r hr => by
      cases r with
      | ok => trivial
      | error e => exact hr e rfl
  unfold prepare
  refine checked.bind fun _ _ => loaded.bind fun project _ => ?_
  have settled : Gives [1, 2] (fun found : Settings × Path => found.1.Laid) (do
      let s ← orFail (a.settings project)
      printing (t.section_ ("Bundling layer for " ++ s.project))
      printing (t.detail ("Source: " ++ s.source.display))
      printing (t.detail ("Workspace: " ++ s.workspace.display))
      printing (t.detail ("Output: " ++ s.output.display))
      let python ← bundling (Interpreter.resolve s.python)
      let installer ← bundling (Interpreter.installerVersion python).toProgram
      printing (t.detail installer)
      return (s, python)) := by
    refine (settings_gives a project).bind fun s laid => ?_
    refine (gives_printing _ one).bind fun _ _ => (gives_printing _ one).bind fun _ _ => ?_
    refine (gives_printing _ one).bind fun _ _ => (gives_printing _ one).bind fun _ _ => ?_
    refine (gives_bundling _ one).bind fun python _ => (gives_bundling _ one).bind fun _ _ => ?_
    exact (gives_printing _ one).bind fun _ _ => laid
  split
  · exact (gives_printing _ one).bind fun _ _ => settled
  · exact settled

end Args

end LayerPack
