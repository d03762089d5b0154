import LayerPack.CommandLine.Execute
import LayerPack.Proofs.Pipeline.Whole
import LayerPack.Proofs.Program.Requests
import LayerPack.Toolchain.Pip

/-! What a run of the command line asks of the host while it has the lock: it prints, and it runs the
pipeline with collaborators that call the installer. Each of their calls runs commands, and writes to the
log. -/
namespace LayerPack

open Program Request

namespace Command

variable {K : Request → Prop} (hL : ∀ level text, K (.log level text))
include hL

theorem only_logLines (lines : List String) : (logLines lines).Only K := by
  induction lines with
  | nil => trivial
  | cons line rest ih => exact (only_request.mpr (hL _ _)).bind fun _ => ih

theorem only_logOutcome (c : Command) (output : CommandOutput) : (logOutcome c output).Only K := by
  refine (only_logLines hL _).bind fun _ => ?_
  split
  · trivial
  · exact only_request.mpr (hL _ _)

/-- Running a command asks for nothing else, and writes to the log. -/
theorem only_run (c : Command) (hR : ∀ deadline, K (.run c deadline)) : (run c).Only K := by
  have awaited : (await c).Only K := by
    intro deadline
    cases deadline with
    | none => exact ⟨hR _, fun r => by cases r <;> trivial⟩
    | some limit => exact ⟨hR _, fun r => by rcases r with _ | _ | _ <;> trivial⟩
  refine (Work.Only.now (only_request.mpr (hL _ _))).bind fun _ => awaited.bind fun finished => ?_
  exact (Work.Only.now (only_logOutcome hL c _)).bind fun _ => Work.only_pure _

end Command

namespace Pip

variable {K : Request → Prop}

theorem only_perform (p : Pip) (hL : ∀ level text, K (.log level text))
    (hR : ∀ c deadline, K (.run c deadline)) (call : Call) : (p.toolchain.perform call).Only K := by
  have orFail (c : Command) (failure : CommandOutput → Error) : (runOrFail c failure).Only K := by
    refine (Command.only_run hL c (hR c)).bind fun output => ?_
    split
    · exact Work.only_pure _
    · exact Work.only_fail _
  cases call with
  | isInstalled project =>
    exact (Command.only_run hL _ (hR _)).bind fun output => Work.only_pure _
  | build | installInto | uninstall | install => exact orFail _ _

end Pip

variable {α β : Type}

namespace Session

variable {K : Request → Prop}

theorem only_bind {x : Session α} {f : α → Session β} (hx : x.run.Only K)
    (hf : ∀ a, (f a).run.Only K) : (x >>= f).run.Only K :=
  Only.bind (p := x.run) hx fun r => by
    cases r with
    | ok a => exact hf a
    | error e => trivial

theorem only_printing {p : Program (Except SystemError α)} (hp : p.Only K) :
    (printing p).run.Only K := Only.bind hp fun _ => trivial

end Session

/-! What is for the reader is printed on the standard output, unless the terminal is quiet. -/

namespace Terminal

variable {K : Request → Prop} (t : Terminal) (hP : t.quiet = false → ∀ text, K (.print .out text))
include hP

theorem only_unlessQuiet (style : Style) (mark message : String) :
    (t.unlessQuiet style mark message).Only K := by
  unfold unlessQuiet
  split
  · trivial
  next loud => exact only_request.mpr (hP (Bool.eq_false_iff.mpr loud) _)

theorem only_detail (message : String) : (t.detail message).Only K := by
  unfold detail
  split
  next heard =>
    rw [Bool.and_eq_true, Bool.not_eq_true'] at heard
    exact only_request.mpr (hP heard.2 _)
  next => trivial

end Terminal

namespace Args

variable {K : Request → Prop} (t : Terminal) (hP : t.quiet = false → ∀ text, K (.print .out text))
include hP

theorem only_announce (stages : List Stage) : (announce t stages).run.Only K := by
  induction stages with
  | nil => trivial
  | cons stage rest ih =>
    exact Session.only_bind (Session.only_printing (t.only_detail hP _)) fun _ => ih

end Args

/-- What a run with these settings asks for while it has the lock. -/
inductive Request.OfRun (s : Settings) : Request → Prop
  | quiet {q : Request} (h : q.Quiet) : OfRun s q
  | log (level : Level) (text : String) : OfRun s (.log level text)
  | print (stream : Stream) (text : String) : OfRun s (.print stream text)
  | run (c : Command) (deadline : Option Nat) : OfRun s (.run c deadline)
  | mkdir (p : Path) : OfRun s (.mkdir p)
  | removes {q : Request} (h : q.Removes s.workspace) : OfRun s q
  | unlink : OfRun s (.unlink s.output)
  | archives {q : Request} (fresh : String) (h : q.Archives s.output fresh) : OfRun s q

namespace Args

variable (t : Terminal) (s : Settings) (python : Path)

theorem only_runLocked (lock : RunLock) : (runLocked t s python lock).run.Only (OfRun s) := by
  have ran : (Pipeline.run s (Pip.ofSettings s python).toolchain).Only (OfRun s) :=
    Pipeline.only_run s _ (fun _ => .quiet) .log .mkdir (fun _ => .removes) .unlink
      (fun _ => .archives) ((Pip.ofSettings s python).only_perform .log .run)
  have printed : t.quiet = false → ∀ text, OfRun s (.print .out text) := fun _ => .print _
  refine Session.only_bind (Session.only_printing (t.only_detail printed _)) fun _ => ?_
  refine Session.only_bind (only_announce t printed _) fun _ => ?_
  refine Session.only_bind (Session.only_printing (t.only_unlessQuiet printed _ _ _)) fun _ => ?_
  refine Session.only_bind (Only.bind ran fun _ => trivial) fun r => ?_
  obtain ⟨r, state⟩ := r
  cases r <;> trivial

end Args

end LayerPack
