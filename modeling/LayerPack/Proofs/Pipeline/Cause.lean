import LayerPack.Proofs.Archive.Atomicity
import LayerPack.Proofs.Pipeline.Refresh
import LayerPack.Proofs.Pipeline.Steps

/-! Why a run fails. Each stage has its own causes: what its file operations come to, the deadline, and
what a collaborator has answered. The collaborators may answer with any error at all; it comes out of the
run in the words of the stage that made the call. -/
namespace LayerPack

open Program

variable {α β σ : Type} {answer : Answers σ} {host : σ} {deadline : Option Nat} {s : Settings}

/-- The errors that an installer classifies itself. -/
inductive Error.Installing : Error → Prop
  | unresolved (wheel : Path) (stderr : String) : Installing (.unresolved wheel stderr)
  | install (wheel target : Path) (reason : String) : Installing (.install wheel target reason)
  | timeout (operation : String) (limit : Nat) : Installing (.timeout operation limit)

theorem asInstallError_of_installing {wheel : Wheel} {target : Path} {e : Error} (h : e.Installing) :
    asInstallError wheel target e = e := by cases h <;> rfl

theorem asInstallError_of_not {wheel : Wheel} {target : Path} {e : Error} (h : ¬ e.Installing) :
    asInstallError wheel target e = .install wheel.path target e.message := by
  cases e with
  | unresolved wheel stderr => exact (h (.unresolved wheel stderr)).elim
  | install wheel target reason => exact (h (.install wheel target reason)).elim
  | timeout operation limit => exact (h (.timeout operation limit)).elim
  | _ => rfl

/-- Where the installer writes. -/
def Settings.installTarget (s : Settings) : Path := (⟨s.workspace⟩ : Workspace).installDir s.layerPrefix

namespace Pipeline

/-- How the error of a call comes out of a run: the stage, and the cause that it fails with. -/
inductive Worded (s : Settings) : Call → Error → Stage → Error → Prop
  | build (e : Error) : Worded s (.build s.source s.dist) e .build e
  | kept {wheel : Path} {e : Error} (h : e.Installing) :
    Worded s (.installInto wheel s.installTarget) e .materialize e
  | folded {wheel : Path} {e : Error} (h : ¬ e.Installing) :
    Worded s (.installInto wheel s.installTarget) e .materialize
      (.install wheel s.installTarget e.message)
  | environment {call : Call} (h : call.isEnvironment = true) (wheel : Wheel) (e : Error) :
    Worded s call e .reconcile
      (.reconciliation s.project (purposeOf wheel call ++ ": " ++ e.message))

/-- A built wheel is not found. -/
inductive Unselected (s : Settings) : Error → Prop
  | none (contents : List String) : Unselected s (.noWheel s.project s.dist contents)
  | several (found : List Path) : Unselected s (.ambiguousWheel s.project s.dist found)
  | unlisted (what : String) (path : Path) (e : SystemError) : Unselected s (.files what path e)

/-- A tree cannot be read. -/
inductive Unread : Error → Prop
  | files (what : String) (path : Path) (e : SystemError) : Unread (.files what path e)
  | other (message : String) : Unread (.other message)

/-- The causes that a run can fail with in a stage, when its collaborators have answered in this way.
Past the first stage the last answer decides what can still go wrong. -/
inductive Cause (answer : Answers σ) (s : Settings) (asked : List Asked) : Stage → Error → Prop
  | late {stage : Stage} {limit : Nat} (h : s.stageTimeout = some limit) :
    Cause answer s asked stage (.timeout (stage.name ++ " stage") limit)
  | answered {call : Call} {e cause : Error} {stage : Stage}
    (h : asked.getLast? = some ⟨call, some (.error e)⟩) (worded : Worded s call e stage cause) :
    Cause answer s asked stage cause
  | workspace (e : SystemError) : Cause answer s asked .clean (.workspace s.workspace e)
  | cleaning {what : String} {path : Path} (e : SystemError)
    (h : (what, path) ∈ [("creating dist directory", s.dist), ("inspecting output path", s.output),
      ("removing stale archive", s.output)]) :
    Cause answer s asked .clean (.files what path e)
  | occupied : Cause answer s asked .clean
    (.other ("output path " ++ s.output.display ++ " is a directory"))
  | selection {e : Error}
    (h : asked.getLast? = some ⟨.build s.source s.dist, some (.ok ())⟩) (he : Unselected s e) :
    Cause answer s asked .build e
  | target (wheel : Path) (e : SystemError) : Cause answer s asked .materialize
    (.install wheel s.installTarget (Error.files "creating install target" s.installTarget e).message)
  | digest {wheel : Path} {e : Error} {deadline : Option Nat} {host : σ}
    (h : asked.getLast? = some ⟨.installInto wheel s.installTarget, some (.ok ())⟩)
    (failed : ((Archive.treeDigest s.tree deadline).run answer host).1 = .error (.failed e))
    (he : Unread e) : Cause answer s asked .materialize e
  | archive (reason : String) : Cause answer s asked .archive (.archive s.output reason)

/-- The kinds of error that a run can fail with in a stage. What the build tool answers is passed on. -/
def Carries : Stage → Error → Prop
  | .clean, .workspace .. | .clean, .files .. | .clean, .other _ => True
  | .build, _ => True
  | .materialize, .unresolved .. | .materialize, .install .. => True
  | .materialize, .files .. | .materialize, .other _ => True
  | .archive, .archive .. => True
  | .reconcile, .reconciliation .. => True
  | _, .timeout .. => True
  | _, _ => False

theorem Cause.carries {asked : List Asked} {stage : Stage} {cause : Error}
    (h : Cause answer s asked stage cause) : Carries stage cause := by
  cases h with
  | late => cases stage <;> trivial
  | answered _ worded =>
    cases worded with
    | kept installing => cases installing <;> trivial
    | build | folded | environment => trivial
  | digest _ _ unread => cases unread <;> trivial
  | workspace | cleaning | occupied | selection | target | archive => trivial

/-- What came before does not matter if something was asked since. -/
theorem Cause.after {asked : List Asked} {stage : Stage} {cause : Error}
    (h : Cause answer s asked stage cause) (before : List Asked) :
    Cause answer s (before ++ asked) stage cause := by
  have last {a : Asked} (h : asked.getLast? = some a) : (before ++ asked).getLast? = some a := by
    rw [List.getLast?_append, h, Option.some_or]
  cases h with
  | late h => exact .late h
  | answered h worded => exact .answered (last h) worded
  | workspace e => exact .workspace e
  | cleaning e h => exact .cleaning e h
  | occupied => exact .occupied
  | selection h he => exact .selection (last h) he
  | target wheel e => exact .target wheel e
  | digest h failed he => exact .digest (last h) failed he
  | archive reason => exact .archive reason

/-- A work of a stage and its calls: it succeeds only if they do, and otherwise it has one of the causes
of the stage. An error that was answered is the one that it fails with. -/
def Accounts (answer : Answers σ) (s : Settings) (stage : Stage) (deadline : Option Nat)
    (asked : List Asked) : Option Stop → Prop
  | none => ∀ a ∈ asked, a.Succeeded
  | some .late => deadline ≠ none ∧ ∀ call e, (⟨call, some (.error e)⟩ : Asked) ∉ asked
  | some (.failed cause) => Cause answer s asked stage cause ∧
    ∀ call e, (⟨call, some (.error e)⟩ : Asked) ∈ asked → Worded s call e stage cause

end Pipeline

/-- The request is no call. -/
def Request.Uncalled (q : Request) : Prop := ∀ r, q.asked? r = none

/-- What marks nothing calls nobody. -/
theorem Request.uncalled_of_mark? {q : Request} (h : q.mark? = none) : q.Uncalled := by
  cases q with
  | collaborate call deadline => cases h
  | _ => exact fun _ => rfl

theorem Program.Only.askedOf_trace {p : Program α} (hp : p.Only Request.Uncalled) :
    askedOf answer (p.trace answer host) = [] :=
  List.filterMap_eq_nil_iff.mpr fun e he => hp.trace answer host e he _

theorem not_mem_of_succeeded {asked : List Asked} (h : ∀ a ∈ asked, a.Succeeded) (call : Call) (e : Error) :
    (⟨call, some (.error e)⟩ : Asked) ∉ asked := fun hm => by
  obtain ⟨result, hr⟩ := h _ hm
  cases hr

namespace Refreshed

variable {project : String} {wheel : Wheel} {asked : List Asked} {r : Except Stop Bool} {a : Asked}

theorem environment (h : Refreshed project wheel asked r) (ha : a ∈ asked) :
    a.call.isEnvironment = true := by
  have called : a.call ∈ asked.map (·.call) := List.mem_map_of_mem ha
  have calls := h.calls
  simp only [List.mem_cons, List.not_mem_nil, or_false] at calls
  rcases calls with calls | calls | calls | calls <;> rw [calls] at called
  all_goals
    generalize a.call = call at called
    simp only [List.mem_cons, List.not_mem_nil, or_false] at called
    cases call <;> simp_all [Call.isEnvironment]

/-- Only the last call can have failed. -/
theorem getLast?_of_error {call : Call} {e : Error} (h : Refreshed project wheel asked r)
    (hm : (⟨call, some (.error e)⟩ : Asked) ∈ asked) :
    asked.getLast? = some ⟨call, some (.error e)⟩ := by
  have filled : asked ≠ [] := List.ne_nil_of_mem hm
  rw [List.getLast?_eq_some_getLast filled, Option.some_inj]
  rw [← List.dropLast_append_getLast filled, List.mem_append] at hm
  rcases hm with hm | hm
  · exact (not_mem_of_succeeded h.stops call e hm).elim
  · exact (List.mem_singleton.mp hm).symm

end Refreshed

theorem Work.mapError_id (w : Work α) : w.mapError id = w := funext fun deadline => by
  refine (congrArg ((w deadline).bind ·) (funext fun r => ?_)).trans (bind_done (w deadline))
  rcases r with (_ | _) | _ <;> rfl

/-- What is known of the calls and the outcome of a work, wherever it is run. -/
def Work.Reports (answer : Answers σ) (deadline : Option Nat) (w : Work α)
    (R : List Asked → Except Stop α → Prop) : Prop :=
  ∀ host, (w deadline).Ends answer host fun r es _ => R (askedOf answer es) r

theorem Work.Reports.bind {w : Work α} {f : α → Work β} {M : List Asked → Except Stop α → Prop}
    {R : List Asked → Except Stop β → Prop} (hw : w.Reports answer deadline M)
    (stopped : ∀ asked stop, M asked (.error stop) → R asked (.error stop))
    (next : ∀ asked a, M asked (.ok a) →
      (f a).Reports answer deadline fun asked' r => R (asked ++ asked') r) :
    (w >>= f).Reports answer deadline R := fun host => by
  refine Work.ends_bind.mpr ((hw host).mono fun r _ h hr => ?_)
  cases r with
  | error stop => exact stopped _ stop hr
  | ok a =>
    refine (next _ a hr h).mono fun r' es' _ hr' => ?_
    rwa [askedOf_append]

theorem Work.Reports.mono {w : Work α} {M R : List Asked → Except Stop α → Prop}
    (hw : w.Reports answer deadline M) (h : ∀ asked r, M asked r → R asked r) :
    w.Reports answer deadline R := fun host => (hw host).mono fun r _ _ hr => h _ r hr

theorem Work.Reports.log {level : Level} {text : String} {f : Unit → Work β}
    {R : List Asked → Except Stop β → Prop} (hf : (f ()).Reports answer deadline R) :
    (Work.now (request (.log level text)) >>= f).Reports answer deadline R := fun _ =>
  Work.ends_bind.mpr (Work.ends_now.mpr (ends_request.mpr (hf _)))

theorem Work.reports_log (level : Level) (text : String) :
    (Work.now (request (.log level text))).Reports answer deadline fun asked r =>
      asked = [] ∧ r = .ok () := fun _ => ⟨rfl, rfl⟩

namespace Pipeline

variable {stage : Stage} {before : List Asked}

/-- Work that calls nobody fails with a cause of its own. -/
theorem reports_quiet (before : List Asked) {K : Request → Prop} {P : Error → Prop} {w : Work α}
    (fails : w.Fails P) (only : w.Only K) (hK : ∀ q, K q → q.mark? = none)
    (hb : ∀ a ∈ before, a.Succeeded)
    (hP : ∀ cause host, P cause → ((w deadline).run answer host).1 = .error (.failed cause) →
      Cause answer s before stage cause) :
    w.Reports answer deadline fun asked r =>
      asked = [] ∧ Accounts answer s stage deadline before (stopOf r) := by
  intro host
  refine ⟨((only deadline).mono fun q h => Request.uncalled_of_mark? (hK q h)).askedOf_trace, ?_⟩
  have failed := (fails deadline).run answer host
  cases hr : ((w deadline).run answer host).1 with
  | ok a => exact hb
  | error stop =>
    rcases failed stop hr with ⟨rfl, hd⟩ | ⟨cause, rfl, h⟩
    · exact ⟨hd, not_mem_of_succeeded hb⟩
    · exact ⟨hP cause host h hr, fun call e hm => (not_mem_of_succeeded hb call e hm).elim⟩

/-! ### The works of the stages -/

/-- If something has failed, it was an operation on files. -/
def OfFiles (r : Except Error α) : Prop := ∀ e, r = .error e → ∃ what path cause, e = .files what path cause

theorem ofFiles_ok (a : α) : OfFiles (.ok a : Except Error α) := nofun

theorem ofFiles_error (what : String) (path : Path) (cause : SystemError) :
    OfFiles (.error (.files what path cause) : Except Error α) := by
  rintro _ ⟨⟩
  exact ⟨what, path, cause, rfl⟩

theorem clean_fails (asked : List Asked) : (clean s).Fails (Cause answer s asked .clean) := by
  have prepared : (Workspace.prepare s.workspace).Fails (Cause answer s asked .clean) :=
    (Work.fails_await _).bind fun _ => (Work.fails_mapError .workspace).bind fun _ =>
    (Work.fails_now _).bind fun _ => (Work.fails_await _).bind fun _ =>
    (Work.fails_mapError .workspace).bind fun _ => (Work.fails_await _).bind fun _ =>
    (Work.fails_mapError .workspace).bind fun _ => (Work.fails_now _).bind fun _ => Work.fails_pure _
  have dist : (makeDist s).Fails (Cause answer s asked .clean) := by
    unfold makeDist
    split
    · exact Work.fails_pure ()
    · exact (Work.fails_await _).bind fun _ => Work.fails_mapError fun e => .cleaning e (by simp)
  have stale : (removeStaleArchive s.output).Fails (Cause answer s asked .clean) := by
    refine (Work.fails_await _).bind fun r => ?_
    cases r with
    | error e =>
      dsimp only
      split
      · exact Work.fails_pure ()
      · exact Work.fails_fail (.cleaning e (by simp))
    | ok status =>
      exact (Work.fails_failIf .occupied).bind fun _ => (Work.fails_await _).bind fun _ =>
        (Work.fails_mapError fun e => .cleaning e (by simp)).bind fun _ => Work.fails_now _
  exact prepared.bind fun _ => dist.bind fun _ => stale.bind fun _ => Work.fails_pure _

theorem candidates_returns (dir : Path) : (Wheel.candidates dir).Returns OfFiles := by
  refine (returns_true (Wheel.scanned dir)).bind fun here _ => ?_
  cases here with
  | none => exact ofFiles_ok _
  | some here =>
    refine (returns_true (Files.isDir here)).bind fun there _ => ?_
    cases there with
    | false => exact ofFiles_ok _
    | true =>
      intro r
      cases r with
      | error e => exact ofFiles_error _ _ e
      | ok names => exact ofFiles_ok _

theorem listNames_returns (dir : Path) : (Files.listNames dir).Returns OfFiles := by
  intro r
  cases r with
  | ok names => exact ofFiles_ok _
  | error e =>
    change OfFiles (if e = .noEntry then _ else _)
    split
    · exact ofFiles_ok _
    · exact ofFiles_error _ _ e

theorem select_fails : (Wheel.select s.dist s.project).Fails (Unselected s) := by
  have unlisted {β : Type} {r : Except Error β} (h : OfFiles r) : (Work.ofExcept r).Fails (Unselected s) :=
    Work.fails_ofExcept fun cause hr => by
      obtain ⟨what, path, e, rfl⟩ := h cause hr
      exact .unlisted what path e
  refine (Work.fails_now _).bind_yields (Work.Yields.now (candidates_returns _)) fun found hf => ?_
  refine (unlisted hf).bind fun found => (Work.fails_now _).bind fun matched => ?_
  split
  · exact Work.fails_pure _
  · refine (Work.fails_await _).bind_yields (Work.Yields.await (listNames_returns _)) fun contents hc => ?_
    exact (unlisted hc).bind fun contents => Work.fails_fail (.none contents)
  · exact Work.fails_fail (.several _)

theorem collect_returns (root : Path) : (Files.collect root).Returns OfFiles := by
  have below : (Files.collect.below root).Returns OfFiles := by
    intro r
    cases r with
    | error e => exact ofFiles_error _ _ _
    | ok node =>
      change OfFiles ((node.filesBelow root).mapError Files.walkFailure)
      cases node.filesBelow root with
      | error e => exact ofFiles_error _ _ _
      | ok files => exact ofFiles_ok files
  intro r
  cases r with
  | error e => exact ofFiles_error _ _ _
  | ok status =>
    obtain ⟨kind, mode, size⟩ := status
    cases kind with
    | file => exact ofFiles_ok _
    | dir => exact below
    | link =>
      intro r
      cases r with
      | error e => exact ofFiles_error _ _ _
      | ok status =>
        change Returns OfFiles (if status.kind = .dir then Files.collect.below root else done (.ok []))
        split
        · exact below
        · exact ofFiles_ok _

theorem readForHash_returns (p : Path) : (Archive.readForHash p).Returns OfFiles := by
  intro r
  cases r with
  | error e => exact ofFiles_error _ _ e
  | ok file =>
    refine (returns_true (Files.readAll Archive.hashBuffer file)).bind fun r _ => ?_
    cases r with
    | error e => exact ofFiles_error _ _ e
    | ok content => exact ofFiles_ok _

theorem treeDigest_fails (root : Path) : (Archive.treeDigest root).Fails Unread := by
  have unread {β : Type} {r : Except Error β} (h : OfFiles r) : (Work.ofExcept r).Fails Unread :=
    Work.fails_ofExcept fun cause hr => by
      obtain ⟨what, path, e, rfl⟩ := h cause hr
      exact .files what path e
  have records (files : List Path) : (Archive.recordsOf root files).Fails Unread := by
    induction files with
    | nil => exact Work.fails_pure _
    | cons p rest ih =>
      refine (Work.fails_mapError .other).bind fun name => ?_
      refine (Work.fails_await _).bind_yields (Work.Yields.await (readForHash_returns p)) fun read hr => ?_
      exact (unread hr).bind fun content => ih.bind fun more => Work.fails_pure _
  refine (Work.fails_await _).bind_yields (Work.Yields.await (collect_returns root)) fun files hf => ?_
  exact (unread hf).bind fun files => (records files).bind fun bytes => Work.fails_pure _

theorem clean_reports : (clean s).Reports answer deadline
    fun asked r => Accounts answer s .clean deadline asked (stopOf r) :=
  (reports_quiet [] (clean_fails []) (only_clean s) (fun _ h => h.mark?) nofun
    fun _ _ h _ => h).mono fun _ _ ⟨silent, accounts⟩ => silent ▸ accounts

/-- A call is the last thing that the work has asked, and its failure is worded. -/
theorem perform_reports {call : Call} {f : Error → Error} (hf : ∀ e, Worded s call e stage (f e)) :
    ((Toolchain.outside.perform call).mapError f).Reports answer deadline fun asked r =>
      Accounts answer s stage deadline asked (stopOf r) ∧
        ∀ a, r = .ok a → asked = [⟨call, some (.ok a)⟩] := by
  refine fun host => Work.ends_mapError.mpr (Toolchain.ends_outside.mpr ?_)
  rw [askedOf_collaborate, askedOf_nil]
  cases hr : call.answered deadline (answer (.collaborate call deadline) host).1 with
  | none =>
    have waiting : deadline ≠ none := by
      rintro rfl
      cases hr
    exact ⟨⟨waiting, fun call e hm => by cases List.mem_singleton.mp hm⟩, nofun⟩
  | some reply =>
    cases reply with
    | error e =>
      refine ⟨⟨.answered rfl (hf e), fun call' e' hm => ?_⟩, nofun⟩
      cases List.mem_singleton.mp hm
      exact hf e
    | ok result =>
      refine ⟨fun a hm => ?_, fun a h => by cases h; rfl⟩
      rw [List.mem_singleton.mp hm]
      exact ⟨result, rfl⟩

theorem buildWheel_reports : (buildWheel Toolchain.outside s.source s.dist s.project).Reports answer
    deadline fun asked r => Accounts answer s .build deadline asked (stopOf r) := by
  refine .log ?_
  have built : (Toolchain.outside.perform (.build s.source s.dist)).Reports answer deadline fun asked r =>
      Accounts answer s .build deadline asked (stopOf r) ∧
        ∀ a, r = .ok a → asked = [⟨.build s.source s.dist, some (.ok a)⟩] := by
    rw [← Work.mapError_id (Toolchain.outside.perform _)]
    exact perform_reports Worded.build
  refine built.bind (fun _ _ h => h.1) fun asked result ⟨ok, h⟩ => ?_
  obtain rfl := h result rfl
  refine (reports_quiet _ (K := Request.Quiet) (P := Unselected s) ?_ ?_ (fun _ h => h.mark?) ok
    fun cause _ h _ => .selection rfl h).mono fun asked r ⟨silent, accounts⟩ => ?_
  · exact select_fails.bind fun wheel => (Work.fails_now _).bind fun _ => Work.fails_pure _
  · exact (Wheel.only_select _ _).bind fun wheel =>
      (Work.Only.now (only_request.mpr (Request.quiet_info (by simp)))).bind fun _ => Work.only_pure _
  · rwa [silent, List.append_nil]

theorem worded_install (wheel : Wheel) (e : Error) : Worded s (.installInto wheel.path s.installTarget) e
    .materialize (asInstallError wheel s.installTarget e) := by
  by_cases h : e.Installing
  · rw [asInstallError_of_installing h]
    exact .kept h
  · rw [asInstallError_of_not h]
    exact .folded h

theorem materialize_reports (wheel : Wheel) :
    (materialize Toolchain.outside wheel s.installTarget).Reports answer deadline fun asked r =>
      Accounts answer s .materialize deadline asked (stopOf r) ∧
        ∀ a, r = .ok a → asked = [⟨.installInto wheel.path s.installTarget, some (.ok ())⟩] := by
  refine .log ?_
  have quiet {β : Type} {K : Request → Prop} {w : Work β} (fails : w.Fails (Cause answer s [] .materialize))
      (only : w.Only K) (hK : ∀ q, K q → q.mark? = none) : w.Reports answer deadline fun asked r =>
        asked = [] ∧ Accounts answer s .materialize deadline [] (stopOf r) :=
    reports_quiet [] fails only hK nofun fun _ _ h _ => h
  have made := quiet (Work.fails_await (Files.makeDirs s.installTarget))
    (Work.Only.await (.inl trivial) (Files.only_makeDirs _)) fun _ h => h.mark?
  refine made.bind (fun _ _ ⟨silent, accounts⟩ => ⟨silent ▸ accounts, nofun⟩) ?_
  rintro _ made ⟨rfl, -⟩
  have prepared := quiet (Work.fails_mapError (r := made) fun e => Cause.target wheel.path e)
    (Work.only_ofExcept (K := Request.Quiet) _) fun _ h => h.mark?
  refine prepared.bind (fun _ _ ⟨silent, accounts⟩ => ⟨by rwa [silent], nofun⟩) ?_
  rintro _ _ ⟨rfl, -⟩
  refine (perform_reports (worded_install wheel)).bind (fun _ _ h => ⟨h.1, nofun⟩) fun asked result h => ?_
  obtain rfl := h.2 result rfl
  refine (Work.reports_log _ _).mono ?_
  rintro _ _ ⟨rfl, rfl⟩
  exact ⟨h.1, fun _ _ => rfl⟩

theorem install_reports (wheel : Wheel) : (install Toolchain.outside s ⟨s.workspace⟩ wheel).Reports answer
    deadline fun asked r => Accounts answer s .materialize deadline asked (stopOf r) := by
  refine (materialize_reports wheel).bind (fun _ _ h => h.1) fun asked result ⟨ok, h⟩ => ?_
  obtain rfl := h result rfl
  refine (reports_quiet _ (treeDigest_fails _) (Archive.only_treeDigest _) (fun _ h => h.mark?) ok
    fun cause host h failed => .digest rfl failed h).mono fun asked r ⟨silent, accounts⟩ => ?_
  rwa [silent, List.append_nil]

theorem archive_reports : (Archive.write s.tree s.output).Reports answer deadline
    fun asked r => Accounts answer s .archive deadline asked (stopOf r) := by
  refine (reports_quiet [] (Archive.write_failure s.tree s.output)
    (Archive.only_write _ _ (fun _ _ h => h.mark?) fun _ _ => rfl) (fun _ h => h) nofun ?_).mono
    fun _ _ ⟨silent, accounts⟩ => silent ▸ accounts
  rintro _ _ ⟨reason, rfl⟩ -
  exact .archive reason

theorem accounts_of_refreshed {wheel : Wheel} {asked : List Asked} {r : Except Stop Bool}
    (h : Refreshed s.project wheel asked r) (hd : r = .error .late → deadline ≠ none) :
    Accounts answer s .reconcile deadline asked (stopOf r) := by
  rcases r with (cause | _) | replaced
  · obtain ⟨⟨call, reply⟩, e, hl, hr, rfl⟩ := (h.failed cause).mp rfl
    dsimp only at hr
    subst hr
    have environment := h.environment (List.mem_of_getLast? hl)
    refine ⟨.answered hl (.environment environment wheel e), fun call' e' hm => ?_⟩
    cases (h.getLast?_of_error hm).symm.trans hl
    exact .environment environment wheel e
  · obtain ⟨a, hl, hr⟩ := h.late.mp rfl
    refine ⟨hd rfl, fun call e hm => ?_⟩
    cases (h.getLast?_of_error hm).symm.trans hl
    cases hr
  · exact ((h.ok replaced).mp rfl).1

theorem refresh_reports (wheel : Wheel) : (refreshEnvironment Toolchain.outside s.project wheel).Reports
    answer deadline fun asked r => Accounts answer s .reconcile deadline asked (stopOf r) := by
  intro host
  refine ((refresh_refreshed s.project wheel).and (refresh_fails s.project wheel).ends).mono ?_
  rintro r es h ⟨refreshed, fails⟩
  refine accounts_of_refreshed refreshed fun late => ?_
  rcases fails .late late with ⟨-, hd⟩ | ⟨cause, h, -⟩
  · exact hd
  · cases h

/-! ### The run -/

/-- A run and its calls: it succeeds only if they do, and otherwise it has one of the causes of the stage
that it fails in. -/
def Accounted (answer : Answers σ) (s : Settings) (asked : List Asked) : Except Failure Report → Prop
  | .ok _ => ∀ a ∈ asked, a.Succeeded
  | .error failure => Cause answer s asked failure.stage failure.cause ∧
    ∀ call e, (⟨call, some (.error e)⟩ : Asked) ∈ asked → Worded s call e failure.stage failure.cause

theorem Accounts.accounted {stop : Stop} {asked : List Asked} {completed : List StageRecord}
    (h : Accounts answer s stage deadline asked (some stop)) (hb : ∀ a ∈ before, a.Succeeded)
    (hd : deadline ≠ none → s.stageTimeout ≠ none) : Accounted answer s (before ++ asked)
      (.error ⟨stage, timeoutOf stage s.stageTimeout stop, completed⟩) := by
  have earlier (call : Call) (e : Error) (hm : (⟨call, some (.error e)⟩ : Asked) ∈ before ++ asked) :
      (⟨call, some (.error e)⟩ : Asked) ∈ asked :=
    (List.mem_append.mp hm).resolve_left (not_mem_of_succeeded hb call e)
  cases stop with
  | failed cause => exact ⟨h.1.after before, fun call e hm => h.2 call e (earlier call e hm)⟩
  | late =>
    obtain ⟨limit, hl⟩ := Option.ne_none_iff_exists'.mp (hd h.1)
    refine ⟨?_, fun call e hm => (h.2 call e (earlier call e hm)).elim⟩
    rw [hl]
    exact .late hl

theorem askedOf_opening : askedOf answer (opening answer stage host) = [] := rfl

theorem askedOf_closing {duration : Nat} : askedOf answer (closing answer stage duration host) = [] := rfl

/-- A stage after calls that have all succeeded. -/
theorem stage_accounted (before : List Asked) {work : Work α} {f : α → Steps Report} {p : Progress} {Q : α → Prop}
    (hb : ∀ a ∈ before, a.Succeeded) (hy : work.Yields Q)
    (hw : ∀ deadline, work.Reports answer deadline
      fun asked r => Accounts answer s stage deadline asked (stopOf r))
    (next : ∀ a p before host, Q a → (∀ b ∈ before, b.Succeeded) → (f a p).Ends answer host
      fun r es _ => Accounted answer s (before ++ askedOf answer es) r.1) :
    ((Pipeline.stage s.stageTimeout stage work >>= f) p).Ends answer host fun r es _ =>
      Accounted answer s (before ++ askedOf answer es) r.1 := by
  refine ends_stage_bind (((hw _ _).and hy.ends).mono fun r es after ⟨accounts, yields⟩ => ?_)
  cases r with
  | error stop =>
    refine accounts.accounted hb fun hd hn => hd ?_
    rw [deadlineOf, hn, Option.map_none]
  | ok a =>
    intro duration
    have all : ∀ b ∈ before ++ askedOf answer es, b.Succeeded := fun b hm =>
      (List.mem_append.mp hm).elim (hb b) (accounts b)
    refine (next a _ _ _ (yields a rfl) all).mono fun r es' _ h => ?_
    have asked : before ++ askedOf answer es ++ askedOf answer es' = before ++ askedOf answer
        (opening answer stage host ++ es ++ closing answer stage duration after ++ es') := by
      rw [askedOf_append, askedOf_append, askedOf_append, askedOf_opening, askedOf_closing,
        List.nil_append, List.append_nil, List.append_assoc]
    rwa [asked] at h

theorem finish_accounted {startedAt : Nat} {workspace : Workspace} {wheel : Wheel} {treeDigest : String}
    {archive : Archive.Summary} {p : Progress} (hb : ∀ a ∈ before, a.Succeeded) :
    (finish s Toolchain.outside startedAt workspace wheel treeDigest archive p).Ends answer host
      fun r es _ => Accounted answer s (before ++ askedOf answer es) r.1 := by
  refine Steps.ends_bind.mpr ?_
  unfold reconcile
  cases s.reconcile with
  | false =>
    change ∀ a : Asked, a ∈ before ++ [] → a.Succeeded
    rwa [List.append_nil]
  | true =>
    refine Steps.ends_bind.mpr (ends_stage ((refresh_reports wheel _).mono fun r es after accounts => ?_))
    rcases r with stop | installed
    · refine accounts.accounted hb fun hd hn => hd ?_
      rw [deadlineOf, hn, Option.map_none]
    · intro duration a (ha : a ∈ before ++ askedOf answer
        (opening answer .reconcile host ++ es ++ closing answer .reconcile duration after ++ [] ++ []))
      simp only [askedOf_append, askedOf_opening, askedOf_closing, List.nil_append,
        List.append_nil] at ha
      exact (List.mem_append.mp ha).elim (hb a) (accounts a)

theorem stages_accounted (startedAt : Nat) (previous : RunState) :
    (stages s Toolchain.outside startedAt { state := previous }).Ends answer host
      fun r es _ => Accounted answer s (askedOf answer es) r.1 := by
  refine stage_accounted [] nofun (clean_yields s) (fun _ => clean_reports) ?_
  rintro _ p before host rfl hb
  refine Steps.ends_bind.mpr (Steps.ends_update.mpr ?_)
  refine stage_accounted _ hb (Work.yields_true _) (fun _ => buildWheel_reports) ?_
  intro wheel p before host _ hb
  refine stage_accounted _ hb (Work.yields_true _) (fun _ => install_reports wheel) ?_
  intro treeDigest p before host _ hb
  refine stage_accounted _ hb (Work.yields_true _) (fun _ => archive_reports) ?_
  intro archive p before host _ hb
  exact finish_accounted hb

theorem cleanUp_uncalled (workspace : Option Workspace) : (cleanUp s workspace).Only Request.Uncalled := by
  cases workspace with
  | none => trivial
  | some workspace =>
    exact only_cleanUp s workspace (fun _ _ _ => rfl) fun _ h => Request.uncalled_of_mark? h.mark?

/-- Failures carry the kind of their stage. However the collaborators answer, a run that fails has one of
the causes of the stage that it fails in, and an error that a collaborator answers is the cause of the
failure, in the words of the stage that made the call. -/
theorem run_accounted (answer : Answers σ) (host : σ) (s : Settings) (previous : RunState) :
    (run s Toolchain.outside previous).Ends answer host fun r es _ =>
      (∀ failure, r.1 = .error failure → Carries failure.stage failure.cause ∧
        Cause answer s (askedOf answer es) failure.stage failure.cause) ∧
      ∀ call e, (⟨call, some (.error e)⟩ : Asked) ∈ askedOf answer es →
        ∃ failure, r.1 = .error failure ∧ Worded s call e failure.stage failure.cause := by
  refine ends_run ((stages_accounted _ previous).mono fun r es h₁ accounted => ?_)
  have cleaned : (cleanUp s r.2.workspace).Ends answer h₁ fun _ es₁ _ => askedOf answer es₁ = [] :=
    (cleanUp_uncalled r.2.workspace).askedOf_trace
  refine cleaned.mono fun _ es₁ h₂ silent => ?_
  have logged : (logOutcome r.1).Ends answer h₂ fun _ es₂ _ => askedOf answer es₂ = [] :=
    (only_logOutcome r.1 fun _ _ _ => rfl).askedOf_trace
  refine logged.mono fun _ es₂ h₃ silent' => ?_
  have asked : askedOf answer ((.clock, host) :: (es ++ (es₁ ++ es₂))) = askedOf answer es := by
    change askedOf answer (es ++ (es₁ ++ es₂)) = _
    rw [askedOf_append, askedOf_append, silent, silent', List.append_nil, List.append_nil]
  rw [asked]
  rcases r with ⟨failure | report, p⟩
  · refine ⟨?_, fun call e hm => ⟨failure, rfl, accounted.2 call e hm⟩⟩
    rintro _ ⟨⟩
    exact ⟨accounted.1.carries, accounted.1⟩
  · exact ⟨nofun, fun call e hm => (not_mem_of_succeeded accounted call e hm).elim⟩

end Pipeline

end LayerPack
