import Mathlib.Logic.Function.Basic
import LayerPack.Machine.Script
import LayerPack.Proofs.Pipeline.Calls

/-! Bringing the active environment up to date. Whatever the environment answers, it is asked whether
the project is installed, it removes the project exactly if it is, and it installs the wheel only
after all this has succeeded; the first call that fails is the last one, and the failure names the
project and the call. Of an environment in which these calls do what they are for, more can be said:
the wheel takes the place of any copy of the project, so that what is installed at the end does not
depend on that copy, and doing it again changes nothing. -/
namespace LayerPack

open Program

variable {α β σ : Type} {answer : Answers σ} {host : σ} {deadline : Option Nat}

/-- A call and what came of it, if an answer came in time. -/
structure Asked where
  call : Call
  reply : Option (Except Error call.Result)

def Request.asked? : (q : Request) → q.Reply → Option Asked
  | .collaborate call deadline, r => some ⟨call, call.answered deadline r⟩
  | _, _ => none

/-- The calls among requests, in their order. -/
def askedOf (answer : Answers σ) (es : List (Request × σ)) : List Asked :=
  es.filterMap fun e => e.1.asked? (answer e.1 e.2).1

@[simp] theorem askedOf_nil : askedOf answer [] = [] := rfl

@[simp] theorem askedOf_append (es es' : List (Request × σ)) :
    askedOf answer (es ++ es') = askedOf answer es ++ askedOf answer es' := List.filterMap_append

@[simp] theorem askedOf_log (level : Level) (text : String) (h : σ) (es : List (Request × σ)) :
    askedOf answer ((.log level text, h) :: es) = askedOf answer es := rfl

@[simp] theorem askedOf_collaborate (call : Call) (h : σ) (es : List (Request × σ)) :
    askedOf answer ((.collaborate call deadline, h) :: es) =
      ⟨call, call.answered deadline (answer (.collaborate call deadline) h).1⟩ ::
        askedOf answer es := rfl

/-- What a call of the environment is for, in the words of its failure. -/
def purposeOf (wheel : Wheel) : Call → String
  | .isInstalled _ => "checking for an existing installation"
  | .uninstall _ => "removing the existing installation"
  | _ => "installing " ++ wheel.fileName

/-- How a call stops the work that it belongs to, if it does. -/
def Asked.stop? (project : String) (wheel : Wheel) (a : Asked) : Option Stop :=
  match a.reply with
  | none => some .late
  | some (.error e) => some (.failed (reconcileError project (purposeOf wheel a.call) e))
  | some (.ok _) => none

/-- The environment answered a call, and it did not fail. -/
def Asked.Succeeded (a : Asked) : Prop := ∃ result, a.reply = some (.ok result)

namespace Asked

variable {project : String} {wheel : Wheel} {a : Asked}

theorem stop?_eq_none : a.stop? project wheel = none ↔ a.Succeeded := by
  unfold stop? Succeeded
  rcases a.reply with _ | _ | _ <;> simp

theorem stop?_eq_late : a.stop? project wheel = some .late ↔ a.reply = none := by
  unfold stop?
  rcases a.reply with _ | _ | _ <;> simp

theorem stop?_eq_failed {e : Error} : a.stop? project wheel = some (.failed e) ↔
    ∃ cause, a.reply = some (.error cause) ∧
      e = reconcileError project (purposeOf wheel a.call) cause := by
  unfold stop?
  rcases a.reply with _ | _ | _ <;> simp [eq_comm]

end Asked

/-- Why work has stopped, if it has. -/
def stopOf : Except Stop α → Option Stop
  | .ok _ => none
  | .error stop => some stop

theorem stopOf_eq_some {r : Except Stop α} {stop : Stop} : stopOf r = some stop ↔ r = .error stop := by
  cases r <;> simp [stopOf]

theorem stopOf_eq_none {r : Except Stop α} : stopOf r = none ↔ ∃ a, r = .ok a := by
  cases r <;> simp [stopOf]

/-- Calls made one after the other, as far as they succeed. -/
inductive Chain (stop? : Asked → Option Stop) : List Call → List Asked → Option Stop → Prop
  | done : Chain stop? [] [] none
  | next {a : Asked} {calls asked stop} (ok : stop? a = none) (rest : Chain stop? calls asked stop) :
    Chain stop? (a.call :: calls) (a :: asked) stop
  | stop {a : Asked} {calls stop} (failed : stop? a = some stop) :
    Chain stop? (a.call :: calls) [a] (some stop)

namespace Chain

variable {stop? : Asked → Option Stop} {calls calls' : List Call} {asked asked' : List Asked}
  {stop : Option Stop}

theorem append (h : Chain stop? calls asked none) (h' : Chain stop? calls' asked' stop) :
    Chain stop? (calls ++ calls') (asked ++ asked') stop := by
  generalize hn : none = through at h
  induction h with
  | done => exact h'
  | next ok _ ih => exact .next ok (ih hn)
  | stop => cases hn

/-- What follows a failure is not called. -/
theorem weaken {s : Stop} (h : Chain stop? calls asked (some s)) (calls' : List Call) :
    Chain stop? (calls ++ calls') asked (some s) := by
  generalize hs : some s = stopped at h
  induction h with
  | done => cases hs
  | next ok _ ih => exact .next ok (ih hs)
  | stop failed => exact .stop failed

/-- The first call stops the chain, or the others follow it. -/
theorem cons {call : Call} (h : Chain stop? (call :: calls) asked stop) :
    ∃ reply, (asked = [⟨call, reply⟩] ∧ stop = stop? ⟨call, reply⟩ ∧ stop ≠ none) ∨
      ∃ rest, asked = ⟨call, reply⟩ :: rest ∧ stop? ⟨call, reply⟩ = none ∧
        Chain stop? calls rest stop := by
  cases h with
  | next ok rest => exact ⟨_, .inr ⟨_, rfl, ok, rest⟩⟩
  | stop failed => exact ⟨_, .inl ⟨rfl, failed.symm, by simp⟩⟩

theorem of_single {call : Call} (h : Chain stop? [call] asked stop) :
    ∃ reply, asked = [⟨call, reply⟩] ∧ stop = stop? ⟨call, reply⟩ := by
  obtain ⟨reply, ⟨rfl, hs, -⟩ | ⟨_, rfl, ok, rest⟩⟩ := h.cons
  · exact ⟨reply, rfl, hs⟩
  · cases rest
    exact ⟨reply, rfl, ok.symm⟩

/-- A chain of a single call. -/
theorem single (a : Asked) : Chain stop? [a.call] [a] (stop? a) := by
  cases h : stop? a with
  | none => exact .next h .done
  | some s => exact .stop h

end Chain

/-- However it is answered, the work makes these calls as far as they succeed, and stops as they
do. -/
structure Work.Chained (stop? : Asked → Option Stop) (w : Work α) (calls : List Call) : Prop where
  ends : ∀ {σ : Type} (answer : Answers σ) (host : σ) (deadline : Option Nat),
    (w deadline).Ends answer host fun r es _ => Chain stop? calls (askedOf answer es) (stopOf r)

namespace Work.Chained

variable {stop? : Asked → Option Stop} {w : Work α} {f : α → Work β} {calls calls' : List Call}

theorem pure (a : α) : Chained stop? (pure a : Work α) [] := ⟨fun _ _ _ => .done⟩

theorem log (level : Level) (text : String) :
    Chained stop? (Work.now (request (.log level text))) [] := ⟨fun _ _ _ => .done⟩

theorem bind (hw : w.Chained stop? calls) (hf : ∀ a, (f a).Chained stop? calls') :
    (w >>= f).Chained stop? (calls ++ calls') := by
  refine ⟨fun answer host deadline => Work.ends_bind.mpr ?_⟩
  refine (hw.ends answer host deadline).mono fun r es h made => ?_
  cases r with
  | error stop => exact made.weaken _
  | ok a =>
    refine ((hf a).ends answer h deadline).mono fun r' es' _ made' => ?_
    rw [askedOf_append]
    exact made.append made'

/-- A call of the environment stops as its failure is worded. -/
theorem perform (project : String) (wheel : Wheel) (call : Call) :
    ((Toolchain.outside.perform call).mapError (reconcileError project (purposeOf wheel call))).Chained
      (Asked.stop? project wheel) [call] := by
  refine ⟨fun answer host deadline => Work.ends_mapError.mpr (Toolchain.ends_outside.mpr ?_)⟩
  have made (reply : Option (Except Error call.Result)) : Chain (Asked.stop? project wheel) [call]
      [⟨call, reply⟩] (Asked.stop? project wheel ⟨call, reply⟩) := .single ⟨call, reply⟩
  simp only [askedOf_collaborate, askedOf_nil]
  rcases call.answered deadline (answer (.collaborate call deadline) host).1 with _ | _ | _
  all_goals exact made _

end Work.Chained

variable {project : String} {wheel : Wheel}

/-- The calls after the question whether the project is installed. -/
def replacing (project : String) (wheel : Wheel) (installed : Bool) : List Call :=
  (if installed then [.uninstall project] else []) ++ [.install wheel.path]

/-- What is done once the environment has answered whether the project is installed. -/
def replaceInstalled (t : Toolchain) (project : String) (wheel : Wheel) (installed : Bool) :
    Work Bool := do
  removeInstalled t project installed
  installWheel t project wheel
  return installed

theorem refreshEnvironment_eq (t : Toolchain) (project : String) (wheel : Wheel) :
    refreshEnvironment t project wheel =
      (t.perform (.isInstalled project)).mapError
        (reconcileError project (purposeOf wheel (.isInstalled project))) >>=
        replaceInstalled t project wheel := rfl

theorem removeInstalled_chained (wheel : Wheel) (installed : Bool) :
    (removeInstalled Toolchain.outside project installed).Chained (Asked.stop? project wheel)
      (if installed then [.uninstall project] else []) := by
  cases installed with
  | true => exact (Work.Chained.log _ _).bind fun _ => .perform project wheel (.uninstall project)
  | false => exact .log _ _

theorem installWheel_chained : (installWheel Toolchain.outside project wheel).Chained
    (Asked.stop? project wheel) [.install wheel.path] :=
  (Work.Chained.log _ _).bind fun _ =>
    (Work.Chained.perform project wheel (.install wheel.path)).bind fun _ => .log _ _

theorem replaceInstalled_chained (installed : Bool) :
    (replaceInstalled Toolchain.outside project wheel installed).Chained (Asked.stop? project wheel)
      (replacing project wheel installed) :=
  (removeInstalled_chained wheel installed).bind fun _ =>
    installWheel_chained.bind fun _ => .pure installed

theorem replaceInstalled_yields (installed : Bool) :
    (replaceInstalled Toolchain.outside project wheel installed).Yields (· = installed) :=
  (Work.yields_true _).bind fun _ _ => (Work.yields_true _).bind fun _ _ => Work.yields_pure rfl

/-- The question either stops the work, or its answer decides what else is called. -/
theorem refresh_chain (project : String) (wheel : Wheel) :
    (refreshEnvironment Toolchain.outside project wheel deadline).Ends answer host fun r es _ =>
      ∃ reply asked, askedOf answer es = ⟨.isInstalled project, reply⟩ :: asked ∧
        match reply with
        | some (.ok installed) =>
          Chain (Asked.stop? project wheel) (replacing project wheel installed) asked (stopOf r) ∧
            ∀ replaced, r = .ok replaced → replaced = installed
        | _ => asked = [] ∧ stopOf r = Asked.stop? project wheel ⟨.isInstalled project, reply⟩ := by
  rw [refreshEnvironment_eq]
  refine Work.ends_bind.mpr (Work.ends_mapError.mpr (Toolchain.ends_outside.mpr ?_))
  rcases hr : Call.answered (.isInstalled project) deadline
    (answer (.collaborate (.isInstalled project) deadline) host).1 with _ | e | installed
  · exact ⟨none, [], by simp [hr], rfl, rfl⟩
  · exact ⟨some (.error e), [], by simp [hr], rfl, rfl⟩
  · refine (((replaceInstalled_chained installed).ends answer _ deadline).and
      (replaceInstalled_yields installed).ends).mono fun r es _ h => ?_
    exact ⟨some (.ok installed), askedOf answer es, by simp [hr], h⟩

/-- A run of the last stage, seen from the environment: its calls with their answers, and its
result. -/
structure Refreshed (project : String) (wheel : Wheel) (asked : List Asked)
    (r : Except Stop Bool) : Prop where
  calls : asked.map (·.call) ∈
    [[.isInstalled project],
      [.isInstalled project, .uninstall project],
      [.isInstalled project, .install wheel.path],
      [.isInstalled project, .uninstall project, .install wheel.path]]
  /-- Nothing is called after a failure. -/
  stops : ∀ a ∈ asked.dropLast, a.Succeeded
  uninstalls : .uninstall project ∈ asked.map (·.call) ↔
    (⟨.isInstalled project, some (.ok true)⟩ : Asked) ∈ asked
  installs : .install wheel.path ∈ asked.map (·.call) ↔
    ∀ a ∈ asked, a.call ≠ .install wheel.path → a.Succeeded
  /-- Success means that all calls succeeded, up to the installation. -/
  ok : ∀ replaced, r = .ok replaced ↔
    (∀ a ∈ asked, a.Succeeded) ∧ (asked.map (·.call)).getLast? = some (.install wheel.path) ∧
      (⟨.isInstalled project, some (.ok replaced)⟩ : Asked) ∈ asked
  /-- A failure is that of the last call. -/
  failed : ∀ e, r = .error (.failed e) ↔ ∃ a cause, asked.getLast? = some a ∧
    a.reply = some (.error cause) ∧ e = reconcileError project (purposeOf wheel a.call) cause
  late : r = .error .late ↔ ∃ a, asked.getLast? = some a ∧ a.reply = none

namespace Refreshed

variable {installed : Bool} {asked : List Asked} {r : Except Stop Bool}

/-- A result that is decided by the last call. -/
theorem last {a : Asked} (h : stopOf r = a.stop? project wheel) :
    ((∃ replaced, r = .ok replaced) ↔ a.Succeeded) ∧
      (∀ e, r = .error (.failed e) ↔ ∃ cause, a.reply = some (.error cause) ∧
        e = reconcileError project (purposeOf wheel a.call) cause) ∧
      (r = .error .late ↔ a.reply = none) := by
  simp only [← stopOf_eq_none, ← stopOf_eq_some, h, Asked.stop?_eq_none, Asked.stop?_eq_failed,
    Asked.stop?_eq_late, implies_true, and_true]

theorem of_question {reply : Option (Except Error Bool)}
    (hr : ¬ (⟨.isInstalled project, reply⟩ : Asked).Succeeded)
    (hs : stopOf r = Asked.stop? project wheel ⟨.isInstalled project, reply⟩) :
    Refreshed project wheel [⟨.isInstalled project, reply⟩] r := by
  obtain ⟨ok, failed, late⟩ := last hs
  constructor <;> simp_all [Asked.Succeeded, eq_comm (b := reply)]

theorem of_removal {reply : Option (Except Error Unit)}
    (hr : ¬ (⟨.uninstall project, reply⟩ : Asked).Succeeded)
    (hs : stopOf r = Asked.stop? project wheel ⟨.uninstall project, reply⟩) :
    Refreshed project wheel
      [⟨.isInstalled project, some (.ok true)⟩, ⟨.uninstall project, reply⟩] r := by
  obtain ⟨ok, failed, late⟩ := last hs
  constructor <;> simp_all [Asked.Succeeded]

theorem of_installation {reply : Option (Except Error Unit)}
    (hr : ∀ replaced, r = .ok replaced → replaced = installed)
    (hs : stopOf r = Asked.stop? project wheel ⟨.install wheel.path, reply⟩) :
    Refreshed project wheel
      (⟨.isInstalled project, some (.ok installed)⟩ ::
        (if installed then [⟨.uninstall project, some (.ok ())⟩] else []) ++
          [⟨.install wheel.path, reply⟩]) r := by
  obtain ⟨ok, failed, late⟩ := last hs
  cases installed <;> constructor <;> simp_all [Asked.Succeeded]

/-- What the question leads to is what a run of the stage is. -/
theorem of_chain (chain : Chain (Asked.stop? project wheel) (replacing project wheel installed) asked
    (stopOf r)) (value : ∀ replaced, r = .ok replaced → replaced = installed) :
    Refreshed project wheel (⟨.isInstalled project, some (.ok installed)⟩ :: asked) r := by
  cases installed with
  | false =>
    obtain ⟨reply, rfl, hs⟩ := chain.of_single
    exact of_installation value hs
  | true =>
    obtain ⟨reply, ⟨rfl, hs, failed⟩ | ⟨rest, rfl, ok, final⟩⟩ := chain.cons
    · exact of_removal (fun ok => failed (hs.trans (Asked.stop?_eq_none.mpr ok))) hs
    · obtain ⟨⟨⟩, removed⟩ := Asked.stop?_eq_none.mp ok
      dsimp only at removed
      subst removed
      obtain ⟨reply, rfl, hs⟩ := final.of_single
      exact of_installation value hs

end Refreshed

theorem refresh_refreshed (project : String) (wheel : Wheel) :
    (refreshEnvironment Toolchain.outside project wheel deadline).Ends answer host fun r es _ =>
      Refreshed project wheel (askedOf answer es) r := by
  refine (refresh_chain project wheel).mono fun r es _ h => ?_
  obtain ⟨reply, asked, he, h⟩ := h
  rw [he]
  rcases reply with _ | _ | installed
  · obtain ⟨rfl, hs⟩ := h
    exact .of_question (by simp [Asked.Succeeded]) hs
  · obtain ⟨rfl, hs⟩ := h
    exact .of_question (by simp [Asked.Succeeded]) hs
  · exact .of_chain h.1 h.2

/-- A failure is one of the project in its environment, and only a deadline cuts the work off. -/
theorem refresh_fails (project : String) (wheel : Wheel) :
    (refreshEnvironment Toolchain.outside project wheel).Fails
      fun cause => ∃ reason, cause = .reconciliation project reason := by
  have asked (call : Call) (what : String) :
      ((Toolchain.outside.perform call).mapError (reconcileError project what)).Fails
        fun cause => ∃ reason, cause = .reconciliation project reason := by
    rintro (_ | limit)
    · rintro (_ | _) stop ⟨⟩
      exact .inr ⟨_, rfl, _, rfl⟩
    · rintro (_ | _ | _) stop ⟨⟩
      · exact .inl ⟨rfl, by simp⟩
      · exact .inr ⟨_, rfl, _, rfl⟩
  have removed : ∀ installed, (removeInstalled Toolchain.outside project installed).Fails
      fun cause => ∃ reason, cause = .reconciliation project reason
    | true => (Work.fails_now _).bind fun _ => asked _ _
    | false => Work.fails_now _
  refine (asked _ _).bind fun installed => (removed installed).bind fun _ => ?_
  refine Work.Fails.bind (w := installWheel _ _ _) ?_ fun _ => Work.fails_pure _
  exact (Work.fails_now _).bind fun _ => (asked _ _).bind fun _ => Work.fails_now _

/-! ### Environments that keep their word -/

/-- An environment, seen as the wheel from which each project is installed, in which a successful
removal takes the project away and a successful installation puts the wheel in its place. -/
structure Replaces (answer : Answers σ) (packages : σ → String → Option Path) (project : String)
    (wheel : Path) : Prop where
  removed : ∀ deadline h, Call.answered (.uninstall project) deadline
      (answer (.collaborate (.uninstall project) deadline) h).1 = some (.ok ()) →
    packages (answer (.collaborate (.uninstall project) deadline) h).2 =
      Function.update (packages h) project none
  placed : ∀ deadline h, Call.answered (.install wheel) deadline
      (answer (.collaborate (.install wheel) deadline) h).1 = some (.ok ()) →
    packages (answer (.collaborate (.install wheel) deadline) h).2 =
      Function.update (packages h) project (some wheel)
  logged : ∀ level text h, packages (answer (.log level text) h).2 = packages h

namespace Replaces

variable {packages : σ → String → Option Path}

/-- A call that succeeds is one that the environment has answered with success. -/
theorem perform_ends (call : Call) (f : Error → Error) :
    ((Toolchain.outside.perform call).mapError f deadline).Ends answer host fun r _ h =>
      h = (answer (.collaborate call deadline) host).2 ∧ ∀ result, r = .ok result →
        call.answered deadline (answer (.collaborate call deadline) host).1 = some (.ok result) := by
  refine Work.ends_mapError.mpr (Toolchain.ends_outside.mpr ?_)
  rcases call.answered deadline (answer (.collaborate call deadline) host).1 with _ | _ | result
  · exact ⟨rfl, fun _ h => by cases h⟩
  · exact ⟨rfl, fun _ h => by cases h⟩
  · refine ⟨rfl, ?_⟩
    rintro _ ⟨⟩
    rfl

/-- A removal changes nothing that the installation after it would not change. -/
theorem removeInstalled_ends (env : Replaces answer packages project wheel.path) (installed : Bool) :
    (removeInstalled Toolchain.outside project installed deadline).Ends answer host fun r _ h =>
      r = .ok () → Function.update (packages h) project (some wheel.path) =
        Function.update (packages host) project (some wheel.path) := by
  cases installed with
  | false => exact fun _ => congrArg (Function.update · project _) (env.logged ..)
  | true =>
    refine Work.ends_bind.mpr (Work.ends_now.mpr (ends_request.mpr ?_))
    refine (perform_ends _ _).mono ?_
    rintro r _ _ ⟨rfl, answered⟩ ok
    rw [env.removed _ _ (answered _ ok), env.logged, Function.update_idem]

theorem installWheel_ends (env : Replaces answer packages project wheel.path) :
    (installWheel Toolchain.outside project wheel deadline).Ends answer host fun r _ h =>
      r = .ok () → packages h = Function.update (packages host) project (some wheel.path) := by
  refine Work.ends_bind.mpr (Work.ends_now.mpr (ends_request.mpr ?_))
  refine Work.ends_bind.mpr ((perform_ends _ _).mono ?_)
  rintro r _ _ ⟨rfl, answered⟩
  cases r with
  | error stop => exact fun h => by cases h
  | ok result =>
    refine Work.ends_now.mpr (ends_request.mpr fun _ => ?_)
    rw [env.logged, env.placed _ _ (answered _ rfl), env.logged]

/-- After a success the wheel stands in the place of the project, and all else is as it was after the
question. -/
theorem refresh_ends (env : Replaces answer packages project wheel.path) :
    (refreshEnvironment Toolchain.outside project wheel deadline).Ends answer host fun r _ h =>
      r.isOk → packages h = Function.update
        (packages (answer (.collaborate (.isInstalled project) deadline) host).2) project
        (some wheel.path) := by
  refine Work.ends_bind.mpr ((perform_ends _ _).mono ?_)
  rintro r _ _ ⟨rfl, -⟩
  cases r with
  | error stop => exact fun h => by cases h
  | ok installed =>
    refine Work.ends_bind.mpr ((env.removeInstalled_ends installed).mono ?_)
    rintro (_ | ⟨⟩) _ h removed
    · exact fun h => by cases h
    · refine Work.ends_bind.mpr (env.installWheel_ends.mono ?_)
      rintro (_ | ⟨⟩) _ h placed
      · exact fun h => by cases h
      · exact fun _ => (placed rfl).trans (removed rfl)

end Replaces

/-- The environment is refreshed by one of four sequences of calls, which stops at the first failure
and succeeds only with the installation. If the calls do what they are for, the wheel takes the place
of the project: whichever copy of it was there, the packages at the end are the same, and doing it
again changes nothing. -/
theorem refresh_reconciles (answer : Answers σ) (project : String) (wheel : Wheel) :
    (∀ host deadline, (refreshEnvironment Toolchain.outside project wheel deadline).Ends answer host
      fun r es _ => Refreshed project wheel (askedOf answer es) r ∧ ∀ stop, r = .error stop →
        (stop = .late ∧ deadline ≠ none) ∨
          ∃ cause, stop = .failed cause ∧ ∃ reason, cause = .reconciliation project reason) ∧
    ∀ packages, Replaces answer packages project wheel.path → ∀ host deadline,
      (refreshEnvironment Toolchain.outside project wheel deadline).Ends answer host fun r _ after =>
        r.isOk →
        packages after project = some wheel.path ∧
        ((∀ limit h, packages (answer (.collaborate (.isInstalled project) limit) h).2 = packages h) →
          packages after = Function.update (packages host) project (some wheel.path) ∧
          (∀ other limit, (∀ name, name ≠ project → packages other name = packages host name) →
            (refreshEnvironment Toolchain.outside project wheel limit).Ends answer other
              fun r' _ after' => r'.isOk → packages after' = packages after) ∧
          ∀ limit, (refreshEnvironment Toolchain.outside project wheel limit).Ends answer after
            fun r' _ again => r'.isOk → packages again = packages after) := by
  refine ⟨fun host deadline =>
      (refresh_refreshed project wheel).and (refresh_fails project wheel).ends,
    fun packages env host deadline => env.refresh_ends.mono fun r _ after replaced ok => ?_⟩
  refine ⟨by rw [replaced ok, Function.update_self], fun asking => ?_⟩
  have replaced : packages after = Function.update (packages host) project (some wheel.path) := by
    rw [replaced ok, asking]
  refine ⟨replaced, fun other limit same => ?_, fun limit => ?_⟩
  · refine env.refresh_ends.mono fun r' _ after' replaced' ok' => ?_
    rw [replaced' ok', asking, replaced]
    funext name
    rcases eq_or_ne name project with rfl | hn
    · rw [Function.update_self, Function.update_self]
    · rw [Function.update_of_ne hn, Function.update_of_ne hn, same name hn]
  · refine env.refresh_ends.mono fun r' _ again replaced' ok' => ?_
    rw [replaced' ok', asking, replaced, Function.update_idem]

/-- What a call does to an environment that keeps its word, where every wheel is of one project. -/
def Call.obeyed (project : String) : (call : Call) → (String → Option Path) →
    call.Result × (String → Option Path)
  | .isInstalled name, packages => ((packages name).isSome, packages)
  | .uninstall name, packages => ((), Function.update packages name none)
  | .install wheel, packages => ((), Function.update packages project (some wheel))
  | .build .., packages | .installInto .., packages => ((), packages)

/-- A machine with such an environment. -/
def obedient (project : String) : Answers (Machine × (String → Option Path))
  | .collaborate call none, (m, packages) =>
    (.ok (call.obeyed project packages).1, m, (call.obeyed project packages).2)
  | .collaborate call (some _), (m, packages) =>
    (some (.ok (call.obeyed project packages).1), m, (call.obeyed project packages).2)
  | q, (m, packages) =>
    ((m.answer (.scripted fun _ => {}) q).1, (m.answer (.scripted fun _ => {}) q).2, packages)

theorem obedient_replaces (project : String) (wheel : Path) :
    Replaces (obedient project) (·.2) project wheel where
  removed deadline h _ := by cases deadline <;> rfl
  placed deadline h _ := by cases deadline <;> rfl
  logged level text h := rfl

/-- An old wheel makes place for the new one, and another project stays. -/
theorem refresh_replaces_old_wheel :
    Replaces (obedient "mylib") (·.2) "mylib" (.ofString "/new.whl") ∧
    (refreshEnvironment Toolchain.outside "mylib" ⟨.ofString "/new.whl", "new.whl"⟩ none).Ends
      (obedient "mylib") ({}, fun _ => some (.ofString "/old.whl")) fun r _ after =>
        r = .ok true ∧ after.2 "mylib" = some (.ofString "/new.whl") ∧
          after.2 "other" = some (.ofString "/old.whl") := by
  have replaces := obedient_replaces "mylib" (.ofString "/new.whl")
  have ends := (refresh_reconciles (obedient "mylib") "mylib" ⟨.ofString "/new.whl", "new.whl"⟩).2
    (·.2) replaces ({}, fun _ => some (.ofString "/old.whl")) none rfl
  obtain ⟨new, settled⟩ := ends
  have all := (settled fun limit h => by cases limit <;> rfl).1
  exact ⟨replaces, rfl, new, (congrFun all "other").trans (Function.update_of_ne (by decide) _ _)⟩

end LayerPack
