import LayerPack.Proofs.Archive.Verdict
import LayerPack.Proofs.CommandLine.Rejection
import LayerPack.Proofs.Pipeline.State

/-! The exit status of a session. It is decided by how the run of the pipeline ended and by what the
check of the limits found, and by one thing more: a report that is asked for as JSON can be written
only if its paths are text. -/
namespace LayerPack

open Session
open Program hiding bind

variable {σ : Type} {answer : Answers σ} {state : σ}

/-- The exit status of a session with this result. -/
def exitStatus : Except RunError Unit → Nat
  | .ok () => 0
  | .error e => e.exitCode

/-- If something was printed, then the terminal has taken it. -/
def Request.Heard : (q : Request) → q.Reply → Prop
  | .print .., r => r = .ok ()
  | _, _ => True

/-- The terminal has taken all that was printed. -/
def AllHeard (answer : Answers σ) (es : List (Request × σ)) : Prop :=
  ∀ asked ∈ es, asked.1.Heard (answer asked.1 asked.2).1

theorem AllHeard.mono {es es' : List (Request × σ)} (h : AllHeard answer es') (sub : es ⊆ es') :
    AllHeard answer es := fun asked hm => h asked (sub hm)

/-- All paths of the report are text. -/
def Report.isText (r : Report) : Bool :=
  [r.wheel.path, r.archive.path, r.workspace].all fun p => (Bytes.toText? p.bytes).isSome

namespace Report

variable {p : Path} {text : String}

theorem pathJson_text (h : Bytes.toText? p.bytes = some text) : pathJson p = .ok (.string text) := by
  simp [pathJson, h]

theorem pathJson_other (h : Bytes.toText? p.bytes = none) :
    pathJson p = .error "path contains invalid UTF-8 characters" := by
  simp [pathJson, h]

/-- A report has a form as JSON if its paths are text, and only then. -/
theorem toJson_isText (r : Report) (limits : Option Archive.LimitReport) :
    if r.isText then ∃ document, r.toJson limits = .ok document
    else ∃ reason, r.toJson limits = .error reason := by
  unfold toJson
  cases hw : Bytes.toText? r.wheel.path.bytes with
  | none =>
    rw [pathJson_other hw]
    simp [isText, hw, bind, Except.bind]
  | some wheel =>
    rw [pathJson_text hw]
    cases ha : Bytes.toText? r.archive.path.bytes with
    | none =>
      rw [pathJson_other ha]
      simp [isText, ha, bind, Except.bind]
    | some archive =>
      rw [pathJson_text ha]
      cases hs : Bytes.toText? r.workspace.bytes with
      | none =>
        rw [pathJson_other hs]
        simp [isText, hs, bind, Except.bind]
      | some workspace =>
        rw [pathJson_text hs]
        simp [isText, hw, ha, hs, bind, Except.bind, pure, Except.pure]

end Report

namespace Terminal

variable (t : Terminal)

/-- What is printed in a way that the terminal takes is printed. -/
def Tells (p : Program (Except SystemError Unit)) : Prop :=
  ∀ {σ : Type} (answer : Answers σ) (state : σ), p.Ends answer state fun r es _ =>
    AllHeard answer es → r = .ok ()

theorem tells_print (stream : Stream) (text : String) : Tells (request (.print stream text)) :=
  fun _ _ heard => heard _ (List.mem_singleton_self _)

theorem tells_unlessQuiet (style : Style) (mark message : String) :
    Tells (t.unlessQuiet style mark message) := by
  unfold unlessQuiet
  split
  · exact fun _ _ _ => rfl
  · exact tells_print _ _

theorem tells_detail (message : String) : Tells (t.detail message) := by
  unfold detail
  split
  · exact tells_print _ _
  · exact fun _ _ _ => rfl

theorem tells_printLines (lines : List Report.Line) : Tells (Report.printLines t lines) := by
  induction lines with
  | nil => exact fun _ _ _ => rfl
  | cons line rest ih =>
    have told : Tells (line.print t) := by
      cases line with
      | detail text => exact t.tells_detail text
      | success | indented | warning => exact t.tells_unlessQuiet _ _ _
    intro σ answer state
    refine (told answer state).bind fun r es s hr => ?_
    cases r with
    | error e => exact fun heard => by simpa using hr (heard.mono (by simp))
    | ok =>
      refine (ih answer s).mono fun r es' _ h heard => h (heard.mono ?_)
      exact List.subset_append_right _ _

end Terminal

namespace Args

/-- A session up to its report: the run, and what the check of the limits has found. -/
def measured (a : Args) (t : Terminal) : Session (Report × Option Archive.LimitReport) := do
  let ready ← a.opening t
  let report ← ready.perform
  let checked ← a.checkLimitsOf t report
  return (report, checked)

/-- The same for the terminal that the arguments ask for. -/
def measures (a : Args) : Program (Except RunError (Report × Option Archive.LimitReport)) := do
  let t ← Terminal.openWith a.isVerbose a.isQuiet
  (a.measured t).run

theorem execute_eq_measured (a : Args) : a.execute =
    Terminal.openWith a.isVerbose a.isQuiet >>= fun t =>
      (a.measured t >>= fun found => a.printReport t found.1 found.2 >>= fun _ =>
        verdict found.2).run := by
  rw [execute_eq]
  simp only [measured, conclude, LawfulMonad.bind_assoc, pure_bind]

/-- The exit status that follows from how far a session has come. -/
def statusOf (a : Args) : Except RunError (Report × Option Archive.LimitReport) → Nat
  | .error e => e.exitCode
  | .ok (report, checked) =>
    if a.json && !report.isText then 1
    else match checked with
      | none => 0
      | some limits => if limits.isWithin then 0 else 20

/-- A report is printed, unless it is to be JSON and has no such form. -/
theorem printReport_ends (a : Args) (t : Terminal) (report : Report)
    (checked : Option Archive.LimitReport) :
    (a.printReport t report checked).run.Ends answer state fun r es _ => AllHeard answer es →
      if a.json && !report.isText then ∃ reason, r = .error (.json reason) else r = .ok () := by
  unfold printReport
  cases hj : a.json with
  | false =>
    refine Session.ends_printing.mpr ((t.tells_printLines _ answer state).mono fun r es _ h heard => ?_)
    rw [h heard]
    rfl
  | true =>
    cases ht : report.isText with
    | false =>
      obtain ⟨reason, hr⟩ : ∃ reason, report.toJson checked = .error reason := by
        simpa [ht] using report.toJson_isText checked
      simp only [hr]
      exact fun _ => ⟨reason, rfl⟩
    | true =>
      obtain ⟨document, hd⟩ : ∃ document, report.toJson checked = .ok document := by
        simpa [ht] using report.toJson_isText checked
      simp only [hd]
      refine Session.ends_printing.mpr
        ((Terminal.tells_print _ _ answer state).mono fun r es _ h heard => ?_)
      rw [h heard]
      rfl

/-- What the check of the limits comes to in the end. -/
def judgement : Option Archive.LimitReport → Except RunError Unit
  | none => .ok ()
  | some found => if found.isWithin then .ok () else .error (.overLimits found.violations)

theorem verdict_ends (checked : Option Archive.LimitReport) :
    (verdict checked).run.Ends answer state fun r es _ => r = judgement checked ∧ es = [] := by
  unfold verdict
  cases checked with
  | none => exact ⟨rfl, rfl⟩
  | some found =>
    rw [judgement]
    dsimp only
    cases found.isWithin <;> exact ⟨rfl, rfl⟩

/-- How a session ends that has come so far with its report. -/
def Concludes (a : Args) :
    Except RunError (Report × Option Archive.LimitReport) → Except RunError Unit → Prop
  | .error e, r => r = .error e
  | .ok (report, checked), r =>
    if a.json && !report.isText then ∃ reason, r = .error (.json reason) else r = judgement checked

/-- A session that has come so far with its report prints it, and then it is judged. -/
theorem execute_reports (a : Args) : a.execute.Ends answer state fun r es _ => ∃ after,
    es = a.measures.trace answer state ++ after ∧
    match (a.measures.run answer state).1 with
    | .error e => r = .error e ∧ after = []
    | .ok (report, checked) => ∃ t : Terminal, t.quiet = a.isQuiet ∧
      (a.printReport t report checked).run.Ends answer (a.measures.run answer state).2
        fun printed es' _ => es' = after ∧ r = printed.bind fun _ => judgement checked := by
  rw [execute_eq_measured, measures, bind_eq, bind_eq, run_bind, trace_bind]
  refine Ends.bind (M := fun t es s => t = _ ∧ es = _ ∧ s = _) ⟨rfl, rfl, rfl⟩ ?_
  rintro t es s ⟨rfl, rfl, rfl⟩
  rw [Session.ends_bind]
  refine Ends.mono (Q := fun r es s => r = _ ∧ es = _ ∧ s = _) ⟨rfl, rfl, rfl⟩ ?_
  rintro r es₁ s ⟨hr, hes, hs⟩
  rw [← hr, ← hes, ← hs]
  clear hr hes hs
  cases r with
  | error e => exact ⟨[], by simp, rfl, rfl⟩
  | ok found =>
    obtain ⟨report, checked⟩ := found
    dsimp only
    rw [Session.ends_bind]
    refine Ends.mono (Q := fun printed es₂ _ => (a.printReport _ report checked).run.Ends answer s
      fun printed' es' _ => es' = es₂ ∧ printed' = printed) ⟨rfl, rfl⟩ fun printed es₂ s₂ same => ?_
    cases printed with
    | error e =>
      refine ⟨es₂, by simp, _, rfl, same.mono ?_⟩
      rintro printed es' _ ⟨rfl, rfl⟩
      exact ⟨rfl, rfl⟩
    | ok =>
      refine (verdict_ends checked).mono ?_
      rintro r es₃ _ ⟨hr, rfl⟩
      refine ⟨es₂, by simp, _, rfl, same.mono ?_⟩
      rintro printed es' _ ⟨rfl, rfl⟩
      exact ⟨rfl, hr⟩

/-- How a session ends follows from how far it has come with its report. -/
theorem execute_concludes (a : Args) : a.execute.Ends answer state fun r es _ =>
    a.measures.trace answer state ⊆ es ∧
      (AllHeard answer es → a.Concludes (a.measures.run answer state).1 r) := by
  refine a.execute_reports.mono fun r es _ ⟨after, hes, reported⟩ => ?_
  subst hes
  refine ⟨List.subset_append_left _ _, fun heard => ?_⟩
  generalize (a.measures.run answer state).1 = found at reported ⊢
  rcases found with e | ⟨report, checked⟩
  · exact reported.1
  obtain ⟨t, -, printed⟩ := reported
  obtain ⟨concluded, he, hr⟩ := (a.printReport_ends t report checked).and printed
  have concluded := concluded (heard.mono (he ▸ List.subset_append_right _ _))
  rw [Concludes]
  split at concluded
  next ht =>
    obtain ⟨reason, failed⟩ := concluded
    rw [if_pos ht]
    exact ⟨reason, hr.trans (by rw [failed]; rfl)⟩
  next ht =>
    rw [if_neg ht]
    exact hr.trans (by rw [concluded]; rfl)

theorem Concludes.exitStatus {a : Args} {found : Except RunError (Report × Option Archive.LimitReport)}
    {r : Except RunError Unit} (h : a.Concludes found r) : exitStatus r = a.statusOf found := by
  rcases found with e | ⟨report, checked⟩
  · rw [h]
    rfl
  · unfold statusOf
    rw [Concludes] at h
    dsimp only
    split at h
    next ht =>
      obtain ⟨reason, rfl⟩ := h
      rw [if_pos ht]
      rfl
    next ht =>
      rw [if_neg ht, h]
      cases checked with
      | none => rfl
      | some found =>
        rw [judgement]
        dsimp only
        cases found.isWithin <;> rfl

/-- The exit status follows from how far the session has come with its report. -/
theorem exitStatus_eq (a : Args) : a.execute.Ends answer state fun r es _ => AllHeard answer es →
    exitStatus r = a.statusOf (a.measures.run answer state).1 :=
  a.execute_concludes.mono fun _ _ _ ⟨_, concludes⟩ heard => (concludes heard).exitStatus

/-! ### How far a session comes -/

/-- The session gets to its run, and this is the result of the run and the state that it ends in. -/
def Runs (a : Args) (answer : Answers σ) (state : σ) (r : Except Failure Report × RunState) : Prop :=
  ∃ ready s, a.begins.run answer state = (.ok ready, s) ∧
    ((Pipeline.run ready.settings (Pip.ofSettings ready.settings ready.python).toolchain).run answer
      s).1 = r

/-- The check of the limits finds this. -/
def Finds (a : Args) (answer : Answers σ) (state : σ) (found : Archive.LimitReport) : Prop :=
  ∃ report, (a.measures.run answer state).1 = .ok (report, some found)

/-- Where a session stands when it has measured its archive, if it gets there. -/
inductive Measured (a : Args) (answer : Answers σ) (state : σ) (es : List (Request × σ)) :
    Except RunError (Report × Option Archive.LimitReport) → Prop
  | rejected (e : RunError) (code : e.exitCode ∈ [1, 2, 3]) (before : ∀ r, ¬ a.Runs answer state r) :
    Measured a answer state es (.error e)
  | failed (failure : Failure)
    (ran : ∀ r, a.Runs answer state r ↔ r = (.error failure, .failed failure.stage)) :
    Measured a answer state es (.error (.pipeline failure))
  | unread (report : Report) (e : RunError) (code : e.exitCode = 1) (asked : a.checkLimits)
    (ran : ∀ r, a.Runs answer state r ↔ r = (.ok report, .done)) : Measured a answer state es (.error e)
  | done (report : Report) (checked : Option Archive.LimitReport)
    (asked : checked.isSome = a.checkLimits)
    (ran : ∀ r, a.Runs answer state r ↔ r = (.ok report, .done))
    (measure : ∀ found, checked = some found →
      Archive.Weighed answer es report.archive.path a.limits found) :
    Measured a answer state es (.ok (report, checked))

theorem opening_gives (a : Args) (t : Terminal) : (a.opening t).Gives [1, 2, 3] fun _ => True := by
  refine ((a.prepare_gives t).mono (by decide)).bind fun found _ => ?_
  exact ((enter_gives t found.1).mono (by decide)).bind fun lock _ => trivial

theorem checkLimitsOf_ends (a : Args) (t : Terminal) (report : Report) :
    (a.checkLimitsOf t report).run.Ends answer state fun r es _ => ∀ found, r = .ok (some found) →
      Archive.Weighed answer es report.archive.path a.limits found := by
  unfold checkLimitsOf
  split
  next asked =>
    rw [Session.ends_bind]
    refine Ends.mono (Q := fun _ _ _ => True) trivial fun r es s _ => ?_
    cases r with
    | error e => exact fun _ h => by cases h
    | ok =>
      dsimp only
      rw [Session.ends_bind]
      refine Session.ends_bundling.mpr ((Archive.check_ends _ _).mono fun r es' _ h => ?_)
      cases r with
      | error e => exact fun _ h => by cases h
      | ok limits =>
        rintro found hf
        cases hf
        exact (h limits rfl).mono (by simp)
  next => exact fun _ h => by cases h

/-- The check of the limits cannot fail if there is none. -/
theorem checkLimitsOf_gives (a : Args) (t : Terminal) (report : Report) :
    (a.checkLimitsOf t report).Gives (if a.checkLimits then [1] else [])
      fun checked => checked.isSome = a.checkLimits := by
  have one : 1 ∈ [1] := by decide
  unfold checkLimitsOf
  cases a.checkLimits with
  | true =>
    exact (gives_printing _ one).bind fun _ _ => (gives_bundling _ one).bind fun _ _ => rfl
  | false => exact rfl

/-- A run under the lock ends with the result of the pipeline. -/
theorem perform_ends (ready : Ready) : ready.perform.run.Ends answer state fun r _ _ =>
    r = ((Pipeline.run ready.settings
      (Pip.ofSettings ready.settings ready.python).toolchain).run answer state).1.1.mapError
        .pipeline := by
  refine Ends.bind (M := fun r _ _ => r = _) rfl ?_
  rintro _ es s rfl
  exact rfl

theorem measures_measured (a : Args) (answer : Answers σ) (state : σ) :
    a.measures.Ends answer state fun r es _ => a.Measured answer state es r := by
  refine Ends.bind (M := fun t _ s => a.begins.run answer state = (a.opening t).run.run answer s)
    (by rw [begins, bind_eq, run_bind]; rfl) fun t es s begun => ?_
  unfold measured
  rw [Session.ends_bind]
  have opened : (a.opening t).run.Ends answer s fun r _ s' => a.begins.run answer state = (r, s') :=
    begun
  refine (opened.and (a.opening_gives t).ends).mono ?_
  rintro r es₁ s₁ ⟨begun, -, code⟩
  cases r with
  | error e =>
    refine .rejected e (code e rfl) fun r => ?_
    rintro ⟨ready, s', hb, -⟩
    cases begun.symm.trans hb
  | ok ready =>
    dsimp only
    rw [Session.ends_bind]
    refine (perform_ends ready).mono ?_
    rintro _ es₂ s₂ rfl
    have ended := (Pipeline.run_returns ready.settings
      (Pip.ofSettings ready.settings ready.python).toolchain .pending).run answer s₁
    have ran (r : Except Failure Report × RunState) : a.Runs answer state r ↔ r =
        ((Pipeline.run ready.settings
          (Pip.ofSettings ready.settings ready.python).toolchain).run answer s₁).1 := by
      constructor
      · rintro ⟨ready', s', hb, hr⟩
        cases begun.symm.trans hb
        exact hr.symm
      · rintro rfl
        exact ⟨ready, s₁, begun, rfl⟩
    generalize ((Pipeline.run ready.settings
      (Pip.ofSettings ready.settings ready.python).toolchain).run answer s₁).1 = result at ran ended ⊢
    obtain ⟨r, st⟩ := result
    cases r with
    | error failure =>
      obtain rfl : st = .failed failure.stage := ended
      exact .failed failure ran
    | ok report =>
      obtain rfl : st = .done := ended
      change (ExceptT.run (a.checkLimitsOf t report >>= _)).Ends answer s₂ _
      rw [Session.ends_bind]
      refine ((a.checkLimitsOf_gives t report).ends.and (a.checkLimitsOf_ends t report)).mono ?_
      rintro r es₃ s₃ ⟨⟨checked, code⟩, measure⟩
      cases r with
      | ok found =>
        refine .done report found (checked found rfl) ran fun limits h => ?_
        exact (measure limits (congrArg _ h)).mono fun e he => by simp [he]
      | error e =>
        have code := code e rfl
        cases asked : a.checkLimits with
        | true =>
          rw [asked] at code
          exact .unread report e (List.mem_singleton.mp code) asked ran
        | false =>
          rw [asked] at code
          cases code

end Args

/-! ### Options that only affect reporting -/

/-- Printing succeeds, and nothing else on the host comes of it. -/
def Deaf (answer : Answers σ) : Prop :=
  ∀ stream text s, answer (.print stream text) s = (.ok (), s)

/-- Two sessions that go the same way on a host. -/
def Session.Alike {α : Type} (answer : Answers σ) (x y : Session α) : Prop :=
  ∀ s, x.run.run answer s = y.run.run answer s

namespace Session

variable {α β : Type}

theorem Alike.refl (x : Session α) : Alike answer x x := fun _ => rfl

theorem Alike.bind {x y : Session α} {f g : α → Session β} (hx : Alike answer x y)
    (hf : ∀ a, Alike answer (f a) (g a)) : Alike answer (x >>= f) (y >>= g) := by
  intro s
  rw [ExceptT.run_bind, ExceptT.run_bind, bind_eq, bind_eq, run_bind, run_bind, hx s]
  rcases y.run.run answer s with ⟨r, s'⟩
  cases r with
  | ok a => exact hf a s'
  | error e => rfl

/-- What is only said goes unnoticed. -/
theorem Alike.told {p q : Program (Except SystemError Unit)}
    (hp : ∀ s, p.run answer s = (.ok (), s)) (hq : ∀ s, q.run answer s = (.ok (), s)) :
    Alike answer (printing p) (printing q) := by
  intro s
  change (p.bind _).run answer s = (q.bind _).run answer s
  rw [run_bind, run_bind, hp, hq]

end Session

namespace Terminal

variable (deaf : Deaf answer) (t : Terminal)
include deaf

theorem run_unlessQuiet (style : Style) (mark message : String) (s : σ) :
    (t.unlessQuiet style mark message).run answer s = (.ok (), s) := by
  unfold unlessQuiet
  split
  · rfl
  · exact deaf _ _ s

theorem run_detail (message : String) (s : σ) :
    (t.detail message).run answer s = (.ok (), s) := by
  unfold detail
  split
  · exact deaf _ _ s
  · rfl

end Terminal

namespace Args

variable (deaf : Deaf answer) (a : Args) (json verbose quiet : Bool) (t t' : Terminal)
include deaf

theorem prepare_alike : Alike answer
    (({ a with json, verbose, quiet } : Args).prepare t) (a.prepare t') := by
  have told (message : String) :
      Alike answer (printing (t.detail message)) (printing (t'.detail message)) :=
    .told (t.run_detail deaf _) (t'.run_detail deaf _)
  unfold prepare
  refine Alike.bind (.refl _) fun _ => Alike.bind (.refl _) fun project => ?_
  have settled (b : Args) (hb : b.settings project = a.settings project) : Alike answer (do
      let s ← orFail (b.settings project)
      printing (t.section_ ("Bundling layer for " ++ s.project))
      printing (t.detail ("Source: " ++ s.source.display))
      printing (t.detail ("Workspace: " ++ s.workspace.display))
      printing (t.detail ("Output: " ++ s.output.display))
      let python ← bundling (Interpreter.resolve s.python)
      let installer ← bundling (Interpreter.installerVersion python).toProgram
      printing (t.detail installer)
      return (s, python)) (do
      let s ← orFail (a.settings project)
      printing (t'.section_ ("Bundling layer for " ++ s.project))
      printing (t'.detail ("Source: " ++ s.source.display))
      printing (t'.detail ("Workspace: " ++ s.workspace.display))
      printing (t'.detail ("Output: " ++ s.output.display))
      let python ← bundling (Interpreter.resolve s.python)
      let installer ← bundling (Interpreter.installerVersion python).toProgram
      printing (t'.detail installer)
      return (s, python)) := by
    rw [hb]
    refine Alike.bind (.refl _) fun s => ?_
    refine Alike.bind (.told (t.run_unlessQuiet deaf _ _ _) (t'.run_unlessQuiet deaf _ _ _))
      fun _ => ?_
    refine (told _).bind fun _ => (told _).bind fun _ => (told _).bind fun _ => ?_
    refine Alike.bind (.refl _) fun python => Alike.bind (.refl _) fun _ => ?_
    exact (told _).bind fun _ => .refl _
  split
  · exact (told _).bind fun _ => settled _ rfl
  · exact settled _ rfl

theorem announceRun_alike (s : Settings) (lock : RunLock) :
    Alike answer (announceRun t s lock) (announceRun t' s lock) := by
  have announced (stages : List Stage) : Alike answer (announce t stages) (announce t' stages) := by
    induction stages with
    | nil => exact .refl _
    | cons stage rest ih =>
      exact Alike.bind (.told (t.run_detail deaf _) (t'.run_detail deaf _)) fun _ => ih
  refine Alike.bind (.told (t.run_detail deaf _) (t'.run_detail deaf _)) fun _ => ?_
  refine (announced _).bind fun _ => ?_
  exact .told (t.run_unlessQuiet deaf _ _ _) (t'.run_unlessQuiet deaf _ _ _)

theorem opening_alike : Alike answer
    (({ a with json, verbose, quiet } : Args).opening t) (a.opening t') := by
  refine (prepare_alike deaf a json verbose quiet t t').bind fun found => ?_
  refine Alike.bind (Alike.bind (.refl _) fun lock s => ?_) fun lock => .refl _
  change ((announceRun t found.1 lock).run.bind _).run answer s =
    ((announceRun t' found.1 lock).run.bind _).run answer s
  rw [run_bind, run_bind, announceRun_alike deaf t t' found.1 lock s]

theorem measured_alike : Alike answer
    (({ a with json, verbose, quiet } : Args).measured t) (a.measured t') := by
  refine (opening_alike deaf a json verbose quiet t t').bind fun ready => ?_
  refine Alike.bind (.refl _) fun report => ?_
  refine Alike.bind ?_ fun checked => .refl _
  unfold checkLimitsOf
  dsimp only
  split
  · refine Alike.bind ?_ fun _ => .refl _
    exact .told (t.run_unlessQuiet deaf _ _ _) (t'.run_unlessQuiet deaf _ _ _)
  · exact .refl _

/-- How far a session comes does not depend on what only affects reporting. -/
theorem measures_alike : ({ a with json, verbose, quiet } : Args).measures.run answer state =
    a.measures.run answer state := by
  have opened (verbose quiet verbose' quiet' : Bool) :
      ((Terminal.openWith verbose quiet).run answer state).2 =
        ((Terminal.openWith verbose' quiet').run answer state).2 := rfl
  unfold measures
  rw [bind_eq, bind_eq, run_bind, run_bind, measured_alike deaf a json verbose quiet _
    ((Terminal.openWith a.isVerbose a.isQuiet).run answer state).1,
    opened _ _ a.isVerbose a.isQuiet]

end Args

theorem Stage.exitCode_injective {stage other : Stage} (h : stage.exitCode = other.exitCode) :
    stage = other := by
  cases stage <;> cases other <;> first | rfl | cases h

theorem Stage.exitCode_range (stage : Stage) : 10 ≤ stage.exitCode ∧ stage.exitCode ≤ 14 := by
  cases stage <;> decide

theorem allHeard_of_deaf (deaf : Deaf answer) (es : List (Request × σ)) : AllHeard answer es := by
  rintro ⟨q, s⟩ -
  cases q with
  | print stream text => exact congrArg Prod.fst (deaf stream text s)
  | _ => trivial

namespace Args

variable {a : Args} {es : List (Request × σ)}
  {found : Except RunError (Report × Option Archive.LimitReport)}

/-- The exit status of a finished run, with its report as JSON or not. -/
theorem statusOf_done {report : Report} {checked : Option Archive.LimitReport} :
    a.statusOf (.ok (report, checked)) =
      if a.json && !report.isText then 1
      else if checked.all (·.isWithin) then 0 else 20 := by
  unfold statusOf
  cases checked <;> simp

/-- Only a failed stage gives a session its exit status. -/
theorem Measured.stage (h : a.Measured answer state es found) (stage : Stage) :
    a.statusOf found = stage.exitCode ↔ ∃ failure, a.Runs answer state (.error failure, .failed stage) := by
  obtain ⟨low, high⟩ := stage.exitCode_range
  cases h with
  | rejected e code before =>
    refine iff_of_false (fun h => ?_) fun ⟨failure, h⟩ => before _ h
    change e.exitCode = stage.exitCode at h
    simp only [List.mem_cons, List.not_mem_nil, or_false] at code
    omega
  | failed failure ran =>
    simp only [ran, Prod.mk.injEq, Except.error.injEq, RunState.failed.injEq, exists_eq_left]
    exact ⟨fun h => (Stage.exitCode_injective h).symm, fun h => congrArg Stage.exitCode h.symm⟩
  | unread report e code asked ran =>
    refine iff_of_false (fun h => ?_) fun ⟨failure, h⟩ => by simp [ran] at h
    change e.exitCode = stage.exitCode at h
    omega
  | done report checked asked ran measure =>
    refine iff_of_false (fun h => ?_) fun ⟨failure, h⟩ => by simp [ran] at h
    rw [statusOf_done] at h
    split at h
    · omega
    · split at h <;> omega

/-- A finished run is a success if its report can be written and its archive is within the limits that
are checked. -/
theorem Measured.finished (h : a.Measured answer state es (a.measures.run answer state).1) (within : Bool) :
    a.statusOf (a.measures.run answer state).1 = (if within then 0 else 20) ↔
      ∃ report, a.Runs answer state (.ok report, .done) ∧ (a.json → report.isText) ∧
        if within then a.checkLimits → ∃ found, a.Finds answer state found ∧ found.Keeps a.limits
        else a.checkLimits ∧ ∃ found, a.Finds answer state found ∧ ¬ found.Keeps a.limits := by
  have apart (e : RunError) (hc : 1 ≤ e.exitCode ∧ e.exitCode < 20) :
      a.statusOf (.error e) ≠ if within then 0 else 20 := by
    change e.exitCode ≠ _
    split <;> omega
  unfold Finds
  generalize (a.measures.run answer state).1 = found at h ⊢
  cases h with
  | rejected e code before =>
    simp only [List.mem_cons, List.not_mem_nil, or_false] at code
    exact iff_of_false (apart e (by omega)) fun ⟨report, ran, _⟩ => before _ ran
  | failed failure ran =>
    have code : (RunError.pipeline failure).exitCode = failure.stage.exitCode := rfl
    obtain ⟨low, high⟩ := failure.stage.exitCode_range
    exact iff_of_false (apart _ (by omega)) fun ⟨report, h, _⟩ => by simp [ran] at h
  | unread report e code asked ran =>
    refine iff_of_false (apart e (by omega)) ?_
    rintro ⟨report', -, -, h⟩
    cases within with
    | true =>
      obtain ⟨found, ⟨_, hf⟩, -⟩ := h asked
      cases hf
    | false =>
      obtain ⟨-, found, ⟨_, hf⟩, -⟩ := h
      cases hf
  | done report checked asked ran measure =>
    have only (P : Report → Prop) :
        (∃ report', a.Runs answer state (.ok report', .done) ∧ P report') ↔ P report := by
      simp [ran]
    rw [only, statusOf_done]
    cases checked with
    | none =>
      have unasked : a.checkLimits = false := asked.symm
      cases within <;> cases a.json <;> cases report.isText <;> simp [unasked]
    | some limits =>
      have asked : a.checkLimits = true := asked.symm
      have keeps := (measure limits rfl).isWithin
      cases hw : limits.isWithin <;> rw [hw] at keeps <;>
        cases within <;> cases a.json <;> cases report.isText <;> simp_all

/-- The exit status is 0 for a run that is done with an archive within the limits, if they are checked;
it is 20 if the archive exceeds them, and that of the stage if the run has failed in one. Where nothing
else depends on printing, what only affects reporting does not change it. The exception to all this
is a report asked for as JSON: with a path in it that is no text, a run that is done ends with 1. -/
theorem exit_status (a : Args) (answer : Answers σ) (state : σ) :
    (a.execute.Ends answer state fun r es _ => AllHeard answer es →
      (exitStatus r = 0 ↔ ∃ report, a.Runs answer state (.ok report, .done) ∧
        (a.json → report.isText) ∧
        (a.checkLimits → ∃ found, a.Finds answer state found ∧ found.Keeps a.limits)) ∧
      (exitStatus r = 20 ↔ ∃ report, a.Runs answer state (.ok report, .done) ∧
        (a.json → report.isText) ∧
        a.checkLimits ∧ ∃ found, a.Finds answer state found ∧ ¬ found.Keeps a.limits) ∧
      ∀ stage, exitStatus r = stage.exitCode ↔
        ∃ failure, a.Runs answer state (.error failure, .failed stage)) ∧
    (∀ found, a.Finds answer state found → ∃ report, a.Runs answer state (.ok report, .done) ∧
      a.measures.Ends answer state fun _ es _ =>
        Archive.Weighed answer es report.archive.path a.limits found) ∧
    (Deaf answer → ∀ json verbose quiet,
      json = a.json ∨ (∀ report, a.Runs answer state (.ok report, .done) → report.isText) →
      exitStatus (({ a with json, verbose, quiet } : Args).execute.run answer state).1 =
        exitStatus (a.execute.run answer state).1) := by
  have measured := a.measures_measured answer state
  refine ⟨Ends.mono a.exitStatus_eq fun r es _ status heard => ?_, ?_, ?_⟩
  · rw [status heard]
    exact ⟨by simpa using measured.finished true, by simpa using measured.finished false,
      measured.stage⟩
  · rintro found ⟨report, hf⟩
    change a.Measured answer state (a.measures.trace answer state) _ at measured
    rw [hf] at measured
    cases measured with
    | done _ _ asked ran measure => exact ⟨report, (ran _).mpr rfl, measure found rfl⟩
  · intro deaf json verbose quiet text
    have status (b : Args) : exitStatus (b.execute.run answer state).1 =
        b.statusOf (b.measures.run answer state).1 := b.exitStatus_eq (allHeard_of_deaf deaf _)
    rw [status, status, measures_alike deaf]
    change a.Measured answer state (a.measures.trace answer state) _ at measured
    generalize (a.measures.run answer state).1 = found at measured ⊢
    cases measured with
    | rejected | failed | unread => rfl
    | done report checked asked ran measure =>
      rw [statusOf_done, statusOf_done]
      rcases text with rfl | text
      · rfl
      · simp [text report ((ran _).mpr rfl)]

/-! A host on which all goes well, and an output whose name is no text. -/

/-- Some directories are there, two files of the project and the output are not, and all else is a
file. -/
def plainStat (p : Path) : Except SystemError Stat :=
  if p ∈ ["/src", "/work", "/work/dist", "/work/target"].map Path.ofString then
    .ok ⟨.dir, 0o755, 0⟩
  else if p ∈ [.ofString "/src/pyproject.toml", .ofString "/src/setup.cfg", ⟨[0x2F, 0xFF]⟩] then
    .error .noEntry
  else .ok ⟨.file, 0o755, 0⟩

/-- Every command succeeds, and every file is empty. -/
def plainReply : (q : Request) → q.Reply
  | .stat _ p => plainStat p
  | .list _ => .ok [Bytes.ofString "small-1-py3-none-any.whl"]
  | .snapshot _ => .ok (.dir [(Bytes.ofString "small.py", .file 0 0o644 .empty)])
  | .openRead _ => .ok (.data .empty)
  | .read .. => .ok 0
  | .mkdir _ | .unlink _ | .removeTree _ | .rename .. | .append .. | .sync _ | .lock _ => .ok ()
  | .openWrite .. => .ok ⟨[], 0⟩
  | .unlock _ => ()
  | .workingDirectory => .ok (.ofString "/")
  | .variable _ => none
  | .clock => 0
  | .freshName => "fresh"
  | .run _ none => .ok ⟨.code 0, .empty, .empty⟩
  | .run _ (some _) => some (.ok ⟨.code 0, .empty, .empty⟩)
  | .collaborate _ none => .error (.other "nobody is there")
  | .collaborate _ (some _) => none
  | .log .. => ()
  | .print .. => .ok ()

def plainHost : Answers Unit := fun q s => (plainReply q, s)

def untexted : Args where
  source := .ofString "/src"
  projectName := some "small"
  workspace := some (.ofString "/work")
  output := some ⟨[0x2F, 0xFF]⟩
  python := some (.ofString "/python")

theorem plainHost_deaf : Deaf plainHost := fun _ _ _ => rfl

set_option maxRecDepth 100000 in
theorem untexted_status : exitStatus (untexted.execute.run plainHost ()).1 = 0 := by
  decide +kernel

set_option maxRecDepth 100000 in
/-- The run whose report is not asked for as JSON ends with 0 and so is done, and stays so with
`--verbose`; the same run with `--json` ends with 1. -/
theorem unwritten_report : Deaf plainHost ∧
    (∃ report, untexted.Runs plainHost () (.ok report, .done)) ∧
    exitStatus (({ untexted with verbose := true } : Args).execute.run plainHost ()).1 = 0 ∧
    exitStatus (({ untexted with json := true } : Args).execute.run plainHost ()).1 = 1 := by
  obtain ⟨codes, -, silent⟩ := untexted.exit_status plainHost ()
  obtain ⟨success, -, -⟩ := codes (allHeard_of_deaf plainHost_deaf _)
  obtain ⟨report, ran, -, -⟩ := success.mp untexted_status
  refine ⟨plainHost_deaf, ⟨report, ran⟩, ?_, by decide +kernel⟩
  rw [← untexted_status]
  exact silent plainHost_deaf false true false (.inl rfl)

end Args

end LayerPack
