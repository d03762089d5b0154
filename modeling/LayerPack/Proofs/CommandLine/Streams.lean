import LayerPack.Proofs.CommandLine.Status
import LayerPack.Proofs.Text.Json

/-! What the program prints, and on which stream. A quiet terminal is told nothing, so a session whose report
is asked for as JSON prints its document or nothing. Errors go to the standard error, after the session. -/
namespace LayerPack

open Session
open Program hiding bind

/-- The text that a request prints on a stream. -/
def Request.text? (stream : Stream) : Request → Option String
  | .print other text => if other = stream then some text else none
  | _ => none

/-- The text that a stream takes from a request with this answer. What it refuses it refuses as a whole. -/
def Request.taken? (stream : Stream) : (q : Request) → q.Reply → Option String
  | .print other text, .ok () => (print other text).text? stream
  | _, _ => none

section

variable {σ : Type} {answer : Answers σ} {stream : Stream} {es es' : List (Request × σ)}

/-- The texts that a run prints on a stream, whether it takes them or not. -/
def offered (stream : Stream) (es : List (Request × σ)) : List String :=
  es.filterMap (·.1.text? stream)

/-- What a stream has taken of a run. -/
def written (answer : Answers σ) (stream : Stream) (es : List (Request × σ)) : String :=
  String.join (es.filterMap fun asked => asked.1.taken? stream (answer asked.1 asked.2).1)

@[simp] theorem offered_nil : offered stream ([] : List (Request × σ)) = [] := rfl

@[simp] theorem offered_append : offered stream (es ++ es') = offered stream es ++ offered stream es' :=
  List.filterMap_append

theorem written_append :
    written answer stream (es ++ es') = written answer stream es ++ written answer stream es' := by
  simp [written, List.filterMap_append]

theorem Request.taken?_of_text? {q : Request} {r : q.Reply} (h : q.text? stream = none) :
    q.taken? stream r = none := by
  cases q with
  | print other text =>
    cases r with
    | ok => exact h
    | error => rfl
  | _ => rfl

/-- A stream takes nothing but what is printed on it. -/
theorem written_of_offered (h : offered stream es = []) : written answer stream es = "" := by
  have nothing : es.filterMap (fun asked => asked.1.taken? stream (answer asked.1 asked.2).1) = [] :=
    List.filterMap_eq_nil_iff.mpr fun asked hm =>
      Request.taken?_of_text? (List.filterMap_eq_nil_iff.mp h asked hm)
  rw [written, nothing]
  rfl

theorem written_print (text : String) (s : σ) : written answer stream [(.print stream text, s)] =
    if (answer (.print stream text) s).1 = .ok () then text else "" := by
  unfold written
  rw [List.filterMap_cons]
  rcases (answer (.print stream text) s).1 with e | _ <;> simp [Request.taken?, Request.text?]

end

/-! ### What is kept from the streams -/

/-- A request that leaves the streams alone. The standard output may be used unless it is to be quiet. -/
def Request.Muted (quiet : Bool) : Request → Prop
  | .print .out _ => quiet = false
  | .print .err _ => False
  | _ => True

section

variable {σ : Type} {es : List (Request × σ)} {quiet : Bool} {q : Request}

namespace Request

theorem Muted.mono {quiet' : Bool} (h : q.Muted quiet) (louder : quiet' → quiet) : q.Muted quiet' := by
  cases q with
  | print stream text =>
    cases stream with
    | out => exact Bool.eq_false_iff.mpr fun hq => Bool.eq_false_iff.mp h (louder hq)
    | err => exact h
  | _ => trivial

theorem Quiet.muted (h : q.Quiet) : q.Muted quiet := by
  cases q with
  | print => exact h.elim
  | _ => trivial

theorem Removes.muted {p : Path} (h : q.Removes p) : q.Muted quiet := by
  rcases h with h | rfl | rfl
  · exact h.muted
  · trivial
  · trivial

theorem Archives.muted {output : Path} {fresh : String} (h : q.Archives output fresh) :
    q.Muted quiet := by
  rcases h with h | ⟨handle, bytes, rfl⟩ | rfl | rfl | rfl
  · exact h.muted
  all_goals trivial

end Request

theorem offered_muted {stream : Stream} (h : ∀ asked ∈ es, asked.1.Muted quiet)
    (closed : stream = .err ∨ quiet) : offered stream es = [] := by
  refine List.filterMap_eq_nil_iff.mpr fun asked hm => ?_
  have muted := h asked hm
  generalize asked.1 = q at muted ⊢
  cases q with
  | print other text =>
    refine if_neg ?_
    rintro rfl
    rcases closed with rfl | rfl
    · exact muted
    · cases other <;> cases muted
  | _ => rfl

end

theorem Archive.only_check {K : Request → Prop} (hQ : ∀ q, q.Quiet → K q)
    (hL : ∀ level text, K (.log level text)) (archive : Path) (limits : Limits) :
    (check archive limits).Only K := by
  have logged (violations : List String) : (logViolations archive violations).Only K := by
    induction violations with
    | nil => trivial
    | cons violation rest ih => exact (only_request.mpr (hL _ _)).bind fun _ => ih
  refine ((Files.only_openRead archive).mono hQ).bind fun r => ?_
  cases r with
  | error e => trivial
  | ok file =>
    refine ((Files.only_readAll _ file).mono hQ).bind fun r => ?_
    cases r with
    | error e => trivial
    | ok content =>
      dsimp only
      split
      · trivial
      · exact (logged _).bind fun _ => trivial

theorem Terminal.openWith_quiet (verbose quiet : Bool) :
    (openWith verbose quiet).Returns fun t => t.quiet = quiet := fun _ _ => rfl

namespace Args

variable (a : Args) (t : Terminal)

theorem Ready.only_perform (ready : Ready) (quiet : Bool) : ready.perform.run.Only (Request.Muted quiet) := by
  have ran : (Pipeline.run ready.settings (Pip.ofSettings ready.settings ready.python).toolchain).Only
      (Request.Muted quiet) :=
    Pipeline.only_run ready.settings _ (fun _ h => h.muted) (fun _ _ => trivial) (fun _ => trivial)
      (fun _ h => h.muted) trivial (fun _ _ h => h.muted)
      (Pip.only_perform _ (fun _ _ => trivial) fun _ _ => trivial)
  exact Only.bind ran fun r => Only.bind (only_request.mpr trivial) fun _ => trivial

/-- Up to its report a session leaves the streams alone, apart from what is told the reader. -/
theorem only_measured : (a.measured t).run.Only (Request.Muted t.quiet) := by
  have quiet (q : Request) (h : q.Quiet) : q.Muted t.quiet := h.muted
  have told (loud : t.quiet = false) (text : String) : (Request.print .out text).Muted t.quiet := loud
  have preparing := only_prepare quiet a t (fun _ _ => trivial) (fun _ _ => trivial) told
  refine only_bind (only_bind preparing fun found => ?_) fun ready => ?_
  · refine only_bind (only_enter t told (fun _ => trivial) found.1 ?_) fun _ => trivial
    exact RunLock.only_acquire quiet (fun _ => trivial) (fun _ => trivial) (fun _ => trivial)
      (fun _ _ => trivial) _
  refine only_bind (ready.only_perform t.quiet) fun report => only_bind ?_ fun checked => trivial
  unfold checkLimitsOf
  split
  · refine only_bind (only_printing (t.only_unlessQuiet told _ _ _)) fun _ => ?_
    exact only_bind (only_bundling (Archive.only_check quiet (fun _ _ => trivial) _ _)) fun _ => trivial
  · trivial

theorem only_measures : a.measures.Only (Request.Muted a.isQuiet) := by
  have opening : (Terminal.openWith a.isVerbose a.isQuiet).Only (Request.Muted a.isQuiet) :=
    (Terminal.only_openWith _ _).mono fun _ h => h.muted
  exact opening.bind_returns (Terminal.openWith_quiet _ _) fun t ht => ht ▸ only_measured a t

theorem only_printReport (plain : a.json = false) (report : Report) (checked : Option Archive.LimitReport) :
    (a.printReport t report checked).run.Only (Request.Muted t.quiet) := by
  have told (loud : t.quiet = false) (text : String) : (Request.print .out text).Muted t.quiet := loud
  have printed (lines : List Report.Line) :
      (Report.printLines t lines).Only (Request.Muted t.quiet) := by
    induction lines with
    | nil => trivial
    | cons line rest ih =>
      refine Only.bind ?_ fun r => ?_
      · cases line with
        | detail text => exact t.only_detail told text
        | success | indented | warning => exact t.only_unlessQuiet told _ _ _
      · cases r with
        | error e => trivial
        | ok => exact ih
  rw [printReport, plain]
  exact only_printing (printed _)

variable {σ : Type} {answer : Answers σ} {state : σ}

/-- A report as JSON is printed in one piece, if it has that form. -/
theorem printReport_json (asked : a.json) (report : Report) (checked : Option Archive.LimitReport) :
    (a.printReport t report checked).run.Ends answer state fun r es _ =>
      (∃ reason, report.toJson checked = .error reason ∧ r = .error (.json reason) ∧ es = []) ∨
      ∃ document, report.toJson checked = .ok document ∧
        es = [(.print .out (document.render ++ "\n"), state)] ∧
        r = (answer (.print .out (document.render ++ "\n")) state).1.mapError .system := by
  rw [printReport, if_pos asked]
  cases h : report.toJson checked with
  | error reason => exact .inl ⟨reason, rfl, rfl, rfl⟩
  | ok document => exact Session.ends_printing.mpr (.inr ⟨document, rfl, rfl, rfl⟩)

/-- A session comes to a report, and this is the document of the report. -/
def Documents (a : Args) (answer : Answers σ) (state : σ) (document : Json) : Prop :=
  ∃ report checked, (a.measures.run answer state).1 = .ok (report, checked) ∧
    report.toJson checked = .ok document

/-- A session whose report is asked for as JSON prints the document of the report, if there is one. Where
it prints nothing it fails. -/
theorem execute_json (asked : a.json) : a.execute.Ends answer state fun r es _ =>
    (r ≠ .ok () ∧ (∀ document, ¬ a.Documents answer state document) ∧ offered .out es = []) ∨
    ∃ document, a.Documents answer state document ∧ offered .out es = [document.render ++ "\n"] ∧
      (r ≠ .ok () ∧ written answer .out es = "" ∨ written answer .out es = document.render ++ "\n") := by
  have silent : offered .out (a.measures.trace answer state) = [] :=
    offered_muted (a.only_measures.trace answer state) (.inr (by simp [isQuiet, asked]))
  refine a.execute_reports.mono fun r es _ ⟨after, hes, reported⟩ => ?_
  subst hes
  rw [offered_append, silent, written_append, written_of_offered silent]
  unfold Documents
  cases measured : (a.measures.run answer state).1 with
  | error e =>
    rw [measured] at reported
    obtain ⟨rfl, rfl⟩ := reported
    refine .inl ⟨nofun, ?_, rfl⟩
    rintro document ⟨report, checked, h, -⟩
    cases h
  | ok found =>
    obtain ⟨report, checked⟩ := found
    rw [measured] at reported
    obtain ⟨t, -, printed⟩ := reported
    obtain ⟨said, rfl, rfl⟩ := (a.printReport_json t asked report checked).and printed
    rcases said with ⟨reason, hj, failed, none⟩ | ⟨document, hj, one, said⟩
    · rw [failed, none]
      refine .inl ⟨nofun, ?_, rfl⟩
      rintro document ⟨report', checked', h, hd⟩
      cases h
      cases hj.symm.trans hd
    · rw [one, written_print, said]
      refine .inr ⟨document, ⟨report, checked, rfl, hj⟩, rfl, ?_⟩
      rcases (answer (.print .out (document.render ++ "\n")) (a.measures.run answer state).2).1 with e | _
      · exact .inl ⟨by simp [Except.mapError, Except.bind], by simp⟩
      · exact .inr (by simp)

/-- A session prints nothing on the standard error, and nothing at all if it is quiet without JSON. -/
theorem only_execute : a.execute.Only (Request.Muted (a.quiet && !a.json)) := by
  have opening : (Terminal.openWith a.isVerbose a.isQuiet).Only
      (Request.Muted (a.quiet && !a.json)) := (Terminal.only_openWith _ _).mono fun _ h => h.muted
  rw [execute_eq_measured]
  refine opening.bind_returns (Terminal.openWith_quiet _ _) fun t ht => ?_
  have louder : (a.quiet && !a.json) → t.quiet := by
    rw [ht, isQuiet]
    cases a.quiet <;> simp
  refine only_bind ((only_measured a t).mono fun _ h => h.mono louder) fun found => ?_
  refine only_bind ?_ fun _ => ?_
  · cases asked : a.json with
    | false =>
      rw [asked] at louder
      exact (only_printReport a t asked _ _).mono fun _ h => h.mono louder
    | true =>
      rw [printReport, if_pos asked, Bool.not_true, Bool.and_false]
      split
      · trivial
      · exact only_printing (only_request.mpr rfl)
  · unfold verdict
    repeat' split
    all_goals trivial

theorem only_read (argv : List Bytes) : (read argv).Only Request.Quiet := by
  have asked (options : List Opt) : (askVariables options).Only Request.Quiet := by
    induction options with
    | nil => trivial
    | cons o rest ih =>
      unfold askVariables
      split
      · exact ih
      · exact (only_request.mpr trivial).bind fun _ => ih.bind fun _ => trivial
  exact (asked _).bind fun _ => trivial

end Args

theorem exitStatus_eq_zero {r : Except RunError Unit} (h : exitStatus r = 0) : r = .ok () := by
  cases r with
  | ok => rfl
  | error e =>
    cases e with
    | pipeline failure =>
      have low := failure.stage.exitCode_range.1
      change failure.stage.exitCode = 0 at h
      omega
    | _ => cases h

namespace CommandLine

variable {σ : Type} {answer : Answers σ} {state : σ}

/-- The lines that tell how a session has ended: for a failure its message, and what may help. -/
def closingLines (t : Terminal) : Except RunError Unit → List String
  | .ok () => []
  | .error e => (e.message :: e.suggestions.map ("  hint: " ++ ·)).map (t.line ⟨true, some .red⟩ "✗ ")

theorem error_ends (t : Terminal) (message : String) : (t.error message).Ends answer state fun _ es _ =>
    offered .out es = [] ∧ offered .err es = [t.line ⟨true, some .red⟩ "✗ " message] := ⟨rfl, rfl⟩

theorem printHints_ends (t : Terminal) (hints : List String) :
    (printHints t hints).Ends answer state fun _ es _ => offered .out es = [] ∧
      offered .err es = (hints.map ("  hint: " ++ ·)).map (t.line ⟨true, some .red⟩ "✗ ") := by
  induction hints generalizing state with
  | nil => exact ⟨rfl, rfl⟩
  | cons hint rest ih =>
    refine (error_ends t ("  hint: " ++ hint)).bind ?_
    rintro _ es s ⟨out, err⟩
    exact ih.mono fun _ es' _ ⟨out', err'⟩ => ⟨by simp [out, out'], by simp [err, err']⟩

/-- However it is answered, a failure is told in full, and on the standard error alone. -/
theorem printFailure_ends (e : RunError) : (printFailure e).Ends answer state fun _ es _ =>
    offered .out es = [] ∧ ∃ t, offered .err es = closingLines t (.error e) := by
  have opened : (Terminal.openWith false false).Only (Request.Muted true) :=
    (Terminal.only_openWith _ _).mono fun _ h => h.muted
  refine Ends.bind opened.ends fun t es s muted => ?_
  have out : offered .out es = [] := offered_muted muted (.inr rfl)
  have err : offered .err es = [] := offered_muted muted (.inr rfl)
  refine (error_ends t e.message).bind fun _ es₁ s₁ ⟨out₁, err₁⟩ => ?_
  refine (printHints_ends t e.suggestions).mono fun _ es₂ _ ⟨out₂, err₂⟩ => ?_
  exact ⟨by simp [out, out₁, out₂], t, by simp [err, err₁, err₂, closingLines]⟩

/-- What the program does with arguments that have been read. -/
def carryOut (a : Args) : Program Nat := do
  match ← a.execute with
  | .ok () => return 0
  | .error e =>
    printFailure e
    return e.exitCode

theorem main_eq (argv : List Bytes) : main argv = Args.read argv >>= fun
    | .error u => do
      printUsage u
      return u.exitCode
    | .ok a => carryOut a := rfl

theorem carryOut_ends (a : Args) : (carryOut a).Ends answer state fun code es _ =>
    code = exitStatus (a.execute.run answer state).1 ∧
    ∃ after, es = a.execute.trace answer state ++ after ∧ offered .out after = [] ∧
      ∃ t, offered .err after = closingLines t (a.execute.run answer state).1 := by
  refine Ends.bind (M := fun r es _ => r = _ ∧ es = _) ⟨rfl, rfl⟩ ?_
  rintro r es s ⟨hr, rfl⟩
  rw [← hr]
  cases r with
  | ok => exact ⟨rfl, [], by simp [pure_eq_done, trace], rfl, ⟨false, false, false⟩, rfl⟩
  | error e =>
    refine (printFailure_ends e).bind ?_
    rintro _ es' s' ⟨out, t, err⟩
    exact ⟨rfl, es', by simp [pure_eq_done, trace], out, t, err⟩

/-- With `--json` nothing is ever printed on the standard output but the line of one document, that of the
report, and this is printed if there is one. The program ends with 0 only if the line is there. With `--quiet`
alone nothing is printed on the standard output. What a session fails with goes to the standard error and
nowhere else, with all its hints and whatever can be printed before. It is the same if the arguments are read
from a command line. -/
theorem json_owns_output (a : Args) (answer : Answers σ) (state : σ) :
    ((carryOut a).Ends answer state fun code es _ =>
      code = exitStatus (a.execute.run answer state).1 ∧
      (a.json →
        (code ≠ 0 ∧ (∀ document, ¬ a.Documents answer state document) ∧
          offered .out es = [] ∧ written answer .out es = "") ∨
        ∃ document, a.Documents answer state document ∧ document.Spells document.render.toList ∧
          offered .out es = [document.render ++ "\n"] ∧
          (code ≠ 0 ∧ written answer .out es = "" ∨
            written answer .out es = document.render ++ "\n")) ∧
      (a.quiet → ¬ a.json → offered .out es = [] ∧ written answer .out es = "") ∧
      offered .out es = offered .out (a.execute.trace answer state) ∧
      ∃ t, offered .err es = closingLines t (a.execute.run answer state).1) ∧
    ∀ argv start, (Args.read argv).run answer start = (.ok a, state) →
      (main argv).Ends answer start fun code es _ => code = ((carryOut a).run answer state).1 ∧
        ∀ stream, offered stream es = offered stream ((carryOut a).trace answer state) ∧
          written answer stream es = written answer stream ((carryOut a).trace answer state) := by
  refine ⟨(carryOut_ends a).mono ?_, fun argv start read => ?_⟩
  · rintro code _ _ ⟨hcode, after, rfl, out, t, err⟩
    have muted := a.only_execute.trace answer state
    have quiet : a.quiet → ¬ a.json → offered .out (a.execute.trace answer state) = [] :=
      fun hq hj => offered_muted muted (.inr (by simp [hq, hj]))
    rw [offered_append, out, List.append_nil, written_append, written_of_offered out,
      String.append_empty, offered_append, offered_muted muted (.inl rfl), List.nil_append]
    refine ⟨hcode, fun asked => ?_, fun hq hj => ?_, rfl, t, err⟩
    · have failed (h : (a.execute.run answer state).1 ≠ .ok ()) : code ≠ 0 :=
        fun zero => h (exitStatus_eq_zero (hcode.symm.trans zero))
      rcases (a.execute_json asked : a.execute.Ends answer state _) with
        ⟨hr, missing, nothing⟩ | ⟨document, documents, one, all⟩
      · exact .inl ⟨failed hr, missing, nothing, written_of_offered nothing⟩
      · exact .inr ⟨document, documents, document.spells_render, one, all.imp_left (And.imp_left failed)⟩
    · exact ⟨quiet hq hj, written_of_offered (quiet hq hj)⟩
  · have looked : (Args.read argv).Only (Request.Muted true) :=
      (Args.only_read argv).mono fun _ h => h.muted
    rw [main_eq, bind_eq, Ends, run_bind, trace_bind, read]
    refine ⟨rfl, fun stream => ?_⟩
    have nothing : offered stream ((Args.read argv).trace answer start) = [] :=
      offered_muted (looked.trace answer start) (.inr rfl)
    rw [offered_append, written_append, nothing, written_of_offered nothing]
    exact ⟨List.nil_append _, String.empty_append⟩

/-- A command line that asks for a report as JSON, and for details. -/
def wordy : List Bytes :=
  ["--source", "/src", "--project-name", "small", "--workspace", "/work", "--output", "/out.zip",
    "--python", "/python", "--json", "--verbose"].map Bytes.ofString

def wordyArgs : Args where
  source := .ofString "/src"
  projectName := some "small"
  workspace := some (.ofString "/work")
  output := some (.ofString "/out.zip")
  python := some (.ofString "/python")
  json := true
  verbose := true

set_option maxRecDepth 100000 in
/-- Where all goes well, the standard output has the document in spite of the details, and no error is
told. -/
theorem wordy_prints_document : (Args.read wordy).run Args.plainHost () = (.ok wordyArgs, ()) ∧
    (main wordy).Ends Args.plainHost () fun code es _ => code = 0 ∧ offered .err es = [] ∧
      ∃ document : Json, document.Spells document.render.toList ∧
        written Args.plainHost .out es = document.render ++ "\n" := by
  have read : (Args.read wordy).run Args.plainHost () = (.ok wordyArgs, ()) := by decide +kernel
  have success : (wordyArgs.execute.run Args.plainHost ()).1 = .ok () := by decide +kernel
  obtain ⟨⟨code, json, -, -, t, err⟩, begun⟩ := json_owns_output wordyArgs Args.plainHost ()
  have code : ((carryOut wordyArgs).run Args.plainHost ()).1 = 0 := code.trans (by rw [success]; rfl)
  refine ⟨read, (begun wordy () read).mono fun _ es _ ⟨same, streams⟩ => ?_⟩
  rw [same, (streams .err).1, (streams .out).2, err, success]
  refine ⟨code, rfl, ?_⟩
  rcases json rfl with ⟨failed, -⟩ | ⟨document, -, spells, -, ⟨failed, -⟩ | all⟩
  · exact (failed code).elim
  · exact (failed code).elim
  · exact ⟨document, spells, all⟩

end CommandLine

end LayerPack
