import LayerPack.Proofs.Pipeline.Calls
import LayerPack.Proofs.Pipeline.Steps

/-! The order of a run. Its marks are the beginning of the course that the settings plan: each stage
begins, makes its calls and passes before the next one begins. A run that succeeds goes through the
whole course; one that fails stops in the stage it names. Nothing is assumed of the host, so this
holds for every collaborator, every disk and every run after the first. -/
namespace LayerPack

open Program

variable {α σ : Type} {answer : Answers σ} {host : σ}

namespace Pipeline

open Request Work.Calls

/-- The calls of a stage. The wheel is the one that was built, and `installed` tells what the
environment answered. -/
def callsOf (s : Settings) (wheel : Wheel) (installed : Bool) : Stage → List Call
  | .clean | .archive => []
  | .build => [.build s.source s.dist]
  | .materialize =>
    [.installInto wheel.path ((Workspace.mk s.workspace).installDir s.layerPrefix)]
  | .reconcile =>
    .isInstalled s.project :: (if installed then [.uninstall s.project] else []) ++
      [.install wheel.path]

/-- A stage as it is seen when it succeeds. -/
def passage (s : Settings) (wheel : Wheel) (installed : Bool) (stage : Stage) : List Mark :=
  .began stage :: (callsOf s wheel installed stage).map .called ++ [.passed stage]

/-- A successful run as it is seen. -/
def course (s : Settings) (wheel : Wheel) (installed : Bool) : List Mark :=
  (planned s).flatMap (passage s wheel installed)

theorem planned_eq (s : Settings) :
    planned s =
      [.clean, .build, .materialize, .archive] ++ if s.reconcile then [.reconcile] else [] := by
  cases h : s.reconcile <;> simp [planned, Stage.all, h]

/-- A run that stopped in a stage: the stages before it are the completed ones, and it made some of
its calls. -/
structure Halted (s : Settings) (wheel : Wheel) (installed : Bool) (marks : List Mark)
    (completed : List StageRecord) (stage : Stage) : Prop where
  next : ∃ rest, planned s = completed.map (·.stage) ++ stage :: rest
  marks : ∃ calls, calls <+: callsOf s wheel installed stage ∧
    marks = (completed.map (·.stage)).flatMap (passage s wheel installed) ++
      .began stage :: calls.map .called

theorem Halted.along {s : Settings} {wheel : Wheel} {installed : Bool} {marks : List Mark}
    {completed : List StageRecord} {stage : Stage}
    (h : Halted s wheel installed marks completed stage) :
    marks <+: course s wheel installed := by
  obtain ⟨⟨rest, hr⟩, calls, hc, rfl⟩ := h
  rw [course, hr, List.flatMap_append, List.flatMap_cons]
  refine List.prefix_append_right_inj _ |>.mpr ?_
  refine List.IsPrefix.trans ?_ (List.prefix_append _ _)
  exact List.cons_prefix_cons.mpr ⟨rfl, (hc.map Mark.called).trans (List.prefix_append _ _)⟩

/-- What came of the question whether a project is installed, asked of a host. -/
def replyOf (answer : Answers σ) (project : String) (deadline : Option Nat) (host : σ) :
    Option (Except Error Bool) :=
  Call.answered (.isInstalled project) deadline
    (answer (.collaborate (.isInstalled project) deadline) host).1

/-- What the requests tell of the question whether a project is installed: an answer to it is
`installed`, and the project is only uninstalled after the answer yes. -/
structure Told (answer : Answers σ) (project : String) (installed : Bool)
    (es : List (Request × σ)) : Prop where
  reply : ∀ deadline h b, (Request.collaborate (.isInstalled project) deadline, h) ∈ es →
    replyOf answer project deadline h = some (.ok b) → b = installed
  uninstall : Mark.called (.uninstall project) ∈ marksOf es →
    ∃ deadline h, (Request.collaborate (.isInstalled project) deadline, h) ∈ es ∧
      replyOf answer project deadline h = some (.ok true)

section Told

variable {project : String} {installed : Bool} {es es' : List (Request × σ)}

/-- Requests that do not speak of the question tell nothing of it. -/
theorem Told.of_not_asked (hi : Mark.called (.isInstalled project) ∉ marksOf es)
    (hu : Mark.called (.uninstall project) ∉ marksOf es) : Told answer project installed es :=
  ⟨fun _ _ _ he _ => (hi (mem_marksOf he rfl)).elim, fun h => (hu h).elim⟩

/-- The question, and what is done after it. -/
theorem Told.of_asked {deadline : Option Nat}
    (hr : ∀ b, replyOf answer project deadline host = some (.ok b) → b = installed)
    (hi : Mark.called (.isInstalled project) ∉ marksOf es)
    (hu : Mark.called (.uninstall project) ∈ marksOf es →
      replyOf answer project deadline host = some (.ok true)) :
    Told answer project installed
      ((.collaborate (.isInstalled project) deadline, host) :: es) where
  reply d h b he hb := by
    rcases List.mem_cons.mp he with he | he
    · cases he
      exact hr b hb
    · exact (hi (mem_marksOf he rfl)).elim
  uninstall hm := by
    have hm : Mark.called (.uninstall project) ∈ marksOf es := by
      simpa [marksOf, Request.mark?] using hm
    exact ⟨deadline, host, List.mem_cons_self, hu hm⟩

/-- Requests whose calls do not go to the environment tell nothing of it. -/
theorem Told.of_marks (h : ∀ call, Mark.called call ∈ marksOf es → call.isEnvironment = false) :
    Told answer project installed es :=
  .of_not_asked (fun hm => by cases h _ hm) (fun hm => by cases h _ hm)

theorem Told.append (h : Told answer project installed es)
    (h' : Told answer project installed es') : Told answer project installed (es ++ es') where
  reply deadline host b he hb := (List.mem_append.mp he).elim
    (fun he => h.reply deadline host b he hb) (fun he => h'.reply deadline host b he hb)
  uninstall hm := by
    rw [marksOf_append] at hm
    rcases List.mem_append.mp hm with hm | hm
    · obtain ⟨deadline, host, he, hb⟩ := h.uninstall hm
      exact ⟨deadline, host, List.mem_append_left _ he, hb⟩
    · obtain ⟨deadline, host, he, hb⟩ := h'.uninstall hm
      exact ⟨deadline, host, List.mem_append_right _ he, hb⟩

end Told

/-- The last stage asks whether the project is installed, and uninstalls it only if it is. -/
theorem refresh_ends (s : Settings) (wheel : Wheel) (deadline : Option Nat) :
    (refreshEnvironment Toolchain.outside s.project wheel deadline).Ends answer host
      fun r es _ => ∃ installed made, made <+: callsOf s wheel installed .reconcile ∧
        marksOf es = made.map .called ∧
        (r.isOk → made = callsOf s wheel installed .reconcile) ∧
        Told answer s.project installed es := by
  refine Work.ends_bind.mpr (Work.ends_mapError.mpr (Toolchain.ends_outside.mpr ?_))
  have unanswered (hr : ∀ b, replyOf answer s.project deadline host ≠ some (.ok b)) :
      Told answer s.project false [(.collaborate (.isInstalled s.project) deadline, host)] :=
    .of_asked (fun b hb => (hr b hb).elim) (by simp [marksOf]) (by simp [marksOf])
  rcases hr : Call.answered (.isInstalled s.project) deadline
    (answer (.collaborate (.isInstalled s.project) deadline) host).1 with _ | e | installed
  · exact ⟨false, [.isInstalled s.project], by simp [callsOf, List.cons_prefix_cons], rfl,
      fun h => by (cases h), unanswered fun b hb => by (cases hr.symm.trans hb)⟩
  · exact ⟨false, [.isInstalled s.project], by simp [callsOf, List.cons_prefix_cons], rfl,
      fun h => by (cases h), unanswered fun b hb => by (cases hr.symm.trans hb)⟩
  · refine ((((removeInstalled_calls s.project installed).bind fun _ =>
      (installWheel_calls s.project wheel).before fun _ =>
        quiet (Work.only_pure installed)).ends answer _ deadline).mono fun r es _ h => ?_)
    obtain ⟨made, hp, hm, hall⟩ := h
    have mem : ∀ {call}, Mark.called call ∈ marksOf es →
        call = .install wheel.path ∨ (installed = true ∧ call = .uninstall s.project) := by
      intro call hc
      rw [hm] at hc
      obtain ⟨call', hc', hcc⟩ := List.mem_map.mp hc
      cases hcc
      have := hp.subset hc'
      cases installed with
      | false => exact .inl (by simpa using this)
      | true => simpa [or_comm] using this
    refine ⟨installed, .isInstalled s.project :: made, ?_, ?_, fun h => ?_, ?_⟩
    · exact List.cons_prefix_cons.mpr ⟨rfl, hp⟩
    · rw [marksOf_append, hm]
      rfl
    · rw [hall h]
      rfl
    · refine .of_asked (fun b hb => ?_) (fun hc => ?_) (fun hc => ?_)
      · cases hr.symm.trans hb
        rfl
      · simpa using mem hc
      · obtain h | ⟨rfl, -⟩ := mem hc
        · cases h
        · exact hr

/-- A stage is seen to begin before its work, and to pass after it if the work succeeds. -/
theorem stage_marks {limit : Option Nat} {stage : Stage} {work : Work α} {p : Progress}
    {W : Except Stop α → List (Request × σ) → Prop}
    {Q : Except Failure α × Progress → List (Request × σ) → σ → Prop}
    (hw : ∀ deadline h, (work deadline).Ends answer h fun r es _ => W r es)
    (ok : ∀ a duration h before es after, W (.ok a) es → marksOf before = [.began stage] →
      marksOf after = [.passed stage] →
      Q (.ok a, { p with
        state := .running stage, completed := p.completed ++ [⟨stage, duration⟩] })
        (before ++ es ++ after) h)
    (error : ∀ stop h before es, W (.error stop) es → marksOf before = [.began stage] →
      Q (.error ⟨stage, timeoutOf stage limit stop, p.completed⟩,
        { p with state := .failed stage }) (before ++ es) h) :
    (Pipeline.stage limit stage work p).Ends answer host Q := by
  have hb : marksOf (opening answer stage host) = [.began stage] := by
    simp [opening]
  refine ends_stage ((hw _ _).mono fun r es h hr => ?_)
  cases r with
  | ok a =>
    intro duration
    exact ok a duration _ _ es _ hr hb (by simp [closing])
  | error stop => exact error stop h _ es hr hb

/-- What a run leaves for an observer: a full course and the state `done`, or a course that was
halted in the stage of the failure. -/
def Conducted (answer : Answers σ) (s : Settings) (r : Except Failure Report) (state : RunState)
    (es : List (Request × σ)) : Prop :=
  ∃ wheel installed, Told answer s.project installed es ∧ match r with
    | .ok report => marksOf es = course s wheel installed ∧
        report.stages.map (·.stage) = planned s ∧ report.wheel = wheel ∧ state = .done
    | .error failure =>
        Halted s wheel installed (marksOf es) failure.completed failure.stage ∧
          state = .failed failure.stage

theorem Conducted.along {s : Settings} {r : Except Failure Report} {state : RunState}
    {es : List (Request × σ)} (h : Conducted answer s r state es) :
    ∃ wheel installed, marksOf es <+: course s wheel installed := by
  obtain ⟨wheel, installed, -, h⟩ := h
  refine ⟨wheel, installed, ?_⟩
  cases r with
  | ok report => exact h.1 ▸ List.prefix_rfl
  | error failure => exact h.1.along

/-- Requests without a mark can come before and after. -/
theorem Conducted.around {s : Settings} {r : Except Failure Report} {state : RunState}
    {es before after : List (Request × σ)} (h : Conducted answer s r state es)
    (hb : ∀ e ∈ before, e.1.mark? = none) (ha : ∀ e ∈ after, e.1.mark? = none) :
    Conducted answer s r state (before ++ (es ++ after)) := by
  have hm : marksOf (before ++ (es ++ after)) = marksOf es := by
    simp [marksOf_eq_nil hb, marksOf_eq_nil ha]
  have told (installed : Bool) {es : List (Request × σ)} (h : ∀ e ∈ es, e.1.mark? = none) :
      Told answer s.project installed es :=
    .of_marks fun call hc => by simp [marksOf_eq_nil h] at hc
  obtain ⟨wheel, installed, ht, h⟩ := h
  refine ⟨wheel, installed, (told _ hb).append (ht.append (told _ ha)), ?_⟩
  rw [hm]
  exact h

section Gone

variable {s : Settings} {wheel : Wheel} {gone : List Stage} {p : Progress}
  {es : List (Request × σ)}

/-- The run has gone through some stages before the last and stands between two stages. -/
structure Gone (s : Settings) (wheel : Wheel) (gone : List Stage) (p : Progress)
    (es : List (Request × σ)) : Prop where
  completed : p.completed.map (·.stage) = gone
  marks : ∀ installed, marksOf es = gone.flatMap (passage s wheel installed)
  outside : ∀ call, Mark.called call ∈ marksOf es → call.isEnvironment = false

theorem callsOf_installed {stage : Stage} (h : stage ≠ .reconcile) (installed : Bool) :
    callsOf s wheel installed stage = callsOf s wheel false stage := by
  cases stage <;> first | rfl | exact (h rfl).elim

theorem outside_of_callsOf {stage : Stage} (h : stage ≠ .reconcile) {call : Call}
    (hc : call ∈ callsOf s wheel false stage) : call.isEnvironment = false := by
  cases stage with
  | reconcile => exact (h rfl).elim
  | clean | archive => cases hc
  | build | materialize =>
    obtain rfl := List.mem_singleton.mp hc
    rfl

/-- A stage before the last takes the run one stage on, or halts it. -/
theorem Gone.stage {f : α → Steps Report} {limit : Option Nat} {stage : Stage} {work : Work α}
    {rest : List Stage} (hg : Gone s wheel gone p es) (hs : stage ≠ .reconcile)
    (hr : planned s = gone ++ stage :: rest) (hw : work.Calls (callsOf s wheel false stage))
    {P : α → Prop} (hy : work.Yields P)
    (next : ∀ a p' es' h, P a → Gone s wheel (gone ++ [stage]) p' (es ++ es') →
      (f a p').Ends answer h fun r es'' _ => Conducted answer s r.1 r.2.state (es ++ es' ++ es'')) :
    ((Pipeline.stage limit stage work >>= f) p).Ends answer host fun r es' _ =>
      Conducted answer s r.1 r.2.state (es ++ es') := by
  refine Steps.ends_bind.mpr (stage_marks (W := fun r es => (∃ made,
      made <+: callsOf s wheel false stage ∧ marksOf es = made.map .called ∧
        (r.isOk → made = callsOf s wheel false stage)) ∧ ∀ a, r = .ok a → P a)
    (fun d h => ⟨hw.ends answer h d, (hy d).run answer h⟩) ?_ ?_)
  · rintro a duration h before es' after ⟨⟨made, -, hm, hall⟩, hy⟩ hb ha
    obtain rfl := hall rfl
    simp only [← List.append_assoc]
    refine (next a _ (before ++ es' ++ after) h (hy a rfl) ⟨?_, fun installed => ?_, fun call hc => ?_⟩).mono
      fun r es'' _ hc => by simpa only [List.append_assoc] using hc
    · simp [hg.completed]
    · simp [hg.marks installed, hb, hm, ha, passage, callsOf_installed hs installed]
    · simp only [marksOf_append, hb, hm, ha, List.mem_append, List.mem_map, List.mem_singleton] at hc
      rcases hc with hc | (hc | ⟨c, hc, he⟩) | hc
      · exact hg.outside call hc
      · cases hc
      · cases he
        exact outside_of_callsOf hs hc
      · cases hc
  · rintro stop h before es' ⟨⟨made, hp, hm, -⟩, -⟩ hb
    refine ⟨wheel, false, .of_marks fun call hc => ?_, ⟨⟨rest, ?_⟩, made, hp, ?_⟩, rfl⟩
    · simp only [marksOf_append, hb, hm, List.mem_append, List.mem_map, List.mem_singleton] at hc
      rcases hc with hc | hc | ⟨c, hc, he⟩
      · exact hg.outside call hc
      · cases hc
      · cases he
        exact outside_of_callsOf hs (hp.subset hc)
    · rw [hg.completed, hr]
    · simp [hg.marks false, hg.completed, hb, hm]

/-- The first two stages do not depend on the wheel. -/
theorem Gone.of_wheel (hg : Gone s wheel gone p es) (h : gone <+: [.clean, .build])
    (wheel' : Wheel) : Gone s wheel' gone p es where
  completed := hg.completed
  marks installed := by
    rw [hg.marks installed, List.flatMap_def, List.flatMap_def]
    refine congrArg List.flatten (List.map_congr_left fun stage hs => ?_)
    have := h.subset hs
    simp only [List.mem_cons, List.not_mem_nil, or_false] at this
    rcases this with rfl | rfl <;> rfl
  outside := hg.outside

/-- The last stage, or its omission, completes the course. -/
theorem Gone.last {startedAt : Nat} {workspace : Workspace} {archive : Archive.Summary}
    {treeDigest : String} (hg : Gone s wheel [.clean, .build, .materialize, .archive] p es) :
    (finish s Toolchain.outside startedAt workspace wheel treeDigest archive p).Ends answer host
      fun r es' _ => Conducted answer s r.1 r.2.state (es ++ es') := by
  have told (installed : Bool) : Told answer s.project installed es := .of_marks hg.outside
  have of_began {installed : Bool} {es : List (Request × σ)}
      (h : marksOf es = [.began .reconcile]) : Told answer s.project installed es :=
    .of_marks fun call hc => by simp [h] at hc
  have of_passed {installed : Bool} {es : List (Request × σ)}
      (h : marksOf es = [.passed .reconcile]) : Told answer s.project installed es :=
    .of_marks fun call hc => by simp [h] at hc
  refine Steps.ends_bind.mpr ?_
  unfold reconcile
  cases hr : s.reconcile with
  | false =>
    have hplan : planned s = [.clean, .build, .materialize, .archive] := by
      simp [planned_eq, hr]
    have quiet : (Request.log .info
        "Skipping reconcile; the active environment is left unchanged").mark? = none :=
      Request.mark?_info (by simp)
    have skipped : marksOf (es ++ [(Request.log .info
        "Skipping reconcile; the active environment is left unchanged", host)]) = marksOf es := by
      simp [quiet]
    refine ⟨wheel, false, .of_marks fun call hc => hg.outside call (skipped ▸ hc), ?_, ?_, rfl, rfl⟩
    · rw [course, hplan, ← hg.marks false, ← skipped]
      rfl
    · rw [hplan, ← hg.completed]
  | true =>
    have hplan : planned s = [.clean, .build, .materialize, .archive] ++ [.reconcile] := by
      simp [planned_eq, hr]
    refine Steps.ends_bind.mpr
      (stage_marks (fun d h => refresh_ends s wheel d) ?_ ?_)
    · rintro a duration h before es' after ⟨installed, made, -, hm, hall, ht⟩ hb ha
      obtain rfl := hall rfl
      refine ⟨wheel, installed, ?_, ?_, ?_, rfl, rfl⟩
      · change Told answer s.project installed (es ++ (before ++ es' ++ after ++ [] ++ []))
        simp only [List.append_nil]
        exact (told installed).append (((of_began hb).append ht).append (of_passed ha))
      · change marksOf (es ++ (before ++ es' ++ after ++ [] ++ [])) = course s wheel installed
        simp [course, hplan, passage, hg.marks installed, hb, hm, ha]
      · simp [hplan, ← hg.completed]
    · rintro stop h before es' ⟨installed, made, hp, hm, -, ht⟩ hb
      refine ⟨wheel, installed, ?_, ⟨⟨[], ?_⟩, made, hp, ?_⟩, rfl⟩
      · exact (told installed).append ((of_began hb).append ht)
      · rw [hg.completed, hplan]
      · simp [hg.marks installed, hg.completed, hb, hm]

end Gone

theorem stages_conducted (s : Settings) (startedAt : Nat) (previous : RunState) :
    (stages s Toolchain.outside startedAt { state := previous }).Ends answer host
      fun r es _ => Conducted answer s r.1 r.2.state es := by
  have start : Gone s ⟨⟨[]⟩, ""⟩ [] { state := previous } ([] : List (Request × σ)) :=
    ⟨rfl, fun _ => rfl, fun _ h => by cases h⟩
  refine start.stage (by simp) (planned_eq s) (clean_calls s) (clean_yields s) ?_
  rintro _ p es h rfl cleaned
  have cleaned : Gone s ⟨⟨[]⟩, ""⟩ [.clean] { p with workspace := some ⟨s.workspace⟩ } ([] ++ es) :=
    ⟨cleaned.completed, cleaned.marks, cleaned.outside⟩
  refine cleaned.stage (by simp) (planned_eq s) (buildWheel_calls s) (Work.yields_true _) ?_
  intro wheel p es h _ built
  have built := built.of_wheel (List.prefix_refl _) wheel
  refine built.stage (by simp) (planned_eq s) (install_calls s _ wheel) (Work.yields_true _) ?_
  intro treeDigest p es h _ installed
  refine installed.stage (by simp) (planned_eq s) (archive_calls _ _) (Work.yields_true _) ?_
  intro archive p es h _ archived
  exact archived.last

/-- What comes after the stages is not marked. -/
theorem cleanUp_only (s : Settings) (workspace : Option Workspace) :
    (cleanUp s workspace).Only fun q => q.mark? = none := by
  cases workspace with
  | none => trivial
  | some workspace =>
    simp only [cleanUp]
    split
    · exact only_request.mpr (mark?_info (by simp))
    · refine ((Workspace.only_cleanup workspace).mono fun q h => h.mark?).bind fun r => ?_
      cases r with
      | ok => trivial
      | error e => exact only_request.mpr rfl

theorem logOutcome_only (result : Except Failure Report) :
    (logOutcome result).Only fun q => q.mark? = none := by
  cases result with
  | ok report => exact only_request.mpr (mark?_info (by simp))
  | error failure => exact only_request.mpr rfl

/-- Each run goes through the planned stages in their order, or through the first of them and stops
in the next one. The calls are those of the course as far as it was gone, the wheel that is
installed is the same in both places, and the environment is asked before it is changed. -/
theorem run_follows_course (answer : Answers σ) (host : σ) (s : Settings) (previous : RunState) :
    (planned s =
      [.clean, .build, .materialize, .archive] ++ if s.reconcile then [.reconcile] else []) ∧
    (run s Toolchain.outside previous).Ends answer host fun r es _ =>
      Conducted answer s r.1 r.2 es ∧
        ∃ wheel installed, marksOf es <+: course s wheel installed := by
  refine ⟨planned_eq s, ends_run ((stages_conducted s _ previous).mono fun r es h₁ conducted => ?_)⟩
  refine (cleanUp_only s r.2.workspace).ends.mono fun _ es₁ h₂ cleaned => ?_
  refine (logOutcome_only r.1).ends.mono fun _ es₂ h₃ logged => ?_
  have around : Conducted answer s r.1 r.2.state ([(.clock, host)] ++ (es ++ (es₁ ++ es₂))) := by
    refine conducted.around (by simp) fun e he => ?_
    exact (List.mem_append.mp he).elim (cleaned e) (logged e)
  exact ⟨around, around.along⟩

end Pipeline

end LayerPack
