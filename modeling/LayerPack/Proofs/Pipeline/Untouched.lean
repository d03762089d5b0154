import LayerPack.Proofs.Archive.Writing
import LayerPack.Proofs.Disk.Decide
import LayerPack.Proofs.Pipeline.Calls
import LayerPack.Proofs.Pipeline.Steps
import LayerPack.Proofs.Settings.Accepted

/-! The active environment is left alone until the archive is there. No stage before the last asks
about it, so a run that fails before, or that leaves out the last stage, has never touched it; and
as long as nobody takes the archive away, it is where the output leads whenever the environment is
asked. -/
namespace LayerPack

open Program Machine

variable {s : Settings} {o : Outside} {m m' m'' : Machine} {es es' : List (Request × Machine)}
  {p : Path}

def Request.isEnvironment : Request → Bool
  | .collaborate call _ => call.isEnvironment
  | _ => false

theorem Request.not_isEnvironment {q : Request} (h : q.mark? = none) : q.isEnvironment = false := by
  cases q with
  | collaborate => cases h
  | _ => rfl

/-- Where a path leads and what is there; a link at its end is not followed. -/
def Machine.leads (m : Machine) (p : Path) : Except SystemError (Place × Node) :=
  m.disk.resolve m.cwd false p

theorem Machine.Same.leads (h : Same m m') (p : Path) : m'.leads p = m.leads p := by
  rw [Machine.leads, Machine.leads, h.disk, h.cwd]

/-- None of the calls about the environment changed where the path leads or what is there. -/
def Outside.Keeps (o : Outside) (p : Path) (es : List (Request × Machine)) : Prop :=
  ∀ e ∈ es, e.1.isEnvironment = true → (answer o e.1 e.2).2.leads p = e.2.leads p

theorem Outside.Keeps.mono (h : o.Keeps p es') (sub : es ⊆ es') : o.Keeps p es :=
  fun e he => h e (sub he)

/-- A program that does nothing but ask about the environment finds at the path what was there. -/
theorem Machine.keeps_run {α : Type} {program : Program α}
    (hp : program.Only fun q => q.isEnvironment = true ∨ ∀ m, Same m (answer o q m).2) :
    program.Ends (answer o) m fun _ es _ => o.Keeps p es → ∀ e ∈ es, e.2.leads p = m.leads p := by
  refine hp.run_history (H := fun m es _ => o.Keeps p es → ∀ e ∈ es, e.2.leads p = m.leads p)
    (fun _ _ _ h => by cases h) ?_ m
  intro q m es m' hq rest keeps e he
  rcases List.mem_cons.mp he with rfl | he
  · rfl
  have next : (answer o q m).2.leads p = m.leads p := by
    rcases hq with hq | same
    · exact keeps (q, m) List.mem_cons_self hq
    · exact (same m).leads p
  exact (rest (keeps.mono (List.subset_cons_self _ _)) e he).trans next

namespace Pipeline

/-- The archive stage is over. An archive of all files of the tree was moved to the output, and unless
it took the place of a link on its own way, it is found at the output on the machine. -/
structure Finished (s : Settings) (before : List (Request × Machine)) (m : Machine) : Prop where
  passed : Mark.passed .archive ∈ marksOf before
  archived : ∃ start entries hidden moving, (.log .info Stage.archive.announcement, start) ∈ before ∧
    Archive.Complete (⟨s.workspace⟩ : Workspace).target start entries ∧
    (.rename hidden s.output, moving) ∈ before ∧
    (moving.disk.StandsApart moving.cwd s.output → ∃ place id,
      m.leads s.output = .ok (place, .file id Disk.newMode (Zip.encode entries)))

theorem Finished.later (h : Finished s es m) (sub : es ⊆ es')
    (hl : m'.leads s.output = m.leads s.output) : Finished s es' m' := by
  obtain ⟨start, entries, hidden, moving, hs, complete, hm, there⟩ := h.archived
  refine ⟨?_, start, entries, hidden, moving, sub hs, complete, sub hm, ?_⟩
  · obtain ⟨e, he, hmark⟩ := List.mem_filterMap.mp h.passed
    exact List.mem_filterMap.mpr ⟨e, sub he, hmark⟩
  · rwa [hl]

/-- Either the environment was not asked at all, or it was only asked after the archive was there, and
what is left of the run can only fail in the last stage. -/
def Deferred (o : Outside) (s : Settings) (r : Except Failure Report)
    (es : List (Request × Machine)) : Prop :=
  (∀ e ∈ es, e.1.isEnvironment = false) ∨
    s.reconcile = true ∧ (∀ failure, r = .error failure → failure.stage = .reconcile) ∧
      ∃ before later m, es = before ++ later ∧ (∀ e ∈ before, e.1.isEnvironment = false) ∧
        Finished s before m ∧ (o.Keeps s.output later → ∀ e ∈ later, e.1.isEnvironment = true →
          e.2.leads s.output = m.leads s.output)

/-- Requests that do not ask about the environment can come before and after. -/
theorem Deferred.around {r : Except Failure Report} {before after : List (Request × Machine)}
    (h : Deferred o s r es) (hb : ∀ e ∈ before, e.1.isEnvironment = false)
    (ha : ∀ e ∈ after, e.1.isEnvironment = false) : Deferred o s r (before ++ (es ++ after)) := by
  rcases h with h | ⟨hr, hf, front, later, m, rfl, hfront, finished, kept⟩
  · refine .inl fun e he => ?_
    simp only [List.mem_append] at he
    rcases he with he | he | he
    · exact hb e he
    · exact h e he
    · exact ha e he
  refine .inr ⟨hr, hf, before ++ front, later ++ after, m, by simp, ?_, ?_, ?_⟩
  · exact fun e he => (List.mem_append.mp he).elim (hb e) (hfront e)
  · exact finished.later (List.subset_append_right _ _) rfl
  · intro keeps e he henv
    rcases List.mem_append.mp he with he | he
    · exact kept (keeps.mono (List.subset_append_left _ _)) e he henv
    · rw [ha e he] at henv
      cases henv

section Stages

variable {α : Type} {limit : Option Nat} {stage : Stage} {work : Work α} {f : α → Steps Report}
  {progress : Progress} {startedAt : Nat} {workspace : Workspace} {wheel : Wheel}
  {treeDigest : String} {archive : Archive.Summary}

theorem opening_afar (stage : Stage) :
    ∀ e ∈ opening (answer o) stage m, e.1.isEnvironment = false := by
  simp [opening, Request.isEnvironment]

theorem closing_afar (stage : Stage) (duration : Nat) :
    ∀ e ∈ closing (answer o) stage duration m, e.1.isEnvironment = false := by
  simp [closing, Request.isEnvironment]

/-- What a successful stage asks is asked between two looks at the clock. -/
theorem passage_afar {duration : Nat} (h : ∀ e ∈ es, e.1.isEnvironment = false) :
    ∀ e ∈ opening (answer o) stage m ++ es ++ closing (answer o) stage duration m',
      e.1.isEnvironment = false := by
  intro e he
  rcases List.mem_append.mp he with he | he
  · exact (List.mem_append.mp he).elim (opening_afar stage e) (h e)
  · exact closing_afar stage duration e he

theorem stage_deferred {P : α → Prop} (hw : work.Only fun q => q.isEnvironment = false)
    (hy : work.Yields P)
    (next : ∀ a progress' m', P a → (f a progress').Ends (answer o) m' fun r es _ =>
      Deferred o s r.1 es) :
    ((Pipeline.stage limit stage work >>= f) progress).Ends (answer o) m fun r es _ =>
      Deferred o s r.1 es := by
  refine ends_stage_bind (((hw _).ends.and hy.ends).mono ?_)
  rintro (stop | a) es m₁ ⟨afar, yields⟩
  · exact .inl fun e he => (List.mem_append.mp he).elim (opening_afar stage e) (afar e)
  · refine fun duration => (next a _ _ (yields a rfl)).mono fun r es' m₂ deferred => ?_
    have around : Deferred o s r.1 (opening (answer o) stage m ++ es ++
        closing (answer o) stage duration m₁ ++ (es' ++ [])) :=
      deferred.around (passage_afar afar) (by simp)
    rwa [List.append_nil] at around

/-- If the last stage is left out, nothing is asked instead. -/
theorem finish_afar (h : s.reconcile = false) :
    (finish s Toolchain.outside startedAt workspace wheel treeDigest archive progress).Ends (answer o)
      m fun _ es _ => ∀ e ∈ es, e.1.isEnvironment = false := by
  refine Steps.ends_bind.mpr ?_
  unfold reconcile
  rw [h]
  intro e he
  obtain rfl := List.mem_singleton.mp he
  rfl

theorem archive_deferred : ((do
      let archive ← Pipeline.stage limit .archive
        (Archive.write (⟨s.workspace⟩ : Workspace).target s.output)
      finish s Toolchain.outside startedAt ⟨s.workspace⟩ wheel treeDigest archive : Steps Report)
      progress).Ends (answer o) m fun r es _ => Deferred o s r.1 es := by
  have only : (Archive.write (⟨s.workspace⟩ : Workspace).target s.output).Only
      fun q => q.isEnvironment = false :=
    Archive.only_write _ _ (fun _ _ h => Request.not_isEnvironment h.mark?) fun _ _ => rfl
  refine ends_stage_bind ((Archive.write_ends.and (only _).ends).mono ?_)
  rintro (stop | archive) es₁ m₁ ⟨written, afar⟩
  · exact .inl fun e he => (List.mem_append.mp he).elim (opening_afar _ e) (afar e)
  intro duration
  obtain ⟨entries, archived⟩ := written archive rfl
  obtain ⟨hidden, moving, src, id, dir, name, -, hcwd, he, moved⟩ := archived.moved
  have afar : ∀ e ∈ opening (answer o) .archive m ++ es₁ ++ closing (answer o) .archive duration m₁,
      e.1.isEnvironment = false := passage_afar afar
  cases hr : s.reconcile with
  | false =>
    refine (finish_afar hr).mono fun r es₂ m₂ skipped => .inl fun e he => ?_
    exact (List.mem_append.mp he).elim (afar e) (skipped e)
  | true =>
    have finished : Finished s (opening (answer o) .archive m ++ es₁ ++
        closing (answer o) .archive duration m₁) (afterWork (answer o) .archive duration m₁) := by
      refine ⟨by simp [closing], m, entries, hidden, moving, by simp [opening],
        archived.complete, by simp [he], fun apart => ⟨dir ++ [name], id, ?_⟩⟩
      have found := moved.resolve apart
      rwa [hcwd] at found
    have calls : (finish s Toolchain.outside startedAt ⟨s.workspace⟩ wheel treeDigest archive
        { progress with
          state := .running .archive
          completed := progress.completed ++ [⟨.archive, duration⟩] }).Only
        fun q => q.isEnvironment = true ∨ ∀ m, Same m (answer o q m).2 :=
      only_finish s startedAt ⟨s.workspace⟩ wheel treeDigest archive _
        (fun level text => .inr fun _ => same_log level text)
        (fun q hq => .inr fun m => same_quiet hq o m) fun _ h => only_perform fun _ => .inl h
    refine (finish_ends.and (keeps_run (p := s.output) calls)).mono ?_
    rintro r es₂ m₂ ⟨⟨-, hlast⟩, kept⟩
    refine .inr ⟨hr, fun failure hf => ?_, _, es₂, _, rfl, afar, finished, fun keeps e he _ =>
      kept keeps e he⟩
    rw [hf] at hlast
    exact hlast

theorem stages_deferred (previous : RunState) :
    (stages s Toolchain.outside startedAt { state := previous }).Ends (answer o) m
      fun r es _ => Deferred o s r.1 es := by
  have quiet (q : Request) (h : q.Quiet) : q.isEnvironment = false :=
    Request.not_isEnvironment h.mark?
  have cleaned : (clean s).Only fun q => q.isEnvironment = false :=
    (only_clean s).mono fun _ h => Request.not_isEnvironment h.mark?
  have built : (buildWheel Toolchain.outside s.source s.dist s.project).Only
      fun q => q.isEnvironment = false := only_buildWheel s quiet (only_perform fun _ => rfl)
  have installed (workspace : Workspace) (wheel : Wheel) :
      (install Toolchain.outside s workspace wheel).Only fun q => q.isEnvironment = false :=
    only_install s workspace wheel quiet (fun _ _ => rfl) (only_perform fun _ => rfl)
  refine stage_deferred cleaned (clean_yields s) ?_
  rintro _ p₁ m₁ rfl
  refine Steps.ends_bind.mpr (Steps.ends_update.mpr ?_)
  refine stage_deferred built (Work.yields_true _) fun wheel p₂ m₂ _ => ?_
  refine stage_deferred (installed _ wheel) (Work.yields_true _) fun treeDigest p₃ m₃ _ => ?_
  exact archive_deferred

end Stages

theorem cleanUp_afar (s : Settings) (workspace : Option Workspace) :
    (cleanUp s workspace).Only fun q => q.isEnvironment = false := by
  cases workspace with
  | none => trivial
  | some workspace => exact only_cleanUp s _ (fun _ _ => rfl) fun _ h =>
      Request.not_isEnvironment h.mark?

theorem logOutcome_afar (result : Except Failure Report) :
    (logOutcome result).Only fun q => q.isEnvironment = false := by
  cases result <;> exact only_request.mpr rfl

theorem run_deferred (previous : RunState) :
    (run s Toolchain.outside previous).Ends (answer o) m fun r es _ => Deferred o s r.1 es := by
  refine ends_run ((stages_deferred previous).mono fun r es h₁ deferred => ?_)
  refine (cleanUp_afar s r.2.workspace).ends.mono fun _ es₁ h₂ cleaned => ?_
  refine (logOutcome_afar r.1).ends.mono fun _ es₂ h₃ logged => ?_
  have around : Deferred o s r.1 ([(.clock, m)] ++ (es ++ (es₁ ++ es₂))) :=
    deferred.around (by simp [Request.isEnvironment]) fun e he =>
      (List.mem_append.mp he).elim (cleaned e) (logged e)
  exact around

/-- Each time the environment is asked, the archive stage is over. -/
theorem Deferred.finished {r : Except Failure Report} {before after : List (Request × Machine)}
    {e : Request × Machine} (h : Deferred o s r (before ++ e :: after))
    (keeps : o.Keeps s.output (before ++ e :: after)) (he : e.1.isEnvironment = true) :
    Finished s before e.2 := by
  rcases h with h | ⟨-, -, front, later, m, hsplit, hfront, finished, kept⟩
  · rw [h e (by simp)] at he
    cases he
  rw [hsplit] at keeps
  have kept := kept (keeps.mono (List.subset_append_right _ _))
  rcases List.append_eq_append_iff.mp hsplit with ⟨rest, rfl, hrest⟩ | ⟨rest, rfl, rfl⟩
  · cases rest with
    | nil =>
      obtain rfl : later = e :: after := by simpa using hrest.symm
      rw [List.append_nil] at finished
      exact finished.later (List.Subset.refl _) (kept e List.mem_cons_self he)
    | cons first rest =>
      obtain ⟨rfl, rfl⟩ := List.cons.inj hrest
      rw [hfront e (by simp)] at he
      cases he
  · exact finished.later (List.subset_append_left _ _) (kept e (by simp) he)

/-- It is told that the environment was not modified if the failure was not in the last stage. -/
theorem told_untouched {failure : Failure} :
    "The active environment was not modified" ∈ (RunError.pipeline failure).suggestions ↔
      failure.environmentUntouched = true := by
  have advice : "The active environment was not modified" ∉
      RunError.stageAdvice failure.stage failure.cause := by
    unfold RunError.stageAdvice
    split <;> simp
  rw [RunError.suggestions, List.mem_append, or_iff_right advice]
  split <;> simp_all

/-- The environment is not asked before the archive stage is over. If it leaves the output alone, then
whenever it is asked, the archive is found at the output, unless it has taken the place of a link on
its own way. A run that fails with the environment untouched, or that leaves the environment out, has
never asked it. -/
theorem environment_asked_after_archive (o : Outside) (m : Machine) (s : Settings)
    (previous : RunState) :
    (run s Toolchain.outside previous).Ends (answer o) m fun r es _ =>
      (o.Keeps s.output es → ∀ before e after, es = before ++ e :: after →
        e.1.isEnvironment = true → Finished s before e.2) ∧
      (∀ failure, r.1 = .error failure → failure.environmentUntouched = true ∨
        "The active environment was not modified" ∈ (RunError.pipeline failure).suggestions →
          ∀ e ∈ es, e.1.isEnvironment = false) ∧
      (s.reconcile = false → ∀ e ∈ es, e.1.isEnvironment = false) := by
  refine (run_deferred previous).mono fun r es m' deferred => ⟨?_, ?_, ?_⟩
  · rintro keeps before e after rfl he
    exact deferred.finished keeps he
  · intro failure hf hu
    rcases deferred with h | ⟨-, hlast, -⟩
    · exact h
    · have untouched : failure.environmentUntouched = true := hu.elim id told_untouched.mp
      simp [Failure.environmentUntouched, hlast failure hf] at untouched
  · intro hr
    rcases deferred with h | ⟨hr', -⟩
    · exact h
    · cases hr.symm.trans hr'

set_option maxRecDepth 100000 in
theorem small_run_asks_after_archive :
    (run (.small "/work" "/out.zip") Toolchain.outside .pending).Ends
      (answer (.small [])) (.small []) fun _ es _ =>
        ∃ before e after, es = before ++ e :: after ∧ e.1.isEnvironment = true ∧
          Finished (.small "/work" "/out.zip") before e.2 ∧
          (e.2.leads (.ofString "/out.zip")).toOption.isSome := by
  have evaluated : (run (.small "/work" "/out.zip") Toolchain.outside .pending).Ends
      (answer (.small [])) (.small []) fun _ es _ =>
        (∀ e ∈ es, e.1.isEnvironment = true →
          (answer (.small []) e.1 e.2).2.leads (.ofString "/out.zip") =
            e.2.leads (.ofString "/out.zip")) ∧
          ∃ e ∈ es, e.1.isEnvironment = true ∧
            (e.2.leads (.ofString "/out.zip")).toOption.isSome := by
    unfold Ends
    decide +kernel
  obtain ⟨keeps, e, he, henv, found⟩ := evaluated
  obtain ⟨before, after, hes⟩ := List.append_of_mem he
  have finished := (environment_asked_after_archive (.small []) (.small [])
    (.small "/work" "/out.zip") .pending).1 keeps before e after hes henv
  exact ⟨before, e, after, hes, henv, finished, found⟩

/-- What an installer can leave behind: a link that leads to where it is. -/
def snare : List Planting :=
  [.remove (.ofString "/d/x"), .link (.ofString "/d/x") (Bytes.ofString "/d")]

set_option maxRecDepth 100000 in
/-- An archive that has taken the place of a link on its own way is not found at the output, also if
the environment never touches the disk. -/
theorem environment_asked_without_archive :
    ¬ ∀ (o : Outside) (m : Machine) (s : Settings) (previous : RunState),
      (∀ call m, call.isEnvironment = true → (o.collaborate call m).2.disk = m.disk) →
        (run s Toolchain.outside previous).Ends (answer o) m fun _ es _ =>
          ∀ e ∈ es, e.1.isEnvironment = true → ∃ found, e.2.leads s.output = .ok found := by
  intro h
  have asked : (run (.small "/work" "/d/x/x") Toolchain.outside .pending).Ends
      (answer (.small snare)) (.small []) fun _ es _ =>
        ∃ e ∈ es, e.1.isEnvironment = true ∧ (e.2.leads (.ofString "/d/x/x")).toOption = none := by
    unfold Ends
    decide +kernel
  obtain ⟨e, he, henv, missed⟩ := asked
  have still : ∀ call m, call.isEnvironment = true →
      ((Outside.small snare).collaborate call m).2.disk = m.disk := by
    intro call m hc
    cases call with
    | build | installInto => cases hc
    | isInstalled | uninstall | install => rfl
  obtain ⟨found, hf⟩ := h (.small snare) (.small []) (.small "/work" "/d/x/x") .pending still e he henv
  cases missed.symm.trans (congrArg Except.toOption hf)

end Pipeline

end LayerPack
