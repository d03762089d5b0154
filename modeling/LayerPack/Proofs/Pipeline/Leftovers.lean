import LayerPack.Proofs.Disk.Stop
import LayerPack.Proofs.Machine.Form
import LayerPack.Proofs.Pipeline.Fate
import LayerPack.Proofs.Pipeline.Whole
import LayerPack.Proofs.Workspace.Reset

/-! What a run leaves of its workspace. A run that has begun its work removes the workspace at its end,
also if it fails later on. A run that fails while it makes the workspace does not remove what it has
made. -/
namespace LayerPack

open Program Machine

variable {s : Settings} {o : Outside} {m m' : Machine} {es es' : List (Request × Machine)} {p : Path}

/-- The request looks for the entry that a path names, or removes it. -/
def Request.clears (p : Path) : Request → Bool
  | .stat false q | .unlink q | .removeTree q => q = p
  | _ => false

/-- Why a request of this kind has failed. -/
def Request.refusal : (q : Request) → q.Reply → Option SystemError
  | .stat .., .error e | .unlink _, .error e | .removeTree _, .error e => some e
  | _, _ => none

/-- No attempt to remove what a path names has failed: whatever could not be removed was missing. -/
def Outside.Clears (o : Outside) (p : Path) (es : List (Request × Machine)) : Prop :=
  ∀ e ∈ es, e.1.clears p = true → ∀ cause ∈ e.1.refusal (answer o e.1 e.2).1, cause = .noEntry

instance (o : Outside) (p : Path) (es : List (Request × Machine)) : Decidable (o.Clears p es) :=
  inferInstanceAs (Decidable (∀ e ∈ es, _ → ∀ cause ∈ Request.refusal e.1 _, _))

instance (o : Outside) (es : List (Request × Machine)) : Decidable (o.KeepsForm es) :=
  inferInstanceAs (Decidable (∀ e ∈ es, _ → _ → _))

namespace Outside.Clears

variable {before : Machine} {e : SystemError}

theorem mono (h : o.Clears p es') (sub : es ⊆ es') : o.Clears p es := fun e he => h e (sub he)

theorem look (h : o.Clears p es) (hm : (.stat false p, before) ∈ es)
    (he : (answer o (.stat false p) before).1 = .error e) : e = .noEntry :=
  h _ hm (by simp [Request.clears]) e (by rw [he]; rfl)

theorem entry (h : o.Clears p es) (hm : (.unlink p, before) ∈ es)
    (he : (answer o (.unlink p) before).1 = .error e) : e = .noEntry :=
  h _ hm (by simp [Request.clears]) e (by rw [he]; rfl)

theorem tree (h : o.Clears p es) (hm : (.removeTree p, before) ∈ es)
    (he : (answer o (.removeTree p) before).1 = .error e) : e = .noEntry :=
  h _ hm (by simp [Request.clears]) e (by rw [he]; rfl)

end Outside.Clears

namespace Machine

/-- Nothing is found by a path, not even a link at its end. -/
def Missing (m : Machine) (p : Path) : Prop :=
  ∀ found, m.disk.resolve m.cwd false p ≠ .ok found

theorem Same.missing (h : Same m m') (hm : m.Missing p) : m'.Missing p := by
  rwa [Missing, h.disk, h.cwd]

/-- What cannot be removed since it is missing is not found on the disk. -/
theorem unlink_missing (honest : o.Honest) (h : (answer o (.unlink p) m).1 = .error .noEntry) :
    m.disk.unlink m.cwd p = .error .noEntry := by
  change (changing (o.fault m.ticks) _ (m.disk.unlink m.cwd p)).1 = _ at h
  have := honest m.ticks
  cases hf : o.fault m.ticks with
  | some e =>
    rw [hf] at h this
    cases h
    exact (this rfl).elim
  | none =>
    rw [hf] at h
    cases hu : m.disk.unlink m.cwd p with
    | error e =>
      rw [hu] at h
      cases h
      rfl
    | ok d =>
      rw [hu] at h
      cases h

/-- A removal of a tree that does not fail is done on the disk. -/
theorem removeTree_done (honest : o.Honest)
    (h : ∀ e, (answer o (.removeTree p) m).1 = .error e → e = .noEntry) :
    (∀ e, (m.disk.removeTree m.cwd p).1 = .error e → e = .noEntry) ∧
      (answer o (.removeTree p) m).2.disk = (m.disk.removeTree m.cwd p).2 := by
  change (∀ e, (removingTree (o.fault m.ticks) (m.step (o.delay m.ticks)) p).1 = .error e → _) at h
  change _ ∧ (removingTree (o.fault m.ticks) (m.step (o.delay m.ticks)) p).2.disk = _
  have := honest m.ticks
  cases hf : o.fault m.ticks with
  | some e =>
    rw [hf] at h this
    obtain rfl := h e rfl
    exact (this rfl).elim
  | none =>
    rw [hf] at h
    exact ⟨h, rfl⟩

end Machine

/-- What a path names is removed from the disk, if that was done without a failure. -/
theorem Files.removePath_removes (honest : o.Honest) :
    (removePath p).Ends (answer o) m fun r es m' => (∃ removed, r = .ok removed) ∨ o.Clears p es →
      m.disk.Removed m.cwd p m'.disk ∧ m'.cwd = m.cwd := by
  refine Ends.bind (p := lstat p) (M := fun r es m₁ => Same m m₁ ∧ es = [(.stat false p, m)] ∧
    r = (answer o (.stat false p) m).1) ⟨same_quiet (q := .stat false p) trivial o m, rfl, rfl⟩ ?_
  -- A result that is no failure has had no other cause.
  have harmless {e : SystemError} {removed : Bool} (h : (if e = .noEntry then .ok false else .error e :
      Except SystemError Bool) = .ok removed) : e = .noEntry := by
    by_contra hne
    rw [if_neg hne] at h
    cases h
  rintro (e | status) _ m₁ ⟨same, rfl, hr⟩
  · intro done
    obtain rfl : e = .noEntry := by
      rcases done with ⟨removed, h⟩ | clears
      · exact harmless h
      · exact clears.look (by simp) hr.symm
    exact ⟨.missing (stat_missing honest hr.symm) same.disk, same.cwd⟩
  · obtain ⟨place, node, found, hnode⟩ := Disk.stat_ok (stat_ok hr.symm)
    rw [← same.disk, ← same.cwd] at found ⊢
    have removed : (if status.kind = .dir then removeTree p else unlink p).Ends (answer o) m₁
        fun r es m₂ => (∀ e, r = .error e → e = .noEntry) ∨ o.Clears p es →
          m₁.disk.Removed m₁.cwd p m₂.disk ∧ m₂.cwd = m₁.cwd := by
      by_cases hdir : status.kind = .dir
      · rw [if_pos hdir]
        obtain ⟨entries, rfl⟩ : ∃ entries, node = .dir entries := by
          subst hnode
          cases node with
          | dir entries => exact ⟨entries, rfl⟩
          | file | link => cases hdir
        refine fun done => ?_
        obtain ⟨failed, done⟩ := removeTree_done honest fun e he =>
          done.elim (fun only => only e he) fun clears => clears.tree (List.mem_singleton_self _) he
        exact ⟨.tree found failed done, (removeTree_cases o m₁ p).2⟩
      · rw [if_neg hdir]
        refine fun done => ?_
        rcases changed_unlink o m₁ p with ⟨-, hop, hcwd⟩ | ⟨⟨e, he⟩, -⟩
        · exact ⟨.entry hop, hcwd⟩
        · obtain rfl := done.elim (fun only => only e he) fun clears =>
            clears.entry (List.mem_singleton_self _) he
          exact (Disk.unlink_ne_noEntry found (unlink_missing honest he)).elim
    refine Ends.bind removed fun r es m₂ removed => ?_
    cases r with
    | ok => exact fun _ => removed (.inl fun _ h => by cases h)
    | error e =>
      rintro (⟨gone, h⟩ | clears)
      · refine removed (.inl fun _ he => ?_)
        obtain rfl := Except.error.inj he
        exact harmless h
      · exact removed (.inr (clears.mono fun e he => by simp [he]))

/-- Once it was removed without a failure, nothing is found by a path. -/
theorem Files.removePath_missing (honest : o.Honest) (wf : m.disk.root.WellFormed) :
    (removePath p).Ends (answer o) m fun r es m' =>
      (∃ removed, r = .ok removed) ∨ o.Clears p es → m'.Missing p :=
  (removePath_removes honest).mono fun _ _ _ removes done found => by
    obtain ⟨removed, cwd⟩ := removes done
    rw [cwd]
    exact removed.notFound wf found

/-- A request that removes no directory: quiet, the making of a directory, or the removal of what is
none. -/
def Request.Builds (q : Request) : Prop := q.Furnishes ∨ ∃ p, q = .unlink p

/-- Every directory that was made is there. -/
def Built (o : Outside) (es : List (Request × Machine)) (m : Machine) : Prop :=
  ∀ place, MadeAt o place es → m.disk.look place = some (.dir [])

/-- A directory is not removed as a file. -/
theorem Disk.unlink_keeps_dir {d d' : Disk} {cwd place : Place} (h : d.unlink cwd p = .ok d')
    (hd : d.look place = some (.dir [])) : d'.look place = some (.dir []) := by
  obtain ⟨parent, name, node, -, hg, hn, rfl⟩ := unlink_ok h
  refine (look_erase ?_).trans hd
  rintro ⟨rest, rfl⟩
  obtain ⟨-, es, he⟩ := Node.look_eq_dir.mp hd
  obtain ⟨es', he'⟩ := Node.dir_of_prefix (List.prefix_append (parent ++ [name]) rest) he
  cases hg.symm.trans he'
  cases hn

namespace Machine

theorem builds_keeps_dir {q : Request} (h : q.Builds) {place : Place}
    (hd : m.disk.look place = some (.dir [])) :
    (answer o q m).2.disk.look place = some (.dir []) := by
  rcases h with h | ⟨p, rfl⟩
  · refine ((grown_furnishes h o m).1 place fun hn => ?_).trans hd
    rw [Disk.look, Node.look_eq_none.mpr hn] at hd
    cases hd
  · rcases changed_unlink o m p with ⟨-, hop, -⟩ | ⟨-, same⟩
    · exact Disk.unlink_keeps_dir hop hd
    · exact same.disk ▸ hd

/-- What was there as a directory and what was made as one is there at the end. -/
theorem built_run {α : Type} {program : Program α} (hp : program.Only Request.Builds) :
    program.Ends (answer o) m fun _ es m' => ∀ place,
      m.disk.look place = some (.dir []) ∨ MadeAt o place es →
        m'.disk.look place = some (.dir []) := by
  refine hp.run_history (H := fun m es m' => ∀ place,
    m.disk.look place = some (.dir []) ∨ MadeAt o place es →
      m'.disk.look place = some (.dir [])) ?_ ?_ m
  · rintro m place (h | ⟨p, before, he, -⟩)
    · exact h
    · cases he
  intro q m es m' hq rest place h
  have first : m.disk.look place = some (.dir []) ∨ MadeAt o place [(q, m)] ∨ MadeAt o place es :=
    h.imp_right fun made => madeAt_append.mp made
  refine rest place ?_
  rcases first with hd | ⟨p, before, he, hn, hm⟩ | hm
  · exact .inl (builds_keeps_dir hq hd)
  · obtain ⟨rfl, rfl⟩ := Prod.mk.inj (List.mem_singleton.mp he)
    refine .inl ?_
    rcases changed_mkdir o before p with ⟨-, hop, -⟩ | ⟨-, same⟩
    · rcases Disk.look_mkdir hop place with hl | ⟨-, hd⟩
      · exact (hm (Node.look_eq_none.mp (hl.trans (Node.look_eq_none.mpr hn)))).elim
      · exact hd
    · exact (hm (same.disk ▸ hn)).elim
  · exact .inr hm

end Machine

theorem not_madeAt_of_only {α : Type} {K : Request → Prop} {program : Program α} {place : Place}
    (hp : program.Only K) (hK : ∀ p, ¬ K (.mkdir p)) :
    ¬ MadeAt o place (program.trace (answer o) m) := by
  rintro ⟨p, before, he, -⟩
  exact hK p (hp.trace (answer o) m _ he)

/-- Work that only builds goes on from what was built. -/
theorem Work.built_bind {α β : Type} {w : Work α} {f : α → Work β} {deadline : Option Nat}
    (hw : (w deadline).Ends (answer o) m fun _ es m' => Built o es m')
    (hf : ∀ a, (f a).Only Request.Builds) :
    ((w >>= f) deadline).Ends (answer o) m fun _ es m' => Built o es m' := by
  refine Work.ends_bind.mpr (hw.mono fun r es m₁ built => ?_)
  cases r with
  | error stop => exact built
  | ok a =>
    refine (built_run (hf a deadline)).mono fun _ es' m₂ rest place made => rest place ?_
    exact (madeAt_append.mp made).imp_left (built place)

namespace Pipeline

/-- Wherever the first stage ends, the directories that it has made are there. -/
theorem clean_built (s : Settings) (deadline : Option Nat) :
    (clean s deadline).Ends (answer o) m fun _ es m' => Built o es m' := by
  have builds {q : Request} (h : q.Quiet) : q.Builds := .inl (.inl h)
  have dist : (makeDist s).Only Request.Builds := only_makeDist s fun _ _ h => .inl h.furnishes
  have stale : (removeStaleArchive s.output).Only Request.Builds :=
    (only_removeStaleArchive s.output).mono fun _ h => h.elim builds fun h => .inr ⟨_, h⟩
  have removal : (Work.await (Files.removePath s.workspace)).Only (Request.Removes s.workspace) :=
    Work.Only.await (.inl trivial) (Files.only_removePath s.workspace)
  have unmade : ∀ p, ¬ (Request.mkdir p).Removes s.workspace := by
    rintro p (h | h | h)
    · exact h
    · cases h
    · cases h
  refine Work.built_bind (w := Workspace.prepare s.workspace) ?_ fun workspace =>
    dist.bind fun _ => stale.bind fun _ => Work.only_pure _
  rw [Workspace.prepare_eq]
  refine Work.built_bind ?_ fun removed deadline =>
    (Workspace.furnishes_furnish s.workspace removed deadline).mono fun _ h => .inl h
  exact fun place made => (not_madeAt_of_only (removal deadline) unmade made).elim

/-- The stages either begin their work, or fail with all directories that they have made. -/
theorem stages_built (s : Settings) (t : Toolchain) (startedAt : Nat) (previous : RunState) :
    (stages s t startedAt { state := previous }).Ends (answer o) m fun r es m' =>
      Begun s r ∨ r.2.workspace = none ∧ (∃ failure, r.1 = .error failure ∧ failure.stage = .clean) ∧
        Built o es m' := by
  rw [stages_eq]
  refine ends_stage_bind (((clean_built s _).and (clean_yields s).ends).mono ?_)
  rintro (stop | workspace) es m₁ ⟨built, yields⟩
  · refine .inr ⟨rfl, ⟨_, rfl, rfl⟩, fun place made => built place ?_⟩
    refine (madeAt_append.mp made).resolve_left ?_
    rintro ⟨p, before, he, -⟩
    simp [opening] at he
  · obtain rfl := yields workspace rfl
    intro duration
    refine Ends.mono (Q := fun r _ _ => Begun s r) ?_ fun _ _ _ h => .inl h
    exact Returns.run (p := laterStages s t startedAt ⟨s.workspace⟩ _) (begun_laterStages rfl)
      (answer o) _

/-- The removal at the end of a run. -/
theorem cleanUp_missing (keep : s.keepWorkspace = false) (honest : o.Honest)
    (wf : m.disk.root.WellFormed) : (cleanUp s (some ⟨s.workspace⟩)).Ends (answer o) m
      fun _ es m' => o.Clears s.workspace es → m'.Missing s.workspace := by
  simp only [cleanUp, keep, Bool.false_eq_true, if_false]
  have removed : (Workspace.cleanup ⟨s.workspace⟩).Ends (answer o) m fun _ es m' =>
      o.Clears s.workspace es → m'.Missing s.workspace := by
    refine Ends.bind (Files.removePath_missing honest wf) fun _ es _ missing clears => ?_
    exact missing (.inr (clears.mono fun e he => by simp [he]))
  refine Ends.bind removed fun r es m₁ missing => ?_
  cases r with
  | ok =>
    intro clears
    exact missing (clears.mono fun e he => by simp [he])
  | error e =>
    intro clears
    exact (same_log _ _).missing (missing (clears.mono fun e he => by simp [he]))

/-- The last words of a run change nothing on the disk. -/
theorem logOutcome_same (result : Except Failure Report) :
    (logOutcome result).Ends (answer o) m fun _ es m' => Same m m' ∧ ∀ place, ¬ MadeAt o place es := by
  cases result with
  | ok report => exact ⟨same_log _ _, fun place => by simp [logOutcome, request, trace, MadeAt]⟩
  | error failure => exact ⟨same_log _ _, fun place => by simp [logOutcome, request, trace, MadeAt]⟩

/-- Unless the workspace is to be kept, nothing is found at its path after a run, also if a later stage
has failed. Only a run whose first stage has failed removes nothing: all directories that it has made
are still there. -/
theorem run_removes_workspace (t : Toolchain) (keep : s.keepWorkspace = false)
    (honest : o.Honest) (wf : m.disk.root.WellFormed) (previous : RunState) :
    (run s t previous).Ends (answer o) m fun r es m' =>
      o.KeepsForm es → o.Clears s.workspace es →
        ((∀ failure, r.1 = .error failure → failure.stage ≠ .clean) → m'.Missing s.workspace) ∧
        ∀ failure, r.1 = .error failure → failure.stage = .clean → Built o es m' := by
  have wf₁ : (answer o .clock m).2.disk.root.WellFormed := wf
  refine ends_run (((stages_built s t _ previous).and (ends_wellFormed _ wf₁)).mono ?_)
  rintro ⟨result, p⟩ es m₁ ⟨begun | ⟨hp, ⟨failure, hf, hs⟩, built⟩, formed⟩
  · -- the workspace is known, so it is removed
    obtain ⟨hp, later⟩ := begun
    rw [show p.workspace = some ⟨s.workspace⟩ from hp]
    refine Ends.mono (Q := fun _ es₁ m₂ => o.KeepsForm es → o.Clears s.workspace es₁ →
      m₂.Missing s.workspace) ?_ fun _ es₁ m₂ missing => ?_
    · exact fun keeps => cleanUp_missing keep honest (formed keeps)
    refine (logOutcome_same result).mono fun _ es₂ m₃ ⟨same, _⟩ keeps clears => ⟨fun _ => ?_, ?_⟩
    · refine same.missing (missing (keeps.mono fun e he => ?_) (clears.mono fun e he => ?_))
      · simp [he]
      · simp [he]
    · exact fun failure hf hs => (later failure hf hs).elim
  · -- nothing is removed, and nothing is asked any more but to log the failure
    rw [show p.workspace = none from hp]
    refine (ends_done (b := ())).mpr ((logOutcome_same result).mono ?_)
    rintro _ es₂ m₃ ⟨same, unmade⟩ - -
    constructor
    · exact fun h => (h failure hf hs).elim
    · intro _ _ _ place made
      rw [same.disk]
      refine built place ?_
      have made : MadeAt o place ([(.clock, m)] ++ (es ++ es₂)) := made
      rw [madeAt_append, madeAt_append] at made
      rcases made with ⟨p, before, he, -⟩ | made | made
      · simp at he
      · exact made
      · exact (unmade place made).elim

set_option maxRecDepth 100000 in
/-- A run that builds no wheel removes its workspace. A run that finds a directory at its output leaves
the workspace that it has made. -/
theorem workspace_outlives_failed_clean :
    (run (.small "/work" "/out.zip") Toolchain.outside .pending).Ends
      (answer (.scripted fun _ => {})) (.small []) (fun r _ m' =>
        (∃ failure, r.1 = .error failure ∧ failure.stage = .build) ∧
          m'.Missing (.ofString "/work")) ∧
    (run (.small "/work" "/out") Toolchain.outside .pending).Ends
      (answer (.scripted fun _ => {})) (.small [("out", .dir [])]) fun r es m' =>
        (∃ failure, r.1 = .error failure ∧ failure.stage = .clean) ∧
          Built (.scripted fun _ => {}) es m' ∧
            m'.disk.look [Bytes.ofString "work"] = some (.dir []) := by
  have honest : (Outside.scripted fun _ => {}).Honest := fun _ h => by cases h
  constructor
  · have evaluated : (run (.small "/work" "/out.zip") Toolchain.outside .pending).Ends
        (answer (.scripted fun _ => {})) (.small []) fun r es _ =>
          (Outside.scripted fun _ => {}).KeepsForm es ∧
            (Outside.scripted fun _ => {}).Clears (.ofString "/work") es ∧
              r.1.mapError (·.stage) = .error .build := by
      unfold Ends
      decide +kernel
    have removes := run_removes_workspace (s := .small "/work" "/out.zip") (m := .small [])
      Toolchain.outside rfl honest (by decide +kernel) .pending
    refine (removes.and evaluated).mono ?_
    rintro ⟨failure | _, state⟩ es m' ⟨removes, keeps, clears, hs⟩
    case ok => cases hs
    obtain hs : failure.stage = .build := Except.error.inj hs
    refine ⟨⟨failure, rfl, hs⟩, (removes keeps clears).1 fun other ho => ?_⟩
    cases ho
    rw [hs]
    decide
  · have evaluated : (run (.small "/work" "/out") Toolchain.outside .pending).Ends
        (answer (.scripted fun _ => {})) (.small [("out", .dir [])]) fun r es m' =>
          (Outside.scripted fun _ => {}).KeepsForm es ∧
            (Outside.scripted fun _ => {}).Clears (.ofString "/work") es ∧
              r.1.mapError (·.stage) = .error .clean ∧
                m'.disk.look [Bytes.ofString "work"] = some (.dir []) := by
      unfold Ends
      decide +kernel
    have removes := run_removes_workspace (s := .small "/work" "/out")
      (m := .small [("out", .dir [])]) Toolchain.outside rfl honest (by decide +kernel) .pending
    refine (removes.and evaluated).mono ?_
    rintro ⟨failure | _, state⟩ es m' ⟨removes, keeps, clears, hs, there⟩
    case ok => cases hs
    obtain hs : failure.stage = .clean := Except.error.inj hs
    exact ⟨⟨failure, rfl, hs⟩, (removes keeps clears).2 failure rfl hs, there⟩

end Pipeline

end LayerPack
