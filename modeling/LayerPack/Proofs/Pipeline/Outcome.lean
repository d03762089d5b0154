import LayerPack.Proofs.Pipeline.Stages

/-! What a run leaves at the output. If the archive was written, it stands there at the end, whether
the last stage has failed and whatever was removed after it; if the run failed before, then nothing
new stands there, but an old archive may not have been removed. -/
namespace LayerPack

open Program Machine

variable {s : Settings} {o : Outside} {m m' : Machine} {es : List (Request × Machine)}

namespace Pipeline

/-- What has no business with the output changes nothing of what is known. -/
theorem Concluded.still {α : Type} {p : Program α} {r : Except Failure Report × Progress}
    (laid : s.Laid) (spares : o.Spares s) (h : Concluded o s m r es m')
    (hp : p.Only (Request.Aside s)) :
    p.Ends (answer o) m' fun _ es' m'' => Concluded o s m r (es ++ es') m'' := by
  obtain ⟨hw, hg, h⟩ := h
  have fates := before_run laid spares (hp.mono fun _ => .inl) hg
  refine ((aside_run laid spares hp hg).and fates).mono ?_
  rintro _ es' m'' ⟨⟨hg', hl⟩, -, fate⟩
  have later {entries : List Zip.Entry} (h : Shipped s es entries m') :
      Shipped s (es ++ es') entries m'' := h.later (List.subset_append_left _ _) hl
  refine ⟨hw, hg', ?_⟩
  cases hr : r.1 with
  | ok report =>
    rw [hr] at h
    obtain ⟨entries, shipped, describes⟩ := h
    exact ⟨entries, later shipped, describes⟩
  | error failure =>
    rw [hr] at h
    exact ⟨fun hs => (h.1 hs).imp fun _ => later, fun hs => (h.2 hs).append fate⟩

theorem only_cleanUp_aside {workspace : Option Workspace}
    (hw : workspace = none ∨ workspace = some ⟨s.workspace⟩) :
    (cleanUp s workspace).Only (Request.Aside s) := by
  rcases hw with rfl | rfl
  · trivial
  · exact only_cleanUp s _ (fun _ _ => .log _ _) fun q h => h.aside

theorem only_logOutcome_aside (result : Except Failure Report) :
    (logOutcome result).Only (Request.Aside s) := by
  cases result <;> exact only_request.mpr (.log _ _)

theorem run_concluded (laid : s.Laid) (spares : o.Spares s) (guarded : m.disk.Guarded s)
    (previous : RunState) :
    (run s Toolchain.outside previous).Ends (answer o) m fun r es m' =>
      ∃ p, Concluded o s m (r.1, p) es m' := by
  obtain ⟨hg, fate⟩ := before_run (p := request .clock) laid spares
    (only_request.mpr (.inl (.quiet trivial))) guarded
  refine ends_run ((stages_concluded laid spares hg _ previous).mono fun r es h₁ stages => ?_)
  refine (stages.still laid spares (only_cleanUp_aside stages.1)).mono fun _ es₁ h₂ cleaned => ?_
  refine (cleaned.still laid spares (only_logOutcome_aside r.1)).mono fun _ es₂ h₃ logged => ?_
  rw [List.append_assoc] at logged
  exact ⟨r.2, logged.after fate⟩

theorem run_removed (laid : s.Laid) (spares : o.Spares s) (honest : o.Honest)
    (guarded : m.disk.Guarded s) (previous : RunState) :
    (run s Toolchain.outside previous).Ends (answer o) m fun r es _ =>
      (∀ failure, r.1 = .error failure → failure.stage ≠ .clean) →
        m.disk.get? s.output.names = none ∨ Unlinked o s.output es := by
  refine ends_run ((stages_removed laid spares honest (m := (answer o .clock m).2) guarded _
    previous).mono fun r es h₁ removed => ?_)
  refine Ends.mono (Q := fun _ _ _ => True) trivial fun _ es₁ h₂ _ => ?_
  refine Ends.mono (Q := fun _ _ _ => True) trivial fun _ es₂ h₃ _ hs => ?_
  refine (removed hs).imp_right fun ⟨before, he, hr⟩ => ⟨before, ?_, hr⟩
  exact List.mem_cons_of_mem _ (List.mem_append_left _ he)

/-- If the archive stage was passed, then after the run the archive of the tree is at the output. The
report of a successful run is about this archive. -/
theorem archived_run_ships (accepted : s.Accepted) (guarded : m.disk.Guarded s)
    (previous : RunState) :
    (run s Toolchain.outside previous).Ends (answer o) m fun r es m' => o.Spared s es →
      match r.1 with
      | .ok report => ∃ entries, Shipped s es entries m' ∧
          Describes s report.archive report.treeDigest entries
      | .error failure => failure.stage = .reconcile → ∃ entries, Shipped s es entries m' := by
  refine Ends.spared ((run_concluded accepted.laid (o.sparing_spares s) guarded previous).mono ?_)
  rintro r es m' ⟨p, -, -, h⟩
  cases hr : r.1 with
  | ok report =>
    rw [hr] at h
    exact h
  | error failure =>
    rw [hr] at h
    exact h.1

set_option maxRecDepth 100000 in
theorem small_run_ships : (Settings.small "/work" "/out.zip").Accepted ∧
    (small []).disk.Guarded (.small "/work" "/out.zip") ∧
    (run (.small "/work" "/out.zip") Toolchain.outside .pending).Ends (answer (.small []))
      (small []) fun r es m' => (Outside.small []).Spared (.small "/work" "/out.zip") es ∧
        ∃ report entries, r.1 = .ok report ∧ Shipped (.small "/work" "/out.zip") es entries m' ∧
          Describes (.small "/work" "/out.zip") report.archive report.treeDigest entries := by
  have accepted : (Settings.small "/work" "/out.zip").Accepted :=
    ⟨.small "/work" "/out.zip", .small [], small [], by decide +kernel⟩
  have guarded : (small []).disk.Guarded (.small "/work" "/out.zip") := by decide +kernel
  have evaluated : (run (.small "/work" "/out.zip") Toolchain.outside .pending).Ends
      (answer (.small [])) (small []) fun r es _ =>
        (Outside.small []).Spared (.small "/work" "/out.zip") es ∧ r.1.toOption.isSome := by
    unfold Ends
    decide +kernel
  refine ⟨accepted, guarded, ?_⟩
  refine ((archived_run_ships accepted guarded .pending).and evaluated).mono ?_
  rintro ⟨result, state⟩ es m' ⟨ships, spared, succeeded⟩
  cases result with
  | error failure => cases succeeded
  | ok report =>
    obtain ⟨entries, shipped, describes⟩ := ships spared
    exact ⟨spared, report, entries, rfl, shipped, describes⟩

/-- What a run that failed in a stage before the last leaves at the output: nothing, unless an old
archive has not been removed yet, or a directory has been made there. Only in the first stage an old
archive may not have been removed. -/
structure Leaves (o : Outside) (s : Settings) (m : Machine) (stage : Stage)
    (es : List (Request × Machine)) (m' : Machine) : Prop where
  nothing : m'.disk.get? s.output.names = none ↔
    (m.disk.get? s.output.names = none ∨ Unlinked o s.output es) ∧ ¬ MadeAt o s.output.names es
  removed : o.Honest → stage ≠ .clean →
    m.disk.get? s.output.names = none ∨ Unlinked o s.output es

theorem failed_run_leaves (accepted : s.Accepted) (guarded : m.disk.Guarded s)
    (previous : RunState) :
    (run s Toolchain.outside previous).Ends (answer o) m fun r es m' => o.Spared s es →
      ∀ failure, r.1 = .error failure → failure.stage ≠ .reconcile →
        Leaves o s m failure.stage es m' := by
  have laid := accepted.laid
  have spares := o.sparing_spares s
  refine Ends.spared fun failure hf hne => ⟨?_, fun honest hc => ?_⟩
  · obtain ⟨p, -, -, h⟩ := run_concluded laid spares guarded previous
    rw [hf] at h
    exact (h.2 hne).gone
  · refine run_removed laid spares honest guarded previous fun other ho => ?_
    cases hf.symm.trans ho
    exact hc

end Pipeline

end LayerPack
