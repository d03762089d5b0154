import LayerPack.Proofs.Archive.Contents
import LayerPack.Proofs.Archive.Writing
import LayerPack.Proofs.Pipeline.Fate
import LayerPack.Proofs.Settings.Grounds

/-! What the stages of a run leave at the output, from the removal of an old archive to the new one.
A stage that fails before the new archive is there has told what has become of the output; once it
is there, the last stage leaves it alone. -/
namespace LayerPack

open Program Machine

variable {s : Settings} {o : Outside} {m m' : Machine} {es : List (Request × Machine)}

namespace Pipeline

/-- Work on the hidden file does not concern the output. -/
theorem abandoned_aside (laid : s.Laid) (hg : m.disk.Guarded s) {fresh : String}
    (hf : slash ∉ Bytes.ofString fresh)
    (h : Archive.Abandoned (Archive.partialPath s.output fresh)
      (Archive.partialName s.output fresh) m m') :
    m'.disk.Guarded s ∧ m'.disk.look s.output.names = m.disk.look s.output.names := by
  rcases h with same | ⟨parent, started⟩
  · exact ⟨same.guarded hg, same.look _⟩
  · exact ⟨started.tame.guarded hg,
      started.changed _ (Archive.hidden_aside laid.output hg.output hf started.way)⟩

/-- What is archived in vain does not concern the output. -/
theorem deliver_fate (laid : s.Laid) (hg : m.disk.Guarded s) (root : Path) (files : List Path)
    (deadline : Option Nat) :
    (Archive.deliver root s.output files deadline).Ends (answer o) m fun r es m' =>
      ∀ stop, r = .error stop →
        m'.disk.Guarded s ∧ Fate o s.output s.output.names m es m' := by
  refine Archive.deliver_ends.mono ?_
  rintro r es m' (⟨-, fresh, hf, abandoned, only⟩ | ⟨_, _, rfl, -⟩)
  · intro stop _
    obtain ⟨hg', hl⟩ := abandoned_aside laid hg hf abandoned
    refine ⟨hg', .still ?_ ?_ hl⟩
    · rintro ⟨p, before, he, -⟩
      rcases only _ he with h | ⟨handle, bytes, h⟩ | h | h | h
      · exact h
      all_goals cases h
    · rintro ⟨before, he, -⟩
      rcases only _ he with h | ⟨handle, bytes, h⟩ | h | h | h
      · exact h
      · cases h
      · cases h
      · exact Archive.partialPath_ne laid.output hf (Request.unlink.inj h).symm
      · cases h
  · exact fun _ h => by cases h

theorem write_fate (laid : s.Laid) (spares : o.Spares s) (hg : m.disk.Guarded s) (root : Path)
    (deadline : Option Nat) :
    (Archive.write root s.output deadline).Ends (answer o) m fun r es m' =>
      ∀ stop, r = .error stop →
        m'.disk.Guarded s ∧ Fate o s.output s.output.names m es m' := by
  have prepared : (Archive.prepare root s.output).Only (Request.Before s) :=
    Archive.only_prepare root s.output (fun _ h => h.before) fun p _ => .inr (.inl ⟨p, rfl⟩)
  refine Work.ends_bind.mpr ((before_run laid spares (prepared deadline) hg).mono
    fun r es₁ m₁ ⟨hg₁, fate₁⟩ => ?_)
  cases r with
  | error stop => exact fun _ _ => ⟨hg₁, fate₁⟩
  | ok files =>
    refine Work.ends_bind.mpr ((deliver_fate laid hg₁ root files deadline).mono
      fun r es₂ m₂ failed => ?_)
    cases r with
    | error stop =>
      obtain ⟨hg₂, fate₂⟩ := failed stop rfl
      exact fun _ _ => ⟨hg₂, fate₁.append fate₂⟩
    | ok measured => exact fun _ h => by cases h

theorem opening_fate (laid : s.Laid) (spares : o.Spares s) (hg : m.disk.Guarded s) (stage : Stage) :
    (atWork (answer o) stage m).disk.Guarded s ∧ Fate o s.output s.output.names m
      (opening (answer o) stage m) (atWork (answer o) stage m) :=
  before_run (p := (request (.log .info stage.announcement)).bind fun _ => request .clock) laid
    spares ⟨.inl (.log _ _), fun _ => ⟨.inl (.quiet trivial), fun _ => trivial⟩⟩ hg

theorem closing_fate (laid : s.Laid) (spares : o.Spares s) (hg : m.disk.Guarded s) (stage : Stage)
    (duration : Nat) :
    (afterWork (answer o) stage duration m).disk.Guarded s ∧ Fate o s.output s.output.names m
      (closing (answer o) stage duration m) (afterWork (answer o) stage duration m) :=
  before_run (p := (request .clock).bind fun _ => request (.log .debug (stage.completion duration)))
    laid spares ⟨.inl (.quiet trivial), fun _ => ⟨.inl (.log _ _), fun _ => trivial⟩⟩ hg

/-- The digest of the tree is taken when the installer is done. -/
theorem install_ends (s : Settings) (workspace : Workspace) (wheel : Wheel)
    (deadline : Option Nat) :
    (install Toolchain.outside s workspace wheel deadline).Ends (answer o) m fun r _ m' =>
      ∀ digest, r = .ok digest →
        Archive.Digested m'.disk m'.cwd workspace.target digest := by
  refine Work.ends_bind.mpr (Ends.mono (Q := fun _ _ _ => True) trivial ?_)
  rintro (stop | ⟨⟩) es m₁ -
  · exact fun _ h => by cases h
  · refine (Archive.treeDigest_ends _ _).mono fun r _ m₂ ⟨same, digested⟩ => ?_
    rw [same.disk, same.cwd]
    exact digested

/-- The archive of the tree stands at the output: of the directory that was found as the tree when
the archive was announced. -/
structure Shipped (s : Settings) (es : List (Request × Machine)) (entries : List Zip.Entry)
    (m' : Machine) : Prop where
  contents : ∃ before place tree, (.log .info Stage.archive.announcement, before) ∈ es ∧
    before.disk.resolve before.cwd true (⟨s.workspace⟩ : Workspace).target = .ok (place, tree) ∧
    tree.isDir = true ∧ Archive.Packs tree entries
  file : ∃ id, m'.disk.get? s.output.names = some (.file id Disk.newMode (Zip.encode entries))

/-- The report is about an archive with these entries, and about them. -/
structure Describes (s : Settings) (archive : Archive.Summary) (treeDigest : String)
    (entries : List Zip.Entry) : Prop where
  path : archive.path = s.output
  files : archive.files = entries.length
  bytes : archive.bytes = (Zip.encode entries).size
  sha256 : archive.sha256 = Sha256.hexDigest (Zip.encode entries)
  treeDigest : treeDigest = Sha256.hexDigest (Archive.records entries)

theorem Shipped.later {es' : List (Request × Machine)} {entries : List Zip.Entry} {m'' : Machine}
    (h : Shipped s es entries m') (sub : es ⊆ es')
    (hl : m''.disk.look s.output.names = m'.disk.look s.output.names) :
    Shipped s es' entries m'' := by
  obtain ⟨before, place, tree, he, hc⟩ := h.contents
  obtain ⟨id, hf⟩ := h.file
  exact ⟨⟨before, place, tree, sub he, hc⟩,
    id, Node.look_eq_file.mp (hl.trans (Node.look_eq_file.mpr hf))⟩

theorem target_ofNames (laid : s.Laid) : (⟨s.workspace⟩ : Workspace).target =
    .ofNames (s.workspace.names ++ [Bytes.ofString "target"]) := by
  have := Path.child_ofNames laid.workspace.proper laid.notRoot
    Workspace.properName_target
  rw [← laid.written.1] at this
  exact this

/-- What has been archived is the tree, it is at the output, and what is known of it is right. -/
theorem shipped_of_archived (laid : s.Laid) (hg : m.disk.Guarded s) {entries : List Zip.Entry}
    {archive : Archive.Summary} {treeDigest : String}
    (h : Archive.Archived (⟨s.workspace⟩ : Workspace).target s.output m entries archive es m')
    (digested : Archive.Digested m.disk m.cwd (⟨s.workspace⟩ : Workspace).target treeDigest) :
    m'.disk.Guarded s ∧ Describes s archive treeDigest entries ∧
      (∃ place tree, m.disk.resolve m.cwd true (⟨s.workspace⟩ : Workspace).target =
        .ok (place, tree) ∧ tree.isDir = true ∧ Archive.Packs tree entries) ∧
      ∃ id, m'.disk.get? s.output.names = some (.file id Disk.newMode (Zip.encode entries)) := by
  obtain ⟨files, d, some, collected, grows, read⟩ := h.complete
  obtain ⟨files', entries', collected', read', hdigest⟩ := digested
  obtain ⟨hidden, m₁, src, id, dir, name, tame, -, -, moved⟩ := h.moved
  obtain ⟨place, es', hroot, packs⟩ :=
    Archive.packs_of_collected hg.wellFormed collected some grows read
  obtain rfl := Archive.entries_unique hg.wellFormed hroot packs collected' read'
  have hg₁ := tame.guarded hg
  have there := moved.there
  rw [← Disk.lookupParent_spelled laid.output hg₁.output moved.way] at there
  exact ⟨moved.tame.guarded hg₁,
    ⟨h.path, h.files, h.measures.1.symm, h.measures.2.symm, hdigest.symm⟩,
    ⟨place, _, hroot, rfl, packs⟩, id, there⟩

/-- What is known of the output when the stages are done. Either the archive is there, or the archive
was not reached. -/
def Concluded (o : Outside) (s : Settings) (m : Machine) (r : Except Failure Report × Progress)
    (es : List (Request × Machine)) (m' : Machine) : Prop :=
  (r.2.workspace = none ∨ r.2.workspace = some ⟨s.workspace⟩) ∧ m'.disk.Guarded s ∧
    match r.1 with
    | .ok report => ∃ entries, Shipped s es entries m' ∧
        Describes s report.archive report.treeDigest entries
    | .error failure => (failure.stage = .reconcile → ∃ entries, Shipped s es entries m') ∧
        (failure.stage ≠ .reconcile → Fate o s.output s.output.names m es m')

section Stages

variable {α : Type} {limit : Option Nat} {stage : Stage} {work : Work α} {f : α → Steps Report}
  {p : Progress} {r : Except Failure Report × Progress}

theorem Concluded.after {es' : List (Request × Machine)} {m'' : Machine}
    (h : Concluded o s m' r es' m'') (fate : Fate o s.output s.output.names m es m') :
    Concluded o s m r (es ++ es') m'' := by
  obtain ⟨hp, hg, h⟩ := h
  have later {entries : List Zip.Entry} (h : Shipped s es' entries m'') :
      Shipped s (es ++ es') entries m'' := h.later (List.subset_append_right _ _) rfl
  refine ⟨hp, hg, ?_⟩
  cases hr : r.1 with
  | ok report =>
    rw [hr] at h
    obtain ⟨entries, shipped, describes⟩ := h
    exact ⟨entries, later shipped, describes⟩
  | error failure =>
    rw [hr] at h
    exact ⟨fun hs => (h.1 hs).imp fun _ => later, fun hs => fate.append (h.2 hs)⟩

theorem concluded_of_fate {cause : Error} {completed : List StageRecord}
    (hp : p.workspace = none ∨ p.workspace = some ⟨s.workspace⟩) (hs : stage ≠ .reconcile)
    (hg : m'.disk.Guarded s) (fate : Fate o s.output s.output.names m es m') :
    Concluded o s m (.error ⟨stage, cause, completed⟩, p) es m' :=
  ⟨hp, hg, fun h => (hs h).elim, fun _ => fate⟩

/-- A stage before the archive keeps the guard, and the run goes on or is concluded. -/
theorem stage_concluded {Q : α → Machine → Prop} (laid : s.Laid) (spares : o.Spares s)
    (hg : m.disk.Guarded s) (hp : p.workspace = none ∨ p.workspace = some ⟨s.workspace⟩)
    (hs : stage ≠ .reconcile) (hw : work.Only (Request.Before s))
    (hq : ∀ m₁ deadline, (work deadline).Ends (answer o) m₁ fun r _ m₂ =>
      ∀ a, r = .ok a → Q a m₂)
    (next : ∀ a p' m₁ m', p'.workspace = p.workspace → m'.disk.Guarded s → Q a m₁ → Same m₁ m' →
      (f a p').Ends (answer o) m' (Concluded o s m')) :
    ((Pipeline.stage limit stage work >>= f) p).Ends (answer o) m (Concluded o s m) := by
  obtain ⟨hg₁, fate₁⟩ := opening_fate laid spares hg stage
  refine ends_stage_bind (((before_run laid spares (hw _) hg₁).and (hq _ _)).mono ?_)
  rintro (stop | a) es m₁ ⟨⟨hg₂, fate₂⟩, hq⟩
  · exact concluded_of_fate hp hs hg₂ (fate₁.append fate₂)
  · intro duration
    obtain ⟨hg₃, fate₃⟩ := closing_fate laid spares hg₂ stage duration
    have rest := next a { p with
      state := .running stage
      completed := p.completed ++ [⟨stage, duration⟩] } m₁ _ rfl hg₃ (hq a rfl) ⟨rfl, rfl⟩
    exact rest.mono fun r es m' h => h.after ((fate₁.append fate₂).append fate₃)

/-- From the archive on, what is at the output is the archive. -/
theorem archive_concluded {startedAt : Nat} {wheel : Wheel} {treeDigest : String} (laid : s.Laid)
    (spares : o.Spares s) (hg : m.disk.Guarded s)
    (hp : p.workspace = none ∨ p.workspace = some ⟨s.workspace⟩)
    (digested : Archive.Digested m.disk m.cwd (⟨s.workspace⟩ : Workspace).target treeDigest) :
    ((do
      let archive ← Pipeline.stage limit .archive
        (Archive.write (⟨s.workspace⟩ : Workspace).target s.output)
      finish s Toolchain.outside startedAt ⟨s.workspace⟩ wheel treeDigest archive : Steps Report)
      p).Ends (answer o) m (Concluded o s m) := by
  obtain ⟨hg₁, fate₁⟩ := opening_fate laid spares hg .archive
  refine ends_stage_bind (((write_fate laid spares hg₁ _ _).and Archive.write_ends).mono ?_)
  rintro (stop | archive) es₁ m₁ ⟨failed, written⟩
  · obtain ⟨hg₂, fate₂⟩ := failed stop rfl
    exact concluded_of_fate hp (by simp) hg₂ (fate₁.append fate₂)
  intro duration
  obtain ⟨entries, archived⟩ := written archive rfl
  obtain ⟨hg₂, describes, ⟨place, tree, hroot, hd, packs⟩, there⟩ :=
    shipped_of_archived laid hg₁ archived digested
  have shipped : Shipped s (opening (answer o) .archive m ++ es₁) entries m₁ :=
    ⟨⟨m, place, tree, by simp [opening], hroot, hd, packs⟩, there⟩
  have aside := only_finish s startedAt ⟨s.workspace⟩ wheel treeDigest archive
    { p with
      state := .running .archive
      completed := p.completed ++ [⟨.archive, duration⟩] } (fun _ _ => .log _ _)
    (fun _ h => .quiet h) fun call _ => only_perform fun deadline =>
      Request.Aside.collaborate (s := s) call deadline
  have after : (afterWork (answer o) .archive duration m₁).disk.Guarded s := hg₂
  refine Ends.mono (finish_ends.and (aside_run laid spares aside after)) ?_
  rintro ⟨r, p'⟩ es₂ m₂ ⟨⟨hp', hr⟩, hg₃, hl⟩
  have shipped : Shipped s (opening (answer o) .archive m ++ es₁ ++
      closing (answer o) .archive duration m₁ ++ es₂) entries m₂ :=
    shipped.later (List.Subset.trans (List.subset_append_left _ _) (List.subset_append_left _ _)) hl
  refine ⟨hp' ▸ hp, hg₃, ?_⟩
  cases r with
  | ok report => exact ⟨entries, shipped, by rwa [hr.1, hr.2.1]⟩
  | error failure => exact ⟨fun _ => ⟨entries, shipped⟩, fun hs => (hs hr).elim⟩

end Stages

theorem stages_concluded (laid : s.Laid) (spares : o.Spares s) (hg : m.disk.Guarded s)
    (startedAt : Nat) (previous : RunState) :
    (stages s Toolchain.outside startedAt { state := previous }).Ends (answer o) m
      (Concluded o s m) := by
  have quiet : ∀ q, q.Quiet → Request.Before s q := fun _ h => h.before
  have called (call : Call) (deadline : Option Nat) :
      Request.Before s (.collaborate call deadline) := .inl (.collaborate _ _)
  refine stage_concluded (Q := fun workspace _ => workspace = ⟨s.workspace⟩) laid spares hg
    (.inl rfl) (by simp) ((only_clean s).mono fun _ h => h.before)
    (fun _ _ => (clean_yields s).ends) ?_
  rintro _ p m₁ m' - hg rfl -
  refine Steps.ends_bind.mpr (Steps.ends_update.mpr ?_)
  refine stage_concluded (Q := fun _ _ => True) laid spares hg (.inr rfl) (by simp)
    (only_buildWheel s quiet (only_perform fun deadline => called _ deadline)) (fun _ _ _ _ => trivial) ?_
  rintro wheel p m₁ m' hp hg - -
  refine stage_concluded laid spares hg (.inr hp) (by simp)
    (only_install s _ wheel quiet (fun p _ => .inr (.inl ⟨p, rfl⟩))
      (only_perform fun deadline => called _ deadline))
    (fun _ deadline => install_ends s _ wheel deadline) ?_
  rintro treeDigest p m₁ m' hp' hg digested same
  rw [← same.disk, ← same.cwd] at digested
  exact archive_concluded laid spares hg (.inr (hp'.trans hp)) digested

/-- If the first stage has not failed, there is no old archive any more. -/
theorem stages_removed (laid : s.Laid) (spares : o.Spares s) (honest : o.Honest)
    (hg : m.disk.Guarded s) (startedAt : Nat) (previous : RunState) :
    (stages s Toolchain.outside startedAt { state := previous }).Ends (answer o) m fun r es _ =>
      (∀ failure, r.1 = .error failure → failure.stage ≠ .clean) →
        m.disk.get? s.output.names = none ∨ Unlinked o s.output es := by
  refine ends_stage_bind ((clean_ends laid spares (m := atWork (answer o) .clean m) hg _).mono ?_)
  rintro (stop | workspace) es m₁ removed
  · exact fun h => (h _ rfl rfl).elim
  · refine fun duration => Ends.mono (Q := fun _ _ _ => True) trivial fun r es' m' _ _ => ?_
    obtain ⟨before, he, hr⟩ | hn := ((removed workspace rfl).2 honest).symm
    · exact .inr ⟨before, by simp [he], hr⟩
    · exact .inl hn

end Pipeline

end LayerPack
