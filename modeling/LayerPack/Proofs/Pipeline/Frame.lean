import LayerPack.Proofs.Disk.Decide
import LayerPack.Proofs.Pipeline.Leftovers
import LayerPack.Proofs.Pipeline.Passage

/-! The frame of a run. Wherever a run ends, it has changed nothing outside of its workspace, the
directory of wheels and the output, but for missing directories above them; and the hidden file of
the archive is gone. For that the collaborators must not put a link above what the run is still to
write to. -/
namespace LayerPack

open Program Machine

variable {s : Settings} {o : Outside} {m m' m'' : Machine} {es es' : List (Request × Machine)}

namespace Disk

variable {d d' : Disk} {cwd : Place} {p : Path} {names : List Name}

/-- No link stands at the place or below it. -/
def Plain (d : Disk) (place : Place) : Prop :=
  ∀ rest target, d.get? (place ++ rest) ≠ some (.link target)

theorem plain_of_none {place : Place} (h : d.get? place = none) : d.Plain place := fun rest target => by
  simp [get?_below_missing h rest]

/-- What is left of a tree that is removed is at most an empty directory. -/
theorem removeTree_plain {es : Entries} {place : Place} (wf : d.root.WellFormed) (hne : place ≠ [])
    (h : d.resolve cwd false p = .ok (place, .dir es)) : (d.removeTree cwd p).2.Plain place := by
  have hg : d.get? place = some (.dir es) := lookup_sound (resolve_ok.mp h)
  have emptied : (d.put place (.dir [])).Plain place := by
    intro rest target
    obtain ⟨parent, name, rfl⟩ := (List.eq_nil_or_concat place).resolve_left hne
    rw [List.concat_eq_append] at hg ⊢
    obtain ⟨up, hup⟩ := Node.dir_of_get?_append hg
    rw [get?_put_below hup]
    exact no_link_in_empty rest target
  unfold removeTree
  rw [h]
  dsimp only
  split
  · exact emptied
  next hop =>
    have wf' := (tame_replace hg .empty no_link_in_empty).wellFormed wf
    exact fun rest target ht => emptied rest target ((rmdir_tame hop).noNewLink wf' _ _ ht)

/-- After a removal no link is left of what stood there. -/
theorem Removed.plain (removed : d.Removed cwd (.ofNames names) d') (wf : d.root.WellFormed)
    (proper : ∀ name ∈ names, ProperName name) (hne : names ≠ []) (clear : d.root.NoLinkAbove names) :
    d'.Plain names := by
  cases removed with
  | missing seen same => exact same ▸ plain_of_none (missing_of_stat proper clear seen)
  | entry hop => exact plain_of_none (unlink_gone wf (.ofNames proper) clear hop).1
  | tree found lost same =>
    have there := resolve_ofNames cwd proper clear hne
    rw [found] at there
    obtain ⟨rfl, -⟩ := there
    exact same ▸ removeTree_plain wf hne found

end Disk

/-- After a removal that did not fail, no link is left of what stood there. -/
theorem Files.removePath_plain {names : List Name} (honest : o.Honest)
    (proper : ∀ name ∈ names, ProperName name) (hne : names ≠ []) (wf : m.disk.root.WellFormed)
    (clear : m.disk.root.NoLinkAbove names) :
    (removePath (.ofNames names)).Ends (answer o) m fun r _ m' =>
      ∀ removed, r = .ok removed → m'.disk.Plain names :=
  (removePath_removes honest).mono fun _ _ _ removes removed done =>
    (removes (.inl ⟨removed, done⟩)).1.plain wf proper hne clear

namespace Pipeline

/-- The paths that a run writes to before it has made its workspace, while it makes it, and
afterwards. -/
def outerWays (s : Settings) : List Path := [s.workspace, s.dist, s.output]

def cleanWays (s : Settings) : List Path := outerWays s ++
  [(⟨s.workspace⟩ : Workspace).dist, (⟨s.workspace⟩ : Workspace).target, s.installDir]

def innerWays (s : Settings) : List Path := [s.workspace, s.output, s.installDir]

theorem innerWays_sub (s : Settings) : innerWays s ⊆ cleanWays s := by
  simp [innerWays, cleanWays, outerWays]

theorem workspace_sub : [s.workspace] ⊆ innerWays s := by simp [innerWays]

/-- When nothing is left of the old workspace, all ways into the new one are open. -/
theorem open_cleanWays (placed : s.Placed) {d : Disk} (h : d.Open (outerWays s))
    (plain : d.Plain s.workspace.names) : d.Open (cleanWays s) := by
  refine ⟨h.wellFormed, fun p hp => ?_⟩
  rcases List.mem_append.mp hp with hp | hp
  · exact h.clear p hp
  obtain ⟨-, inside⟩ := placed.inside p hp
  intro above target hu hne ht
  rcases List.prefix_or_prefix_of_prefix inside hu with ⟨rest, rfl⟩ | hw
  · exact plain rest target ht
  · by_cases he : above = s.workspace.names
    · refine plain [] target ?_
      rwa [List.append_nil, ← he]
    · exact h.clear s.workspace (by simp [outerWays]) above target hw he ht

theorem cleans_passes (laid : s.Laid) (placed : s.Placed) {q : Request} (hq : q.Cleans s) :
    q.Passes s o (Disk.Open (cleanWays s)) := by
  rcases hq with h | h | h | ⟨-, h⟩ | rfl
  · exact h.passes laid (by simp [cleanWays, outerWays])
  · exact h.passes (by simp [cleanWays]) (placed.way (by simp))
  · exact h.passes (by simp [cleanWays]) (placed.way (by simp))
  · exact h.passes (by simp [cleanWays, outerWays]) (laid.way placed (by simp))
  · exact Request.passes_unlink (by simp) (by simp [cleanWays, outerWays]) laid.output

section Clean

variable (laid : s.Laid) (placed : s.Placed) (honest : o.Honest)

include laid placed honest

/-- The removal of the old workspace opens the ways into the new one. -/
theorem wiping_passage (deadline : Option Nat) :
    (Work.await (Files.removePath s.workspace) deadline).Ends (answer o) m fun r es m' =>
      Passage s o (Disk.Open (outerWays s)) (Disk.Open (outerWays s)) m es m' ∧
        ∀ removed, r = .ok (.ok removed) →
          Passage s o (Disk.Open (outerWays s)) (Disk.Open (cleanWays s)) m es m' := by
  have removes : (Work.await (Files.removePath s.workspace)).Only
      (Request.Passes s o (Disk.Open (outerWays s))) := by
    refine Work.Only.await (Request.Quiet.passes trivial) ((Files.only_removePath _).mono ?_)
    exact fun q h => h.passes laid (by simp [outerWays])
  have plain : m.disk.Open (outerWays s) →
      (Work.await (Files.removePath s.workspace) deadline).Ends (answer o) m fun r _ m' =>
        ∀ removed, r = .ok (.ok removed) → m'.disk.Plain s.workspace.names := by
    intro open_
    refine ends_await (fun _ _ _ _ h => by cases h) fun m₁ same => ?_
    rw [← same.disk] at open_
    have wiped := Files.removePath_plain honest laid.workspace.proper laid.notRoot open_.wellFormed
      (open_.clear s.workspace (by simp [outerWays]))
    rw [← laid.written.1] at wiped
    refine wiped.mono fun r _ m₂ plain es' m₃ _ same' => ⟨?_, fun _ h => by cases h⟩
    intro removed h
    rw [same'.disk]
    exact plain removed (Except.ok.inj h)
  refine (passage_run (removes deadline)).and ?_
  intro removed h
  have tried := passage_run (m := m) (removes deadline)
  refine ⟨tried.unopened, fun behaves open_ => ?_⟩
  obtain ⟨open', framed⟩ := tried.kept behaves open_
  exact ⟨open_cleanWays placed open' (plain open_ removed h), framed⟩

theorem prepare_passage (deadline : Option Nat) :
    (Workspace.prepare s.workspace deadline).Ends (answer o) m fun r es m' =>
      Passage s o (Disk.Open (outerWays s)) (Disk.Open [s.workspace]) m es m' ∧
        ∀ workspace, r = .ok workspace →
          Passage s o (Disk.Open (outerWays s)) (Disk.Open (cleanWays s)) m es m' := by
  rw [Workspace.prepare_eq]
  refine Work.ends_bind.mpr ((wiping_passage laid placed honest deadline).mono ?_)
  have outer (d : Disk) (h : d.Open (outerWays s)) : d.Open [s.workspace] :=
    h.mono (by simp [outerWays])
  rintro (stop | removed) es m₁ ⟨tried, wiped⟩
  · exact ⟨tried.weaken outer, fun _ h => by cases h⟩
  cases removed with
  | error e =>
    refine ⟨?_, fun _ h => by cases h⟩
    change Passage _ _ _ _ m (es ++ []) m₁
    rw [List.append_nil]
    exact tried.weaken outer
  | ok removed =>
    have furnishes : (Workspace.furnish s.workspace (.ok removed)).Only
        (Request.Passes s o (Disk.Open (cleanWays s))) :=
      Workspace.only_furnish _ _ (fun _ h => cleans_passes laid placed (.inr (.inl h)))
        fun _ h => cleans_passes laid placed (.inr (.inr (.inl h)))
    refine (passage_run (furnishes deadline)).mono fun r es' m₂ furnished => ?_
    have passage := (wiped removed rfl).append furnished
    exact ⟨passage.weaken fun d h => h.mono (by simp [cleanWays, outerWays]), fun _ _ => passage⟩

/-- If the first stage succeeds, all ways that are left are open. -/
theorem clean_passage (deadline : Option Nat) :
    (clean s deadline).Ends (answer o) m fun r es m' =>
      Passage s o (Disk.Open (outerWays s)) (Disk.Open [s.workspace]) m es m' ∧
        ∀ workspace, r = .ok workspace → workspace = ⟨s.workspace⟩ ∧
          Passage s o (Disk.Open (outerWays s)) (Disk.Open (innerWays s)) m es m' := by
  have rest (workspace : Workspace) : (do
      makeDist s
      removeStaleArchive s.output
      return workspace : Work Workspace).Only (Request.Passes s o (Disk.Open (cleanWays s))) :=
    ((makeDist_cleans s).mono fun _ h => cleans_passes laid placed h).bind fun _ =>
      ((removeStaleArchive_cleans s).mono fun _ h => cleans_passes laid placed h).bind fun _ =>
        Work.only_pure _
  have passages : (clean s deadline).Ends (answer o) m fun r es m' =>
      Passage s o (Disk.Open (outerWays s)) (Disk.Open [s.workspace]) m es m' ∧
        ∀ workspace, r = .ok workspace →
          Passage s o (Disk.Open (outerWays s)) (Disk.Open (innerWays s)) m es m' := by
    refine Work.ends_bind.mpr ((prepare_passage laid placed honest deadline).mono ?_)
    rintro (stop | workspace) es m₁ ⟨tried, prepared⟩
    · exact ⟨tried, fun _ h => by cases h⟩
    refine (passage_run (rest workspace deadline)).mono fun r es' m₂ cleaned => ?_
    have passage := ((prepared workspace rfl).append cleaned).weaken fun d h =>
      h.mono (innerWays_sub s)
    exact ⟨passage.weaken fun d h => h.mono workspace_sub, fun _ _ => passage⟩
  refine (passages.and (clean_yields s).ends).mono fun r es m' ⟨⟨tried, cleaned⟩, yields⟩ => ?_
  exact ⟨tried, fun workspace h => ⟨yields workspace h, cleaned workspace h⟩⟩

end Clean

/-- If the collaborators behave, nothing has changed but what the run owns, and every file that was
opened is gone. -/
def Conserved (s : Settings) (o : Outside) (G : Disk → Prop) (m : Machine)
    (es : List (Request × Machine)) (m' : Machine) : Prop :=
  o.Behaves s es → G m.disk → m'.disk.Open [s.workspace] ∧ Framed s o m es m' ∧
    ∀ place, Opens o place es → ¬ o.Meddles place es → m'.disk.get? place = none

section Conserved

variable {G G' : Disk → Prop}

theorem conserved_of_passage (h : Passage s o G (Disk.Open [s.workspace]) m es m') :
    Conserved s o G m es m' := fun behaves hg =>
  let ⟨open_, framed⟩ := h.kept behaves hg
  ⟨open_, framed, fun place opened => (h.unopened place opened).elim⟩

theorem Conserved.before (h' : Conserved s o G' m' es' m'') (h : Passage s o G G' m es m') :
    Conserved s o G m (es ++ es') m'' := by
  intro behaves hg
  obtain ⟨hg', framed⟩ := h.kept (behaves.mono (List.subset_append_left _ _)) hg
  obtain ⟨open_, framed', gone⟩ := h' (behaves.mono (List.subset_append_right _ _)) hg'
  refine ⟨open_, framed.append framed', fun place opened alone => ?_⟩
  refine gone place ((opens_append.mp opened).resolve_left (h.unopened place)) fun hm => alone ?_
  exact hm.mono (List.subset_append_right _ _)

theorem Conserved.after (h : Conserved s o G m es m') (h' : Retreat s o m' es' m'') :
    Conserved s o G m (es ++ es') m'' := by
  intro behaves hg
  have later := behaves.mono (List.subset_append_right _ _)
  obtain ⟨open_, framed, gone⟩ := h (behaves.mono (List.subset_append_left _ _)) hg
  obtain ⟨open', framed'⟩ := h'.passage.kept later open_
  refine ⟨open', framed.append framed', fun place opened alone => ?_⟩
  have opened := (opens_append.mp opened).resolve_right (h'.passage.unopened place)
  refine h'.sheds later open_ place (gone place opened fun hm => alone ?_) fun hm => alone ?_
  · exact hm.mono (List.subset_append_left _ _)
  · exact hm.mono (List.subset_append_right _ _)

end Conserved

section Archive

variable (laid : s.Laid) (placed : s.Placed)

include laid

theorem deliver_conserved (root : Path) (files : List Path) (deadline : Option Nat) :
    (Archive.deliver root s.output files deadline).Ends (answer o) m fun _ es m' =>
      Conserved s o (Disk.Open (innerWays s)) m es m' := by
  intro _ open_
  have start (target : Bytes) : m.disk.get? [] ≠ some (.link target) :=
    open_.clear s.workspace (by simp [innerWays]) [] target (List.nil_prefix) laid.notRoot.symm
  have delivers : (Archive.deliver root s.output files deadline).Ends (answer o) m fun _ es m' =>
      Archive.Residue o s.output.names m es m' :=
    Archive.deliver_residue laid.output laid.written.2 open_.wellFormed
      (open_.clear s.output (by simp [innerWays])) start deadline
  obtain ⟨tame, frame, gone⟩ := delivers
  refine ⟨tame.open (open_.mono workspace_sub), fun place aside alone => .inl ?_,
    fun place opened alone => gone place opened fun refused => alone (.inr refused)⟩
  exact frame place (fun h => aside ⟨s.output, by simp, h⟩) fun refused => alone (.inr refused)

include placed

theorem write_conserved (root : Path) (deadline : Option Nat) :
    (Archive.write root s.output deadline).Ends (answer o) m fun _ es m' =>
      Conserved s o (Disk.Open (innerWays s)) m es m' := by
  have prepares : (Archive.prepare root s.output).Only
      (Request.Passes s o (Disk.Open (innerWays s))) :=
    Archive.only_prepare root s.output (fun _ h => h.passes) fun _ higher =>
      Request.passes_mkdir (by simp [innerWays]) (laid.way placed (by simp)) higher.above
  refine Work.ends_bind.mpr ((passage_run (prepares deadline)).mono fun r es₁ m₁ prepared => ?_)
  cases r with
  | error stop => exact conserved_of_passage (prepared.weaken fun d h => h.mono workspace_sub)
  | ok files =>
  refine Work.ends_bind.mpr ((deliver_conserved laid root files deadline).mono fun r es₂ m₂ h => ?_)
  cases r with
  | error stop => exact h.before prepared
  | ok measured =>
  refine Work.ends_bind.mpr (Work.ends_now.mpr (ends_request.mpr ?_))
  refine (h.after ?_).before prepared
  exact Request.retreats_log _ _ m₂

end Archive

/-- What is known of a run that has ended with its stages. -/
def Ended (s : Settings) (o : Outside) (G : Disk → Prop) (m : Machine)
    (r : Except Failure Report × Progress) (es : List (Request × Machine)) (m' : Machine) : Prop :=
  (r.2.workspace = none ∨ r.2.workspace = some ⟨s.workspace⟩) ∧ Conserved s o G m es m'

section Stages

variable {α : Type} {limit : Option Nat} {stage : Stage} {work : Work α} {f : α → Steps Report}
  {p : Progress} {G G' : Disk → Prop}

theorem opening_passage (stage : Stage) :
    Passage s o G G m (opening (answer o) stage m) (atWork (answer o) stage m) :=
  have asks : ((request (.log .info stage.announcement)).bind fun _ => request .clock).Only
      (Request.Passes s o G) := ⟨Request.passes_log _ _, fun _ => ⟨Request.Quiet.passes trivial, fun _ => trivial⟩⟩
  passage_run asks

theorem closing_passage (stage : Stage) (duration : Nat) :
    Passage s o G G m (closing (answer o) stage duration m)
      (afterWork (answer o) stage duration m) :=
  have asks : ((request .clock).bind fun _ => request (.log .debug (stage.completion duration))).Only
      (Request.Passes s o G) := ⟨Request.Quiet.passes trivial, fun _ => ⟨Request.passes_log _ _, fun _ => trivial⟩⟩
  passage_run asks

theorem closing_retreat (stage : Stage) (duration : Nat) :
    Retreat s o m (closing (answer o) stage duration m) (afterWork (answer o) stage duration m) :=
  have asks : ((request .clock).bind fun _ => request (.log .debug (stage.completion duration))).Only
      (Request.Retreats s o) :=
    ⟨Request.Quiet.retreats trivial, fun _ => ⟨Request.retreats_log _ _, fun _ => trivial⟩⟩
  retreat_run asks

/-- A stage before the archive is a passage, and so is what comes before and after its work. -/
theorem stage_ended {Q : α → Prop} (hp : p.workspace = none ∨ p.workspace = some ⟨s.workspace⟩)
    (hw : ∀ m deadline, (work deadline).Ends (answer o) m fun r es m' =>
      Passage s o G (Disk.Open [s.workspace]) m es m' ∧
        ∀ a, r = .ok a → Q a ∧ Passage s o G G' m es m')
    (next : ∀ a p' m, Q a → p'.workspace = p.workspace →
      (f a p').Ends (answer o) m (Ended s o G' m)) :
    ((Pipeline.stage limit stage work >>= f) p).Ends (answer o) m (Ended s o G m) := by
  refine ends_stage_bind ((hw _ _).mono ?_)
  rintro (stop | a) es m₁ ⟨tried, done⟩
  · exact ⟨hp, conserved_of_passage ((opening_passage stage).append tried)⟩
  · intro duration
    obtain ⟨hq, passage⟩ := done a rfl
    have rest := next a { p with
      state := .running stage
      completed := p.completed ++ [⟨stage, duration⟩] } (afterWork (answer o) stage duration m₁) hq rfl
    refine rest.mono fun r es' m' ⟨hp', conserved⟩ => ⟨hp', conserved.before ?_⟩
    exact ((opening_passage stage).append passage).append (closing_passage stage duration)

/-- Work whose requests are passages can be the work of a stage. -/
theorem passage_work (hw : work.Only (Request.Passes s o (Disk.Open (innerWays s)))) (m : Machine)
    (deadline : Option Nat) : (work deadline).Ends (answer o) m fun r es m' =>
      Passage s o (Disk.Open (innerWays s)) (Disk.Open [s.workspace]) m es m' ∧
        ∀ a, r = .ok a →
          True ∧ Passage s o (Disk.Open (innerWays s)) (Disk.Open (innerWays s)) m es m' :=
  (passage_run (hw deadline)).mono fun _ _ _ passage =>
    ⟨passage.weaken fun _ h => h.mono workspace_sub, fun _ _ => ⟨trivial, passage⟩⟩

variable (laid : s.Laid) (placed : s.Placed)

include laid placed

/-- From the archive on, a run only looks around and asks for changes of the environment. -/
theorem archive_ended {startedAt : Nat} {wheel : Wheel} {treeDigest : String}
    (hp : p.workspace = none ∨ p.workspace = some ⟨s.workspace⟩) :
    ((do
      let archive ← Pipeline.stage limit .archive
        (Archive.write (⟨s.workspace⟩ : Workspace).target s.output)
      finish s Toolchain.outside startedAt ⟨s.workspace⟩ wheel treeDigest archive : Steps Report)
      p).Ends (answer o) m (Ended s o (Disk.Open (innerWays s)) m) := by
  refine ends_stage_bind ((write_conserved laid placed _ _).mono ?_)
  rintro (stop | archive) es₁ m₁ written
  · exact ⟨hp, written.before (opening_passage .archive)⟩
  intro duration
  have asks := only_finish s startedAt ⟨s.workspace⟩ wheel treeDigest archive
    { p with
      state := .running .archive
      completed := p.completed ++ [⟨.archive, duration⟩] } (K := Request.Retreats s o)
    (fun _ _ => Request.retreats_log _ _) (fun _ h => h.retreats)
    fun call h => only_perform fun _ => Request.retreats_environment h
  refine Ends.mono (finish_ends.and (retreat_run asks)) ?_
  rintro ⟨r, p'⟩ es₂ m₂ ⟨⟨hp', -⟩, finished⟩
  refine ⟨hp' ▸ hp, ?_⟩
  exact ((written.before (opening_passage .archive)).after (closing_retreat .archive duration)).after
    finished

theorem stages_ended (honest : o.Honest) (startedAt : Nat) (previous : RunState) :
    (stages s Toolchain.outside startedAt { state := previous }).Ends (answer o) m
      (Ended s o (Disk.Open (outerWays s)) m) := by
  have quiet (q : Request) (h : q.Quiet) : q.Passes s o (Disk.Open (innerWays s)) := h.passes
  refine stage_ended (.inl rfl) (fun _ deadline => clean_passage laid placed honest deadline) ?_
  rintro _ p m₁ rfl -
  refine Steps.ends_bind.mpr (Steps.ends_update.mpr ?_)
  refine stage_ended (.inr rfl) (passage_work (only_buildWheel s quiet
    (only_perform fun _ => Request.passes_build))) ?_
  rintro wheel p m₂ - hp
  refine stage_ended (.inr hp) (passage_work (only_install s _ wheel quiet
    (fun up above => Request.passes_mkdir (by simp [innerWays, Settings.installDir])
      (placed.way (by simp [Settings.installDir])) above)
    (only_perform fun _ => Request.passes_installInto laid placed wheel.path))) ?_
  rintro treeDigest p m₃ - hp'
  exact archive_ended laid placed (.inr (hp'.trans hp))

end Stages

/-- A run changes nothing outside of its workspace, the directory of wheels and the output, wherever it
ends: it makes missing directories above them, and all else that has changed has been changed by the
environment. Every file that it has opened for writing has left its place at the end, unless its
removal was refused. The collaborators must behave for that: they must put no link above what the run
is still to write to. -/
theorem run_frame (accepted : s.Accepted) (honest : o.Honest)
    (open_ : m.disk.Open [s.workspace, s.dist, s.output]) (previous : RunState) :
    (run s Toolchain.outside previous).Ends (answer o) m fun _ es m' => o.Behaves s es →
      (∀ place, ¬ s.Owns place → ¬ o.Meddles place es → m.disk.LeftAt s place m'.disk) ∧
        ∀ place, Opens o place es → ¬ o.Meddles place es → m'.disk.get? place = none := by
  have laid := accepted.laid
  have clock : Passage s o (Disk.Open (outerWays s)) (Disk.Open (outerWays s)) m [(.clock, m)]
      (answer o .clock m).2 := Request.Quiet.passes (q := .clock) trivial m
  refine ends_run ((stages_ended laid accepted.placed honest _ previous).mono ?_)
  rintro ⟨result, p⟩ es m₁ ⟨hp, conserved⟩
  have cleaned : (cleanUp s p.workspace).Ends (answer o) m₁ fun _ es₁ m₂ => Retreat s o m₁ es₁ m₂ := by
    obtain hp | hp : p.workspace = none ∨ p.workspace = some ⟨s.workspace⟩ := hp
    · rw [hp]
      exact retreat_run trivial
    · rw [hp]
      exact retreat_run (only_cleanUp s _ (fun _ _ => Request.retreats_log _ _)
        fun _ h => h.retreats laid)
  refine cleaned.mono fun _ es₁ m₂ cleaned => ?_
  have logged := retreat_run (o := o) (m := m₂) (only_logOutcome result (K := Request.Retreats s o)
    fun _ _ => Request.retreats_log _ _)
  refine logged.mono fun _ es₂ m₃ logged behaves => ?_
  have whole : Conserved s o (Disk.Open (outerWays s)) m ([(.clock, m)] ++ (es ++ (es₁ ++ es₂))) m₃ :=
    (conserved.after (cleaned.append logged)).before clock
  exact (whole behaves open_).2

/-- A builder that leaves one wheel. -/
def wheelwright : Outside :=
  .stocking [(Bytes.ofString "small-1-py3-none-any.whl", .file 0 0o644 .empty)]

set_option maxRecDepth 100000 in
/-- The source tree of a small run is as it was, and its hidden file is gone. -/
theorem small_run_keeps_aside : (Settings.small "/work" "/out.zip").Accepted ∧
    (Machine.small []).disk.Open [.ofString "/work", .ofString "/work/dist", .ofString "/out.zip"] ∧
    (run (.small "/work" "/out.zip") Toolchain.outside .pending).Ends (answer wheelwright)
      (.small []) fun r es m' => r.1.isOk ∧ wheelwright.Behaves (.small "/work" "/out.zip") es ∧
        (∀ place, ¬ (Settings.small "/work" "/out.zip").Owns place →
          (Machine.small []).disk.LeftAt (.small "/work" "/out.zip") place m'.disk) ∧
        ∀ place, Opens wheelwright place es → m'.disk.get? place = none := by
  have accepted : (Settings.small "/work" "/out.zip").Accepted :=
    ⟨.small "/work" "/out.zip", .small [], .small [], by decide +kernel⟩
  have open_ : (Machine.small []).disk.Open
      [.ofString "/work", .ofString "/work/dist", .ofString "/out.zip"] :=
    ⟨by decide +kernel, by decide +kernel⟩
  have honest : wheelwright.Honest := fun _ h => by cases h
  have confined : wheelwright.Confined := Outside.stocking_confined _
  have evaluated : (run (.small "/work" "/out.zip") Toolchain.outside .pending).Ends
      (answer wheelwright) (.small []) fun r es _ => r.1.isOk ∧ wheelwright.KeepsForm es ∧
        ∀ e ∈ es, ∀ p ∈ [Path.ofString "/work", .ofString "/out.zip",
            (Settings.small "/work" "/out.zip").installDir],
          e.2.disk.KeepsClear p (answer wheelwright e.1 e.2).2.disk := by
    unfold Ends
    decide +kernel
  refine ⟨accepted, open_, ((run_frame accepted honest open_ .pending).and evaluated).mono ?_⟩
  rintro r es m' ⟨framed, returned, form, clear⟩
  have behaves : wheelwright.Behaves (.small "/work" "/out.zip") es := confined.behaves form clear
  obtain ⟨left, gone⟩ := framed behaves
  have alone (place : Place) : ¬ wheelwright.Meddles place es :=
    confined.not_meddles fun _ => rfl
  exact ⟨returned, behaves, fun place aside => left place aside (alone place),
    fun place opened => gone place opened (alone place)⟩

/-- A workspace below the directory of wheels. -/
def nested : Settings := { Settings.small "/dist/d/work" "/out.zip" with dist := .ofString "/dist" }

/-- A builder that leaves nothing but a link. -/
def linker : Outside := .stocking [(Bytes.ofString "d", .link (Bytes.ofString "/other"))]

/-- A directory of the name of the workspace, to which the link will lead. -/
def other : Machine := .small [("other", .dir [(Bytes.ofString "work", .dir [])])]

set_option maxRecDepth 100000 in
/-- If the workspace lies in the directory of wheels, a builder that keeps to this directory can put a
link above the workspace. Then the run removes what the link leads to. -/
theorem linked_workspace_reaches_out : nested.Accepted ∧ linker.Confined ∧
    (∀ tick, linker.fault tick = none) ∧
    other.disk.Open [nested.workspace, nested.dist, nested.output] ∧
    (run nested Toolchain.outside .pending).Ends (answer linker) other fun r _ m' =>
      (∃ failure, r.1 = .error failure ∧ failure.stage = .build) ∧
      ∃ place, ¬ nested.Owns place ∧ other.disk.look place = some (.dir []) ∧
        m'.disk.get? place = none := by
  have accepted : nested.Accepted :=
    ⟨{ Options.small "/dist/d/work" "/out.zip" with dist := some (.ofString "/dist") }, .small [],
      .small [], by decide +kernel⟩
  have evaluated : (run nested Toolchain.outside .pending).Ends (answer linker) other fun r _ m' =>
      r.1.mapError (·.stage) = .error .build ∧
        m'.disk.get? [Bytes.ofString "other", Bytes.ofString "work"] = none := by
    unfold Ends
    decide +kernel
  refine ⟨accepted, Outside.stocking_confined _, fun _ => rfl,
    ⟨by decide +kernel, by decide +kernel⟩, evaluated.mono ?_⟩
  rintro ⟨failure | _, state⟩ es m' ⟨hs, gone⟩
  case ok => cases hs
  refine ⟨⟨failure, rfl, Except.error.inj hs⟩,
    [Bytes.ofString "other", Bytes.ofString "work"], ?_, ?_, gone⟩
  · decide +kernel
  · decide +kernel

end Pipeline

end LayerPack
