import LayerPack.Proofs.Pipeline.Course
import LayerPack.Proofs.Pipeline.Emptied
import LayerPack.Proofs.Pipeline.Renewal
import LayerPack.Proofs.Settings.Acceptance

/-! The directory of wheels when the builder is called. The first stage makes it if it lies outside of the
workspace; within the workspace there are only the directories that every workspace is made with, and
they hold nothing else. So the directory of wheels is there for every place outside, and within the
workspace only if it is one of these, unless a link on its way has been dropped as an old archive. -/
namespace LayerPack

open Program Machine

variable {s : Settings} {o : Outside} {m m' : Machine} {es es' : List (Request × Machine)}

namespace Disk

variable {d d' : Disk} {cwd place : Place} {p q : Path} {names : List Name} {known : List (List Name)}

/-- In the directory that the path leads to, if it leads to one, nothing stands but at these places. -/
def Holds (d : Disk) (p : Path) (known : List (List Name)) : Prop :=
  ∀ place, d.LeadsTo p place → ∀ rest node, d.get? (place ++ rest) = some node → rest ∈ known

theorem holds_of_missing (hp : p.isAbsolute) (missing : ∀ found, d.resolve cwd false p ≠ .ok found) :
    d.Holds p known := fun _ leads => (not_leadsTo_of_missing hp missing leads).elim

/-- What goes on from the path by names holds what the path holds there. -/
theorem Holds.below (h : d.Holds q known) (bare : d.Bare q) (extends_ : Extends q p names)
    (hq : q.isAbsolute) (leads : d.LeadsTo p place) {rest : List Name} {node : Node}
    (hg : d.get? (place ++ rest) = some node) : node.isDir = true ∧ names ++ rest ∈ known := by
  obtain ⟨dest, up, below⟩ := extends_.leadsTo hq leads
  have hollow := bare dest up
  obtain rfl := below hollow
  rw [List.append_assoc] at hg
  exact ⟨hollow.dirs _ node hg, h dest up _ node hg⟩

/-- A directory is made on the way of the path, or it is one of those that are known in it. -/
theorem Holds.mkdir {made : Path} (h : d.Holds p known) (nil : [] ∈ known) (hm : made.isAbsolute)
    (proper : ∀ part ∈ p.parts, ProperName part)
    (along : made.parts <+: p.parts ∨ ∃ name, [name] ∈ known ∧ made.parts = p.parts ++ [name])
    (hop : d.mkdir cwd made = .ok d') : d'.Holds p known := by
  intro dest reached rest node hg
  by_cases there : ∃ place, d.LeadsTo p place
  · obtain ⟨place, there⟩ := there
    obtain rfl := reached.unique (there.keeps (mkdir_grows hop).keepsWays)
    by_cases hold : d.get? (dest ++ rest) = none
    case neg =>
      obtain ⟨old, ho⟩ := Option.ne_none_iff_exists'.mp hold
      exact h dest there rest old ho
    obtain ⟨front, name, parent, hparts, hn, -, up, missing, rfl⟩ := mkdir_way hm hop
    obtain ⟨es, he⟩ := up.dir
    -- What is new is the directory that has been made.
    have new : parent ++ [name] = dest ++ rest := by
      obtain ⟨more, hmore⟩ : parent ++ [name] <+: dest ++ rest := by
        by_contra hpre
        have same : (d.put (parent ++ [name]) (.dir [])).look (dest ++ rest) = none :=
          (look_put hpre).trans (Node.look_eq_none.mpr hold)
        cases (Node.look_eq_none.mp same).symm.trans hg
      rw [← hmore] at hg ⊢
      cases more with
      | nil => simp
      | cons => cases (get?_put_below he _).symm.trans hg
    obtain ⟨-, way⟩ := leadsTo_iff.mp there
    rcases along with ⟨more, hmore⟩ | ⟨known, hk, hmade⟩
    · -- On its way the path has led on.
      rw [← hmore, hparts, List.append_assoc, List.singleton_append] at way
      exact (up.not_of_missing hn missing way).elim
    · obtain ⟨rfl, hname⟩ := List.append_inj' (hparts.symm.trans hmade) rfl
      obtain rfl := up.unique way
      obtain rfl : [name] = rest := List.append_cancel_left new
      exact hname ▸ hk
  · have before : made.parts <+: p.parts ∨ p.parts <+: made.parts :=
      along.imp_right fun ⟨_, _, hparts⟩ => hparts ▸ List.prefix_append _ _
    obtain ⟨parent, name, es, he, rfl, rfl⟩ := led_by_mkdir hm proper before hop there reached
    have := (get?_put_below he rest).symm.trans hg
    cases rest with
    | nil => exact nil
    | cons => cases this

/-- A file or a link is removed anywhere. -/
theorem Holds.unlink {gone : Path} (h : d.Holds p known) (wf : d.root.WellFormed)
    (hop : d.unlink cwd gone = .ok d') : d'.Holds p known := by
  obtain ⟨parent, name, removed, -, -, -, rfl⟩ := unlink_ok hop
  intro place reached rest node hg
  have before := reached.keeps (erase_keepsWays wf (by simp))
  have kept : d.look (place ++ rest) = (d.erase (parent ++ [name])).look (place ++ rest) := by
    refine (look_erase fun hr => ?_).symm
    obtain ⟨more, hmore⟩ := hr
    rw [← hmore] at hg
    cases (get?_erase_below wf (by simp) more).symm.trans hg
  obtain ⟨old, ho, -⟩ : ∃ old, d.get? (place ++ rest) = some old ∧ old.face = node.face :=
    Option.map_eq_some_iff.mp (kept.trans (congrArg (Option.map Node.face) hg))
  exact h place before rest old ho

/-- Whoever removes a file takes no way away. -/
theorem unlink_keepsWays {gone : Path} (noLink : ∀ place target,
    d.resolve cwd false gone ≠ .ok (place, .link target)) (hop : d.unlink cwd gone = .ok d') :
    d.root.KeepsWays d'.root := by
  obtain ⟨parent, name, node, hparent, hg, hdir, rfl⟩ := unlink_ok hop
  have found := resolve_entry hparent
  rw [hg] at found
  cases node with
  | dir => cases hdir
  | link target => exact (noLink _ _ found).elim
  | file id mode content => exact (changedAt_erase d _).keepsWays (noWay_of_file hg)

end Disk

/-- A directory that is made along a path, where all else that is made there is known. -/
theorem Machine.holds_makes {p up : Path} {names : List Name} {known : List (List Name)} {name : Name}
    {q : Request} (h : q.Makes up) (spells : up.Spells names) (nil : [] ∈ known)
    (proper : ∀ part ∈ p.parts, ProperName part) (hup : up.parts = p.parts ++ [name])
    (hk : [name] ∈ known) (holds : m.disk.Holds p known) : (answer o q m).2.disk.Holds p known := by
  rcases h with h | ⟨made, above, rfl⟩
  · rw [(same_quiet h o m).disk]
    exact holds
  obtain ⟨front, -, hm⟩ := above.spells spells
  have along : made.parts <+: p.parts ∨ ∃ name, [name] ∈ known ∧ made.parts = p.parts ++ [name] := by
    have before := Disk.parts_of_above above
    rw [hup, List.prefix_concat_iff] at before
    exact before.symm.imp_right fun hparts => ⟨name, hk, hparts⟩
  rcases changed_mkdir o m made with ⟨-, hop, -⟩ | ⟨-, same⟩
  · exact holds.mkdir nil hm.absolute proper along hop
  · rw [same.disk]
    exact holds

namespace Workspace

/-- What a workspace is made with, by the names from its own directory. -/
def furniture : List (List Name) := [[], [Bytes.ofString "dist"], [Bytes.ofString "target"]]

theorem furnish_holds (laid : s.Laid) (holds : m.disk.Holds s.workspace furniture) (removed : Bool)
    (deadline : Option Nat) :
    (furnish s.workspace (.ok removed) deadline).Ends (answer o) m fun _ _ m' =>
      m'.disk.Holds s.workspace furniture := by
  have proper : ∀ part ∈ s.workspace.parts, ProperName part :=
    laid.workspace_parts ▸ laid.workspace.proper
  refine furnish_inv (I := fun m : Machine => m.disk.Holds s.workspace furniture) holds ?_ _ deadline
  intro child hc q m h holds
  have hn := properName_child hc
  have parts : (s.workspace.child child).parts = s.workspace.parts ++ [child] := by
    rw [laid.child_parts hn, laid.workspace_parts]
  exact holds_makes h (laid.workspace.child hn) (by simp [furniture]) proper parts
    (by simpa [furniture] using hc) holds

end Workspace

namespace Settings

/-- The disk is well formed, and the workspace is as it has been made. -/
structure Fresh (s : Settings) (d : Disk) : Prop where
  form : d.root.WellFormed
  bare : d.Bare s.workspace
  holds : d.Holds s.workspace Workspace.furniture

/-- The directory of wheels is one that the first stage makes. -/
def DistMade (s : Settings) : Prop :=
  s.distInWorkspace = true → ∃ made ∈ Workspace.furniture, s.dist.names = s.workspace.names ++ made

/-- No old archive that has been dropped was a link. -/
def DropsNoLink (s : Settings) (es : List (Request × Machine)) : Prop :=
  ∀ e ∈ es, e.1 = .unlink s.output → ∀ place target,
    e.2.disk.resolve e.2.cwd false s.output ≠ .ok (place, .link target)

theorem DropsNoLink.mono (h : s.DropsNoLink es') (sub : es ⊆ es') : s.DropsNoLink es :=
  fun e he => h e (sub he)

/-- If the directories of the workspace are there, so is that of the wheels if it is one of them. -/
theorem DistMade.leads (accepted : s.Accepted) (made : s.DistMade) (inside : s.distInWorkspace = true)
    {d : Disk} (there : ∀ p ∈ [(⟨s.workspace⟩ : Workspace).dist, s.tree], ∃ place, d.LeadsTo p place) :
    ∃ place, d.LeadsTo s.dist place := by
  have laid := accepted.laid
  have plain := (accepted.plain s.dist (by simp)).eq_ofNames
  have child {name : Name} (hn : ProperName name) :
      s.workspace.child name = .ofNames (s.workspace.names ++ [name]) := by
    have h := Path.child_ofNames laid.workspace.proper laid.notRoot hn
    rwa [← laid.written.1] at h
  obtain ⟨made, hm, hd⟩ := made inside
  simp only [Workspace.furniture, List.mem_cons, List.not_mem_nil, or_false] at hm
  rw [plain, hd]
  rcases hm with rfl | rfl | rfl
  · rw [List.append_nil, ← laid.written.1]
    obtain ⟨place, leads⟩ := there _ List.mem_cons_self
    obtain ⟨dest, up, -⟩ :=
      (laid.child_extends Workspace.properName_dist).leadsTo laid.workspace.absolute leads
    exact ⟨dest, up⟩
  · rw [← child Workspace.properName_dist]
    exact there (⟨s.workspace⟩ : Workspace).dist List.mem_cons_self
  · rw [← child Workspace.properName_target]
    exact there s.tree (List.mem_cons_of_mem _ List.mem_cons_self)

end Settings

/-- A workspace that has been prepared is new, and its directories are there. -/
theorem Workspace.prepare_fresh (accepted : s.Accepted) (honest : o.Honest)
    (wf : m.disk.root.WellFormed) (deadline : Option Nat) :
    (prepare s.workspace deadline).Ends (answer o) m fun r _ m' => ∀ workspace, r = .ok workspace →
      s.Fresh m'.disk ∧
        ∀ p ∈ [(⟨s.workspace⟩ : Workspace).dist, s.tree], ∃ place, m'.disk.LeadsTo p place := by
  have laid := accepted.laid
  have placed := accepted.placed
  have absolute := laid.workspace.absolute
  have furnished : (prepare s.workspace deadline).Ends (answer o) m fun r _ m' =>
      ∀ workspace, r = .ok workspace → (m'.disk.Bare s.workspace ∧
        m'.disk.Holds s.workspace furniture) ∧
        ∀ p ∈ [(⟨s.workspace⟩ : Workspace).dist, s.tree], ∃ place, m'.disk.LeadsTo p place := by
    refine prepare_ends laid honest wf fun m₁ removed vacated => ?_
    have bare := furnish_keeps_bare laid (Disk.bare_of_missing absolute vacated.missing) removed
      deadline (o := o)
    have holds := furnish_holds laid (Disk.holds_of_missing absolute vacated.missing) removed
      deadline (o := o)
    exact ((bare.and holds).and (furnish_leads placed removed deadline)).mono
      fun _ _ _ ⟨kept, leads⟩ workspace h => ⟨kept, leads workspace h⟩
  refine (furnished.and ((Pipeline.only_prepare s deadline).wellFormed (fun _ h => h.alone) wf)).mono ?_
  rintro r _ m' ⟨furnished, wf⟩ workspace h
  obtain ⟨⟨bare, holds⟩, leads⟩ := furnished workspace h
  exact ⟨⟨wf, bare, holds⟩, leads⟩

namespace Pipeline

/-- The directory of wheels is made if it lies outside, and a new workspace stays as it is. -/
theorem makeDist_leads (accepted : s.Accepted) (fresh : s.Fresh m.disk)
    (there : ∀ p ∈ [(⟨s.workspace⟩ : Workspace).dist, s.tree], ∃ place, m.disk.LeadsTo p place)
    (deadline : Option Nat) :
    (makeDist s deadline).Ends (answer o) m fun r _ m' => r = .ok () →
      (s.distInWorkspace = true → s.Fresh m'.disk) ∧
        (s.DistMade → ∃ place, m'.disk.LeadsTo s.dist place) := by
  unfold makeDist
  split
  next inside => exact fun _ => ⟨fun _ => fresh, fun made => made.leads accepted inside there⟩
  next outside =>
    refine Work.ends_bind.mpr (ends_await (fun _ _ _ h => by cases h) fun m₁ _ => ?_)
    refine (Files.makeDirs_leads accepted.placed.dist.absolute).mono ?_
    rintro made _ m₂ leads es m₃ - same
    refine ⟨Work.ends_ofExcept.mpr ?_, fun h => by cases h⟩
    cases made with
    | error e => exact fun h => by cases h
    | ok =>
      refine fun _ => ⟨fun inside => (outside inside).elim, fun _ => ?_⟩
      rw [same.disk]
      exact leads rfl

/-- When an old archive is dropped, a new workspace stays new, and no way is lost if it was no link. -/
theorem removeStaleArchive_keeps (deadline : Option Nat) :
    (removeStaleArchive s.output deadline).Ends (answer o) m fun _ es m' =>
      (s.Fresh m.disk → s.Fresh m'.disk) ∧
        (s.DropsNoLink es → m.disk.root.KeepsWays m'.disk.root) := by
  refine (only_removeStaleArchive s.output deadline).run_history (H := fun m es m' => (s.Fresh m.disk → s.Fresh m'.disk) ∧
    (s.DropsNoLink es → m.disk.root.KeepsWays m'.disk.root))
    (fun _ => ⟨id, fun _ => .refl _⟩) ?_ m
  rintro q m es m' hq ⟨fresh, keeps⟩
  have step : (s.Fresh m.disk → s.Fresh (answer o q m).2.disk) ∧
      (s.DropsNoLink ((q, m) :: es) → m.disk.root.KeepsWays (answer o q m).2.disk.root) := by
    rcases hq with hq | rfl
    · rw [(same_quiet hq o m).disk]
      exact ⟨id, fun _ => .refl _⟩
    · rcases changed_unlink o m s.output with ⟨-, hop, -⟩ | ⟨-, same⟩
      · refine ⟨fun fresh => ⟨?_, fresh.bare.unlink fresh.form hop, fresh.holds.unlink fresh.form hop⟩,
          fun noLink => ?_⟩
        · exact wellFormed_step _ (fun h => by cases h) fresh.form
        · exact Disk.unlink_keepsWays (noLink _ List.mem_cons_self rfl) hop
      · rw [same.disk]
        exact ⟨id, fun _ => .refl _⟩
  exact ⟨fresh ∘ step.1, fun noLink =>
    (step.2 noLink).trans (keeps (noLink.mono (List.subset_cons_self _ _)))⟩

/-- The directory of wheels after the first stage. -/
theorem clean_dist (accepted : s.Accepted) (honest : o.Honest) (wf : m.disk.root.WellFormed)
    (deadline : Option Nat) :
    (clean s deadline).Ends (answer o) m fun r es m' => ∀ workspace, r = .ok workspace →
      (s.distInWorkspace = true → s.Fresh m'.disk) ∧
        (s.DropsNoLink es → s.DistMade → ∃ place, m'.disk.LeadsTo s.dist place) := by
  refine Work.ends_bind.mpr ((Workspace.prepare_fresh accepted honest wf deadline).mono ?_)
  rintro (stop | workspace) es₁ m₁ prepared
  · exact fun _ h => by cases h
  obtain ⟨fresh, there⟩ := prepared workspace rfl
  refine Work.ends_bind.mpr ((makeDist_leads accepted fresh there deadline).mono ?_)
  rintro (stop | _) es₂ m₂ made
  · exact fun _ h => by cases h
  obtain ⟨fresh, leads⟩ := made rfl
  refine Work.ends_bind.mpr ((removeStaleArchive_keeps deadline).mono ?_)
  rintro (stop | _) es₃ m₃ ⟨stays, keeps⟩
  · exact fun _ h => by cases h
  refine fun _ _ => ⟨fun inside => stays (fresh inside), fun noLink made => ?_⟩
  obtain ⟨place, leads⟩ := leads made
  exact ⟨place, leads.keeps (keeps (noLink.mono fun e he => by simp [he]))⟩

end Pipeline

namespace Settings

/-- How the directory of wheels is found. Within the workspace it is one of the directories that the first
stage makes, and only such directories are below it; and one that is made is there, unless it was reached
by a link that has been dropped. -/
structure FindsDist (s : Settings) (es : List (Request × Machine)) (d : Disk) : Prop where
  fresh : s.distInWorkspace = true → ∀ place, d.LeadsTo s.dist place →
    ∃ made, s.dist.names = s.workspace.names ++ made ∧ ∀ rest node,
      d.get? (place ++ rest) = some node → node.isDir = true ∧ made ++ rest ∈ Workspace.furniture
  made : (∃ place, d.LeadsTo s.dist place) → s.DistMade
  there : s.DropsNoLink es → s.DistMade → ∃ place, d.LeadsTo s.dist place

theorem findsDist (accepted : s.Accepted) {d : Disk} (fresh : s.distInWorkspace = true → s.Fresh d)
    (there : s.DropsNoLink es → s.DistMade → ∃ place, d.LeadsTo s.dist place) : s.FindsDist es d := by
  have laid := accepted.laid
  have dist := accepted.placed.dist
  have within (inside : s.distInWorkspace = true) : ∀ place, d.LeadsTo s.dist place →
      ∃ made, s.dist.names = s.workspace.names ++ made ∧ ∀ rest node,
        d.get? (place ++ rest) = some node → node.isDir = true ∧ made ++ rest ∈ Workspace.furniture := by
    obtain ⟨made, hmade⟩ := (dist.startsWith laid.workspace).mp inside
    have extends_ : Disk.Extends s.workspace s.dist made := by
      have h := Disk.extends_ofNames (hmade ▸ dist.proper)
      rwa [← laid.written.1, hmade, ← (accepted.plain s.dist (by simp)).eq_ofNames] at h
    intro place leads
    exact ⟨made, hmade.symm, fun rest node hg =>
      (fresh inside).holds.below (fresh inside).bare extends_ laid.workspace.absolute leads hg⟩
  refine ⟨within, fun ⟨place, leads⟩ inside => ?_, there⟩
  obtain ⟨made, hmade, below⟩ := within inside place leads
  obtain ⟨es, hd⟩ := leads.dir
  obtain ⟨-, known⟩ := below [] _ (by rwa [List.append_nil])
  exact ⟨made, by simpa using known, hmade⟩

theorem FindsDist.mono {d : Disk} (h : s.FindsDist es d) (sub : es ⊆ es') : s.FindsDist es' d where
  fresh := h.fresh
  made := h.made
  there noLink := h.there (noLink.mono sub)

end Settings

/-- The call of the builder. -/
def Request.IsBuild (s : Settings) (q : Request) : Prop :=
  ∃ deadline, q = .collaborate (.build s.source s.dist) deadline

theorem Request.not_isBuild_of_mark? {q : Request} (h : q.mark? = none) : ¬ q.IsBuild s := by
  rintro ⟨deadline, rfl⟩
  cases h

@[simp] theorem Request.not_isBuild_log (level : Level) (text : String) :
    ¬ (Request.log level text).IsBuild s := fun ⟨_, h⟩ => by cases h

@[simp] theorem Request.not_isBuild_clock : ¬ Request.clock.IsBuild s := fun ⟨_, h⟩ => by cases h

/-- Where the builder was called, the disk was so. -/
def Settings.BuildsOn (s : Settings) (P : Disk → Prop) (es : List (Request × Machine)) : Prop :=
  ∀ e ∈ es, e.1.IsBuild s → P e.2.disk

theorem Settings.buildsOn_of_not {P : Disk → Prop} (h : ∀ e ∈ es, ¬ e.1.IsBuild s) : s.BuildsOn P es :=
  fun e he hq => (h e he hq).elim

theorem Settings.BuildsOn.append {P : Disk → Prop} (h : s.BuildsOn P es) (h' : s.BuildsOn P es') :
    s.BuildsOn P (es ++ es') := fun e he =>
  (List.mem_append.mp he).elim (h e) (h' e)

theorem Program.Only.buildsOn {α : Type} {program : Program α} {P : Disk → Prop}
    (hp : program.Only fun q => ¬ q.IsBuild s) :
    program.Ends (answer o) m fun _ es _ => s.BuildsOn P es :=
  hp.ends.mono fun _ _ _ => Settings.buildsOn_of_not

namespace Pipeline

/-- After the builder only the wheel is selected. -/
theorem buildWheel_buildsOn {P : Disk → Prop} (h : P m.disk) (deadline : Option Nat) :
    (buildWheel Toolchain.outside s.source s.dist s.project deadline).Ends (answer o) m fun _ es _ =>
      s.BuildsOn P es := by
  have quiet (q : Request) (hq : q.Quiet) : ¬ q.IsBuild s := Request.not_isBuild_of_mark? hq.mark?
  refine Work.ends_bind.mpr (Work.ends_now.mpr (ends_request.mpr ?_))
  refine Work.ends_bind.mpr (Toolchain.ends_outside.mpr ?_)
  have called (text : String) : s.BuildsOn P ([(.log .info text, m)] ++
      [(.collaborate (.build s.source s.dist) deadline, (answer o (.log .info text) m).2)]) :=
    (Settings.buildsOn_of_not (by simp)).append fun e he _ => List.mem_singleton.mp he ▸ h
  rcases Call.answered (.build s.source s.dist) deadline _ with _ | _ | ⟨⟩
  · exact called _
  · exact called _
  · have selected : (do
        let wheel ← Wheel.select s.dist s.project
        Work.now (request (.log .info ("✓ Built " ++ wheel.fileName)))
        return wheel : Work Wheel).Only fun q => ¬ q.IsBuild s :=
      ((Wheel.only_select _ _).mono quiet).bind fun wheel =>
        (only_info quiet (by simp)).bind fun _ => Work.only_pure _
    exact (selected deadline).buildsOn.mono fun _ _ _ later => (called _).append later

/-- When the builder is done, it is not called again. -/
theorem only_rest (startedAt : Nat) (workspace : Workspace) (wheel : Wheel) (p : Progress) :
    ((do
      let treeDigest ← stage s.stageTimeout .materialize (install Toolchain.outside s workspace wheel)
      let archive ← stage s.stageTimeout .archive (Archive.write workspace.target s.output)
      finish s Toolchain.outside startedAt workspace wheel treeDigest archive : Steps Report) p).Only
      fun q => ¬ q.IsBuild s := by
  have silent {q : Request} (h : q.mark? = none) : ¬ q.IsBuild s := Request.not_isBuild_of_mark? h
  have quiet (q : Request) (h : q.Quiet) : ¬ q.IsBuild s := silent h.mark?
  refine only_steps_bind (only_stage Request.not_isBuild_log (quiet _ trivial) ?_) fun treeDigest p' => ?_
  · refine only_install s workspace wheel quiet (fun _ _ => silent rfl) (only_perform fun _ => ?_)
    exact fun ⟨_, h⟩ => by cases h
  refine only_steps_bind (only_stage Request.not_isBuild_log (quiet _ trivial) ?_) fun archive p'' => ?_
  · exact Archive.only_write _ _ (fun _ _ h => silent h.mark?) fun _ _ => silent rfl
  refine only_finish s startedAt workspace wheel treeDigest archive p''
    Request.not_isBuild_log quiet fun call hc => ?_
  refine only_perform fun _ ⟨_, h⟩ => ?_
  cases h
  cases hc

theorem stages_find (accepted : s.Accepted) (honest : o.Honest) (wf : m.disk.root.WellFormed)
    (startedAt : Nat) (previous : RunState) :
    (stages s Toolchain.outside startedAt { state := previous }).Ends (answer o) m fun _ es _ =>
      ∃ es' ⊆ es, s.BuildsOn (s.FindsDist es') es := by
  have opened (stage : Stage) (m : Machine) (P : Disk → Prop) :
      s.BuildsOn P (opening (answer o) stage m) := Settings.buildsOn_of_not (by simp [opening])
  have closed (stage : Stage) (duration : Nat) (m : Machine) (P : Disk → Prop) :
      s.BuildsOn P (closing (answer o) stage duration m) :=
    Settings.buildsOn_of_not (by simp [closing])
  have cleans : (clean s).Only fun q => ¬ q.IsBuild s :=
    (only_clean s).mono fun _ h => Request.not_isBuild_of_mark? h.mark?
  refine ends_stage_bind (((clean_dist accepted honest (m := atWork (answer o) .clean m) wf _).and
    (cleans _).ends).mono ?_)
  rintro (stop | workspace) es₁ m₁ ⟨cleaned, only⟩
  · exact ⟨[], List.nil_subset _, (opened _ _ _).append (Settings.buildsOn_of_not only)⟩
  intro duration
  obtain ⟨fresh, there⟩ := cleaned workspace rfl
  have found : s.FindsDist es₁ m₁.disk := Settings.findsDist accepted fresh there
  have before : s.BuildsOn (s.FindsDist es₁) (opening (answer o) .clean m ++ es₁ ++
      closing (answer o) .clean duration m₁) :=
    ((opened _ _ _).append (Settings.buildsOn_of_not only)).append (closed _ _ _ _)
  refine Steps.ends_bind.mpr (Steps.ends_update.mpr ?_)
  refine ends_stage_bind ((buildWheel_buildsOn (P := s.FindsDist es₁)
    (m := atWork (answer o) .build (afterWork (answer o) .clean duration m₁)) found _).mono ?_)
  rintro (stop | wheel) es₂ m₂ built
  · exact ⟨es₁, fun e he => by simp [he], before.append ((opened _ _ _).append built)⟩
  intro duration'
  have rest := only_rest (s := s) startedAt workspace wheel
  refine ((rest _).buildsOn (P := s.FindsDist es₁)).mono fun _ es₃ _ rest => ?_
  exact ⟨es₁, fun e he => by simp [he], before.append
    ((((opened _ _ _).append built).append (closed _ _ _ _)).append rest)⟩

/-- Whenever the builder is called, the directory of wheels is as the first stage has left it. -/
theorem build_finds_dist (accepted : s.Accepted) (honest : o.Honest) (wf : m.disk.root.WellFormed)
    (previous : RunState) :
    (run s Toolchain.outside previous).Ends (answer o) m fun _ es _ => ∀ deadline before,
      (.collaborate (.build s.source s.dist) deadline, before) ∈ es → s.FindsDist es before.disk := by
  refine ends_run ((stages_find (m := (answer o .clock m).2) accepted honest wf _ previous).mono ?_)
  rintro r es m₁ ⟨es', sub, found⟩
  refine (cleanUp_only s r.2.workspace).ends.mono fun _ es₁ m₂ cleaned => ?_
  refine (logOutcome_only r.1).ends.mono fun _ es₂ m₃ logged => ?_
  intro deadline before he
  refine Settings.FindsDist.mono ?_ (List.Subset.trans sub fun e he => by simp [he])
  simp only [List.mem_cons, List.mem_append] at he
  rcases he with he | he | he | he
  · cases he
  · exact found _ he ⟨deadline, rfl⟩
  · cases cleaned _ he
  · cases logged _ he

/-- A directory of wheels in the workspace that is not one of its own. -/
def shelved : Settings := { Settings.small "/work" "/out.zip" with dist := .ofString "/work/wheels" }

set_option maxRecDepth 100000 in
/-- Nobody makes such a directory, although the settings are accepted and the builder is called. -/
theorem shelved_dist_missing : shelved.Accepted ∧ (Outside.scripted fun _ => {}).Honest ∧
    (Machine.small []).disk.root.WellFormed ∧
    (run shelved Toolchain.outside .pending).Ends (answer (.scripted fun _ => {})) (.small [])
      fun _ es _ => ∃ deadline before,
        (.collaborate (.build shelved.source shelved.dist) deadline, before) ∈ es ∧
          ¬ ∃ place, before.disk.LeadsTo shelved.dist place := by
  have accepted : shelved.Accepted :=
    ⟨{ Options.small "/work" "/out.zip" with dist := some (.ofString "/work/wheels") }, .small [],
      .small [], by decide +kernel⟩
  have honest : (Outside.scripted fun _ => {}).Honest := fun _ h => by cases h
  have wf : (Machine.small []).disk.root.WellFormed := by decide +kernel
  have evaluated : (run shelved Toolchain.outside .pending).Ends (answer (.scripted fun _ => {}))
      (.small []) fun _ es _ => Mark.called (.build shelved.source shelved.dist) ∈ marksOf es := by
    unfold Ends
    decide +kernel
  refine ⟨accepted, honest, wf, ((build_finds_dist accepted honest wf .pending).and evaluated).mono ?_⟩
  rintro _ es _ ⟨finds, called⟩
  obtain ⟨deadline, before, he⟩ := exists_of_called called
  refine ⟨deadline, before, he, fun there => ?_⟩
  obtain ⟨made, hm, hnames⟩ := (finds deadline before he).made there (by decide +kernel)
  revert made
  decide +kernel

end Pipeline

end LayerPack
