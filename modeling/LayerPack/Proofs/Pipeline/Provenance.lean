import LayerPack.Proofs.Archive.Encoding
import LayerPack.Proofs.Pipeline.Calls
import LayerPack.Proofs.Pipeline.Emptied
import LayerPack.Proofs.Pipeline.Frame
import LayerPack.Proofs.Workspace.Confinement

/-! Where the entries of an archive come from. When the first stage is done, the tree holds no files; the
builder puts none into it unless it has been given a directory within the tree or around it; and what the
installer then writes is what is archived. -/
namespace LayerPack

open Program Machine

variable {s : Settings} {o : Outside} {m m' : Machine} {es es' : List (Request × Machine)}
  {wheel : Wheel} {deadline : Option Nat}

namespace Disk

/-- A regular file that has been put at a place, or has been changed there. -/
def Brought (d d' : Disk) (place : Place) (id mode : Nat) (content : ByteArray) : Prop :=
  d'.get? place = some (.file id mode content) ∧ d.get? place ≠ some (.file id mode content)

end Disk

/-- The directory that others are given to write to. -/
def Request.directory? : Request → Option Path
  | .collaborate call _ => Script.directoryOf call
  | _ => none

/-- In what they were asked, the builder and the installer have written only below the directory that they
were given. -/
def Outside.KeepsBelow (o : Outside) (es : List (Request × Machine)) : Prop :=
  ∀ e ∈ es, ∀ dir ∈ e.1.directory?, e.2.disk.WritesBelow dir (answer o e.1 e.2).2.disk

theorem Outside.KeepsBelow.mono (h : o.KeepsBelow es') (sub : es ⊆ es') : o.KeepsBelow es :=
  fun e he => h e (sub he)

namespace Settings

/-- Whenever the builder was called, the directory of wheels was aside of the tree. -/
def BuildsAside (s : Settings) (es : List (Request × Machine)) : Prop :=
  ∀ deadline before, (.collaborate (.build s.source s.dist) deadline, before) ∈ es →
    before.disk.Aside s.dist s.tree

theorem BuildsAside.mono (h : s.BuildsAside es') (sub : es ⊆ es') : s.BuildsAside es :=
  fun deadline before he => h deadline before (sub he)

/-- The directory of the installer is reached from the tree by names. -/
theorem Accepted.extends (accepted : s.Accepted) : ∃ names, Disk.Extends s.tree s.installDir names := by
  obtain ⟨options, current, package, source, hs⟩ := accepted.settled
  have nonempty : s.tree.bytes ≠ [] := by
    obtain ⟨rest, hb⟩ := Path.eq_slash_cons (accepted.placed.inside s.tree (by simp [tree])).1.absolute
    simp [hb]
  unfold installDir Workspace.installDir
  obtain hn | ⟨p, hn, stays⟩ := checkPrefix_ok (Options.settle_ok hs).layerPrefix
  · rw [hn]
    exact ⟨[], List.prefix_rfl, [], by simp [tree], rfl⟩
  · rw [hn]
    exact ⟨_, Disk.extends_given nonempty stays⟩

end Settings

/-- Others have left the disk well formed and kept to their directories, and that of the wheels was aside of
the tree. -/
structure Outside.Tidy (o : Outside) (s : Settings) (es : List (Request × Machine)) : Prop where
  form : o.KeepsForm es
  below : o.KeepsBelow es
  aside : s.BuildsAside es

theorem Outside.Tidy.mono (h : o.Tidy s es') (sub : es ⊆ es') : o.Tidy s es :=
  ⟨h.form.mono sub, h.below.mono sub, h.aside.mono sub⟩

namespace Pipeline

/-- The builder puts no files into the tree. -/
theorem build_bare (wf : m.disk.root.WellFormed) (bare : m.disk.Bare s.tree) (deadline : Option Nat) :
    (buildWheel Toolchain.outside s.source s.dist s.project deadline).Ends (answer o) m fun _ es m' =>
      o.Tidy s es → m'.disk.root.WellFormed ∧ m'.disk.Bare s.tree := by
  have asks : (buildWheel Toolchain.outside s.source s.dist s.project).Only fun q => q.Quiet ∨
      ∃ deadline, q = .collaborate (.build s.source s.dist) deadline :=
    only_buildWheel s (fun _ => .inl) (only_perform fun deadline => .inr ⟨deadline, rfl⟩)
  refine (asks deadline).run_history (H := fun m es m' => m.disk.root.WellFormed ∧ m.disk.Bare s.tree →
    o.Tidy s es → m'.disk.root.WellFormed ∧ m'.disk.Bare s.tree) (fun _ h _ => h) ?_ m ⟨wf, bare⟩
  intro q m es m' hq rest ⟨wf, bare⟩ tidy
  refine rest ?_ (tidy.mono (List.subset_cons_self _ _))
  rcases hq with hq | ⟨deadline, rfl⟩
  · rw [(same_quiet hq o m).disk]
    exact ⟨wf, bare⟩
  · have written := tidy.below _ List.mem_cons_self s.dist rfl
    exact ⟨tidy.form _ List.mem_cons_self rfl wf,
      bare.undisturbed (tidy.aside deadline m List.mem_cons_self _ written)⟩

/-- The installer was called when the tree held no files, and nothing has been done since then. -/
structure Installed (o : Outside) (s : Settings) (wheel : Wheel) (deadline : Option Nat)
    (before : Machine) (place : Place) (es : List (Request × Machine)) (m' : Machine) : Prop where
  called : (.collaborate (.installInto wheel.path s.installDir) deadline, before) ∈ es
  since : m'.disk = (answer o (.collaborate (.installInto wheel.path s.installDir) deadline) before).2.disk
  form : m'.disk.root.WellFormed
  hollow : before.disk.Hollow s.tree place
  there : m'.disk.LeadsTo s.tree place
  elsewhere : ∀ r, ¬ place <+: r → m'.disk.look r = before.disk.look r

theorem Installed.later {before : Machine} {place : Place} {m'' : Machine}
    (h : Installed o s wheel deadline before place es m') (sub : es ⊆ es') (same : Same m' m'') :
    Installed o s wheel deadline before place es' m'' where
  called := sub h.called
  since := same.disk.trans h.since
  form := same.wellFormed h.form
  hollow := h.hollow
  there := same.disk ▸ h.there
  elsewhere r hr := same.disk ▸ h.elsewhere r hr

/-- The directory of the installer is made in the tree, which holds no files then either. -/
theorem makeDirs_installDir (accepted : s.Accepted) (wf : m.disk.root.WellFormed)
    (bare : m.disk.Bare s.tree) :
    (Files.makeDirs s.installDir).Ends (answer o) m fun r _ m' =>
      (m'.disk.root.WellFormed ∧ m'.disk.Bare s.tree) ∧
        (r = .ok () → ∃ place, m'.disk.LeadsTo s.installDir place) := by
  have laid := accepted.laid
  have spells := (accepted.placed.inside s.installDir (by simp)).1
  obtain ⟨names, extends_⟩ := accepted.extends
  obtain ⟨more, hparts, -⟩ := extends_.parts
  have proper : ∀ part ∈ s.tree.parts, ProperName part := by
    intro part hp
    rw [laid.tree_parts] at hp
    rcases List.mem_append.mp hp with hp | hp
    · exact laid.workspace.proper part hp
    · exact List.mem_singleton.mp hp ▸ Workspace.properName_target
  refine ⟨?_, Files.makeDirs_leads spells.absolute⟩
  refine (Files.only_makeDirs s.installDir).run_inv
    (I := fun m : Machine => m.disk.root.WellFormed ∧ m.disk.Bare s.tree) ?_ ⟨wf, bare⟩
  intro q m hq ⟨wf, bare⟩
  exact ⟨(grown_makes hq o m).2.1.wellFormed wf,
    bare_makes hq spells proper (.inr (hparts ▸ List.prefix_append _ _)) bare⟩

/-- What the installer writes is in the tree, in which there were no files before. -/
theorem installed_of_call (accepted : s.Accepted) {before : Machine} {dir : Place}
    (wf : before.disk.root.WellFormed) (bare : before.disk.Bare s.tree)
    (there : before.disk.LeadsTo s.installDir dir)
    (called : (.collaborate (.installInto wheel.path s.installDir) deadline, before) ∈ es)
    (since : m'.disk =
      (answer o (.collaborate (.installInto wheel.path s.installDir) deadline) before).2.disk)
    (tidy : o.Tidy s es) : ∃ place, Installed o s wheel deadline before place es m' := by
  obtain ⟨names, extends_⟩ := accepted.extends
  have absolute := (accepted.placed.inside s.tree (by simp [Settings.tree])).1.absolute
  have written := tidy.below _ called s.installDir rfl
  rw [← since] at written
  have changed := written.changed there
  obtain ⟨place, above, hollow, leads⟩ := bare.filled extends_ absolute there changed
  refine ⟨place, called, since, since ▸ tidy.form _ called rfl wf, hollow, leads, fun r hr => ?_⟩
  exact changed.at there r fun h => hr (above.trans h)

theorem materialize_fills (accepted : s.Accepted) (wf : m.disk.root.WellFormed)
    (bare : m.disk.Bare s.tree) (deadline : Option Nat) :
    (materialize Toolchain.outside wheel s.installDir deadline).Ends (answer o) m fun r es m' =>
      o.Tidy s es → r = .ok () →
        ∃ deadline before place, Installed o s wheel deadline before place es m' := by
  refine Work.ends_bind.mpr (Work.ends_now.mpr (ends_request.mpr ?_))
  refine Work.ends_bind.mpr (ends_await (fun _ _ _ _ h => by cases h) fun m₁ same => ?_)
  have wf₁ : m₁.disk.root.WellFormed := same.wellFormed wf
  have bare₁ : m₁.disk.Bare s.tree := same.disk ▸ bare
  refine (makeDirs_installDir accepted wf₁ bare₁).mono fun made _ m₂ ⟨⟨wf₂, bare₂⟩, leads⟩ => ?_
  refine fun es₁ m₃ _ same => ⟨?_, fun _ h => by cases h⟩
  refine Work.ends_bind.mpr (Work.ends_ofExcept.mpr ?_)
  cases made with
  | error e => exact fun _ h => by cases h
  | ok =>
  obtain ⟨dir, there⟩ := leads rfl
  rw [← same.disk] at wf₂ bare₂ there
  refine Work.ends_bind.mpr (Work.ends_mapError.mpr (Toolchain.ends_outside.mpr ?_))
  have installed {es : List (Request × Machine)} {m' : Machine}
      (called : (.collaborate (.installInto wheel.path s.installDir) deadline, m₃) ∈ es)
      (since : Same (answer o (.collaborate (.installInto wheel.path s.installDir) deadline) m₃).2 m')
      (tidy : o.Tidy s es) : ∃ deadline before place, Installed o s wheel deadline before place es m' :=
    ⟨deadline, m₃, installed_of_call accepted wf₂ bare₂ there called since.disk tidy⟩
  rcases Call.answered (.installInto wheel.path s.installDir) deadline _ with _ | _ | ⟨⟩
  · exact fun _ h => by cases h
  · exact fun _ h => by cases h
  · exact fun tidy _ => installed (by simp) (same_log _ _) tidy

theorem install_fills (accepted : s.Accepted) (wf : m.disk.root.WellFormed) (bare : m.disk.Bare s.tree)
    (deadline : Option Nat) :
    (install Toolchain.outside s ⟨s.workspace⟩ wheel deadline).Ends (answer o) m fun r es m' =>
      o.Tidy s es → ∀ digest, r = .ok digest →
        ∃ deadline before place, Installed o s wheel deadline before place es m' := by
  refine Work.ends_bind.mpr ((materialize_fills accepted wf bare deadline).mono ?_)
  rintro (stop | ⟨⟩) es m₁ filled
  · exact fun _ _ h => by cases h
  have same := same_run (Archive.only_treeDigest (⟨s.workspace⟩ : Workspace).target deadline) o m₁
  refine fun tidy _ _ => ?_
  have sub := List.subset_append_left es ((Archive.treeDigest
    (⟨s.workspace⟩ : Workspace).target deadline).trace (answer o) m₁)
  obtain ⟨deadline, before, place, installed⟩ := filled (tidy.mono sub) rfl
  exact ⟨deadline, before, place, installed.later sub same⟩

/-- The entries are the regular files that have been brought below a place, each under its path from
there, and none have been brought elsewhere. -/
structure Conveys (d d' : Disk) (place : Place) (entries : List Zip.Entry) : Prop where
  exactly : ∀ name content, (∃ entry ∈ entries, entry.name = name ∧ entry.content = content) ↔
    ∃ names id mode, Bytes.ofString name = joinSlash names ∧
      d.Brought d' (place ++ names) id mode content
  inside : ∀ r id mode content, d.Brought d' r id mode content → place <+: r
  distinct : (entries.map (·.name)).Nodup

theorem Installed.conveys {before : Machine} {place : Place} {inner : Entries}
    {entries : List Zip.Entry} (h : Installed o s wheel deadline before place es m)
    (hd : m.disk.get? place = some (.dir inner)) (packs : Archive.Packs (.dir inner) entries) :
    Conveys before.disk m.disk place entries where
  exactly name content := by
    have at_ (names : List Name) : m.disk.get? (place ++ names) = (Node.dir inner).get? names := by
      change m.disk.root.get? _ = _
      rw [Node.get?_append, Disk.get?_root, hd]
      rfl
    rw [packs.exactly]
    refine exists_congr fun names => exists_congr fun id => exists_congr fun mode => ?_
    rw [Disk.Brought, at_]
    exact and_congr_right fun _ => (and_iff_left (h.hollow.noFile names id mode content)).symm
  inside r id mode content brought := by
    by_contra hr
    have same := h.elsewhere r hr
    rw [Disk.look, Node.look_eq_file.mpr brought.1] at same
    exact brought.2 (Node.look_eq_file.mp same.symm)
  distinct := (Archive.encodes_of_packs (h.form.get? hd) rfl packs).distinct

/-- The archive of the tree has been moved to the output, and its entries are what the installer has
brought. -/
def Packed (o : Outside) (s : Settings) (report : Report) (es : List (Request × Machine)) : Prop :=
  ∃ deadline before place entries,
    (.collaborate (.installInto report.wheel.path s.installDir) deadline, before) ∈ es ∧
    (∃ after, after = (answer o
        (.collaborate (.installInto report.wheel.path s.installDir) deadline) before).2 ∧
      after.disk.LeadsTo s.tree place ∧ Conveys before.disk after.disk place entries) ∧
    ∃ es' ⊆ es, ∃ m₁ m₂, Archive.Archived s.tree s.output m₁ entries report.archive es' m₂

theorem Packed.mono {report : Report} (h : Packed o s report es) (sub : es ⊆ es') :
    Packed o s report es' := by
  obtain ⟨deadline, before, place, entries, called, conveyed, inner, hi, archived⟩ := h
  exact ⟨deadline, before, place, entries, sub called, conveyed, inner, List.Subset.trans hi sub, archived⟩

/-- What the installer has left is archived. -/
theorem archive_packs (accepted : s.Accepted) {startedAt : Nat} {treeDigest : String} {p : Progress}
    {before : Machine} {place : Place} (installed : Installed o s wheel deadline before place es m) :
    ((do
      let archive ← Pipeline.stage s.stageTimeout .archive (Archive.write s.tree s.output)
      finish s Toolchain.outside startedAt ⟨s.workspace⟩ wheel treeDigest archive : Steps Report)
      p).Ends (answer o) m fun r es' _ => ∀ report, r.1 = .ok report → Packed o s report (es ++ es') := by
  have absolute := (accepted.placed.inside s.tree (by simp [Settings.tree])).1.absolute
  refine ends_stage_bind (Archive.write_ends.mono ?_)
  rintro (stop | archive) es₁ m₁ written
  · exact fun _ h => by cases h
  refine fun duration => finish_ends.mono ?_
  rintro ⟨failure | report, p'⟩ es₂ m₂ ⟨-, hr⟩
  · exact fun _ h => by cases h
  rintro _ ⟨⟩
  obtain ⟨rfl, -, rfl⟩ := hr
  obtain ⟨entries, archived⟩ := written report.archive rfl
  obtain ⟨files, d, some, collected, grows, read⟩ := archived.complete
  obtain ⟨dest, inner, hroot, packs⟩ :=
    Archive.packs_of_collected installed.form collected some grows read
  obtain rfl := installed.there.unique (Disk.leadsTo_of_resolve absolute hroot)
  have conveys := installed.conveys (Disk.lookup_sound (Disk.resolve_ok.mp hroot)) packs
  refine ⟨deadline, before, place, entries, by simp [installed.called], ⟨_, rfl, ?_, ?_⟩,
    es₁, fun e he => by simp [he], _, _, archived⟩
  · exact installed.since ▸ installed.there
  · exact installed.since ▸ conveys

/-- What is to be shown only if others behave in a part of a run is to be shown if they do so there. -/
theorem ends_tidy {α : Type} {program : Program α} {Q : α → List (Request × Machine) → Prop}
    (es : List (Request × Machine)) {whole : List (Request × Machine) → List (Request × Machine)}
    (sub : ∀ es', es ⊆ whole es')
    (h : o.Tidy s es → program.Ends (answer o) m fun r es' _ => o.Tidy s (whole es') → Q r es') :
    program.Ends (answer o) m fun r es' _ => o.Tidy s (whole es') → Q r es' := by
  by_cases tidy : o.Tidy s es
  · exact h tidy
  · exact Ends.mono (Q := fun _ _ _ => True) trivial fun r es' _ _ h => (tidy (h.mono (sub es'))).elim

theorem stages_pack (accepted : s.Accepted) (honest : o.Honest) (wf : m.disk.root.WellFormed)
    (startedAt : Nat) (previous : RunState) :
    (stages s Toolchain.outside startedAt { state := previous }).Ends (answer o) m fun r es _ =>
      o.Tidy s es → ∀ report, r.1 = .ok report → Packed o s report es := by
  have laid := accepted.laid
  refine ends_stage_bind (((clean_bare laid accepted.placed honest
    (m := atWork (answer o) .clean m) wf _).and (clean_yields s).ends).mono ?_)
  rintro (stop | workspace) es₁ m₁ ⟨cleaned, yields⟩
  · exact fun _ _ h => by cases h
  obtain rfl := yields workspace rfl
  obtain ⟨wf₁, bare₁⟩ := cleaned _ rfl
  intro duration
  refine Steps.ends_bind.mpr (Steps.ends_update.mpr ?_)
  refine ends_stage_bind ((build_bare (m := atWork (answer o) .build
    (afterWork (answer o) .clean duration m₁)) wf₁ bare₁ _).mono ?_)
  rintro (stop | wheel) es₂ m₂ built
  · exact fun _ _ h => by cases h
  intro duration'
  refine ends_tidy es₂ (fun es' e he => by simp [he]) fun tidy => ?_
  obtain ⟨wf₂, bare₂⟩ := built tidy
  refine ends_stage_bind ((install_fills (m := atWork (answer o) .materialize
    (afterWork (answer o) .build duration' m₂)) accepted wf₂ bare₂ _).mono ?_)
  rintro (stop | digest) es₃ m₃ filled
  · exact fun _ _ h => by cases h
  intro duration''
  refine ends_tidy es₃ (fun es' e he => by simp [he]) fun tidy => ?_
  obtain ⟨deadline, before, place, installed⟩ := filled tidy digest rfl
  have same : Same m₃ (afterWork (answer o) .materialize duration'' m₃) := ⟨rfl, rfl⟩
  have installed := installed.later (List.Subset.refl _) same
  refine (archive_packs accepted installed).mono fun r es' _ packed _ report h => ?_
  exact (packed report h).mono fun e he => by
    rcases List.mem_append.mp he with he | he <;> simp [he]

/-- The archive of every successful run holds what the installer has brought, and nothing else. The
builder and the installer must keep to the directories that they are given for that, and the directory of
wheels must be aside of the tree: nothing else makes sure that no wheel gets into the archive. -/
theorem run_packs_installed (accepted : s.Accepted) (honest : o.Honest) (wf : m.disk.root.WellFormed)
    (previous : RunState) :
    (run s Toolchain.outside previous).Ends (answer o) m fun r es _ =>
      o.KeepsForm es → o.KeepsBelow es → s.BuildsAside es →
        ∀ report, r.1 = .ok report → Packed o s report es := by
  refine ends_run ((stages_pack (m := (answer o .clock m).2) accepted honest wf _ previous).mono ?_)
  intro r es m₁ packed
  refine Ends.mono (Q := fun _ _ _ => True) trivial fun _ es₁ m₂ _ => ?_
  refine Ends.mono (Q := fun _ _ _ => True) trivial fun _ es₂ m₃ _ form below aside report h => ?_
  have sub : es ⊆ (.clock, m) :: (es ++ (es₁ ++ es₂)) := fun e he => by simp [he]
  exact (packed ⟨form.mono sub, below.mono sub, aside.mono sub⟩ report h).mono sub

/-- Collaborators that leave their directory as it is, or put another one in its place, keep to it. -/
theorem keepsBelow_of_put (puts : ∀ call m, ∀ dir ∈ Script.directoryOf call,
      (o.collaborate call m).2.disk = m.disk ∨
        ∃ inner, (o.collaborate call m).2.disk = m.disk.put dir.names (.dir inner))
    (leads : ∀ e ∈ es, ∀ dir ∈ e.1.directory?, e.2.disk.LeadsTo dir dir.names) : o.KeepsBelow es := by
  rintro ⟨q, before⟩ he dir hdir
  have there := leads _ he dir hdir
  cases q <;> try cases hdir
  next call deadline =>
  rw [disk_collaborate]
  obtain same | ⟨inner, put⟩ := puts call ((before.step (o.delay before.ticks)).record call) dir hdir
  · rw [same]
    exact .refl dir before.disk
  · rw [put]
    exact Disk.writesBelow_put there inner

theorem wheelwright_puts (call : Call) (m : Machine) : ∀ dir ∈ Script.directoryOf call,
    ∃ inner, (wheelwright.collaborate call m).2.disk = m.disk.put dir.names (.dir inner) := by
  rintro dir hdir
  cases call with
  | build | installInto =>
    obtain rfl := Option.some.inj hdir
    exact ⟨_, rfl⟩
  | isInstalled | uninstall | install => cases hdir

set_option maxRecDepth 100000 in
/-- A small run archives what its installer has brought. -/
theorem small_run_packs : (Settings.small "/work" "/out.zip").Accepted ∧ wheelwright.Honest ∧
    (Machine.small []).disk.root.WellFormed ∧
    (run (.small "/work" "/out.zip") Toolchain.outside .pending).Ends (answer wheelwright) (.small [])
      fun r es _ => wheelwright.KeepsForm es ∧ wheelwright.KeepsBelow es ∧
        (Settings.small "/work" "/out.zip").BuildsAside es ∧
          ∃ report, r.1 = .ok report ∧ Packed wheelwright (.small "/work" "/out.zip") report es := by
  have accepted : (Settings.small "/work" "/out.zip").Accepted :=
    ⟨.small "/work" "/out.zip", .small [], .small [], by decide +kernel⟩
  have honest : wheelwright.Honest := fun _ h => by cases h
  have wf : (Machine.small []).disk.root.WellFormed := by decide +kernel
  have evaluated : (run (.small "/work" "/out.zip") Toolchain.outside .pending).Ends (answer wheelwright)
      (.small []) fun r es _ => r.1.isOk ∧ wheelwright.KeepsForm es ∧
        (∀ e ∈ es, ∀ dir ∈ e.1.directory?, e.2.disk.LeadsTo dir dir.names) ∧
        ∀ e ∈ es, e.1.directory? = some (.ofString "/work/dist") → e.2.disk.root.WellFormed ∧
          (e.2.disk.erase (Path.ofString "/work/dist").names).LeadsTo (.ofString "/work/target")
            (Path.ofString "/work/target").names := by
    unfold Ends
    decide +kernel
  refine ⟨accepted, honest, wf, ((run_packs_installed accepted honest wf .pending).and evaluated).mono ?_⟩
  rintro ⟨failure | report, state⟩ es m' ⟨packs, returned, form, leads, without⟩
  case error => cases returned
  have below : wheelwright.KeepsBelow es :=
    keepsBelow_of_put (fun call m dir h => .inr (wheelwright_puts call m dir h)) leads
  have aside : (Settings.small "/work" "/out.zip").BuildsAside es := by
    intro deadline before he
    obtain ⟨wf, reached⟩ := without _ he rfl
    exact Disk.aside_of_apart (leads _ he _ rfl) reached wf (by decide +kernel)
  exact ⟨form, below, aside, report, rfl, packs form below aside report rfl⟩

/-- The directory of wheels is the tree of the archive. -/
def crowded : Settings := { Settings.small "/work" "/out.zip" with dist := .ofString "/work/target" }

/-- An installer that leaves nothing, and the builder from before. -/
def idle : Outside where
  collaborate
    | .installInto .., m => (some (.ok ()), m)
    | call, m => wheelwright.collaborate call m
  process _ _ m := (none, m)

theorem idle_puts (call : Call) (m : Machine) : ∀ dir ∈ Script.directoryOf call,
    (idle.collaborate call m).2.disk = m.disk ∨
      ∃ inner, (idle.collaborate call m).2.disk = m.disk.put dir.names (.dir inner) := by
  rintro dir hdir
  cases call with
  | installInto => exact .inl rfl
  | build => exact .inr (wheelwright_puts (.build _ _) m dir hdir)
  | isInstalled | uninstall | install => cases hdir

set_option maxRecDepth 100000 in
/-- If the wheels are put into the tree, they are archived, although the collaborators keep to their
directories. -/
theorem wheel_in_archive : crowded.Accepted ∧
    (run crowded Toolchain.outside .pending).Ends (answer idle) (.small []) fun r es m' =>
      idle.KeepsBelow es ∧ r.1.isOk ∧
        m'.disk.get? [Bytes.ofString "out.zip"] = some (.file 0 Disk.newMode
          (Zip.encode [⟨"small-1-py3-none-any.whl", 0o644, .empty⟩])) := by
  have accepted : crowded.Accepted :=
    ⟨{ Options.small "/work" "/out.zip" with dist := some (.ofString "/work/target") }, .small [],
      .small [], by decide +kernel⟩
  have evaluated : (run crowded Toolchain.outside .pending).Ends (answer idle) (.small [])
      fun r es m' => (∀ e ∈ es, ∀ dir ∈ e.1.directory?, e.2.disk.LeadsTo dir dir.names) ∧ r.1.isOk ∧
        m'.disk.get? [Bytes.ofString "out.zip"] = some (.file 0 Disk.newMode
          (Zip.encode [⟨"small-1-py3-none-any.whl", 0o644, .empty⟩])) := by
    unfold Ends
    decide +kernel
  refine ⟨accepted, evaluated.mono fun _ _ _ ⟨leads, shipped⟩ => ?_⟩
  exact ⟨keepsBelow_of_put idle_puts leads, shipped⟩

end Pipeline

end LayerPack
