import LayerPack.Proofs.Disk.Below
import LayerPack.Proofs.Disk.Decide
import LayerPack.Proofs.Machine.Finding
import LayerPack.Proofs.Settings.Apart
import LayerPack.Proofs.Settings.Grounds

/-! Which options are accepted. The check of options succeeds exactly if a project is named, its source
tree is a directory, the workspace lies neither at nor above what must be kept, and the prefix stays
inside the archive. All paths are compared by their names, from the current directory on. Whatever
was asked for, the paths of accepted settings are absolute and go through names only. -/
namespace LayerPack

open Program Machine

namespace Path

/-- A path that is written as a list of names. -/
def Plain (p : Path) : Prop := ∃ names, p = .ofNames names ∧ ∀ name ∈ names, ProperName name

theorem Plain.spells {p : Path} (h : p.Plain) : p.Spells p.names := by
  obtain ⟨names, rfl, proper⟩ := h
  exact (Spells.ofNames proper).own

theorem Plain.eq_ofNames {p : Path} (h : p.Plain) : p = .ofNames p.names := by
  obtain ⟨names, rfl, proper⟩ := h
  rw [(Spells.ofNames proper).names_eq]

/-- A plain path is absolute already. -/
theorem Plain.absolute_eq {p : Path} (h : p.Plain) (cwd : Path) : Path.absolute cwd p = p := by
  have same : namesFrom cwd p = p.names := by
    rw [namesFrom, names, h.spells.components, settle, settle]
  rw [Path.absolute, same, ← h.eq_ofNames]

theorem plain_absolute (cwd p : Path) : (Path.absolute cwd p).Plain :=
  ⟨_, rfl, properName_of_mem_namesFrom⟩

end Path

namespace Options

variable {options : Options} {current given : Path} {package : Package} {cwd : Place}

/-- What the absolute workspace, source tree and output of options are, from the current directory. -/
def workspaceFrom (options : Options) (current : Path) : Path :=
  .absolute current (options.workspace.getD defaultWorkspace)

def outputFrom (options : Options) (current : Path) (package : Package) : Path :=
  .absolute current (options.output.getD (.ofString package.archiveName))

/-- Options that can be accepted where there is a current directory: a package and a source tree are
given, and what is said of them and of the workspace is fit. -/
structure Acceptable (options : Options) (d : Disk) (cwd : Place) (current : Path) (package : Package)
    (given : Path) : Prop where
  packaged : options.package = some package
  named : ∃ c ∈ package.name.toList, Text.isBlank c = false
  sourced : options.source = some given
  tree : ∃ place es, d.resolve cwd true (.absolute current given) = .ok (place, .dir es)
  notRoot : (options.workspaceFrom current).names ≠ []
  /-- The workspace is neither at nor above what must be kept. -/
  apart : ∀ kept ∈ [.absolute current given, current, options.outputFrom current package],
    ¬ (options.workspaceFrom current).names <+: kept.names
  prefixed : ∀ p, options.layerPrefix = some p →
    p.bytes = [] ∨ ∀ c ∈ p.components, c = .current ∨ ∃ name, c = .normal name

theorem required_eq_ok : options.required = .ok (package, given) ↔
    options.package = some package ∧ (∃ c ∈ package.name.toList, Text.isBlank c = false) ∧
      options.source = some given := by
  have blank (name : String) : (∃ c ∈ name.toList, Text.isBlank c = false) ↔
      Text.isBlankText name = false := by
    rw [Text.isBlankText, List.all_eq_false]
    simp
  rw [required, blank]
  rcases options.package with _ | found
  · simp [throw, throwThe, MonadExceptOf.throw]
  · cases hb : Text.isBlankText found.name <;> rcases options.source with _ | source <;>
      simp [hb, throw, throwThe, MonadExceptOf.throw, Bind.bind, Except.bind, Pure.pure, Except.pure]
    all_goals
      rintro rfl
      simp [hb]

/-- Only the root has no parent. -/
theorem parent?_isNone {p : Path} (h : p.Plain) : p.parent?.isNone = true ↔ p.names = [] := by
  have spells := h.spells
  obtain ⟨names, rfl, proper⟩ := h
  rw [(Path.Spells.ofNames proper).names_eq]
  rcases List.eq_nil_or_concat names with rfl | ⟨front, name, rfl⟩
  · exact iff_of_true rfl rfl
  · obtain ⟨up, hp, -⟩ := Path.Spells.exists_parent (Path.Spells.ofNames (by simpa using proper))
    simp [hp]

/-- The check of a workspace compares names. -/
theorem checkWorkspace_eq_ok {workspace source current output : Path} (hw : workspace.Plain)
    (hs : source.Plain) (hc : current.Plain) (ho : output.Plain) :
    checkWorkspace workspace source current output = .ok () ↔ workspace.names ≠ [] ∧
      ∀ kept ∈ [source, current, output], ¬ workspace.names <+: kept.names := by
  have within {p : Path} (hp : p.Plain) : p.startsWith workspace = true ↔
      workspace.names <+: p.names := hp.spells.startsWith hw.spells
  simp only [checkWorkspace, parent?_isNone hw, within hs, within hc, within ho]
  split_ifs with h₁ h₂ h₃ h₄ <;> simp [*]

theorem checkPrefix_eq_ok {given : Option Path} : (∃ found, checkPrefix given = .ok found) ↔
    ∀ p, given = some p → p.bytes = [] ∨ ∀ c ∈ p.components, c = .current ∨ ∃ name, c = .normal name := by
  have stays (c : Component) : staysBelow c = true ↔ c = .current ∨ ∃ name, c = .normal name := by
    cases c <;> simp [staysBelow]
  rcases given with _ | p
  · simp [checkPrefix]
  · have all : p.components.all staysBelow = true ↔
        ∀ c ∈ p.components, c = .current ∨ ∃ name, c = .normal name := by
      simp only [List.all_eq_true, stays]
    simp only [checkPrefix, Path.isEmpty, List.isEmpty_iff, Option.some.injEq, forall_eq', ← all]
    split_ifs with h₁ h₂ <;> simp [*]

/-- Nothing but the two checks can fail. -/
theorem settle_accepts {source : Path} : (∃ s, options.settle current package source = .ok s) ↔
    checkWorkspace (options.workspaceFrom current) source current
        (options.outputFrom current package) = .ok () ∧
      ∃ found, checkPrefix options.layerPrefix = .ok found := by
  constructor
  · rintro ⟨s, h⟩
    have settled := settle_ok h
    refine ⟨?_, s.layerPrefix, settled.layerPrefix⟩
    have checked := settled.checked
    rwa [settled.workspace, settled.source, settled.output] at checked
  · rintro ⟨hw, found, hp⟩
    simp only [settle, workspaceFrom, outputFrom] at hw ⊢
    simp [hw, hp, Bind.bind, Except.bind, Pure.pure, Except.pure]

variable {o : Outside} {m : Machine}

/-- Options are acceptable if nothing of them is wrong, and then settings are made of them. -/
theorem settle_iff_acceptable (hc : current.Plain) (hp : options.package = some package)
    (hn : ∃ c ∈ package.name.toList, Text.isBlank c = false) (hg : options.source = some given)
    (tree : ∃ place es, m.disk.resolve m.cwd true (.absolute current given) = .ok (place, .dir es)) :
    (∃ s, options.settle current package (.absolute current given) = .ok s) ↔
      options.Acceptable m.disk m.cwd current package given := by
  have workspace : (options.workspaceFrom current).Plain := Path.plain_absolute _ _
  have output : (options.outputFrom current package).Plain := Path.plain_absolute _ _
  rw [settle_accepts, checkWorkspace_eq_ok workspace (Path.plain_absolute _ _) hc output,
    checkPrefix_eq_ok]
  exact ⟨fun ⟨⟨root, apart⟩, prefixed⟩ => ⟨hp, hn, hg, tree, root, apart, prefixed⟩,
    fun h => ⟨⟨h.notRoot, h.apart⟩, h.prefixed⟩⟩

/-- What is found of options that name a package and a source tree. -/
theorem resolve_finds {k : Kinship} {asked : Call → Prop} (steady : o.Steady k asked)
    (hr : options.required = .ok (package, given)) :
    options.resolve.Finds o k m (match m.currentPath with
      | .error e => .error (.files "resolving path" given e)
      | .ok current =>
        if m.disk.kind? m.cwd true (.absolute current given) = some .dir then
          options.settle current package (.absolute current given)
        else .error (.other
          ("source tree " ++ (Path.absolute current given).display ++ " is not a directory"))) := by
  have asks : (request .workingDirectory).Finds o k m m.currentPath :=
    finds_request rfl (reading_steady steady m _)
  unfold resolve
  rw [hr]
  refine Finds.bind asks fun n lapsed disk => ?_
  cases m.currentPath with
  | error e => exact finds_done _
  | ok current =>
    refine Finds.bind (finds_kindIs steady .dir _) fun n' _ _ => ?_
    rw [disk, lapsed.cwd]
    by_cases hk : m.disk.kind? m.cwd true (.absolute current given) = some .dir <;>
      simp only [hk, if_true, if_false, decide_true, decide_false] <;> exact finds_done _

/-- The options are accepted in the current directory exactly if they are acceptable there. -/
theorem resolve_accepts_iff (wf : m.disk.root.WellFormed) (sound : ∀ n, o.fault n = none) :
    (∃ s, (Machine.run o options.resolve m).1 = .ok s) ↔ ∃ current package given,
      m.currentPath = .ok current ∧ options.Acceptable m.disk m.cwd current package given := by
  cases hr : options.required with
  | error e =>
    have refused : (Machine.run o options.resolve m).1 = .error e := by
      unfold resolve
      rw [hr]
      rfl
    refine iff_of_false (by simp [refused]) ?_
    rintro ⟨current, package, given, -, h⟩
    rw [required_eq_ok.mpr ⟨h.packaged, h.named, h.sourced⟩] at hr
    cases hr
  | ok found =>
    obtain ⟨package, given⟩ := found
    obtain ⟨hp, hn, hg⟩ := required_eq_ok.mp hr
    have result := (resolve_finds (Outside.steady_of_sound sound) hr (m := m)).1
    unfold Machine.run
    rw [result]
    cases hc : m.currentPath with
    | error e => simp
    | ok current =>
      obtain ⟨rfl, proper⟩ := currentPath_ok wf hc
      have given_iff : (∃ current package given,
          (.ok (.ofNames m.cwd) : Except SystemError Path) = .ok current ∧
          options.Acceptable m.disk m.cwd current package given) ↔
          options.Acceptable m.disk m.cwd (.ofNames m.cwd) package given := by
        refine ⟨?_, fun h => ⟨_, package, given, rfl, h⟩⟩
        rintro ⟨_, package', given', ⟨⟩, h⟩
        obtain rfl := Option.some.inj (hp.symm.trans h.packaged)
        obtain rfl := Option.some.inj (hg.symm.trans h.sourced)
        exact h
      rw [given_iff]
      dsimp only
      split
      next hk => exact settle_iff_acceptable ⟨_, rfl, proper⟩ hp hn hg (Disk.kind?_eq_dir.mp hk)
      next hk => exact iff_of_false (by simp) fun h => hk (Disk.kind?_eq_dir.mpr h.tree)

/-- Every plain path but the root can be asked for as a workspace. -/
theorem exists_workspace {root : Path} (plain : root.Plain) (notRoot : root.names ≠ []) :
    ∃ s : Settings, s.Accepted ∧ s.workspace = root := by
  let options := { Options.small "" "/" with source := some (.ofString "/"), workspace := some root }
  have from_ : options.workspaceFrom (.ofNames []) = root := plain.absolute_eq _
  have acceptable : options.Acceptable {} [] (.ofNames []) ⟨"small", none⟩ (.ofString "/") := by
    refine ⟨rfl, ⟨'s', by decide, by decide⟩, rfl, ⟨[], [], by decide +kernel⟩, from_ ▸ notRoot,
      fun kept hk => ?_, ?_⟩
    · have atRoot : ∀ kept ∈ [Path.absolute (.ofNames []) (.ofString "/"), .ofNames [],
          .absolute (.ofNames []) (.ofString "/")], kept.names = [] := by decide +kernel
      rw [from_, atRoot kept hk, List.prefix_nil]
      exact notRoot
    · exact fun p hp => by cases hp
  have accepted : ∃ s, (Machine.run (.small []) options.resolve {}).1 = .ok s :=
    (resolve_accepts_iff .empty fun _ => rfl).mpr ⟨_, _, _, rfl, acceptable⟩
  obtain ⟨s, hs⟩ := accepted
  obtain ⟨current, package, given, settled⟩ := options.resolve_returns.run (answer (.small [])) {} s hs
  exact ⟨s, ⟨options, _, _, hs⟩, (settle_ok settled).workspace.trans (plain.absolute_eq _)⟩

/-- Whatever was asked for, settings are made of plain paths. -/
theorem plain_of_settle {s : Settings}
    (h : options.settle current package (.absolute current given) = .ok s) :
    ∀ p ∈ [s.source, s.workspace, s.dist, s.output], p.Plain := by
  have settled := settle_ok h
  have laid := laid_of_settle h
  have dist : s.dist.Plain := by
    rw [settled.dist]
    split
    next dir _ => exact Path.plain_absolute current dir
    next =>
      refine ⟨s.workspace.names ++ [Bytes.ofString "dist"], ?_, fun name hn => ?_⟩
      · rw [← Path.child_ofNames laid.workspace.proper laid.notRoot Workspace.properName_dist,
          ← laid.written.1]
        rfl
      · rcases List.mem_append.mp hn with hn | hn
        · exact laid.workspace.proper name hn
        · exact List.mem_singleton.mp hn ▸ Workspace.properName_dist
  simp only [List.mem_cons, List.not_mem_nil, or_false]
  rintro p (rfl | rfl | rfl | rfl)
  · exact settled.source ▸ Path.plain_absolute _ _
  · exact settled.workspace ▸ Path.plain_absolute _ _
  · exact dist
  · exact settled.output ▸ Path.plain_absolute _ _

end Options

theorem Settings.Accepted.plain {s : Settings} (h : s.Accepted) :
    ∀ p ∈ [s.source, s.workspace, s.dist, s.output], p.Plain := by
  obtain ⟨options, o, m, hr⟩ := h
  obtain ⟨current, package, given, hs⟩ := options.resolve_returns.run (answer o) m s hr
  exact Options.plain_of_settle hs

namespace Options

variable {options : Options} {o : Outside} {m : Machine}

/-- What acceptance asks for and what it gives. The options are accepted exactly if they are acceptable;
the paths of accepted settings are plain, and the directory of wheels counts as a part of the workspace
exactly if its names begin with those of the workspace. -/
theorem resolve_accepts (wf : m.disk.root.WellFormed) (sound : ∀ n, o.fault n = none) :
    ((∃ s, (Machine.run o options.resolve m).1 = .ok s) ↔ ∃ current package given,
      m.currentPath = .ok current ∧ options.Acceptable m.disk m.cwd current package given) ∧
    ∀ s : Settings, s.Accepted →
      (∀ p ∈ [s.source, s.workspace, s.dist, s.output], p.Plain) ∧
      (s.distInWorkspace = true ↔ s.workspace.names <+: s.dist.names) := by
  refine ⟨resolve_accepts_iff wf sound, fun s accepted => ⟨accepted.plain, ?_⟩⟩
  exact accepted.placed.dist.startsWith accepted.laid.workspace

/-- Parents above the root are the root, and a workspace is not above a path that only begins with its
text. -/
theorem small_options_accepted :
    (Machine.small []).disk.root.WellFormed ∧ (∀ n, (Outside.small []).fault n = none) ∧
    (Settings.small "/ws" "/ws2/out.zip").Accepted ∧
    (∃ current package given, (Machine.small []).currentPath = .ok current ∧
      (small "x/.././ws//" "../../ws2/out.zip").Acceptable (Machine.small []).disk
        (Machine.small []).cwd current package given) ∧
    (Settings.small "/ws" "/ws2/out.zip").output.Plain := by
  have wf : (Machine.small []).disk.root.WellFormed := by decide +kernel
  have sound : ∀ n, (Outside.small []).fault n = none := fun _ => rfl
  have result : (Machine.run (.small []) (small "x/.././ws//" "../../ws2/out.zip").resolve
      (.small [])).1 = .ok (.small "/ws" "/ws2/out.zip") := by decide +kernel
  have accepted : (Settings.small "/ws" "/ws2/out.zip").Accepted := ⟨_, _, _, result⟩
  have ⟨acceptable, settings⟩ :=
    @resolve_accepts (small "x/.././ws//" "../../ws2/out.zip") _ _ wf sound
  exact ⟨wf, sound, accepted, acceptable.mp ⟨_, result⟩, (settings _ accepted).1 _ (by simp)⟩

end Options

end LayerPack
