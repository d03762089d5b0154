import LayerPack.Proofs.CommandLine.Preparing
import LayerPack.Proofs.Path.Resolution
import LayerPack.Proofs.Settings.Acceptance
import LayerPack.Proofs.Text.Utf8

/-! Who decides an option. The command line comes first, then what the project declares, then the
default; what is decided by one of them does not depend on those behind it. Paths of the command line
start from the current directory, those of the project from its source tree. -/
namespace LayerPack

open Program Machine

/-- The value of an option is that of the command line, or that of the project where the former gives
none, or the default. -/
inductive Decides {α β γ : Type} (given : Option α) (declared : Option β) (ofGiven : α → γ)
    (ofDeclared : β → γ) (default : γ) : γ → Prop
  | commandLine {a : α} (h : given = some a) : Decides given declared ofGiven ofDeclared default (ofGiven a)
  | project {b : β} (hn : given = none) (h : declared = some b) :
    Decides given declared ofGiven ofDeclared default (ofDeclared b)
  | neither (hn : given = none) (h : declared = none) :
    Decides given declared ofGiven ofDeclared default default

theorem Decides.of_eq {α β γ : Type} {given : Option α} {declared : Option β} {ofGiven : α → γ}
    {ofDeclared : β → γ} {default value : γ}
    (h : value = ((given.map ofGiven).or (declared.map ofDeclared)).getD default) :
    Decides given declared ofGiven ofDeclared default value := by
  subst h
  cases given with
  | some a => exact .commandLine rfl
  | none =>
    cases declared with
    | some b => exact .project rfl rfl
    | none => exact .neither rfl rfl

namespace Args

variable {a : Args} {m m' : Metadata} {s : Settings} {options : Options} {current : Path}

/-- A list of a repeatable option; an empty one gives nothing. -/
def listed (texts : List String) : Option (List String) := if texts = [] then none else some texts

/-- The prefix that a text asks for; an empty one is none. -/
def prefixOf (text : String) : Option Path :=
  if text = "" then none else some (.ofString text)

/-- The settings of a run, option by option: who decides it, and what is made of the value. -/
structure Merged (a : Args) (m : Metadata) (current : Path) (s : Settings) : Prop where
  source : s.source = .absolute current a.source
  name : Decides a.projectName m.name (some ∘ Text.trim) (some ∘ Text.trim) none (some s.package.name)
  output : Decides a.output m.layer.output (Path.absolute current)
    (fun text => Path.absolute s.source (.ofString text))
    (Path.absolute current (.ofString s.package.archiveName)) s.output
  workspace : Decides a.workspace m.layer.workspace (Path.absolute current)
    (fun text => Path.absolute s.source (.ofString text))
    (Path.absolute current Options.defaultWorkspace) s.workspace
  python : Decides a.python m.layer.python id (declaredPython a.source) Options.defaultPython s.python
  frontend : Decides a.frontend m.layer.frontend id id .pip s.frontend
  layerPrefix : Decides a.layerPrefix m.layer.layerPrefix prefixOf prefixOf none s.layerPrefix
  platforms : Decides (listed a.platforms) (listed m.layer.platforms) id id [] s.target.platforms
  pythonVersion : Decides a.pythonVersion m.layer.pythonVersion some some none s.target.pythonVersion
  implementation : Decides a.implementation m.layer.implementation some some none s.target.implementation
  pipArgs : Decides (listed a.pipArgs) (listed m.layer.pipArgs) id id [] s.pipArgs
  reconcile : s.reconcile = false ↔ a.skipReconcile = true ∨ m.layer.skipReconcile = some true

theorem pickPath_eq (given : Option Path) (declared : Option String) (source : Path) :
    pickPath given declared source = given.or (declared.map fun text => source.join (.ofString text)) := by
  cases given <;> cases declared <;> rfl

theorem pickList_eq (given declared : List String) :
    pickList given declared = (((listed given).map id).or ((listed declared).map id)).getD [] := by
  unfold pickList listed
  cases given <;> cases declared <;> rfl

/-- A path that is picked leads from the current directory, or from the source tree. -/
theorem absolute_pickPath (given : Option Path) (declared : Option String) (source default : Path) :
    Path.absolute current ((pickPath given declared source).getD default) =
      ((given.map (Path.absolute current)).or (declared.map fun text =>
        Path.absolute (.absolute current source) (.ofString text))).getD (.absolute current default) := by
  rw [pickPath_eq]
  cases given with
  | some p => rfl
  | none =>
    cases declared with
    | some text => exact Path.absolute_join _ _ _
    | none => rfl

theorem checkPrefix_ofString {text : Option String} {found : Option Path}
    (h : Options.checkPrefix (text.map Path.ofString) = .ok found) : found = text.bind prefixOf := by
  cases text with
  | none => exact (Except.ok.inj h).symm
  | some text =>
    have empty : (Path.ofString text).isEmpty = true ↔ text = "" := by
      rw [Path.isEmpty, List.isEmpty_iff]
      exact ⟨fun h => Bytes.ofString_injective (t := "") h, fun h => h ▸ rfl⟩
    simp only [Option.map_some, Options.checkPrefix, empty] at h
    rw [Option.bind_some, prefixOf]
    split at h
    next he => rw [if_pos he, Except.ok.inj h]
    next he =>
      rw [if_neg he]
      split at h
      · exact (Except.ok.inj h).symm
      · cases h

/-- Settings that are made of the options are what their options are decided to be. -/
theorem merged_of_settle {package : Package} {given : Path} (ho : a.options m = .ok options)
    (hp : options.package = some package) (hg : options.source = some given)
    (hs : options.settle current package (.absolute current given) = .ok s) : a.Merged m current s := by
  have settled := Options.settle_ok hs
  have kept := Options.kept_of_settle hs
  unfold Args.options at ho
  split at ho
  next => cases ho
  next name hn =>
    cases ho
    cases hp
    cases hg
    constructor
    case source => exact settled.source
    case name =>
      refine .of_eq ?_
      rw [kept.package]
      rcases Option.or_eq_some_iff.mp hn with h | ⟨h, h'⟩
      · simp [h]
      · simp [h, h']
    case output =>
      refine .of_eq ?_
      rw [settled.output, absolute_pickPath, settled.source, kept.package]
    case workspace =>
      refine .of_eq ?_
      rw [settled.workspace, absolute_pickPath, settled.source]
    case python =>
      refine .of_eq ?_
      rw [kept.python, Option.map_id_fun, id]
    case frontend =>
      refine .of_eq ?_
      rw [kept.frontend, Option.map_id_fun, id, id]
    case layerPrefix =>
      refine .of_eq ?_
      rw [checkPrefix_ofString settled.layerPrefix]
      cases a.layerPrefix <;> cases m.layer.layerPrefix <;> simp
    case platforms =>
      refine .of_eq ?_
      rw [kept.target]
      exact pickList_eq _ _
    case pythonVersion =>
      refine .of_eq ?_
      rw [kept.target]
      cases h : a.pythonVersion <;> cases h' : m.layer.pythonVersion <;> simp [target, h, h']
    case implementation =>
      refine .of_eq ?_
      rw [kept.target]
      cases h : a.implementation <;> cases h' : m.layer.implementation <;> simp [target, h, h']
    case pipArgs =>
      refine .of_eq ?_
      rw [kept.pipArgs]
      exact pickList_eq _ _
    case reconcile =>
      rw [kept.reconcile]
      cases a.skipReconcile <;> cases m.layer.skipReconcile <;> simp

/-- Metadata that differ at most in what the command line gives. -/
structure Overridden (a : Args) (m m' : Metadata) : Prop where
  version : m.version = m'.version
  name : a.projectName = none → m.name = m'.name
  output : a.output = none → m.layer.output = m'.layer.output
  workspace : a.workspace = none → m.layer.workspace = m'.layer.workspace
  python : a.python = none → m.layer.python = m'.layer.python
  frontend : a.frontend = none → m.layer.frontend = m'.layer.frontend
  layerPrefix : a.layerPrefix = none → m.layer.layerPrefix = m'.layer.layerPrefix
  platforms : a.platforms = [] → m.layer.platforms = m'.layer.platforms
  pythonVersion : a.pythonVersion = none → m.layer.pythonVersion = m'.layer.pythonVersion
  implementation : a.implementation = none → m.layer.implementation = m'.layer.implementation
  pipArgs : a.pipArgs = [] → m.layer.pipArgs = m'.layer.pipArgs
  skipReconcile : a.skipReconcile = false → m.layer.skipReconcile = m'.layer.skipReconcile

theorem or_eq_of_none {α : Type} {given declared declared' : Option α}
    (h : given = none → declared = declared') : given.or declared = given.or declared' := by
  cases given with
  | some a => rfl
  | none => rw [h rfl]

theorem pickList_eq_of_nil {given declared declared' : List String} (h : given = [] → declared = declared') :
    pickList given declared = pickList given declared' := by
  cases given with
  | nil => rw [h rfl]
  | cons text rest => rfl

/-- What the command line gives is not looked for anywhere else. -/
theorem Overridden.options_eq (h : a.Overridden m m') : a.options m = a.options m' := by
  have python : a.python.or (m.layer.python.map (declaredPython a.source)) =
      a.python.or (m'.layer.python.map (declaredPython a.source)) := or_eq_of_none fun hn => by rw [h.python hn]
  have path {given : Option Path} {declared declared' : Option String}
      (h : given = none → declared = declared') :
      pickPath given declared a.source = pickPath given declared' a.source := by
    rw [pickPath_eq, pickPath_eq]
    exact or_eq_of_none fun hn => by rw [h hn]
  have target : a.target m.layer = a.target m'.layer := by
    rw [Args.target, Args.target, pickList_eq_of_nil h.platforms, or_eq_of_none h.pythonVersion,
      or_eq_of_none h.implementation]
  have skip : (a.skipReconcile || m.layer.skipReconcile.getD false) =
      (a.skipReconcile || m'.layer.skipReconcile.getD false) := by
    cases hs : a.skipReconcile with
    | true => rfl
    | false => rw [h.skipReconcile hs]
  rw [Args.options, Args.options, or_eq_of_none h.name, h.version, path h.workspace, path h.output, python,
    or_eq_of_none h.frontend, or_eq_of_none h.layerPrefix, target, pickList_eq_of_nil h.pipArgs, skip]

variable {o : Outside} {n : Machine}

/-- What is refused is a usage error, whatever the reason. -/
theorem settings_refused : (a.settings m).Ends (answer o) n fun r _ _ => ∀ e, r = .error e →
    ((e = missingName ∧ a.projectName = none ∧ m.name = none) ∨ ∃ reason, e = .invalidArguments reason) ∧
      e.exitCode = 2 := by
  unfold settings
  cases ho : a.options m with
  | error e =>
    rintro _ ⟨⟩
    obtain rfl := options_error ho
    refine ⟨.inl ⟨rfl, ?_⟩, rfl⟩
    unfold Args.options at ho
    split at ho
    next hn => exact Option.or_eq_none_iff.mp hn
    next => cases ho
  | ok options =>
    refine Ends.bind (M := fun _ _ _ => True) trivial fun r _ _ _ => ?_
    cases r with
    | ok s => exact fun _ h => by cases h
    | error e =>
      rintro _ ⟨⟩
      exact ⟨.inr ⟨_, rfl⟩, rfl⟩

theorem settings_merged : (a.settings m).Ends (answer o) n fun r _ _ => ∀ s, r = .ok s →
    a.Merged m (.ofNames n.cwd) s := by
  unfold settings
  cases ho : a.options m with
  | error e => exact fun _ h => by cases h
  | ok options =>
    refine Ends.bind options.resolve_settles fun r _ _ hr => ?_
    cases r with
    | error e => exact fun _ h => by cases h
    | ok s =>
      rintro _ ⟨⟩
      obtain ⟨package, given, -, required, hs⟩ := hr s rfl
      obtain ⟨hp, -, hg⟩ := Options.required_eq_ok.mp required
      exact merged_of_settle ho hp hg hs

/-- From an absolute source tree, what the project declares leads to the same place from everywhere. -/
theorem Merged.same_places {current current' : Path} {s' : Settings} (h : a.Merged m current s)
    (h' : a.Merged m current' s') (absolute : a.source.isAbsolute) : s.source = s'.source ∧
      (a.output = none → m.layer.output ≠ none → s.output = s'.output) ∧
      (a.workspace = none → m.layer.workspace ≠ none → s.workspace = s'.workspace) := by
  have source : s.source = s'.source := by
    rw [h.source, h'.source]
    exact Path.absolute_of_isAbsolute absolute _ _
  have same {given : Option Path} {declared : Option String} {f f' : Path → Path} {p p' default default' : Path}
      (hp : Decides given declared f (fun text => Path.absolute s.source (.ofString text)) default p)
      (hp' : Decides given declared f' (fun text => Path.absolute s'.source (.ofString text)) default' p')
      (hn : given = none) (hd : declared ≠ none) : p = p' := by
    cases hp with
    | commandLine hg => cases hn.symm.trans hg
    | neither _ hd' => exact absurd hd' hd
    | project _ ht =>
      cases hp' with
      | commandLine hg => cases hn.symm.trans hg
      | neither _ hd' => exact absurd hd' hd
      | project _ ht' =>
        cases ht.symm.trans ht'
        rw [source]
  exact ⟨source, same h.output h'.output, same h.workspace h'.workspace⟩

/-- The command line takes precedence over the project. Each option of accepted settings is what the
command line gives, or what the project declares where the former gives nothing, or the default, and
the environment is left alone exactly if one of them asks for it. What the project says of an option
that the command line gives plays no part in anything. Declared paths start from the source tree, and if
that is absolute they do not depend on the current directory. What is refused is a usage error. -/
theorem settings_precedence (a : Args) (m : Metadata) :
    (∀ o n s, (Machine.run o (a.settings m) n).1 = .ok s → a.Merged m (.ofNames n.cwd) s) ∧
      (∀ m', a.Overridden m m' → a.settings m = a.settings m') ∧
      (a.source.isAbsolute → ∀ o n s, (Machine.run o (a.settings m) n).1 = .ok s →
        ∀ o' n' s', (Machine.run o' (a.settings m) n').1 = .ok s' →
          (a.output = none → m.layer.output ≠ none → s.output = s'.output) ∧
            (a.workspace = none → m.layer.workspace ≠ none → s.workspace = s'.workspace)) ∧
      ∀ o n e, (Machine.run o (a.settings m) n).1 = .error e →
        ((e = missingName ∧ a.projectName = none ∧ m.name = none) ∨
            ∃ reason, e = .invalidArguments reason) ∧ e.exitCode = 2 := by
  refine ⟨fun o n s h => settings_merged s h, fun m' h => ?_, fun absolute o n s h o' n' s' h' => ?_,
    fun o n e h => settings_refused e h⟩
  · rw [settings, settings, h.options_eq]
  · exact ((settings_merged s h).same_places (settings_merged s' h') absolute).2

/-- The output is that of the command line, from the current directory, and the workspace that of the
project, from its source tree. -/
example : (Machine.run (.small []) (settings
      { source := .ofString "src", projectName := some "small", output := some (.ofString "out.zip") }
      { layer := { output := some "dist/out.zip", workspace := some "../work" } })
    (.small [])).1.map (fun s => (s.output, s.workspace)) =
      .ok (.ofString "/out.zip", .ofString "/work") := by decide +kernel

end Args

end LayerPack
