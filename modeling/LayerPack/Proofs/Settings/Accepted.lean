import LayerPack.Machine.Script
import LayerPack.Proofs.Path.Parts
import LayerPack.Proofs.Program.Requests
import LayerPack.Settings.Options
import Mathlib.Control.Monad.Basic

/-! Accepted settings: those that the check of some options has made. Their workspace and their
output are absolute paths without dots; the workspace is no root, and the output lies outside. -/
namespace LayerPack

open Program

namespace Path

/-- The names of an absolute path. -/
def names (p : Path) : List Name := settle [] p.components

theorem settle_names (front names : List Name) :
    settle front (names.map .normal) = front ++ names := by
  induction names generalizing front with
  | nil => simp [settle]
  | cons name rest ih => rw [List.map_cons, settle, ih, List.append_assoc, List.singleton_append]

theorem Spells.names_eq {p : Path} {names : List Name} (h : p.Spells names) : p.names = names := by
  rw [Path.names, h.components, settle, settle_names, List.nil_append]

theorem spells_absolute (cwd p : Path) : (Path.absolute cwd p).Spells (Path.absolute cwd p).names := by
  have h := Spells.absolute' cwd p
  rwa [h.names_eq]

theorem Spells.startsWith {p base : Path} {names front : List Name} (hp : p.Spells names)
    (hb : base.Spells front) : p.startsWith base = true ↔ front <+: names := by
  rw [Path.startsWith, hp.components, hb.components, List.isPrefixOf_iff_prefix,
    List.cons_prefix_cons]
  refine ⟨fun h => ?_, fun h => ⟨rfl, h.map _⟩⟩
  obtain ⟨rest, hrest⟩ := h.2
  obtain ⟨before, after, rfl, hf, -⟩ := List.map_eq_append_iff.mp hrest.symm
  obtain rfl : before = front := (List.map_inj_right fun _ _ h => by cases h; rfl).mp hf
  exact List.prefix_append _ _

end Path

namespace Settings

/-- Where the workspace and the output of settings are. -/
structure Laid (s : Settings) : Prop where
  workspace : s.workspace.Spells s.workspace.names
  output : s.output.Spells s.output.names
  written : s.workspace = .ofNames s.workspace.names ∧ s.output = .ofNames s.output.names
  notRoot : s.workspace.names ≠ []
  apart : ¬ s.workspace.names <+: s.output.names

theorem Laid.workspace_ne {s : Settings} (h : s.Laid) : s.workspace ≠ s.output := fun he =>
  h.apart (he ▸ List.prefix_rfl)

/-- The settings are the result of a check of options. -/
def Accepted (s : Settings) : Prop :=
  ∃ (options : Options) (o : Outside) (m : Machine), (Machine.run o options.resolve m).1 = .ok s

end Settings

namespace Options

variable {options : Options} {current source : Path} {package : Package} {s : Settings}

/-- A checked workspace is no root, and nothing that is to be kept begins with it. -/
theorem checkWorkspace_ok {workspace output : Path}
    (h : checkWorkspace workspace source current output = .ok ()) :
    workspace.parent?.isNone = false ∧ source.startsWith workspace = false ∧
      current.startsWith workspace = false ∧ output.startsWith workspace = false := by
  unfold checkWorkspace at h
  cases hw : workspace.parent?.isNone <;> rw [hw] at h
  case true => cases h
  cases hs : source.startsWith workspace <;> rw [hs] at h
  case true => cases h
  cases hc : current.startsWith workspace <;> rw [hc] at h
  case true => cases h
  cases ho : output.startsWith workspace <;> rw [ho] at h
  case true => cases h
  exact ⟨rfl, rfl, rfl, rfl⟩

/-- The places of settings, and the checks that they have passed. -/
structure Settles (options : Options) (current : Path) (package : Package) (source : Path)
    (s : Settings) : Prop where
  source : s.source = source
  workspace : s.workspace = .absolute current (options.workspace.getD defaultWorkspace)
  dist : s.dist = match options.dist with
    | some dir => .absolute current dir
    | none => s.workspace.join (.ofString "dist")
  output : s.output = .absolute current (options.output.getD (.ofString package.archiveName))
  checked : checkWorkspace s.workspace s.source current s.output = .ok ()
  layerPrefix : checkPrefix options.layerPrefix = .ok s.layerPrefix

/-- Settings are made only if both checks are passed. -/
theorem checks_of_settle (h : options.settle current package source = .ok s) :
    checkWorkspace (.absolute current (options.workspace.getD defaultWorkspace)) source current
        (.absolute current (options.output.getD (.ofString package.archiveName))) = .ok () ∧
      ∃ layerPrefix, checkPrefix options.layerPrefix = .ok layerPrefix := by
  unfold settle at h
  dsimp only at h
  cases hc : checkWorkspace (.absolute current (options.workspace.getD defaultWorkspace)) source
    current (.absolute current (options.output.getD (.ofString package.archiveName))) with
  | error e =>
    rw [hc] at h
    cases h
  | ok =>
    rw [hc] at h
    cases hp : checkPrefix options.layerPrefix with
    | error e =>
      rw [hp] at h
      cases h
    | ok layerPrefix => exact ⟨rfl, layerPrefix, rfl⟩

theorem settle_ok (h : options.settle current package source = .ok s) :
    options.Settles current package source s := by
  obtain ⟨hc, layerPrefix, hp⟩ := checks_of_settle h
  unfold settle at h
  dsimp only at h
  rw [hc, hp] at h
  obtain rfl := Except.ok.inj h
  exact ⟨rfl, rfl, rfl, rfl, hc, hp⟩

/-- What settings take over from the options as it is. -/
structure Kept (options : Options) (package : Package) (s : Settings) : Prop where
  package : s.package = package
  python : s.python = options.python.getD defaultPython
  frontend : s.frontend = options.frontend
  target : s.target = options.target
  pipArgs : s.pipArgs = options.pipArgs
  reconcile : s.reconcile = !options.skipReconcile

theorem kept_of_settle (h : options.settle current package source = .ok s) : options.Kept package s := by
  obtain ⟨hc, layerPrefix, hp⟩ := checks_of_settle h
  unfold settle at h
  dsimp only at h
  rw [hc, hp] at h
  obtain rfl := Except.ok.inj h
  exact ⟨rfl, rfl, rfl, rfl, rfl, rfl⟩

theorem laid_of_settle (h : options.settle current package source = .ok s) : s.Laid := by
  have settled := settle_ok h
  obtain ⟨noRoot, -, -, outside⟩ := checkWorkspace_ok settled.checked
  have written (p : Path) : Path.absolute current p = .ofNames (Path.absolute current p).names :=
    congrArg Path.ofNames (Path.Spells.absolute' current p).names_eq.symm
  have workspace : s.workspace.Spells s.workspace.names :=
    settled.workspace ▸ Path.spells_absolute _ _
  have output : s.output.Spells s.output.names := settled.output ▸ Path.spells_absolute _ _
  have written : s.workspace = .ofNames s.workspace.names ∧ s.output = .ofNames s.output.names := by
    constructor
    · rw [settled.workspace]
      exact written _
    · rw [settled.output]
      exact written _
  refine ⟨workspace, output, written, fun hnil => ?_, fun hpre => ?_⟩
  · rw [written.1, hnil] at noRoot
    cases noRoot
  · rw [(output.startsWith workspace).mpr hpre] at outside
    cases outside

theorem resolve_returns (options : Options) : options.resolve.Returns fun r => ∀ s, r = .ok s →
    ∃ current package given,
      options.settle current package (.absolute current given) = .ok s := by
  unfold resolve
  cases options.required with
  | error e => exact fun _ h => by cases h
  | ok found =>
    intro r
    cases r with
    | error e => exact fun _ h => by cases h
    | ok current =>
      refine (returns_true (Files.isDir _)).bind fun there _ => ?_
      split
      · exact fun s h => ⟨_, _, _, h⟩
      · exact fun _ h => by cases h

end Options

/-- Accepted settings are made of the paths that were asked for. -/
theorem Settings.Accepted.settled {s : Settings} (h : s.Accepted) :
    ∃ options current package source, Options.settle options current package source = .ok s := by
  obtain ⟨options, o, m, hr⟩ := h
  obtain ⟨current, package, given, hs⟩ := options.resolve_returns.run (Machine.answer o) m s hr
  exact ⟨options, current, package, .absolute current given, hs⟩

theorem Settings.Accepted.laid {s : Settings} (h : s.Accepted) : s.Laid := by
  obtain ⟨options, current, package, source, hs⟩ := h.settled
  exact Options.laid_of_settle hs

/-! ### Small runs -/

/-- A package of which nothing more is asked than where to work. -/
def Options.small (workspace output : String) : Options where
  package := some ⟨"small", none⟩
  source := some (.ofString "/src")
  workspace := some (.ofString workspace)
  output := some (.ofString output)

def Settings.small (workspace output : String) : Settings where
  package := ⟨"small", none⟩
  source := .ofString "/src"
  workspace := .ofString workspace
  dist := .ofString (workspace ++ "/dist")
  output := .ofString output
  python := Options.defaultPython
  frontend := .pip
  layerPrefix := none
  target := {}
  pipArgs := []
  stageTimeout := none
  keepWorkspace := false
  reconcile := true

/-- Some entries in the root, next to an empty source tree. -/
def Machine.small (entries : List (String × Node)) : Machine where
  disk := { root := .dir (("src", .dir []) :: entries |>.map fun e => (Bytes.ofString e.1, e.2)) }

/-- Collaborators that build an empty wheel and install an empty module, and then do what more they
like. -/
def Outside.small (more : List Planting) : Outside :=
  .scripted fun
    | .build .. => { files := [.file (.ofString "small-1-py3-none-any.whl") 0o644 .empty] }
    | .installInto .. => { files := .file (.ofString "small.py") 0o644 .empty :: more }
    | _ => {}

/-- A builder that puts a directory in the place of its own, and an installer that puts one with a
single file. The environment stays as it is. -/
def Outside.stocking (built : Entries) : Outside where
  collaborate call m :=
    let put (p : Path) (es : Entries) : Machine := { m with disk := m.disk.put p.names (.dir es) }
    match call with
    | .build _ dist => (some (.ok ()), put dist built)
    | .installInto _ target => (some (.ok ()),
        put target [(Bytes.ofString "small.py", .file 0 0o644 .empty)])
    | .isInstalled _ => (some (.ok false), m)
    | .uninstall _ | .install _ => (some (.ok ()), m)
  process _ _ m := (none, m)

example : (Settings.small "/work" "/out.zip").Accepted :=
  ⟨.small "/work" "/out.zip", .small [], .small [], by decide +kernel⟩

end LayerPack
