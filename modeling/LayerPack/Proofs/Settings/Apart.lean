import LayerPack.Proofs.Machine.Answers
import LayerPack.Proofs.Settings.Accepted

/-! What the check of a workspace has made sure of. The names that the workspace spells are not a
beginning of those of the source tree, of the current directory, or of the output. Only what the
paths spell is compared; the disk is not asked where they lead. -/
namespace LayerPack

open Program Machine

namespace Settings

/-- The settings are the result of a check of options in a directory. -/
def AcceptedIn (s : Settings) (cwd : Place) : Prop :=
  ∃ (options : Options) (o : Outside) (m : Machine), m.disk.root.WellFormed ∧ m.cwd = cwd ∧
    (Machine.run o options.resolve m).1 = .ok s

theorem AcceptedIn.accepted {s : Settings} {cwd : Place} (h : s.AcceptedIn cwd) : s.Accepted := by
  obtain ⟨options, o, m, -, -, hr⟩ := h
  exact ⟨options, o, m, hr⟩

/-- By their names, the source tree and the current directory lie outside of the workspace. -/
structure Apart (s : Settings) (cwd : Place) : Prop where
  source : ¬ s.workspace.names <+: s.source.names
  current : ¬ s.workspace.names <+: cwd

end Settings

namespace Options

variable {options : Options} {current source : Path} {package : Package} {s : Settings}

theorem apart_of_settle {cwd : Place} {given : Path} (hcwd : ∀ name ∈ cwd, ProperName name)
    (h : options.settle (.ofNames cwd) package (.absolute (.ofNames cwd) given) = .ok s) :
    s.Apart cwd := by
  have settled := settle_ok h
  obtain ⟨-, source, current, -⟩ := checkWorkspace_ok settled.checked
  have workspace : s.workspace.Spells s.workspace.names :=
    settled.workspace ▸ Path.spells_absolute _ _
  constructor
  · intro hpre
    have spells : s.source.Spells s.source.names := settled.source ▸ Path.spells_absolute _ _
    rw [(spells.startsWith workspace).mpr hpre] at source
    cases source
  · intro hpre
    rw [((Path.Spells.ofNames hcwd).startsWith workspace).mpr hpre] at current
    cases current

/-- The current directory is a directory, and its path is made of its names. -/
theorem currentPath_ok {m : Machine} {current : Path} (wf : m.disk.root.WellFormed)
    (h : m.currentPath = .ok current) :
    current = .ofNames m.cwd ∧ ∀ name ∈ m.cwd, ProperName name := by
  unfold currentPath at h
  split at h
  next es hd => exact ⟨(Except.ok.inj h).symm, wf.properName hd⟩
  next => cases h

/-- Settings are made of the options from the current directory on. -/
theorem resolve_settles {o : Outside} {m : Machine} :
    options.resolve.Ends (answer o) m fun r _ _ => ∀ s, r = .ok s → ∃ package given,
      m.currentPath = .ok (.ofNames m.cwd) ∧ options.required = .ok (package, given) ∧
        options.settle (.ofNames m.cwd) package (.absolute (.ofNames m.cwd) given) = .ok s := by
  unfold resolve
  cases options.required with
  | error e => exact fun _ h => by cases h
  | ok found =>
    obtain ⟨package, given⟩ := found
    refine Ends.bind (p := request .workingDirectory)
      (M := fun r _ _ => ∀ current, r = .ok current → m.currentPath = .ok current)
      (fun _ h => reading_ok h) fun r _ m₁ hr => ?_
    cases r with
    | error e => exact fun _ h => by cases h
    | ok current =>
      have here := hr current rfl
      obtain rfl : current = .ofNames m.cwd := by
        unfold currentPath at here
        split at here <;> cases here
        rfl
      refine Ends.bind (M := fun _ _ _ => True) trivial fun there _ _ _ => ?_
      cases there with
      | false => exact fun _ h => by cases h
      | true =>
        rw [if_pos rfl]
        exact fun s h => ⟨package, given, here, rfl, h⟩

end Options

theorem Settings.AcceptedIn.apart {s : Settings} {cwd : Place} (h : s.AcceptedIn cwd) :
    s.Apart cwd := by
  obtain ⟨options, o, m, wf, rfl, hr⟩ := h
  obtain ⟨package, given, here, -, settled⟩ := options.resolve_settles s hr
  exact Options.apart_of_settle (Options.currentPath_ok wf here).2 settled

end LayerPack
