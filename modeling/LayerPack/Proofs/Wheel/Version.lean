import LayerPack.Proofs.Pipeline.Whole
import LayerPack.Proofs.Settings.Accepted
import LayerPack.Proofs.Wheel.Belonging

/-! The version that is told of a selected wheel. A wheel is selected by the stem of its file name, and
its version is read off the file name. Both readings agree where the stem goes on behind its version;
where it ends with the version, the version is told together with the suffix. -/
namespace LayerPack

open Program

namespace Wheel

variable {project : String} {dist : Path} {wheel : Wheel} {fileName name version rest : String}

/-! ### The two readings of a file name -/

/-- The file name of a wheel, whose stem has a name up to its first dash and a version from there to the
next dash or to its end. -/
structure Stemmed (fileName name version rest : String) : Prop where
  written : fileName = name ++ "-" ++ version ++ rest ++ ".whl"
  name : '-' ∉ name.toList
  version : '-' ∉ version.toList
  rest : rest = "" ∨ ∃ more, rest = "-" ++ more

/-- The version that is told: a stem that ends with its version lends it the suffix. -/
def toldVersion (version rest : String) : String := if rest = "" then version ++ ".whl" else version

theorem toldVersion_eq_iff : toldVersion version rest = version ↔ rest ≠ "" := by
  unfold toldVersion
  split
  next h => simp [h, ← String.toList_inj]
  next h => exact iff_of_true rfl h

theorem version?_of_stemmed (h : Stemmed wheel.fileName name version rest) :
    wheel.version? = some (toldVersion version rest) := by
  have chars : wheel.fileName.toList =
      name.toList ++ '-' :: (version.toList ++ (rest.toList ++ ".whl".toList)) := by
    rw [h.written]
    simp
  rw [version?, chars, Text.splitAll_append h.name]
  rcases h.rest with rfl | ⟨more, rfl⟩
  · have noDash : '-' ∉ version.toList ++ ("".toList ++ ".whl".toList) := by simp [h.version]
    rw [Text.splitAll_of_notMem noDash]
    simp [toldVersion, String.ofList_append]
  · have more : ("-" ++ more).toList ++ ".whl".toList = '-' :: (more.toList ++ ".whl".toList) := by simp
    rw [more, Text.splitAll_append h.version]
    simp [toldVersion, ← String.toList_inj]

/-- Every name of a wheel has a stem that can be read so. -/
theorem stemmed_of_named {text : String} (h : Named project (Bytes.ofString text)) :
    ∃ name version rest, Stemmed text name version rest ∧
      ProjectName.canonical name = ProjectName.canonical project := by
  obtain ⟨name, after, written, -, hn, -, same⟩ := h
  have written := Bytes.ofString_injective written
  by_cases hd : '-' ∈ after.toList
  · obtain ⟨version, more, cut, hv⟩ := List.eq_append_cons_of_mem hd
    refine ⟨name, .ofList version, "-" ++ .ofList more, ⟨?_, hn, by simpa using hv, .inr ⟨_, rfl⟩⟩, same⟩
    rw [written]
    refine String.toList_injective ?_
    simp [cut]
  · exact ⟨name, after, "", ⟨by simpa using written, hn, hd, .inl rfl⟩, same⟩

end Wheel

namespace Pipeline

variable {P : Wheel → Prop}

theorem buildWheel_yields (t : Toolchain) (source dist : Path) (project : String)
    (selected : (Wheel.select dist project).Yields P) : (buildWheel t source dist project).Yields P :=
  (Work.yields_true _).bind fun _ _ => (Work.yields_true _).bind fun _ _ => selected.bind fun _ h =>
    (Work.yields_true _).bind fun _ _ => Work.yields_pure h

/-- What a report tells of its wheel: it is the selected one, and without a version in the settings its
version is told. -/
def Reported (s : Settings) (P : Wheel → Prop) (report : Report) : Prop :=
  P report.wheel ∧ report.version = s.package.version.or report.wheel.version?

theorem finish_reported {s : Settings} {t : Toolchain} {startedAt : Nat} {workspace : Workspace}
    {wheel : Wheel} {treeDigest : String} {archive : Archive.Summary} (hw : P wheel) (p : Progress) :
    (finish s t startedAt workspace wheel treeDigest archive p).Returns fun r =>
      ∀ report, r.1 = .ok report → Reported s P report := by
  refine Steps.returns_bind (P := fun _ => True) (returns_true _) (fun replaced p' _ => ?_)
    fun _ _ _ _ h => by cases h
  rintro _ ⟨⟩
  exact ⟨hw, rfl⟩

theorem run_reported (s : Settings) (t : Toolchain) (previous : RunState)
    (selected : (Wheel.select s.dist s.project).Yields P) : (run s t previous).Returns fun r =>
      ∀ report, r.1 = .ok report → Reported s P report := by
  intro startedAt
  have reported : (stages s t startedAt { state := previous }).Returns fun r =>
      ∀ report, r.1 = .ok report → Reported s P report := by
    have failed (failure : Failure) (report : Report)
        (h : (Except.error failure : Except Failure Report) = .ok report) : Reported s P report := by
      cases h
    refine Steps.returns_bind (returns_stage (Work.yields_true _)) (fun workspace p₁ _ => ?_)
      fun failure _ _ => failed failure
    change (laterStages s t startedAt workspace _).Returns _
    refine Steps.returns_bind (returns_stage (buildWheel_yields t _ _ _ selected)) ?_
      fun failure _ _ => failed failure
    rintro wheel p₂ ⟨-, hw⟩
    refine Steps.returns_bind (returns_stage (Work.yields_true _)) (fun treeDigest p₃ _ => ?_)
      fun failure _ _ => failed failure
    exact Steps.returns_bind (returns_stage (Work.yields_true _))
      (fun archive p₄ _ => finish_reported hw p₄) fun failure _ _ => failed failure
  refine reported.bind fun r hr => ?_
  refine (returns_true (cleanUp s r.2.workspace)).bind fun _ _ => ?_
  exact (returns_true (logOutcome r.1)).bind fun _ _ => hr

end Pipeline

namespace Wheel

/-- A wheel of the project whose version is told by its file name: that of its stem, exactly if the stem
does not end with it. -/
def Tells (project : String) (wheel : Wheel) : Prop := ∃ name version rest,
  Stemmed wheel.fileName name version rest ∧
    ProjectName.canonical name = ProjectName.canonical project ∧
    wheel.version? = some (toldVersion version rest) ∧ (wheel.version? = some version ↔ rest ≠ "")

theorem tells_of_named (h : Named project (Bytes.ofString wheel.fileName)) : Tells project wheel := by
  obtain ⟨name, version, rest, stemmed, same⟩ := stemmed_of_named h
  have told := version?_of_stemmed stemmed
  refine ⟨name, version, rest, stemmed, same, told, ?_⟩
  rw [told, Option.some_inj, toldVersion_eq_iff]

/-- Every selected wheel tells the version of its stem, with the suffix of the file name behind it
exactly if the stem ends with the version. What it tells is reported by a run, for any collaborators
and however the host answers, unless the settings have a version. -/
theorem selected_version (dist : Path) (project : String) :
    (select dist project).Yields (Tells project) ∧
    ∀ (s : Settings) (t : Toolchain) (previous : RunState), (Pipeline.run s t previous).Returns fun r =>
      ∀ report, r.1 = .ok report → Tells s.project report.wheel ∧
        report.version = s.package.version.or report.wheel.version? := by
  have tells (dist : Path) (project : String) : (select dist project).Yields (Tells project) :=
    fun deadline => (select_named dist project deadline).mono fun r h wheel hr =>
      tells_of_named (h wheel hr)
  exact ⟨tells dist project, fun s t previous =>
    Pipeline.run_reported s t previous (tells s.dist s.project)⟩

/-- The version of a wheel with one dash in its name is told with the suffix. -/
theorem single_dash_tells_suffix :
    let m := Machine.small
      [("d", .dir [(Bytes.ofString "mylib-1.0.whl", .file 0 0o644 .empty)])]
    let wheel : Wheel := ⟨.ofString "/d/mylib-1.0.whl", "mylib-1.0.whl"⟩
    (Machine.run (.small []) (select (.ofString "/d") "mylib" none) m).1 = .ok wheel ∧
      Tells "mylib" wheel ∧ Stemmed wheel.fileName "mylib" "1.0" "" ∧
      wheel.version? = some "1.0.whl" := by
  intro m wheel
  have selected : (Machine.run (.small []) (select (.ofString "/d") "mylib" none) m).1 = .ok wheel := by
    decide +kernel
  have tells := ((selected_version (.ofString "/d") "mylib").1 none).run (Machine.answer (.small [])) m
  exact ⟨selected, tells wheel selected, ⟨rfl, by decide, by decide, .inl rfl⟩, by decide +kernel⟩

end Wheel

end LayerPack
