import LayerPack.Proofs.Path.Descend
import LayerPack.Proofs.Program.Requests
import LayerPack.Proofs.Text.Utf8
import LayerPack.Wheel.Name
import LayerPack.Wheel.Select

/-! What wheels can be selected, however the host answers. A name belongs to a project if it is text that
ends as wheels do, and what stands before its first dash is the name of the project in another spelling,
with something after the dash. A selected wheel has such a name. -/
namespace LayerPack

/-! ### Names -/

namespace Wheel

variable {project : String} {name : Name} {p : Path} {stem before : List Char}

/-- A file name of a wheel of the project. -/
def Named (project : String) (name : Name) : Prop :=
  ∃ before after : String, name = Bytes.ofString (before ++ "-" ++ after ++ ".whl") ∧
    before ≠ "" ∧ '-' ∉ before.toList ∧ after ≠ "" ∧
    ProjectName.canonical before = ProjectName.canonical project

/-- The stem of the name of a wheel is what stands before the suffix, unless that is all of it. -/
theorem stem_append_suffix (front : Bytes) :
    Path.stem (front ++ suffix) = if front = [] then suffix else front := by
  have hs : suffix = [0x2E, 0x77, 0x68, 0x6C] := by decide
  rw [hs, Path.stem]
  rcases List.eq_nil_or_concat front with rfl | ⟨init, last, rfl⟩
  · decide
  · simp

theorem distributionOf_eq_some : distributionOf stem = some before ↔
    ∃ after, stem = before ++ '-' :: after ∧ '-' ∉ before ∧ before ≠ [] ∧ after ≠ [] := by
  unfold distributionOf
  cases hs : Text.splitAt? '-' stem with
  | none =>
    refine iff_of_false (by simp) ?_
    rintro ⟨after, h, hn, -⟩
    cases hs.symm.trans (Text.splitAt?_eq_some.mpr ⟨h, hn⟩)
  | some split =>
    obtain ⟨front, back⟩ := split
    obtain ⟨rfl, hn⟩ := Text.splitAt?_eq_some.mp hs
    dsimp only
    constructor
    · intro h
      split at h
      next => cases h
      next hne =>
        obtain rfl := Option.some.inj h
        rw [not_or] at hne
        exact ⟨back, rfl, hn, hne⟩
    · rintro ⟨after, h, hn', hb, ha⟩
      obtain ⟨⟩ := hs.symm.trans (Text.splitAt?_eq_some.mpr ⟨h, hn'⟩)
      rw [if_neg (not_or.mpr ⟨hb, ha⟩)]

theorem distribution?_eq_some {found : String} (hp : p.fileName? = some name) :
    distribution? p = some found ↔ ∃ text after : String, Bytes.toText? (Path.stem name) = some text ∧
      text = found ++ "-" ++ after ∧ '-' ∉ found.toList ∧ found ≠ "" ∧ after ≠ "" := by
  have cut (text : String) : (∃ cs, distributionOf text.toList = some cs ∧ String.ofList cs = found) ↔
      ∃ after : String, text = found ++ "-" ++ after ∧ '-' ∉ found.toList ∧ found ≠ "" ∧ after ≠ "" := by
    constructor
    · rintro ⟨cs, h, rfl⟩
      obtain ⟨after, ht, hn, hb, ha⟩ := distributionOf_eq_some.mp h
      refine ⟨String.ofList after, ?_, by simpa using hn, by simpa using hb, by simpa using ha⟩
      refine String.toList_injective ?_
      simp [ht]
    · rintro ⟨after, rfl, hn, hb, ha⟩
      refine ⟨found.toList, distributionOf_eq_some.mpr ⟨after.toList, ?_, hn, ?_, ?_⟩, by simp⟩
      · simp
      · simpa using hb
      · simpa using ha
  simp only [distribution?, hp, Option.bind_eq_bind, Option.bind_some, Option.bind_eq_some_iff,
    Option.pure_def, Option.some.injEq, cut, exists_and_left]

theorem belongsTo_iff : belongsTo project p = true ↔ ∃ found, distribution? p = some found ∧
    ProjectName.canonical found = ProjectName.canonical project := by
  unfold belongsTo
  cases distribution? p <;> simp

/-- A file name that ends as those of wheels do is one of a wheel of the project if the path that ends
with it belongs to the project. -/
theorem named_of_belongsTo (hp : p.fileName? = some name) (hw : isWheelName name = true)
    (belongs : belongsTo project p = true) : Named project name := by
  obtain ⟨before, hd, hc⟩ := belongsTo_iff.mp belongs
  obtain ⟨front, rfl⟩ := List.isSuffixOf_iff_suffix.mp hw
  obtain ⟨_, after, ht, rfl, hn, hb, ha⟩ := (distribution?_eq_some hp).mp hd
  have written := Bytes.ofString_of_toText? ht
  rw [stem_append_suffix] at written
  split at written
  next =>
    -- The suffix itself has no dash.
    have : (0x2D : UInt8) ∈ suffix := by
      rw [← written]
      simp [Bytes.ofString_append, show Bytes.ofString "-" = [0x2D] by decide]
    exact absurd this (by decide)
  next =>
    refine ⟨before, after, ?_, hb, hn, ha, hc⟩
    rw [Bytes.ofString_append (before ++ "-" ++ after), written]
    rfl

/-- What the program asks of a file name tells the names of the wheels of a project. -/
theorem named_iff (hp : p.fileName? = some name) : Named project name ↔
    isWheelName name = true ∧ (Bytes.toText? name).isSome ∧ belongsTo project p = true := by
  refine ⟨?_, fun ⟨hw, _, belongs⟩ => named_of_belongsTo hp hw belongs⟩
  rw [belongsTo_iff]
  rintro ⟨before, after, rfl, hb, hn, ha, hc⟩
  have split : Bytes.ofString (before ++ "-" ++ after ++ ".whl") =
      Bytes.ofString (before ++ "-" ++ after) ++ suffix := Bytes.ofString_append ..
  have nonempty : Bytes.ofString (before ++ "-" ++ after) ≠ [] := by
    rw [Bytes.ofString_append, Bytes.ofString_append]
    have : Bytes.ofString "-" ≠ [] := by decide
    simp [this]
  refine ⟨List.isSuffixOf_iff_suffix.mpr ⟨_, split.symm⟩, ?_, before, ?_, hc⟩
  · rw [Bytes.toText?_ofString]
    rfl
  · refine (distribution?_eq_some hp).mpr ⟨_, after, ?_, rfl, hn, hb, ha⟩
    rw [split, stem_append_suffix, if_neg nonempty, Bytes.toText?_ofString]

end Wheel

/-! ### Candidates -/

open Program

/-- What a path is written with at its end, its file name is written with, too. -/
theorem Path.fileName?_of_suffix {p : Path} {tail : Bytes} (written : tail <:+ p.bytes)
    (noSlash : slash ∉ tail) (long : 2 < tail.length) : ∃ front, p.fileName? = some (front ++ tail) := by
  obtain ⟨bytes⟩ := p
  obtain ⟨before, rfl⟩ := written
  have proper {front : Bytes} (hf : slash ∉ front) : ProperName (front ++ tail) := by
    have shorter {other : Name} (ho : other.length ≤ 2) : front ++ tail ≠ other := fun h => by
      have := congrArg List.length h
      rw [List.length_append] at this
      omega
    exact ⟨shorter (by decide), by simp [hf, noSlash], shorter (by decide), shorter (by decide)⟩
  by_cases hs : slash ∈ before
  · obtain ⟨after, up, hrev, hn⟩ := List.eq_append_cons_of_mem (List.mem_reverse.mpr hs)
    have front : slash ∉ after.reverse := fun h => hn (List.mem_reverse.mp h)
    have cut : before = (up.reverse ++ [slash]) ++ after.reverse := by
      simpa using congrArg List.reverse hrev
    have child : (⟨before ++ tail⟩ : Path) = child ⟨up.reverse ++ [slash]⟩ (after.reverse ++ tail) := by
      have bytes := child_bytes ⟨up.reverse ++ [slash]⟩ (proper front)
      rw [if_pos (.inr List.getLast?_concat), ← List.append_assoc, ← cut] at bytes
      exact (congrArg Path.mk bytes).symm
    refine ⟨after.reverse, ?_⟩
    rw [child, fileName?, components_child _ (proper front), List.getLast?_concat]
  · exact ⟨before, by rw [fileName?, components_name (proper hs)]; rfl⟩

namespace Wheel

variable {project : String} {dist : Path}

theorem candidates_named (dir : Path) : (candidates dir).Returns fun r =>
    ∀ found, r = .ok found → ∀ p ∈ found, suffix <:+ p.bytes := by
  refine (returns_true (scanned dir)).bind fun here _ => ?_
  cases here with
  | none =>
    rintro _ ⟨⟩ _ ⟨⟩
  | some here =>
    refine (returns_true (Files.isDir here)).bind fun there _ => ?_
    cases there with
    | false =>
      rintro _ ⟨⟩ _ ⟨⟩
    | true =>
      intro r
      cases r with
      | error e => exact fun _ h => by cases h
      | ok names =>
        rintro _ ⟨⟩ p hp
        obtain ⟨name, hm, rfl⟩ := List.mem_map.mp hp
        have wheel := (List.mem_filter.mp hm).2
        rw [Bool.and_eq_true, isWheelName, List.isSuffixOf_iff_suffix] at wheel
        split
        · exact wheel.1
        · unfold Path.child Path.join
          split
          · exact wheel.1
          · split
            · exact wheel.1.trans (List.suffix_append ..)
            · exact (wheel.1.trans (List.suffix_cons ..)).trans (List.suffix_append ..)

theorem matching_belongs (project : String) (found : List Path) : (matching project found).Returns
    fun matched => ∀ p ∈ matched, p ∈ found ∧ belongsTo project p = true := by
  induction found with
  | nil =>
    rintro _ ⟨⟩
  | cons p rest ih =>
    have later : (matching project rest).Returns fun matched =>
        ∀ q ∈ matched, q ∈ p :: rest ∧ belongsTo project q = true :=
      ih.mono fun _ h q hq => (h q hq).imp_left (List.mem_cons_of_mem p)
    refine (returns_true (Files.isFile p)).bind fun there _ => ?_
    cases there with
    | false => exact later
    | true =>
      change Returns _ (if belongsTo project p then _ else _)
      split
      next belongs =>
        intro _
        refine Returns.bind (p := matching project rest) later fun matched h q hq => ?_
        rcases List.mem_cons.mp hq with rfl | hq
        · exact ⟨List.mem_cons_self, belongs⟩
        · exact h q hq
      next => exact fun _ => later

/-- What is made of the wheels of a project. -/
def picked (dist : Path) (project : String) : List Path → Work Wheel
  | [p] => return ofPath p
  | [] => do
    let contents ← Work.ofExcept (← Work.await (Files.listNames dist))
    Work.fail (.noWheel project dist contents)
  | several => Work.fail (.ambiguousWheel project dist several)

/-- The wheels of a project, in their order, decide its selection. -/
theorem select_eq (dist : Path) (project : String) :
    select dist project = (do
      let found ← Work.ofExcept (← Work.now (candidates dist))
      let found ← Work.now (matching project found)
      picked dist project (found.mergeSort Path.le)) := rfl

/-- A wheel is made of a single file only. -/
theorem picked_yields (dist : Path) (project : String) (found : List Path) :
    (picked dist project found).Yields fun wheel => ∃ p, found = [p] ∧ wheel = ofPath p := by
  unfold picked
  split
  next p => exact Work.yields_pure ⟨p, rfl, rfl⟩
  next =>
    exact (Work.yields_true _).bind fun _ _ => (Work.yields_true _).bind fun _ _ _ _ h => by cases h
  next => exact fun _ _ h => by cases h

/-- A selected wheel has the name of a wheel of the project, however the host answers. -/
theorem select_named (dist : Path) (project : String) : (select dist project).Yields fun wheel =>
    Named project (Bytes.ofString wheel.fileName) := by
  rw [select_eq]
  refine (Work.Yields.now (candidates_named dist)).bind fun found hf => ?_
  refine (Work.yields_ofExcept hf).bind fun found hf => ?_
  refine (Work.Yields.now (matching_belongs project found)).bind fun matched hm => ?_
  refine fun deadline => (picked_yields dist project _ deadline).mono fun r h wheel hr => ?_
  obtain ⟨p, hp, rfl⟩ := h wheel hr
  obtain ⟨listed, belongs⟩ := hm p (List.mem_mergeSort.mp (hp ▸ List.mem_singleton_self p))
  obtain ⟨front, hname⟩ := Path.fileName?_of_suffix (hf p listed) (by decide) (by decide)
  have named := named_of_belongsTo hname
    (List.isSuffixOf_iff_suffix.mpr (List.suffix_append front suffix)) belongs
  rw [ofPath, hname]
  obtain ⟨before, after, written, -⟩ := id named
  change Named project (Bytes.ofString (Bytes.display (front ++ suffix)))
  rwa [written, Bytes.display_ofString, ← written]

end Wheel

end LayerPack
