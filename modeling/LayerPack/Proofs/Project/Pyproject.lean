import LayerPack.Project.Metadata
import LayerPack.Proofs.Text.Lines

/-! What a `pyproject.toml` declares. Name and version stand in the table `[project]`, or in
`[tool.poetry]` if the former does not have the key, and they count if they are texts that are not
blank. The defaults for the layer stand in `[tool.kodegen-layer]`. -/
namespace LayerPack

namespace Toml.Value

/-- What stands in a document below a path of keys. -/
inductive At : List String → Value → Value → Prop
  | here (value : Value) : At [] value value
  | under {key : String} {rest : List String} {entries : List (String × Value)} {inner value : Value}
    (found : entries.lookup key = some inner) (h : At rest inner value) : At (key :: rest) (.table entries) value

variable {document value : Value} {key : String} {path : List String}

theorem at_nil : At [] document value ↔ document = value :=
  ⟨fun h => by cases h; rfl, fun h => h ▸ .here _⟩

theorem at_cons : At (key :: path) document value ↔ ∃ inner, document.get? key = some inner ∧
    At path inner value := by
  constructor
  · rintro ⟨⟩
    next entries inner found h => exact ⟨inner, found, h⟩
  · rintro ⟨inner, found, h⟩
    cases document with
    | table entries => exact .under found h
    | string | integer | float | boolean | moment | array => cases found

theorem at_one : At [key] document value ↔ document.get? key = some value := by
  simp only [at_cons, at_nil, exists_eq_right]

theorem at_two {outer : String} : At [outer, key] document value ↔
    (document.get? outer).bind (·.get? key) = some value := by
  rw [at_cons, Option.bind_eq_some_iff]
  simp only [at_one]

theorem at_three {first second : String} : At [first, second, key] document value ↔
    ((document.get? first).bind (·.get? second)).bind (·.get? key) = some value := by
  rw [at_cons, Option.bind_assoc, Option.bind_eq_some_iff]
  simp only [at_two]

theorem not_at {o : Option Value} (h : ∀ value, At path document value ↔ o = some value) :
    (∀ value, ¬ At path document value) ↔ o = none := by
  simp only [h, Option.eq_none_iff_forall_ne_some, ne_eq]

end Toml.Value

namespace Metadata

open Toml.Value

/-- The value of a key of the project, of whatever type it is. -/
def Holds (document : Toml.Value) (key : String) (value : Toml.Value) : Prop :=
  At ["project", key] document value ∨
    ((∀ other, ¬ At ["project", key] document other) ∧ At ["tool", "poetry", key] document value)

/-- The document gives a key of the project this text. -/
def Declares (document : Toml.Value) (key text : String) : Prop :=
  ∃ raw, Holds document key (.string raw) ∧ Text.trim raw = text ∧ text ≠ ""

/-- What becomes of the table of defaults, which need not be there. -/
def LayerIs (document : Toml.Value) (read : Except LayerConfig.Problem LayerConfig) : Prop :=
  (∃ value, At ["tool", "kodegen-layer"] document value ∧ LayerConfig.ofValue value = read) ∨
    ((∀ value, ¬ At ["tool", "kodegen-layer"] document value) ∧ read = .ok {})

variable {document value : Toml.Value} {key text content : String} {found : Metadata}

theorem holds_iff : Holds document key value ↔ (((document.get? "project").bind (·.get? key)).or
    (((document.get? "tool").bind (·.get? "poetry")).bind (·.get? key))) = some value := by
  rw [Holds, at_two, at_three, not_at fun _ => at_two, Option.or_eq_some_iff]

theorem field_eq_some : field document key = some text ↔ Declares document key text := by
  have raw (v : Toml.Value) (r : String) : v.string? = some r ↔ v = .string r := by
    cases v <;> simp [Toml.Value.string?]
  unfold field Declares
  simp only [Option.bind_eq_some_iff, ← holds_iff, raw]
  constructor
  · rintro ⟨r, ⟨v, holds, rfl⟩, h⟩
    split at h
    next => cases h
    next hne =>
      cases h
      exact ⟨r, holds, rfl, hne⟩
  · rintro ⟨r, holds, rfl, hne⟩
    exact ⟨r, ⟨_, holds, rfl⟩, if_neg hne⟩

theorem layerIs_iff {read : Except LayerConfig.Problem LayerConfig} : LayerIs document read ↔
    (match (document.get? "tool").bind (·.get? "kodegen-layer") with
      | some value => LayerConfig.ofValue value
      | none => .ok {}) = read := by
  rw [LayerIs, not_at fun _ => at_two]
  simp only [at_two]
  cases (document.get? "tool").bind (·.get? "kodegen-layer") with
  | none => simp [eq_comm]
  | some value => simp

theorem ofDocument_of_layer {read : Except LayerConfig.Problem LayerConfig} (h : LayerIs document read) :
    ofDocument document = (read.mapError .layer).map fun layer =>
      { name := field document "name", version := field document "version", layer } := by
  rw [← layerIs_iff.mp h]
  unfold ofDocument
  cases (document.get? "tool").bind (·.get? "kodegen-layer") with
  | none => rfl
  | some value =>
    dsimp only
    cases LayerConfig.ofValue value <;> rfl

theorem ofDocument_error {why : LayerConfig.Problem} (h : LayerIs document (.error why)) :
    ofDocument document = .error (.layer why) := ofDocument_of_layer h

theorem ofDocument_ok {layer : LayerConfig} (h : LayerIs document (.ok layer)) : ofDocument document =
    .ok { name := field document "name", version := field document "version", layer } :=
  ofDocument_of_layer h

theorem exists_layerIs (document : Toml.Value) : ∃ read, LayerIs document read := ⟨_, layerIs_iff.mpr rfl⟩

/-- Text that is no document, and a table of defaults that cannot be read, are all that is refused. -/
theorem parsePyproject_error {problem : ParseError} : parsePyproject content = .error problem ↔
    (Toml.parse? content = none ∧ problem = .syntaxError) ∨
      ∃ document why, Toml.parse? content = some document ∧ LayerIs document (.error why) ∧
        problem = .layer why := by
  unfold parsePyproject
  cases Toml.parse? content with
  | none => simp [eq_comm]
  | some document =>
    obtain ⟨read, h⟩ := exists_layerIs document
    have unique (why) : LayerIs document (.error why) ↔ read = .error why := by
      rw [layerIs_iff, ← layerIs_iff.mp h]
    dsimp only
    rcases read with why | layer
    · rw [ofDocument_error h]
      simp [unique, eq_comm]
    · rw [ofDocument_ok h]
      simp [unique, eq_comm]

/-- An accepted text is a document, and the metadata are what this declares. -/
theorem parsePyproject_ok : parsePyproject content = .ok found ↔
    ∃ document layer, Toml.parse? content = some document ∧ LayerIs document (.ok layer) ∧
      found = { name := field document "name", version := field document "version", layer } := by
  unfold parsePyproject
  cases Toml.parse? content with
  | none => simp
  | some document =>
    obtain ⟨read, h⟩ := exists_layerIs document
    have unique (layer) : LayerIs document (.ok layer) ↔ read = .ok layer := by
      rw [layerIs_iff, ← layerIs_iff.mp h]
    dsimp only
    rcases read with why | layer
    · rw [ofDocument_error h]
      simp [unique, eq_comm]
    · rw [ofDocument_ok h]
      simp [unique, eq_comm]

end Metadata

end LayerPack
