import LayerPack.Archive.EntryName
import LayerPack.Proofs.Path.Descend
import LayerPack.Proofs.Text.Utf8
import LayerPack.Settings.Options
import Mathlib.Data.Set.List

/-! The name of a file inside an archive is the text of the names below the root, with slashes
between them. -/
namespace LayerPack

/-- The name that a component is. -/
def Component.name? : Component → Option Name
  | .normal name => some name
  | _ => none

/-- The names among the components of a path. -/
def Path.given (p : Path) : List Name := p.components.filterMap Component.name?

namespace Archive

theorem ofString_intercalate (texts : List String) :
    Bytes.ofString ("/".intercalate texts) = joinSlash (texts.map Bytes.ofString) := by
  induction texts with
  | nil => decide
  | cons first rest ih =>
    cases rest with
    | nil => simp [String.intercalate_singleton, joinSlash]
    | cons second rest =>
      have hs : Bytes.ofString "/" = [slash] := by decide
      rw [String.intercalate_cons_cons, Bytes.ofString_append, Bytes.ofString_append, ih, hs]
      simp [joinSlash]

/-- Components that stay below have a name inside an archive exactly if their names are text. -/
theorem partsOf_eq_ok {p : Path} {components : List Component} {texts : List String} :
    partsOf p components = .ok texts ↔ components.all Options.staysBelow = true ∧
      components.filterMap Component.name? = texts.map Bytes.ofString := by
  induction components generalizing texts with
  | nil => cases texts <;> simp [partsOf]
  | cons component rest ih =>
    cases component with
    | root | parent => exact iff_of_false (fun h => by cases h) fun h => by cases h.1
    | current => exact ih
    | normal name =>
      rw [partsOf]
      cases ht : Bytes.toText? name with
      | none =>
        refine iff_of_false (fun h => by cases h) fun ⟨_, h⟩ => ?_
        cases texts with
        | nil => cases h
        | cons text texts =>
          rw [(List.cons.inj h).1, Bytes.toText?_ofString] at ht
          cases ht
      | some text =>
        obtain rfl := Bytes.ofString_of_toText? ht
        have split : (.normal (Bytes.ofString text) :: rest : List Component).all Options.staysBelow =
            true ∧ (.normal (Bytes.ofString text) :: rest : List Component).filterMap Component.name? =
              texts.map Bytes.ofString ↔
            ∃ others, texts = text :: others ∧ rest.all Options.staysBelow = true ∧
              rest.filterMap Component.name? = others.map Bytes.ofString := by
          constructor
          · rintro ⟨stays, names⟩
            cases texts with
            | nil => cases names
            | cons first others =>
              obtain ⟨same, names⟩ := List.cons.inj names
              exact ⟨others, by rw [Bytes.ofString_injective same], stays, names⟩
          · rintro ⟨others, rfl, stays, names⟩
            exact ⟨stays, congrArg _ names⟩
        rw [split]
        simp only [← ih]
        cases hr : partsOf p rest with
        | error e => simp [Bind.bind, Except.bind]
        | ok others => simp [Bind.bind, Except.bind, Pure.pure, Except.pure, eq_comm]

theorem filterMap_name? (names : List Name) :
    (names.map Component.normal).filterMap Component.name? = names := by
  rw [List.filterMap_map]
  exact List.filterMap_some

theorem partsOf_names {p : Path} {names : List Name} {texts : List String}
    (h : partsOf p (names.map .normal) = .ok texts) : texts.map Bytes.ofString = names := by
  rw [← (partsOf_eq_ok.mp h).2, filterMap_name?]

/-- What comes after a root has a name inside an archive exactly if it stays below, has a name at all, and
its names are text. The name is the names with slashes between them, however they are written. -/
theorem entryName_eq_ok {root p : Path} {rest : List Component} {name : String}
    (h : p.components = root.components ++ rest) : entryName root p = .ok name ↔
      rest.all Options.staysBelow = true ∧ rest.filterMap Component.name? ≠ [] ∧
        (∀ n ∈ rest.filterMap Component.name?, ∃ text, Bytes.ofString text = n) ∧
        Bytes.ofString name = joinSlash (rest.filterMap Component.name?) := by
  have below : Path.below? root p = some rest := by
    rw [Path.below?, if_pos (by simp [h]), h, List.drop_left]
  have named : entryName root p = .ok name ↔
      ∃ texts, partsOf p rest = .ok texts ∧ texts ≠ [] ∧ "/".intercalate texts = name := by
    rw [entryName, below]
    cases hp : partsOf p rest with
    | error e => simp [hp, Bind.bind, Except.bind]
    | ok texts => cases texts <;> simp [hp, Bind.bind, Except.bind, Pure.pure, Except.pure, throw, throwThe,
        MonadExceptOf.throw]
  rw [named]
  constructor
  · rintro ⟨texts, parts, some, rfl⟩
    obtain ⟨stays, names⟩ := partsOf_eq_ok.mp parts
    refine ⟨stays, by simpa [names] using some, fun n hn => ?_, by rw [ofString_intercalate, names]⟩
    obtain ⟨text, -, rfl⟩ := List.mem_map.mp (names ▸ hn)
    exact ⟨text, rfl⟩
  · rintro ⟨stays, some, text, spelled⟩
    obtain ⟨texts, names⟩ : rest.filterMap Component.name? ∈ Set.range (List.map Bytes.ofString) := by
      rw [Set.range_list_map]
      exact text
    rw [← names] at some spelled
    refine ⟨texts, partsOf_eq_ok.mpr ⟨stays, names.symm⟩, by simpa using some, ?_⟩
    exact Bytes.ofString_injective ((ofString_intercalate texts).trans spelled.symm)

/-- The names below a root are what the name inside an archive is made of. -/
theorem entryName_descend (root : Path) {place : List Name}
    (h : ∀ name ∈ place, ProperName name) : entryName root (root.descend place) =
      (partsOf (root.descend place) (place.map .normal)).bind fun
        | [] => .error ((root.descend place).display ++ " has no name inside the archive")
        | parts => .ok ("/".intercalate parts) := by
  rw [entryName, Path.below?_descend root h]
  change (partsOf (root.descend place) (place.map .normal) >>= _) = _
  cases partsOf (root.descend place) (place.map .normal) with
  | error e => rfl
  | ok parts => cases parts <;> rfl

/-- A path has a name inside an archive only if it lies below the root. -/
theorem entryName_below {root : Path} {place : List Name} {name : String}
    (hp : ∀ name ∈ place, ProperName name) (h : entryName root (root.descend place) = .ok name) :
    place ≠ [] ∧ Bytes.ofString name = joinSlash place := by
  rw [entryName_descend root hp] at h
  cases hparts : partsOf (root.descend place) (place.map .normal) with
  | error e =>
    rw [hparts] at h
    cases h
  | ok texts =>
    rw [hparts] at h
    have hnames := partsOf_names hparts
    cases texts with
    | nil => cases h
    | cons first rest =>
      have hname : "/".intercalate (first :: rest) = name := Except.ok.inj h
      rw [← hname, ofString_intercalate, hnames]
      refine ⟨?_, rfl⟩
      rintro rfl
      cases hnames

theorem partsOf_error {p : Path} {names : List Name} {reason : String}
    (h : partsOf p (names.map .normal) = .error reason) :
    ∃ name ∈ names, Bytes.toText? name = none := by
  induction names with
  | nil => cases h
  | cons name rest ih =>
    rw [List.map_cons, partsOf] at h
    cases ht : Bytes.toText? name with
    | none => exact ⟨name, List.mem_cons_self, ht⟩
    | some text =>
      rw [ht] at h
      cases hr : partsOf p (rest.map .normal) with
      | error e =>
        rw [hr] at h
        cases h
        obtain ⟨name', hm, hn⟩ := ih hr
        exact ⟨name', List.mem_cons_of_mem _ hm, hn⟩
      | ok others =>
        rw [hr] at h
        cases h

/-- Below the root only a path that is not text has no name inside an archive. -/
theorem entryName_error {root : Path} {place : List Name} {reason : String}
    (hp : ∀ name ∈ place, ProperName name) (below : place ≠ [])
    (h : entryName root (root.descend place) = .error reason) :
    Bytes.toText? (joinSlash place) = none := by
  rw [entryName_descend root hp] at h
  cases hparts : partsOf (root.descend place) (place.map .normal) with
  | error e =>
    obtain ⟨name, hm, hn⟩ := partsOf_error hparts
    cases ht : Bytes.toText? (joinSlash place) with
    | none => rfl
    | some text =>
      have parts := splitSlash_joinSlash below fun name hn => (hp name hn).noSlash
      rw [← Bytes.ofString_of_toText? ht] at parts
      obtain ⟨t, rfl⟩ := Bytes.text_of_mem_splitSlash (parts.symm ▸ hm)
      rw [Bytes.toText?_ofString] at hn
      cases hn
  | ok texts =>
    rw [hparts] at h
    have hnames := partsOf_names hparts
    cases texts with
    | nil => exact (below hnames.symm).elim
    | cons first rest => cases h

end Archive

end LayerPack
