import LayerPack.Proofs.Archive.EntryName

/-! Which paths have a name inside an archive, and which name. A path has one exactly if it goes on from
the root by names that are text, with dots between them at most. The name can be taken apart into those
names again, so it leads back to the path and tells paths with other names apart. -/
namespace LayerPack.Archive

variable {root p q : Path} {rest : List Component} {names : List Name} {name : String}

/-- What comes after a root makes a name: it has names and dots only, one name at least, and the names
are text. -/
structure MakesName (rest : List Component) : Prop where
  named : ∃ name, .normal name ∈ rest
  stays : ∀ component ∈ rest, component = .current ∨ ∃ name, component = .normal name
  text : ∀ name, .normal name ∈ rest → (Bytes.toText? name).isSome

theorem mem_filterMap_name? {name : Name} :
    name ∈ rest.filterMap Component.name? ↔ .normal name ∈ rest := by
  rw [List.mem_filterMap]
  constructor
  · rintro ⟨component, hm, he⟩
    cases component <;> cases he
    exact hm
  · exact fun hm => ⟨_, hm, rfl⟩

theorem makesName_iff : MakesName rest ↔ rest.all Options.staysBelow = true ∧
    rest.filterMap Component.name? ≠ [] ∧
      ∀ n ∈ rest.filterMap Component.name?, ∃ text, Bytes.ofString text = n := by
  have stays (c : Component) : Options.staysBelow c = true ↔ c = .current ∨ ∃ name, c = .normal name := by
    cases c <;> simp [Options.staysBelow]
  have text (n : Name) : (Bytes.toText? n).isSome ↔ ∃ text, Bytes.ofString text = n := by
    constructor
    · intro h
      obtain ⟨text, ht⟩ := Option.isSome_iff_exists.mp h
      exact ⟨text, Bytes.ofString_of_toText? ht⟩
    · rintro ⟨text, rfl⟩
      rw [Bytes.toText?_ofString]
      rfl
  simp only [List.all_eq_true, stays, ← List.length_pos_iff, List.length_pos_iff_exists_mem, mem_filterMap_name?, ← text]
  exact ⟨fun h => ⟨h.stays, h.named, h.text⟩, fun ⟨stays, named, text⟩ => ⟨named, stays, text⟩⟩

/-- The names after a root are read between slashes, so no part of them moves a path elsewhere. -/
theorem properName_after (h : p.components = root.components ++ rest) :
    ∀ n ∈ rest.filterMap Component.name?, ProperName n := fun n hn =>
  Path.properName_of_mem_components (p := p) (by simp [h, mem_filterMap_name?.mp hn])

/-- Without the dots only the names are left. -/
theorem filter_dots (h : ∀ component ∈ rest, component = .current ∨ ∃ name, component = .normal name) :
    rest.filter (· ≠ .current) = (rest.filterMap Component.name?).map .normal := by
  induction rest with
  | nil => rfl
  | cons component rest ih =>
    have ih := ih fun c hc => h c (List.mem_cons_of_mem _ hc)
    obtain rfl | ⟨name, rfl⟩ := h component List.mem_cons_self
    · simpa [List.filterMap_cons, Component.name?] using ih
    · simpa [List.filterMap_cons, Component.name?] using ih

/-- A name inside an archive is made of these names: they are what stands between its slashes, and each of
them goes one step down. -/
structure MadeOf (name : String) (names : List Name) : Prop where
  parts : splitSlash (Bytes.ofString name) = names
  proper : ∀ part ∈ names, ProperName part
  begins : name.toList.head? ≠ some '/'
  ends : name.toList.getLast? ≠ some '/'

theorem madeOf_of_joinSlash (hne : names ≠ []) (h : ∀ n ∈ names, ProperName n)
    (written : Bytes.ofString name = joinSlash names) : MadeOf name names := by
  have parts : splitSlash (Bytes.ofString name) = names := by
    rw [written]
    exact splitSlash_joinSlash hne fun n hn => (h n hn).noSlash
  have separator : Bytes.ofString "/" = [slash] := by decide
  have nonempty : [] ∉ splitSlash (Bytes.ofString name) := fun hm => (h [] (parts ▸ hm)).nonempty rfl
  refine ⟨parts, h, fun first => nonempty ?_, fun last => nonempty ?_⟩
  · obtain ⟨more, hm⟩ := List.head?_eq_some_iff.mp first
    have : name = "/" ++ String.ofList more := by simp [← String.toList_inj, hm]
    rw [this, Bytes.ofString_append, separator, List.singleton_append, splitSlash_slash]
    exact List.mem_cons_self
  · obtain ⟨front, hf⟩ := List.getLast?_eq_some_iff.mp last
    have : name = String.ofList front ++ "/" := by simp [← String.toList_inj, hf]
    rw [this, Bytes.ofString_append, separator, splitSlash_append_slash]
    simp [splitSlash]

/-- A name made of names is joined to a root as these names. -/
theorem join_ofString (root : Path) (hne : names ≠ []) (h : ∀ n ∈ names, ProperName n)
    (written : Bytes.ofString name = joinSlash names) :
    (root.join (.ofString name)).components = root.components ++ names.map .normal := by
  rw [Path.ofString, written, Path.join_joinSlash root hne h, Path.components_descend root h]

theorem given_after (h : p.components = root.components ++ rest) :
    p.given = root.given ++ rest.filterMap Component.name? := by
  rw [Path.given, h, List.filterMap_append]
  rfl

/-- Only what lies below a root by components has a name. -/
theorem below_of_entryName (h : entryName root p = .ok name) :
    ∃ rest, p.components = root.components ++ rest := by
  unfold entryName Path.below? at h
  split at h
  next => cases h
  next found =>
    split at found
    next prefixed =>
      obtain ⟨rest, hr⟩ := List.isPrefixOf_iff_prefix.mp prefixed
      exact ⟨rest, hr.symm⟩
    next => cases found

/-- What has a name makes a name, and there is no other. -/
theorem entryName_iff (h : p.components = root.components ++ rest) : entryName root p = .ok name ↔
    MakesName rest ∧ Bytes.ofString name = joinSlash (rest.filterMap Component.name?) := by
  rw [entryName_eq_ok h, makesName_iff, and_assoc, and_assoc]

/-- Names that are text make a text. -/
theorem exists_entryName (h : p.components = root.components ++ rest) (makes : MakesName rest) :
    ∃ name, entryName root p = .ok name := by
  obtain ⟨-, -, text⟩ := makesName_iff.mp makes
  obtain ⟨texts, names⟩ : rest.filterMap Component.name? ∈ Set.range (List.map Bytes.ofString) := by
    rw [Set.range_list_map]
    exact text
  refine ⟨"/".intercalate texts, (entryName_iff h).mpr ⟨makes, ?_⟩⟩
  rw [ofString_intercalate, names]

/-- A path has a name inside an archive exactly if its components are those of the root and then make a
name, and the name is the names among them with slashes between them. It is made of those names, so joined
to the root it is the path again, apart from dots. Paths with the same name have the same names, and paths with
other names have other names inside the archive. -/
theorem entryName_exact (root : Path) :
    (∀ p name, entryName root p = .ok name ↔ ∃ rest, p.components = root.components ++ rest ∧
      MakesName rest ∧ Bytes.ofString name = joinSlash (rest.filterMap Component.name?)) ∧
    (∀ p rest, p.components = root.components ++ rest → MakesName rest →
      ∃ name, entryName root p = .ok name) ∧
    (∀ p rest name, p.components = root.components ++ rest → entryName root p = .ok name →
      MadeOf name (rest.filterMap Component.name?) ∧
      (root.join (.ofString name)).components = root.components ++ rest.filter (· ≠ .current)) ∧
    ∀ p q name, entryName root p = .ok name → entryName root q = .ok name → p.given = q.given := by
  have made {p : Path} {rest : List Component} {name : String}
      (h : p.components = root.components ++ rest) (named : entryName root p = .ok name) :
      rest.filterMap Component.name? ≠ [] ∧ Bytes.ofString name = joinSlash (rest.filterMap Component.name?) :=
    ⟨(makesName_iff.mp ((entryName_iff h).mp named).1).2.1, ((entryName_iff h).mp named).2⟩
  refine ⟨fun p name => ⟨fun named => ?_, fun ⟨rest, h, makes⟩ => (entryName_iff h).mpr makes⟩,
    fun p rest => exists_entryName, fun p rest name h named => ?_, fun p q name hp hq => ?_⟩
  · obtain ⟨rest, h⟩ := below_of_entryName named
    exact ⟨rest, h, (entryName_iff h).mp named⟩
  · obtain ⟨hne, written⟩ := made h named
    refine ⟨madeOf_of_joinSlash hne (properName_after h) written, ?_⟩
    rw [filter_dots ((entryName_iff h).mp named).1.stays]
    exact join_ofString root hne (properName_after h) written
  · obtain ⟨rest, h⟩ := below_of_entryName hp
    obtain ⟨rest', h'⟩ := below_of_entryName hq
    obtain ⟨hne, written⟩ := made h hp
    obtain ⟨hne', written'⟩ := made h' hq
    have parts := (madeOf_of_joinSlash hne (properName_after h) written).parts
    have parts' := (madeOf_of_joinSlash hne' (properName_after h') written').parts
    rw [given_after h, given_after h', ← parts, ← parts']

/-- Doubled slashes and dots in a path do not show in its name. The root itself has no name, nor has a path
that goes up again. -/
theorem spelled_path_named :
    let root := Path.ofString "/tmp/ws/target"
    entryName root (.ofString "/tmp//ws/./target/mylib/./sub//mod.py") = .ok "mylib/sub/mod.py" ∧
      (∀ p ∈ [root, .ofString "/tmp/ws/target/../mod.py", .ofString "/etc/passwd"], ∀ name,
        entryName root p ≠ .ok name) ∧
      ∀ p, entryName root p = .ok "mylib/sub/mod.py" →
        p.given = ["tmp", "ws", "target", "mylib", "sub", "mod.py"].map Bytes.ofString := by
  intro root
  obtain ⟨exact_, -, -, apart⟩ := entryName_exact root
  have makes : MakesName (["mylib", "sub", "mod.py"].map (.normal ∘ Bytes.ofString)) :=
    makesName_iff.mpr ⟨by decide, by decide, by simp [Component.name?]⟩
  have named : entryName root (.ofString "/tmp//ws/./target/mylib/./sub//mod.py") = .ok "mylib/sub/mod.py" :=
    (exact_ _ _).mpr ⟨_, by decide, makes, by decide⟩
  have refused : ∀ p ∈ [root, .ofString "/tmp/ws/target/../mod.py", .ofString "/etc/passwd"],
      (entryName root p).isOk = false := by decide
  refine ⟨named, fun p hp name he => ?_, fun p hp => (apart p _ _ hp named).trans (by decide)⟩
  have := refused p hp
  rw [he] at this
  cases this

end LayerPack.Archive
