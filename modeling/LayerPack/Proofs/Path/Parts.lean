import LayerPack.Path.Basic

/-! The parts of a path and its components. A path is cut at its slashes and put together again;
joining paths appends their components, and the parent of a path drops the last of them. -/
namespace LayerPack

/-- A name that a path can contain and that does not move a walk elsewhere. -/
structure ProperName (name : Name) : Prop where
  nonempty : name ≠ []
  noSlash : slash ∉ name
  notDot : name ≠ dot
  notDotdot : name ≠ dotdot

/-- Of two names in one directory neither is above the other. -/
theorem not_prefix_beside {name other : Name} (h : name ≠ other) (up : List Name) :
    ¬ up ++ [name] <+: up ++ [other] := fun above =>
  h (List.singleton_inj.mp (List.append_cancel_left (above.eq_of_length (by simp))))

theorem splitSlash_ne_nil (b : Bytes) : splitSlash b ≠ [] := by
  cases b with
  | nil => simp [splitSlash]
  | cons x rest =>
    rw [splitSlash]
    split
    · simp
    · split <;> simp

/-- The first part goes on until the first slash. -/
theorem splitSlash_cons {x : UInt8} {rest part : Bytes} {parts : List Bytes}
    (h : splitSlash rest = part :: parts) :
    splitSlash (x :: rest) = if x = slash then [] :: part :: parts else (x :: part) :: parts := by
  rw [splitSlash, h]

theorem splitSlash_slash (rest : Bytes) : splitSlash (slash :: rest) = [] :: splitSlash rest := by
  obtain ⟨part, parts, h⟩ := List.exists_cons_of_ne_nil (splitSlash_ne_nil rest)
  rw [splitSlash_cons h, if_pos rfl, h]

theorem splitSlash_append_slash (a b : Bytes) :
    splitSlash (a ++ slash :: b) = splitSlash a ++ splitSlash b := by
  induction a with
  | nil => exact splitSlash_slash b
  | cons x rest ih =>
    obtain ⟨part, parts, h⟩ := List.exists_cons_of_ne_nil (splitSlash_ne_nil rest)
    have h' : splitSlash (rest ++ slash :: b) = part :: (parts ++ splitSlash b) := by
      rw [ih, h, List.cons_append]
    rw [List.cons_append, splitSlash_cons h', splitSlash_cons h]
    split <;> rfl

theorem splitSlash_of_notMem {a : Bytes} (h : slash ∉ a) : splitSlash a = [a] := by
  induction a with
  | nil => rfl
  | cons x rest ih =>
    rw [List.mem_cons, not_or] at h
    rw [splitSlash_cons (ih h.2), if_neg (Ne.symm h.1)]

theorem notMem_of_mem_splitSlash {b part : Bytes} (h : part ∈ splitSlash b) : slash ∉ part := by
  induction b generalizing part with
  | nil =>
    obtain rfl := List.mem_singleton.mp h
    simp
  | cons x rest ih =>
    obtain ⟨first, parts, hr⟩ := List.exists_cons_of_ne_nil (splitSlash_ne_nil rest)
    rw [hr] at ih
    rw [splitSlash_cons hr] at h
    split at h
    · rcases List.mem_cons.mp h with rfl | h
      · simp
      · exact ih h
    next hx =>
      rcases List.mem_cons.mp h with rfl | h
      · rw [List.mem_cons, not_or]
        exact ⟨Ne.symm hx, ih List.mem_cons_self⟩
      · exact ih (List.mem_cons_of_mem _ h)

theorem splitSlash_joinSlash {parts : List Bytes} (hne : parts ≠ [])
    (h : ∀ part ∈ parts, slash ∉ part) : splitSlash (joinSlash parts) = parts := by
  induction parts with
  | nil => exact (hne rfl).elim
  | cons part rest ih =>
    cases rest with
    | nil => exact splitSlash_of_notMem (h part List.mem_cons_self)
    | cons next rest =>
      rw [joinSlash, splitSlash_append_slash, splitSlash_of_notMem (h part List.mem_cons_self),
        ih (by simp) fun p hp => h p (List.mem_cons_of_mem _ hp)]
      · rfl
      · simp

namespace Path

/-- The components that parts stand for. -/
def componentsOf (parts : List Bytes) : List Component := parts.filterMap componentOf?

@[simp] theorem componentsOf_nil : componentsOf [] = [] := rfl

@[simp] theorem componentsOf_append (a b : List Bytes) :
    componentsOf (a ++ b) = componentsOf a ++ componentsOf b := List.filterMap_append

@[simp] theorem componentsOf_void (parts : List Bytes) :
    componentsOf ([] :: parts) = componentsOf parts := rfl

/-- Empty parts stand for nothing. -/
theorem componentsOf_filter (parts : List Bytes) :
    componentsOf (parts.filter (· ≠ [])) = componentsOf parts := by
  rw [componentsOf, List.filterMap_filter]
  refine congrArg (List.filterMap · parts) (funext fun part => ?_)
  by_cases h : part = []
  · simp [h, componentOf?]
  · simp [h]

theorem componentOf?_name {name : Name} (h : ProperName name) :
    componentOf? name = some (.normal name) := by
  rw [componentOf?, if_neg (by simp [h.nonempty, h.notDot]), if_neg h.notDotdot]

theorem componentsOf_names {names : List Name} (h : ∀ name ∈ names, ProperName name) :
    componentsOf names = names.map .normal := by
  induction names with
  | nil => rfl
  | cons name rest ih =>
    rw [componentsOf, List.filterMap_cons_some (componentOf?_name (h name List.mem_cons_self)),
      List.map_cons]
    exact congrArg _ (ih fun n hn => h n (List.mem_cons_of_mem _ hn))

theorem eq_slash_cons {p : Path} (h : p.isAbsolute) : ∃ rest, p.bytes = slash :: rest := by
  rw [isAbsolute, beq_iff_eq] at h
  cases hb : p.bytes with
  | nil => simp [hb] at h
  | cons x rest =>
    rw [hb, List.head?_cons] at h
    exact ⟨rest, by rw [Option.some.inj h]⟩

theorem components_of_absolute {p : Path} (h : p.isAbsolute) :
    p.components = .root :: componentsOf (splitSlash p.bytes) := by
  obtain ⟨rest, hb⟩ := eq_slash_cons h
  rw [components, hb, splitSlash_slash]
  rfl

theorem isAbsolute_ofNames (names : List Name) : (ofNames names).isAbsolute := rfl

theorem isAbsolute_name {name : Name} (hn : ProperName name) : isAbsolute ⟨name⟩ = false := by
  obtain ⟨x, rest, rfl⟩ := List.exists_cons_of_ne_nil hn.nonempty
  have : x ≠ slash := fun h => hn.noSlash (h ▸ List.mem_cons_self)
  simp [isAbsolute, this]

theorem components_ofNames {names : List Name} (h : ∀ name ∈ names, ProperName name) :
    (ofNames names).components = .root :: names.map .normal := by
  rw [components_of_absolute (isAbsolute_ofNames names), ofNames, splitSlash_slash,
    componentsOf_void]
  cases names with
  | nil => rfl
  | cons name rest =>
    rw [splitSlash_joinSlash (by simp) fun n hn => (h n hn).noSlash, componentsOf_names h]

theorem isAbsolute_join {p : Path} (h : p.isAbsolute) (q : Path) : (p.join q).isAbsolute := by
  obtain ⟨rest, hb⟩ := eq_slash_cons h
  unfold join
  split
  · assumption
  · rw [hb]
    split <;> rfl

theorem components_join {p q : Path} (hp : p.isAbsolute) (hq : q.isAbsolute = false) :
    (p.join q).components = p.components ++ componentsOf (splitSlash q.bytes) := by
  rw [components_of_absolute (isAbsolute_join hp q), components_of_absolute hp]
  obtain ⟨rest, hb⟩ := eq_slash_cons hp
  rw [join, hq, if_neg (by simp)]
  split
  next h =>
    obtain ⟨front, hf⟩ : ∃ front, p.bytes = front ++ [slash] :=
      List.getLast?_eq_some_iff.mp (h.resolve_left (by simp [hb]))
    have hq' : p.bytes ++ q.bytes = front ++ slash :: q.bytes := by simp [hf]
    rw [hq', hf, splitSlash_append_slash, splitSlash_append_slash]
    simp [splitSlash]
  next => rw [splitSlash_append_slash, componentsOf_append, List.cons_append]

theorem dropVoid_append (parts : List Bytes) :
    ∃ void, parts = dropVoid parts ++ void ∧ componentsOf void = [] := by
  refine ⟨(parts.reverse.takeWhile fun part => (componentOf? part).isNone).reverse, ?_, ?_⟩
  · rw [dropVoid, ← List.reverse_append, List.takeWhile_append_dropWhile, List.reverse_reverse]
  · refine List.filterMap_eq_nil_iff.mpr fun part h => ?_
    have hall := List.all_takeWhile (p := fun part => (componentOf? part).isNone)
      (l := parts.reverse)
    simpa using List.all_eq_true.mp hall part (List.mem_reverse.mp h)

theorem componentsOf_dropVoid (parts : List Bytes) :
    componentsOf (dropVoid parts) = componentsOf parts := by
  obtain ⟨void, h, hv⟩ := dropVoid_append parts
  conv => rhs; rw [h]
  rw [componentsOf_append, hv, List.append_nil]

/-- What is left after dropping ends with a part that names something. -/
theorem dropVoid_concat {parts : List Bytes} (h : dropVoid parts ≠ []) :
    ∃ front last component, dropVoid parts = front ++ [last] ∧
      componentOf? last = some component := by
  obtain ⟨front, last, hf⟩ : ∃ front last, dropVoid parts = front ++ [last] :=
    ⟨_, _, (List.dropLast_concat_getLast h).symm⟩
  have hd := List.head?_dropWhile_not (fun part => (componentOf? part).isNone) parts.reverse
  rw [← List.getLast?_reverse, ← dropVoid, hf, List.getLast?_concat] at hd
  obtain ⟨component, hc⟩ := Option.isSome_iff_exists.mp (by simpa using hd)
  exact ⟨front, last, component, hf, hc⟩

theorem componentsOf_concat {front : List Bytes} {last : Bytes} {component : Component}
    (h : componentOf? last = some component) :
    componentsOf (front ++ [last]) = componentsOf front ++ [component] := by
  rw [componentsOf_append]
  exact congrArg _ (List.filterMap_cons_some h)

theorem notMem_of_mem_dropVoid {b part : Bytes} (h : part ∈ dropVoid (splitSlash b)) :
    slash ∉ part := by
  obtain ⟨void, hv, -⟩ := dropVoid_append (splitSlash b)
  refine notMem_of_mem_splitSlash (b := b) ?_
  rw [hv]
  exact List.mem_append_left _ h

theorem componentsOf_splitSlash_joinSlash {parts : List Bytes} (h : ∀ part ∈ parts, slash ∉ part) :
    componentsOf (splitSlash (joinSlash parts)) = componentsOf parts := by
  cases parts with
  | nil => rfl
  | cons part rest => rw [splitSlash_joinSlash (by simp) h]

/-- The parent of an absolute path has its components without the last. -/
theorem components_parent {p up : Path} (hp : p.isAbsolute) (h : p.parent? = some up) :
    up.isAbsolute ∧ ∃ component, p.components = up.components ++ [component] := by
  obtain ⟨rest, hb⟩ := eq_slash_cons hp
  have hc : p.components = .root :: componentsOf (dropVoid (splitSlash rest)) := by
    rw [components_of_absolute hp, hb, splitSlash_slash, componentsOf_void, componentsOf_dropVoid]
  have hsplit : splitHead p.bytes = ([slash], rest) := by rw [hb]; rfl
  rw [parent?, hsplit] at h
  dsimp only at h
  split at h
  next => simp [dot, slash] at h
  next parts hne =>
    obtain rfl := Option.some.inj h
    obtain ⟨front, last, component, hf, hl⟩ := dropVoid_concat hne
    have absolute : isAbsolute ⟨[slash] ++ joinSlash (dropVoid (dropVoid (splitSlash rest)).dropLast)⟩ :=
      rfl
    refine ⟨absolute, component, ?_⟩
    have hslash : ∀ part ∈ dropVoid front, slash ∉ part := by
      intro part hm
      obtain ⟨void, hv, -⟩ := dropVoid_append front
      refine notMem_of_mem_dropVoid (b := rest) ?_
      rw [hf, hv]
      exact List.mem_append_left _ (List.mem_append_left _ hm)
    rw [hc, components_of_absolute absolute, hf, List.dropLast_concat, componentsOf_concat hl]
    change _ = .root :: componentsOf (splitSlash (slash :: joinSlash (dropVoid front))) ++ _
    rw [splitSlash_slash, componentsOf_void, componentsOf_splitSlash_joinSlash hslash,
      componentsOf_dropVoid]
    rfl

theorem properName_of_componentOf? {part : Bytes} {name : Name} (hs : slash ∉ part)
    (h : componentOf? part = some (.normal name)) : ProperName name := by
  unfold componentOf? at h
  split at h
  · cases h
  next hv =>
    rw [not_or] at hv
    split at h
    · cases h
    next hd =>
      cases h
      exact ⟨hv.1, hs, hv.2, hd⟩

theorem properName_of_mem_componentsOf {parts : List Bytes} {name : Name}
    (hs : ∀ part ∈ parts, slash ∉ part) (h : .normal name ∈ componentsOf parts) :
    ProperName name := by
  obtain ⟨part, hp, hc⟩ := List.mem_filterMap.mp h
  exact properName_of_componentOf? (hs part hp) hc

theorem properName_of_mem_components {p : Path} {name : Name} (h : .normal name ∈ p.components) :
    ProperName name := by
  rw [components, List.mem_append] at h
  rcases h with h | h
  · unfold headComponent at h
    split at h
    · simp at h
    · split at h <;> simp at h
  · exact properName_of_mem_componentsOf (fun _ hm => notMem_of_mem_splitSlash hm) h

theorem properName_of_mem_settle {names : List Name} {components : List Component}
    (hn : ∀ name ∈ names, ProperName name)
    (hc : ∀ name, .normal name ∈ components → ProperName name) :
    ∀ name ∈ settle names components, ProperName name := by
  induction components generalizing names with
  | nil => exact hn
  | cons component rest ih =>
    have hr : ∀ name, .normal name ∈ rest → ProperName name :=
      fun name h => hc name (List.mem_cons_of_mem _ h)
    cases component with
    | root => exact ih (by simp) hr
    | current => exact ih hn hr
    | parent => exact ih (fun name h => hn name (List.dropLast_subset _ h)) hr
    | normal last =>
      refine ih (fun name h => ?_) hr
      rcases List.mem_append.mp h with h | h
      · exact hn name h
      · obtain rfl := List.mem_singleton.mp h
        exact hc _ List.mem_cons_self

theorem properName_of_mem_namesFrom {cwd p : Path} :
    ∀ name ∈ namesFrom cwd p, ProperName name :=
  properName_of_mem_settle
    (properName_of_mem_settle (by simp) fun _ h => properName_of_mem_components h)
    fun _ h => properName_of_mem_components h

/-- The path is absolute and goes through these names one after another. -/
structure Spells (p : Path) (names : List Name) : Prop where
  absolute : p.isAbsolute
  components : p.components = .root :: names.map .normal

namespace Spells

variable {p q : Path} {names : List Name}

theorem ofNames (h : ∀ name ∈ names, ProperName name) : (Path.ofNames names).Spells names :=
  ⟨isAbsolute_ofNames names, components_ofNames h⟩

theorem absolute' (cwd p : Path) : (Path.absolute cwd p).Spells (namesFrom cwd p) :=
  ofNames properName_of_mem_namesFrom

theorem proper (h : p.Spells names) : ∀ name ∈ names, ProperName name := fun name hn =>
  properName_of_mem_components (p := p) (by simp [h.components, hn])

theorem parts (h : p.Spells names) : componentsOf (splitSlash p.bytes) = names.map .normal := by
  have := h.components
  rw [components_of_absolute h.absolute, List.cons.injEq] at this
  exact this.2

theorem child (h : p.Spells names) {name : Name} (hn : ProperName name) :
    (p.child name).Spells (names ++ [name]) := by
  refine ⟨isAbsolute_join h.absolute _, ?_⟩
  rw [Path.child, components_join h.absolute (isAbsolute_name hn), h.components,
    splitSlash_of_notMem hn.noSlash, componentsOf_names (by simpa using hn)]
  simp

theorem parent (h : p.Spells names) (hq : p.parent? = some q) :
    ∃ front name, names = front ++ [name] ∧ q.Spells front := by
  obtain ⟨absolute, component, hc⟩ := components_parent h.absolute hq
  have hq' := components_of_absolute absolute
  rw [hq', h.components, List.cons_append, List.cons.injEq] at hc
  obtain ⟨front, last, hn, hf, hl⟩ := List.map_eq_append_iff.mp hc.2
  obtain ⟨name, rfl, rfl⟩ := List.map_eq_singleton_iff.mp hl
  exact ⟨front, name, hn, absolute, by rw [hq', hf]⟩

theorem exists_parent {name : Name} (h : p.Spells (names ++ [name])) :
    ∃ up, p.parent? = some up ∧ up.Spells names := by
  cases hp : p.parent? with
  | some up =>
    obtain ⟨front, last, he, hs⟩ := h.parent hp
    obtain ⟨rfl, -⟩ := List.append_inj' he rfl
    exact ⟨up, rfl, hs⟩
  | none =>
    obtain ⟨rest, hb⟩ := eq_slash_cons h.absolute
    have hsplit : splitHead p.bytes = ([slash], rest) := by rw [hb]; rfl
    rw [parent?, hsplit] at hp
    dsimp only at hp
    split at hp
    next hv =>
      have hparts := h.parts
      rw [hb, splitSlash_slash, componentsOf_void, ← componentsOf_dropVoid, hv] at hparts
      simp at hparts
    · cases hp

theorem fileName? {name : Name} (h : p.Spells (names ++ [name])) : p.fileName? = some name := by
  have hc : p.components = (.root :: names.map .normal) ++ [.normal name] := by simp [h.components]
  rw [Path.fileName?, hc, List.getLast?_concat]

/-- A name put in the place of the last one. -/
theorem withFileName {name other : Name} (h : p.Spells (names ++ [name])) (hn : ProperName other) :
    (p.withFileName other).Spells (names ++ [other]) := by
  obtain ⟨up, hp, hup⟩ := h.exists_parent
  rw [Path.withFileName, h.fileName?, hp]
  exact hup.child hn

end Spells

end Path

end LayerPack
