import LayerPack.Proofs.Host.Requests
import LayerPack.Proofs.Settings.Accepted

/-! What a run owns. It works on its workspace, on the directory of wheels and on its output, and it
makes the directories that lead there. The tree of the archive lies in the workspace, whatever its
prefix is. -/
namespace LayerPack

variable {p q : Path} {names : List Name} {s : Settings} {place : Place}

namespace Path

/-- Before the parts of a relative path there is at most a dot. -/
theorem components_of_relative (h : p.isAbsolute = false) : ∃ head, (∀ c ∈ head, c = .current) ∧
    p.components = head ++ componentsOf (splitSlash p.bytes) := by
  obtain ⟨bytes⟩ := p
  change ∃ head, (∀ c ∈ head, c = .current) ∧ headComponent (splitHead bytes).1 ++
    componentsOf (splitSlash (splitHead bytes).2) = head ++ componentsOf (splitSlash bytes)
  unfold splitHead
  split
  next rest => cases h
  next => exact ⟨[.current], by simp, rfl⟩
  next rest =>
    refine ⟨[.current], by simp, ?_⟩
    change [Component.current] ++ componentsOf (splitSlash (slash :: rest)) =
      [Component.current] ++ componentsOf (splitSlash (dot ++ slash :: rest))
    rw [splitSlash_append_slash, splitSlash_slash, componentsOf_append, componentsOf_void]
    rfl
  next => exact ⟨[], by simp, rfl⟩

/-- A path that stays below is a path of names. -/
theorem names_of_staysBelow (h : p.components.all Options.staysBelow) :
    p.isAbsolute = false ∧ ∃ more : List Name,
      componentsOf (splitSlash p.bytes) = more.map .normal := by
  have stays := List.all_eq_true.mp h
  have relative : p.isAbsolute = false := by
    cases hp : p.isAbsolute with
    | false => rfl
    | true =>
      have root : Component.root ∈ p.components := by simp [components_of_absolute hp]
      cases stays _ root
  refine ⟨relative, ?_⟩
  obtain ⟨head, -, hc⟩ := components_of_relative relative
  rw [hc] at stays
  generalize splitSlash p.bytes = parts at stays
  induction parts with
  | nil => exact ⟨[], rfl⟩
  | cons part rest ih =>
    cases hpart : componentOf? part with
    | none =>
      have void : componentsOf (part :: rest) = componentsOf rest := List.filterMap_cons_none hpart
      rw [void] at stays ⊢
      exact ih stays
    | some component =>
      have next : componentsOf (part :: rest) = component :: componentsOf rest :=
        List.filterMap_cons_some hpart
      rw [next] at stays ⊢
      obtain ⟨more, hm⟩ := ih fun c hc => stays c (by
        rcases List.mem_append.mp hc with hc | hc <;> simp [hc])
      have below := stays component (by simp)
      unfold componentOf? at hpart
      split at hpart
      · cases hpart
      · split at hpart
        · cases hpart
          cases below
        · cases hpart
          exact ⟨part :: more, by rw [hm]; rfl⟩

/-- What is appended to a path without leaving it goes on from its names. -/
theorem Spells.join (hp : p.Spells names) (h : q.components.all Options.staysBelow) :
    ∃ more, (p.join q).Spells (names ++ more) := by
  obtain ⟨relative, more, hm⟩ := names_of_staysBelow h
  refine ⟨more, isAbsolute_join hp.absolute q, ?_⟩
  rw [components_join hp.absolute relative, hp.components, hm, List.map_append, List.cons_append]

theorem Spells.own (h : p.Spells names) : p.Spells p.names := by
  rwa [h.names_eq]

end Path

namespace Workspace

theorem properName_dist : ProperName (Bytes.ofString "dist") :=
  ⟨by decide, by decide, by decide, by decide⟩

theorem properName_target : ProperName (Bytes.ofString "target") :=
  ⟨by decide, by decide, by decide, by decide⟩

theorem properName_child {name : Name} (h : name ∈ [Bytes.ofString "dist", Bytes.ofString "target"]) :
    ProperName name := by
  simp only [List.mem_cons, List.not_mem_nil, or_false] at h
  rcases h with rfl | rfl
  · exact properName_dist
  · exact properName_target

end Workspace

namespace Settings

/-- The directory that the installer is given. -/
def installDir (s : Settings) : Path := (⟨s.workspace⟩ : Workspace).installDir s.layerPrefix

/-- Where the other directories of settings are. -/
structure Placed (s : Settings) : Prop where
  dist : s.dist.Spells s.dist.names
  inside : ∀ p ∈ [(⟨s.workspace⟩ : Workspace).dist, (⟨s.workspace⟩ : Workspace).target, s.installDir],
    p.Spells p.names ∧ s.workspace.names <+: p.names

theorem checkPrefix_ok {given found : Option Path} (h : Options.checkPrefix given = .ok found) :
    found = none ∨ ∃ p, found = some p ∧ p.components.all Options.staysBelow := by
  unfold Options.checkPrefix at h
  split at h
  · exact .inl (Except.ok.inj h).symm
  next p =>
    split at h
    · exact .inl (Except.ok.inj h).symm
    · split at h
      next stays => exact .inr ⟨p, (Except.ok.inj h).symm, stays⟩
      next => cases h

theorem placed_of_settle {options : Options} {current source : Path} {package : Package}
    (h : options.settle current package source = .ok s) : s.Placed := by
  have settled := Options.settle_ok h
  have workspace := (Options.laid_of_settle h).workspace
  have inside {p : Path} {more : List Name} (hp : p.Spells (s.workspace.names ++ more)) :
      p.Spells p.names ∧ s.workspace.names <+: p.names := by
    refine ⟨hp.own, ?_⟩
    rw [hp.names_eq]
    exact List.prefix_append _ _
  have target := workspace.child Workspace.properName_target
  have dist := workspace.child Workspace.properName_dist
  refine ⟨?_, fun p hp => ?_⟩
  · rw [settled.dist]
    split
    next dir _ => exact Path.spells_absolute current dir
    next => exact dist.own
  · simp only [List.mem_cons, List.not_mem_nil, or_false] at hp
    rcases hp with rfl | rfl | rfl
    · exact inside dist
    · exact inside target
    · unfold installDir
      obtain hp | ⟨p, hp, stays⟩ := checkPrefix_ok settled.layerPrefix
      · rw [hp]
        exact inside target
      · rw [hp]
        obtain ⟨more, hm⟩ := target.join stays
        rw [List.append_assoc] at hm
        exact inside hm

theorem Accepted.placed (h : s.Accepted) : s.Placed := by
  obtain ⟨options, current, package, source, hs⟩ := h.settled
  exact placed_of_settle hs

/-- The place lies at or below the workspace, the directory of wheels, or the output. -/
def Owns (s : Settings) (place : Place) : Prop :=
  ∃ p ∈ [s.workspace, s.dist, s.output], p.names <+: place

/-- The place is one of those that lead to them. -/
def LeadsBy (s : Settings) (place : Place) : Prop :=
  ∃ p ∈ [s.workspace, s.dist, s.output], place <+: p.names

instance (s : Settings) (place : Place) : Decidable (s.Owns place) :=
  inferInstanceAs (Decidable (∃ p ∈ [_, _, _], _))

instance (s : Settings) (place : Place) : Decidable (s.LeadsBy place) :=
  inferInstanceAs (Decidable (∃ p ∈ [_, _, _], _))

/-- A path that ends in what a run owns, and so does not leave it on its way. -/
structure Way (s : Settings) (p : Path) : Prop where
  spells : p.Spells p.names
  stays : ∀ place, place <+: p.names → s.Owns place ∨ s.LeadsBy place

theorem Laid.way (laid : s.Laid) (placed : s.Placed) {p : Path}
    (hp : p ∈ [s.workspace, s.dist, s.output]) : s.Way p := by
  refine ⟨?_, fun place h => .inr ⟨p, hp, h⟩⟩
  simp only [List.mem_cons, List.not_mem_nil, or_false] at hp
  rcases hp with rfl | rfl | rfl
  · exact laid.workspace
  · exact placed.dist
  · exact laid.output

theorem Placed.way (placed : s.Placed) {p : Path}
    (hp : p ∈ [(⟨s.workspace⟩ : Workspace).dist, (⟨s.workspace⟩ : Workspace).target, s.installDir]) :
    s.Way p := by
  obtain ⟨spells, inside⟩ := placed.inside p hp
  refine ⟨spells, fun place h => ?_⟩
  rcases List.prefix_or_prefix_of_prefix inside h with h | h
  · exact .inl ⟨s.workspace, by simp, h⟩
  · exact .inr ⟨s.workspace, by simp, h⟩

end Settings

end LayerPack
