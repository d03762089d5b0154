import LayerPack.Proofs.Disk.Tree

/-! A leaf is added to a tree. The directories above it are made where they are missing, and nothing
that is there is replaced, so nothing aside of the leaf is another afterwards. -/
namespace LayerPack

/-- Neither of two places lies at or below the other. -/
def Apart (p q : Place) : Prop := ¬ p <+: q ∧ ¬ q <+: p

theorem Apart.symm {p q : Place} (h : Apart p q) : Apart q p := ⟨h.2, h.1⟩

/-- What lies above one of two places that are apart is not at or below the other. -/
theorem Apart.above {p q up : Place} (h : Apart p q) (hu : up <+: q) : ¬ p <+: up :=
  fun hp => h.1 (hp.trans hu)

namespace Node

/-- A tree with a leaf added at a place. Without a tree there is nothing yet. -/
def plant (leaf : Node) : List Name → Option Node → Option Node
  | [], none => some leaf
  | [], some _ => none
  | name :: rest, tree =>
    match tree.getD (dir []) with
    | dir es =>
      (plant leaf rest (Entries.find? es name)).map fun node =>
        dir (Entries.alter name (fun _ => some node) es)
    | _ => none

/-- Nothing stands at a place, and nothing but directories above it. -/
structure Free (tree : Option Node) (place : Place) : Prop where
  here : tree.bind (·.get? place) = none
  above : ∀ up, up <+: place → up ≠ place → ∀ node, tree.bind (·.get? up) = some node →
    node.isDir = true

/-- A tree has got a leaf at a place and directories above it, and nothing else. -/
structure Planted (leaf : Node) (place : Place) (tree : Option Node) (tree' : Node) : Prop where
  there : tree'.get? place = some leaf
  above : ∀ up, up <+: place → up ≠ place → ∃ es, tree'.get? up = some (dir es)
  aside : ∀ q, Apart place q → tree'.get? q = tree.bind (·.get? q)

variable {leaf : Node} {tree : Option Node} {place : Place}

/-- A tree or its absence, seen as a directory. -/
theorem get?_of_getD {es : Entries} (h : tree.getD (dir []) = dir es) (name : Name) (q : Place) :
    tree.bind (·.get? (name :: q)) = (Entries.find? es name).bind (·.get? q) := by
  cases tree with
  | none =>
    cases h
    rfl
  | some node =>
    obtain rfl : node = dir es := h
    rw [Option.bind_some, get?]
    cases Entries.find? es name <;> rfl

theorem get?_dir_alter {es : Entries} {name other : Name} {node : Node} (q : Place) :
    (dir (Entries.alter name (fun _ => some node) es)).get? (other :: q) =
      if other = name then node.get? q else (Entries.find? es other).bind (·.get? q) := by
  rw [get?]
  by_cases h : other = name
  · subst h
    rw [if_pos rfl, Entries.find?_alter_self (.inr fun _ => rfl)]
  · rw [if_neg h, Entries.find?_alter_of_ne h]
    cases Entries.find? es other <;> rfl

/-- Where a place is free, a leaf can be added. -/
theorem plant_free (free : Free tree place) :
    ∃ tree', plant leaf place tree = some tree' ∧ Planted leaf place tree tree' := by
  induction place generalizing tree with
  | nil =>
    obtain rfl : tree = none := by simpa [get?] using free.here
    refine ⟨leaf, rfl, rfl, fun up hu hne => ?_, fun q h => (h.1 List.nil_prefix).elim⟩
    exact (hne (List.prefix_nil.mp hu)).elim
  | cons name rest ih =>
    obtain ⟨es, hes⟩ : ∃ es, tree.getD (dir []) = dir es := by
      cases tree with
      | none => exact ⟨[], rfl⟩
      | some node =>
        have hd := free.above [] List.nil_prefix (List.cons_ne_nil _ _).symm node (by simp [get?])
        cases node with
        | dir es => exact ⟨es, rfl⟩
        | file | link => cases hd
    have inner : Free (Entries.find? es name) rest := by
      refine ⟨(get?_of_getD hes name rest).symm.trans free.here, fun up hu hne node hn => ?_⟩
      refine free.above (name :: up) (List.cons_prefix_cons.mpr ⟨rfl, hu⟩) (fun h => ?_) node ?_
      · exact hne (List.cons.inj h).2
      · rw [get?_of_getD hes, hn]
    obtain ⟨node, hplant, planted⟩ := ih inner
    refine ⟨dir (Entries.alter name (fun _ => some node) es), ?_, ?_, fun up hu hne => ?_, fun q h => ?_⟩
    · rw [plant, hes]
      simp [hplant]
    · rw [get?_dir_alter, if_pos rfl, planted.there]
    · cases up with
      | nil => exact ⟨_, rfl⟩
      | cons other up =>
        obtain ⟨rfl, hrest⟩ := List.cons_prefix_cons.mp hu
        obtain ⟨es', he⟩ := planted.above up hrest fun h => hne (by rw [h])
        exact ⟨es', by rw [get?_dir_alter, if_pos rfl, he]⟩
    · cases q with
      | nil => exact (h.2 List.nil_prefix).elim
      | cons other q =>
        rw [get?_dir_alter, get?_of_getD hes]
        split
        next ho =>
          subst ho
          have aside : Apart rest q :=
            ⟨fun hp => h.1 (List.cons_prefix_cons.mpr ⟨rfl, hp⟩),
              fun hp => h.2 (List.cons_prefix_cons.mpr ⟨rfl, hp⟩)⟩
          rw [planted.aside q aside]
        · rfl

/-- What is free stays so when a leaf is added apart from it. -/
theorem Planted.free {tree' : Node} {other : Place} (h : Planted leaf place tree tree')
    (apart : Apart place other) (free : Free tree other) : Free (some tree') other := by
  refine ⟨?_, fun up hu hne node hn => ?_⟩
  · rw [Option.bind_some, h.aside other apart, free.here]
  · rw [Option.bind_some] at hn
    by_cases hp : up <+: place
    · obtain ⟨es, he⟩ := h.above up hp fun he => apart.above hu (he ▸ List.prefix_refl _)
      obtain rfl := Option.some.inj (hn.symm.trans he)
      rfl
    · rw [h.aside up ⟨apart.above hu, hp⟩] at hn
      exact free.above up hu hne node hn

end Node

end LayerPack
