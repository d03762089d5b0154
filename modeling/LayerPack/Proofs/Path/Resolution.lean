import LayerPack.Proofs.Settings.Accepted

/-! Where a path leads lexically. Whether it starts anew or goes on from a directory depends on its first
slash alone, and what is joined to a path goes on from where that one leads. -/
namespace LayerPack.Path

variable {names : List Name} {p q cwd cwd' : Path}

theorem settle_append (names : List Name) (front back : List Component) :
    settle names (front ++ back) = settle (settle names front) back := by
  induction front generalizing names with
  | nil => rfl
  | cons component rest ih => cases component <;> exact ih _

/-- A leading dot stands for nothing, and a leading slash for the root. -/
theorem settle_components (names : List Name) (p : Path) : settle names p.components =
    settle (if p.isAbsolute then [] else names) (componentsOf (splitSlash p.bytes)) := by
  cases hp : p.isAbsolute with
  | true => rw [components_of_absolute hp, settle, if_pos rfl]
  | false =>
    obtain ⟨bytes⟩ := p
    rw [if_neg Bool.false_ne_true, components]
    dsimp only
    fun_cases splitHead bytes
    · cases hp
    · rfl
    next rest =>
      change settle names (componentsOf (splitSlash (slash :: rest))) =
        settle names (componentsOf (splitSlash (dot ++ slash :: rest)))
      rw [splitSlash_append_slash, splitSlash_slash]
      rfl
    · rfl

/-- Joined to a path, a relative one adds its parts. -/
theorem parts_join (hq : q.isAbsolute = false) : (p.join q).isAbsolute = p.isAbsolute ∧
    componentsOf (splitSlash (p.join q).bytes) =
      componentsOf (splitSlash p.bytes) ++ componentsOf (splitSlash q.bytes) := by
  obtain ⟨bytes⟩ := p
  rw [join, hq, if_neg Bool.false_ne_true]
  split
  next h =>
    rcases h with rfl | h
    · exact ⟨hq, rfl⟩
    · obtain ⟨front, rfl⟩ := List.getLast?_eq_some_iff.mp h
      refine ⟨by simp [isAbsolute], ?_⟩
      have hb : front ++ [slash] ++ q.bytes = front ++ slash :: q.bytes := by simp
      rw [hb, splitSlash_append_slash, splitSlash_append_slash, componentsOf_append, componentsOf_append]
      simp [splitSlash, componentsOf, componentOf?]
  next h =>
    obtain ⟨x, rest, rfl⟩ := List.exists_cons_of_ne_nil (not_or.mp h).1
    exact ⟨rfl, by rw [splitSlash_append_slash, componentsOf_append]⟩

theorem settle_join (names : List Name) (p q : Path) :
    settle names (p.join q).components = settle (settle names p.components) q.components := by
  cases hq : q.isAbsolute with
  | true =>
    rw [join, if_pos hq, settle_components, settle_components _ q, if_pos hq, if_pos hq]
  | false =>
    obtain ⟨absolute, parts⟩ := parts_join (p := p) hq
    rw [settle_components, absolute, parts, settle_append, settle_components _ q, hq,
      settle_components _ p, if_neg Bool.false_ne_true]

/-- A path that starts from the current directory leads on as one that starts from where the first leads. -/
theorem absolute_join (cwd p q : Path) :
    absolute cwd (p.join q) = absolute (absolute cwd p) q := by
  have start : settle [] (absolute cwd p).components = namesFrom cwd p :=
    (Spells.absolute' cwd p).names_eq
  rw [absolute, absolute, namesFrom, namesFrom, start, settle_join, namesFrom]

/-- An absolute path leads to the same place from everywhere. -/
theorem absolute_of_isAbsolute (h : p.isAbsolute) (cwd cwd' : Path) : absolute cwd p = absolute cwd' p := by
  rw [absolute, absolute, namesFrom, namesFrom, settle_components, settle_components _ p, if_pos h, if_pos h]

end LayerPack.Path
