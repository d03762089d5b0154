import LayerPack.Proofs.Disk.Alike

/-! Paths that end in a name that is nowhere on the disk. How such a path is looked up depends on the
directory above it and on the length of the name alone, so paths that differ only in unused names of
one length cannot be told apart. -/
namespace LayerPack

variable {root : Node} {place : Place} {name name' : Name} {parts : List Bytes} {up : List Name}

/-- Where a way ends that goes on to an unused name from where it has come. -/
def Spot.aim (name : Name) : Spot → Except SystemError Spot
  | .found dest (.dir _) =>
    if Disk.maxName < name.length then .error .nameTooLong else .ok (.absent dest name false)
  | .found .. => .error .notDirectory
  | .absent .. => .error .noEntry

/-- What becomes of a walk when its last part, a slash, is replaced by an unused name. -/
def Walked.aim (name : Name) : Walked → Walked
  | .arrived spot => match spot.aim name with
    | .ok spot => .arrived spot
    | .error e => .failed e
  | .failed e => .failed e
  | .jump start parts => .jump start (parts.dropLast ++ [name])

namespace Disk

theorem walk_aim (hn : ProperName name) (unused : ∀ dest, root.get? (dest ++ [name]) = none)
    (follow : Bool) (place : Place) (parts : List Bytes) :
    walk root follow place (parts ++ [name]) = (walk root true place (parts ++ [[]])).aim name := by
  induction parts generalizing place with
  | nil =>
    rw [List.nil_append, List.nil_append]
    by_cases hd : ∃ es, root.get? place = some (.dir es)
    case neg =>
      rw [walk_of_no_dir fun es he => hd ⟨es, he⟩, walk_of_no_dir fun es he => hd ⟨es, he⟩]
      rfl
    obtain ⟨es, he⟩ := hd
    have slashed : walk root true place [[]] = .arrived (.found place (.dir es)) := by
      rw [walk_cons he, if_pos (.inl rfl), walk_nil, he]
    rw [slashed, walk_proper he hn, unused]
    by_cases long : name.length > maxName
    · simp [Walked.aim, Spot.aim, long]
    · simp [Walked.aim, Spot.aim, long]
  | cons part rest ih =>
    rw [List.cons_append, List.cons_append]
    by_cases hd : ∃ es, root.get? place = some (.dir es)
    case neg =>
      rw [walk_of_no_dir fun es he => hd ⟨es, he⟩, walk_of_no_dir fun es he => hd ⟨es, he⟩]
      rfl
    obtain ⟨es, he⟩ := hd
    rw [walk_cons he, walk_cons he]
    split
    · exact ih place
    split
    · exact ih place.dropLast
    split
    · rfl
    cases root.get? (place ++ [part]) with
    | none =>
      have missing : (rest ++ [name]).all (· = []) = false := by simp [hn.nonempty]
      simp only [missing, Bool.false_eq_true, if_false]
      split <;> rfl
    | some node =>
      cases node with
      | file | dir => exact ih (place ++ [part])
      | link target =>
        simp only [List.append_eq_nil_iff, List.cons_ne_self, and_false, false_and, if_false]
        split
        · rfl
        · simp [Walked.aim, ← List.append_assoc]

/-- The parts that a walk leaves for the next one end as its own do. -/
theorem jump_slash {follow : Bool} {start : Place} {rest : List Bytes}
    (h : walk root follow place (parts ++ [[]]) = .jump start rest) :
    ∃ front, rest = front ++ [[]] := by
  rcases walk_append root place parts with ⟨dest, hw⟩ | ⟨start', parts', hw⟩ | hw
  · rw [hw follow [[]] (by simp)] at h
    by_cases hd : ∃ es, root.get? dest = some (.dir es)
    · obtain ⟨es, he⟩ := hd
      rw [walk_cons he, if_pos (.inl rfl), walk_nil, he] at h
      cases h
    · rw [walk_of_no_dir fun es he => hd ⟨es, he⟩] at h
      cases h
  · rw [hw follow [[]] (by simp)] at h
    cases h
    exact ⟨parts', rfl⟩
  · have lost := hw follow [[]] (by simp)
    rw [h] at lost
    cases lost

theorem chase_aim (hn : ProperName name) (unused : ∀ dest, root.get? (dest ++ [name]) = none)
    (follow : Bool) (links : Nat) (place : Place) (parts : List Bytes) :
    chase root follow links place (parts ++ [name]) =
      (chase root true links place (parts ++ [[]])).bind (Spot.aim name) := by
  induction links generalizing place parts with
  | zero =>
    unfold chase
    rw [walk_aim hn unused]
    cases walk root true place (parts ++ [[]]) with
    | failed | jump => rfl
    | arrived spot =>
      simp only [Walked.aim, Except.bind]
      cases spot.aim name <;> rfl
  | succ links ih =>
    unfold chase
    rw [walk_aim hn unused]
    cases hw : walk root true place (parts ++ [[]]) with
    | failed => rfl
    | arrived spot =>
      simp only [Walked.aim, Except.bind]
      cases spot.aim name <;> rfl
    | jump start rest =>
      obtain ⟨front, rfl⟩ := jump_slash hw
      simp only [Walked.aim, List.dropLast_concat]
      exact ih start front

variable {d : Disk} {cwd : Place}

/-- The last part of a path that is written by its names. -/
theorem splitLast_concat (h : ∀ n ∈ up ++ [name], ProperName n) :
    splitLast (Path.ofNames (up ++ [name])).bytes = (up, .name name false) := by
  obtain ⟨parts, last, hs⟩ := splitLast_ofNames h (by simp)
  have hparts := (partsOf_of_splitLast hs).symm.trans (partsOf_ofNames h (by simp))
  obtain ⟨rfl, he⟩ := List.append_inj' hparts rfl
  obtain rfl : last = name := by simpa using he
  exact hs

/-- A path that ends in an unused name leads no farther than to its directory. -/
theorem lookup_unused (h : ∀ n ∈ up ++ [name], ProperName n)
    (unused : ∀ dest, d.get? (dest ++ [name]) = none) (follow : Bool) :
    d.lookup cwd follow (.ofNames (up ++ [name])) =
      (d.lookupParent cwd (.ofNames (up ++ [name]))).map fun found => .absent found.1 name false := by
  unfold lookup lookupParent
  cases checkPath (.ofNames (up ++ [name])) with
  | error e => rfl
  | ok =>
    rw [splitLast_concat h, partsOf_ofNames h (by simp), startOf_absolute (Path.isAbsolute_ofNames _)]
    change chase d.root follow maxLinks [] (up ++ [name]) = _
    rw [chase_aim (h name (by simp)) unused]
    dsimp only [bind, Except.bind]
    rcases chase d.root true maxLinks [] (up ++ [[]]) with e | ⟨dest, node⟩ | _
    · rfl
    · cases node with
      | file | link => rfl
      | dir es =>
        dsimp only [Spot.aim]
        by_cases long : name.length > maxName
        · rw [if_pos long, if_pos long]
          rfl
        · rw [if_neg long, if_neg long]
          rfl
    · rfl

/-- Two names that stand for each other at the end of a path. -/
structure Stand (up : List Name) (name name' : Name) : Prop where
  proper : ∀ n ∈ up ++ [name], ProperName n
  proper' : ∀ n ∈ up ++ [name'], ProperName n
  length : name.length = name'.length
  check : checkPath (.ofNames (up ++ [name])) = checkPath (.ofNames (up ++ [name']))

/-- Both of the names have the same directory, or for the same reason none. -/
theorem Stand.lookupParent (h : Stand up name name') (d : Disk) (cwd : Place) :
    Both (fun found found' => ∃ parent, found = (parent, .name name false) ∧
      found' = (parent, .name name' false)) (d.lookupParent cwd (.ofNames (up ++ [name])))
        (d.lookupParent cwd (.ofNames (up ++ [name']))) := by
  unfold Disk.lookupParent
  rw [← h.check]
  cases checkPath (.ofNames (up ++ [name])) with
  | error e => exact .error e
  | ok =>
    rw [splitLast_concat h.proper, splitLast_concat h.proper',
      startOf_absolute (Path.isAbsolute_ofNames _), startOf_absolute (Path.isAbsolute_ofNames _)]
    dsimp only [bind, Except.bind]
    rcases chase d.root true maxLinks [] (up ++ [[]]) with e | ⟨dest, node⟩ | _
    · exact .error e
    · cases node with
      | file | link => exact .error _
      | dir es =>
        dsimp only
        rw [← h.length]
        by_cases long : name.length > maxName
        · rw [if_pos long, if_pos long]
          exact .error _
        · rw [if_neg long, if_neg long]
          exact .ok ⟨dest, rfl, rfl⟩
    · exact .error _

end Disk

end LayerPack
