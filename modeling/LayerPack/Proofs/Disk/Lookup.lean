import LayerPack.Proofs.Disk.Stride

/-! Where paths lead. A path is walked by its parts, and an operation on an entry looks up the directory of
the last one first. What is found is there, and it is found on every disk that still has the directories
and links of the way. -/
namespace LayerPack

variable {root root' : Node} {follow : Bool} {place dest : Place} {part : Bytes}
  {parts rest : List Bytes}

theorem getLast?_splitSlash {b : Bytes} (h : (splitSlash b).getLast? = some []) :
    b = [] ∨ b.getLast? = some slash := by
  by_cases hs : slash ∈ b
  · obtain ⟨after, before, hb, hn⟩ := List.eq_append_cons_of_mem (List.mem_reverse.mpr hs)
    have hb : b = before.reverse ++ slash :: after.reverse := by
      rw [← List.reverse_reverse b, hb]
      simp
    have ha : slash ∉ after.reverse := by simpa using hn
    rw [hb, splitSlash_append_slash, splitSlash_of_notMem ha, List.getLast?_concat] at h
    right
    simp only [Option.some.injEq] at h
    simp [hb, h]
  · rw [splitSlash_of_notMem hs] at h
    exact .inl (by simpa using h)

namespace Disk

variable {d d' : Disk} {cwd : Place} {p : Path} {name : Name} {slashed : Bool} {last : Last}

theorem splitLast_name {b : Bytes} (h : splitLast b = (parts, .name name slashed)) :
    (splitSlash b).filter (· ≠ []) = parts ++ [name] ∧ slashed = decide (b.getLast? = some slash) ∧
      ProperName name := by
  unfold splitLast at h
  dsimp only at h
  split at h
  · simp at h
  next last hl =>
    obtain ⟨front, hf⟩ := List.getLast?_eq_some_iff.mp hl
    have hm : last ∈ (splitSlash b).filter (· ≠ []) := hf ▸ List.mem_concat_self
    obtain ⟨hm, hne⟩ := List.mem_filter.mp hm
    rw [hf, List.dropLast_concat, Prod.mk.injEq] at h
    obtain ⟨rfl, h⟩ := h
    split at h
    · cases h
    next hd =>
      split at h
      · cases h
      next hdd =>
        simp only [Last.name.injEq] at h
        obtain ⟨rfl, rfl⟩ := h
        exact ⟨hf, rfl, by simpa using hne, notMem_of_mem_splitSlash hm, hd, hdd⟩

/-- The parts of a path that ends in a name: the slashes after it count as one empty part. -/
theorem partsOf_of_splitLast {b : Bytes} (h : splitLast b = (parts, .name name slashed)) :
    partsOf b = parts ++ name :: if slashed then [[]] else [] := by
  obtain ⟨hf, hs, -⟩ := splitLast_name h
  obtain ⟨front, last, hl⟩ : ∃ front last, splitSlash b = front ++ [last] :=
    ⟨_, _, (List.dropLast_concat_getLast (splitSlash_ne_nil b)).symm⟩
  have hparts : partsOf b = front.filter (· ≠ []) ++ [last] := by
    simp [partsOf, hl]
  rw [hl, List.filter_append] at hf
  rw [hparts]
  cases slashed with
  | true =>
    obtain ⟨before, hb⟩ := List.getLast?_eq_some_iff.mp (of_decide_eq_true hs.symm)
    rw [hb, splitSlash_append_slash] at hl
    have hlast : last = [] := by simpa [splitSlash] using (List.append_inj' hl rfl).2.symm
    subst hlast
    have hf : front.filter (· ≠ []) = parts ++ [name] := by simpa using hf
    rw [hf]
    simp
  | false =>
    have hlast : last ≠ [] := by
      rintro rfl
      rcases getLast?_splitSlash (b := b) (by simp [hl]) with rfl | hb
      · have hfront : front = [] := by simpa [splitSlash] using (List.append_inj' hl rfl).1.symm
        simp [hfront] at hf
      · simp [hb] at hs
    simpa [hlast] using hf

theorem resolve_ok {node : Node} :
    d.resolve cwd follow p = .ok (place, node) ↔ d.lookup cwd follow p = .ok (.found place node) := by
  unfold resolve
  rcases d.lookup cwd follow p with e | spot
  · simp [bind, Except.bind]
  · cases spot <;> simp [bind, Except.bind, pure, Except.pure, throw, throwThe,
      MonadExceptOf.throw]

theorem lookup_sound {spot : Spot} (h : d.lookup cwd follow p = .ok spot) :
    (Walked.arrived spot).Sound d.root := by
  unfold lookup at h
  cases hc : checkPath p with
  | error e => simp [hc, bind, Except.bind] at h
  | ok u =>
    rw [hc] at h
    exact chase_sound (fun _ hp => notMem_of_mem_partsOf hp) h

/-- A name as the last part is not too long. -/
def Last.Fits : Last → Prop
  | .name name _ => name.length ≤ maxName
  | _ => True

/-- What it takes to find the directory of the last part of a path. -/
theorem lookupParent_eq_ok : d.lookupParent cwd p = .ok (place, last) ↔
    checkPath p = .ok () ∧
      (∃ es, chase d.root true maxLinks (startOf cwd p.bytes) ((splitLast p.bytes).1 ++ [[]]) =
        .ok (.found place (.dir es))) ∧
      (splitLast p.bytes).2 = last ∧ last.Fits := by
  unfold lookupParent
  cases hc : checkPath p with
  | error e => simp [bind, Except.bind]
  | ok u =>
    obtain ⟨parts, last'⟩ := splitLast p.bytes
    rcases hr : chase d.root true maxLinks (startOf cwd p.bytes) (parts ++ [[]]) with e | spot
    · simp [bind, Except.bind, hr]
    cases spot with
    | absent => simp [bind, Except.bind, hr, throw, throwThe, MonadExceptOf.throw]
    | found place' node =>
      cases node with
      | file | link => simp [bind, Except.bind, hr, throw, throwThe, MonadExceptOf.throw]
      | dir es =>
        cases last' with
        | dot | dotdot | root =>
          simp only [bind, Except.bind, hr, pure, Except.pure, Except.ok.injEq, Prod.mk.injEq]
          constructor
          · rintro ⟨rfl, rfl⟩
            exact ⟨trivial, ⟨es, rfl⟩, rfl, trivial⟩
          · rintro ⟨-, ⟨es, h⟩, hl, -⟩
            cases h
            exact ⟨rfl, hl⟩
        | name name slashed =>
          by_cases hl : maxName < name.length
          · simp only [bind, Except.bind, hr, hl, if_true, throw, throwThe, MonadExceptOf.throw]
            refine ⟨fun h => by (cases h), ?_⟩
            rintro ⟨-, -, rfl, hf⟩
            exact (Nat.not_le.mpr hl hf).elim
          · simp only [bind, Except.bind, hr, hl, if_false, pure, Except.pure, Except.ok.injEq,
              Prod.mk.injEq]
            constructor
            · rintro ⟨rfl, rfl⟩
              exact ⟨trivial, ⟨es, rfl⟩, rfl, Nat.not_lt.mp hl⟩
            · rintro ⟨-, ⟨es, h⟩, hl, -⟩
              cases h
              exact ⟨rfl, hl⟩

/-- The way to the directory of a path stays as long as its directories and links do. -/
theorem lookupParent_keeps (h : d.root.KeepsWays d'.root)
    (hp : d.lookupParent cwd p = .ok (place, last)) : d'.lookupParent cwd p = .ok (place, last) := by
  obtain ⟨hc, ⟨es, hw⟩, hl⟩ := lookupParent_eq_ok.mp hp
  exact lookupParent_eq_ok.mpr ⟨hc, chase_keeps h hw, hl⟩

/-- A path to a directory stays one as long as the directories and links on its way do. -/
theorem resolve_keeps (h : d.root.KeepsWays d'.root) {es : Entries}
    (hr : d.resolve cwd follow p = .ok (place, .dir es)) :
    ∃ es', d'.resolve cwd follow p = .ok (place, .dir es') := by
  have hl := resolve_ok.mp hr
  unfold lookup at hl
  cases hc : checkPath p with
  | error e =>
    rw [hc] at hl
    cases hl
  | ok =>
    rw [hc] at hl
    obtain ⟨es', hl'⟩ := chase_keeps h hl
    refine ⟨es', resolve_ok.mpr ?_⟩
    unfold lookup
    rw [hc]
    exact hl'

theorem dir_of_lookupParent (hp : d.lookupParent cwd p = .ok (place, last)) :
    ∃ es, d.get? place = some (.dir es) := by
  obtain ⟨-, ⟨es, hw⟩, -⟩ := lookupParent_eq_ok.mp hp
  exact ⟨es, (chase_append hw).1⟩

theorem properName_of_lookupParent (hp : d.lookupParent cwd p = .ok (place, .name name slashed)) :
    ProperName name ∧ name.length ≤ maxName := by
  obtain ⟨-, -, hl, hf⟩ := lookupParent_eq_ok.mp hp
  exact ⟨(splitLast_name (Prod.ext rfl hl)).2.2, hf⟩

/-- A path with a name at its end leads to the directory first, and from there by the name. -/
theorem lookup_of_lookupParent (hp : d.lookupParent cwd p = .ok (place, .name name false))
    (follow : Bool) :
    ∃ left, d.lookup cwd follow p = chase d.root follow left place [name] := by
  obtain ⟨hc, ⟨es, hw⟩, hl, -⟩ := lookupParent_eq_ok.mp hp
  obtain ⟨-, left, hleft⟩ := chase_append hw
  refine ⟨left, ?_⟩
  have hparts := partsOf_of_splitLast (Prod.ext rfl hl)
  simp only [Bool.false_eq_true, if_false] at hparts
  unfold lookup
  rw [hc, hparts]
  exact hleft follow [name] (by simp)

theorem walk_name {es : Entries} (hd : root.get? place = some (.dir es)) (hn : ProperName name)
    (hl : name.length ≤ maxName) : walk root follow place [name] =
      match root.get? (place ++ [name]) with
      | none => .arrived (.absent place name false)
      | some (.link target) =>
        if !follow then .arrived (.found (place ++ [name]) (.link target))
        else if target = [] then .failed .noEntry
        else .jump (startOf place target) (partsOf target ++ [])
      | some node => .arrived (.found (place ++ [name]) node) := by
  rw [walk_proper hd hn, if_neg (Nat.not_lt.mpr hl)]
  cases hp : root.get? (place ++ [name]) with
  | none => rfl
  | some node =>
    cases node with
    | link target => simp
    | file | dir =>
      dsimp only
      rw [walk_nil, hp]

/-- A path that ends in a name that no directory has leads to where the name is missing. -/
theorem lookup_missing {spot : Spot} (hs : splitLast p.bytes = (parts, .name name false))
    (missing : ∀ dest, d.get? (dest ++ [name]) = none)
    (h : d.lookup cwd follow p = .ok spot) :
    ∃ parent, d.lookupParent cwd p = .ok (parent, .name name false) ∧
      spot = .absent parent name false := by
  have hparts := partsOf_of_splitLast hs
  simp only [Bool.false_eq_true, if_false] at hparts
  unfold lookup at h
  rw [hparts] at h
  cases hc : checkPath p with
  | error e => simp [hc, bind, Except.bind] at h
  | ok u =>
    rw [hc] at h
    obtain ⟨dest, es, hd, rfl, hl⟩ := chase_missing (splitLast_name hs).2.2 missing h
    refine ⟨dest, lookupParent_eq_ok.mpr ⟨hc, ⟨es, ?_⟩, ?_, hl⟩, rfl⟩
    · rw [hs]
      exact hd
    · rw [hs]

/-- A path whose last part is the name of a file leads to it. -/
theorem resolve_file {id mode : Nat} {content : ByteArray}
    (hp : d.lookupParent cwd p = .ok (place, .name name false))
    (hg : d.get? (place ++ [name]) = some (.file id mode content)) (follow : Bool) :
    d.resolve cwd follow p = .ok (place ++ [name], .file id mode content) := by
  obtain ⟨left, hleft⟩ := lookup_of_lookupParent hp follow
  obtain ⟨es, he⟩ := dir_of_lookupParent hp
  obtain ⟨hn, hl⟩ := properName_of_lookupParent hp
  unfold resolve
  rw [hleft]
  unfold chase
  rw [walk_name he hn hl, get?_root, hg]
  rfl

end Disk

end LayerPack
