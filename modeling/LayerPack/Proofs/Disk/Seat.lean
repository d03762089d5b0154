import LayerPack.Proofs.Disk.Calls

/-! The entry that a path names. Its seat is the place of that entry: the links before the last part
are followed, a link at the last part is not. A path leads nowhere without a seat, or with an empty
one, so what is removed at the seat of a path is not found by the path afterwards, whatever links
the path goes through. -/
namespace LayerPack.Disk

variable {root : Node} {follow : Bool} {place dest parent : Place} {parts rest : List Bytes}
  {d d' : Disk} {cwd : Place} {p : Path} {name : Name} {slashed : Bool} {node : Node}

/-- The place of the entry that a path names. -/
def seat (d : Disk) (cwd : Place) (p : Path) : Option Place :=
  match d.lookupParent cwd p with
  | .ok (parent, .name name _) => some (parent ++ [name])
  | _ => none

theorem seat_of_lookupParent (h : d.lookupParent cwd p = .ok (parent, .name name slashed)) :
    d.seat cwd p = some (parent ++ [name]) := by
  rw [seat, h]

theorem lookupParent_of_seat (h : d.seat cwd p = some place) : ∃ parent name slashed,
    d.lookupParent cwd p = .ok (parent, .name name slashed) ∧ place = parent ++ [name] := by
  unfold seat at h
  split at h
  next parent name slashed hp => exact ⟨parent, name, slashed, hp, (Option.some.inj h).symm⟩
  next => cases h

/-- A path names the same place as long as the directories and links on its way stay. -/
theorem seat_keeps (h : d.root.KeepsWays d'.root) (hs : d.seat cwd p = some place) :
    d'.seat cwd p = some place := by
  obtain ⟨parent, name, slashed, hp, rfl⟩ := lookupParent_of_seat hs
  exact seat_of_lookupParent (lookupParent_keeps h hp)

/-- The seat of a path without links is the place that it spells. -/
theorem seat_spelled {names : List Name} (hp : p.Spells names) (hl : d.root.NoLinkAbove names)
    (h : d.seat cwd p = some place) : place = names := by
  obtain ⟨parent, name, slashed, hparent, rfl⟩ := lookupParent_of_seat h
  exact (lookupParent_spelled hp hl hparent).symm

/-- The parts of a path up to its last one, and after it one empty part for the slashes there. -/
theorem partsOf_of_filter {b last : Bytes} (hf : (splitSlash b).filter (· ≠ []) = parts ++ [last]) :
    ∃ slashes : List Bytes, partsOf b = parts ++ last :: slashes := by
  obtain ⟨front, final, hl⟩ : ∃ front final, splitSlash b = front ++ [final] :=
    ⟨_, _, (List.dropLast_concat_getLast (splitSlash_ne_nil b)).symm⟩
  have hparts : partsOf b = front.filter (· ≠ []) ++ [final] := by simp [partsOf, hl]
  rw [hl, List.filter_append] at hf
  rw [hparts]
  by_cases hfinal : final = []
  · subst hfinal
    have hf : front.filter (· ≠ []) = parts ++ [last] := by simpa using hf
    exact ⟨[[]], by rw [hf]; simp⟩
  · exact ⟨[], by simpa [hfinal] using hf⟩

theorem splitLast_of_filter {b last : Bytes}
    (hf : (splitSlash b).filter (· ≠ []) = parts ++ [last]) :
    splitLast b = (parts, if last = LayerPack.dot then .dot
      else if last = LayerPack.dotdot then .dotdot else .name last (b.getLast? = some slash)) := by
  simp only [splitLast, hf, List.getLast?_concat, List.dropLast_concat]

/-- A path that is written by its names ends in the last of them. -/
theorem splitLast_ofNames {names : List Name} (h : ∀ name ∈ names, ProperName name)
    (hne : names ≠ []) :
    ∃ parts name, splitLast (Path.ofNames names).bytes = (parts, .name name false) := by
  obtain ⟨front, last, rfl⟩ : ∃ front last, names = front ++ [last] :=
    ⟨_, _, (List.dropLast_concat_getLast hne).symm⟩
  have hsplit : splitSlash (Path.ofNames (front ++ [last])).bytes = [] :: (front ++ [last]) := by
    rw [Path.ofNames, splitSlash_slash, splitSlash_joinSlash hne fun name hn => (h name hn).noSlash]
  have hf : (splitSlash (Path.ofNames (front ++ [last])).bytes).filter (· ≠ []) = front ++ [last] := by
    rw [hsplit, List.filter_cons_of_neg (by simp)]
    exact List.filter_eq_self.mpr fun name hn => by simp [(h name hn).nonempty]
  have proper := h last (by simp)
  have hs := splitLast_of_filter hf
  rw [if_neg proper.notDot, if_neg proper.notDotdot] at hs
  refine ⟨front, last, ?_⟩
  cases hslash : decide ((Path.ofNames (front ++ [last])).bytes.getLast? = some slash) with
  | false => rw [hs, hslash]
  | true =>
    -- a slash at the end would be a part of its own
    rw [hslash] at hs
    have := (partsOf_of_splitLast hs).symm.trans (partsOf_ofNames h hne)
    simp at this

theorem dir_of_chase {links : Nat} {spot : Spot} (hne : parts ≠ [])
    (hc : chase root follow links place parts = .ok spot) :
    ∃ es, root.get? place = some (.dir es) := by
  refine Classical.byContradiction fun hd => ?_
  have lost : (walk root follow place parts).Lost [LayerPack.dot] :=
    lost_of_not_dir (fun es h => hd ⟨es, h⟩) hne
  exact not_ok_of_lost lost ⟨_, List.mem_singleton_self _, by decide⟩ hc

/-- What is found by a path, or is missing only at its end, is in a directory that is found. -/
theorem lookupParent_of_lookup {spot : Spot} (h : d.lookup cwd follow p = .ok spot) :
    ∃ parent last, d.lookupParent cwd p = .ok (parent, last) := by
  unfold lookup at h
  cases hc : checkPath p with
  | error e =>
    rw [hc] at h
    cases h
  | ok =>
    rw [hc] at h
    change chase d.root follow maxLinks (startOf cwd p.bytes) (partsOf p.bytes) = .ok spot at h
    rcases List.eq_nil_or_concat ((splitSlash p.bytes).filter (· ≠ [])) with hf | ⟨parts, last, hf⟩
    · have hs : splitLast p.bytes = ([], .root) := by simp only [splitLast, hf, List.getLast?_nil]
      obtain ⟨es, he⟩ := dir_of_chase (by simp [partsOf, splitSlash_ne_nil]) h
      refine ⟨startOf cwd p.bytes, .root, lookupParent_eq_ok.mpr ⟨hc, ⟨es, ?_⟩, by rw [hs], trivial⟩⟩
      rw [hs]
      exact chase_dir he
    · rw [List.concat_eq_append] at hf
      obtain ⟨slashes, hparts⟩ := partsOf_of_filter hf
      have hlast : last ≠ [] := by
        have : last ∈ (splitSlash p.bytes).filter (· ≠ []) := hf ▸ List.mem_concat_self
        simpa using (List.mem_filter.mp this).2
      rw [hparts] at h
      obtain ⟨dest, es, hdest⟩ := chase_prefix ⟨last, List.mem_cons_self, hlast⟩ h
      obtain ⟨hd, left, hleft⟩ := chase_append hdest
      rw [hleft follow _ (by simp)] at h
      have hs := splitLast_of_filter hf
      refine ⟨dest, _, lookupParent_eq_ok.mpr ⟨hc, ⟨es, ?_⟩, rfl, ?_⟩⟩
      · rw [hs]
        exact hdest
      · rw [hs]
        by_cases hdot : last = LayerPack.dot
        · rw [if_pos hdot]
          trivial
        by_cases hdotdot : last = LayerPack.dotdot
        · rw [if_neg hdot, if_pos hdotdot]
          trivial
        · rw [if_neg hdot, if_neg hdotdot]
          refine Nat.not_lt.mp fun hlong => ?_
          unfold chase at h
          rw [walk_cons hd, if_neg (not_or.mpr ⟨hlast, hdot⟩), if_neg hdotdot, if_pos hlong] at h
          cases h

/-- Where a name is missing, no walk by that name finds anything. -/
theorem walk_missing (follow : Bool) (rest : List Bytes) {es : Entries}
    (hd : root.get? place = some (.dir es)) (hn : ProperName name)
    (hg : root.get? (place ++ [name]) = none) :
    (∃ slashed, walk root follow place (name :: rest) = .arrived (.absent place name slashed)) ∨
      ∃ e, walk root follow place (name :: rest) = .failed e := by
  rw [walk_proper hd hn, hg]
  split
  · exact .inr ⟨_, rfl⟩
  · dsimp only
    split
    · exact .inl ⟨_, rfl⟩
    · exact .inr ⟨_, rfl⟩

/-- A path whose seat is empty leads nowhere. -/
theorem not_found_of_empty (hp : d.lookupParent cwd p = .ok (parent, .name name slashed))
    (hn : d.get? (parent ++ [name]) = none) (found : Place × Node) :
    d.resolve cwd follow p ≠ .ok found := by
  intro h
  obtain ⟨hc, ⟨es, hw⟩, hl, -⟩ := lookupParent_eq_ok.mp hp
  obtain ⟨hd, left, hleft⟩ := chase_append hw
  obtain ⟨-, -, proper⟩ := splitLast_name (Prod.ext rfl hl)
  have hlook := resolve_ok.mp h
  unfold lookup at hlook
  rw [hc, partsOf_of_splitLast (Prod.ext rfl hl)] at hlook
  change chase _ _ _ _ _ = _ at hlook
  rw [hleft follow _ (by simp), chase] at hlook
  obtain ⟨_, hw⟩ | ⟨_, hw⟩ := walk_missing follow (if slashed then [[]] else []) hd proper hn
  all_goals
    rw [hw] at hlook
    cases hlook

/-- Removing what stands at a place opens no way. -/
theorem erase_keepsWays (wf : d.root.WellFormed) (hne : place ≠ []) :
    (d.erase place).root.KeepsWays d.root := by
  have same (q : Place) (h : (d.erase place).root.look q ≠ none) :
      d.root.look q = (d.erase place).root.look q := by
    refine (look_erase fun hq => h ?_).symm
    obtain ⟨rest, rfl⟩ := hq
    exact Node.look_eq_none.mpr (get?_erase_below wf hne rest)
  exact ⟨fun q hq => (same q (by simp [hq])).trans hq, fun q _ hq => (same q (by simp [hq])).trans hq⟩

/-- What was removed at the seat of a path is not found by the path, and neither is anything else. -/
theorem not_found_of_erase (wf : d.root.WellFormed)
    (hp : d.lookupParent cwd p = .ok (parent, .name name slashed)) (found : Place × Node) :
    (d.erase (parent ++ [name])).resolve cwd follow p ≠ .ok found := by
  intro h
  obtain ⟨place, node⟩ := found
  obtain ⟨parent', last, hp'⟩ := lookupParent_of_lookup (resolve_ok.mp h)
  have back := lookupParent_keeps (erase_keepsWays wf (by simp)) hp'
  cases hp.symm.trans back
  have gone : (d.erase (parent ++ [name])).get? (parent ++ [name]) = none := by
    have := get?_erase_below wf (p := parent ++ [name]) (by simp) []
    rwa [List.append_nil] at this
  exact not_found_of_empty hp' gone _ h

theorem unlink_seat (h : d.unlink cwd p = .ok d') :
    ∃ place, d.seat cwd p = some place ∧ d' = d.erase place := by
  obtain ⟨parent, name, node, hp, -, -, rfl⟩ := unlink_ok h
  exact ⟨_, seat_of_lookupParent hp, rfl⟩

theorem unlink_notFound (wf : d.root.WellFormed) (h : d.unlink cwd p = .ok d')
    (found : Place × Node) : d'.resolve cwd follow p ≠ .ok found := by
  obtain ⟨parent, name, node, hp, -, -, rfl⟩ := unlink_ok h
  exact not_found_of_erase wf hp found

/-- What is found is not missing when it is to be removed. -/
theorem unlink_ne_noEntry {found : Place × Node} (h : d.resolve cwd follow p = .ok found) :
    d.unlink cwd p ≠ .error .noEntry := by
  obtain ⟨parent, last, hp⟩ := lookupParent_of_lookup (resolve_ok.mp h)
  unfold unlink
  rw [hp]
  cases last with
  | dot | dotdot | root => exact fun h => by cases h
  | name name slashed =>
    cases hg : d.get? (parent ++ [name]) with
    | none => exact (not_found_of_empty hp hg found h).elim
    | some node =>
      simp only [bind, Except.bind, hg]
      cases node with
      | dir => exact fun h => by cases h
      | file | link => cases slashed <;> exact fun h => by cases h

/-- A directory that cannot be removed since it is missing is not found either. -/
theorem rmdir_noEntry (h : d.rmdir cwd p = .error .noEntry) (found : Place × Node) :
    d.resolve cwd follow p ≠ .ok found := by
  intro hfound
  obtain ⟨parent, last, hp⟩ := lookupParent_of_lookup (resolve_ok.mp hfound)
  unfold rmdir at h
  rw [hp] at h
  cases last with
  | dot | dotdot | root => cases h
  | name name slashed =>
    cases hg : d.get? (parent ++ [name]) with
    | none => exact not_found_of_empty hp hg found hfound
    | some node =>
      simp only [bind, Except.bind, hg] at h
      rcases node with _ | _ | _ | _ <;> cases h

/-- After the removal of a tree nothing is found by its path, also if the path went through the
tree. -/
theorem removeTree_notFound {es : Entries} (wf : d.root.WellFormed)
    (h : d.resolve cwd false p = .ok (place, .dir es))
    (hr : ∀ e, (d.removeTree cwd p).1 = .error e → e = .noEntry) (found : Place × Node) :
    (d.removeTree cwd p).2.resolve cwd follow p ≠ .ok found := by
  have hg : d.get? place = some (.dir es) := lookup_sound (resolve_ok.mp h)
  have wf' : (d.put place (.dir [])).root.WellFormed :=
    (tame_replace hg .empty no_link_in_empty).wellFormed wf
  unfold removeTree at hr ⊢
  rw [h] at hr ⊢
  dsimp only at hr ⊢
  cases hd : (d.put place (.dir [])).rmdir cwd p with
  | error e =>
    rw [hd] at hr
    obtain rfl := hr e rfl
    exact rmdir_noEntry hd found
  | ok d' =>
    obtain ⟨parent, name, slashed, hp, -, rfl⟩ := rmdir_ok hd
    exact not_found_of_erase wf' hp found

/-- Nothing has changed but at the seat of a path and below it. -/
def ClearedAt (d : Disk) (cwd : Place) (p : Path) (d' : Disk) : Prop :=
  ∀ q, (∀ place, d.seat cwd p = some place → ¬ place <+: q) → d'.look q = d.look q

theorem ClearedAt.refl (d : Disk) (cwd : Place) (p : Path) : d.ClearedAt cwd p d := fun _ _ => rfl

theorem clearedAt_of_seat (hs : d.seat cwd p = some place) (h : d.ChangedAt place d') :
    d.ClearedAt cwd p d' := fun q hq => h q (hq place hs)

theorem unlink_clearedAt (h : d.unlink cwd p = .ok d') : d.ClearedAt cwd p d' := by
  obtain ⟨place, hs, rfl⟩ := unlink_seat h
  exact clearedAt_of_seat hs (changedAt_erase d place)

/-- A directory that is emptied opens no way. -/
theorem empty_keepsWays {es : Entries} (h : d.get? place = some (.dir es)) :
    (d.put place (.dir [])).root.KeepsWays d.root := by
  have same (q : Place) : (d.put place (.dir [])).look q = d.look q ∨
      (d.put place (.dir [])).look q = none := by
    by_cases hq : place <+: q
    case neg => exact .inl (look_put hq)
    obtain ⟨rest, rfl⟩ := hq
    rcases List.eq_nil_or_concat place with rfl | ⟨parent, name, rfl⟩
    · rw [put_nil]
      exact .inl rfl
    · rw [List.concat_eq_append] at h ⊢
      obtain ⟨up, hup⟩ := Node.dir_of_get?_append h
      have hbelow : (d.put (parent ++ [name]) (.dir [])).get? (parent ++ [name] ++ rest) =
          (Node.dir []).get? rest := get?_put_below hup rest
      cases rest with
      | nil =>
        rw [List.append_nil] at hbelow ⊢
        exact .inl ((Node.look_of_get? hbelow).trans (Node.look_of_get? h).symm)
      | cons => exact .inr (Node.look_eq_none.mpr hbelow)
  constructor
  · intro q hq
    rcases same q with h | h
    · exact h.symm.trans hq
    · cases h.symm.trans hq
  · intro q target hq
    rcases same q with h | h
    · exact h.symm.trans hq
    · cases h.symm.trans hq

/-- What is found without following the last link is at the seat of the path, unless the path ends in
a slash or in dots. -/
theorem seat_of_resolve (hs : splitLast p.bytes = (parts, .name name false))
    (h : d.resolve cwd false p = .ok (place, node)) : d.seat cwd p = some place := by
  obtain ⟨parent, last, hp⟩ := lookupParent_of_lookup (resolve_ok.mp h)
  obtain ⟨-, -, hl, -⟩ := lookupParent_eq_ok.mp hp
  rw [hs] at hl
  obtain rfl : last = .name name false := hl.symm
  obtain ⟨es, he⟩ := dir_of_lookupParent hp
  obtain ⟨hn, hlen⟩ := properName_of_lookupParent hp
  obtain ⟨left, hleft⟩ := lookup_of_lookupParent hp false
  have hlook := resolve_ok.mp h
  rw [hleft, chase, walk_name he hn hlen] at hlook
  rw [seat_of_lookupParent hp]
  rw [get?_root] at hlook
  cases hg : d.get? (parent ++ [name]) with
  | none =>
    rw [hg] at hlook
    cases hlook
  | some found =>
    rw [hg] at hlook
    cases found <;> cases hlook <;> rfl

theorem removeTree_clearedAt (hs : splitLast p.bytes = (parts, .name name false)) :
    d.ClearedAt cwd p (d.removeTree cwd p).2 := by
  unfold removeTree
  split
  · exact ClearedAt.refl d cwd p
  · exact ClearedAt.refl d cwd p
  · split
    · exact ClearedAt.refl d cwd p
    next h => exact unlink_clearedAt h
  next place es hr =>
    have hg : d.get? place = some (.dir es) := lookup_sound (resolve_ok.mp hr)
    have seated := seat_of_resolve hs hr
    have emptied := changedAt_put d place (.dir [])
    dsimp only
    split
    · exact clearedAt_of_seat seated emptied
    next d' h =>
      obtain ⟨parent, name, slashed, hp, -, rfl⟩ := rmdir_ok h
      have back := seat_of_lookupParent (lookupParent_keeps (empty_keepsWays hg) hp)
      obtain rfl := Option.some.inj (seated.symm.trans back)
      exact clearedAt_of_seat seated (emptied.trans (changedAt_erase _ _))

end LayerPack.Disk
