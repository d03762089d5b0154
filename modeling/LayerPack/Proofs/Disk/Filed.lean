import LayerPack.Proofs.Disk.Unused

/-! A disk with one more file than another one. The file stands where nothing stood before; it can be
removed again, and it can be moved to the place of another file. -/
namespace LayerPack.Disk

variable {d d' e e' : Disk} {cwd parent : Place} {name name' last : Name} {up : List Name}
  {content : ByteArray} {hidden : Path}

/-- The second disk has a new file, and nothing else has changed. -/
structure Filed (d : Disk) (parent : Place) (name : Name) (content : ByteArray) (d' : Disk) :
    Prop where
  free : d.get? (parent ++ [name]) = none
  dir : ∃ es, d.get? parent = some (.dir es)
  changed : d.ChangedAt (parent ++ [name]) d'
  file : ∃ id, d'.get? (parent ++ [name]) = some (.file id newMode content)
  form : d'.root.WellFormed

namespace Filed

theorem grows (h : d.Filed parent name content d') : d.Grows d' := h.changed.grows h.free

theorem still (h : d.Filed parent name content d') {place : Place} {last : Last} {p : Path}
    (hp : d.lookupParent cwd p = .ok (place, last)) : d'.lookupParent cwd p = .ok (place, last) :=
  lookupParent_keeps h.grows.keepsWays hp

/-- Without the file the disk is as it was. -/
theorem erased (h : d.Filed parent name content d') :
    (d'.erase (parent ++ [name])).Alike d := by
  intro q
  by_cases hq : parent ++ [name] <+: q
  · obtain ⟨r, rfl⟩ := hq
    have gone : (d'.erase (parent ++ [name])).get? (parent ++ [name] ++ r) = none :=
      get?_erase_below h.form (by simp) r
    rw [Node.view_of_none gone]
    exact (Node.view_of_none (get?_below_missing h.free r)).symm
  · exact Node.view_of_look ((look_erase hq).trans (h.changed q hq))

theorem form_erased (h : d.Filed parent name content d') :
    (d'.erase (parent ++ [name])).root.WellFormed := by
  obtain ⟨id, hid⟩ := h.file
  exact (tame_erase hid (by simp)).wellFormed h.form

theorem unlink (h : d.Filed parent name content d')
    (hp : d.lookupParent cwd hidden = .ok (parent, .name name false)) :
    d'.unlink cwd hidden = .ok (d'.erase (parent ++ [name])) := by
  obtain ⟨id, hid⟩ := h.file
  exact unlink_file (h.still hp) hid

theorem append (h : d.Filed parent name content d') {id : Nat} {bytes : ByteArray}
    (hid : d'.get? (parent ++ [name]) = some (.file id newMode content)) :
    d.Filed parent name (content ++ bytes) (d'.append ⟨parent ++ [name], id⟩ bytes) := by
  have there : d'.append ⟨parent ++ [name], id⟩ bytes =
      d'.put (parent ++ [name]) (.file id newMode (content ++ bytes)) := by
    simp [Disk.append, hid]
  obtain ⟨es, he⟩ := Node.dir_of_get?_append hid
  have form := (append_tame (d := d') ⟨parent ++ [name], id⟩ bytes).wellFormed h.form
  rw [there] at form ⊢
  exact ⟨h.free, h.dir, h.changed.trans (changedAt_put _ _ _), ⟨id, get?_put_self he⟩, form⟩

/-- The file is moved to another name in its directory, unless a directory has that name. -/
theorem move (h : d.Filed parent name content d') (proper : ProperName last) (hne : name ≠ last) :
    ((∃ es, d.get? (parent ++ [last]) = some (.dir es)) ∧
        d'.move (parent ++ [name]) parent last false = .error .isDirectory) ∨
      (∀ es, d.get? (parent ++ [last]) ≠ some (.dir es)) ∧
        ∃ e, d'.move (parent ++ [name]) parent last false = .ok e ∧
          e.Alike (d.put (parent ++ [last]) (.file 0 newMode content)) ∧ e.root.WellFormed := by
  obtain ⟨id, hid⟩ := h.file
  obtain ⟨es, hes⟩ := h.dir
  have apart := not_prefix_beside hne parent
  have same : d'.look (parent ++ [last]) = d.look (parent ++ [last]) := h.changed _ apart
  have step : d'.move (parent ++ [name]) parent last false =
      (replaceError (.file id newMode content) (d'.get? (parent ++ [last]))).elim
        (.ok ((d'.erase (parent ++ [name])).put (parent ++ [last]) (.file id newMode content)))
        .error := by
    simp only [Disk.move, hid, Node.isDir, Bool.and_false, Bool.false_and, Bool.false_eq_true,
      if_false, List.append_cancel_left_eq, List.cons.injEq, hne, false_and]
    cases replaceError (.file id newMode content) (d'.get? (parent ++ [last])) <;> rfl
  by_cases hd : ∃ es, d.get? (parent ++ [last]) = some (.dir es)
  · obtain ⟨inner, hi⟩ := hd
    obtain ⟨-, inner', hi'⟩ := Node.look_eq_dir.mp (same.trans (Node.look_of_get? hi))
    refine .inl ⟨⟨inner, hi⟩, ?_⟩
    have there : d'.get? (parent ++ [last]) = some (.dir inner') := hi'
    rw [step, there]
    rfl
  · have free : replaceError (.file id newMode content) (d'.get? (parent ++ [last])) = none := by
      cases hl : d'.get? (parent ++ [last]) with
      | none => rfl
      | some node =>
        cases node with
        | file | link => rfl
        | dir inner =>
          obtain ⟨-, inner', hi'⟩ := Node.look_eq_dir.mp (same.symm.trans (Node.look_of_get? hl))
          exact (hd ⟨inner', hi'⟩).elim
    obtain ⟨es', hes'⟩ := h.erased.symm.dir hes
    refine .inr ⟨fun es he => hd ⟨es, he⟩, (d'.erase (parent ++ [name])).put (parent ++ [last])
      (.file id newMode content), ?_, ?_, ?_⟩
    · rw [step, free, Option.elim_none]
    · refine (h.erased.symm.put hes ?_).symm
      intro p
      cases p <;> rfl
    · exact (tame_put hes' proper (.file ..) (no_link_in_file _ _ _)).wellFormed h.form_erased

end Filed

/-- A file is made by a name that is nowhere on the disk. -/
theorem filed_put (wf : d.root.WellFormed) (hp : d.lookupParent cwd hidden = .ok (parent, .name name false))
    (free : d.get? (parent ++ [name]) = none) (id nextId : Nat) :
    d.Filed parent name .empty { d.put (parent ++ [name]) (.file id newMode .empty) with nextId } := by
  obtain ⟨es, he⟩ := dir_of_lookupParent hp
  exact {
    free
    dir := ⟨es, he⟩
    changed := changedAt_put d _ _
    file := ⟨id, get?_put_self he⟩
    form := (tame_put he (properName_of_lookupParent hp).1 (.file ..) (no_link_in_file _ _ _)).wellFormed wf }

theorem openWrite_unused
    (opens : d.lookup cwd true hidden =
      (d.lookupParent cwd hidden).map fun found => .absent found.1 name false) :
    d.openWrite cwd true hidden = (d.lookupParent cwd hidden).map fun found =>
      (⟨found.1 ++ [name], d.nextId⟩, { d.put (found.1 ++ [name]) (.file d.nextId newMode .empty) with
        nextId := d.nextId + 1 }) := by
  unfold openWrite
  rw [opens]
  cases d.lookupParent cwd hidden <;> rfl

theorem lookupParent_absolute {p : Path} (hp : p.isAbsolute) (cwd cwd' : Place) :
    d.lookupParent cwd p = d.lookupParent cwd' p := by
  unfold lookupParent
  rw [startOf_absolute hp, startOf_absolute hp]

theorem resolve_absolute {p : Path} {follow : Bool} (hp : p.isAbsolute) (cwd cwd' : Place) :
    d.resolve cwd follow p = d.resolve cwd' follow p := by
  unfold resolve lookup
  rw [startOf_absolute hp, startOf_absolute hp]

theorem lookupParent_concat (h : ∀ n ∈ up ++ [name], ProperName n) {found : Place × Last}
    (hp : d.lookupParent cwd (.ofNames (up ++ [name])) = .ok found) :
    found = (found.1, .name name false) := by
  obtain ⟨-, -, hl, -⟩ := lookupParent_eq_ok.mp hp
  rw [splitLast_concat h] at hl
  exact Prod.ext rfl hl.symm

/-- The directory of a path is that of every other name beside it. -/
theorem lookupParent_beside (proper : ∀ n ∈ up ++ [last], ProperName n)
    (h : ∀ n ∈ up ++ [name], ProperName n) (h' : ∀ n ∈ up ++ [name'], ProperName n)
    (hp : d.lookupParent cwd (.ofNames (up ++ [name])) = .ok (parent, .name name false))
    (hp' : d'.lookupParent cwd (.ofNames (up ++ [name'])) = .ok (parent, .name name' false)) :
    d.lookupParent cwd (.ofNames (up ++ [last])) = d'.lookupParent cwd (.ofNames (up ++ [last])) ∧
      ∀ found, d.lookupParent cwd (.ofNames (up ++ [last])) = .ok found →
        found = (parent, .name last false) := by
  obtain ⟨-, ⟨es, hw⟩, -⟩ := lookupParent_eq_ok.mp hp
  obtain ⟨-, ⟨es', hw'⟩, -⟩ := lookupParent_eq_ok.mp hp'
  rw [splitLast_concat h, startOf_absolute (Path.isAbsolute_ofNames _)] at hw
  rw [splitLast_concat h', startOf_absolute (Path.isAbsolute_ofNames _)] at hw'
  unfold lookupParent
  rw [splitLast_concat proper, startOf_absolute (Path.isAbsolute_ofNames _)]
  dsimp only
  rw [hw, hw']
  refine ⟨rfl, ?_⟩
  cases checkPath (.ofNames (up ++ [last])) with
  | error e => exact fun _ h => by cases h
  | ok =>
    simp only [bind, Except.bind]
    split
    · exact fun _ h => by cases h
    · rintro _ ⟨⟩
      rfl

end LayerPack.Disk
