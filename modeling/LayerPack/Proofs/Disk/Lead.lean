import LayerPack.Proofs.Disk.Calls

/-! Paths to a file. A path that leads to a certain file, or to the place where a file is missing,
leads there on every disk that still has the directories and links on the way and has a file in that
place. So a path keeps leading to one file through all that adds to a disk or writes to its files. -/
namespace LayerPack

variable {root root' : Node} {follow : Bool} {place dest : Place} {parts : List Bytes} {spot : Spot}
  {id mode : Nat} {content : ByteArray}

/-- The spot is a file at a place, or it is the place itself where nothing is. -/
def Spot.IsFileAt (dest : Place) : Spot → Prop
  | .found place (.file ..) => place = dest
  | .absent parent name slashed => parent ++ [name] = dest ∧ slashed = false
  | .found _ _ => False

namespace Disk

/-- A walk that arrives at a file starts in a directory, or it starts at the file. -/
theorem look_of_arrived (hw : walk root follow place parts = .arrived (.found dest (.file id mode content))) :
    ∃ node, root.look place = some node ∧ ∀ target, node ≠ .link target := by
  cases hp : root.get? place with
  | none => cases parts <;> simp [walk, hp] at hw
  | some node =>
    cases node with
    | link => cases parts <;> simp [walk, hp] at hw
    | file => exact ⟨_, Node.look_eq_file.mpr hp, by simp⟩
    | dir => exact ⟨_, Node.look_of_get? hp, by simp⟩

theorem walk_lands (h : root.KeepsWays root') (hf : root'.get? dest = some (.file id mode content))
    (hw : walk root true place parts = .arrived spot) (hs : spot.IsFileAt dest) :
    walk root' true place parts = .arrived (.found dest (.file id mode content)) := by
  have here : walk root' true dest [] = .arrived (.found dest (.file id mode content)) := by
    rw [walk_nil, hf]
  induction parts generalizing place with
  | nil =>
    rw [walk_nil] at hw
    cases hp : root.get? place with
    | none =>
      rw [hp] at hw
      cases hw
    | some node =>
      rw [hp] at hw
      cases hw
      cases node with
      | file => exact (hs : place = dest) ▸ here
      | link | dir => exact hs.elim
  | cons part rest ih =>
    rcases stride_or_halt root place part with ⟨next, stride⟩ | halts
    · rw [stride.walk_eq] at hw
      obtain ⟨node, there, solid⟩ := look_of_arrived (ih hw)
      rw [(stride.elsewhere (h.dir _ stride.dir) there solid).walk_eq]
      exact ih hw
    · have halt := halts true rest
      rw [hw] at halt
      cases halt with
      | link => exact hs.elim
      | absent looks =>
        obtain ⟨rfl, hslash⟩ := hs
        obtain rfl : rest = [] := by simpa using hslash
        have looks' := looks.elsewhere (h.dir _ looks.dir) (Node.look_eq_file.mpr hf)
        rw [(Stride.down looks' (by simp)).walk_eq]
        exact here

theorem chase_lands (h : root.KeepsWays root') (hf : root'.get? dest = some (.file id mode content))
    {links : Nat} (hc : chase root true links place parts = .ok spot) (hs : spot.IsFileAt dest) :
    chase root' true links place parts = .ok (.found dest (.file id mode content)) := by
  fun_induction chase root true links place parts with
  | case1 links place parts spot' hw =>
    obtain rfl := Except.ok.inj hc
    rw [chase, walk_lands h hf hw hs]
  | case2 => cases hc
  | case3 => cases hc
  | case4 place parts start parts' hw left ih =>
    rw [chase, walk_keeps_jump h hw]
    exact ih hc

variable {d d' d'' : Disk} {cwd : Place} {p : Path} {handle : Handle}

/-- The path leads to the file of this number. -/
def Leads (d : Disk) (cwd : Place) (p : Path) (id : Nat) : Prop :=
  ∃ place mode content, d.resolve cwd true p = .ok (place, .file id mode content)

/-- The directories, the links, and the files are still there; files may have other contents. -/
structure Preserves (d d' : Disk) : Prop where
  ways : d.root.KeepsWays d'.root
  files : ∀ place id mode content, d.get? place = some (.file id mode content) →
    ∃ content', d'.get? place = some (.file id mode content')

theorem Preserves.refl (d : Disk) : d.Preserves d :=
  ⟨.refl _, fun _ _ _ content h => ⟨content, h⟩⟩

/-- Where a way led before, it leads to the file that is there now. -/
theorem lookup_lands (h : d.root.KeepsWays d'.root)
    (hf : d'.get? dest = some (.file id mode content)) (hl : d.lookup cwd true p = .ok spot)
    (hs : spot.IsFileAt dest) : d'.resolve cwd true p = .ok (dest, .file id mode content) := by
  refine resolve_ok.mpr ?_
  unfold lookup at hl ⊢
  cases hc : checkPath p with
  | error e =>
    rw [hc] at hl
    cases hl
  | ok =>
    rw [hc] at hl
    exact chase_lands h hf hl hs

theorem Preserves.leads (h : d.Preserves d') (hl : d.Leads cwd p id) : d'.Leads cwd p id := by
  obtain ⟨place, mode, content, hr⟩ := hl
  have hlook := resolve_ok.mp hr
  obtain ⟨content', hf⟩ := h.files place id mode content (lookup_sound hlook)
  exact ⟨place, mode, content', lookup_lands h.ways hf hlook rfl⟩

/-- A path leads to one file. -/
theorem Leads.unique {id' : Nat} (h : d.Leads cwd p id) (h' : d.Leads cwd p id') : id = id' := by
  obtain ⟨place, mode, content, hr⟩ := h
  obtain ⟨place', mode', content', hr'⟩ := h'
  cases hr.symm.trans hr'
  rfl

/-- An absolute path leads to the same from everywhere. -/
theorem leads_absolute (hp : p.isAbsolute) (cwd' : Place) : d.Leads cwd p id ↔ d.Leads cwd' p id := by
  have same : d.resolve cwd true p = d.resolve cwd' true p := by
    rw [resolve, lookup, startOf_absolute hp, resolve, lookup, startOf_absolute hp]
  rw [Leads, Leads, same]

theorem Grows.preserves (h : d.Grows d') : d.Preserves d' :=
  ⟨h.keepsWays, fun _ _ _ content hf => ⟨content, h.file hf⟩⟩

/-- Writing to a file changes nothing but its content. -/
theorem rewrite_preserves {content' : ByteArray}
    (hg : d.get? place = some (.file id mode content)) :
    d.Preserves (d.put place (.file id mode content')) := by
  refine ⟨(changedAt_put d place _).keepsWays (noWay_of_file hg), fun q id' mode' old hf => ?_⟩
  by_cases hq : place <+: q
  case neg =>
    exact ⟨old, Node.look_eq_file.mp ((look_put hq).trans (Node.look_eq_file.mpr hf))⟩
  obtain ⟨rest, rfl⟩ := hq
  cases rest with
  | cons name rest =>
    have below : d.get? (place ++ name :: rest) = none := get?_below_none (by simp [hg]) rest
    cases below.symm.trans hf
  | nil =>
    rw [List.append_nil] at hf ⊢
    cases hg.symm.trans hf
    rcases List.eq_nil_or_concat place with rfl | ⟨parent, name, rfl⟩
    · refine ⟨content, ?_⟩
      have : d.root = .file id mode content := by simpa [get?, Node.get?] using hg
      simp [put, get?, this, Node.alter, Node.get?]
    · rw [List.concat_eq_append] at hg ⊢
      obtain ⟨es, he⟩ := Node.dir_of_get?_append hg
      exact ⟨content', get?_put_self he⟩

theorem append_preserves (handle : Handle) (bytes : ByteArray) :
    d.Preserves (d.append handle bytes) := by
  unfold append
  split
  next id mode content hg =>
    split
    · exact rewrite_preserves hg
    · exact .refl d
  · exact .refl d

/-- A file that is made is new where nothing was. -/
theorem made_grows {parent : Place} {name : Name} {node : Node} {nextId : Nat}
    (hn : d.get? (parent ++ [name]) = none) :
    d.Grows { d.put (parent ++ [name]) node with nextId } :=
  (changedAt_put d (parent ++ [name]) node).grows hn

theorem openWrite_preserves {truncate : Bool}
    (h : d.openWrite cwd truncate p = .ok (handle, d')) : d.Preserves d' := by
  rcases openWrite_ok h with ⟨id, mode, content, hl, -, rfl⟩ | ⟨parent, name, hl, -, rfl⟩
  · split
    · exact rewrite_preserves (lookup_sound hl)
    · exact .refl d
  · obtain ⟨-, hn, -⟩ := lookup_sound hl
    exact (made_grows hn).preserves

/-- A file that is opened for writing is the one that the path leads to from then on. -/
theorem openWrite_leads (h : d.openWrite cwd false p = .ok (handle, d')) :
    d'.Leads cwd p handle.id := by
  rcases openWrite_ok h with ⟨id, mode, content, hl, rfl, rfl⟩ | ⟨parent, name, hl, rfl, rfl⟩
  · exact ⟨handle.place, mode, content, resolve_ok.mpr hl⟩
  · obtain ⟨⟨es, he⟩, hn, -⟩ := lookup_sound hl
    have there : ({ d.put (parent ++ [name]) (.file d.nextId newMode .empty) with
        nextId := d.nextId + 1 } : Disk).get? (parent ++ [name]) =
          some (.file d.nextId newMode .empty) := get?_put_self he
    exact ⟨parent ++ [name], newMode, .empty,
      lookup_lands (made_grows hn).keepsWays there hl ⟨rfl, rfl⟩⟩

/-! A path to the place that it spells. -/

theorem componentsOf_partsOf (b : Bytes) :
    Path.componentsOf (partsOf b) = Path.componentsOf (splitSlash b) := by
  obtain ⟨front, last, hl⟩ : ∃ front last, splitSlash b = front ++ [last] :=
    ⟨_, _, (List.dropLast_concat_getLast (splitSlash_ne_nil b)).symm⟩
  rw [partsOf, hl, List.dropLast_concat, List.getLast?_concat, Path.componentsOf_append,
    Path.componentsOf_append, Path.componentsOf_filter]
  rfl

/-- A walk straight to a file depends on nothing but what it passes. -/
theorem walk_straight {names : List Name}
    (hparts : Path.componentsOf parts = names.map .normal)
    (same : ∀ up, up <+: names → root'.look (place ++ up) = root.look (place ++ up))
    (hw : walk root true place parts = .arrived (.found (place ++ names) (.file id mode content))) :
    walk root' true place parts = .arrived (.found (place ++ names) (.file id mode content)) := by
  have first : root'.look place = root.look place := by simpa using same [] List.nil_prefix
  induction parts generalizing place names with
  | nil =>
    obtain rfl : names = [] := by simpa using hparts.symm
    rw [walk_nil, List.append_nil] at hw
    rw [walk_nil, List.append_nil]
    cases hp : root.get? place with
    | none =>
      rw [hp] at hw
      cases hw
    | some node =>
      rw [hp] at hw
      cases hw
      rw [Node.look_eq_file.mp (first.trans (Node.look_eq_file.mpr hp))]
  | cons part rest ih =>
    rcases stride_or_halt root place part with ⟨next, stride⟩ | halts
    · obtain ⟨down, more, rfl, rfl, hrest⟩ := stride.spells hparts
      have below (up : List Name) (hu : up <+: more) :
          root'.look (place ++ down ++ up) = root.look (place ++ down ++ up) := by
        rw [List.append_assoc]
        exact same _ ((List.prefix_append_right_inj down).mpr hu)
      have next : root'.look (place ++ down) = root.look (place ++ down) := by
        simpa using below [] List.nil_prefix
      rw [stride.walk_eq, ← List.append_assoc] at hw
      have arrived := ih hrest below hw next
      obtain ⟨node, there, solid⟩ := look_of_arrived arrived
      rw [(stride.elsewhere (first.trans stride.dir) there solid).walk_eq, ← List.append_assoc]
      exact arrived
    · have halt := halts true rest
      rw [hw] at halt
      generalize place ++ names = dest at halt
      cases halt

/-- A path without links leads straight to the file at the place that it spells. -/
theorem Leads.arrives {names : List Name} (hp : p.Spells names) (h : d.Leads cwd p id)
    (noLink : ∀ up target, up <+: names → d.get? up ≠ some (.link target)) :
    ∃ mode content, checkPath p = .ok () ∧ d.get? names = some (.file id mode content) ∧
      walk d.root true [] (partsOf p.bytes) = .arrived (.found names (.file id mode content)) := by
  obtain ⟨place, mode, content, hr⟩ := h
  have hlook := resolve_ok.mp hr
  have hw : (walk d.root true [] (partsOf p.bytes)).At d.root ([] ++ names) :=
    walk_spelled ((componentsOf_partsOf _).trans hp.parts) fun up target hu ht =>
      (noLink up target hu ht).elim
  unfold lookup at hlook
  rw [startOf_absolute hp.absolute] at hlook
  cases hc : checkPath p with
  | error e =>
    rw [hc] at hlook
    cases hlook
  | ok =>
    rw [hc] at hlook
    have arrived := arrived_of_chase hw hlook
    rw [arrived] at hw
    obtain ⟨rfl, there⟩ := hw
    exact ⟨mode, content, rfl, there, arrived⟩

/-- It still does if nothing has changed at that place or above. -/
theorem Leads.straight {names : List Name} (hp : p.Spells names) (h : d.Leads cwd p id)
    (noLink : ∀ up target, up <+: names → d.get? up ≠ some (.link target))
    (same : ∀ up, up <+: names → d'.look up = d.look up) : d'.Leads cwd p id := by
  obtain ⟨mode, content, hc, -, arrived⟩ := h.arrives hp noLink
  have still : walk d'.root true [] (partsOf p.bytes) =
      .arrived (.found ([] ++ names) (.file id mode content)) :=
    walk_straight ((componentsOf_partsOf _).trans hp.parts) same arrived
  refine ⟨names, mode, content, resolve_ok.mpr ?_⟩
  unfold lookup
  rw [startOf_absolute hp.absolute, hc]
  change chase _ _ _ _ _ = _
  rw [chase, still]
  rfl

end Disk

end LayerPack
