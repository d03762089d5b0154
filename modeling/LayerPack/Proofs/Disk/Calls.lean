import LayerPack.Proofs.Disk.Spelled

/-! What a successful operation on a disk has done: the place that it changed, what stood there, and
the disk that it left. No operation but a move brings a link anywhere, every one leaves a
well-formed disk well formed, and away from its place nothing is seen of it. -/
namespace LayerPack.Disk

variable {d d' : Disk} {cwd : Place} {p src dst : Path}

theorem mkdir_ok (h : d.mkdir cwd p = .ok d') :
    ∃ parent name slashed, d.lookupParent cwd p = .ok (parent, .name name slashed) ∧
      d.get? (parent ++ [name]) = none ∧ d' = d.put (parent ++ [name]) (.dir []) := by
  unfold mkdir at h
  rcases hp : d.lookupParent cwd p with e | ⟨parent, last⟩
  · simp [hp, bind, Except.bind] at h
  rw [hp] at h
  cases last with
  | dot | dotdot | root => cases h
  | name name slashed =>
    rcases hg : d.get? (parent ++ [name]) with _ | node
    · simp only [bind, Except.bind, hg] at h
      cases h
      exact ⟨parent, name, slashed, rfl, hg, rfl⟩
    · simp [bind, Except.bind, hg, throw, throwThe, MonadExceptOf.throw] at h

theorem unlink_ok (h : d.unlink cwd p = .ok d') :
    ∃ parent name node, d.lookupParent cwd p = .ok (parent, .name name false) ∧
      d.get? (parent ++ [name]) = some node ∧ node.isDir = false ∧
      d' = d.erase (parent ++ [name]) := by
  unfold unlink at h
  rcases hp : d.lookupParent cwd p with e | ⟨parent, last⟩
  · simp [hp, bind, Except.bind] at h
  rw [hp] at h
  cases last with
  | dot | dotdot | root => cases h
  | name name slashed =>
    rcases hg : d.get? (parent ++ [name]) with _ | node
    · simp [bind, Except.bind, hg, throw, throwThe, MonadExceptOf.throw] at h
    · cases node with
      | dir => simp [bind, Except.bind, hg, throw, throwThe, MonadExceptOf.throw] at h
      | file | link =>
        cases slashed with
        | true => simp [bind, Except.bind, hg, throw, throwThe, MonadExceptOf.throw] at h
        | false =>
          simp only [bind, Except.bind, hg] at h
          cases h
          exact ⟨parent, name, _, rfl, hg, rfl, rfl⟩

/-- A file that a path names is removed. -/
theorem unlink_file {parent : Place} {name : Name} {id mode : Nat} {content : ByteArray}
    (hp : d.lookupParent cwd p = .ok (parent, .name name false))
    (hg : d.get? (parent ++ [name]) = some (.file id mode content)) :
    d.unlink cwd p = .ok (d.erase (parent ++ [name])) := by
  unfold unlink
  rw [hp]
  simp only [bind, Except.bind, hg]
  rfl

theorem rmdir_ok (h : d.rmdir cwd p = .ok d') :
    ∃ parent name slashed, d.lookupParent cwd p = .ok (parent, .name name slashed) ∧
      d.get? (parent ++ [name]) = some (.dir []) ∧ d' = d.erase (parent ++ [name]) := by
  unfold rmdir at h
  rcases hp : d.lookupParent cwd p with e | ⟨parent, last⟩
  · simp [hp, bind, Except.bind] at h
  rw [hp] at h
  cases last with
  | dot | dotdot | root => cases h
  | name name slashed =>
    rcases hg : d.get? (parent ++ [name]) with _ | node
    · simp [bind, Except.bind, hg, throw, throwThe, MonadExceptOf.throw] at h
    · cases node with
      | file | link => simp [bind, Except.bind, hg, throw, throwThe, MonadExceptOf.throw] at h
      | dir es =>
        cases es with
        | cons => simp [bind, Except.bind, hg, throw, throwThe, MonadExceptOf.throw] at h
        | nil =>
          simp only [bind, Except.bind, hg] at h
          cases h
          exact ⟨parent, name, slashed, rfl, hg, rfl⟩

/-- What is moved stands at another place afterwards. -/
theorem move_ok {place dir : Place} {name : Name} {slashed : Bool}
    (h : d.move place dir name slashed = .ok d') :
    ∃ node, d.get? place = some node ∧ (node.isDir = false → slashed = false) ∧
      (d' = d ∧ place = dir ++ [name] ∨
        d' = (d.erase place).put (dir ++ [name]) node ∧ place ≠ dir ++ [name] ∧
          (node.isDir = false → ∀ es, d.get? (dir ++ [name]) ≠ some (.dir es))) := by
  unfold move at h
  cases hg : d.get? place with
  | none => simp [hg] at h
  | some node =>
    rw [hg] at h
    dsimp only at h
    refine ⟨node, rfl, ?_⟩
    split at h
    · cases h
    next hs =>
      refine ⟨fun hd => by simpa [hd] using hs, ?_⟩
      split at h
      · cases h
      split at h
      next he =>
        cases h
        exact .inl ⟨rfl, he⟩
      next he =>
        split at h
        · cases h
        next hr =>
          cases h
          refine .inr ⟨rfl, he, fun hd es hes => ?_⟩
          simp [hes, replaceError, hd] at hr

theorem rename_ok (h : d.rename cwd src dst = .ok d') :
    ∃ srcDir srcName srcSlash dstDir dstName dstSlash,
      d.lookupParent cwd src = .ok (srcDir, .name srcName srcSlash) ∧
      d.lookupParent cwd dst = .ok (dstDir, .name dstName dstSlash) ∧
      d.move (srcDir ++ [srcName]) dstDir dstName (srcSlash || dstSlash) = .ok d' := by
  unfold rename at h
  rcases hs : d.lookupParent cwd src with e | ⟨srcDir, srcLast⟩
  · simp [hs, bind, Except.bind] at h
  rcases ht : d.lookupParent cwd dst with e | ⟨dstDir, dstLast⟩
  · simp [hs, ht, bind, Except.bind] at h
  rw [hs, ht] at h
  cases srcLast with
  | dot | dotdot | root => cases h
  | name srcName srcSlash =>
    cases dstLast with
    | dot | dotdot | root => cases h
    | name dstName dstSlash =>
      exact ⟨srcDir, srcName, srcSlash, dstDir, dstName, dstSlash, rfl, rfl, h⟩

/-- A file that is opened for writing was there, or it is new where nothing stood. -/
theorem openWrite_ok {truncate : Bool} {handle : Handle}
    (h : d.openWrite cwd truncate p = .ok (handle, d')) :
    (∃ id mode content, d.lookup cwd true p = .ok (.found handle.place (.file id mode content)) ∧
      handle.id = id ∧ d' = if truncate then d.put handle.place (.file id mode .empty) else d) ∨
    ∃ parent name, d.lookup cwd true p = .ok (.absent parent name false) ∧
      handle = ⟨parent ++ [name], d.nextId⟩ ∧
      d' = { d.put (parent ++ [name]) (.file d.nextId newMode .empty) with
        nextId := d.nextId + 1 } := by
  unfold openWrite at h
  rcases hl : d.lookup cwd true p with e | spot
  · simp [hl, bind, Except.bind] at h
  rw [hl] at h
  cases spot with
  | found place node =>
    cases node with
    | dir | link => cases h
    | file id mode content =>
      cases h
      exact .inl ⟨id, mode, content, rfl, rfl, rfl⟩
  | absent parent name slashed =>
    cases slashed with
    | true => cases h
    | false =>
      cases h
      exact .inr ⟨parent, name, rfl, rfl, rfl⟩

theorem kind?_eq_dir {follow : Bool} : d.kind? cwd follow p = some .dir ↔
    ∃ place es, d.resolve cwd follow p = .ok (place, .dir es) := by
  unfold kind?
  rcases d.resolve cwd follow p with e | ⟨place, node⟩
  · simp [Except.toOption]
  · cases node <;> simp [Except.toOption, Node.kind]

theorem stat_ok {follow : Bool} {status : Stat} (h : d.stat cwd follow p = .ok status) :
    ∃ place node, d.resolve cwd follow p = .ok (place, node) ∧ node.stat = status := by
  unfold stat at h
  rcases hr : d.resolve cwd follow p with e | ⟨place, node⟩
  · simp [hr, bind, Except.bind] at h
  · rw [hr] at h
    cases h
    exact ⟨place, node, rfl, rfl⟩

theorem snapshot_ok {node : Node} (h : d.snapshot cwd p = .ok node) :
    ∃ place, d.resolve cwd true p = .ok (place, node) := by
  unfold snapshot at h
  rcases hr : d.resolve cwd true p with e | ⟨place, node'⟩
  · simp [hr, bind, Except.bind] at h
  · rw [hr] at h
    cases h
    exact ⟨place, rfl⟩

/-- A path leads to a file. -/
def FileAt (d : Disk) (cwd : Place) (p : Path) (mode : Nat) (content : ByteArray) : Prop :=
  ∃ place id, d.resolve cwd true p = .ok (place, .file id mode content)

theorem fileAt_of_openRead {content : ByteArray} (h : d.openRead cwd p = .ok (.data content)) :
    ∃ mode, d.FileAt cwd p mode content := by
  unfold openRead at h
  rcases hr : d.resolve cwd true p with e | ⟨place, node⟩
  · simp [hr, bind, Except.bind] at h
  rw [hr] at h
  cases node with
  | dir | link => cases h
  | file id mode content' =>
    cases h
    exact ⟨mode, place, id, hr⟩

theorem stat_of_fileAt {mode : Nat} {content : ByteArray} (h : d.FileAt cwd p mode content) :
    d.stat cwd true p = .ok ⟨.file, mode, content.size⟩ := by
  obtain ⟨place, id, hr⟩ := h
  rw [stat, hr]
  rfl

/-- Away from a place and what lies below it, the two disks look the same. -/
def ChangedAt (place : Place) (d d' : Disk) : Prop :=
  ∀ q, ¬ place <+: q → d'.look q = d.look q

/-- Every link of the second disk was on the first one. -/
def NoNewLink (d d' : Disk) : Prop :=
  ∀ q target, d'.get? q = some (.link target) → d.get? q = some (.link target)

variable {d'' : Disk} {place q parent : Place} {name : Name} {node : Node}

theorem NoNewLink.refl (d : Disk) : d.NoNewLink d := fun _ _ h => h

theorem NoNewLink.trans (h : d.NoNewLink d') (h' : d'.NoNewLink d'') : d.NoNewLink d'' :=
  fun q target hq => h q target (h' q target hq)

theorem NoNewLink.noLinkAbove (h : d.NoNewLink d') {names : List Name}
    (hl : d.root.NoLinkAbove names) : d'.root.NoLinkAbove names :=
  fun up target hu hne ht => hl up target hu hne (h up target ht)

theorem changedAt_put (d : Disk) (place : Place) (node : Node) :
    d.ChangedAt place (d.put place node) := fun _ => look_put

theorem changedAt_erase (d : Disk) (place : Place) : d.ChangedAt place (d.erase place) :=
  fun _ => look_erase

theorem ChangedAt.trans (h : d.ChangedAt place d') (h' : d'.ChangedAt place d'') :
    d.ChangedAt place d'' := fun q hq => (h' q hq).trans (h q hq)

/-- Where neither a directory nor a link stands, nothing leads through. -/
structure NoWay (d : Disk) (place : Place) : Prop where
  dir : ∀ es, d.get? place ≠ some (.dir es)
  link : ∀ target, d.get? place ≠ some (.link target)

theorem noWay_of_none (h : d.get? place = none) : d.NoWay place := by
  constructor <;> simp [h]

theorem noWay_of_file {id mode : Nat} {content : ByteArray}
    (h : d.get? place = some (.file id mode content)) : d.NoWay place := by
  constructor <;> simp [h]

/-- Nothing stands below a place where no directory stands. -/
theorem get?_below_none (h : ∀ es, d.get? place ≠ some (.dir es)) (rest : List Name) :
    d.get? (place ++ name :: rest) = none := by
  refine Option.eq_none_iff_forall_ne_some.mpr fun node hn => ?_
  obtain ⟨es, he⟩ := Node.dir_of_get?_append hn
  exact h es he

/-- Above something there are directories only. -/
theorem not_prefix_of_noDir (hq : d.get? q = some node) (h : ∀ es, d.get? place ≠ some (.dir es))
    (hne : place ≠ q) : ¬ place <+: q := by
  rintro ⟨rest, rfl⟩
  cases rest with
  | nil => exact hne (List.append_nil place).symm
  | cons name rest =>
    obtain ⟨es, he⟩ := Node.dir_of_get?_append hq
    exact h es he

theorem get?_below_missing (h : d.get? place = none) (rest : List Name) :
    d.get? (place ++ rest) = none := by
  cases rest with
  | nil => rwa [List.append_nil]
  | cons name rest => exact get?_below_none (by simp [h]) rest

theorem NoWay.below (h : d.NoWay place) (hq : place <+: q) : d.NoWay q := by
  obtain ⟨rest, rfl⟩ := hq
  cases rest with
  | nil => rwa [List.append_nil]
  | cons name rest => exact noWay_of_none (get?_below_none h.dir rest)

/-- A change where nothing leads through keeps all ways. -/
theorem ChangedAt.keepsWays (h : d.ChangedAt place d') (hn : d.NoWay place) :
    d.root.KeepsWays d'.root := by
  constructor
  · intro q hq
    have hp : ¬ place <+: q := fun hp => by
      obtain ⟨-, es, he⟩ := Node.look_eq_dir.mp hq
      exact (hn.below hp).dir es he
    exact (h q hp).trans hq
  · intro q target hq
    have hp : ¬ place <+: q := fun hp => (hn.below hp).link target (Node.look_eq_link.mp hq)
    exact (h q hp).trans hq

theorem ChangedAt.noNewLink (h : d.ChangedAt place d')
    (hn : ∀ rest target, d'.get? (place ++ rest) ≠ some (.link target)) : d.NoNewLink d' := by
  intro q target hq
  by_cases hp : place <+: q
  · obtain ⟨rest, rfl⟩ := hp
    exact (hn rest target hq).elim
  · exact Node.look_eq_link.mp ((h q hp).symm.trans (Node.look_eq_link.mpr hq))

theorem noNewLink_put {es : Entries} (hd : d.get? parent = some (.dir es))
    (hn : ∀ rest target, node.get? rest ≠ some (.link target)) :
    d.NoNewLink (d.put (parent ++ [name]) node) :=
  (changedAt_put d _ node).noNewLink fun rest target => by
    rw [get?_put_below hd]
    exact hn rest target

theorem noNewLink_erase (wf : d.root.WellFormed) (h : place ≠ []) :
    d.NoNewLink (d.erase place) :=
  (changedAt_erase d place).noNewLink fun rest target => by
    simp [get?_erase_below wf h]

theorem no_link_in_empty (rest : List Name) (target : Bytes) :
    (Node.dir []).get? rest ≠ some (.link target) := by
  cases rest <;> simp [Node.get?, Entries.find?]

theorem no_link_in_file (id mode : Nat) (content : ByteArray) (rest : List Name) (target : Bytes) :
    (Node.file id mode content).get? rest ≠ some (.link target) := by
  cases rest <;> simp [Node.get?]

/-- A change of a well-formed disk that leaves it well formed and brings no link. -/
structure Tame (d d' : Disk) : Prop where
  wellFormed : d.root.WellFormed → d'.root.WellFormed
  noNewLink : d.root.WellFormed → d.NoNewLink d'

theorem Tame.refl (d : Disk) : d.Tame d := ⟨id, fun _ => .refl d⟩

theorem Tame.trans (h : d.Tame d') (h' : d'.Tame d'') : d.Tame d'' :=
  ⟨fun wf => h'.wellFormed (h.wellFormed wf),
    fun wf => (h.noNewLink wf).trans (h'.noNewLink (h.wellFormed wf))⟩

/-- A part without links is put into a directory. -/
theorem tame_put {es : Entries} (hd : d.get? parent = some (.dir es)) (hn : ProperName name)
    (wf : node.WellFormed) (hl : ∀ rest target, node.get? rest ≠ some (.link target)) :
    d.Tame (d.put (parent ++ [name]) node) := by
  refine ⟨fun wfd => wellFormed_put wfd (fun n hn' => ?_) wf, fun _ => noNewLink_put hd hl⟩
  rcases List.mem_append.mp hn' with hn' | hn'
  · exact wfd.properName hd n hn'
  · exact List.mem_singleton.mp hn' ▸ hn

/-- A part without links takes the place of what is there. -/
theorem tame_replace {old : Node} (ho : d.get? place = some old) (wf : node.WellFormed)
    (hl : ∀ rest target, node.get? rest ≠ some (.link target)) : d.Tame (d.put place node) := by
  rcases List.eq_nil_or_concat place with rfl | ⟨parent, name, rfl⟩
  · rw [put_nil]
    exact .refl d
  · rw [List.concat_eq_append] at ho ⊢
    obtain ⟨es, he⟩ := Node.dir_of_get?_append ho
    refine ⟨fun wfd => wellFormed_put wfd (fun n hn => ?_) wf, fun _ => noNewLink_put he hl⟩
    exact wfd.properName ho n hn

theorem tame_erase (ho : d.get? place = some node) (hne : place ≠ []) : d.Tame (d.erase place) :=
  ⟨fun wfd => wellFormed_erase wfd (wfd.properName ho), fun wfd => noNewLink_erase wfd hne⟩

theorem mkdir_tame (h : d.mkdir cwd p = .ok d') : d.Tame d' := by
  obtain ⟨parent, name, slashed, hp, -, rfl⟩ := mkdir_ok h
  obtain ⟨es, he⟩ := dir_of_lookupParent hp
  exact tame_put he (properName_of_lookupParent hp).1 .empty no_link_in_empty

theorem unlink_tame (h : d.unlink cwd p = .ok d') : d.Tame d' := by
  obtain ⟨parent, name, node, -, hg, -, rfl⟩ := unlink_ok h
  exact tame_erase hg (by simp)

theorem rmdir_tame (h : d.rmdir cwd p = .ok d') : d.Tame d' := by
  obtain ⟨parent, name, slashed, -, hg, rfl⟩ := rmdir_ok h
  exact tame_erase hg (by simp)

theorem openWrite_tame {truncate : Bool} {handle : Handle}
    (h : d.openWrite cwd truncate p = .ok (handle, d')) : d.Tame d' := by
  rcases openWrite_ok h with ⟨id, mode, content, hl, -, rfl⟩ | ⟨parent, name, hl, -, rfl⟩
  · have hg : d.get? handle.place = some (.file id mode content) := lookup_sound hl
    split
    · exact tame_replace hg (.file ..) (no_link_in_file _ _ _)
    · exact .refl d
  · obtain ⟨⟨es, he⟩, -, hn⟩ := lookup_sound hl
    have made : d.Tame (d.put (parent ++ [name]) (.file d.nextId newMode .empty)) :=
      tame_put he hn (.file ..) (no_link_in_file _ _ _)
    exact ⟨made.wellFormed, made.noNewLink⟩

theorem append_tame (handle : Handle) (bytes : ByteArray) : d.Tame (d.append handle bytes) := by
  unfold append
  split
  next id mode content hg =>
    split
    · exact tame_replace hg (.file ..) (no_link_in_file _ _ _)
    · exact .refl d
  · exact .refl d

theorem removeTree_tame : d.Tame (d.removeTree cwd p).2 := by
  unfold removeTree
  split
  · exact .refl d
  · exact .refl d
  · split
    · exact .refl d
    next h => exact unlink_tame h
  next place es hr =>
    have hg : d.get? place = some (.dir es) := lookup_sound (resolve_ok.mp hr)
    have emptied : d.Tame (d.put place (.dir [])) := tame_replace hg .empty no_link_in_empty
    dsimp only
    split
    · exact emptied
    next h => exact emptied.trans (rmdir_tame h)

/-- A file was moved. It stands at the place that the other path led to, and on the ways that a
file in that place leaves open nothing has changed. -/
structure Moved (d : Disk) (cwd : Place) (src : Place) (dst : Path) (file : Node) (dir : Place)
    (name : Name) (d' : Disk) : Prop where
  way : d.lookupParent cwd dst = .ok (dir, .name name false)
  there : d'.get? (dir ++ [name]) = some file
  ways : (d.put (dir ++ [name]) file).root.KeepsWays d'.root
  aside : ∀ q, ¬ src <+: q → ¬ dir ++ [name] <+: q → d'.look q = d.look q
  tame : d.Tame d'

theorem rename_file {id mode : Nat} {content : ByteArray}
    (hp : d.lookupParent cwd src = .ok (parent, .name name false))
    (hg : d.get? (parent ++ [name]) = some (.file id mode content))
    (h : d.rename cwd src dst = .ok d') :
    ∃ dir dstName, d.Moved cwd (parent ++ [name]) dst (.file id mode content) dir dstName d' := by
  obtain ⟨_, _, _, dir, dstName, slashed, hp', hdst, hmove⟩ := rename_ok h
  cases hp.symm.trans hp'
  obtain ⟨node, hnode, hslash, hcases⟩ := move_ok hmove
  cases hg.symm.trans hnode
  obtain rfl : slashed = false := by simpa using hslash rfl
  obtain ⟨es, hes⟩ := dir_of_lookupParent hdst
  have put : (d.put (dir ++ [dstName]) (.file id mode content)).get? (dir ++ [dstName]) =
      some (.file id mode content) := get?_put_self hes
  refine ⟨dir, dstName, ?_⟩
  rcases hcases with ⟨rfl, he⟩ | ⟨rfl, hne, hdir⟩
  · have back : (d'.put (dir ++ [dstName]) (.file id mode content)).ChangedAt (dir ++ [dstName]) d' :=
      fun q hq => (look_put hq).symm
    exact ⟨hdst, he ▸ hg, back.keepsWays (noWay_of_file put), fun _ _ _ => rfl, .refl _⟩
  have erase := changedAt_erase d (parent ++ [name])
  obtain ⟨-, es', hes'⟩ := Node.look_eq_dir.mp
    ((erase.keepsWays (noWay_of_file hg)).dir dir (Node.look_of_get? hes))
  have there : ((d.erase (parent ++ [name])).put (dir ++ [dstName]) (.file id mode content)).get?
      (dir ++ [dstName]) = some (.file id mode content) := get?_put_self hes'
  refine ⟨hdst, there, ?_, fun q hs hd => (look_put hd).trans (look_erase hs), ?_⟩
  · -- the place is no directory, so what was moved did not stand below it
    have apart : ¬ dir ++ [dstName] <+: parent ++ [name] :=
      not_prefix_of_noDir hg (hdir rfl) (Ne.symm hne)
    have still : (d.put (dir ++ [dstName]) (.file id mode content)).get? (parent ++ [name]) =
        some (.file id mode content) :=
      Node.look_eq_file.mp ((look_put apart).trans (Node.look_eq_file.mpr hg))
    refine ChangedAt.keepsWays (fun q (hq : ¬ parent ++ [name] <+: q) => ?_) (noWay_of_file still)
    by_cases hb : dir ++ [dstName] <+: q
    · obtain ⟨rest, rfl⟩ := hb
      exact congrArg (Option.map _)
        ((get?_put_below hes' rest).trans (get?_put_below hes rest).symm)
    · exact (look_put hb).trans ((look_erase hq).trans (look_put hb).symm)
  · refine (tame_erase hg (by simp)).trans (tame_put hes' ?_ (.file ..) (no_link_in_file _ _ _))
    exact (properName_of_lookupParent hdst).1

/-- With a file put in the place of a path, the path still leads there. Only a link in that place
which the path goes through can prevent it. -/
def StandsApart (d : Disk) (cwd : Place) (p : Path) : Prop :=
  ∀ dir name, d.lookupParent cwd p = .ok (dir, .name name false) → ∀ id mode content,
    (d.put (dir ++ [name]) (.file id mode content)).lookupParent cwd p = .ok (dir, .name name false)

theorem standsApart_of_noWay
    (h : ∀ dir name, d.lookupParent cwd p = .ok (dir, .name name false) → d.NoWay (dir ++ [name])) :
    d.StandsApart cwd p := fun dir name hp id mode content =>
  lookupParent_keeps ((changedAt_put d _ (.file id mode content)).keepsWays (h dir name hp)) hp

/-- What was moved is found by the path that it was moved to. -/
theorem Moved.resolve {id mode : Nat} {content : ByteArray} {dir : Place} {name : Name}
    {place : Place} (h : d.Moved cwd place dst (.file id mode content) dir name d') (apart : d.StandsApart cwd dst) :
    d'.resolve cwd false dst = .ok (dir ++ [name], .file id mode content) :=
  resolve_file (lookupParent_keeps h.ways (apart dir name h.way id mode content)) h.there false

/-- A new directory is seen where nothing was, and nothing else changes. -/
theorem look_mkdir (h : d.mkdir cwd p = .ok d') (q : Place) :
    d'.look q = d.look q ∨ d.get? q = none ∧ d'.look q = some (.dir []) := by
  obtain ⟨parent, name, slashed, hp, hg, rfl⟩ := mkdir_ok h
  obtain ⟨es, he⟩ := dir_of_lookupParent hp
  by_cases hq : parent ++ [name] <+: q
  · obtain ⟨rest, rfl⟩ := hq
    have hbelow : (d.put (parent ++ [name]) (.dir [])).get? (parent ++ [name] ++ rest) =
        (Node.dir []).get? rest := get?_put_below he rest
    cases rest with
    | nil =>
      rw [List.append_nil] at hbelow ⊢
      exact .inr ⟨hg, Node.look_of_get? hbelow⟩
    | cons n rest =>
      have hnone := get?_below_missing hg (n :: rest)
      refine .inl ?_
      rw [look, look, Node.look_eq_none.mpr hnone, Node.look_eq_none.mpr hbelow]
  · exact .inl (look_put hq)

/-- Nothing that was there has changed; something may have been added. -/
def Grows (d d' : Disk) : Prop := ∀ q, d.get? q ≠ none → d'.look q = d.look q

theorem Grows.refl (d : Disk) : d.Grows d := fun _ _ => rfl

theorem Grows.trans (h : d.Grows d') (h' : d'.Grows d'') : d.Grows d'' := fun q hq => by
  have hq' : d'.get? q ≠ none := fun hn => by
    have : d.look q = none := (h q hq).symm.trans (Node.look_eq_none.mpr hn)
    exact hq (Node.look_eq_none.mp this)
  exact (h' q hq').trans (h q hq)

theorem Grows.keepsWays (h : d.Grows d') : d.root.KeepsWays d'.root := by
  constructor
  · intro q hq
    exact (h q fun hn => by simp [Node.look_eq_none.mpr hn] at hq).trans hq
  · intro q target hq
    exact (h q fun hn => by simp [Node.look_eq_none.mpr hn] at hq).trans hq

theorem Grows.file {id mode : Nat} {content : ByteArray} (h : d.Grows d')
    (hq : d.get? q = some (.file id mode content)) : d'.get? q = some (.file id mode content) :=
  Node.look_eq_file.mp ((h q (by simp [hq])).trans (Node.look_eq_file.mpr hq))

/-- What changes where nothing stood only adds something. -/
theorem ChangedAt.grows (h : d.ChangedAt place d') (hn : d.get? place = none) : d.Grows d' := by
  refine fun q hq => h q ?_
  rintro ⟨rest, rfl⟩
  exact hq (get?_below_missing hn rest)

theorem mkdir_grows (h : d.mkdir cwd p = .ok d') : d.Grows d' := by
  intro q hq
  rcases look_mkdir h q with h | ⟨hn, -⟩
  · exact h
  · exact (hq hn).elim

/-- What grows still does with the same thing put into a directory. -/
theorem Grows.put {es : Entries} (h : d.Grows d') (he : d.get? parent = some (.dir es)) :
    (d.put (parent ++ [name]) node).Grows (d'.put (parent ++ [name]) node) := by
  obtain ⟨-, es', he'⟩ := Node.look_eq_dir.mp (h.keepsWays.dir parent (Node.look_of_get? he))
  intro q hq
  by_cases hp : parent ++ [name] <+: q
  · obtain ⟨rest, rfl⟩ := hp
    exact congrArg (Option.map Node.face)
      ((get?_put_below he' rest).trans (get?_put_below he rest).symm)
  · have there : d.get? q ≠ none := fun hn =>
      hq (Node.look_eq_none.mp ((look_put hp).trans (Node.look_eq_none.mpr hn)))
    exact (look_put hp).trans ((h q there).trans (look_put hp).symm)

/-- Removing what a path without links spells changes nothing elsewhere. -/
theorem unlink_changedAt {names : List Name} (hs : p.Spells names)
    (hl : d.root.NoLinkAbove names) (h : d.unlink cwd p = .ok d') : d.ChangedAt names d' := by
  obtain ⟨parent, name, node, hp, -, -, rfl⟩ := unlink_ok h
  rw [lookupParent_spelled hs hl hp]
  exact changedAt_erase d _

theorem unlink_gone {names : List Name} (wf : d.root.WellFormed) (hs : p.Spells names)
    (hl : d.root.NoLinkAbove names) (h : d.unlink cwd p = .ok d') :
    d'.get? names = none ∧ d.look names ≠ some (.dir []) := by
  obtain ⟨parent, name, node, hp, hg, hd, rfl⟩ := unlink_ok h
  obtain rfl := lookupParent_spelled hs hl hp
  refine ⟨?_, fun hlook => ?_⟩
  · have := get?_erase_below wf (p := parent ++ [name]) (by simp) []
    rwa [List.append_nil] at this
  · obtain ⟨-, es, he⟩ := Node.look_eq_dir.mp hlook
    cases hg.symm.trans he
    cases hd

theorem rmdir_changedAt {names : List Name} (hs : p.Spells names)
    (hl : d.root.NoLinkAbove names) (h : d.rmdir cwd p = .ok d') : d.ChangedAt names d' := by
  obtain ⟨parent, name, slashed, hp, -, rfl⟩ := rmdir_ok h
  rw [lookupParent_spelled hs hl hp]
  exact changedAt_erase d _

theorem ChangedAt.noLinkAbove {names : List Name} (h : d.ChangedAt names d')
    (hl : d.root.NoLinkAbove names) : d'.root.NoLinkAbove names := by
  intro up target hu hne ht
  have hn : ¬ names <+: up := fun hp => hne (hu.eq_of_length_le hp.length_le)
  exact hl up target hu hne (Node.look_eq_link.mp ((h up hn).symm.trans (Node.look_eq_link.mpr ht)))

theorem removeTree_changedAt {names : List Name} (hn : ∀ name ∈ names, ProperName name)
    (hne : names ≠ []) (hl : d.root.NoLinkAbove names) :
    d.ChangedAt names (d.removeTree cwd (.ofNames names)).2 := by
  have hs := Path.Spells.ofNames hn
  have hr := resolve_ofNames cwd hn hl hne
  unfold removeTree
  split
  · exact fun _ _ => rfl
  · exact fun _ _ => rfl
  · split
    · exact fun _ _ => rfl
    next h => exact unlink_changedAt hs hl h
  next place es he =>
    rw [he] at hr
    obtain ⟨rfl, -⟩ := hr
    have emptied := changedAt_put d place (.dir [])
    dsimp only
    split
    · exact emptied
    next h => exact emptied.trans (rmdir_changedAt hs (emptied.noLinkAbove hl) h)

end LayerPack.Disk
