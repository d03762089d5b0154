import LayerPack.Proofs.Disk.Seat

/-! Disks that cannot be told apart from outside: at every place there is the same, up to the numbers
of files and the order in which directories list their entries. Every path leads to the same place
on such disks, every operation fails on both for the same reason, and what it leaves is alike. -/
namespace LayerPack

variable {root root' root'' : Node} {follow : Bool} {place dest parent : Place} {name : Name}
  {parts : List Bytes} {node node' : Node} {p q : Place}

/-- Both fail for the same reason, or both succeed with results that are related. -/
inductive Both {ε α β : Type} (S : α → β → Prop) : Except ε α → Except ε β → Prop
  | error (e : ε) : Both S (.error e) (.error e)
  | ok {a : α} {b : β} (h : S a b) : Both S (.ok a) (.ok b)

theorem Both.outcome {ε α β : Type} {S : α → β → Prop} {r : Except ε α} {r' : Except ε β}
    (h : Both S r r') :
    (∃ e, r = .error e ∧ r' = .error e) ∨ ∃ a b, r = .ok a ∧ r' = .ok b ∧ S a b := by
  cases h with
  | error e => exact .inl ⟨e, rfl, rfl⟩
  | ok h => exact .inr ⟨_, _, rfl, rfl, h⟩

theorem both_of_map {ε α β : Type} {f : α → β} {r r' : Except ε α} (h : r.map f = r'.map f) :
    Both (fun a a' => f a = f a') r r' := by
  cases r with
  | error e =>
    cases r' with
    | error e' =>
      obtain rfl := Except.error.inj h
      exact .error e
    | ok => cases h
  | ok a =>
    cases r' with
    | error => cases h
    | ok a' => exact .ok (Except.ok.inj h)

namespace Node

/-- What a path tells of a node: neither the number of a file nor what is in a directory. -/
def outline : Node → Node
  | file _ mode content => file 0 mode content
  | link target => link target
  | dir _ => dir []

/-- What is told of a place. -/
def view (root : Node) (p : Place) : Option Node := (root.get? p).map outline

/-- At every place the same is told of the two trees. -/
def Alike (root root' : Node) : Prop := ∀ p, root.view p = root'.view p

theorem Alike.refl (root : Node) : root.Alike root := fun _ => rfl

theorem Alike.symm (h : root.Alike root') : root'.Alike root := fun p => (h p).symm

theorem Alike.trans (h : root.Alike root') (h' : root'.Alike root'') : root.Alike root'' :=
  fun p => (h p).trans (h' p)

theorem outline_face (node : Node) : node.face.outline = node.outline := by
  cases node <;> rfl

theorem view_eq_look (root : Node) (p : Place) : root.view p = (root.look p).map outline := by
  rw [view, look, Option.map_map]
  exact congrArg (Option.map · _) (funext fun node => (outline_face node).symm)

theorem view_of_look (h : root.look p = root'.look q) : root.view p = root'.view q := by
  rw [view_eq_look, view_eq_look, h]

theorem view_of_none (h : root.get? p = none) : root.view p = none := by
  rw [view, h]
  rfl

theorem view_of_some (h : root.get? p = some node) : root.view p = some node.outline := by
  rw [view, h]
  rfl

theorem view_eq_none : root.view p = none ↔ root.get? p = none := by
  simp [view]

/-- Of two places of which the same is told, both are empty or none is. -/
theorem missing_of_view (h : root.view p = root'.view q) (hp : root.get? p = none) :
    root'.get? q = none := by
  rw [← view_eq_none, ← h, view_eq_none.mpr hp]

theorem dir_of_view (h : root.view p = root'.view q) {es : Entries}
    (hp : root.get? p = some (.dir es)) : ∃ es', root'.get? q = some (.dir es') := by
  rw [view_of_some hp] at h
  cases hq : root'.get? q with
  | none => simp [view, hq] at h
  | some node => cases node <;> simp_all [view, outline]

theorem link_of_view (h : root.view p = root'.view q) {target : Bytes}
    (hp : root.get? p = some (.link target)) : root'.get? q = some (.link target) := by
  rw [view_of_some hp] at h
  cases hq : root'.get? q with
  | none => simp [view, hq] at h
  | some node => cases node <;> simp_all [view, outline]

theorem file_of_view (h : root.view p = root'.view q) {id mode : Nat} {content : ByteArray}
    (hp : root.get? p = some (.file id mode content)) :
    ∃ id', root'.get? q = some (.file id' mode content) := by
  rw [view_of_some hp] at h
  cases hq : root'.get? q with
  | none => simp [view, hq] at h
  | some node => cases node <;> simp_all [view, outline]

theorem stat_outline (node : Node) : node.outline.stat = node.stat := by
  cases node <;> rfl

theorem stat_of_outline (h : node.outline = node'.outline) : node.stat = node'.stat := by
  rw [← stat_outline, h, stat_outline]

end Node

/-- What is told of where a walk has come. -/
def Spot.outline : Spot → Spot
  | .found place node => .found place node.outline
  | .absent parent name slashed => .absent parent name slashed

def Walked.outline : Walked → Walked
  | .arrived spot => .arrived spot.outline
  | walked => walked

namespace Disk

theorem walk_of_no_dir (h : ∀ es, root.get? place ≠ some (.dir es)) (part : Bytes)
    (rest : List Bytes) : walk root follow place (part :: rest) =
      .failed (if root.get? place = none then .noEntry else .notDirectory) := by
  cases hp : root.get? place with
  | none => simp [walk, hp]
  | some node =>
    cases node with
    | dir es => exact (h es hp).elim
    | file | link => simp [walk, hp]

/-- A walk goes the same way on trees of which the same is told. -/
theorem walk_alike (h : root.Alike root') (follow : Bool) (place : Place) (parts : List Bytes) :
    (walk root follow place parts).outline = (walk root' follow place parts).outline := by
  induction parts generalizing place with
  | nil =>
    rw [walk_nil, walk_nil]
    have same := h place
    unfold Node.view at same
    cases hp : root.get? place <;> cases hp' : root'.get? place <;>
      simp_all [Walked.outline, Spot.outline]
  | cons part rest ih =>
    by_cases hd : ∃ es, root.get? place = some (.dir es)
    case neg =>
      have hd' : ¬ ∃ es, root'.get? place = some (.dir es) := fun ⟨es, he⟩ =>
        hd (Node.dir_of_view (h place).symm he)
      have hn : root.get? place = none ↔ root'.get? place = none :=
        ⟨Node.missing_of_view (h place), Node.missing_of_view (h place).symm⟩
      rw [walk_of_no_dir fun es he => hd ⟨es, he⟩, walk_of_no_dir fun es he => hd' ⟨es, he⟩]
      simp only [hn]
    obtain ⟨es, he⟩ := hd
    obtain ⟨es', he'⟩ := Node.dir_of_view (h place) he
    rw [walk_cons he, walk_cons he']
    split
    · exact ih place
    split
    · exact ih place.dropLast
    split
    · rfl
    have same := h (place ++ [part])
    cases hp : root.get? (place ++ [part]) with
    | none => rw [Node.missing_of_view same hp]
    | some node =>
      cases node with
      | link target => rw [Node.link_of_view same hp]
      | file id mode content =>
        obtain ⟨id', hp'⟩ := Node.file_of_view same hp
        rw [hp']
        exact ih (place ++ [part])
      | dir inner =>
        obtain ⟨inner', hp'⟩ := Node.dir_of_view same hp
        rw [hp']
        exact ih (place ++ [part])

theorem chase_alike (h : root.Alike root') (follow : Bool) (links : Nat) (place : Place)
    (parts : List Bytes) :
    (chase root follow links place parts).map Spot.outline =
      (chase root' follow links place parts).map Spot.outline := by
  induction links generalizing place parts with
  | zero =>
    have walked := walk_alike h follow place parts
    unfold chase
    cases hw : walk root follow place parts <;> cases hw' : walk root' follow place parts <;>
      simp_all [Walked.outline, Except.map]
  | succ left ih =>
    have walked := walk_alike h follow place parts
    unfold chase
    cases hw : walk root follow place parts <;> cases hw' : walk root' follow place parts <;>
      simp_all [Walked.outline, Except.map]

variable {d d' d'' : Disk} {cwd : Place}

theorem lookup_congr {follow : Bool} {path : Path}
    (h : (chase d.root follow maxLinks (startOf cwd path.bytes) (partsOf path.bytes)).map
        Spot.outline =
      (chase d'.root follow maxLinks (startOf cwd path.bytes) (partsOf path.bytes)).map
        Spot.outline) :
    (d.lookup cwd follow path).map Spot.outline = (d'.lookup cwd follow path).map Spot.outline := by
  unfold lookup
  cases checkPath path with
  | error e => rfl
  | ok => exact h

theorem lookupParent_congr {path : Path}
    (h : (chase d.root true maxLinks (startOf cwd path.bytes)
        ((splitLast path.bytes).1 ++ [[]])).map Spot.outline =
      (chase d'.root true maxLinks (startOf cwd path.bytes)
        ((splitLast path.bytes).1 ++ [[]])).map Spot.outline) :
    d.lookupParent cwd path = d'.lookupParent cwd path := by
  unfold lookupParent
  cases checkPath path with
  | error e => rfl
  | ok =>
    simp only [bind, Except.bind]
    rcases (both_of_map h).outcome with ⟨e, hc, hc'⟩ | ⟨spot, spot', hc, hc', outlines⟩
    · rw [hc, hc']
    rw [hc, hc']
    cases spot with
    | absent =>
      cases spot' with
      | absent => rfl
      | found => cases outlines
    | found place node =>
      cases spot' with
      | absent => cases outlines
      | found place' node' =>
        simp only [Spot.outline, Spot.found.injEq] at outlines
        obtain ⟨rfl, outlines⟩ := outlines
        cases node <;> cases node' <;> first | rfl | cases outlines

theorem resolve_congr {follow : Bool} {path : Path}
    (h : (d.lookup cwd follow path).map Spot.outline = (d'.lookup cwd follow path).map Spot.outline) :
    (d.resolve cwd follow path).map (fun found => (found.1, found.2.outline)) =
      (d'.resolve cwd follow path).map fun found => (found.1, found.2.outline) := by
  unfold resolve
  rcases (both_of_map h).outcome with ⟨e, hl, hl'⟩ | ⟨spot, spot', hl, hl', outlines⟩
  · rw [hl, hl']
  rw [hl, hl']
  cases spot with
  | absent =>
    cases spot' with
    | absent => rfl
    | found => cases outlines
  | found place node =>
    cases spot' with
    | absent => cases outlines
    | found place' node' =>
      simp only [Spot.outline, Spot.found.injEq] at outlines
      obtain ⟨rfl, outlines⟩ := outlines
      simp [Except.map, bind, Except.bind, pure, Except.pure, outlines]

/-- The status of what a path leads to goes by what is told of it. -/
theorem stat_congr {follow : Bool} {path : Path}
    (h : (d.lookup cwd follow path).map Spot.outline = (d'.lookup cwd follow path).map Spot.outline) :
    d.stat cwd follow path = d'.stat cwd follow path := by
  unfold stat
  rcases (both_of_map (resolve_congr h)).outcome with
    ⟨e, hr, hr'⟩ | ⟨⟨place, node⟩, ⟨place', node'⟩, hr, hr', same⟩
  · rw [hr, hr']
  · rw [hr, hr']
    exact congrArg Except.ok (Node.stat_of_outline (Prod.mk.inj same).2)

/-- What is told of a place. -/
def view (d : Disk) (place : Place) : Option Node := d.root.view place

/-- At every place the same is told of the two disks. -/
def Alike (d d' : Disk) : Prop := d.root.Alike d'.root

namespace Alike

theorem symm (h : d.Alike d') : d'.Alike d := Node.Alike.symm h

theorem trans (h : d.Alike d') (h' : d'.Alike d'') : d.Alike d'' := Node.Alike.trans h h'

theorem missing (h : d.Alike d') (hp : d.get? p = none) : d'.get? p = none :=
  Node.missing_of_view (h p) hp

theorem dir (h : d.Alike d') {es : Entries} (hp : d.get? p = some (.dir es)) :
    ∃ es', d'.get? p = some (.dir es') := Node.dir_of_view (h p) hp

theorem link (h : d.Alike d') {target : Bytes} (hp : d.get? p = some (.link target)) :
    d'.get? p = some (.link target) := Node.link_of_view (h p) hp

theorem file (h : d.Alike d') {id mode : Nat} {content : ByteArray}
    (hp : d.get? p = some (.file id mode content)) :
    ∃ id', d'.get? p = some (.file id' mode content) := Node.file_of_view (h p) hp

theorem lookup (h : d.Alike d') (cwd : Place) (follow : Bool) (path : Path) :
    (d.lookup cwd follow path).map Spot.outline = (d'.lookup cwd follow path).map Spot.outline :=
  lookup_congr (chase_alike h ..)

theorem lookupParent (h : d.Alike d') (cwd : Place) (path : Path) :
    d.lookupParent cwd path = d'.lookupParent cwd path :=
  lookupParent_congr (chase_alike h ..)

theorem resolve (h : d.Alike d') (cwd : Place) (follow : Bool) (path : Path) :
    (d.resolve cwd follow path).map (fun found => (found.1, found.2.outline)) =
      (d'.resolve cwd follow path).map fun found => (found.1, found.2.outline) :=
  resolve_congr (h.lookup cwd follow path)

/-- What is read of the node that a path leads to is the same if it goes by what is told of it. -/
theorem resolved {α : Type} (h : d.Alike d') (cwd : Place) (follow : Bool) (path : Path)
    {f : Place × Node → Except SystemError α}
    (hf : ∀ place node node', node.outline = node'.outline → f (place, node) = f (place, node')) :
    (d.resolve cwd follow path >>= f) = d'.resolve cwd follow path >>= f := by
  rcases (both_of_map (h.resolve cwd follow path)).outcome with
    ⟨e, hr, hr'⟩ | ⟨⟨place, node⟩, ⟨place', node'⟩, hr, hr', same⟩
  · rw [hr, hr']
  · obtain ⟨rfl, outlines⟩ := Prod.mk.inj same
    rw [hr, hr']
    exact hf place node node' outlines

theorem stat (h : d.Alike d') (cwd : Place) (follow : Bool) (path : Path) :
    d.stat cwd follow path = d'.stat cwd follow path :=
  stat_congr (h.lookup cwd follow path)

theorem openRead (h : d.Alike d') (cwd : Place) (path : Path) :
    d.openRead cwd path = d'.openRead cwd path := by
  refine h.resolved cwd true path fun place node node' outlines => ?_
  cases node <;> cases node' <;> simp_all [Node.outline]

/-- Trees of which the same is told are put into a directory. -/
theorem put (h : d.Alike d') {es : Entries} (hd : d.get? parent = some (.dir es))
    (hn : node.Alike node') :
    (d.put (parent ++ [name]) node).Alike (d'.put (parent ++ [name]) node') := by
  obtain ⟨es', hd'⟩ := h.dir hd
  intro q
  by_cases hq : parent ++ [name] <+: q
  · obtain ⟨r, rfl⟩ := hq
    have below {d : Disk} {es : Entries} {node : Node} (hd : d.get? parent = some (.dir es)) :
        (d.put (parent ++ [name]) node).root.view (parent ++ [name] ++ r) = node.view r := by
      rw [Node.view, get?_root, get?_put_below hd, Node.view]
    rw [below hd, below hd']
    exact hn r
  · have aside {d : Disk} {node : Node} : (d.put (parent ++ [name]) node).root.view q = d.root.view q :=
      Node.view_of_look (look_put hq)
    rw [aside, aside]
    exact h q

/-- Where no directory is, nothing is put into it, and on neither of the disks. -/
theorem put_anywhere (h : d.Alike d') (hn : node.Alike node') (p : Place) :
    (d.put p node).Alike (d'.put p node') := by
  rcases List.eq_nil_or_concat p with rfl | ⟨parent, name, hp⟩
  · rw [put_nil, put_nil]
    exact h
  obtain rfl : p = parent ++ [name] := hp.trans List.concat_eq_append
  by_cases hd : ∃ es, d.get? parent = some (.dir es)
  · obtain ⟨es, hd⟩ := hd
    exact h.put hd hn
  have hd' : ¬ ∃ es, d'.get? parent = some (.dir es) := fun ⟨es, he⟩ => hd (h.symm.dir he)
  have nothing {d : Disk} (hd : ¬ ∃ es, d.get? parent = some (.dir es)) (node : Node) (r : Place) :
      (d.put (parent ++ [name]) node).root.view (parent ++ [name] ++ r) = none := by
    have same : (d.put (parent ++ [name]) node).look parent = d.look parent :=
      look_put fun hp => absurd hp.length_le (by simp)
    rw [List.append_assoc]
    refine Node.view_of_none (get?_below_none (fun es he => hd ?_) r)
    exact (Node.look_eq_dir.mp (same.symm.trans (Node.look_of_get? he))).2
  intro q
  by_cases hq : parent ++ [name] <+: q
  · obtain ⟨r, rfl⟩ := hq
    rw [nothing hd, nothing hd']
  · have aside {d : Disk} {node : Node} : (d.put (parent ++ [name]) node).root.view q = d.root.view q :=
      Node.view_of_look (look_put hq)
    rw [aside, aside]
    exact h q

theorem erase (h : d.Alike d') (wf : d.root.WellFormed) (wf' : d'.root.WellFormed)
    (hne : p ≠ []) : (d.erase p).Alike (d'.erase p) := by
  intro q
  by_cases hq : p <+: q
  · obtain ⟨r, rfl⟩ := hq
    rw [Node.view_of_none (get?_erase_below wf hne r), Node.view_of_none (get?_erase_below wf' hne r)]
  · have aside {d : Disk} : (d.erase p).root.view q = d.root.view q :=
      Node.view_of_look (look_erase hq)
    rw [aside, aside]
    exact h q

theorem mkdir (h : d.Alike d') (cwd : Place) (path : Path) :
    Both Alike (d.mkdir cwd path) (d'.mkdir cwd path) := by
  unfold Disk.mkdir
  rw [← h.lookupParent cwd path]
  rcases hp : d.lookupParent cwd path with e | ⟨parent, name | _⟩
  · exact .error e
  · simp only [bind, Except.bind]
    cases hg : d.get? (parent ++ [name]) with
    | none =>
      obtain ⟨es, hd⟩ := dir_of_lookupParent hp
      rw [h.missing hg]
      exact .ok (h.put hd (.refl _))
    | some node =>
      cases hg' : d'.get? (parent ++ [name]) with
      | none => simp [h.symm.missing hg'] at hg
      | some node' => exact .error _
  all_goals exact .error _

theorem unlink (h : d.Alike d') (wf : d.root.WellFormed) (wf' : d'.root.WellFormed) (cwd : Place)
    (path : Path) : Both Alike (d.unlink cwd path) (d'.unlink cwd path) := by
  unfold Disk.unlink
  rw [← h.lookupParent cwd path]
  rcases hp : d.lookupParent cwd path with e | ⟨parent, ⟨name, slashed⟩ | _⟩
  · exact .error e
  · simp only [bind, Except.bind]
    have erased : Both Alike (if slashed = true then .error SystemError.notDirectory else
          .ok (d.erase (parent ++ [name])))
        (if slashed = true then .error SystemError.notDirectory else .ok (d'.erase (parent ++ [name]))) := by
      cases slashed with
      | true => exact .error _
      | false => exact .ok (h.erase wf wf' (by simp))
    cases hg : d.get? (parent ++ [name]) with
    | none =>
      rw [h.missing hg]
      exact .error _
    | some node =>
      cases node with
      | dir es =>
        obtain ⟨es', hg'⟩ := h.dir hg
        rw [hg']
        exact .error _
      | link target =>
        rw [h.link hg]
        exact erased
      | file id mode content =>
        obtain ⟨id', hg'⟩ := h.file hg
        rw [hg']
        exact erased
  all_goals exact .error _

/-- A directory is empty if nothing stands below it. -/
theorem empty_iff (h : d.Alike d') {es es' : Entries} (hp : d.get? p = some (.dir es))
    (hp' : d'.get? p = some (.dir es')) : es = [] ↔ es' = [] := by
  have below {d : Disk} {es : Entries} (hp : d.get? p = some (.dir es)) :
      es = [] ↔ ∀ name, d.get? (p ++ [name]) = none := by
    constructor
    · rintro rfl name
      exact Node.get?_name hp name
    · intro hn
      cases es with
      | nil => rfl
      | cons e rest =>
        have := (Node.get?_name hp e.1).symm.trans (hn e.1)
        simp [Entries.find?] at this
  rw [below hp, below hp']
  exact forall_congr' fun name => ⟨h.missing, h.symm.missing⟩

theorem rmdir (h : d.Alike d') (wf : d.root.WellFormed) (wf' : d'.root.WellFormed) (cwd : Place)
    (path : Path) : Both Alike (d.rmdir cwd path) (d'.rmdir cwd path) := by
  unfold Disk.rmdir
  rw [← h.lookupParent cwd path]
  rcases hp : d.lookupParent cwd path with e | ⟨parent, ⟨name, slashed⟩ | _⟩
  · exact .error e
  · simp only [bind, Except.bind]
    cases hg : d.get? (parent ++ [name]) with
    | none =>
      rw [h.missing hg]
      exact .error _
    | some node =>
      cases node with
      | link target =>
        rw [h.link hg]
        exact .error _
      | file id mode content =>
        obtain ⟨id', hg'⟩ := h.file hg
        rw [hg']
        exact .error _
      | dir es =>
        obtain ⟨es', hg'⟩ := h.dir hg
        rw [hg']
        have empty := h.empty_iff hg hg'
        cases es with
        | nil =>
          obtain rfl := empty.mp rfl
          exact .ok (h.erase wf wf' (by simp))
        | cons e rest =>
          obtain ⟨e', rest', rfl⟩ := List.exists_cons_of_ne_nil fun he => by cases empty.mpr he
          exact .error _
  all_goals exact .error _

/-- What a directory holds is dropped. -/
theorem emptied (h : d.Alike d') {es : Entries} (hp : d.get? p = some (.dir es)) :
    (d.put p (.dir [])).Alike (d'.put p (.dir [])) := by
  rcases List.eq_nil_or_concat p with rfl | ⟨front, last, rfl⟩
  · have still (d : Disk) : d.put [] (.dir []) = d := by
      unfold Disk.put
      simp [Node.alter]
    rw [still, still]
    exact h
  · rw [List.concat_eq_append] at *
    obtain ⟨es', hd⟩ := Node.dir_of_get?_append hp
    exact h.put hd (.refl _)

theorem removeTree (h : d.Alike d') (wf : d.root.WellFormed) (wf' : d'.root.WellFormed)
    (cwd : Place) (path : Path) :
    (d.removeTree cwd path).1 = (d'.removeTree cwd path).1 ∧
      (d.removeTree cwd path).2.Alike (d'.removeTree cwd path).2 := by
  unfold Disk.removeTree
  rcases (both_of_map (h.resolve cwd false path)).outcome with
    ⟨e, hr, hr'⟩ | ⟨⟨place, node⟩, ⟨place', node'⟩, hr, hr', same⟩
  · rw [hr, hr']
    exact ⟨rfl, h⟩
  obtain ⟨rfl, outlines⟩ := Prod.mk.inj same
  rw [hr, hr']
  cases node with
  | file =>
    cases node' <;> first | exact ⟨rfl, h⟩ | cases outlines
  | link target =>
    cases node' with
    | file | dir => cases outlines
    | link target' =>
      rcases (h.unlink wf wf' cwd path).outcome with ⟨e, hu, hu'⟩ | ⟨left, left', hu, hu', alike⟩
      · rw [hu, hu']
        exact ⟨rfl, h⟩
      · rw [hu, hu']
        exact ⟨rfl, alike⟩
  | dir es =>
    cases node' with
    | file | link => cases outlines
    | dir es' =>
      have hg : d.get? place = some (.dir es) := lookup_sound (resolve_ok.mp hr)
      have hg' : d'.get? place = some (.dir es') := lookup_sound (resolve_ok.mp hr')
      have emptied := h.emptied hg
      have form : (d.put place (.dir [])).root.WellFormed :=
        wellFormed_put wf (wf.properName hg) .empty
      have form' : (d'.put place (.dir [])).root.WellFormed :=
        wellFormed_put wf' (wf'.properName hg') .empty
      dsimp only
      rcases (emptied.rmdir form form' cwd path).outcome with
        ⟨e, he, he'⟩ | ⟨left, left', he, he', alike⟩
      · rw [he, he']
        exact ⟨rfl, emptied⟩
      · rw [he, he']
        exact ⟨rfl, alike⟩

end Alike

end Disk

end LayerPack
