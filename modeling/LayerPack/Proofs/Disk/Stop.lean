import LayerPack.Proofs.Disk.Bare
import LayerPack.Proofs.Disk.Filed

/-! Where a path stops. Its first parts lead to a directory that does not have the next name. Only there a
directory is made along the path, and until then the path leads nowhere. A path that does not stop names an
entry of a directory; the entry can be removed with all that is below it if the path does not go through
it. -/
namespace LayerPack.Disk

variable {d d' d'' : Disk} {cwd place parent : Place} {p : Path} {front more : List Bytes} {name : Name}
  {up names : List Name}

/-- The parts lead to a directory that does not have the name. -/
structure Stops (d : Disk) (front : List Bytes) (place : Place) (name : Name) : Prop where
  proper : ProperName name
  fits : name.length ≤ maxName
  way : d.root.Way front place
  missing : d.get? (place ++ [name]) = none

/-- A directory is made where its path stops. -/
theorem stops_mkdir (hp : p.isAbsolute) (h : d.mkdir cwd p = .ok d') : ∃ front name place,
    p.parts = front ++ [name] ∧ d.Stops front place name ∧
      ∃ es, d'.get? (place ++ [name]) = some (.dir es) := by
  obtain ⟨front, name, place, hparts, proper, fits, way, missing, hd⟩ := mkdir_way hp h
  obtain ⟨es, he⟩ := way.dir
  exact ⟨front, name, place, hparts, ⟨proper, fits, way, missing⟩, [], hd ▸ get?_put_self he⟩

/-- The directory of a path that is written by its names. -/
theorem lookupParent_ofNames (proper : ∀ n ∈ up ++ [name], ProperName n) :
    d.lookupParent [] (.ofNames (up ++ [name])) = .ok (parent, .name name false) ↔
      checkPath (.ofNames (up ++ [name])) = .ok () ∧ name.length ≤ maxName ∧ d.root.Way up parent := by
  rw [lookupParent_eq_ok, splitLast_concat proper, startOf_root]
  exact ⟨fun ⟨check, way, _, fits⟩ => ⟨check, fits, way⟩, fun ⟨check, fits, way⟩ => ⟨check, way, rfl, fits⟩⟩

theorem seat_ofNames (proper : ∀ n ∈ up ++ [name], ProperName n) :
    d.seat [] (.ofNames (up ++ [name])) = some place ↔ ∃ parent, place = parent ++ [name] ∧
      d.lookupParent [] (.ofNames (up ++ [name])) = .ok (parent, .name name false) := by
  constructor
  · intro h
    obtain ⟨parent, last, slashed, hp, rfl⟩ := lookupParent_of_seat h
    have last := (Prod.mk.inj (lookupParent_concat proper hp)).2
    cases last
    exact ⟨parent, rfl, hp⟩
  · rintro ⟨parent, rfl, hp⟩
    exact seat_of_lookupParent hp

/-- A path that stops before its last name leads nowhere. -/
theorem Stops.stat (h : d.Stops up place name) (proper : ∀ n ∈ names, ProperName n) (hn : names ≠ [])
    (check : checkPath (.ofNames (up ++ name :: names)) = .ok ())
    (hup : ∀ n ∈ up, ProperName n) (follow : Bool) :
    d.stat [] follow (.ofNames (up ++ name :: names)) = .error .noEntry := by
  have whole : ∀ n ∈ up ++ name :: names, ProperName n := by
    intro n hm
    rcases List.mem_append.mp hm with hm | hm
    · exact hup n hm
    · rcases List.mem_cons.mp hm with rfl | hm
      · exact h.proper
      · exact proper n hm
  obtain ⟨es, hc⟩ := h.way
  obtain ⟨he, left, hleft⟩ := chase_append hc
  have void : names.all (· = []) = false := by
    obtain ⟨n, rest, rfl⟩ := List.exists_cons_of_ne_nil hn
    simp [(proper n (by simp)).nonempty]
  have lost : walk d.root follow place (name :: names) = .failed .noEntry := by
    rw [walk_proper he h.proper, if_neg (Nat.not_lt.mpr h.fits), get?_root, h.missing]
    simp [void]
  have looked : d.lookup [] follow (.ofNames (up ++ name :: names)) = .error .noEntry := by
    unfold lookup
    rw [check, startOf_root, partsOf_ofNames whole (by simp)]
    change chase d.root follow maxLinks [] (up ++ name :: names) = _
    rw [hleft follow _ (by simp), chase, lost]
  unfold Disk.stat Disk.resolve
  rw [looked]
  rfl

/-- What is found by a path that names an entry is that entry, also if it is a link. -/
theorem resolve_entry (hp : d.lookupParent cwd p = .ok (parent, .name name false)) :
    d.resolve cwd false p = match d.get? (parent ++ [name]) with
      | some node => .ok (parent ++ [name], node)
      | none => .error .noEntry := by
  obtain ⟨left, hleft⟩ := lookup_of_lookupParent hp false
  obtain ⟨es, he⟩ := dir_of_lookupParent hp
  obtain ⟨hn, fits⟩ := properName_of_lookupParent hp
  unfold resolve
  rw [hleft, chase, walk_name he hn fits, get?_root]
  rcases d.get? (parent ++ [name]) with _ | _ | _ | _ <;> rfl

theorem stat_entry (hp : d.lookupParent cwd p = .ok (parent, .name name false)) :
    d.stat cwd false p = match d.get? (parent ++ [name]) with
      | some node => .ok node.stat
      | none => .error .noEntry := by
  unfold Disk.stat
  rw [resolve_entry hp]
  cases d.get? (parent ++ [name]) <;> rfl

/-- Directories have been added, and nothing else has changed. -/
def Enlarged (d d' : Disk) : Prop :=
  ∀ q, d'.look q = d.look q ∨ d.get? q = none ∧ d'.look q = some (.dir [])

namespace Enlarged

theorem refl (d : Disk) : d.Enlarged d := fun _ => .inl rfl

theorem trans (h : d.Enlarged d') (h' : d'.Enlarged d'') : d.Enlarged d'' := by
  intro q
  rcases h' q with same' | ⟨hn', new'⟩
  · rw [same']
    exact h q
  · refine .inr ⟨?_, new'⟩
    rcases h q with same | ⟨hn, -⟩
    · exact Node.look_eq_none.mp (same.symm.trans (Node.look_eq_none.mpr hn'))
    · exact hn

theorem grows (h : d.Enlarged d') : d.Grows d' := fun q hq => (h q).resolve_right fun hn => hq hn.1

/-- No link is added. -/
theorem link (h : d.Enlarged d') {target : Bytes} (hq : d'.get? place = some (.link target)) :
    d.get? place = some (.link target) := by
  rcases h place with same | ⟨-, new⟩
  · exact Node.look_eq_link.mp (same.symm.trans (Node.look_eq_link.mpr hq))
  · cases new.symm.trans (Node.look_eq_link.mpr hq)

end Enlarged

/-- The path names an entry that can be removed with all that is below it. -/
structure Names (d : Disk) (cwd : Place) (p : Path) (parent : Place) (name : Name) : Prop where
  way : d.lookupParent cwd p = .ok (parent, .name name false)
  aside : (d.erase (parent ++ [name])).lookupParent cwd p = .ok (parent, .name name false)

/-- Where a path is looked up from does not matter if it is absolute. -/
theorem Names.absolute (h : d.Names [] p parent name) (hp : p.isAbsolute) (cwd : Place) :
    d.Names cwd p parent name :=
  ⟨(lookupParent_absolute hp cwd []).trans h.way, (lookupParent_absolute hp cwd []).trans h.aside⟩

/-- An entry has been removed with all that was below it, and nothing else has changed. -/
structure Without (place : Place) (d d' : Disk) : Prop where
  gone : ∀ rest, d'.get? (place ++ rest) = none
  same : ∀ q, ¬ place <+: q → d'.look q = d.look q
  form : d'.root.WellFormed

/-- The tree that a path names is removed. -/
theorem Names.removeTree (h : d.Names cwd p parent name) (wf : d.root.WellFormed) {es : Entries}
    (hg : d.get? (parent ++ [name]) = some (.dir es)) :
    ∃ d', d.removeTree cwd p = (.ok (), d') ∧ d.Without (parent ++ [name]) d' := by
  obtain ⟨up, hup⟩ := dir_of_lookupParent h.way
  have found : d.resolve cwd false p = .ok (parent ++ [name], .dir es) := by
    rw [resolve_entry h.way, hg]
  have emptied : (d.put (parent ++ [name]) (.dir [])).get? (parent ++ [name]) = some (.dir []) :=
    get?_put_self hup
  have way : (d.put (parent ++ [name]) (.dir [])).lookupParent cwd p = .ok (parent, .name name false) := by
    refine lookupParent_keeps ?_ h.aside
    have same (q : Place) (face : Node) (hq : (d.erase (parent ++ [name])).look q = some face) :
        (d.put (parent ++ [name]) (.dir [])).look q = some face := by
      have hpre : ¬ parent ++ [name] <+: q := by
        rintro ⟨rest, rfl⟩
        cases (Node.look_eq_none.mpr (get?_erase_below wf (by simp) rest)).symm.trans hq
      exact (look_put hpre).trans ((look_erase hpre).symm.trans hq)
    exact .of_look same
  have removed : (d.put (parent ++ [name]) (.dir [])).rmdir cwd p =
      .ok ((d.put (parent ++ [name]) (.dir [])).erase (parent ++ [name])) := by
    unfold rmdir
    rw [way]
    simp only [bind, Except.bind, emptied]
    rfl
  have form : (d.put (parent ++ [name]) (.dir [])).root.WellFormed :=
    wellFormed_put wf (wf.properName hg) .empty
  refine ⟨(d.put (parent ++ [name]) (.dir [])).erase (parent ++ [name]), ?_, ?_, ?_, ?_⟩
  · unfold Disk.removeTree
    rw [found]
    dsimp only
    rw [removed]
  · exact fun rest => get?_erase_below form (by simp) rest
  · exact fun q hq => (look_erase hq).trans (look_put hq)
  · exact (tame_erase emptied (by simp)).wellFormed form

theorem ne_nil_of_seat (h : d.seat cwd p = some place) : place ≠ [] := by
  obtain ⟨parent, name, -, -, rfl⟩ := lookupParent_of_seat h
  simp

/-- Where nothing is found, nothing is in the place that the path names. -/
theorem seat_missing {parts : List Bytes} (hs : splitLast p.bytes = (parts, .name name false))
    (h : d.stat cwd false p = .error .noEntry) (hseat : d.seat cwd p = some place) :
    d.get? place = none := by
  obtain ⟨parent, last, slashed, hp, rfl⟩ := lookupParent_of_seat hseat
  obtain ⟨-, -, hl, -⟩ := lookupParent_eq_ok.mp hp
  rw [hs] at hl
  cases hl
  rw [stat_entry hp] at h
  cases hg : d.get? (parent ++ [name]) with
  | none => rfl
  | some node =>
    rw [hg] at h
    cases h

/-- Nothing is left in a tree that is removed, also if the tree itself stays. -/
theorem removeTree_empties (wf : d.root.WellFormed) {es : Entries}
    (found : d.resolve cwd false p = .ok (place, .dir es)) (hne : place ≠ []) (first : Name)
    (rest : List Name) : (d.removeTree cwd p).2.get? (place ++ first :: rest) = none := by
  have hg : d.get? place = some (.dir es) := lookup_sound (resolve_ok.mp found)
  have emptied := below_emptied hne hg first rest
  have form : (d.put place (.dir [])).root.WellFormed :=
    wellFormed_put wf (wf.properName hg) .empty
  unfold Disk.removeTree
  rw [found]
  dsimp only
  cases hr : (d.put place (.dir [])).rmdir cwd p with
  | error e => exact emptied
  | ok d' =>
    obtain ⟨parent, name, slashed, -, -, rfl⟩ := rmdir_ok hr
    by_cases hpre : parent ++ [name] <+: place ++ first :: rest
    · obtain ⟨more, hmore⟩ := hpre
      rw [← hmore]
      exact get?_erase_below form (by simp) more
    · exact Node.look_eq_none.mp ((look_erase hpre).trans (Node.look_eq_none.mpr emptied))

/-- The removal of a tree opens no way. -/
theorem removeTree_keepsWays (wf : d.root.WellFormed) :
    (d.removeTree cwd p).2.root.KeepsWays d.root := by
  unfold Disk.removeTree
  split
  · exact .refl _
  · exact .refl _
  · split
    · exact .refl _
    next d' h =>
      obtain ⟨parent, name, node, -, -, -, rfl⟩ := unlink_ok h
      exact erase_keepsWays wf (by simp)
  next place es hr =>
    have hg : d.get? place = some (.dir es) := lookup_sound (resolve_ok.mp hr)
    have emptied := empty_keepsWays hg
    dsimp only
    split
    · exact emptied
    next d' h =>
      obtain ⟨parent, name, slashed, -, -, rfl⟩ := rmdir_ok h
      have form : (d.put place (.dir [])).root.WellFormed :=
        wellFormed_put wf (wf.properName hg) .empty
      exact (erase_keepsWays form (by simp)).trans emptied

/-- What a path names is removed as what it is, unless it is missing. The removal of a tree can also end
when the path does not lead to it any more. -/
inductive Removed (cwd : Place) (p : Path) (d d' : Disk) : Prop
  | missing (seen : d.stat cwd false p = .error .noEntry) (same : d' = d)
  | entry (removed : d.unlink cwd p = .ok d')
  | tree {place : Place} {es : Entries} (found : d.resolve cwd false p = .ok (place, .dir es))
      (lost : ∀ e, (d.removeTree cwd p).1 = .error e → e = .noEntry) (removed : d' = (d.removeTree cwd p).2)

namespace Removed

variable (h : d.Removed cwd p d') (wf : d.root.WellFormed)

include h wf

theorem notFound (found : Place × Node) : d'.resolve cwd false p ≠ .ok found := by
  cases h with
  | missing seen same =>
    subst same
    intro h
    rw [Disk.stat, h] at seen
    cases seen
  | entry removed => exact unlink_notFound wf removed found
  | tree there lost removed => exact removed ▸ removeTree_notFound wf there lost found

/-- No way is opened. -/
theorem keepsWays : d'.root.KeepsWays d.root := by
  cases h with
  | missing _ same => exact same ▸ .refl _
  | entry removed =>
    obtain ⟨place, hs, rfl⟩ := unlink_seat removed
    exact erase_keepsWays wf (ne_nil_of_seat hs)
  | tree _ _ removed => exact removed ▸ removeTree_keepsWays wf

/-- Nothing is left below the place that the path has named. -/
theorem empties {parts : List Bytes} (hs : splitLast p.bytes = (parts, .name name false))
    (hseat : d.seat cwd p = some place) (first : Name) (rest : List Name) :
    d'.get? (place ++ first :: rest) = none := by
  cases h with
  | missing seen same =>
    rw [same]
    exact get?_below_missing (seat_missing hs seen hseat) _
  | entry removed =>
    obtain ⟨place', hs', rfl⟩ := unlink_seat removed
    obtain rfl := Option.some.inj (hseat.symm.trans hs')
    exact get?_erase_below wf (ne_nil_of_seat hseat) _
  | tree found _ removed =>
    obtain rfl := Option.some.inj (hseat.symm.trans (seat_of_resolve hs found))
    rw [removed]
    exact removeTree_empties wf found (ne_nil_of_seat hseat) first rest

end Removed

/-- The root is never removed. -/
theorem not_removed_root : ¬ d.Removed cwd (.ofNames []) d' := by
  have noName (d : Disk) (parent : Place) (name : Name) (slashed : Bool) :
      d.lookupParent cwd (.ofNames []) ≠ .ok (parent, .name name slashed) := fun h => by
    obtain ⟨-, -, hl, -⟩ := lookupParent_eq_ok.mp h
    cases hl
  rintro (⟨seen, -⟩ | removed | ⟨found, lost, -⟩)
  · rw [Disk.stat] at seen
    cases hr : d.resolve cwd false (.ofNames []) with
    | error e =>
      rw [hr] at seen
      cases seen
      exact resolve_ofNames_nil hr
    | ok found =>
      rw [hr] at seen
      cases seen
  · obtain ⟨parent, name, node, hp, -⟩ := unlink_ok removed
    exact noName d parent name _ hp
  · next place es =>
    have atRoot : place = [] := by
      have hc : d.lookup cwd false (.ofNames []) = chase d.root false maxLinks [] [[]] := rfl
      have hl := resolve_ok.mp found
      rw [hc] at hl
      cases hd : d.root with
      | dir inner =>
        rw [hd, chase_dir rfl] at hl
        cases hl
        rfl
      | file | link =>
        rw [hd] at hl
        cases hl
    unfold Disk.removeTree at lost
    subst atRoot
    rw [found] at lost
    dsimp only at lost
    rw [put_nil] at lost
    cases hr : d.rmdir cwd (.ofNames []) with
    | error e =>
      rw [hr] at lost
      obtain rfl := lost e rfl
      exact rmdir_noEntry hr _ found
    | ok d'' =>
      obtain ⟨parent, name, slashed, hp, -⟩ := rmdir_ok hr
      exact noName d parent name slashed hp

/-- A file or link that a path names is removed. -/
theorem unlink_entry (hp : d.lookupParent cwd p = .ok (parent, .name name false))
    (wf : d.root.WellFormed) {node : Node} (hg : d.get? (parent ++ [name]) = some node)
    (hd : node.isDir = false) :
    ∃ d', d.unlink cwd p = .ok d' ∧ d.Without (parent ++ [name]) d' := by
  refine ⟨d.erase (parent ++ [name]), ?_, ?_, fun q => look_erase, ?_⟩
  · unfold Disk.unlink
    rw [hp]
    simp only [bind, Except.bind, hg]
    cases node with
    | dir => cases hd
    | file | link => rfl
  · exact fun rest => get?_erase_below wf (by simp) rest
  · exact (tame_erase hg (by simp)).wellFormed wf

/-- Where nothing is, nothing has to be removed. -/
theorem without_of_none (wf : d.root.WellFormed) (hn : d.get? place = none) : d.Without place d :=
  ⟨get?_below_missing hn, fun _ _ => rfl, wf⟩

/-- An entry that can be removed is gone when it has been removed. -/
theorem Names.removed (h : d.Names cwd p parent name) (wf : d.root.WellFormed)
    (removed : d.Removed cwd p d') : d.Without (parent ++ [name]) d' := by
  cases removed with
  | missing seen same =>
    subst same
    rw [stat_entry h.way] at seen
    cases hg : d'.get? (parent ++ [name]) with
    | none => exact without_of_none wf hg
    | some node =>
      rw [hg] at seen
      cases seen
  | entry removed =>
    obtain ⟨parent', name', node, hp, hg, hd, -⟩ := unlink_ok removed
    cases h.way.symm.trans hp
    obtain ⟨_, hu, without⟩ := unlink_entry hp wf hg hd
    cases removed.symm.trans hu
    exact without
  | tree found _ removed =>
    rw [resolve_entry h.way] at found
    cases hg : d.get? (parent ++ [name]) with
    | none =>
      rw [hg] at found
      cases found
    | some node =>
      rw [hg] at found
      cases found
      obtain ⟨_, hr, without⟩ := h.removeTree wf hg
      rw [removed, hr]
      exact without

end LayerPack.Disk
