import LayerPack.Proofs.Disk.Calls
import LayerPack.Proofs.Path.Descend

/-! Paths below a directory. Wherever a path leads, the names after it are looked up below that
place, so a file of the tree that stands there is found by its path. -/
namespace LayerPack

open LayerPack.Path

variable {root : Node} {place dest : Place} {part : Bytes} {parts rest : List Bytes} {walked : Walked}
  {names more : List Name}

namespace Path

theorem joinSlash_concat {names : List Bytes} (hne : names ≠ []) (name : Bytes) :
    joinSlash (names ++ [name]) = joinSlash names ++ slash :: name := by
  induction names with
  | nil => exact (hne rfl).elim
  | cons first rest ih =>
    cases rest with
    | nil => rfl
    | cons second rest =>
      have := ih (by simp)
      simp only [List.cons_append, joinSlash] at this ⊢
      rw [this, List.append_assoc, List.cons_append]

/-- A name is written after the names above it and a slash. -/
theorem child_ofNames {name : Name} (h : ∀ name ∈ names, ProperName name) (hne : names ≠ [])
    (hn : ProperName name) : (ofNames names).child name = ofNames (names ++ [name]) := by
  have hlast : (ofNames names).bytes.getLast? ≠ some slash := by
    obtain ⟨front, last, rfl⟩ : ∃ front last, names = front ++ [last] :=
      ⟨_, _, (List.dropLast_concat_getLast hne).symm⟩
    have proper := h last (by simp)
    obtain ⟨before, hb⟩ : ∃ before, (ofNames (front ++ [last])).bytes = before ++ last := by
      by_cases hf : front = []
      · exact ⟨[slash], by rw [hf]; rfl⟩
      · exact ⟨slash :: (joinSlash front ++ [slash]), by simp [ofNames, joinSlash_concat hf]⟩
    obtain ⟨init, x, hx⟩ : ∃ init x, last = init ++ [x] :=
      ⟨_, _, (List.dropLast_concat_getLast proper.nonempty).symm⟩
    rw [hb, hx, ← List.append_assoc, List.getLast?_concat]
    intro he
    exact proper.noSlash (by simp [hx, Option.some.inj he])
  rw [child, join, isAbsolute_name hn, if_neg (by simp), if_neg (not_or.mpr ⟨by simp [ofNames], hlast⟩)]
  simp [ofNames, joinSlash_concat hne]

/-- A path that is written by its names ends in the last of them, after what the others write. -/
theorem ofNames_concat (up : List Name) : ∃ slashes : Bytes, ∀ name,
    (ofNames (up ++ [name])).bytes = (ofNames up).bytes ++ slashes ++ name := by
  by_cases hu : up = []
  · exact ⟨[], fun name => by rw [hu]; rfl⟩
  · exact ⟨[slash], fun name => by simp [ofNames, joinSlash_concat hu]⟩

/-- The directory above a name is written by the names above it. -/
theorem parent?_ofNames {name : Name} (h : ∀ n ∈ names ++ [name], ProperName n) :
    (ofNames (names ++ [name])).parent? = some (ofNames names) := by
  have void {names : List Name} (h : ∀ n ∈ names, ProperName n) : dropVoid names = names := by
    rcases List.eq_nil_or_concat names with rfl | ⟨front, last, rfl⟩
    · rfl
    · have proper := h last (by simp)
      simp [dropVoid, componentOf?_name proper]
  have parts : splitSlash (joinSlash (names ++ [name])) = names ++ [name] :=
    splitSlash_joinSlash (by simp) fun n hn => (h n hn).noSlash
  have head : splitHead (ofNames (names ++ [name])).bytes = ([slash], joinSlash (names ++ [name])) :=
    rfl
  rw [parent?, head]
  dsimp only
  rw [parts, void h]
  split
  next he => simp at he
  next =>
    rw [List.dropLast_concat, void fun n hn => h n (by simp [hn])]
    rfl

/-- A name takes the place of the last one. -/
theorem withFileName_ofNames {name other : Name} (h : ∀ n ∈ names ++ [name], ProperName n)
    (hn : ProperName other) :
    (ofNames (names ++ [name])).withFileName other = ofNames (names ++ [other]) := by
  rw [withFileName, (Spells.ofNames h).fileName?, parent?_ofNames h]
  dsimp only
  by_cases hne : names = []
  · subst hne
    rw [child, join, isAbsolute_name hn, if_neg (by simp), if_pos (.inr rfl)]
    rfl
  · exact child_ofNames (fun n hm => h n (by simp [hm])) hne hn

theorem descend_ofNames (h : ∀ name ∈ names, ProperName name) (hne : names ≠ [])
    (hm : ∀ name ∈ more, ProperName name) :
    (ofNames names).descend more = ofNames (names ++ more) := by
  induction more generalizing names with
  | nil => rw [List.append_nil]; rfl
  | cons name rest ih =>
    have hn := hm name List.mem_cons_self
    have hr : ∀ n ∈ rest, ProperName n := fun n h => hm n (List.mem_cons_of_mem _ h)
    rw [descend, List.foldl_cons, child_ofNames h hne hn]
    refine (ih ?_ (by simp) hr).trans (by rw [List.append_assoc]; rfl)
    intro n hn'
    rcases List.mem_append.mp hn' with hn' | hn'
    · exact h n hn'
    · exact List.mem_singleton.mp hn' ▸ hn

end Path

namespace Disk

/-- A slash after the path of a directory or of a link that is followed changes nothing. -/
theorem walk_slash (h : (walk root true place parts).Through) :
    walk root true place (parts ++ [[]]) = match walk root true place parts with
      | .jump start rest => .jump start (rest ++ [[]])
      | walked => walked := by
  induction parts generalizing place with
  | nil =>
    obtain ⟨es, he⟩ := dir_of_through h
    rw [List.nil_append, walk_cons he, if_pos (.inl rfl), walk_nil, he]
  | cons part rest ih =>
    rw [List.cons_append]
    rcases stride_or_halt root place part with ⟨next, stride⟩ | halts
    · rw [stride.walk_eq] at h
      rw [stride.walk_eq, stride.walk_eq]
      exact ih h
    · obtain ⟨target, looks, -, whole, hw⟩ := (halts true rest).jumps h
      rw [hw, (Halt.jump looks (by simp) whole).walk_eq, ← List.append_assoc]

theorem chase_slash {links : Nat} {es : Entries}
    (h : chase root true links place parts = .ok (.found dest (.dir es))) :
    chase root true links place (parts ++ [[]]) = .ok (.found dest (.dir es)) := by
  fun_induction chase root true links place parts with
  | case1 links place parts spot hw =>
    obtain rfl := Except.ok.inj h
    have slashed : walk root true place (parts ++ [[]]) = _ := walk_slash (hw ▸ trivial)
    rw [hw] at slashed
    rw [chase, slashed]
  | case2 | case3 => cases h
  | case4 place parts start rest hw left ih =>
    have slashed : walk root true place (parts ++ [[]]) = _ := walk_slash (hw ▸ trivial)
    rw [hw] at slashed
    rw [chase_of_jump slashed]
    exact ih h

theorem walk_unslash (ht : (walk root true place (parts ++ [[]])).Through) :
    (∃ start rest, walk root true place (parts ++ [[]]) = .jump start (rest ++ [[]]) ∧
      walk root true place parts = .jump start rest) ∨
      walk root true place parts = walk root true place (parts ++ [[]]) := by
  induction parts generalizing place with
  | nil =>
    obtain ⟨es, he, hw⟩ := walk_void ht
    rw [List.nil_append, hw, walk_nil, he]
    exact .inr rfl
  | cons part rest ih =>
    rw [List.cons_append] at ht ⊢
    rcases stride_or_halt root place part with ⟨next, stride⟩ | halts
    · rw [stride.walk_eq] at ht
      rw [stride.walk_eq, stride.walk_eq]
      exact ih ht
    · obtain ⟨target, looks, -, whole, hw⟩ := (halts true (rest ++ [[]])).jumps ht
      refine .inl ⟨_, partsOf target ++ rest, ?_, (Halt.jump looks (by simp) whole).walk_eq⟩
      rw [hw, List.append_assoc]

/-- A way to a directory needs no slash at its end. -/
theorem chase_unslash {links : Nat} {es : Entries}
    (hc : chase root true links place (parts ++ [[]]) = .ok (.found dest (.dir es))) :
    chase root true links place parts = .ok (.found dest (.dir es)) := by
  induction links generalizing place parts with
  | zero =>
    rcases walk_unslash (through_of_chase hc) with ⟨start, rest, hw, -⟩ | hw
    · unfold chase at hc
      simp [hw] at hc
    · rw [chase_of_walk hw, hc]
  | succ links ih =>
    rcases walk_unslash (through_of_chase hc) with ⟨start, rest, hw, hw'⟩ | hw
    · rw [chase_of_jump hw] at hc
      rw [chase_of_jump hw']
      exact ih hc
    · rw [chase_of_walk hw, hc]

variable {d : Disk} {cwd : Place}

theorem chase_of_lookup {follow : Bool} {spot : Spot} (h : ∀ name ∈ names, ProperName name)
    (hne : names ≠ []) (hl : d.lookup cwd follow (.ofNames names) = .ok spot) :
    chase d.root follow maxLinks [] names = .ok spot := by
  rw [lookup, partsOf_ofNames h hne, startOf_absolute (isAbsolute_ofNames names)] at hl
  cases hc : checkPath (.ofNames names) with
  | error e =>
    rw [hc] at hl
    cases hl
  | ok =>
    rw [hc] at hl
    exact hl

/-- A path is found by its parts from where it starts. -/
theorem lookup_eq_ok {follow : Bool} {p : Path} {spot : Spot} :
    d.lookup cwd follow p = .ok spot ↔ checkPath p = .ok () ∧
      chase d.root follow maxLinks (startOf cwd p.bytes) (partsOf p.bytes) = .ok spot := by
  unfold lookup
  cases hc : checkPath p with
  | error e => simp [bind, Except.bind]
  | ok => simp [bind, Except.bind]

theorem checkPath_nonempty {p : Path} (h : checkPath p = .ok ()) : p.bytes ≠ [] := by
  intro hb
  simp [checkPath, hb] at h

theorem checkPath_prefix {p q : Path} (hne : p.bytes ≠ []) (hp : p.bytes <+: q.bytes)
    (h : checkPath q = .ok ()) : checkPath p = .ok () := by
  obtain ⟨rest, hrest⟩ := hp
  unfold checkPath at h ⊢
  rw [← hrest] at h
  simp only [List.contains_iff_mem, List.mem_append, List.length_append] at h ⊢
  split at h
  · cases h
  next hnul =>
    split at h
    · cases h
    · split at h
      · cases h
      next hlong =>
        rw [if_neg fun hp => hnul (.inl hp), if_neg hne, if_neg (by omega)]

theorem checkPath_of_lookup {follow : Bool} {p : Path} {spot : Spot}
    (h : d.lookup cwd follow p = .ok spot) : checkPath p = .ok () := by
  unfold lookup at h
  cases hc : checkPath p with
  | error e =>
    rw [hc] at h
    cases h
  | ok => rfl

/-- A file of a directory is found by its path, if anything is found by it. -/
theorem resolve_descend {es : Entries} {id mode : Nat} {content : ByteArray} {p : Path}
    {found : Place × Node} (hroot : d.resolve cwd true p = .ok (place, .dir es))
    (hm : ∀ name ∈ more, ProperName name)
    (hg : d.get? (place ++ more) = some (.file id mode content))
    (hok : d.resolve cwd true (p.descend more) = .ok found) :
    found = (place ++ more, .file id mode content) := by
  obtain ⟨hcheck, hchase⟩ := lookup_eq_ok.mp (resolve_ok.mp hroot)
  have hmore : more ≠ [] := by
    rintro rfl
    rw [List.append_nil] at hg
    cases (lookup_sound (resolve_ok.mp hroot)).symm.trans hg
  obtain ⟨hhead, front, hfront, hp⟩ := partsOf_descend (checkPath_nonempty hcheck) hm hmore
  have hstart : startOf cwd (p.descend more).bytes = startOf cwd p.bytes := by
    rw [startOf, startOf, hhead]
  have hdir : chase d.root true maxLinks (startOf cwd p.bytes) (front ++ [[]]) =
      .ok (.found place (.dir es)) := by
    rcases hp with hp | hp
    · rw [hp] at hchase
      exact chase_slash hchase
    · rwa [hp] at hchase
  obtain ⟨-, left, hleft⟩ := chase_append hdir
  obtain ⟨-, hfound⟩ := lookup_eq_ok.mp (resolve_ok.mp hok)
  rw [hstart, hfront, hleft true more hmore] at hfound
  have hw : (walk d.root true place more).At d.root (place ++ more) := by
    refine walk_spelled (componentsOf_names hm) fun up target hu ht => ?_
    obtain ⟨rest, rfl⟩ := hu
    rw [← List.append_assoc, ← get?_root, Node.get?_append, ht] at hg
    cases rest <;> cases hg
  rw [arrived_of_chase hw hfound] at hw
  obtain ⟨hp, hn⟩ := hw
  exact Prod.ext hp (Option.some.inj (hn.symm.trans hg))

theorem Halt.follow (halt : Halt root false place part rest walked) :
    Halt root true place part rest walked ∨
      ∃ dest target, walked = .arrived (.found dest (.link target)) := by
  cases halt with
  | nowhere gone => exact .inl (.nowhere gone)
  | blocked there noDir => exact .inl (.blocked there noDir)
  | tooLong dir notVoid notDotdot long => exact .inl (.tooLong dir notVoid notDotdot long)
  | absent looks last => exact .inl (.absent looks last)
  | lost looks more => exact .inl (.lost looks more)
  | link => exact .inr ⟨_, _, rfl⟩
  | empty looks => exact .inl (.empty looks (by simp))
  | jump looks _ whole => exact .inl (.jump looks (by simp) whole)

/-- Only at a link it matters whether the last link is followed. -/
theorem walk_follow (root : Node) (place : Place) (parts : List Bytes) :
    walk root true place parts = walk root false place parts ∨
      ∃ dest target, walk root false place parts = .arrived (.found dest (.link target)) := by
  induction parts generalizing place with
  | nil => exact .inl (by rw [walk_nil, walk_nil])
  | cons part rest ih =>
    rcases stride_or_halt root place part with ⟨next, stride⟩ | halts
    · rw [stride.walk_eq, stride.walk_eq]
      exact ih next
    · exact (halts false rest).follow.imp_left Halt.walk_eq

theorem chase_follow {links : Nat} {node : Node}
    (h : chase root false links place parts = .ok (.found dest node)) (hl : node.isLink = false) :
    chase root true links place parts = .ok (.found dest node) := by
  fun_induction chase root false links place parts with
  | case1 links place parts spot hw =>
    obtain rfl := Except.ok.inj h
    rcases walk_follow root place parts with same | ⟨_, _, link⟩
    · rw [chase, same, hw]
    · cases hw.symm.trans link
      cases hl
  | case2 | case3 => cases h
  | case4 place parts start rest hw left ih =>
    rcases walk_follow root place parts with same | ⟨_, _, link⟩
    · rw [chase_of_jump (same.trans hw)]
      exact ih h
    · cases hw.symm.trans link

theorem resolve_follow {p : Path} {node : Node} (h : d.resolve cwd false p = .ok (place, node))
    (hl : node.isLink = false) : d.resolve cwd true p = .ok (place, node) := by
  have hlook := resolve_ok.mp h
  rw [resolve_ok]
  unfold lookup at hlook ⊢
  cases hc : checkPath p with
  | error e =>
    rw [hc] at hlook
    cases hlook
  | ok =>
    rw [hc] at hlook
    exact chase_follow hlook hl

/-- What is found by following a link at the end is named by the path, too. -/
theorem chase_unfollowed {links : Nat} {node : Node}
    (h : chase root true links place parts = .ok (.found dest node)) :
    ∃ dest node, chase root false links place parts = .ok (.found dest node) := by
  induction links generalizing place parts with
  | zero =>
    rcases walk_follow root place parts with hw | ⟨dest, target, hw⟩
    · unfold chase at h ⊢
      exact ⟨dest, node, hw ▸ h⟩
    · exact ⟨dest, .link target, by rw [chase, hw]⟩
  | succ links ih =>
    rcases walk_follow root place parts with hw | ⟨dest, target, hw⟩
    · unfold chase at h ⊢
      rw [← hw]
      cases hj : walk root true place parts with
      | arrived spot =>
        rw [hj] at h
        exact ⟨dest, node, h⟩
      | failed =>
        rw [hj] at h
        cases h
      | jump start rest =>
        rw [hj] at h
        exact ih h
    · exact ⟨dest, .link target, by rw [chase, hw]⟩

theorem exists_resolve {p : Path} {found : Place × Node} (h : d.resolve cwd true p = .ok found) :
    ∃ found, d.resolve cwd false p = .ok found := by
  obtain ⟨hc, chased⟩ := lookup_eq_ok.mp (resolve_ok.mp h)
  obtain ⟨dest, node, chased⟩ := chase_unfollowed chased
  exact ⟨(dest, node), resolve_ok.mpr (lookup_eq_ok.mpr ⟨hc, chased⟩)⟩

end Disk

end LayerPack
