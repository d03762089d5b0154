import LayerPack.Proofs.Disk.Lookup

/-! Paths that meet no link. Such a path leads to the place that it spells, however it is written;
only a link at the very place may stand there, and it is not followed. -/
namespace LayerPack

open LayerPack.Path

variable {root : Node} {follow : Bool} {place next : Place} {part : Bytes} {parts rest : List Bytes}
  {names : List Name} {walked : Walked}

/-- No link stands above the last of these names. -/
def Node.NoLinkAbove (root : Node) (names : List Name) : Prop :=
  ∀ up target, up <+: names → up ≠ names → root.get? up ≠ some (.link target)

/-- The outcome of a walk that meets no link is about the place with these names. -/
def Walked.At (root : Node) (names : List Name) : Walked → Prop
  | .arrived (.found place node) => place = names ∧ root.get? names = some node
  | .arrived (.absent parent name _) => names = parent ++ [name] ∧ root.get? names = none
  | .failed e => e = .noEntry → root.get? names = none
  | .jump .. => False

namespace Disk

/-- A part that is a name is the first one of the names that are spelled. -/
theorem Looks.spells {found : Option Node} (looks : Looks root place part found)
    (hparts : componentsOf (part :: rest) = names.map .normal) :
    ∃ more, names = part :: more ∧ componentsOf rest = more.map .normal := by
  have hname : componentOf? part = some (.normal part) := by
    rw [componentOf?, if_neg looks.notVoid, if_neg looks.notDotdot]
  rw [componentsOf, List.filterMap_cons_some hname] at hparts
  obtain ⟨name, more, rfl⟩ : ∃ name more, names = name :: more :=
    List.exists_cons_of_ne_nil (by rintro rfl; simp at hparts)
  rw [List.map_cons, List.cons.injEq, Component.normal.injEq] at hparts
  exact ⟨more, by rw [hparts.1], hparts.2⟩

/-- A part takes a walk down by the names that it spells. -/
theorem Stride.spells (stride : Stride root place part next)
    (hparts : componentsOf (part :: rest) = names.map .normal) :
    ∃ down more, names = down ++ more ∧ next = place ++ down ∧ componentsOf rest = more.map .normal := by
  cases stride with
  | stay here void =>
    have hnone : componentOf? part = none := by rw [componentOf?, if_pos void]
    refine ⟨[], names, rfl, (List.append_nil _).symm, ?_⟩
    rw [← hparts]
    exact (List.filterMap_cons_none hnone).symm
  | up here up =>
    have hup : componentOf? part = some .parent := by
      rw [componentOf?, if_neg (by rw [up]; decide), if_pos up]
    rw [componentsOf, List.filterMap_cons_some hup] at hparts
    cases names <;> simp at hparts
  | down looks =>
    obtain ⟨more, rfl, hrest⟩ := looks.spells hparts
    exact ⟨[part], more, rfl, rfl, hrest⟩

/-- Parts without any name spell nothing. -/
theorem names_of_void (last : rest.all (· = []) = true) (hrest : componentsOf rest = names.map .normal) :
    names = [] := by
  have hvoid : rest.filterMap componentOf? = [] := List.filterMap_eq_nil_iff.mpr fun p hp => by
    rw [of_decide_eq_true (List.all_eq_true.mp last p hp)]
    rfl
  rw [componentsOf, hvoid] at hrest
  exact List.map_eq_nil_iff.mp hrest.symm

theorem Halt.spelled (halt : Halt root follow place part rest walked)
    (hparts : componentsOf (part :: rest) = names.map .normal)
    (hlink : ∀ up target, up <+: names → root.get? (place ++ up) = some (.link target) →
      up = names ∧ follow = false ∧ ∀ p ∈ part :: rest, componentOf? p ≠ none) :
    walked.At root (place ++ names) := by
  have below {more : List Name} (looks : Looks root place part none) :
      root.get? (place ++ part :: more) = none := by
    have := Node.look_eq_none.mp looks.found
    rw [← List.singleton_append, ← List.append_assoc, Node.get?_append, this]
    rfl
  -- a link is the last thing that is spelled, and no empty part follows
  have final {target : Bytes} (looks : Looks root place part (some (.link target))) :
      names = [part] ∧ rest = [] ∧ follow = false := by
    obtain ⟨more, rfl, hrest⟩ := looks.spells hparts
    obtain ⟨he, hf, hall⟩ := hlink [part] target (by simp) (Node.look_eq_link.mp looks.found)
    obtain rfl : more = [] := (List.cons.inj he).2.symm
    refine ⟨rfl, List.eq_nil_iff_forall_not_mem.mpr fun p hp => ?_, hf⟩
    have void : rest.filterMap componentOf? = [] := hrest
    exact hall p (List.mem_cons_of_mem _ hp) (List.filterMap_eq_nil_iff.mp void p hp)
  cases halt with
  | nowhere gone =>
    intro _
    rw [Node.get?_append, Node.look_eq_none.mp gone]
    rfl
  | blocked | tooLong => exact fun h => by cases h
  | absent looks last =>
    obtain ⟨more, rfl, hrest⟩ := looks.spells hparts
    obtain rfl := names_of_void last hrest
    exact ⟨rfl, Node.look_eq_none.mp looks.found⟩
  | lost looks =>
    obtain ⟨more, rfl, -⟩ := looks.spells hparts
    exact fun _ => below looks
  | link looks =>
    obtain ⟨rfl, -, -⟩ := final looks
    exact ⟨rfl, Node.look_eq_link.mp looks.found⟩
  | empty looks on | jump looks on => exact (on ⟨(final looks).2.1, by simp [(final looks).2.2]⟩).elim

theorem walk_spelled (hparts : componentsOf parts = names.map .normal)
    (hlink : ∀ up target, up <+: names → root.get? (place ++ up) = some (.link target) →
      up = names ∧ follow = false ∧ ∀ part ∈ parts, componentOf? part ≠ none) :
    (walk root follow place parts).At root (place ++ names) := by
  induction parts generalizing place names with
  | nil =>
    obtain rfl : names = [] := by simpa using hparts.symm
    rw [walk_nil, List.append_nil]
    cases hp : root.get? place with
    | none => exact fun _ => hp
    | some node => exact ⟨rfl, hp⟩
  | cons part rest ih =>
    rcases stride_or_halt root place part with ⟨next, stride⟩ | halts
    · obtain ⟨down, more, rfl, rfl, hrest⟩ := stride.spells hparts
      rw [stride.walk_eq, ← List.append_assoc]
      refine ih hrest fun up target hu ht => ?_
      rw [List.append_assoc] at ht
      obtain ⟨he, hf, hall⟩ := hlink _ target ((List.prefix_append_right_inj down).mpr hu) ht
      exact ⟨List.append_cancel_left he, hf, fun p hp => hall p (List.mem_cons_of_mem _ hp)⟩
    · exact (halts follow rest).spelled hparts hlink

variable {d : Disk} {cwd : Place} {p : Path}

theorem startOf_absolute (hp : p.isAbsolute) : startOf cwd p.bytes = [] := by
  rw [startOf, if_pos (by simpa [isAbsolute] using hp)]

theorem arrived_of_chase {links : Nat} {spot : Spot}
    (hw : (walk root follow place parts).At root names)
    (hc : chase root follow links place parts = .ok spot) :
    walk root follow place parts = .arrived spot := by
  unfold chase at hc
  cases h : walk root follow place parts with
  | arrived => simpa [h] using hc
  | failed => simp [h] at hc
  | jump =>
    rw [h] at hw
    exact hw.elim

/-- The last part of a path is the last name that it spells. -/
theorem spelled_splitLast {name : Name} {slashed : Bool} (hp : p.Spells names)
    (h : splitLast p.bytes = (parts, .name name slashed)) :
    ∃ up, names = up ++ [name] ∧ componentsOf parts = up.map .normal := by
  obtain ⟨hf, -, hn⟩ := splitLast_name h
  have hparts : componentsOf parts ++ [.normal name] = names.map .normal := by
    rw [← hp.parts, ← componentsOf_filter (splitSlash p.bytes), hf,
      componentsOf_concat (componentOf?_name hn)]
  obtain ⟨up, last, rfl, hup, hlast⟩ := List.map_eq_append_iff.mp hparts.symm
  obtain ⟨_, rfl, ⟨⟩⟩ := List.map_eq_singleton_iff.mp hlast
  exact ⟨up, rfl, hup.symm⟩

/-- The directory and the name that a path ends in are those that it spells. -/
theorem lookupParent_spelled {name : Name} {slashed : Bool} (hp : p.Spells names)
    (hl : d.root.NoLinkAbove names)
    (h : d.lookupParent cwd p = .ok (place, .name name slashed)) : names = place ++ [name] := by
  obtain ⟨-, ⟨es, hc⟩, hs, -⟩ := lookupParent_eq_ok.mp h
  rcases hsplit : splitLast p.bytes with ⟨parts, last⟩
  rw [hsplit] at hc hs
  obtain rfl : last = .name name slashed := hs
  obtain ⟨up, rfl, hup⟩ := spelled_splitLast hp hsplit
  have hw : (walk d.root true [] (parts ++ [[]])).At d.root ([] ++ up) := by
    refine walk_spelled (by simp [hup]) fun above target hu ht => ?_
    refine (hl above target (hu.trans (List.prefix_append _ _)) (fun he => ?_) ht).elim
    have := hu.length_le
    rw [he, List.length_append, List.length_singleton] at this
    omega
  rw [startOf_absolute hp.absolute] at hc
  rw [arrived_of_chase hw hc] at hw
  rw [hw.1, List.nil_append]

theorem partsOf_ofNames (h : ∀ name ∈ names, ProperName name) (hne : names ≠ []) :
    partsOf (Path.ofNames names).bytes = names := by
  have hs : splitSlash (Path.ofNames names).bytes = [] :: names := by
    rw [Path.ofNames, splitSlash_slash, splitSlash_joinSlash hne fun name hn => (h name hn).noSlash]
  obtain ⟨front, last, rfl⟩ : ∃ front last, names = front ++ [last] :=
    ⟨_, _, (List.dropLast_concat_getLast hne).symm⟩
  have hfront : front.filter (· ≠ []) = front :=
    List.filter_eq_self.mpr fun name hn => by simp [(h name (by simp [hn])).nonempty]
  rw [partsOf, hs, ← List.cons_append, List.dropLast_concat, List.getLast?_concat]
  exact congrArg (· ++ [last]) hfront

theorem checkPath_ofNames : checkPath (.ofNames names) ≠ .error .noEntry := by
  unfold checkPath
  split
  · exact fun h => by cases h
  · split
    next hb => simp [Path.ofNames] at hb
    · split <;> exact fun h => by cases h

/-- The root is never missing. -/
theorem resolve_ofNames_nil : d.resolve cwd follow (.ofNames []) ≠ .error .noEntry := by
  have hc : d.lookup cwd follow (.ofNames []) = chase d.root follow maxLinks [] [[]] := rfl
  rw [resolve, hc, chase]
  cases d.root with
  | dir es =>
    rw [walk_cons rfl, if_pos (.inl rfl)]
    exact fun h => by cases h
  | file | link => exact fun h => by cases h

/-- Where an absolute path leads if the last link is not followed. -/
theorem resolve_ofNames (cwd : Place) (h : ∀ name ∈ names, ProperName name)
    (hl : d.root.NoLinkAbove names) (hne : names ≠ []) :
    match d.resolve cwd false (.ofNames names) with
    | .ok (place, node) => place = names ∧ d.get? names = some node
    | .error e => e = .noEntry → d.get? names = none := by
  have hw : (walk d.root false [] names).At d.root ([] ++ names) := by
    refine walk_spelled (componentsOf_names h) fun up target hu ht => ?_
    refine ⟨Classical.byContradiction fun hup => hl up target hu hup ht, rfl, fun part hp => ?_⟩
    simp [componentOf?_name (h part hp)]
  rw [resolve, lookup, partsOf_ofNames h hne, startOf_absolute (isAbsolute_ofNames names)]
  cases hc : checkPath (.ofNames names) with
  | error e =>
    rintro rfl
    exact (checkPath_ofNames hc).elim
  | ok =>
    cases hr : chase d.root false maxLinks [] names with
    | error e =>
      rintro rfl
      unfold chase at hr
      cases hwalk : walk d.root false [] names with
      | arrived => simp [hwalk] at hr
      | jump =>
        rw [hwalk] at hw
        exact hw.elim
      | failed e =>
        rw [hwalk] at hw
        exact hw (by simpa [hwalk] using hr)
    | ok spot =>
      rw [arrived_of_chase hw hr] at hw
      cases spot with
      | found place node => exact hw
      | absent => exact fun _ => hw.2

/-- If nothing is said to stand at a path without links, then nothing stands there. -/
theorem missing_of_stat (h : ∀ name ∈ names, ProperName name) (hl : d.root.NoLinkAbove names)
    (hs : d.stat cwd false (.ofNames names) = .error .noEntry) : d.get? names = none := by
  unfold stat at hs
  by_cases hne : names = []
  · subst hne
    cases hr : d.resolve cwd false (.ofNames []) with
    | ok found =>
      rw [hr] at hs
      cases hs
    | error e =>
      rw [hr] at hs
      cases hs
      exact (resolve_ofNames_nil hr).elim
  · have at_ := resolve_ofNames cwd h hl hne
    cases hr : d.resolve cwd false (.ofNames names) with
    | ok found =>
      rw [hr] at hs
      cases hs
    | error e =>
      rw [hr] at hs at_
      cases hs
      exact at_ rfl

end Disk

end LayerPack
