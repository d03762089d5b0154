import LayerPack.Proofs.Disk.Alike

/-! Two disks that come to be like a third one, the plan. They lack some of its directories; besides,
they may hold more where the plan has nothing, and there alone they may differ. A way that leads to a
directory on the plan is the same on both of them, or it breaks off on both for the same reason. -/
namespace LayerPack

variable {plan root root' : Node} {counts : Place → Prop} {follow : Bool} {place dest : Place}
  {part : Bytes} {parts : List Bytes}

namespace Node

/-- Where it counts, a tree holds what the plan holds, or nothing where the plan has a directory. -/
def Lacks (counts : Place → Prop) (root plan : Node) : Prop :=
  ∀ p, counts p → root.view p = plan.view p ∨ root.view p = none ∧ plan.view p = some (.dir [])

/-- Two trees lack the same directories of a plan. Where they may differ, the plan has nothing, and the
second tree has no directory. -/
structure Parallel (counts : Place → Prop) (plan root root' : Node) : Prop where
  spare : ∀ p, ¬ counts p → plan.get? p = none
  noDir : ∀ p es, ¬ counts p → root'.get? p ≠ some (.dir es)
  same : ∀ p, counts p → root.view p = root'.view p
  lacks : root.Lacks counts plan

namespace Parallel

theorem counted (h : Parallel counts plan root root') {node : Node} (hp : plan.get? place = some node) :
    counts place := by
  refine Classical.byContradiction fun hc => ?_
  cases (h.spare place hc).symm.trans hp

/-- At a directory of the plan, both trees have nothing or both have a directory. -/
theorem cases_dir (h : Parallel counts plan root root') {es : Entries}
    (hp : plan.get? place = some (.dir es)) :
    (root.get? place = none ∧ root'.get? place = none) ∨
      ∃ es₁ es₂, root.get? place = some (.dir es₁) ∧ root'.get? place = some (.dir es₂) := by
  have same := h.same place (h.counted hp)
  rcases h.lacks place (h.counted hp) with there | ⟨gone, -⟩
  · obtain ⟨es₁, h₁⟩ := dir_of_view there.symm hp
    obtain ⟨es₂, h₂⟩ := dir_of_view same h₁
    exact .inr ⟨es₁, es₂, h₁, h₂⟩
  · have gone := view_eq_none.mp gone
    exact .inl ⟨gone, missing_of_view same gone⟩

/-- A link of the plan is a link of both trees. -/
theorem link (h : Parallel counts plan root root') {target : Bytes}
    (hp : plan.get? place = some (.link target)) :
    root.get? place = some (.link target) ∧ root'.get? place = some (.link target) := by
  have same := h.same place (h.counted hp)
  rcases h.lacks place (h.counted hp) with there | ⟨-, dir⟩
  · have link := link_of_view there.symm hp
    exact ⟨link, link_of_view same link⟩
  · rw [view_of_some hp] at dir
    cases dir

end Parallel

end Node

namespace Disk

theorem walk_of_none (h : root.get? place = none) :
    walk root follow place parts = .failed .noEntry := by
  cases parts <;> simp [walk, h]

/-- A walk that gets through on the plan is the same on both trees, and it gets through only as it does
on the plan. -/
theorem walk_parallel (h : Node.Parallel counts plan root root')
    (ht : (walk plan follow place parts).Through) :
    (walk root follow place parts).outline = (walk root' follow place parts).outline ∧
      ((walk root follow place parts).Through →
        (walk root follow place parts).outline = (walk plan follow place parts).outline) := by
  induction parts generalizing place with
  | nil =>
    obtain ⟨es, he⟩ := dir_of_through ht
    rcases h.cases_dir he with ⟨h₁, h₂⟩ | ⟨es₁, es₂, h₁, h₂⟩
    · rw [walk_of_none h₁, walk_of_none h₂]
      exact ⟨rfl, False.elim⟩
    · simp only [walk_nil, he, h₁, h₂]
      exact ⟨rfl, fun _ => rfl⟩
  | cons part rest ih =>
    obtain ⟨es, he⟩ := dir_of_through ht
    rcases h.cases_dir he with ⟨h₁, h₂⟩ | ⟨es₁, es₂, h₁, h₂⟩
    · rw [walk_of_none h₁, walk_of_none h₂]
      exact ⟨rfl, False.elim⟩
    rw [walk_cons he] at ht
    rw [walk_cons h₁, walk_cons h₂, walk_cons he]
    by_cases hv : part = [] ∨ part = dot
    · simp only [if_pos hv] at ht ⊢
      exact ih ht
    simp only [if_neg hv] at ht ⊢
    by_cases hp : part = dotdot
    · simp only [if_pos hp] at ht ⊢
      exact ih ht
    simp only [if_neg hp] at ht ⊢
    by_cases hl : part.length > maxName
    · rw [if_pos hl] at ht
      exact ht.elim
    simp only [if_neg hl] at ht ⊢
    cases hn : plan.get? (place ++ [part]) with
    | none =>
      rw [hn] at ht
      dsimp only at ht
      split at ht <;> exact ht.elim
    | some node =>
      rw [hn] at ht
      cases node with
      | file =>
        obtain ⟨es, he⟩ := dir_of_through ht
        cases hn.symm.trans he
      | link target =>
        obtain ⟨hl₁, hl₂⟩ := h.link hn
        rw [hl₁, hl₂]
        exact ⟨rfl, fun _ => rfl⟩
      | dir inner =>
        rcases h.cases_dir hn with ⟨hd₁, hd₂⟩ | ⟨es₁, es₂, hd₁, hd₂⟩
        · rw [hd₁, hd₂]
          refine ⟨rfl, fun through => ?_⟩
          dsimp only at through
          split at through <;> exact through.elim
        · rw [hd₁, hd₂]
          exact ih ht

theorem outline_eq_jump {w : Walked} {start : Place} {rest : List Bytes}
    (h : w.outline = .jump start rest) : w = .jump start rest := by
  cases w <;> cases h
  rfl

/-- Where no link is followed, a way ends as the walk does. -/
theorem chase_of_outline {links : Nat}
    (same : (walk root follow place parts).outline = (walk root' follow place parts).outline)
    (stops : ∀ start rest, walk root follow place parts ≠ .jump start rest) :
    (chase root follow links place parts).map Spot.outline =
      (chase root' follow links place parts).map Spot.outline := by
  unfold chase
  cases hw : walk root follow place parts with
  | jump start rest => exact (stops start rest hw).elim
  | failed | arrived =>
    rw [hw] at same
    cases hw' : walk root' follow place parts <;> simp_all [Walked.outline, Except.map]

theorem walk_of_chase {links : Nat} {spot : Spot}
    (stops : ∀ start rest, walk root follow place parts ≠ .jump start rest)
    (hc : chase root follow links place parts = .ok spot) :
    walk root follow place parts = .arrived spot := by
  unfold chase at hc
  cases hw : walk root follow place parts with
  | jump start rest => exact (stops start rest hw).elim
  | failed e =>
    rw [hw] at hc
    cases hc
  | arrived spot' =>
    rw [hw] at hc
    rw [Except.ok.inj hc]

/-- A way that leads to a directory on the plan has the same end on both trees, and it leads to no other
directory there. -/
theorem chase_parallel (h : Node.Parallel counts plan root root') {links : Nat} {es : Entries}
    (hc : chase plan follow links place parts = .ok (.found dest (.dir es))) :
    (chase root follow links place parts).map Spot.outline =
        (chase root' follow links place parts).map Spot.outline ∧
      ∀ dest' es', chase root follow links place parts = .ok (.found dest' (.dir es')) →
        dest' = dest := by
  fun_induction chase plan follow links place parts with
  | case1 links place parts spot hw =>
    obtain rfl := Except.ok.inj hc
    obtain ⟨same, back⟩ := walk_parallel h (by rw [hw]; trivial)
    rw [hw] at back
    have stops (start : Place) (rest : List Bytes) : walk root follow place parts ≠ .jump start rest := by
      intro hr
      rw [hr] at back
      cases back trivial
    refine ⟨chase_of_outline same stops, fun dest' es' hc' => ?_⟩
    rw [walk_of_chase stops hc'] at back
    cases back trivial
    rfl
  | case2 => cases hc
  | case3 => cases hc
  | case4 place parts start parts' hw left ih =>
    obtain ⟨same, back⟩ := walk_parallel h (by rw [hw]; trivial)
    rw [hw] at back
    by_cases jumps : ∃ start rest, walk root follow place parts = .jump start rest
    case neg =>
      have stops (start : Place) (rest : List Bytes) :
          walk root follow place parts ≠ .jump start rest := fun hr => jumps ⟨start, rest, hr⟩
      refine ⟨chase_of_outline same stops, fun dest' es' hc' => ?_⟩
      rw [walk_of_chase stops hc'] at back
      cases back trivial
    obtain ⟨start', rest, hr⟩ := jumps
    rw [hr] at same back
    obtain ⟨rfl, rfl⟩ := Walked.jump.inj (back trivial)
    rw [chase_of_jump hr, chase_of_jump (outline_eq_jump same.symm)]
    exact ih hc

variable {e d d' : Disk} {cwd : Place} {p : Path} {es : Entries}

/-- Two disks lack the same directories of a plan, and where they may differ there is none. -/
def Parallel (counts : Place → Prop) (e d d' : Disk) : Prop :=
  Node.Parallel counts e.root d.root d'.root

namespace Parallel

/-- A directory of the plan is reached from the same directory on both disks, or from none. -/
theorem lookupParent (h : Parallel counts e d d') {found : Place × Last}
    (hp : e.lookupParent cwd p = .ok found) :
    d.lookupParent cwd p = d'.lookupParent cwd p ∧
      ∀ found', d.lookupParent cwd p = .ok found' → found' = found := by
  obtain ⟨place, last⟩ := found
  obtain ⟨-, ⟨es, hc⟩, hl, -⟩ := lookupParent_eq_ok.mp hp
  obtain ⟨same, back⟩ := chase_parallel h hc
  refine ⟨lookupParent_congr same, ?_⟩
  rintro ⟨place', last'⟩ hp'
  obtain ⟨-, ⟨es', hc'⟩, hl', -⟩ := lookupParent_eq_ok.mp hp'
  rw [back _ _ hc', ← hl, hl']

theorem stat (h : Parallel counts e d d') (hp : e.resolve cwd true p = .ok (place, .dir es)) :
    d.stat cwd true p = d'.stat cwd true p := by
  have hl := resolve_ok.mp hp
  unfold lookup at hl
  cases hc : checkPath p with
  | error cause =>
    rw [hc] at hl
    cases hl
  | ok =>
    rw [hc] at hl
    exact stat_congr (lookup_congr (chase_parallel h hl).1)

/-- A directory of the plan is made on both disks. -/
theorem put {parent : Place} {name : Name} {inner : Entries} (h : Parallel counts e d d')
    (hd : d.get? parent = some (.dir es)) (free : d.get? (parent ++ [name]) = none)
    (planned : e.get? (parent ++ [name]) = some (.dir inner)) :
    Parallel counts e (d.put (parent ++ [name]) (.dir [])) (d'.put (parent ++ [name]) (.dir [])) := by
  have at_ {d : Disk} {es : Entries} (hd : d.get? parent = some (.dir es)) (r : Place) :
      (d.put (parent ++ [name]) (.dir [])).root.view (parent ++ [name] ++ r) =
        (Node.dir []).view r := by
    rw [Node.view, get?_root, get?_put_below hd, Node.view]
  have aside {d : Disk} {q : Place} (hq : ¬ parent ++ [name] <+: q) :
      (d.put (parent ++ [name]) (.dir [])).root.view q = d.root.view q :=
    Node.view_of_look (look_put hq)
  obtain ⟨es', hd'⟩ : ∃ es', d'.get? parent = some (.dir es') := by
    refine Node.dir_of_view (h.same parent (Classical.byContradiction fun hc => ?_)) hd
    have below := get?_below_missing (h.spare parent hc) [name]
    cases below.symm.trans planned
  refine ⟨h.spare, fun q inner' hq there => ?_, fun q hq => ?_, fun q hq => ?_⟩
  · by_cases hn : parent ++ [name] <+: q
    · obtain ⟨r, rfl⟩ := hn
      cases r with
      | nil => exact hq (by simpa using Node.Parallel.counted h planned)
      | cons more r =>
        have below : (d'.put (parent ++ [name]) (.dir [])).get? (parent ++ [name] ++ more :: r) = none :=
          get?_put_below hd' _
        cases below.symm.trans there
    · obtain ⟨es, he⟩ := Node.dir_of_view (aside hn) there
      exact h.noDir q es hq he
  · by_cases hn : parent ++ [name] <+: q
    · obtain ⟨r, rfl⟩ := hn
      rw [at_ hd, at_ hd']
    · rw [aside hn, aside hn]
      exact h.same q hq
  · by_cases hn : parent ++ [name] <+: q
    · obtain ⟨r, rfl⟩ := hn
      rw [at_ hd]
      cases r with
      | nil =>
        left
        rw [List.append_nil, Node.view_of_some planned]
        rfl
      | cons more r =>
        -- nothing was below the new directory, so at most directories are missing there
        have gone := Node.view_of_none (get?_below_missing free (more :: r))
        rcases h.lacks _ hq with there | missing
        · exact .inl (gone.symm.trans there)
        · exact .inr ⟨rfl, missing.2⟩
    · rw [aside hn]
      exact h.lacks q hq

/-- What the plan has as a directory can be made on both disks, or for the same reason on none. -/
theorem mkdir (h : Parallel counts e d d') (hp : e.resolve cwd true p = .ok (place, .dir es)) :
    Both (Parallel counts e) (d.mkdir cwd p) (d'.mkdir cwd p) := by
  obtain ⟨parent, last, hplan⟩ := lookupParent_of_lookup (resolve_ok.mp hp)
  obtain ⟨same, back⟩ := h.lookupParent hplan
  unfold Disk.mkdir
  rw [← same]
  cases hd : d.lookupParent cwd p with
  | error cause => exact .error cause
  | ok found =>
    obtain rfl := back found hd
    simp only [bind, Except.bind]
    cases last with
    | dot | dotdot | root => exact .error _
    | name name slashed =>
      dsimp only
      obtain ⟨inner, hi⟩ := dir_of_lookupParent hd
      cases hg : e.get? (parent ++ [name]) with
      | none => exact (not_found_of_empty hplan hg _ hp).elim
      | some node =>
        have counted : counts (parent ++ [name]) := Node.Parallel.counted h hg
        have told := Node.Parallel.same h _ counted
        cases hn : d.get? (parent ++ [name]) with
        | none =>
          rw [show d'.get? (parent ++ [name]) = none from Node.missing_of_view told hn]
          rcases Node.Parallel.lacks h _ counted with there | ⟨-, dir⟩
          · cases (Node.missing_of_view there hn).symm.trans hg
          · have bare : (Node.dir []).view [] = _ := dir.symm
            obtain ⟨below, hb⟩ := Node.dir_of_view bare rfl
            exact .ok (h.put hi hn hb)
        | some other =>
          cases hn' : d'.get? (parent ++ [name]) with
          | none => cases (Node.missing_of_view told.symm hn').symm.trans hn
          | some other' => exact .error _

end Parallel

end Disk

end LayerPack
