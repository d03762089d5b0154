import LayerPack.Proofs.Disk.Tree

/-! Walking over a disk. Each part takes a walk on to another place, or the walk ends at it. A walk that
gets through depends on nothing but the directories and links that it goes through, so it goes the same
way on every disk that still has them; and its beginning can be taken first, whatever the rest is. -/
namespace LayerPack

variable {root root' : Node} {follow : Bool} {place dest : Place} {part : Bytes}
  {parts rest : List Bytes}

/-- The directories and links of one tree are in another one too. -/
structure Node.KeepsWays (root root' : Node) : Prop where
  dir : ∀ p, root.look p = some (.dir []) → root'.look p = some (.dir [])
  link : ∀ p target, root.look p = some (.link target) → root'.look p = some (.link target)

namespace Node.KeepsWays

variable {root'' : Node}

theorem refl (root : Node) : root.KeepsWays root := ⟨fun _ h => h, fun _ _ h => h⟩

theorem trans (h : root.KeepsWays root') (h' : root'.KeepsWays root'') : root.KeepsWays root'' :=
  ⟨fun p hp => h'.dir p (h.dir p hp), fun p target hp => h'.link p target (h.link p target hp)⟩

/-- What is seen in the one tree is seen in the other one. -/
theorem of_look (h : ∀ p face, root.look p = some face → root'.look p = some face) :
    root.KeepsWays root' := ⟨fun p => h p _, fun p target => h p (.link target)⟩

end Node.KeepsWays

/-- A walk got through to a directory or to a link that is followed. -/
def Walked.Through : Walked → Prop
  | .jump .. | .arrived (.found _ (.dir _)) => True
  | _ => False

/-- A walk that leads nowhere: at most it finds that its last name is missing, and only if no part
with a name is left. -/
def Walked.Lost (rest : List Bytes) : Walked → Prop
  | .failed _ => True
  | .arrived (.absent ..) => ∀ part ∈ rest, part = []
  | _ => False

/-- What a walk arrives at is there, and what it misses is a name that could be there. -/
def Walked.Sound (root : Node) : Walked → Prop
  | .arrived (.found place node) => root.get? place = some node
  | .arrived (.absent parent name _) =>
    (∃ es, root.get? parent = some (.dir es)) ∧ root.get? (parent ++ [name]) = none ∧
      ProperName name
  | .failed _ => True
  | .jump _ parts => ∀ part ∈ parts, slash ∉ part

/-- The outcome of a walk without what lies in the directory that it arrives at. -/
def Walked.face : Walked → Walked
  | .arrived (.found place node) => .arrived (.found place node.face)
  | walked => walked

theorem Walked.eq_of_face_dir {w : Walked}
    (h : w.face = .arrived (.found place (.dir []))) : ∃ es, w = .arrived (.found place (.dir es)) := by
  cases w with
  | failed | jump => cases h
  | arrived spot =>
    cases spot with
    | absent => cases h
    | found place' node =>
      simp only [Walked.face, Walked.arrived.injEq, Spot.found.injEq] at h
      obtain ⟨rfl, h⟩ := h
      cases node with
      | dir es => exact ⟨es, rfl⟩
      | file | link => cases h

theorem Walked.eq_of_face_jump {w : Walked} (h : w.face = .jump place parts) :
    w = .jump place parts := by
  cases w with
  | failed => cases h
  | jump => exact h
  | arrived spot => cases spot <;> cases h

namespace Disk

theorem walk_nil : walk root follow place [] = match root.get? place with
    | some node => .arrived (.found place node)
    | none => .failed .noEntry := by
  cases h : root.get? place <;> simp [walk, h]

theorem walk_cons {es : Entries} (h : root.get? place = some (.dir es)) :
    walk root follow place (part :: rest) =
      if part = [] ∨ part = dot then walk root follow place rest
      else if part = dotdot then walk root follow place.dropLast rest
      else if part.length > maxName then .failed .nameTooLong
      else match root.get? (place ++ [part]) with
        | none =>
          if rest.all (· = []) then .arrived (.absent place part (rest ≠ [])) else .failed .noEntry
        | some (.link target) =>
          if rest = [] ∧ !follow then .arrived (.found (place ++ [part]) (.link target))
          else if target = [] then .failed .noEntry
          else .jump (startOf place target) (partsOf target ++ rest)
        | some _ => walk root follow (place ++ [part]) rest := by
  have hname := Node.get?_name h part
  cases hf : Entries.find? es part with
  | none => simp [walk, h, hname, hf]
  | some node => cases node <;> simp [walk, h, hname, hf]

/-- A name is looked up in the directory at hand. -/
theorem walk_proper {es : Entries} (h : root.get? place = some (.dir es)) (hn : ProperName part) :
    walk root follow place (part :: rest) =
      if part.length > maxName then .failed .nameTooLong
      else match root.get? (place ++ [part]) with
        | none =>
          if rest.all (· = []) then .arrived (.absent place part (rest ≠ [])) else .failed .noEntry
        | some (.link target) =>
          if rest = [] ∧ !follow then .arrived (.found (place ++ [part]) (.link target))
          else if target = [] then .failed .noEntry
          else .jump (startOf place target) (partsOf target ++ rest)
        | some _ => walk root follow (place ++ [part]) rest := by
  rw [walk_cons h, if_neg (not_or.mpr ⟨hn.nonempty, hn.notDot⟩), if_neg hn.notDotdot]

/-- A part is a name, and it is looked for in the directory at a place. -/
structure Looks (root : Node) (place : Place) (part : Bytes) (found : Option Node) : Prop where
  dir : root.look place = some (.dir [])
  notVoid : ¬ (part = [] ∨ part = dot)
  notDotdot : part ≠ dotdot
  short : ¬ part.length > maxName
  found : root.look (place ++ [part]) = found

/-- Where a part takes a walk. -/
inductive Stride (root : Node) (place : Place) (part : Bytes) : Place → Prop
  | stay (dir : root.look place = some (.dir [])) (void : part = [] ∨ part = dot) :
    Stride root place part place
  | up (dir : root.look place = some (.dir [])) (dotdot : part = dotdot) :
    Stride root place part place.dropLast
  | down {node : Node} (looks : Looks root place part (some node))
    (solid : ∀ target, node ≠ .link target) : Stride root place part (place ++ [part])

/-- How a walk ends at a part. -/
inductive Halt (root : Node) (follow : Bool) (place : Place) (part : Bytes) (rest : List Bytes) :
    Walked → Prop
  | nowhere (gone : root.look place = none) : Halt root follow place part rest (.failed .noEntry)
  | blocked {node : Node} (there : root.look place = some node) (noDir : node ≠ .dir []) :
    Halt root follow place part rest (.failed .notDirectory)
  | tooLong (dir : root.look place = some (.dir [])) (notVoid : ¬ (part = [] ∨ part = dot))
    (notDotdot : part ≠ dotdot) (long : part.length > maxName) :
    Halt root follow place part rest (.failed .nameTooLong)
  | absent (looks : Looks root place part none) (last : rest.all (· = []) = true) :
    Halt root follow place part rest (.arrived (.absent place part (rest ≠ [])))
  | lost (looks : Looks root place part none) (more : ¬ rest.all (· = []) = true) :
    Halt root follow place part rest (.failed .noEntry)
  | link {target : Bytes} (looks : Looks root place part (some (.link target)))
    (last : rest = [] ∧ !follow) :
    Halt root follow place part rest (.arrived (.found (place ++ [part]) (.link target)))
  | empty (looks : Looks root place part (some (.link []))) (on : ¬ (rest = [] ∧ !follow)) :
    Halt root follow place part rest (.failed .noEntry)
  | jump {target : Bytes} (looks : Looks root place part (some (.link target)))
    (on : ¬ (rest = [] ∧ !follow)) (whole : target ≠ []) :
    Halt root follow place part rest (.jump (startOf place target) (partsOf target ++ rest))

variable {next : Place} {walked : Walked}

theorem Looks.elsewhere {found found' : Option Node} (h : Looks root place part found)
    (dir : root'.look place = some (.dir [])) (there : root'.look (place ++ [part]) = found') :
    Looks root' place part found' := ⟨dir, h.notVoid, h.notDotdot, h.short, there⟩

theorem Looks.walk_eq {found : Option Node} (h : Looks root place part found) :
    walk root follow place (part :: rest) = match root.get? (place ++ [part]) with
      | none =>
        if rest.all (· = []) then .arrived (.absent place part (rest ≠ [])) else .failed .noEntry
      | some (.link target) =>
        if rest = [] ∧ !follow then .arrived (.found (place ++ [part]) (.link target))
        else if target = [] then .failed .noEntry
        else .jump (startOf place target) (partsOf target ++ rest)
      | some _ => walk root follow (place ++ [part]) rest := by
  obtain ⟨-, es, he⟩ := Node.look_eq_dir.mp h.dir
  rw [walk_cons he, if_neg h.notVoid, if_neg h.notDotdot, if_neg h.short]

theorem Looks.walk_link {target : Bytes} (h : Looks root place part (some (.link target))) :
    walk root follow place (part :: rest) =
      if rest = [] ∧ !follow then .arrived (.found (place ++ [part]) (.link target))
      else if target = [] then .failed .noEntry
      else .jump (startOf place target) (partsOf target ++ rest) := by
  rw [h.walk_eq, Node.look_eq_link.mp h.found]

theorem Stride.dir (h : Stride root place part next) : root.look place = some (.dir []) := by
  cases h with
  | stay dir | up dir => exact dir
  | down looks => exact looks.dir

/-- Where a part takes a walk does not depend on the tree. -/
theorem Stride.next_eq (h : Stride root place part next) :
    next = if part = [] ∨ part = dot then place else if part = dotdot then place.dropLast
      else place ++ [part] := by
  cases h with
  | stay _ void => rw [if_pos void]
  | up _ dotdot => rw [if_neg (by rw [dotdot]; decide), if_pos dotdot]
  | down looks => rw [if_neg looks.notVoid, if_neg looks.notDotdot]

theorem Stride.not_link (h : Stride root place part next) {target : Bytes}
    (looks : Looks root place part (some (.link target))) : False := by
  cases h with
  | stay _ void => exact looks.notVoid void
  | up _ dotdot => exact looks.notDotdot dotdot
  | down looks' solid => exact solid target (Option.some.inj (looks'.found.symm.trans looks.found))

/-- A part takes a walk the same way in another tree, if no link stands where it goes there. -/
theorem Stride.elsewhere {node : Node} (h : Stride root place part next)
    (dir : root'.look place = some (.dir [])) (there : root'.look next = some node)
    (solid : ∀ target, node ≠ .link target) : Stride root' place part next := by
  cases h with
  | stay _ void => exact .stay dir void
  | up _ dotdot => exact .up dir dotdot
  | down looks => exact .down (looks.elsewhere dir there) solid

theorem Stride.walk_eq (h : Stride root place part next) (follow : Bool) (rest : List Bytes) :
    walk root follow place (part :: rest) = walk root follow next rest := by
  cases h with
  | stay dir void =>
    obtain ⟨-, es, he⟩ := Node.look_eq_dir.mp dir
    rw [walk_cons he, if_pos void]
  | up dir dotdot =>
    obtain ⟨-, es, he⟩ := Node.look_eq_dir.mp dir
    rw [walk_cons he, if_neg (by rw [dotdot]; decide), if_pos dotdot]
  | down looks solid =>
    obtain ⟨node, hn, rfl⟩ := Option.map_eq_some_iff.mp looks.found
    rw [looks.walk_eq, hn]
    cases node with
    | file | dir => rfl
    | link target => exact (solid target rfl).elim

theorem Halt.walk_eq (h : Halt root follow place part rest walked) :
    walk root follow place (part :: rest) = walked := by
  cases h with
  | nowhere gone => simp [walk, Node.look_eq_none.mp gone]
  | blocked there noDir =>
    obtain ⟨node, hn, rfl⟩ := Option.map_eq_some_iff.mp there
    cases node with
    | file | link => simp [walk, hn]
    | dir => exact (noDir rfl).elim
  | tooLong dir notVoid notDotdot long =>
    obtain ⟨-, es, he⟩ := Node.look_eq_dir.mp dir
    rw [walk_cons he, if_neg notVoid, if_neg notDotdot, if_pos long]
  | absent looks last => rw [looks.walk_eq, Node.look_eq_none.mp looks.found, if_pos last]
  | lost looks more => rw [looks.walk_eq, Node.look_eq_none.mp looks.found, if_neg more]
  | link looks last => rw [looks.walk_link, if_pos last]
  | empty looks on => rw [looks.walk_link, if_neg on, if_pos rfl]
  | jump looks on whole => rw [looks.walk_link, if_neg on, if_neg whole]

/-- A part takes a walk to the next place whatever follows, or the walk ends at it. -/
theorem stride_or_halt (root : Node) (place : Place) (part : Bytes) :
    (∃ next, Stride root place part next) ∨
      ∀ follow rest, Halt root follow place part rest (walk root follow place (part :: rest)) := by
  have halts (h : ∀ follow rest, ∃ walked, Halt root follow place part rest walked) :
      ∀ follow rest, Halt root follow place part rest (walk root follow place (part :: rest)) :=
    fun follow rest => (h follow rest).elim fun _ halt => halt.walk_eq.symm ▸ halt
  cases here : root.look place with
  | none => exact .inr (halts fun _ _ => ⟨_, .nowhere here⟩)
  | some node =>
    by_cases dir : node = .dir []
    case neg => exact .inr (halts fun _ _ => ⟨_, .blocked here dir⟩)
    subst dir
    by_cases void : part = [] ∨ part = dot
    · exact .inl ⟨_, .stay here void⟩
    by_cases up : part = dotdot
    · exact .inl ⟨_, .up here up⟩
    by_cases long : part.length > maxName
    · exact .inr (halts fun _ _ => ⟨_, .tooLong here void up long⟩)
    have looks : Looks root place part (root.look (place ++ [part])) := ⟨here, void, up, long, rfl⟩
    cases there : root.look (place ++ [part]) with
    | none =>
      rw [there] at looks
      refine .inr (halts fun _ rest => ?_)
      by_cases last : rest.all (· = []) = true
      · exact ⟨_, .absent looks last⟩
      · exact ⟨_, .lost looks last⟩
    | some node =>
      rw [there] at looks
      cases node with
      | file | dir => exact .inl ⟨_, .down looks (by simp)⟩
      | link target =>
        refine .inr (halts fun follow rest => ?_)
        by_cases last : rest = [] ∧ !follow
        · exact ⟨_, .link looks last⟩
        by_cases whole : target = []
        · subst whole
          exact ⟨_, .empty looks last⟩
        · exact ⟨_, .jump looks last whole⟩

/-- A walk that gets through starts in a directory. -/
theorem dir_of_through (h : (walk root follow place parts).Through) :
    ∃ es, root.get? place = some (.dir es) := by
  cases hp : root.get? place with
  | none =>
    cases parts <;> simp [walk, hp, Walked.Through] at h
  | some node =>
    cases node with
    | dir es => exact ⟨es, rfl⟩
    | file | link => cases parts <;> simp [walk, hp, Walked.Through] at h

theorem look_of_through (h : (walk root follow place parts).Through) :
    root.look place = some (.dir []) := (dir_of_through h).elim fun _ => Node.look_of_get?

theorem notMem_of_mem_partsOf {b part : Bytes} (h : part ∈ partsOf b) : slash ∉ part := by
  rw [partsOf, List.mem_append] at h
  rcases h with h | h
  · exact notMem_of_mem_splitSlash (List.dropLast_subset _ (List.mem_filter.mp h).1)
  · exact notMem_of_mem_splitSlash (List.mem_of_getLast? (by simpa using h))

theorem Halt.sound (h : Halt root follow place part rest walked)
    (hs : ∀ p ∈ part :: rest, slash ∉ p) : walked.Sound root := by
  cases h with
  | nowhere | blocked | tooLong | lost | empty => trivial
  | absent looks =>
    obtain ⟨nonempty, notDot⟩ := not_or.mp looks.notVoid
    exact ⟨(Node.look_eq_dir.mp looks.dir).2, Node.look_eq_none.mp looks.found, nonempty,
      hs part List.mem_cons_self, notDot, looks.notDotdot⟩
  | link looks => exact Node.look_eq_link.mp looks.found
  | jump =>
    intro p hp
    rcases List.mem_append.mp hp with hp | hp
    · exact notMem_of_mem_partsOf hp
    · exact hs p (List.mem_cons_of_mem _ hp)

theorem walk_sound (hs : ∀ part ∈ parts, slash ∉ part) :
    (walk root follow place parts).Sound root := by
  induction parts generalizing place with
  | nil =>
    rw [walk_nil]
    cases hp : root.get? place with
    | none => trivial
    | some node => exact hp
  | cons part rest ih =>
    rcases stride_or_halt root place part with ⟨next, stride⟩ | halts
    · rw [stride.walk_eq]
      exact ih fun p hp => hs p (List.mem_cons_of_mem _ hp)
    · exact (halts follow rest).sound hs

theorem chase_sound {links : Nat} {spot : Spot} (hs : ∀ part ∈ parts, slash ∉ part)
    (h : chase root follow links place parts = .ok spot) : (Walked.arrived spot).Sound root := by
  fun_induction chase root follow links place parts with
  | case1 links place parts spot' hw =>
    obtain rfl := Except.ok.inj h
    exact hw ▸ walk_sound hs
  | case2 => cases h
  | case3 => cases h
  | case4 place parts start parts' hw left ih =>
    have sound : (walk root follow place parts).Sound root := walk_sound hs
    rw [hw] at sound
    exact ih sound h

theorem Stride.keeps (h : root.KeepsWays root') (stride : Stride root place part next)
    (dir : root.look next = some (.dir [])) : Stride root' place part next :=
  stride.elsewhere (h.dir _ stride.dir) (h.dir _ dir) (by simp)

/-- A walk that gets through and ends at a part is led on by a link. -/
theorem Halt.jumps (halt : Halt root follow place part rest walked) (ht : walked.Through) :
    ∃ target, Looks root place part (some (.link target)) ∧ ¬ (rest = [] ∧ !follow) ∧ target ≠ [] ∧
      walked = .jump (startOf place target) (partsOf target ++ rest) := by
  cases halt with
  | jump looks on whole => exact ⟨_, looks, on, whole, rfl⟩
  | nowhere | blocked | tooLong | absent | lost | link | empty => exact ht.elim

theorem Looks.keeps (h : root.KeepsWays root') {target : Bytes}
    (looks : Looks root place part (some (.link target))) :
    Looks root' place part (some (.link target)) :=
  looks.elsewhere (h.dir _ looks.dir) (h.link _ _ looks.found)

/-- A walk that gets through goes the same way where its directories and links are kept. -/
theorem walk_keeps (h : root.KeepsWays root') (ht : (walk root follow place parts).Through) :
    (walk root' follow place parts).face = (walk root follow place parts).face := by
  induction parts generalizing place with
  | nil =>
    obtain ⟨es, he⟩ := dir_of_through ht
    obtain ⟨-, es', he'⟩ := Node.look_eq_dir.mp (h.dir place (Node.look_of_get? he))
    rw [walk_nil, walk_nil, he, he']
    rfl
  | cons part rest ih =>
    rcases stride_or_halt root place part with ⟨next, stride⟩ | halts
    · rw [stride.walk_eq] at ht ⊢
      rw [(stride.keeps h (look_of_through ht)).walk_eq]
      exact ih ht
    · obtain ⟨target, looks, on, whole, hw⟩ := (halts follow rest).jumps ht
      rw [hw, (Halt.jump (looks.keeps h) on whole).walk_eq]

theorem walk_keeps_dir (h : root.KeepsWays root') {es : Entries}
    (hw : walk root follow place parts = .arrived (.found dest (.dir es))) :
    ∃ es', walk root' follow place parts = .arrived (.found dest (.dir es')) := by
  refine Walked.eq_of_face_dir ((walk_keeps h ?_).trans ?_) <;> rw [hw]
  · trivial
  · rfl

theorem walk_keeps_jump (h : root.KeepsWays root')
    (hw : walk root follow place parts = .jump dest rest) :
    walk root' follow place parts = .jump dest rest := by
  refine Walked.eq_of_face_jump ((walk_keeps h ?_).trans ?_) <;> rw [hw]
  · trivial
  · rfl

/-- Where a way leads to a directory, it still does. -/
theorem chase_keeps (h : root.KeepsWays root') {links : Nat} {es : Entries}
    (hc : chase root follow links place parts = .ok (.found dest (.dir es))) :
    ∃ es', chase root' follow links place parts = .ok (.found dest (.dir es')) := by
  fun_induction chase root follow links place parts with
  | case1 links place parts spot hw =>
    obtain rfl := Except.ok.inj hc
    obtain ⟨es', hw'⟩ := walk_keeps_dir h hw
    exact ⟨es', by rw [chase, hw']⟩
  | case2 => cases hc
  | case3 => cases hc
  | case4 place parts start parts' hw left ih =>
    obtain ⟨es', hc'⟩ := ih hc
    refine ⟨es', ?_⟩
    rw [chase, walk_keeps_jump h hw]
    exact hc'

theorem lost_of_not_dir (h : ∀ es, root.get? place ≠ some (.dir es)) (hr : parts ≠ []) :
    (walk root follow place parts).Lost rest := by
  obtain ⟨part, more, rfl⟩ := List.exists_cons_of_ne_nil hr
  cases hp : root.get? place with
  | none => simp [walk, hp, Walked.Lost]
  | some node =>
    cases node with
    | dir es => exact (h es hp).elim
    | file | link => simp [walk, hp, Walked.Lost]

/-- The first parts of a walk take it to a place, or to a link that is followed, or they lead it
nowhere; what the rest is has no part in that. -/
theorem walk_append (root : Node) (place : Place) (parts : List Bytes) :
    (∃ dest, ∀ follow rest, rest ≠ [] →
      walk root follow place (parts ++ rest) = walk root follow dest rest) ∨
    (∃ start parts', ∀ follow rest, rest ≠ [] →
      walk root follow place (parts ++ rest) = .jump start (parts' ++ rest)) ∨
    ∀ follow rest, rest ≠ [] → (walk root follow place (parts ++ rest)).Lost rest := by
  induction parts generalizing place with
  | nil => exact .inl ⟨place, fun _ _ _ => rfl⟩
  | cons part more ih =>
    simp only [List.cons_append]
    rcases stride_or_halt root place part with ⟨next, stride⟩ | halts
    · simpa only [stride.walk_eq] using ih next
    by_cases led : ∃ target, target ≠ [] ∧ Looks root place part (some (.link target))
    · obtain ⟨target, whole, looks⟩ := led
      refine .inr (.inl ⟨startOf place target, partsOf target ++ more, fun follow rest hr => ?_⟩)
      rw [(Halt.jump looks (by simp [hr]) whole).walk_eq, List.append_assoc]
    · refine .inr (.inr fun follow rest hr => ?_)
      have halt := halts follow (more ++ rest)
      generalize walk root follow place (part :: (more ++ rest)) = walked at halt ⊢
      cases halt with
      | nowhere | blocked | tooLong | lost | empty => trivial
      | absent looks last =>
        intro part hpart
        exact of_decide_eq_true (List.all_eq_true.mp last part (List.mem_append_right _ hpart))
      | link looks last => simp [hr] at last
      | jump looks on whole => exact (led ⟨_, whole, looks⟩).elim

/-- The empty part at the end stands for the directory itself. -/
theorem walk_void (h : (walk root follow place [[]]).Through) :
    ∃ es, root.get? place = some (.dir es) ∧
      walk root follow place [[]] = .arrived (.found place (.dir es)) := by
  obtain ⟨es, he⟩ := dir_of_through h
  refine ⟨es, he, ?_⟩
  rw [walk_cons he, if_pos (.inl rfl), walk_nil, he]

theorem through_of_chase {links : Nat} {es : Entries}
    (hc : chase root follow links place parts = .ok (.found dest (.dir es))) :
    (walk root follow place parts).Through := by
  unfold chase at hc
  cases hw : walk root follow place parts with
  | failed => simp [hw] at hc
  | jump => trivial
  | arrived spot =>
    simp only [hw, Except.ok.injEq] at hc
    rw [hc]
    trivial

theorem chase_void {links : Nat} {es : Entries}
    (hc : chase root follow links place [[]] = .ok (.found dest (.dir es))) :
    place = dest ∧ root.get? dest = some (.dir es) := by
  obtain ⟨es', he, hw⟩ := walk_void (through_of_chase hc)
  unfold chase at hc
  simp only [hw, Except.ok.injEq, Spot.found.injEq, Node.dir.injEq] at hc
  obtain ⟨rfl, rfl⟩ := hc
  exact ⟨rfl, he⟩

theorem chase_of_walk {links : Nat}
    (hw : walk root follow place parts = walk root follow dest rest) :
    chase root follow links place parts = chase root follow links dest rest := by
  unfold chase
  rw [hw]

theorem chase_of_jump {links : Nat} {start : Place} (h : walk root follow place parts = .jump start rest) :
    chase root follow (links + 1) place parts = chase root follow links start rest := by
  rw [chase, h]

theorem chase_dir {links : Nat} {es : Entries} (h : root.get? place = some (.dir es)) :
    chase root follow links place [[]] = .ok (.found place (.dir es)) := by
  unfold chase
  rw [walk_cons h, if_pos (.inl rfl), walk_nil, h]

theorem lost_of_chase {links : Nat} {spot : Spot} (lost : (walk root follow place parts).Lost rest)
    (hc : chase root follow links place parts = .ok spot) : (Walked.arrived spot).Lost rest := by
  unfold chase at hc
  cases hw : walk root follow place parts with
  | failed => simp [hw] at hc
  | jump => exact (hw ▸ lost : Walked.Lost rest (.jump ..)).elim
  | arrived spot' =>
    rw [hw] at hc lost
    exact Except.ok.inj hc ▸ lost

theorem not_lost {spot : Spot} (hr : ∃ part ∈ rest, part ≠ []) : ¬ (Walked.arrived spot).Lost rest := by
  obtain ⟨part, hp, hne⟩ := hr
  cases spot with
  | found => exact id
  | absent => exact fun lost => hne (lost part hp)

theorem not_ok_of_lost {links : Nat} {spot : Spot} (h : (walk root follow place parts).Lost rest)
    (hr : ∃ part ∈ rest, part ≠ []) : chase root follow links place parts ≠ .ok spot :=
  fun hc => not_lost hr (lost_of_chase h hc)

/-- The first parts of a way take it to a place whatever the rest is, or they lead it nowhere. -/
theorem chase_parts (root : Node) (links : Nat) (place : Place) (parts : List Bytes) :
    (∃ left dest, ∀ follow rest, rest ≠ [] →
      chase root follow links place (parts ++ rest) = chase root follow left dest rest) ∨
    ∀ follow rest spot, rest ≠ [] → chase root follow links place (parts ++ rest) = .ok spot →
      (Walked.arrived spot).Lost rest := by
  induction links generalizing place parts with
  | zero =>
    rcases walk_append root place parts with ⟨dest, hw⟩ | ⟨start, parts', hw⟩ | hw
    · exact .inl ⟨0, dest, fun follow rest hr => chase_of_walk (hw follow rest hr)⟩
    · refine .inr fun follow rest spot hr hc => ?_
      unfold chase at hc
      simp [hw follow rest hr] at hc
    · exact .inr fun follow rest spot hr => lost_of_chase (hw follow rest hr)
  | succ links ih =>
    rcases walk_append root place parts with ⟨dest, hw⟩ | ⟨start, parts', hw⟩ | hw
    · exact .inl ⟨links + 1, dest, fun follow rest hr => chase_of_walk (hw follow rest hr)⟩
    · have jumps (follow : Bool) (rest : List Bytes) (hr : rest ≠ []) :
          chase root follow (links + 1) place (parts ++ rest) =
            chase root follow links start (parts' ++ rest) := chase_of_jump (hw follow rest hr)
      rcases ih start parts' with ⟨left, dest, h⟩ | lost
      · exact .inl ⟨left, dest, fun follow rest hr => (jumps follow rest hr).trans (h follow rest hr)⟩
      · refine .inr fun follow rest spot hr hc => lost follow rest spot hr ?_
        exact (jumps follow rest hr).symm.trans hc
    · exact .inr fun follow rest spot hr => lost_of_chase (hw follow rest hr)

/-- A way to a directory is the beginning of every way through it. -/
theorem chase_append {links : Nat} {es : Entries}
    (hc : chase root true links place (parts ++ [[]]) = .ok (.found dest (.dir es))) :
    root.get? dest = some (.dir es) ∧
    ∃ left, ∀ follow rest, rest ≠ [] →
      chase root follow links place (parts ++ rest) = chase root follow left dest rest := by
  rcases chase_parts root links place parts with ⟨left, dest', h⟩ | lost
  · rw [h true [[]] (by simp)] at hc
    obtain ⟨rfl, hd⟩ := chase_void hc
    exact ⟨hd, left, h⟩
  · exact (lost true [[]] _ (by simp) hc).elim

/-- A way that gets anywhere has a directory on the way to each of its named parts. -/
theorem chase_prefix {links : Nat} {spot : Spot} (hr : ∃ part ∈ rest, part ≠ [])
    (hc : chase root follow links place (parts ++ rest) = .ok spot) :
    ∃ dest es, chase root true links place (parts ++ [[]]) = .ok (.found dest (.dir es)) := by
  have hne : rest ≠ [] := hr.elim fun _ h => List.ne_nil_of_mem h.1
  rcases chase_parts root links place parts with ⟨left, dest, h⟩ | lost
  · rw [h follow rest hne] at hc
    by_cases hd : ∃ es, root.get? dest = some (.dir es)
    · obtain ⟨es, he⟩ := hd
      exact ⟨dest, es, by rw [h true [[]] (by simp), chase_dir he]⟩
    · have lost : (walk root follow dest rest).Lost rest :=
        lost_of_not_dir (fun es h => hd ⟨es, h⟩) hne
      exact (not_ok_of_lost lost hr hc).elim
  · exact (not_lost hr (lost follow rest spot hne hc)).elim

/-- Where no directory has a certain name, a path that ends in it leads to a directory in which the
name is missing. -/
theorem chase_missing {name : Name} (hn : ProperName name)
    (missing : ∀ dest, root.get? (dest ++ [name]) = none) {links : Nat} {spot : Spot}
    (hc : chase root follow links place (parts ++ [name]) = .ok spot) :
    ∃ dest es, chase root true links place (parts ++ [[]]) = .ok (.found dest (.dir es)) ∧
      spot = .absent dest name false ∧ name.length ≤ maxName := by
  obtain ⟨dest, es, hdir⟩ := chase_prefix ⟨name, by simp, hn.nonempty⟩ hc
  obtain ⟨he, left, hleft⟩ := chase_append hdir
  rw [hleft follow [name] (by simp)] at hc
  unfold chase at hc
  rw [walk_proper he hn, missing dest] at hc
  by_cases hl : name.length > maxName
  · simp [hl] at hc
  · refine ⟨dest, es, hdir, ?_, Nat.not_lt.mp hl⟩
    simpa [hl] using hc.symm

end Disk

end LayerPack
