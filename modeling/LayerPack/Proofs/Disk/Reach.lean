import LayerPack.Proofs.Disk.Ascent

/-! Paths to directories. Such a path leads to the same place on every disk that has the directories and
links of its way, so when a path gets through on two parts of a disk it gets through on what they have in
common: a way that goes neither through one place nor through another avoids both. -/
namespace LayerPack

variable {root root₀ root₁ root₂ : Node} {follow : Bool} {place dest : Place} {part : Bytes}
  {parts : List Bytes} {names : List Name}

namespace Node

/-- What two trees have in common is in a third one. -/
def Common (root₁ root₂ root : Node) : Prop :=
  ∀ place face, root₁.look place = some face → root₂.look place = some face →
    root.look place = some face

/-- The parts lead from the root to a directory at the place, through links if need be. -/
def Way (root : Node) (parts : List Bytes) (place : Place) : Prop :=
  ∃ es, Disk.chase root true Disk.maxLinks [] (parts ++ [[]]) = .ok (.found place (.dir es))

end Node

namespace Disk

/-- Where a walk gets through on two parts of a tree, it gets through on what these have in common. -/
theorem walk_common (h₁ : root₁.KeepsWays root) (h₂ : root₂.KeepsWays root)
    (common : root₁.Common root₂ root₀) (t₁ : (walk root₁ follow place parts).Through)
    (t₂ : (walk root₂ follow place parts).Through) :
    (walk root₀ follow place parts).face = (walk root₁ follow place parts).face := by
  have here := common place _ (look_of_through t₁) (look_of_through t₂)
  induction parts generalizing place with
  | nil =>
    obtain ⟨es₁, he₁⟩ := dir_of_through t₁
    obtain ⟨-, es₀, he₀⟩ := Node.look_eq_dir.mp here
    rw [walk_nil, walk_nil, he₀, he₁]
    rfl
  | cons part rest ih =>
    rcases stride_or_halt root₁ place part with ⟨next₁, stride₁⟩ | halts₁ <;>
      rcases stride_or_halt root₂ place part with ⟨next₂, stride₂⟩ | halts₂
    · obtain rfl := stride₁.next_eq.trans stride₂.next_eq.symm
      rw [stride₁.walk_eq] at t₁ ⊢
      rw [stride₂.walk_eq] at t₂
      have there := common _ _ (look_of_through t₁) (look_of_through t₂)
      rw [(stride₁.elsewhere here there (by simp)).walk_eq]
      exact ih t₁ t₂ there
    -- there is no directory in the one tree where a link is in the other one
    · rw [stride₁.walk_eq] at t₁
      obtain ⟨target, looks₂, -⟩ := (halts₂ follow rest).jumps t₂
      exact ((stride₁.keeps h₁ (look_of_through t₁)).not_link (looks₂.keeps h₂)).elim
    · rw [stride₂.walk_eq] at t₂
      obtain ⟨target, looks₁, -⟩ := (halts₁ follow rest).jumps t₁
      exact ((stride₂.keeps h₂ (look_of_through t₂)).not_link (looks₁.keeps h₁)).elim
    · obtain ⟨target, looks₁, on, whole, hw⟩ := (halts₁ follow rest).jumps t₁
      obtain ⟨target₂, looks₂, -⟩ := (halts₂ follow rest).jumps t₂
      cases (looks₁.keeps h₁).found.symm.trans (looks₂.keeps h₂).found
      have both := looks₁.elsewhere here (common _ _ looks₁.found looks₂.found)
      rw [hw, (Halt.jump both on whole).walk_eq]

theorem chase_common (h₁ : root₁.KeepsWays root) (h₂ : root₂.KeepsWays root)
    (common : root₁.Common root₂ root₀) {links : Nat} {es₁ es₂ : Entries} {dest₂ : Place}
    (hc₁ : chase root₁ follow links place parts = .ok (.found dest (.dir es₁)))
    (hc₂ : chase root₂ follow links place parts = .ok (.found dest₂ (.dir es₂))) :
    ∃ es₀, chase root₀ follow links place parts = .ok (.found dest (.dir es₀)) := by
  have same := walk_common h₁ h₂ common (through_of_chase hc₁) (through_of_chase hc₂)
  fun_induction chase root₁ follow links place parts with
  | case1 links place parts spot hw =>
    obtain rfl := Except.ok.inj hc₁
    rw [hw] at same
    obtain ⟨es₀, hw₀⟩ := Walked.eq_of_face_dir same
    exact ⟨es₀, by rw [chase, hw₀]⟩
  | case2 => cases hc₁
  | case3 => cases hc₁
  | case4 place parts start parts' hw left ih =>
    have whole := (walk_keeps h₂ (through_of_chase hc₂)).symm
    rw [walk_keeps_jump h₁ hw] at whole
    rw [chase_of_jump (Walked.eq_of_face_jump whole)] at hc₂
    rw [hw] at same
    rw [chase_of_jump (Walked.eq_of_face_jump same)]
    exact ih hc₁ hc₂ (walk_common h₁ h₂ common (through_of_chase hc₁) (through_of_chase hc₂))

end Disk

namespace Node.Way

open Disk

theorem unique {dest' : Place} (h : root.Way parts dest) (h' : root.Way parts dest') : dest = dest' := by
  obtain ⟨es, hc⟩ := h
  obtain ⟨es', hc'⟩ := h'
  cases hc.symm.trans hc'
  rfl

theorem keeps {root' : Node} (h : root.Way parts dest) (ways : root.KeepsWays root') :
    root'.Way parts dest :=
  let ⟨_, hc⟩ := h
  chase_keeps ways hc

theorem dir (h : root.Way parts dest) : ∃ es, root.get? dest = some (.dir es) :=
  let ⟨es, hc⟩ := h
  ⟨es, (chase_append hc).1⟩

/-- A way that gets through gets through as far as it is gone. -/
theorem upTo {more : List Bytes} (named : ∃ part ∈ more, part ≠ []) (h : root.Way (parts ++ more) dest) :
    ∃ place, root.Way parts place := by
  obtain ⟨es, hc⟩ := h
  rw [List.append_assoc] at hc
  refine chase_prefix ?_ hc
  obtain ⟨part, hp, hne⟩ := named
  exact ⟨part, List.mem_append_left _ hp, hne⟩

/-- A way goes on by names where no link stands. -/
theorem onward {more : List Bytes} (h : root.Way parts place) (h' : root.Way (parts ++ more) dest)
    (hm : Path.componentsOf more = names.map .normal)
    (noLink : ∀ rest target, root.get? (place ++ rest) ≠ some (.link target)) :
    dest = place ++ names := by
  obtain ⟨es, hc⟩ := h
  obtain ⟨es', hc'⟩ := h'
  obtain ⟨-, left, hleft⟩ := chase_append hc
  rw [List.append_assoc, hleft true _ (by simp)] at hc'
  have hw : (walk root true place (more ++ [[]])).At root (place ++ names) := by
    refine walk_spelled (by simp [hm]) fun up target _ ht => ?_
    exact (noLink up target ht).elim
  rw [arrived_of_chase hw hc'] at hw
  exact hw.1

/-- A name that a directory has adds to a way. -/
theorem child {name : Name} {es : Entries} (h : root.Way parts place) (hn : ProperName name)
    (fits : name.length ≤ maxName) (hd : root.get? (place ++ [name]) = some (.dir es)) :
    root.Way (parts ++ [name]) (place ++ [name]) := by
  obtain ⟨es', hc⟩ := h
  obtain ⟨he, left, hleft⟩ := chase_append hc
  refine ⟨es, ?_⟩
  rw [List.append_assoc, hleft true _ (by simp), List.singleton_append]
  have entered : walk root true place (name :: [[]]) = walk root true (place ++ [name]) [[]] := by
    rw [walk_proper he hn, if_neg (Nat.not_lt.mpr fits), hd]
  rw [chase_of_walk entered, chase_dir hd]

/-- A way goes by names that are short enough. -/
theorem fits {name : Name} {rest : List Bytes} (h : root.Way (parts ++ name :: rest) dest)
    (hn : ProperName name) : name.length ≤ maxName := by
  obtain ⟨place, es, hc⟩ := h.upTo ⟨name, List.mem_cons_self, hn.nonempty⟩
  obtain ⟨es', hc'⟩ := h
  obtain ⟨he, left, hleft⟩ := chase_append hc
  refine Nat.le_of_not_lt fun long => ?_
  rw [List.append_assoc, hleft true _ (by simp), List.cons_append, chase, walk_proper he hn,
    if_pos long] at hc'
  cases hc'

/-- A way goes on by names to a directory below. -/
theorem descend {es : Entries} (h : root.Way parts place) (proper : ∀ n ∈ names, ProperName n)
    (fits : ∀ n ∈ names, n.length ≤ maxName) (hd : root.get? (place ++ names) = some (.dir es)) :
    root.Way (parts ++ names) (place ++ names) := by
  induction names generalizing parts place with
  | nil => simpa using h
  | cons name rest ih =>
    rw [List.append_cons] at hd
    obtain ⟨inner, hi⟩ := dir_of_prefix (List.prefix_append (place ++ [name]) rest) hd
    have entered := h.child (proper name List.mem_cons_self) (fits name List.mem_cons_self) hi
    rw [List.append_cons parts, List.append_cons place]
    exact ih entered (fun n hn => proper n (List.mem_cons_of_mem _ hn))
      (fun n hn => fits n (List.mem_cons_of_mem _ hn)) hd

/-- Where a name is missing, no way goes on by it. -/
theorem not_of_missing {name : Name} {rest : List Bytes} (h : root.Way parts place)
    (hn : ProperName name) (missing : root.get? (place ++ [name]) = none) :
    ¬ root.Way (parts ++ name :: rest) dest := by
  rintro ⟨es', hc'⟩
  obtain ⟨es, hc⟩ := h
  obtain ⟨he, left, hleft⟩ := chase_append hc
  rw [List.append_assoc, hleft true _ (by simp), List.cons_append, chase] at hc'
  obtain ⟨_, hw⟩ | ⟨_, hw⟩ := walk_missing true (rest ++ [[]]) he hn missing
  all_goals
    rw [hw] at hc'
    cases hc'

end Node.Way

namespace Disk

open LayerPack.Path

variable {d d' : Disk} {cwd : Place} {p q : Path}

/-- The path leads to a directory at the place. -/
def LeadsTo (d : Disk) (p : Path) (place : Place) : Prop :=
  ∃ es, d.resolve [] true p = .ok (place, .dir es)

theorem leadsTo_iff_resolve : d.LeadsTo p place ↔
    ∃ found ∈ (d.resolve [] true p).toOption, found.1 = place ∧ found.2.isDir = true := by
  constructor
  · rintro ⟨es, h⟩
    exact ⟨(place, .dir es), by rw [h]; rfl, rfl, rfl⟩
  · rintro ⟨⟨found, node⟩, h, rfl, hd⟩
    cases hr : d.resolve [] true p with
    | error e =>
      rw [hr] at h
      cases h
    | ok result =>
      rw [hr] at h
      obtain rfl := Option.some.inj h
      cases node with
      | dir es => exact ⟨es, hr⟩
      | file | link => cases hd

instance (d : Disk) (p : Path) (place : Place) : Decidable (d.LeadsTo p place) :=
  decidable_of_iff _ leadsTo_iff_resolve.symm

namespace LeadsTo

variable {d₀ d₁ d₂ : Disk}

theorem unique (h : d.LeadsTo p place) (h' : d.LeadsTo p dest) : place = dest := by
  obtain ⟨es, hr⟩ := h
  obtain ⟨es', hr'⟩ := h'
  cases hr.symm.trans hr'
  rfl

theorem dir (h : d.LeadsTo p place) : ∃ es, d.get? place = some (.dir es) :=
  let ⟨es, hr⟩ := h
  ⟨es, lookup_sound (resolve_ok.mp hr)⟩

theorem keeps (h : d.LeadsTo p place) (ways : d.root.KeepsWays d'.root) : d'.LeadsTo p place :=
  let ⟨_, hr⟩ := h
  resolve_keeps ways hr

theorem common (h₁ : d₁.LeadsTo p place) (h₂ : d₂.LeadsTo p dest) (ways₁ : d₁.root.KeepsWays d.root)
    (ways₂ : d₂.root.KeepsWays d.root) (both : d₁.root.Common d₂.root d₀.root) :
    d₀.LeadsTo p place := by
  obtain ⟨es₁, hr₁⟩ := h₁
  obtain ⟨es₂, hr₂⟩ := h₂
  obtain ⟨check, hc₁⟩ := lookup_eq_ok.mp (resolve_ok.mp hr₁)
  obtain ⟨-, hc₂⟩ := lookup_eq_ok.mp (resolve_ok.mp hr₂)
  obtain ⟨es₀, hc₀⟩ := chase_common ways₁ ways₂ both hc₁ hc₂
  exact ⟨es₀, resolve_ok.mpr (lookup_eq_ok.mpr ⟨check, hc₀⟩)⟩

end LeadsTo

theorem startOf_root (b : Bytes) : startOf [] b = [] := ite_self _

theorem partsOf_parts (p : Path) : partsOf p.bytes = p.parts ∨ partsOf p.bytes = p.parts ++ [[]] := by
  obtain ⟨front, last, hl⟩ : ∃ front last, splitSlash p.bytes = front ++ [last] :=
    ⟨_, _, (List.dropLast_concat_getLast (splitSlash_ne_nil p.bytes)).symm⟩
  have hparts : partsOf p.bytes = front.filter (· ≠ []) ++ [last] := by simp [partsOf, hl]
  rw [hparts, parts, hl, List.filter_append]
  by_cases hlast : last = []
  · right
    simp [hlast]
  · left
    simp [hlast]

/-- A directory is reached by the parts of its path. -/
theorem leadsTo_iff :
    d.LeadsTo p place ↔ checkPath p = .ok () ∧ d.root.Way p.parts place := by
  have slashed (es : Entries) :
      chase d.root true maxLinks [] (partsOf p.bytes) = .ok (.found place (.dir es)) ↔
        chase d.root true maxLinks [] (p.parts ++ [[]]) = .ok (.found place (.dir es)) := by
    rcases partsOf_parts p with h | h <;> rw [h]
    exact ⟨chase_slash, chase_unslash⟩
  unfold LeadsTo Node.Way
  simp only [resolve_ok, lookup_eq_ok, startOf_root, slashed]
  exact ⟨fun ⟨es, hc, hw⟩ => ⟨hc, es, hw⟩, fun ⟨hc, es, hw⟩ => ⟨es, hc, hw⟩⟩

/-- Where the path of a directory leads from does not matter if it is absolute. -/
theorem leadsTo_of_resolve (hp : p.isAbsolute) {es : Entries}
    (h : d.resolve cwd true p = .ok (place, .dir es)) : d.LeadsTo p place := by
  refine ⟨es, ?_⟩
  rw [← h, resolve, lookup, startOf_absolute hp, resolve, lookup, startOf_absolute hp]

/-- What leads to the directory of a name that a path ends in. -/
theorem lookupParent_way {parent : Place} {name : Name} {slashed : Bool}
    (h : d.lookupParent [] p = .ok (parent, .name name slashed)) :
    ∃ front, p.parts = front ++ [name] ∧ ProperName name ∧ name.length ≤ maxName ∧
      d.root.Way front parent := by
  obtain ⟨-, ⟨es, hc⟩, hl, -⟩ := lookupParent_eq_ok.mp h
  obtain ⟨hparts, -, -⟩ := splitLast_name (Prod.ext rfl hl)
  obtain ⟨hn, fits⟩ := properName_of_lookupParent h
  rw [startOf_root] at hc
  exact ⟨_, hparts, hn, fits, es, hc⟩

/-- What leads to the directory of a new one, and that nothing else is added. -/
theorem mkdir_way (hp : p.isAbsolute) (h : d.mkdir cwd p = .ok d') :
    ∃ front name parent, p.parts = front ++ [name] ∧ ProperName name ∧ name.length ≤ maxName ∧
      d.root.Way front parent ∧ d.get? (parent ++ [name]) = none ∧
      d' = d.put (parent ++ [name]) (.dir []) := by
  obtain ⟨parent, name, slashed, hparent, hg, hd⟩ := mkdir_ok h
  have same : d.lookupParent [] p = d.lookupParent cwd p := by
    unfold lookupParent
    rw [startOf_absolute hp, startOf_absolute hp]
  obtain ⟨front, hparts, hn, fits, way⟩ := lookupParent_way (same.trans hparent)
  exact ⟨front, name, parent, hparts, hn, fits, way, hg, hd⟩

/-- A directory that has been made is reached. -/
theorem leadsTo_mkdir (hp : p.isAbsolute) (h : d.mkdir cwd p = .ok d') : ∃ place, d'.LeadsTo p place := by
  obtain ⟨front, name, parent, hparts, hn, fits, way, -, hd⟩ := mkdir_way hp h
  obtain ⟨_, _, _, hparent, -⟩ := mkdir_ok h
  obtain ⟨check, -⟩ := lookupParent_eq_ok.mp hparent
  obtain ⟨es, he⟩ := way.dir
  have new : d'.get? (parent ++ [name]) = some (.dir []) := by
    rw [hd]
    exact get?_put_self he
  refine ⟨parent ++ [name], leadsTo_iff.mpr ⟨check, ?_⟩⟩
  rw [hparts]
  exact (way.keeps (mkdir_grows h).keepsWays).child hn fits new

theorem parts_ofNames (h : ∀ name ∈ names, ProperName name) : (ofNames names).parts = names := by
  by_cases hne : names = []
  · subst hne
    decide
  rw [parts, ofNames, splitSlash_slash, splitSlash_joinSlash hne fun name hn => (h name hn).noSlash,
    List.filter_cons_of_neg (by simp)]
  exact List.filter_eq_self.mpr fun name hn => by simp [(h name hn).nonempty]

/-- The parts of a path above another are the first ones of it. -/
theorem parts_of_above (h : Above q p) : q.parts <+: p.parts := by
  have starts {q p : Path} (h : Over q p) : q.parts <+: p.parts := by
    obtain ⟨-, hq | ⟨rest, hrest, -⟩⟩ := h.written
    · have : q.parts = [] := by rw [parts, hq]; rfl
      rw [this]
      exact List.nil_prefix
    · exact hrest ▸ List.prefix_append _ _
  cases h with
  | refl => exact List.prefix_rfl
  | up hparent above => exact starts ⟨_, hparent, above⟩

/-- The parts of a relative path come after those of the path that it is put behind. -/
theorem parts_join (hp : p.bytes ≠ []) (hq : q.isAbsolute = false) :
    (p.join q).parts = p.parts ++ q.parts := by
  rw [join, if_neg (by simp [hq])]
  split
  next h =>
    obtain ⟨init, hinit⟩ := List.getLast?_eq_some_iff.mp (h.resolve_left hp)
    simp [parts, hinit, List.append_assoc, splitSlash_append_slash, splitSlash]
  next => simp [parts, splitSlash_append_slash]

end Disk

end LayerPack
