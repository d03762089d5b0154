import LayerPack.Proofs.Disk.Below
import LayerPack.Proofs.Host.Growth

/-! The directories above a path. The path of such a directory is a beginning of the path, and what
comes after it has a part that names something. So where such a directory is missing the path leads
nowhere, and as long as the rest does not go back up, it leads nowhere when the directory has just been
made. -/
namespace LayerPack

open Program Machine

namespace Path

variable {p q up : Path}

/-- The parts of a path between its slashes. -/
def parts (p : Path) : List Bytes := (splitSlash p.bytes).filter (· ≠ [])

theorem splitHead_bytes (b : Bytes) : (splitHead b).1 ++ (splitHead b).2 = b ∧
    ((splitHead b).1 = [] ∨ (splitHead b).1 = [slash] ∨
      (splitHead b).1 = dot ∧ ((splitHead b).2 = [] ∨ ∃ rest, (splitHead b).2 = slash :: rest)) := by
  unfold splitHead
  split
  · exact ⟨rfl, .inr (.inl rfl)⟩
  · exact ⟨rfl, .inr (.inr ⟨rfl, .inl rfl⟩)⟩
  · exact ⟨rfl, .inr (.inr ⟨rfl, .inr ⟨_, rfl⟩⟩)⟩
  · exact ⟨rfl, .inl rfl⟩

theorem joinSlash_cons {rest : List Bytes} (h : rest ≠ []) (part : Bytes) :
    joinSlash (part :: rest) = part ++ slash :: joinSlash rest := by
  obtain ⟨second, more, rfl⟩ := List.exists_cons_of_ne_nil h
  rfl

theorem joinSlash_splitSlash (b : Bytes) : joinSlash (splitSlash b) = b := by
  induction b with
  | nil => rfl
  | cons x rest ih =>
    obtain ⟨part, parts, h⟩ := List.exists_cons_of_ne_nil (splitSlash_ne_nil rest)
    rw [splitSlash_cons h]
    rw [h] at ih
    by_cases hx : x = slash
    · rw [if_pos hx, hx, joinSlash_cons (by simp), ih]
      rfl
    · rw [if_neg hx]
      by_cases hp : parts = []
      · subst hp
        exact congrArg _ ih
      · rw [joinSlash_cons hp] at ih ⊢
        exact congrArg _ ih

theorem joinSlash_append {front back : List Bytes} (hf : front ≠ []) (hb : back ≠ []) :
    joinSlash (front ++ back) = joinSlash front ++ slash :: joinSlash back := by
  induction front with
  | nil => exact (hf rfl).elim
  | cons part rest ih =>
    by_cases hr : rest = []
    · subst hr
      exact joinSlash_cons hb part
    · rw [List.cons_append, joinSlash_cons (by simp [hr]), joinSlash_cons hr, ih hr,
        List.append_assoc, List.cons_append]

/-- The parts of a body come after what its head stands for. -/
theorem parts_append {head body : Bytes} (h : head = [] ∨ head = [slash] ∨
      head = dot ∧ (body = [] ∨ ∃ rest, body = slash :: rest)) :
    (splitSlash (head ++ body)).filter (· ≠ []) =
      (if head = dot then [dot] else []) ++ (splitSlash body).filter (· ≠ []) := by
  rcases h with rfl | rfl | ⟨rfl, rfl | ⟨rest, rfl⟩⟩
  · rfl
  · rw [List.singleton_append, splitSlash_slash, if_neg (by decide)]
    rfl
  · decide
  · rw [splitSlash_append_slash, splitSlash_slash, if_pos rfl,
      splitSlash_of_notMem (by decide : slash ∉ dot)]
    rfl

theorem parts_joinSlash {kept : List Bytes} (h : ∀ part ∈ kept, slash ∉ part) :
    (splitSlash (joinSlash kept)).filter (· ≠ []) = kept.filter (· ≠ []) := by
  cases kept with
  | nil => rfl
  | cons part rest => rw [splitSlash_joinSlash (by simp) h]

/-- A name is the last component of a path that has it as its last part. -/
theorem fileName?_of_parts {front : List Bytes} {name : Name} (h : p.parts = front ++ [name])
    (hn : ProperName name) : p.fileName? = some name := by
  obtain ⟨written, head⟩ := splitHead_bytes p.bytes
  have body : componentsOf (splitSlash (splitHead p.bytes).2) = componentsOf p.parts := by
    rw [← componentsOf_filter, parts, ← written, parts_append head, componentsOf_append, written]
    split <;> rfl
  have last : componentsOf [name] = [.normal name] := by
    rw [componentsOf_names (by simpa using hn)]
    rfl
  rw [fileName?, components_eq, body, h, componentsOf_append, last, ← List.append_assoc,
    List.getLast?_concat]

/-- The directory of a path is written by a beginning of the path. What it leaves out has a part that
names something, unless nothing is left. -/
theorem parent?_written (h : p.parent? = some up) : up.bytes <+: p.bytes ∧
    (up.bytes = [] ∨ ∃ rest, p.parts = up.parts ++ rest ∧
      ∃ part ∈ rest, (componentOf? part).isSome) := by
  obtain ⟨written, head⟩ := splitHead_bytes p.bytes
  unfold parent? at h
  rcases hs : splitHead p.bytes with ⟨start, body⟩
  rw [hs] at h written head
  dsimp only at h written head
  split at h
  next =>
    split at h
    · cases h
      exact ⟨List.nil_prefix, .inl rfl⟩
    · cases h
  next hne =>
    obtain ⟨front, last, component, hf, hl⟩ := dropVoid_concat hne
    obtain ⟨void, hv, -⟩ := dropVoid_append (splitSlash body)
    obtain ⟨void', hv', -⟩ := dropVoid_append front
    rw [hf, List.dropLast_concat] at h
    generalize dropVoid front = kept at *
    have split : splitSlash body = kept ++ (void' ++ last :: void) := by
      rw [hv, hf, hv']
      simp
    have noSlash : ∀ part ∈ kept, slash ∉ part := fun part hp =>
      notMem_of_mem_splitSlash (b := body) (split ▸ List.mem_append_left _ hp)
    obtain rfl := Option.some.inj h
    have joined : joinSlash kept <+: body := by
      rw [← joinSlash_splitSlash body, split]
      cases kept with
      | nil => exact List.nil_prefix
      | cons part rest =>
        rw [joinSlash_append (by simp) (by simp)]
        exact List.prefix_append _ _
    have head' : start = [] ∨ start = [slash] ∨
        start = dot ∧ (joinSlash kept = [] ∨ ∃ rest, joinSlash kept = slash :: rest) := by
      refine head.imp_right (Or.imp_right fun ⟨hd, hbody⟩ => ⟨hd, ?_⟩)
      obtain ⟨more, hm⟩ := joined
      rcases hk : joinSlash kept with _ | ⟨x, rest⟩
      · exact .inl rfl
      rcases hbody with rfl | ⟨rest', rfl⟩
      · rw [hk] at hm
        cases hm
      · rw [hk, List.cons_append] at hm
        exact .inr ⟨rest, by rw [(List.cons.inj hm).1]⟩
    refine ⟨?_, .inr ⟨(void' ++ last :: void).filter (· ≠ []), ?_, last, ?_, by simp [hl]⟩⟩
    · rw [← written]
      exact (List.prefix_append_right_inj _).mpr joined
    · rw [parts, parts, ← written, parts_append head, parts_append head', parts_joinSlash noSlash,
        split, List.filter_append, List.append_assoc]
    · have : last ≠ [] := by
        rintro rfl
        cases hl
      simp [this]

/-- A path above another is a beginning of it, and what comes after it has a part that names
something. -/
theorem Over.written (h : Over up p) : up.bytes <+: p.bytes ∧
    (up.bytes = [] ∨ ∃ rest, p.parts = up.parts ++ rest ∧
      ∃ part ∈ rest, (componentOf? part).isSome) := by
  obtain ⟨q, hparent, above⟩ := h
  induction above generalizing p with
  | refl q => exact parent?_written hparent
  | @up q q' up hparent' above ih =>
    obtain ⟨before, last⟩ := ih hparent'
    obtain ⟨before', last'⟩ := parent?_written hparent
    refine ⟨before.trans before', last.imp_right ?_⟩
    rintro ⟨rest, hparts, part, hpart, hc⟩
    rcases last' with hq | ⟨rest', hparts', -⟩
    · -- above the empty path there is none
      have : q.parts = [] := by rw [parts, hq]; rfl
      rw [this] at hparts
      rw [(List.append_eq_nil_iff.mp hparts.symm).2] at hpart
      cases hpart
    · exact ⟨rest ++ rest', by rw [hparts', hparts, List.append_assoc], part,
        List.mem_append_left _ hpart, hc⟩

end Path

namespace Disk

open LayerPack.Path

variable {root : Node} {follow : Bool} {d d' d'' : Disk} {cwd place dir : Place} {p output : Path}
  {name : Name} {slashed : Bool} {parts : List Bytes} {spot : Spot}

/-- In an empty directory a walk that does not go up and has something to go by finds nothing. -/
theorem walk_empty (follow : Bool) (he : root.get? place = some (.dir [])) (hup : dotdot ∉ parts)
    (hs : ∃ part ∈ parts, (componentOf? part).isSome) :
    (∃ parent name slashed, walk root follow place parts = .arrived (.absent parent name slashed)) ∨
      ∃ e, walk root follow place parts = .failed e := by
  induction parts with
  | nil =>
    obtain ⟨part, hp, -⟩ := hs
    cases hp
  | cons part rest ih =>
    rw [List.mem_cons, not_or] at hup
    rw [walk_cons he]
    split
    next hv =>
      refine ih hup.2 ?_
      obtain ⟨other, ho, hc⟩ := hs
      rcases List.mem_cons.mp ho with rfl | ho
      · simp [componentOf?, hv] at hc
      · exact ⟨other, ho, hc⟩
    next =>
      rw [if_neg (Ne.symm hup.1)]
      split
      · exact .inr ⟨_, rfl⟩
      · have none : root.get? (place ++ [part]) = none := by
          rw [Node.get?_name he]
          rfl
        rw [none]
        dsimp only
        split
        · exact .inl ⟨_, _, _, rfl⟩
        · exact .inr ⟨_, rfl⟩

/-- The way to what lies below a directory goes through the directory. -/
theorem lookup_through (higher : Over p output)
    (hp : d.lookupParent cwd p = .ok (dir, .name name slashed)) :
    ∃ left more, (∃ part ∈ more, (componentOf? part).isSome) ∧
      (∀ part ∈ more, part ∈ splitSlash output.bytes) ∧
      ∀ follow spot, d.lookup cwd follow output = .ok spot →
        chase d.root follow left dir (name :: more) = .ok spot := by
  obtain ⟨hc, ⟨es, hw⟩, hl, -⟩ := lookupParent_eq_ok.mp hp
  obtain ⟨hparts, -, -⟩ := splitLast_name (Prod.ext rfl hl)
  obtain ⟨⟨behind, hb⟩, last⟩ := higher.written
  have hne := checkPath_nonempty hc
  obtain ⟨rest, written, part, hpart, named⟩ := last.resolve_left hne
  obtain ⟨front, final, rfl⟩ : ∃ front final, rest = front ++ [final] :=
    ⟨_, _, (List.dropLast_concat_getLast (List.ne_nil_of_mem hpart)).symm⟩
  have whole : (splitSlash output.bytes).filter (· ≠ []) =
      ((splitLast p.bytes).1 ++ name :: front) ++ [final] := by
    change output.parts = _
    rw [written, Path.parts, hparts]
    simp
  obtain ⟨slashes, hslashes⟩ := partsOf_of_filter whole
  have start : startOf cwd output.bytes = startOf cwd p.bytes := by
    obtain ⟨x, more, hx⟩ := List.exists_cons_of_ne_nil hne
    rw [startOf, startOf, ← hb, hx]
    rfl
  obtain ⟨-, left, hleft⟩ := chase_append hw
  have asked : partsOf output.bytes = (splitLast p.bytes).1 ++ name :: (front ++ final :: slashes) := by
    rw [hslashes]
    simp
  refine ⟨left, front ++ final :: slashes, ⟨part, ?_, named⟩, fun part hm => ?_, fun follow spot h => ?_⟩
  · rw [List.append_cons]
    exact List.mem_append_left _ hpart
  · have : part ∈ partsOf output.bytes := by
      rw [asked]
      simp [hm]
    unfold partsOf at this
    rcases List.mem_append.mp this with h | h
    · exact List.dropLast_subset _ (List.mem_filter.mp h).1
    · exact List.mem_of_getLast? (by simpa using h)
  · unfold lookup at h
    cases hcheck : checkPath output with
    | error e =>
      rw [hcheck] at h
      cases h
    | ok =>
      rw [hcheck, start, asked] at h
      rw [← hleft follow _ (by simp)]
      exact h

/-- Above a path that leads somewhere no directory is missing. -/
theorem mkdir_of_found (higher : Over p output) {found : Place × Node}
    (h : d.resolve cwd follow output = .ok found) : d.mkdir cwd p ≠ .ok d' := by
  intro made
  obtain ⟨dir, name, slashed, hp, hg, -⟩ := mkdir_ok made
  obtain ⟨left, more, -, -, through⟩ := lookup_through higher hp
  obtain ⟨es, he⟩ := dir_of_lookupParent hp
  have arrived := through follow _ (resolve_ok.mp h)
  rw [chase] at arrived
  obtain ⟨_, hw⟩ | ⟨_, hw⟩ := walk_missing follow more he (properName_of_lookupParent hp).1 hg
  all_goals
    rw [hw] at arrived
    cases arrived

/-- A directory that has just been made above a path is not enough for the path to lead anywhere, unless
the path goes up again. -/
theorem not_found_of_mkdir (higher : Over p output) (down : dotdot ∉ splitSlash output.bytes)
    (made : d.mkdir cwd p = .ok d') (found : Place × Node) :
    d'.resolve cwd follow output ≠ .ok found := by
  intro h
  obtain ⟨dir, name, slashed, hp, hg, hd⟩ := mkdir_ok made
  have hp' := lookupParent_keeps (mkdir_grows made).keepsWays hp
  obtain ⟨left, more, some, within, through⟩ := lookup_through higher hp'
  obtain ⟨es, he⟩ := dir_of_lookupParent hp
  obtain ⟨es', he'⟩ := dir_of_lookupParent hp'
  have new : d'.get? (dir ++ [name]) = Option.some (.dir []) := by
    rw [hd]
    exact get?_put_self he
  obtain ⟨-, -, hl, fits⟩ := lookupParent_eq_ok.mp hp
  have proper := (splitLast_name (Prod.ext rfl hl)).2.2
  have arrived := through follow _ (resolve_ok.mp h)
  have entered : walk d'.root follow dir (name :: more) = walk d'.root follow (dir ++ [name]) more := by
    rw [walk_proper he' proper, if_neg (Nat.not_lt.mpr fits), get?_root, new]
  rw [chase, entered] at arrived
  obtain ⟨_, _, _, hw⟩ | ⟨_, hw⟩ :=
    walk_empty follow new (fun hm => down (within _ hm)) some
  all_goals
    rw [hw] at arrived
    cases arrived

/-- Directories have been made above a path as far as they were missing. -/
structure Paved (cwd : Place) (output : Path) (d d' : Disk) : Prop where
  grows : d.Grows d'
  added : ∀ place, d.get? place = none → d'.get? place ≠ none →
    d'.look place = some (.dir []) ∧ ∃ p, Over p output ∧ d'.seat cwd p = some place

theorem Paved.refl (cwd : Place) (output : Path) (d : Disk) : Paved cwd output d d :=
  ⟨.refl d, fun _ h h' => (h' h).elim⟩

theorem Paved.trans (h : Paved cwd output d d') (h' : Paved cwd output d' d'') :
    Paved cwd output d d'' := by
  refine ⟨h.grows.trans h'.grows, fun place hn there => ?_⟩
  by_cases hp : d'.get? place = none
  · exact h'.added place hp there
  · obtain ⟨made, p, higher, seated⟩ := h.added place hn hp
    exact ⟨(h'.grows place hp).trans made, p, higher, h'.grows.seat seated⟩

theorem paved_of_mkdir (higher : Over p output) (made : d.mkdir cwd p = .ok d') :
    Paved cwd output d d' := by
  refine ⟨mkdir_grows made, fun place hn there => ?_⟩
  obtain ⟨new, seated⟩ := added_by_mkdir made hn there
  exact ⟨new, p, higher, seated⟩

end Disk

end LayerPack
