import LayerPack.Proofs.Disk.Leaves
import LayerPack.Proofs.Disk.Lookup

/-! Paths that are made of a path and the names below it. However the first one is written, relative
or absolute, with dots or slashes at its end, the names come after its components, and they are the
last parts of a walk. -/
namespace LayerPack.Path

variable {p : Path} {name : Name} {place : List Name}

/-- What is written after a path does not change its beginning, unless that was a single dot. -/
theorem splitHead_append {b more : Bytes} (hne : b ≠ [])
    (hdot : b = dot → ∃ rest, more = slash :: rest) :
    splitHead (b ++ more) = ((splitHead b).1, (splitHead b).2 ++ more) := by
  rcases b with _ | ⟨x, _ | ⟨y, rest⟩⟩
  · exact (hne rfl).elim
  · by_cases hx : x = 0x2F
    · subst hx
      rfl
    by_cases hx : x = 0x2E
    · subst hx
      obtain ⟨rest, rfl⟩ := hdot rfl
      rfl
    · simp [splitHead, *]
  · by_cases hx : x = 0x2F
    · subst hx
      rfl
    by_cases hx : x = 0x2E ∧ y = 0x2F
    · obtain ⟨rfl, rfl⟩ := hx
      rfl
    · rw [not_and] at hx
      have (tail : Bytes) : splitHead (x :: y :: tail) = ([], x :: y :: tail) := by
        unfold splitHead
        split <;> simp_all
      rw [List.cons_append, List.cons_append, this, this]
      rfl

/-- A name is written behind a path after exactly one slash. -/
theorem child_bytes (p : Path) (hn : ProperName name) : (p.child name).bytes =
    if p.bytes = [] ∨ p.bytes.getLast? = some slash then p.bytes ++ name
    else p.bytes ++ slash :: name := by
  rw [child, join, isAbsolute_name hn, if_neg (by simp)]
  split <;> rfl

/-- A path to which a name was added does not end in a slash. -/
theorem getLast?_child (p : Path) (hn : ProperName name) :
    (p.child name).bytes ≠ [] ∧ (p.child name).bytes.getLast? ≠ some slash := by
  obtain ⟨front, last, rfl⟩ : ∃ front last, name = front ++ [last] :=
    ⟨_, _, (List.dropLast_concat_getLast hn.nonempty).symm⟩
  have other : last ≠ slash := by
    rintro rfl
    exact hn.noSlash (by simp)
  obtain ⟨before, written⟩ : ∃ before, (p.child (front ++ [last])).bytes = before ++ [last] := by
    rw [child_bytes p hn]
    split
    · exact ⟨p.bytes ++ front, by simp⟩
    · exact ⟨p.bytes ++ slash :: front, by simp⟩
  simp [written, other]

theorem isAbsolute_joinSlash (below : place ≠ []) (h : ∀ name ∈ place, ProperName name) :
    isAbsolute ⟨joinSlash place⟩ = false := by
  obtain ⟨first, rest, rfl⟩ := List.exists_cons_of_ne_nil below
  obtain ⟨b, more, rfl⟩ := List.exists_cons_of_ne_nil (h _ List.mem_cons_self).nonempty
  have other : b ≠ slash := fun he => (h _ List.mem_cons_self).noSlash (he ▸ List.mem_cons_self)
  cases rest <;> simpa [isAbsolute, joinSlash] using other

theorem components_name (hn : ProperName name) : components ⟨name⟩ = [.normal name] := by
  have head : splitHead name = ([], name) := by
    unfold splitHead
    split
    · exact (hn.noSlash List.mem_cons_self).elim
    · exact (hn.notDot rfl).elim
    · exact (hn.noSlash (by simp [slash])).elim
    · rfl
  rw [components, head]
  simp [headComponent, dot, splitSlash_of_notMem hn.noSlash, componentOf?_name hn]

theorem components_eq (p : Path) : p.components =
    headComponent (splitHead p.bytes).1 ++ componentsOf (splitSlash (splitHead p.bytes).2) := rfl

/-- A name adds itself to the components of every path. -/
theorem components_child (p : Path) (hn : ProperName name) :
    (p.child name).components = p.components ++ [.normal name] := by
  obtain ⟨b⟩ := p
  have bytes := child_bytes ⟨b⟩ hn
  have last : componentsOf (splitSlash name) = [.normal name] := by
    rw [splitSlash_of_notMem hn.noSlash, componentsOf_names (by simpa using hn)]
    rfl
  by_cases hb : b = []
  · subst hb
    rw [show child ⟨[]⟩ name = ⟨name⟩ from congrArg Path.mk bytes, components_name hn]
    rfl
  -- the slash is the last byte of the path, or it is written after that
  by_cases hs : b.getLast? = some slash
  · rw [if_pos (.inr hs)] at bytes
    obtain ⟨front, rfl⟩ := List.getLast?_eq_some_iff.mp hs
    have single (h : front ++ [slash] = dot) : ∃ rest, name = slash :: rest := by
      have := congrArg List.getLast? h
      simp [dot, slash] at this
    have body : (splitHead (front ++ [slash])).2 = [] ∨
        ∃ rest, (splitHead (front ++ [slash])).2 = rest ++ [slash] := by
      by_cases hf : front = []
      · exact .inl (by rw [hf]; rfl)
      by_cases hd : front = dot
      · exact .inr ⟨[], by rw [hd]; rfl⟩
      · rw [splitHead_append hf fun h => (hd h).elim]
        exact .inr ⟨_, rfl⟩
    rw [components_eq, components_eq, bytes, splitHead_append hb single, List.append_assoc]
    refine congrArg _ ?_
    dsimp only
    rcases body with hbody | ⟨rest, hbody⟩
    · rw [hbody, List.nil_append, last]
      rfl
    · rw [hbody, List.append_assoc, List.singleton_append, splitSlash_append_slash,
        splitSlash_append_slash, componentsOf_append, componentsOf_append, last]
      simp [splitSlash]
  · rw [if_neg (not_or.mpr ⟨hb, hs⟩)] at bytes
    rw [components_eq, components_eq, bytes, splitHead_append hb fun _ => ⟨name, rfl⟩,
      List.append_assoc]
    dsimp only
    rw [splitSlash_append_slash, componentsOf_append, last]

/-- The names below a path are written one after another with slashes between them. -/
theorem join_joinSlash (p : Path) (below : place ≠ []) (h : ∀ name ∈ place, ProperName name) :
    p.join ⟨joinSlash place⟩ = p.descend place := by
  induction place generalizing p with
  | nil => exact (below rfl).elim
  | cons name rest ih =>
    by_cases hr : rest = []
    · subst hr
      rfl
    have hn := h name List.mem_cons_self
    have proper : ∀ n ∈ rest, ProperName n := fun n hm => h n (List.mem_cons_of_mem _ hm)
    have written : joinSlash (name :: rest) = name ++ slash :: joinSlash rest := by
      cases rest with
      | nil => exact (hr rfl).elim
      | cons second rest => rfl
    have onward : (p.child name).join ⟨joinSlash rest⟩ =
        ⟨(p.child name).bytes ++ slash :: joinSlash rest⟩ := by
      rw [join, isAbsolute_joinSlash hr proper, if_neg (by simp),
        if_neg (not_or.mpr (p.getLast?_child hn))]
    rw [show p.descend (name :: rest) = (p.child name).descend rest from rfl, ← ih _ hr proper, onward,
      join, isAbsolute_joinSlash below h, if_neg (by simp), written, child_bytes p hn]
    split <;> simp

theorem components_descend (p : Path) (h : ∀ name ∈ place, ProperName name) :
    (p.descend place).components = p.components ++ place.map .normal := by
  induction place generalizing p with
  | nil => simp [descend]
  | cons name rest ih =>
    have hr : ∀ n ∈ rest, ProperName n := fun n hn => h n (List.mem_cons_of_mem _ hn)
    rw [show p.descend (name :: rest) = (p.child name).descend rest from rfl, ih _ hr,
      components_child p (h name List.mem_cons_self), List.append_assoc]
    rfl

/-- What lies below a path is told from it by the names on the way. -/
theorem below?_descend (p : Path) (h : ∀ name ∈ place, ProperName name) :
    below? p (p.descend place) = some (place.map .normal) := by
  rw [below?, components_descend p h]
  simp

/-- The parts of a path without an empty one at its end come before a name that is added. -/
theorem partsOf_child (hne : p.bytes ≠ []) (hn : ProperName name) :
    ∃ front, Disk.partsOf (p.child name).bytes = front ++ [name] ∧
      (Disk.partsOf p.bytes = front ∨ Disk.partsOf p.bytes = front ++ [[]]) := by
  have named (parts : List Bytes) {b : Bytes} (hb : splitSlash b = parts ++ [name]) :
      Disk.partsOf b = parts.filter (· ≠ []) ++ [name] := by
    simp [Disk.partsOf, hb]
  rw [child_bytes p hn]
  split
  next h =>
    obtain ⟨front, hf⟩ := List.getLast?_eq_some_iff.mp (h.resolve_left hne)
    rw [hf, List.append_assoc, List.singleton_append]
    refine ⟨_, named (splitSlash front) ?_, .inr ?_⟩
    · rw [splitSlash_append_slash, splitSlash_of_notMem hn.noSlash]
    · simp [Disk.partsOf, splitSlash_append_slash, splitSlash]
  next h =>
    refine ⟨_, named (splitSlash p.bytes) ?_, .inl ?_⟩
    · rw [splitSlash_append_slash, splitSlash_of_notMem hn.noSlash]
    · obtain ⟨front, last, hl⟩ : ∃ front last, splitSlash p.bytes = front ++ [last] :=
        ⟨_, _, (List.dropLast_concat_getLast (splitSlash_ne_nil p.bytes)).symm⟩
      have hlast : last ≠ [] := by
        rintro rfl
        exact h (getLast?_splitSlash (by rw [hl, List.getLast?_concat]))
      simp [Disk.partsOf, hl, hlast]

theorem head?_child (hne : p.bytes ≠ []) (hn : ProperName name) :
    (p.child name).bytes.head? = p.bytes.head? := by
  obtain ⟨x, rest, hb⟩ := List.exists_cons_of_ne_nil hne
  rw [child_bytes p hn, hb]
  split <;> rfl

/-- A walk to what lies below a path starts where the walk to the path starts, goes the same way, and
then takes the names. -/
theorem partsOf_descend (hne : p.bytes ≠ []) (h : ∀ name ∈ place, ProperName name)
    (below : place ≠ []) : (p.descend place).bytes.head? = p.bytes.head? ∧
      ∃ front, Disk.partsOf (p.descend place).bytes = front ++ place ∧
        (Disk.partsOf p.bytes = front ∨ Disk.partsOf p.bytes = front ++ [[]]) := by
  induction place generalizing p with
  | nil => exact (below rfl).elim
  | cons name rest ih =>
    have hn := h name List.mem_cons_self
    have head := head?_child hne hn
    obtain ⟨front, hfront, hp⟩ := partsOf_child hne hn
    by_cases hrest : rest = []
    · subst hrest
      exact ⟨head, front, hfront, hp⟩
    have hchild : (p.child name).bytes ≠ [] := fun h => by
      rw [h, eq_comm, List.head?_nil, List.head?_eq_none_iff] at head
      exact hne head
    obtain ⟨hhead, front', hrest', he⟩ :=
      ih hchild (fun n hm => h n (List.mem_cons_of_mem _ hm)) hrest
    refine ⟨hhead.trans head, front, hrest'.trans ?_, hp⟩
    rw [hfront] at he
    rcases he with rfl | he
    · simp
    · exact (hn.nonempty (List.singleton_inj.mp (List.append_inj' he rfl).2)).elim

end LayerPack.Path
