import LayerPack.Archive.Write
import LayerPack.Machine.Basic
import LayerPack.Proofs.Disk.Spelled
import LayerPack.Proofs.Disk.Tree
import LayerPack.Proofs.Text.Utf8

/-! The name of the hidden file that an archive is written to. It stands beside the output, it
contains the fresh name, and it is never the name of the output. -/
namespace LayerPack

/-! ### Fresh names

No name on the disk contains the name that a machine hands out, so a file whose name contains it is a
new one. -/

namespace Text

theorem occursIn_of_infix {α : Type} [BEq α] [LawfulBEq α] {part whole : List α}
    (h : part <:+: whole) : occursIn part whole = true := by
  induction whole with
  | nil =>
    obtain rfl := List.infix_nil.mp h
    rfl
  | cons x rest ih =>
    rw [occursIn, Bool.or_eq_true]
    rcases List.infix_cons_iff.mp h with h | h
    · exact .inl (List.isPrefixOf_iff_prefix.mpr h)
    · exact .inr (ih h)

end Text

namespace Node

/-- A name that is on the tree is found among all names. -/
theorem anyName_of_get? {f : Name → Bool} {name : Name} (hf : f name = true) {p : List Name}
    {node inner : Node} (h : node.get? (p ++ [name]) = some inner) : node.anyName f = true := by
  have listed {es : Entries} {n : Name} {next : Node} (hm : (n, next) ∈ es)
      (h : f n = true ∨ next.anyName f = true) : anyNameOf f es = true := by
    induction es with
    | nil => cases hm
    | cons e rest ih =>
      obtain ⟨n', next'⟩ := e
      rw [anyNameOf, Bool.or_eq_true, Bool.or_eq_true]
      rcases List.mem_cons.mp hm with hm | hm
      · cases hm
        exact .inl h
      · exact .inr (ih hm)
  induction p generalizing node with
  | nil =>
    cases node with
    | file | link => cases h
    | dir es =>
      rw [List.nil_append, get?] at h
      cases he : Entries.find? es name with
      | none => simp [he] at h
      | some next => exact listed (Entries.mem_of_find? he) (.inl hf)
  | cons n rest ih =>
    cases node with
    | file | link => cases h
    | dir es =>
      rw [List.cons_append, get?] at h
      cases he : Entries.find? es n with
      | none => simp [he] at h
      | some next =>
        rw [he] at h
        exact listed (Entries.mem_of_find? he) (.inr (ih h))

theorem length_le_longestName {name : Name} {p : List Name} {node inner : Node}
    (h : node.get? (p ++ [name]) = some inner) : name.length ≤ node.longestName := by
  have listed {es : Entries} {n : Name} {next : Node} (hm : (n, next) ∈ es) :
      max n.length next.longestName ≤ longestNameOf es := by
    induction es with
    | nil => cases hm
    | cons e rest ih =>
      obtain ⟨n', next'⟩ := e
      rw [longestNameOf]
      rcases List.mem_cons.mp hm with hm | hm
      · cases hm
        omega
      · have := ih hm
        omega
  induction p generalizing node with
  | nil =>
    cases node with
    | file | link => cases h
    | dir es =>
      rw [List.nil_append, get?] at h
      cases he : Entries.find? es name with
      | none => simp [he] at h
      | some next =>
        have := listed (Entries.mem_of_find? he)
        rw [longestName]
        omega
  | cons n rest ih =>
    cases node with
    | file | link => cases h
    | dir es =>
      rw [List.cons_append, get?] at h
      cases he : Entries.find? es n with
      | none => simp [he] at h
      | some next =>
        rw [he] at h
        have := listed (Entries.mem_of_find? he)
        have := ih h
        rw [longestName]
        omega

end Node

namespace Machine

theorem toList_numbered (n : Nat) : ∃ zeros, (numbered n).toList =
    "00000000-0000-4000-8000-".toList ++ List.replicate zeros '0' ++ (toString n).toList :=
  ⟨12 - (toString n).length, by
    unfold numbered
    simp only [String.toList_append, String.toList_ofList]⟩

theorem toList_toString (n : Nat) : (toString n).toList = Nat.toDigits 10 n := Nat.toList_repr

theorem lt_length_numbered (n : Nat) : n < (Bytes.ofString (numbered (Nat.pow 10 n))).length := by
  have digits : n < (Nat.toDigits 10 (Nat.pow 10 n)).length := by
    refine Nat.lt_of_not_le fun h => ?_
    cases n with
    | zero => exact absurd Nat.length_toDigits_pos (Nat.not_lt.mpr h)
    | succ n => exact Nat.lt_irrefl _ ((Nat.length_toDigits_le_iff (by decide) (by omega)).mp h)
  obtain ⟨zeros, h⟩ := toList_numbered (Nat.pow 10 n)
  have := Bytes.length_le_length_ofString (numbered (Nat.pow 10 n))
  rw [h, toList_toString, List.length_append] at this
  exact Nat.lt_of_lt_of_le digits (Nat.le_trans (Nat.le_add_left ..) this)

/-- There is nothing but digits and dashes in a fresh name. -/
theorem notMem_numbered {b : UInt8} (hb : b.toNat < 48) (dash : b.toNat ≠ 45) (n : Nat) :
    b ∉ Bytes.ofString (numbered n) := by
  intro h
  obtain ⟨c, hc, he⟩ := Bytes.mem_of_ofString (by omega) h
  have spelled : "00000000-0000-4000-8000-".toList.all fun c => c.toNat = 45 ∨ 48 ≤ c.toNat := by
    decide
  obtain ⟨zeros, hz⟩ := toList_numbered n
  rw [hz, toList_toString, List.mem_append, List.mem_append, List.mem_replicate] at hc
  have digit : c.toNat = 45 ∨ 48 ≤ c.toNat := by
    rcases hc with (hc | ⟨-, rfl⟩) | hc
    · exact of_decide_eq_true (List.all_eq_true.mp spelled c hc)
    · exact .inr (by decide)
    · have digit := Nat.isDigit_of_mem_toDigits (by decide) (by decide) hc
      rw [Char.isDigit, Bool.and_eq_true, decide_eq_true_eq] at digit
      exact .inr (UInt32.le_iff_toNat_le.mp digit.1)
  omega

/-- No name on the disk contains the fresh one. -/
theorem freshName_missing (d : Disk) (n : Nat) {name : Name}
    (h : Bytes.ofString (freshName d n) <:+: name) (place : Place) :
    d.get? (place ++ [name]) = none := by
  refine Option.eq_none_iff_forall_ne_some.mpr fun node hn => ?_
  unfold freshName at h
  split at h
  · have := lt_length_numbered d.root.longestName
    have := Node.length_le_longestName hn
    have := h.length_le
    omega
  next hany =>
    refine hany (Node.anyName_of_get? ?_ hn)
    exact Text.occursIn_of_infix h

theorem notMem_freshName {b : UInt8} (hb : b.toNat < 48) (dash : b.toNat ≠ 45) (d : Disk) (n : Nat) :
    b ∉ Bytes.ofString (freshName d n) := by
  unfold freshName
  split <;> exact notMem_numbered hb dash _

theorem slash_notMem_freshName (d : Disk) (n : Nat) : slash ∉ Bytes.ofString (freshName d n) :=
  notMem_freshName (by decide) (by decide) d n

end Machine

/-! ### Hidden names -/

theorem Path.properName_of_fileName? {p : Path} {name : Name} (h : p.fileName? = some name) :
    ProperName name := by
  unfold fileName? at h
  split at h
  next name' hl =>
    obtain rfl := Option.some.inj h
    exact properName_of_mem_components (List.mem_of_getLast? hl)
  · cases h

/-- A name is the last part of the path that ends in it. -/
theorem Disk.splitLast_child (p : Path) {name : Name} (hn : ProperName name) :
    ∃ parts, splitLast (p.child name).bytes = (parts, .name name false) := by
  have hlast : name.getLast? ≠ some slash := fun h => hn.noSlash (List.mem_of_getLast? h)
  have ends (before : Bytes) : (before ++ name).getLast? = name.getLast? := by
    obtain ⟨init, last, hl⟩ : ∃ init last, name = init ++ [last] :=
      ⟨_, _, (List.dropLast_concat_getLast hn.nonempty).symm⟩
    rw [hl, ← List.append_assoc, List.getLast?_concat, List.getLast?_concat]
  obtain ⟨front, hf, he⟩ : ∃ front : List Bytes,
      splitSlash (p.child name).bytes = front ++ [name] ∧
        (p.child name).bytes.getLast? = name.getLast? := by
    rw [Path.child, Path.join, Path.isAbsolute_name hn, if_neg (by simp)]
    split
    next h =>
      rcases h with h | h
      · rw [h]
        exact ⟨[], splitSlash_of_notMem hn.noSlash, rfl⟩
      · obtain ⟨before, hb⟩ := List.getLast?_eq_some_iff.mp h
        have hbytes : p.bytes ++ name = before ++ slash :: name := by simp [hb]
        refine ⟨splitSlash before, ?_, ?_⟩
        · rw [hbytes, splitSlash_append_slash, splitSlash_of_notMem hn.noSlash]
        · exact ends p.bytes
    next =>
      refine ⟨splitSlash p.bytes, ?_, ?_⟩
      · rw [splitSlash_append_slash, splitSlash_of_notMem hn.noSlash]
      · have := ends (p.bytes ++ [slash])
        rwa [List.append_assoc] at this
  have hparts : (splitSlash (p.child name).bytes).filter (· ≠ []) =
      front.filter (· ≠ []) ++ [name] := by
    simp [hf, hn.nonempty]
  refine ⟨front.filter (· ≠ []), ?_⟩
  unfold splitLast
  simp only [hparts, List.getLast?_concat, List.dropLast_concat, if_neg hn.notDot,
    if_neg hn.notDotdot, he, hlast, decide_false]

namespace Archive

variable {output : Path} {fresh : String}

theorem fresh_infix_partialName : Bytes.ofString fresh <:+: partialName output fresh := by
  unfold partialName
  simp only [Bytes.ofString_append]
  exact List.infix_append ..

theorem properName_partialName (h : slash ∉ Bytes.ofString fresh) :
    ProperName (partialName output fresh) := by
  have long : 2 < (partialName output fresh).length := by
    unfold partialName
    simp only [Bytes.ofString_append, List.length_append]
    have : (Bytes.ofString ".partial").length = 8 := by decide
    omega
  have short {name : Name} (hn : name.length ≤ 2) : partialName output fresh ≠ name := by
    rintro rfl
    omega
  refine ⟨short (by simp), ?_, short (by decide), short (by decide)⟩
  have shown : ∀ name, output.fileName? = some name → slash ∉ Bytes.ofString (Bytes.display name) :=
    fun name hn => Bytes.notMem_ofString_display (Path.properName_of_fileName? hn).noSlash
  unfold partialName
  simp only [Bytes.ofString_append, List.mem_append, not_or]
  refine ⟨⟨⟨⟨by decide, ?_⟩, by decide⟩, h⟩, by decide⟩
  cases hf : output.fileName? with
  | none => decide
  | some name => exact shown name hf

/-- The hidden file has a longer name than the output as it is shown. -/
theorem partialName_ne {name : Name} (h : output.fileName? = some name) :
    partialName output fresh ≠ name := by
  intro he
  have hd : Bytes.display name = "." ++ Bytes.display name ++ "." ++ fresh ++ ".partial" := by
    conv => lhs; rw [← he]
    simp only [partialName, h, Bytes.display_ofString]
  have := congrArg (fun s : String => s.toList.length) hd
  simp only [String.toList_append, List.length_append] at this
  have : ".".toList.length = 1 := by decide
  omega

/-- The path of the hidden file ends in its name. -/
theorem splitLast_partialPath (output : Path) (h : slash ∉ Bytes.ofString fresh) :
    ∃ parts, Disk.splitLast (partialPath output fresh).bytes =
      (parts, .name (partialName output fresh) false) := by
  rw [partialPath, Path.withFileName]
  split <;> exact Disk.splitLast_child _ (properName_partialName h)

/-- The hidden file stands beside the output. -/
theorem spells_partialPath {up : List Name} {name : Name} (h : output.Spells (up ++ [name]))
    (hs : slash ∉ Bytes.ofString fresh) :
    output.fileName? = some name ∧
      (partialPath output fresh).Spells (up ++ [partialName output fresh]) :=
  ⟨h.fileName?, h.withFileName (properName_partialName hs)⟩

/-- The hidden file is not the output. -/
theorem partialPath_ne {names : List Name} (h : output.Spells names)
    (hs : slash ∉ Bytes.ofString fresh) : partialPath output fresh ≠ output := by
  intro he
  obtain ⟨parts, hsplit⟩ := splitLast_partialPath output hs
  rw [he] at hsplit
  obtain ⟨up, rfl, -⟩ := Disk.spelled_splitLast h hsplit
  exact partialName_ne (spells_partialPath h hs).1 rfl

/-- Where nothing above the output is a link, the hidden file does not stand above it. -/
theorem hidden_aside {d : Disk} {cwd parent : Place} {name : Name} {names : List Name}
    (h : output.Spells names) (hl : d.root.NoLinkAbove names) (hs : slash ∉ Bytes.ofString fresh)
    (hp : d.lookupParent cwd (partialPath output fresh) = .ok (parent, .name name false)) :
    ¬ parent ++ [name] <+: names := by
  rcases List.eq_nil_or_concat names with rfl | ⟨up, last, rfl⟩
  · simp
  rw [List.concat_eq_append] at h hl ⊢
  obtain ⟨hf, hspells⟩ := spells_partialPath h hs
  have hl' : d.root.NoLinkAbove (up ++ [partialName output fresh]) := by
    intro above target hu hne
    have hup : above <+: up := (List.prefix_concat_iff.mp hu).resolve_left hne
    refine hl above target (hup.trans (List.prefix_append _ _)) fun he => ?_
    have := hup.length_le
    rw [he, List.length_append, List.length_singleton] at this
    omega
  rw [← Disk.lookupParent_spelled hspells hl' hp]
  exact not_prefix_beside (partialName_ne hf) up

end Archive

end LayerPack
