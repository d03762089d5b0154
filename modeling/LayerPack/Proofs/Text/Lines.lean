import LayerPack.Text.Blank

/-! Lines and the white space around them. What is written behind a finished line adds its own lines,
and a trimmed text neither begins nor ends with white space. -/
namespace LayerPack.Text

variable {cs : List Char} {c : Char}

theorem linesFrom_append (held cs more : List Char) :
    linesFrom held (cs ++ '\n' :: more) = linesFrom held (cs ++ ['\n']) ++ linesOf more := by
  induction cs generalizing held with
  | nil => simp [linesFrom, linesOf]
  | cons c rest ih =>
    rw [List.cons_append, List.cons_append, linesFrom, linesFrom]
    split
    · rw [ih, List.cons_append]
    · exact ih _

/-- A finished text and what follows it are read apart. -/
theorem linesOf_append (cs more : List Char) :
    linesOf (cs ++ '\n' :: more) = linesOf (cs ++ ['\n']) ++ linesOf more := linesFrom_append [] cs more

theorem linesFrom_single (held : List Char) (h : '\n' ∉ cs) :
    linesFrom held (cs ++ ['\n']) = [dropReturn (held.reverse ++ cs)] := by
  induction cs generalizing held with
  | nil => simp [linesFrom]
  | cons c rest ih =>
    rw [List.mem_cons, not_or] at h
    rw [List.cons_append, linesFrom, if_neg (Ne.symm h.1), ih _ h.2]
    simp

/-- Neither the first character nor the last one is white space. -/
def Trimmed (cs : List Char) : Prop :=
  (∀ c ∈ cs.head?, isBlank c = false) ∧ ∀ c ∈ cs.getLast?, isBlank c = false

theorem trimRight_isPrefix (cs : List Char) : trimRight cs <+: cs := by
  have h : (cs.reverse.dropWhile isBlank).reverse <+: cs.reverse.reverse :=
    List.reverse_prefix.mpr (List.dropWhile_suffix isBlank)
  rwa [List.reverse_reverse] at h

theorem trimChars_infix (cs : List Char) : trimChars cs <:+: cs :=
  (trimRight_isPrefix _).isInfix.trans (List.dropWhile_suffix isBlank).isInfix

theorem head?_dropWhile_isBlank (cs : List Char) :
    ∀ c ∈ (cs.dropWhile isBlank).head?, isBlank c = false := by
  intro c hc
  have h := List.head?_dropWhile_not isBlank cs
  rw [Option.mem_def.mp hc] at h
  simpa using h

theorem trimmed_trimChars (cs : List Char) : Trimmed (trimChars cs) := by
  refine ⟨fun c hc => head?_dropWhile_isBlank cs c ?_, fun c hc => ?_⟩
  · obtain ⟨more, hm⟩ := trimRight_isPrefix (trimLeft cs)
    have first : (trimRight (trimLeft cs)).head? = some c := hc
    rw [← trimLeft, ← hm, List.head?_append, first]
    rfl
  · rw [trimChars, trimRight, List.getLast?_reverse] at hc
    exact head?_dropWhile_isBlank _ c hc

theorem trimLeft_of_head (h : ∀ c ∈ cs.head?, isBlank c = false) : trimLeft cs = cs := by
  cases cs with
  | nil => rfl
  | cons c rest => exact List.dropWhile_cons_of_neg (by simp [h c rfl])

theorem trimChars_of_trimmed (h : Trimmed cs) : trimChars cs = cs := by
  have back : trimLeft cs.reverse = cs.reverse :=
    trimLeft_of_head fun c hc => h.2 c (by rwa [List.head?_reverse] at hc)
  rw [trimChars, trimLeft_of_head h.1, trimRight, ← trimLeft, back, List.reverse_reverse]

/-- White space in front does not count. -/
theorem trimChars_cons (h : isBlank c = true) (cs : List Char) :
    trimChars (c :: cs) = trimChars cs := by
  rw [trimChars, trimLeft, List.dropWhile_cons_of_pos h]
  rfl

/-- White space is taken up to the first other character. -/
theorem trimLeft_append (h : isBlank c = false) (cs rest : List Char) :
    trimLeft (cs ++ c :: rest) = trimLeft cs ++ c :: rest := by
  induction cs with
  | nil => exact List.dropWhile_cons_of_neg (by simp [h])
  | cons d cs ih =>
    unfold trimLeft at ih ⊢
    rw [List.cons_append, List.dropWhile_cons, List.dropWhile_cons]
    split
    · exact ih
    · rfl

theorem trimRight_append (h : isBlank c = false) (front cs : List Char) :
    trimRight (front ++ c :: cs) = front ++ c :: trimRight cs := by
  have back := trimLeft_append h cs.reverse front.reverse
  simp only [trimLeft] at back
  simp [trimRight, back]

/-- What is taken from the front, read from the back. -/
theorem reverse_trimLeft (cs : List Char) : ∃ blanks, (∀ c ∈ blanks, isBlank c = true) ∧
    cs.reverse = (trimLeft cs).reverse ++ blanks :=
  ⟨(cs.takeWhile isBlank).reverse, fun c hc =>
    List.all_eq_true.mp List.all_takeWhile c (List.mem_reverse.mp hc), by
    rw [trimLeft, ← List.reverse_append, List.takeWhile_append_dropWhile]⟩

theorem exists_trimRight (cs : List Char) : ∃ blanks, (∀ c ∈ blanks, isBlank c = true) ∧
    cs = trimRight cs ++ blanks := by
  have h := reverse_trimLeft cs.reverse
  rwa [List.reverse_reverse] at h

theorem splitAt?_eq_none {sep : Char} : splitAt? sep cs = none ↔ sep ∉ cs := by
  induction cs with
  | nil => simp [splitAt?]
  | cons c rest ih =>
    rw [splitAt?, List.mem_cons, not_or]
    split
    next h => exact iff_of_false (by simp) fun hn => hn.1 h.symm
    next h => rw [Option.map_eq_none_iff, ih, and_iff_right (Ne.symm h)]

end LayerPack.Text
