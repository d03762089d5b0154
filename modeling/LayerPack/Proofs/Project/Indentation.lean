import Mathlib.Data.List.Basic
import LayerPack.Proofs.Project.Declaration

/-! Indented lines of a `setup.cfg`. In the syntax of these files a line that starts with white space
continues the value of the option above it. The reader trims each line before it looks at it, so such a
line is taken for an option or for a header if it has the form of one. -/
namespace LayerPack.SetupCfg

/-- The line carries on the value of the option above it. -/
def Continues (line : List Char) : Prop :=
  (line.head? = some ' ' ∨ line.head? = some '\t') ∧ ∃ c ∈ line, Text.isBlank c = false

variable {before : String} {d e : Declared} {key value name : List Char}

theorem Declared.ext_get (h : ∀ field, d.get field = e.get field) : d = e := by
  obtain ⟨n, v⟩ := d
  obtain ⟨n', v'⟩ := e
  cases h .name
  cases h .version
  rfl

theorem Declared.get_over (field : Field) : (e.over d).get field = (e.get field).or (d.get field) := by
  cases field <;> rfl

/-- A newer declaration adds nothing if it says what the older one says already. -/
theorem Declared.over_eq_right :
    e.over d = d ↔ ∀ field value, e.get field = some value → d.get field = some value := by
  constructor
  · intro h field value he
    rw [← h, get_over, he, Option.some_or]
  · refine fun h => ext_get fun field => ?_
    rw [get_over]
    cases he : e.get field with
    | none => rfl
    | some value => rw [Option.some_or, h field value he]

/-- The state in which the reader comes to a place of an active section. -/
theorem foldl_step_active (active : Active (linesIn (before ++ "\n"))) :
    (Text.linesOf (before ++ "\n").toList).foldl step (false, {}) = (true, parse (before ++ "\n")) :=
  Prod.ext ((foldl_step .name _).1.mpr active) rfl

theorem parse_rest (active : Active (linesIn (before ++ "\n"))) (rest : String) :
    parse (before ++ "\n" ++ rest) =
      ((Text.linesOf rest.toList).foldl step (true, parse (before ++ "\n"))).2 := by
  rw [parse, linesOf_text, List.foldl_append, foldl_step_active active]

theorem parse_insert (active : Active (linesIn (before ++ "\n"))) (inserted rest : String) :
    parse (before ++ "\n" ++ inserted ++ "\n" ++ rest) =
      ((Text.linesOf rest.toList).foldl step
        ((Text.linesOf (inserted ++ "\n").toList).foldl step (true, parse (before ++ "\n")))).2 := by
  rw [show before ++ "\n" ++ inserted ++ "\n" ++ rest = before ++ "\n" ++ (inserted ++ "\n" ++ rest) by
    simp only [String.append_assoc], parse_rest active, linesOf_text, List.foldl_append]

/-- What lines of an active section declare. -/
theorem foldl_step_section (lines : List (List Char)) (field : Field) (value : String) :
    (lines.foldl step (true, {})).2.get field = some value ↔
      LastDeclared ("[metadata]".toList :: lines.map Text.trimChars) field.key value.toList := by
  have h := (foldl_step field ("[metadata]".toList :: lines)).2 value
  have opened : step (false, {}) "[metadata]".toList = (true, {}) := by decide
  have trimmed : Text.trimChars "[metadata]".toList = "[metadata]".toList := by decide
  rwa [List.foldl_cons, opened, List.map_cons, trimmed] at h

/-- Whether the section is still active behind the lines that were put in. -/
theorem foldl_inserted (active : Active (linesIn (before ++ "\n"))) (inserted : String) :
    ((Text.linesOf (inserted ++ "\n").toList).foldl step (true, parse (before ++ "\n"))).1 = true ↔
      Active (linesIn (before ++ "\n" ++ inserted ++ "\n")) := by
  rw [linesIn, ← (foldl_step .name _).1, String.append_assoc, linesOf_text, List.foldl_append,
    foldl_step_active active]

/-- A section that no one opens again declares nothing more. -/
theorem foldl_step_inactive {lines : List (List Char)}
    (h : ∀ line ∈ lines, ¬ Heads (Text.trimChars line) "metadata".toList) :
    lines.foldl step (false, d) = (false, d) := by
  induction lines with
  | nil => rfl
  | cons line rest ih =>
    have idle : step (false, d) line = (false, d) := by
      have closed := h line List.mem_cons_self
      rcases step_cases (false, d) line with ⟨name, heads, he⟩ | ⟨key, value, -, he⟩ | ⟨-, -, he⟩
      · rw [he, decide_eq_false]
        rintro rfl
        exact closed heads
      · exact he
      · exact he
    rw [List.foldl_cons, idle]
    exact ih fun l hl => h l (List.mem_cons_of_mem _ hl)

section indented

variable {indent : Char} {core : List Char}

theorem isBlank_indent (h : indent = ' ' ∨ indent = '\t') : Text.isBlank indent = true := by
  rcases h with rfl | rfl <;> rfl

theorem continues_indent (h : indent = ' ' ∨ indent = '\t') (trimmed : Text.Trimmed core)
    (filled : core ≠ []) : Continues (indent :: core) := by
  obtain ⟨first, more, rfl⟩ := List.exists_cons_of_ne_nil filled
  exact ⟨h.imp (congrArg some) (congrArg some), first, by simp, trimmed.1 first rfl⟩

theorem trimChars_indent (h : indent = ' ' ∨ indent = '\t') (trimmed : Text.Trimmed core) :
    Text.trimChars (indent :: core) = core :=
  (Text.trimChars_cons (isBlank_indent h) core).trans (Text.trimChars_of_trimmed trimmed)

theorem linesOf_indent (h : indent = ' ' ∨ indent = '\t') (trimmed : Text.Trimmed core)
    (filled : core ≠ []) (single : '\n' ∉ core) :
    Text.linesOf (String.ofList (indent :: core) ++ "\n").toList = [indent :: core] := by
  have inside : '\n' ∉ indent :: core := by
    rw [List.mem_cons, not_or]
    exact ⟨by rcases h with rfl | rfl <;> decide, single⟩
  have last : (indent :: core).getLast? ≠ some '\r' := by
    intro hl
    obtain ⟨first, more, rfl⟩ := List.exists_cons_of_ne_nil filled
    rw [List.getLast?_cons_cons] at hl
    cases trimmed.2 _ hl
  rw [String.toList_append, String.toList_ofList]
  refine (Text.linesFrom_single [] inside).trans ?_
  rw [List.reverse_nil, List.nil_append, Text.dropReturn, if_neg last]

end indented

theorem trimmed_option (field : Field) (static : Static value) (trimmed : Text.Trimmed value) :
    Text.Trimmed (field.key ++ '=' :: value) := by
  refine ⟨?_, fun c hc => ?_⟩
  · cases field <;> (intro c hc; cases hc; rfl)
  · obtain ⟨first, more, rfl⟩ := List.exists_cons_of_ne_nil static.1
    rw [List.getLast?_append_cons, List.getLast?_cons_cons] at hc
    exact trimmed.2 c hc

theorem single_option (field : Field) (single : '\n' ∉ value) : '\n' ∉ field.key ++ '=' :: value := by
  have key : '\n' ∉ field.key := by cases field <;> decide
  rw [List.mem_append, List.mem_cons, not_or, not_or]
  exact ⟨key, by decide, single⟩

theorem declares_option (field : Field) (static : Static value) (trimmed : Text.Trimmed value) :
    Declares (field.key ++ '=' :: value) field.key value := by
  have before : '=' ∉ field.key ∧ Text.trimChars field.key = field.key := by
    cases field <;> exact ⟨by decide, by decide⟩
  refine ⟨?_, ?_, ⟨field.key, value, .inl ⟨rfl, before.1⟩, before.2, Text.trimChars_of_trimmed trimmed⟩,
    static⟩
  · rintro (h | h) <;> cases field <;> cases h
  · rintro name ⟨inner, h, -⟩
    have first := congrArg List.head? h
    cases field <;> cases first

/-- An indented option counts as one of the section. -/
theorem parse_indented_option (active : Active (linesIn (before ++ "\n"))) (field : Field) {indent : Char}
    (h : indent = ' ' ∨ indent = '\t') (static : Static value) (trimmed : Text.Trimmed value)
    (single : '\n' ∉ value) : Continues (indent :: (field.key ++ '=' :: value)) ∧
      (parse (before ++ "\n" ++ (String.ofList (indent :: (field.key ++ '=' :: value)) ++ "\n"))).get field =
        some (String.ofList value) := by
  have core := trimmed_option field static trimmed
  have filled : field.key ++ '=' :: value ≠ [] := by simp
  have inside := single_option field single
  refine ⟨continues_indent h core filled, ?_⟩
  rw [parse_rest active, linesOf_indent h core filled inside, List.foldl_cons, List.foldl_nil, step_get,
    trimChars_indent h core, String.toList_ofList]
  exact .inl ⟨rfl, declares_option field static trimmed⟩

/-- An indented header ends the section. -/
theorem parse_indented_header (active : Active (linesIn (before ++ "\n"))) {indent : Char}
    (h : indent = ' ' ∨ indent = '\t') (single : '\n' ∉ name)
    (other : Text.trimChars name ≠ "metadata".toList) {rest : String}
    (closed : ∀ line ∈ linesIn rest, ¬ Heads line "metadata".toList) :
    Continues (indent :: '[' :: (name ++ [']'])) ∧
      parse (before ++ "\n" ++ String.ofList (indent :: '[' :: (name ++ [']'])) ++ "\n" ++ rest) =
        parse (before ++ "\n") := by
  have core : Text.Trimmed ('[' :: (name ++ [']'])) := by
    refine ⟨fun c hc => by cases hc; rfl, fun c hc => ?_⟩
    rw [← List.cons_append, List.getLast?_concat] at hc
    cases hc
    rfl
  have inside : '\n' ∉ '[' :: (name ++ [']']) := by simp [single]
  have left (d : Declared) : step (true, d) (indent :: '[' :: (name ++ [']'])) = (false, d) := by
    simp only [step, trimChars_indent h core, read_eq_header.mpr ⟨name, rfl, rfl⟩, other, decide_false]
  refine ⟨continues_indent h core (List.cons_ne_nil _ _), ?_⟩
  rw [parse_insert active, linesOf_indent h core (List.cons_ne_nil _ _) inside, List.foldl_cons, left,
    List.foldl_nil, foldl_step_inactive fun line hl => closed _ (List.mem_map_of_mem hl)]

/-- Behind lines that end the section and change nothing, an option is not heard any more. -/
theorem parse_unheard (active : Active (linesIn (before ++ "\n"))) {inserted : String}
    (ended : (Text.linesOf (inserted ++ "\n").toList).foldl step (true, parse (before ++ "\n")) =
      (false, parse (before ++ "\n"))) (field : Field) (static : Static value)
    (trimmed : Text.Trimmed value) (single : '\n' ∉ value) :
    parse (before ++ "\n" ++ inserted ++ "\n" ++
      (String.ofList (' ' :: (field.key ++ '=' :: value)) ++ "\n")) = parse (before ++ "\n") := by
  have core := trimmed_option field static trimmed
  have inside := single_option field single
  rw [parse_insert active, ended, linesOf_indent (.inl rfl) core (by simp) inside, foldl_step_inactive]
  intro line hl
  rw [List.mem_singleton.mp hl, trimChars_indent (.inl rfl) core]
  exact (declares_option field static trimmed).noHeader _

/-- Put in lines change nothing, whatever follows, exactly if the section stays active and every static
value they give is known already. -/
theorem parse_insert_iff (active : Active (linesIn (before ++ "\n"))) (inserted : String) :
    (∀ rest, parse (before ++ "\n" ++ inserted ++ "\n" ++ rest) = parse (before ++ "\n" ++ rest)) ↔
      Active (linesIn (before ++ "\n" ++ inserted ++ "\n")) ∧ ∀ field value,
        LastDeclared ("[metadata]".toList :: linesIn (inserted ++ "\n")) (Field.key field) value.toList →
          (parse (before ++ "\n")).get field = some value := by
  have stays := foldl_inserted active inserted
  have after := foldl_step_over (Text.linesOf (inserted ++ "\n").toList) true (parse (before ++ "\n"))
  rw [← stays]
  simp only [linesIn, ← foldl_step_section, ← Declared.over_eq_right]
  constructor
  · intro same
    have kept := same ""
    rw [parse_insert active, parse_rest active, after] at kept
    change Declared.over _ _ = _ at kept
    rw [kept] at after
    refine ⟨?_, kept⟩
    -- Two names would be read as the one declared above.
    by_contra ended
    rw [after, Bool.not_eq_true] at ended
    rw [show _ = false from ended] at after
    have named (value : List Char) (static : Static value) (trimmed : Text.Trimmed value)
        (single : '\n' ∉ value) : (parse (before ++ "\n")).get .name = some (String.ofList value) := by
      have found := (parse_indented_option active .name (.inl rfl) static trimmed single).2
      rwa [← same, parse_unheard active after .name static trimmed single] at found
    have single (c : Char) (h : Text.isBlank c = false) : Text.Trimmed [c] :=
      ⟨fun _ hc => by cases hc; exact h, fun _ hc => by cases hc; exact h⟩
    have first := named ['a'] ⟨by decide, by decide, by decide⟩ (single 'a' rfl) (by decide)
    have second := named ['b'] ⟨by decide, by decide, by decide⟩ (single 'b' rfl) (by decide)
    exact absurd (first.symm.trans second) (by decide)
  · rintro ⟨active', known⟩ rest
    have unchanged : (Text.linesOf (inserted ++ "\n").toList).foldl step (true, parse (before ++ "\n")) =
        (true, parse (before ++ "\n")) := Prod.ext active' ((congrArg Prod.snd after).trans known)
    rw [parse_insert active, parse_rest active, unchanged]

/-- Lines without a header keep the section active. -/
theorem active_append {above below : List (List Char)} (active : Active above)
    (h : ∀ line ∈ below, ∀ name, ¬ Heads line name) : Active (above ++ below) := by
  obtain ⟨front, header, between, rfl, heads, quiet⟩ := active
  refine ⟨front, header, between ++ below, by simp, heads, fun line hl => ?_⟩
  exact (List.mem_append.mp hl).elim (quiet line) (h line)

/-- What lines put in below an active section of metadata do. They change nothing, whatever follows,
exactly if the section stays active and every static value they give is known already, and so if none
of them has the form of a header or of a declaration. An indented option sets the name or the version to
any static value, and an indented header hides what is declared below it. -/
theorem parse_continuation (before : String) (active : Active (linesIn (before ++ "\n"))) :
    (∀ inserted, (∀ rest, parse (before ++ "\n" ++ inserted ++ "\n" ++ rest) =
        parse (before ++ "\n" ++ rest)) ↔
      Active (linesIn (before ++ "\n" ++ inserted ++ "\n")) ∧ ∀ field value,
        LastDeclared ("[metadata]".toList :: linesIn (inserted ++ "\n")) (Field.key field) value.toList →
          (parse (before ++ "\n")).get field = some value) ∧
    (∀ inserted, (∀ line ∈ linesIn (inserted ++ "\n"), (∀ name, ¬ Heads line name) ∧
        ∀ field value, ¬ Declares line (Field.key field) value) → ∀ rest,
      parse (before ++ "\n" ++ inserted ++ "\n" ++ rest) = parse (before ++ "\n" ++ rest)) ∧
    (∀ field indent value, indent = ' ' ∨ indent = '\t' → Static value → Text.Trimmed value →
      '\n' ∉ value → Continues (indent :: (Field.key field ++ '=' :: value)) ∧
      (parse (before ++ "\n" ++
        (String.ofList (indent :: (field.key ++ '=' :: value)) ++ "\n"))).get field =
          some (String.ofList value)) ∧
    (∀ indent name rest, indent = ' ' ∨ indent = '\t' → '\n' ∉ name →
      Text.trimChars name ≠ "metadata".toList → (∀ line ∈ linesIn rest, ¬ Heads line "metadata".toList) →
      Continues (indent :: '[' :: (name ++ [']'])) ∧
      parse (before ++ "\n" ++ String.ofList (indent :: '[' :: (name ++ [']'])) ++ "\n" ++ rest) =
        parse (before ++ "\n")) := by
  refine ⟨parse_insert_iff active, fun inserted quiet => ?_, fun field indent value h static trimmed single =>
    parse_indented_option active field h static trimmed single, fun indent name rest h single other closed =>
    parse_indented_header active h single other closed⟩
  refine (parse_insert_iff active inserted).mpr ⟨?_, fun field value hl => ?_⟩
  · have lines : linesIn (before ++ "\n" ++ inserted ++ "\n") =
        linesIn (before ++ "\n") ++ linesIn (inserted ++ "\n") := by
      rw [linesIn, String.append_assoc, linesOf_text, List.map_append]
      rfl
    rw [lines]
    exact active_append active fun line hl => (quiet line hl).1
  · obtain ⟨above, line, below, h, -, declares, -⟩ := hl
    have hm : line ∈ "[metadata]".toList :: linesIn (inserted ++ "\n") :=
      h ▸ List.mem_append_right _ List.mem_cons_self
    rcases List.mem_cons.mp hm with rfl | hm
    · exact (declares.noHeader "metadata".toList ⟨"metadata".toList, by decide, by decide⟩).elim
    · exact ((quiet line hm).2 field _ declares).elim

/-- Name and version stand on lines of their own, and the description goes on with an indented line that
looks like a name: this is the name that is found. -/
theorem parse_continued_description :
    let before := "[metadata]\nname = mylib\nversion = 1\ndescription = first"
    Active (linesIn (before ++ "\n")) ∧ parse (before ++ "\n") = ⟨some "mylib", some "1"⟩ ∧
      Continues " name=other".toList ∧
      (parse (before ++ "\n" ++ (" name=other" ++ "\n"))).name = some "other" := by
  intro before
  have active : Active (linesIn (before ++ "\n")) := (foldl_step .name _).1.mp (by decide)
  have declared := (parse_continuation before active).2.2.1 .name ' ' "other".toList (.inl rfl)
    ⟨by decide, by decide, by decide⟩ ⟨fun _ hc => by cases hc; rfl, fun _ hc => by cases hc; rfl⟩
    (by decide)
  exact ⟨active, by decide, declared⟩

end LayerPack.SetupCfg
