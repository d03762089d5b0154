import Mathlib.Data.List.Induction
import LayerPack.Project.SetupCfg
import LayerPack.Proofs.Text.Lines
import LayerPack.Proofs.Text.Utf8

/-! What a `setup.cfg` declares. Of the lines that give a static value to a key, those below the header
of a metadata section and above the next header count, and the last one of them is the declaration. The
text is read in one pass; the rule is stated for the lines as they stand, each trimmed. -/
namespace LayerPack.SetupCfg

inductive Field where
  | name
  | version

def Field.key : Field → List Char
  | name => "name".toList
  | version => "version".toList

def Declared.get (d : Declared) : Field → Option String
  | .name => d.name
  | .version => d.version

/-- Two declarations one after the other: what the newer one says counts. -/
def Declared.over (newer older : Declared) : Declared where
  name := newer.name.or older.name
  version := newer.version.or older.version

/-- The lines of a text, each without the white space around it. -/
def linesIn (content : String) : List (List Char) := (Text.linesOf content.toList).map Text.trimChars

def IsComment (line : List Char) : Prop := line.head? = some '#' ∨ line.head? = some ';'

/-- The line is the header of the section with this name. -/
def Heads (line name : List Char) : Prop :=
  ∃ inner, line = '[' :: (inner ++ [']']) ∧ Text.trimChars inner = name

/-- What stands before and after the first equals sign, or the first colon of a line without one. -/
def Splits (line before after : List Char) : Prop :=
  (line = before ++ '=' :: after ∧ '=' ∉ before) ∨
    ('=' ∉ line ∧ line = before ++ ':' :: after ∧ ':' ∉ before)

/-- A value that stands in the file itself. -/
def Static (value : List Char) : Prop :=
  value ≠ [] ∧ ¬ "attr:".toList <+: value ∧ ¬ "file:".toList <+: value

/-- The line gives a key a static value. -/
structure Declares (line key value : List Char) : Prop where
  noComment : ¬ IsComment line
  noHeader : ∀ name, ¬ Heads line name
  splits : ∃ before after, Splits line before after ∧
    Text.trimChars before = key ∧ Text.trimChars after = value
  static : Static value

/-- The nearest header in the lines above is that of a metadata section. -/
def Active (above : List (List Char)) : Prop :=
  ∃ before header between, above = before ++ header :: between ∧ Heads header "metadata".toList ∧
    ∀ line ∈ between, ∀ name, ¬ Heads line name

/-- The last active line that gives the key a static value gives it this one. -/
def LastDeclared (lines : List (List Char)) (key value : List Char) : Prop :=
  ∃ above line below, lines = above ++ line :: below ∧ Active above ∧ Declares line key value ∧
    ∀ between later rest, below = between ++ later :: rest → Active (above ++ line :: between) →
      ∀ other, ¬ Declares later key other

variable {line key value name : List Char} {lines above : List (List Char)} {d : Declared}

theorem headerText?_eq_some {inner : List Char} :
    headerText? line = some inner ↔ line = '[' :: (inner ++ [']']) := by
  unfold headerText?
  split
  next rest =>
    constructor
    · intro h
      split at h
      next hl =>
        cases h
        rcases rest with _ | ⟨c, more⟩
        · cases hl
        · rw [List.getLast?_cons_cons] at hl
          obtain ⟨front, hf⟩ := List.getLast?_eq_some_iff.mp hl
          rw [hf, List.dropLast_concat]
      next => cases h
    · rintro ⟨⟩
      rw [← List.cons_append, List.getLast?_concat, if_pos rfl, List.dropLast_concat]
  next hn =>
    refine iff_of_false (by simp) ?_
    rintro rfl
    exact hn _ rfl

theorem splitOption?_eq_some {before after : List Char} :
    splitOption? line = some (before, after) ↔ Splits line before after := by
  rw [splitOption?, Option.or_eq_some_iff, Text.splitAt?_eq_none, Text.splitAt?_eq_some,
    Text.splitAt?_eq_some, Splits]

theorem read_eq_header : Line.read line = .header name ↔ Heads line name := by
  constructor
  · intro h
    unfold Line.read at h
    split at h
    next => cases h
    split at h
    next inner hi =>
      cases h
      exact ⟨inner, headerText?_eq_some.mp hi, rfl⟩
    split at h
    next => cases h
    next =>
      dsimp only at h
      split at h <;> cases h
  · rintro ⟨inner, rfl, rfl⟩
    have hi : headerText? ('[' :: (inner ++ [']'])) = some inner := headerText?_eq_some.mpr rfl
    simp [Line.read, hi]

theorem static_iff : ¬ (value = [] ∨ "attr:".toList.isPrefixOf value = true ∨
    "file:".toList.isPrefixOf value = true) ↔ Static value := by
  rw [not_or, not_or, List.isPrefixOf_iff_prefix, List.isPrefixOf_iff_prefix]
  rfl

theorem read_eq_option : Line.read line = .option key value ↔ Declares line key value := by
  constructor
  · intro h
    have noHeader (name : List Char) : ¬ Heads line name := fun hh => by
      cases h.symm.trans (read_eq_header.mpr hh)
    unfold Line.read at h
    split at h
    next => cases h
    next hc =>
    split at h
    next => cases h
    split at h
    next => cases h
    next before after hs =>
    dsimp only at h
    split at h
    next => cases h
    next hv =>
      cases h
      exact ⟨fun hn => hc (.inr hn), noHeader, ⟨before, after, splitOption?_eq_some.mp hs, rfl, rfl⟩,
        static_iff.mp hv⟩
  · rintro ⟨noComment, noHeader, ⟨before, after, splits, rfl, rfl⟩, static⟩
    have filled : line ≠ [] := by
      rintro rfl
      rcases splits with ⟨h, -⟩ | ⟨-, h, -⟩ <;> simp at h
    have kept : ¬ (line = [] ∨ line.head? = some '#' ∨ line.head? = some ';') :=
      not_or.mpr ⟨filled, noComment⟩
    have header : headerText? line = none := by
      cases hi : headerText? line with
      | none => rfl
      | some inner => exact (noHeader _ ⟨inner, headerText?_eq_some.mp hi, rfl⟩).elim
    unfold Line.read
    rw [if_neg kept, header, splitOption?_eq_some.mpr splits]
    exact if_neg (static_iff.mpr static)

/-! One line more. -/

theorem active_concat : Active (lines ++ [line]) ↔
    Heads line "metadata".toList ∨ (Active lines ∧ ∀ name, ¬ Heads line name) := by
  constructor
  · rintro ⟨before, header, between, hl, heads, quiet⟩
    rcases between.eq_nil_or_concat with rfl | ⟨front, last, rfl⟩
    · obtain ⟨-, ⟨⟩⟩ := List.append_inj_right' hl rfl
      exact .inl heads
    · rw [List.concat_eq_append, ← List.cons_append, ← List.append_assoc] at hl
      obtain ⟨rfl, hlast⟩ := List.append_inj' hl rfl
      cases hlast
      refine .inr ⟨⟨before, header, front, rfl, heads, fun l hl => quiet l ?_⟩, quiet _ ?_⟩ <;> simp [*]
  · rintro (heads | ⟨⟨before, header, between, rfl, heads, quiet⟩, noHeader⟩)
    · exact ⟨lines, line, [], rfl, heads, fun _ h => absurd h List.not_mem_nil⟩
    · refine ⟨before, header, between ++ [line], by simp, heads, fun l hl => ?_⟩
      rcases List.mem_append.mp hl with hb | hb
      · exact quiet l hb
      · rw [List.mem_singleton.mp hb]
        exact noHeader

theorem lastDeclared_concat : LastDeclared (lines ++ [line]) key value ↔
    (Active lines ∧ Declares line key value) ∨
      (LastDeclared lines key value ∧ ¬ (Active lines ∧ ∃ other, Declares line key other)) := by
  constructor
  · rintro ⟨above, declaring, below, hl, active, declares, last⟩
    rcases below.eq_nil_or_concat with rfl | ⟨front, final, rfl⟩
    · obtain ⟨rfl, ⟨⟩⟩ := List.append_inj' hl rfl
      exact .inl ⟨active, declares⟩
    · rw [List.concat_eq_append] at last hl
      rw [← List.cons_append, ← List.append_assoc] at hl
      obtain ⟨rfl, ⟨⟩⟩ := List.append_inj' hl rfl
      refine .inr ⟨⟨above, declaring, front, rfl, active, declares, ?_⟩, ?_⟩
      · rintro between later rest rfl
        exact last between later (rest ++ [line]) (by simp)
      · rintro ⟨reached, other, again⟩
        exact last front line [] rfl reached other again
  · rintro (⟨active, declares⟩ | ⟨⟨above, declaring, below, rfl, active, declares, last⟩, silent⟩)
    · exact ⟨lines, line, [], rfl, active, declares, by simp⟩
    · refine ⟨above, declaring, below ++ [line], by simp, active, declares, ?_⟩
      intro between later rest hb reached other again
      rcases rest.eq_nil_or_concat with rfl | ⟨front, final, rfl⟩
      · obtain ⟨rfl, ⟨⟩⟩ := List.append_inj' hb rfl
        exact silent ⟨reached, other, again⟩
      · rw [List.concat_eq_append, ← List.cons_append, ← List.append_assoc] at hb
        obtain ⟨rfl, -⟩ := List.append_inj' hb rfl
        exact last between later front rfl reached other again

/-! Reading a line, and from it reading all of them. -/

theorem get_record (field : Field) : (d.record key value).get field =
    if key = field.key then some (String.ofList value) else d.get field := by
  unfold Declared.record
  cases field with
  | name =>
    by_cases hn : key = "name".toList
    · rw [if_pos hn, if_pos (show key = Field.name.key from hn)]
      rfl
    · rw [if_neg hn, if_neg (show ¬ key = Field.name.key from hn)]
      split <;> rfl
  | version =>
    by_cases hv : key = "version".toList
    · rw [if_neg (by rw [hv]; decide), if_pos hv, if_pos (show key = Field.version.key from hv)]
      rfl
    · rw [if_neg hv, if_neg (show ¬ key = Field.version.key from hv)]
      split <;> rfl

/-- A header moves to its section, an option is recorded if it is active, and nothing else counts. -/
theorem step_cases (state : State) (line : List Char) :
    (∃ name, Heads (Text.trimChars line) name ∧
      step state line = (decide (name = "metadata".toList), state.2)) ∨
    (∃ key value, Declares (Text.trimChars line) key value ∧
      step state line = if state.1 then (true, state.2.record key value) else state) ∨
    ((∀ name, ¬ Heads (Text.trimChars line) name) ∧
      (∀ key value, ¬ Declares (Text.trimChars line) key value) ∧ step state line = state) := by
  cases hr : Line.read (Text.trimChars line) with
  | header name => exact .inl ⟨name, read_eq_header.mp hr, by simp only [step, hr]⟩
  | option key value => exact .inr (.inl ⟨key, value, read_eq_option.mp hr, by simp only [step, hr]⟩)
  | void =>
    refine .inr (.inr ⟨fun name hn => ?_, fun key value hd => ?_, by simp only [step, hr]⟩)
    · cases hr.symm.trans (read_eq_header.mpr hn)
    · cases hr.symm.trans (read_eq_option.mpr hd)

theorem Heads.unique {other : List Char} (h : Heads line name) (h' : Heads line other) : name = other := by
  cases (read_eq_header.mpr h).symm.trans (read_eq_header.mpr h')
  rfl

theorem Declares.unique {key' value' : List Char} (h : Declares line key value)
    (h' : Declares line key' value') : key = key' ∧ value = value' := by
  cases (read_eq_option.mpr h).symm.trans (read_eq_option.mpr h')
  exact ⟨rfl, rfl⟩

variable (state : State) (field : Field)

theorem step_active : (step state line).1 = true ↔ Heads (Text.trimChars line) "metadata".toList ∨
    (state.1 = true ∧ ∀ name, ¬ Heads (Text.trimChars line) name) := by
  rcases step_cases state line with ⟨name, heads, he⟩ | ⟨key, value, declares, he⟩ | ⟨noHeader, -, he⟩
  · rw [he, decide_eq_true_iff]
    constructor
    · rintro rfl
      exact .inl heads
    · rintro (h | ⟨-, h⟩)
      · exact heads.unique h
      · exact (h name heads).elim
  · have noMetadata := declares.noHeader "metadata".toList
    rw [he, or_iff_right noMetadata, and_iff_left declares.noHeader]
    split <;> simp [*]
  · rw [he, or_iff_right (noHeader _), and_iff_left noHeader]

theorem Declares.recorded {found : List Char} (declares : Declares line key found) (field : Field)
    (value : String) : (d.record key found).get field = some value ↔
      Declares line field.key value.toList ∨
        (d.get field = some value ∧ ¬ ∃ other, Declares line field.key other) := by
  rw [get_record]
  by_cases hk : key = field.key
  · subst hk
    rw [if_pos rfl, or_iff_left fun h => h.2 ⟨found, declares⟩]
    constructor
    · rintro ⟨⟩
      rwa [String.toList_ofList]
    · intro h
      rw [(declares.unique h).2, String.ofList_toList]
  · have silent (other : List Char) : ¬ Declares line field.key other := fun h => hk (declares.unique h).1
    rw [if_neg hk, or_iff_right (silent _), and_iff_left (not_exists.mpr silent)]

theorem step_get (value : String) : (step state line).2.get field = some value ↔
    (state.1 = true ∧ Declares (Text.trimChars line) field.key value.toList) ∨
      (state.2.get field = some value ∧
        ¬ (state.1 = true ∧ ∃ other, Declares (Text.trimChars line) field.key other)) := by
  rcases step_cases state line with ⟨name, heads, he⟩ | ⟨key, found, declares, he⟩ | ⟨-, silent, he⟩
  · have silent (other : List Char) : ¬ Declares (Text.trimChars line) field.key other :=
      fun h => h.noHeader name heads
    rw [he]
    simp [silent]
  · rw [he]
    by_cases active : state.1 = true
    · simp only [active, if_true, true_and, declares.recorded field value]
    · simp [active]
  · rw [he]
    simp [silent]

/-- The pass over the lines finds the last declaration. -/
theorem foldl_step (lines : List (List Char)) :
    ((lines.foldl step (false, {})).1 = true ↔ Active (lines.map Text.trimChars)) ∧
    ∀ value : String, (lines.foldl step (false, {})).2.get field = some value ↔
      LastDeclared (lines.map Text.trimChars) field.key value.toList := by
  induction lines using List.reverseRecOn with
  | nil =>
    refine ⟨iff_of_false (by simp) ?_, fun value => iff_of_false (by cases field <;> simp [Declared.get]) ?_⟩
    · rintro ⟨before, header, between, h, -⟩
      simp at h
    · rintro ⟨above, line, below, h, -⟩
      simp at h
  | append_singleton front line ih =>
    obtain ⟨active, found⟩ := ih
    rw [List.foldl_append, List.foldl_cons, List.foldl_nil, List.map_append, List.map_singleton,
      active_concat, step_active, active]
    refine ⟨Iff.rfl, fun value => ?_⟩
    rw [lastDeclared_concat, step_get, active, found]

theorem Declared.over_assoc (a b c : Declared) : (a.over b).over c = a.over (b.over c) := by
  simp only [Declared.over, Option.or_assoc]

theorem Declared.record_over : (({} : Declared).record key value).over d = d.record key value := by
  unfold Declared.record
  split
  · rfl
  · split <;> rfl

theorem step_over (flag : Bool) (d : Declared) (line : List Char) :
    step (flag, d) line = ((step (flag, {}) line).1, (step (flag, {}) line).2.over d) := by
  unfold step
  cases Line.read (Text.trimChars line) with
  | void => rfl
  | header name => rfl
  | option key value =>
    cases flag with
    | false => rfl
    | true => exact congrArg (Prod.mk true) Declared.record_over.symm

/-- What was declared before the pass is only fallen back on. -/
theorem foldl_step_over (lines : List (List Char)) (flag : Bool) (d : Declared) :
    lines.foldl step (flag, d) =
      ((lines.foldl step (flag, {})).1, (lines.foldl step (flag, {})).2.over d) := by
  induction lines generalizing flag d with
  | nil => rfl
  | cons line rest ih =>
    cases hs : step (flag, {}) line with
    | mk active declared =>
      rw [List.foldl_cons, List.foldl_cons, step_over, hs, ih active (declared.over d),
        ih active declared, Declared.over_assoc]

/-- Among the active lines that declare a key there is a last one. -/
theorem exists_lastDeclared {above below : List (List Char)} (hl : lines = above ++ line :: below)
    (active : Active above) (declares : Declares line key value) :
    ∃ last, LastDeclared lines key last := by
  induction lines using List.reverseRecOn generalizing below with
  | nil => simp at hl
  | append_singleton front final ih =>
    by_cases again : Active front ∧ ∃ other, Declares final key other
    · obtain ⟨reached, other, declared⟩ := again
      exact ⟨other, lastDeclared_concat.mpr (.inl ⟨reached, declared⟩)⟩
    · rcases below.eq_nil_or_concat with rfl | ⟨between, _, rfl⟩
      · obtain ⟨rfl, ⟨⟩⟩ := List.append_inj' hl rfl
        exact (again ⟨active, value, declares⟩).elim
      · rw [List.concat_eq_append, ← List.cons_append, ← List.append_assoc] at hl
        obtain ⟨last, h⟩ := ih (List.append_inj' hl rfl).1
        exact ⟨last, lastDeclared_concat.mpr (.inr ⟨h, again⟩)⟩

/-- Lines that do not declare a field leave it as it is. -/
theorem foldl_step_silent {lines : List (List Char)}
    (h : ∀ line ∈ lines, ∀ value, ¬ Declares (Text.trimChars line) field.key value) :
    (lines.foldl step state).2.get field = state.2.get field := by
  induction lines generalizing state with
  | nil => rfl
  | cons line rest ih =>
    rw [List.foldl_cons, ih _ fun l hl => h l (List.mem_cons_of_mem _ hl)]
    have silent := h line List.mem_cons_self
    refine Option.ext fun value => ?_
    rw [step_get]
    simp [silent]

theorem linesOf_text (content more : String) : Text.linesOf (content ++ "\n" ++ more).toList =
    Text.linesOf (content ++ "\n").toList ++ Text.linesOf more.toList := by
  rw [String.toList_append, String.toList_append, List.append_assoc]
  exact Text.linesOf_append content.toList more.toList

/-- The text is read as declared: a field has the value of its last declaration and is absent if
there is none, what is appended without declaring a field keeps it, and a text that begins with a
header is read on its own, with what stands above it to fall back on. -/
theorem parse_lastDeclared (content : String) (field : Field) :
    (∀ value : String, (parse content).get field = some value ↔
      LastDeclared (linesIn content) field.key value.toList) ∧
    ((parse content).get field = none ↔ ∀ above line below, linesIn content = above ++ line :: below →
      Active above → ∀ value, ¬ Declares line field.key value) ∧
    (∀ more, (∀ line ∈ linesIn more, ∀ value, ¬ Declares line field.key value) →
      (parse (content ++ "\n" ++ more)).get field = (parse (content ++ "\n")).get field) ∧
    (∀ more header rest name, linesIn more = header :: rest → Heads header name →
      parse (content ++ "\n" ++ more) = (parse more).over (parse (content ++ "\n"))) := by
  refine ⟨(foldl_step field _).2, ?_, fun more silent => ?_, ?_⟩
  · constructor
    · intro absent above line below hl active value declares
      obtain ⟨last, h⟩ := exists_lastDeclared hl active declares
      have found := (foldl_step field (Text.linesOf content.toList)).2 (String.ofList last)
      rw [String.toList_ofList] at found
      cases absent.symm.trans (found.mpr h)
    · intro silent
      refine Option.eq_none_iff_forall_ne_some.mpr fun value h => ?_
      obtain ⟨above, line, below, hl, active, declares, -⟩ := ((foldl_step field _).2 value).mp h
      exact silent above line below hl active _ declares
  · rw [parse, linesOf_text, List.foldl_append]
    exact foldl_step_silent _ _ fun line hl => silent _ (List.mem_map_of_mem hl)
  · intro more header rest name hl heads
    obtain ⟨first, others, hm, rfl, -⟩ := List.map_eq_cons_iff.mp hl
    have fresh (state : State) : step state first = (decide (name = "metadata".toList), state.2) := by
      simp only [step, read_eq_header.mpr heads]
    rw [parse, linesOf_text, List.foldl_append, parse, hm, List.foldl_cons, fresh, foldl_step_over,
      List.foldl_cons, fresh]
    rfl

/-- A second section declares the name anew and leaves the version to a module: the name is the newer
one and the version the older one. -/
theorem parse_two_sections :
    let older := "[metadata]\nname = a\nversion = 1"
    let newer := "[metadata]\nname = b\nversion = attr: lib.version\n[options]\nname = wrong"
    LastDeclared (linesIn (older ++ "\n" ++ newer)) Field.name.key "b".toList ∧
      (parse (older ++ "\n" ++ newer)).get .version = some "1" ∧
      parse (older ++ "\n" ++ newer) = ⟨some "b", some "1"⟩ := by
  intro older newer
  have dynamic : ∀ line ∈ linesIn newer, ∀ value, ¬ Declares line Field.version.key value := by
    have reads : ((linesIn newer).all fun line => match Line.read line with
        | .option key _ => key ≠ Field.version.key
        | _ => true) = true := by decide
    intro line hl value declares
    have other := List.all_eq_true.mp reads line hl
    rw [read_eq_option.mpr declares] at other
    exact of_decide_eq_true other rfl
  have before : (parse (older ++ "\n")).get .version = some "1" := by decide
  refine ⟨((parse_lastDeclared _ .name).1 "b").mp (by decide), ?_, ?_⟩
  · rw [(parse_lastDeclared older .version).2.2.1 newer dynamic, before]
  · rw [(parse_lastDeclared older .name).2.2.2 newer "[metadata]".toList
      (linesIn newer).tail "metadata".toList (by decide) ⟨"metadata".toList, by decide, by decide⟩]
    decide

end LayerPack.SetupCfg
