import LayerPack.Proofs.Project.Name
import LayerPack.Proofs.Text.Sigma

/-! Separators in a distribution name. A run of them becomes one underscore, whichever they are and
however many. What else they do comes from lowercase, which sees the name before its runs are collapsed:
a word goes on past dots, and past nothing else. -/
namespace LayerPack.ProjectName

open Text (Ignored MeetsSigma SigmaTwins Spanned lowerFrom lowerWithin meetsCased)

variable {c : Char} {cs part rest run other before behind : List Char} {after : Bool}

theorem separator_cases (h : isSeparator c = true) : c = '-' ∨ c = '_' ∨ c = '.' := by
  simpa [isSeparator, or_assoc] using h

theorem lowered_of_separator (h : isSeparator c = true) : Text.Lowered c := by
  rcases separator_cases h with rfl | rfl | rfl <;> exact ⟨by decide +kernel, by decide⟩

theorem notBlank_of_separator (h : isSeparator c = true) : Text.isBlank c = false := by
  rcases separator_cases h with rfl | rfl | rfl <;> decide

theorem not_separator_of_spanned (h : Spanned c.toNat) : isSeparator c = false := by
  rw [← Bool.not_eq_true]
  intro hc
  rcases separator_cases hc with rfl | rfl | rfl <;> exact absurd h (by unfold Spanned; decide)

/-! ### A run that is collapsed -/

/-- A text that does not end in a separator is collapsed apart from what follows it. -/
theorem collapse_append (last : ∀ c ∈ part.getLast?, isSeparator c = false)
    (empty : part = [] → after = false) :
    collapse after (part ++ rest) = collapse after part ++ collapse false rest := by
  induction part generalizing after with
  | nil => rw [empty rfl]; rfl
  | cons c more ih =>
    cases more with
    | nil => simp [collapse, last c rfl]
    | cons d more =>
      have last : ∀ c ∈ (d :: more).getLast?, isSeparator c = false := by simpa using last
      have ih {after : Bool} := @ih after last (by simp)
      rw [List.cons_append, collapse, collapse]
      split
      · split
        · exact ih
        · exact congrArg _ ih
      · exact congrArg _ ih

theorem collapse_run (nonempty : run ≠ []) (separators : ∀ c ∈ run, isSeparator c = true)
    (first : ∀ c ∈ rest.head?, isSeparator c = false) :
    collapse false (run ++ rest) = '_' :: collapse false rest := by
  obtain ⟨c, run, rfl⟩ := List.exists_cons_of_ne_nil nonempty
  obtain ⟨hc, separators⟩ := List.forall_mem_cons.mp separators
  rw [List.cons_append, collapse, if_pos hc, if_neg Bool.false_ne_true,
    collapse_separators separators first]

/-! ### A text that is lowered in two contexts -/

theorem map_isSeparator_of_twins {cs cs' : List Char} (h : SigmaTwins cs cs') :
    cs.map isSeparator = cs'.map isSeparator := by
  induction h with
  | nil => rfl
  | cons hc _ ih =>
    rw [List.map_cons, List.map_cons, ih]
    rcases hc with rfl | ⟨hc, hc'⟩
    · rfl
    · rw [not_separator_of_spanned hc, not_separator_of_spanned hc']

theorem length_collapse_of_twins {cs cs' : List Char} (h : SigmaTwins cs cs') :
    (collapse after cs).length = (collapse after cs').length := by
  induction h generalizing after with
  | nil => rfl
  | cons hc _ ih =>
    have same := (List.cons.inj (map_isSeparator_of_twins (.cons hc .nil))).1
    simp only [collapse, same]
    split
    · split
      · exact ih
      · exact congrArg (· + 1) ih
    · exact congrArg (· + 1) ih

/-- The letters in which the two differ are not collapsed. -/
theorem collapse_eq_iff_of_twins {cs cs' : List Char} (h : SigmaTwins cs cs') :
    collapse after cs = collapse after cs' ↔ cs = cs' := by
  induction h generalizing after with
  | nil => exact Iff.rfl
  | cons hc _ ih =>
    rcases hc with rfl | ⟨hc, hc'⟩
    · rw [collapse, collapse, List.cons_inj_right]
      split
      · split
        · exact ih
        · rw [List.cons_inj_right, ih]
      · rw [List.cons_inj_right, ih]
    · simp [collapse, not_separator_of_spanned hc, not_separator_of_spanned hc', ih]

/-! ### Maximal runs -/

/-- A run of separators in a text, and what stands before and behind it. -/
structure MaximalRun (before run behind : List Char) : Prop where
  nonempty : run ≠ []
  separators : ∀ c ∈ run, isSeparator c = true
  last : ∀ c ∈ before.getLast?, isSeparator c = false
  first : ∀ c ∈ behind.head?, isSeparator c = false

theorem MaximalRun.replace (h : MaximalRun before run behind) (nonempty : other ≠ [])
    (separators : ∀ c ∈ other, isSeparator c = true) : MaximalRun before other behind :=
  ⟨nonempty, separators, h.last, h.first⟩

/-- White space around the text is apart from the run. -/
theorem MaximalRun.trim (h : MaximalRun before run behind) :
    MaximalRun (Text.trimLeft before) run (Text.trimRight behind) := by
  refine ⟨h.nonempty, h.separators, fun c hc => h.last c ?_, fun c hc => h.first c ?_⟩
  · obtain ⟨blanks, hb⟩ : Text.trimLeft before <:+ before := List.dropWhile_suffix _
    rw [← hb, List.getLast?_append, Option.mem_def.mp hc]
    rfl
  · obtain ⟨blanks, hb⟩ := Text.trimRight_isPrefix behind
    rw [← hb, List.head?_append, Option.mem_def.mp hc]
    rfl

theorem MaximalRun.trimChars_eq (h : MaximalRun before run behind) :
    Text.trimChars (before ++ run ++ behind) = Text.trimLeft before ++ run ++ Text.trimRight behind := by
  have notBlank : ∀ c ∈ run, Text.isBlank c = false := fun c hc =>
    notBlank_of_separator (h.separators c hc)
  have left : Text.trimLeft (before ++ run ++ behind) = Text.trimLeft before ++ run ++ behind := by
    obtain ⟨c, more, rfl⟩ := List.exists_cons_of_ne_nil h.nonempty
    rw [List.append_assoc, List.cons_append, Text.trimLeft_append (notBlank c List.mem_cons_self),
      List.append_assoc, List.cons_append]
  obtain ⟨front, c, rfl⟩ : ∃ front c, run = front ++ [c] :=
    ⟨_, _, (List.dropLast_append_getLast h.nonempty).symm⟩
  rw [Text.trimChars, left, ← List.append_assoc, List.append_assoc (_ ++ front), List.singleton_append,
    Text.trimRight_append (notBlank c (by simp)), List.append_assoc (_ ++ front), List.singleton_append]

theorem MaximalRun.last_lowered (h : MaximalRun before run behind) (rest : List Char) :
    ∀ c ∈ (lowerWithin [] before rest).getLast?, isSeparator c = false := by
  have twins : SigmaTwins (lowerWithin [] before rest) (lowerFrom [] before) := by
    rw [Text.lowerFrom_eq]
    exact Text.sigmaTwins_lowerWithin
  have same := congrArg List.getLast? (map_isSeparator_of_twins twins)
  rw [List.getLast?_map, List.getLast?_map] at same
  intro c hc
  rw [Option.mem_def.mp hc] at same
  obtain ⟨d, hd, hs⟩ := Option.map_eq_some_iff.mp same.symm
  rw [← hs]
  exact (Text.getLast?_lowerFrom d hd).elim (h.last d) not_separator_of_spanned

theorem MaximalRun.first_lowered (h : MaximalRun before run behind) (cs : List Char) :
    ∀ c ∈ (lowerFrom cs behind).head?, isSeparator c = false := fun c hc =>
  (Text.head?_lowerFrom c hc).elim (h.first c) not_separator_of_spanned

theorem MaximalRun.collapse_lowerChars (h : MaximalRun before run behind) :
    collapse false (Text.lowerChars (before ++ run ++ behind)) =
      collapse false (lowerWithin [] before (run ++ behind)) ++
        '_' :: collapse false (lowerFrom (run.reverse ++ before.reverse) behind) := by
  have same {front rear : List Char} : lowerWithin front run rear = run :=
    Text.lowerWithin_of_lowered fun c hc => lowered_of_separator (h.separators c hc)
  rw [Text.lowerChars, List.append_assoc, Text.lowerFrom_append, Text.lowerFrom_append, same,
    List.append_nil, collapse_append (h.last_lowered _) fun _ => rfl,
    collapse_run h.nonempty h.separators (h.first_lowered _)]

/-! ### What is met past a run -/

/-- The run has dots only. -/
def Dots (run : List Char) : Prop := ∀ c ∈ run, c = '.'

theorem dots_iff_ignored (separators : ∀ c ∈ run, isSeparator c = true) : Dots run ↔ Ignored run := by
  refine forall₂_congr fun c hc => ?_
  rcases separator_cases (separators c hc) with rfl | rfl | rfl <;> decide +kernel

theorem meetsCased_separators (separators : ∀ c ∈ run, isSeparator c = true) :
    meetsCased run = false := by
  induction run with
  | nil => rfl
  | cons c run ih =>
    obtain ⟨hc, separators⟩ := List.forall_mem_cons.mp separators
    rw [Text.meetsCased_cons, ih separators]
    rcases separator_cases hc with rfl | rfl | rfl <;> decide +kernel

/-- A cased character is met past dots, and past no other separators. -/
theorem meetsCased_run (separators : ∀ c ∈ run, isSeparator c = true) :
    meetsCased (run ++ rest) = true ↔ Dots run ∧ meetsCased rest = true := by
  rw [dots_iff_ignored separators]
  by_cases h : Ignored run
  · rw [Text.meetsCased_append_of_ignored h, and_iff_right h]
  · rw [Text.meetsCased_append_of_not_ignored h, meetsCased_separators separators]
    simp [h]

theorem meetsCased_run_eq_iff (separators : ∀ c ∈ run, isSeparator c = true)
    (separators' : ∀ c ∈ other, isSeparator c = true) (rest : List Char) :
    meetsCased (other ++ rest) = meetsCased (run ++ rest) ↔
      (Dots other ↔ Dots run) ∨ ¬ meetsCased rest = true := by
  rw [Bool.eq_iff_iff, meetsCased_run separators, meetsCased_run separators', and_congr_left_iff,
    imp_iff_or_not]

theorem dots_reverse : Dots run.reverse ↔ Dots run := by simp [Dots]

/-- A capital sigma whose word would go on past the run if it had dots only, and would end there
otherwise: it stands before the run at the end of letters, or behind the run at the end of a word that
has no letters there. -/
def SigmaTurns (before behind : List Char) : Prop :=
  (meetsCased behind = true ∧ MeetsSigma true before.reverse) ∨
    (meetsCased before.reverse = true ∧ MeetsSigma false behind)

/-- White space around the text does not turn a sigma. -/
theorem sigmaTurns_trim (before behind : List Char) :
    SigmaTurns (Text.trimLeft before) (Text.trimRight behind) ↔ SigmaTurns before behind := by
  obtain ⟨blanks, hb, front⟩ := Text.reverse_trimLeft before
  obtain ⟨blanks', hb', rear⟩ := Text.exists_trimRight behind
  have sigma (cased : Bool) : MeetsSigma cased behind ↔ MeetsSigma cased (Text.trimRight behind) := by
    conv_lhs => rw [rear]
    exact Text.meetsSigma_append_blanks hb'
  have met : meetsCased behind = meetsCased (Text.trimRight behind) := by
    conv_lhs => rw [rear]
    exact Text.meetsCased_append_blanks hb'
  unfold SigmaTurns
  rw [front, Text.meetsSigma_append_blanks hb, Text.meetsCased_append_blanks hb, sigma, met]

/-- Putting other separators for a maximal run of them leaves the canonical form as it is exactly if both
or neither are dots only, or no capital sigma turns at the run. -/
theorem canonical_replace_run (h : MaximalRun before run behind) (nonempty : other ≠ [])
    (separators : ∀ c ∈ other, isSeparator c = true) :
    canonical (String.ofList (before ++ other ++ behind)) =
        canonical (String.ofList (before ++ run ++ behind)) ↔
      (Dots other ↔ Dots run) ∨ ¬ SigmaTurns before behind := by
  have h' := h.replace nonempty separators
  rw [← sigmaTurns_trim, ← String.toList_inj, toList_canonical, toList_canonical, String.toList_ofList,
    String.toList_ofList, h.trimChars_eq, h'.trimChars_eq, h.trim.collapse_lowerChars,
    h'.trim.collapse_lowerChars]
  generalize Text.trimLeft before = front, Text.trimRight behind = rear
  have front_twins : SigmaTwins (lowerWithin [] front (other ++ rear))
      (lowerWithin [] front (run ++ rear)) := Text.sigmaTwins_lowerWithin
  have rear_twins : SigmaTwins (lowerFrom (other.reverse ++ front.reverse) rear)
      (lowerFrom (run.reverse ++ front.reverse) rear) := by
    rw [Text.lowerFrom_eq, Text.lowerFrom_eq]
    exact Text.sigmaTwins_lowerWithin
  have before_run := meetsCased_run_eq_iff h.separators separators rear
  have behind_run := meetsCased_run_eq_iff (fun c hc => h.separators c (List.mem_reverse.mp hc))
    (fun c hc => separators c (List.mem_reverse.mp hc)) front.reverse
  rw [dots_reverse, dots_reverse] at behind_run
  rw [List.append_eq_append_iff_of_size_eq_left (length_collapse_of_twins front_twins),
    List.cons_inj_right, collapse_eq_iff_of_twins front_twins, collapse_eq_iff_of_twins rear_twins,
    Text.lowerWithin_eq_iff, Text.lowerFrom_eq_iff, before_run, behind_run, SigmaTurns]
  by_cases same : Dots other ↔ Dots run
  · simp only [same, true_or, and_self]
  · simp only [same, false_or, not_or, not_and_or]

/-- A dash in place of the dot ends the word of a sigma; one underscore in place of two dashes does
nothing. -/
theorem dot_spells_sigma : MaximalRun ['Α', 'Σ'] ['.'] ['Α'] ∧ ¬ canonical "ΑΣ-Α" = canonical "ΑΣ.Α" ∧
    MaximalRun ['Α', 'Σ'] ['-', '-'] ['Α'] ∧ canonical "ΑΣ_Α" = canonical "ΑΣ--Α" := by
  have dot : MaximalRun ['Α', 'Σ'] ['.'] ['Α'] := by constructor <;> simp [isSeparator]
  have dashes : MaximalRun ['Α', 'Σ'] ['-', '-'] ['Α'] := by constructor <;> simp [isSeparator]
  have turns : SigmaTurns ['Α', 'Σ'] ['Α'] :=
    .inl ⟨by decide +kernel, [], ['Α'], rfl, by simp [Ignored], by decide +kernel⟩
  refine ⟨dot, fun same => ?_, dashes, ?_⟩
  · have := (canonical_replace_run dot (by simp : ['-'] ≠ []) (by simp [isSeparator])).mp same
    simp [turns, Dots] at this
  · exact (canonical_replace_run dashes (by simp : ['_'] ≠ []) (by simp [isSeparator])).mpr
      (.inl (by simp [Dots]))

end LayerPack.ProjectName
