import LayerPack.Project.Name
import LayerPack.Proofs.Text.Lowercase
import Mathlib.Data.List.SplitBy

/-! The canonical form of distribution names. It is a normal form: no separator but single underscores
is left in it, no white space is around it, and it is its own canonical form. Names of ASCII characters
have the same canonical form exactly if package indexes take them for the same name. -/
namespace LayerPack.ProjectName

variable {cs : List Char} {after : Bool}

/-- The separators of the text are underscores, and no two of them are adjacent. -/
structure Collapsed (cs : List Char) : Prop where
  underscore : ∀ c ∈ cs, isSeparator c = true → c = '_'
  single : ¬ ['_', '_'] <:+: cs

/-- After an underscore there is no other one at the front. -/
theorem head?_collapse_true (cs : List Char) : (collapse true cs).head? ≠ some '_' := by
  induction cs with
  | nil => simp [collapse]
  | cons c rest ih =>
    rw [collapse]
    split
    · exact ih
    next hc =>
      intro h
      obtain rfl := Option.some.inj h
      exact hc (by decide)

theorem collapsed_collapse (after : Bool) (cs : List Char) : Collapsed (collapse after cs) := by
  induction cs generalizing after with
  | nil => exact ⟨by simp [collapse], by simp [collapse]⟩
  | cons c rest ih =>
    obtain ⟨underscore, single⟩ := ih true
    have goOn : Collapsed ('_' :: collapse true rest) := by
      refine ⟨?_, fun h => ?_⟩
      · simpa using underscore
      rcases List.infix_cons_iff.mp h with h | h
      · obtain ⟨more, hm⟩ := (List.cons_prefix_cons.mp h).2
        exact head?_collapse_true rest (by rw [← hm]; rfl)
      · exact single h
    rw [collapse]
    split
    · split
      · exact ih true
      · exact goOn
    next hc =>
      obtain ⟨underscore, single⟩ := ih false
      refine ⟨?_, fun h => ?_⟩
      · simpa [hc] using underscore
      rcases List.infix_cons_iff.mp h with h | h
      · exact hc ((List.cons_prefix_cons.mp h).1 ▸ by decide)
      · exact single h

theorem collapse_of_collapsed (h : Collapsed cs) (first : after = true → cs.head? ≠ some '_') :
    collapse after cs = cs := by
  induction cs generalizing after with
  | nil => rfl
  | cons c rest ih =>
    have inner : Collapsed rest :=
      ⟨fun x hx => h.underscore x (List.mem_cons_of_mem _ hx),
        fun hi => h.single (List.infix_cons hi)⟩
    rw [collapse]
    split
    next hc =>
      obtain rfl := h.underscore c List.mem_cons_self hc
      have before : after = false := Bool.eq_false_iff.mpr fun ha => first ha rfl
      have next : rest.head? ≠ some '_' := by
        rintro hr
        obtain ⟨more, rfl⟩ : ∃ more, rest = '_' :: more := by
          cases rest with
          | nil => cases hr
          | cons x more => exact ⟨more, by rw [Option.some.inj hr]⟩
        exact h.single ⟨[], more, rfl⟩
      rw [before, if_neg Bool.false_ne_true, ih inner fun _ => next]
    · rw [ih inner (by simp)]

/-- What is left of a text stood in it, apart from the underscores. -/
theorem mem_collapse : ∀ c ∈ collapse after cs, c = '_' ∨ c ∈ cs := by
  induction cs generalizing after with
  | nil => simp [collapse]
  | cons c rest ih =>
    intro x hx
    rw [collapse] at hx
    split at hx
    · split at hx
      · exact (ih x hx).imp_right (List.mem_cons_of_mem _)
      · rcases List.mem_cons.mp hx with h | hx
        · exact .inl h
        · exact (ih x hx).imp_right (List.mem_cons_of_mem _)
    · rcases List.mem_cons.mp hx with rfl | hx
      · exact .inr List.mem_cons_self
      · exact (ih x hx).imp_right (List.mem_cons_of_mem _)

theorem head?_collapse : ∀ c ∈ (collapse false cs).head?, c = '_' ∨ c ∈ cs.head? := by
  cases cs with
  | nil => simp [collapse]
  | cons c rest =>
    rw [collapse]
    split
    · exact fun x hx => .inl (Option.some.inj hx).symm
    · exact fun x hx => .inr hx

theorem collapse_false_ne_nil (c : Char) (rest : List Char) : collapse false (c :: rest) ≠ [] := by
  rw [collapse]
  split <;> simp

theorem getLast?_collapse : ∀ c ∈ (collapse after cs).getLast?, c = '_' ∨ c ∈ cs.getLast? := by
  induction cs generalizing after with
  | nil => simp [collapse]
  | cons c rest ih =>
    cases rest with
    | nil => cases after <;> cases hc : isSeparator c <;> simp [collapse, hc, eq_comm]
    | cons d rest =>
      intro x hx
      rw [List.getLast?_cons_cons]
      rw [collapse] at hx
      split at hx
      · split at hx
        · exact ih x hx
        · cases hl : collapse true (d :: rest) with
          | nil =>
            rw [hl] at hx
            exact .inl (Option.some.inj hx).symm
          | cons y l =>
            rw [hl, List.getLast?_cons_cons, ← hl] at hx
            exact ih x hx
      · obtain ⟨y, l, hl⟩ := List.exists_cons_of_ne_nil (collapse_false_ne_nil d rest)
        rw [hl, List.getLast?_cons_cons, ← hl] at hx
        exact ih x hx

theorem toList_canonical (name : String) : (canonical name).toList =
    collapse false (Text.lowerChars (Text.trimChars name.toList)) := String.toList_ofList

theorem lowered_underscore : Text.Lowered '_' := ⟨by decide +kernel, by decide⟩

/-- What every canonical form is like. -/
structure Canonical (cs : List Char) : Prop where
  collapsed : Collapsed cs
  trimmed : Text.Trimmed cs
  lowered : ∀ c ∈ cs, Text.Lowered c

theorem canonical_toList (name : String) : Canonical (canonical name).toList := by
  rw [toList_canonical]
  have trimmed := Text.trimmed_lowerChars (Text.trimmed_trimChars name.toList)
  have underscore : Text.isBlank '_' = false := by decide
  refine ⟨collapsed_collapse _ _, ⟨fun c hc => ?_, fun c hc => ?_⟩, fun c hc => ?_⟩
  · rcases head?_collapse c hc with rfl | hc
    · exact underscore
    · exact trimmed.1 c hc
  · rcases getLast?_collapse c hc with rfl | hc
    · exact underscore
    · exact trimmed.2 c hc
  · rcases mem_collapse c hc with rfl | hc
    · exact lowered_underscore
    · exact Text.lowered_of_mem_lowerFrom c hc

/-- Text that is like a canonical form is its own one. -/
theorem canonical_of_canonical {name : String} (h : Canonical name.toList) : canonical name = name := by
  refine String.toList_injective ?_
  rw [toList_canonical, Text.trimChars_of_trimmed h.trimmed, Text.lowerChars,
    Text.lowerFrom_of_lowered h.lowered, collapse_of_collapsed h.collapsed (by simp)]

/-! ### Names as indexes compare them -/

/-- Two adjacent characters are in the same run of separators. -/
def inRun (a b : Char) : Bool := isSeparator a && isSeparator b

/-- The form in which package indexes compare names (PEP 503): lower case letters, and one dash for
every maximal run of separators. -/
def indexForm (name : String) : String :=
  String.ofList (((name.toList.map Char.toLower).splitBy inRun).flatMap fun run =>
    if run.all isSeparator then ['-'] else run)

/-- The dash of an index for the underscore of a canonical form. -/
def dashFor (c : Char) : Char := if c = '_' then '-' else c

theorem collapse_separators {run rest : List Char} (h : ∀ c ∈ run, isSeparator c = true)
    (next : ∀ c ∈ rest.head?, isSeparator c = false) :
    collapse true (run ++ rest) = collapse false rest := by
  induction run with
  | nil =>
    cases rest with
    | nil => rfl
    | cons c rest => simp [collapse, next c rfl]
  | cons c run ih =>
    rw [List.cons_append, collapse, if_pos (h c List.mem_cons_self), if_pos rfl]
    exact ih fun x hx => h x (List.mem_cons_of_mem _ hx)

theorem separators_of_run {c : Char} {more : List Char}
    (run : (c :: more).IsChain fun a b => inRun a b = true) (hc : isSeparator c = true) :
    ∀ x ∈ c :: more, isSeparator x = true := by
  induction more generalizing c with
  | nil => simpa using hc
  | cons d more ih =>
    obtain ⟨both, run⟩ := List.isChain_cons_cons.mp run
    rw [inRun, Bool.and_eq_true] at both
    intro x hx
    rcases List.mem_cons.mp hx with rfl | hx
    · exact hc
    · exact ih run both.2 x hx

/-- The runs of separators between other characters are what collapses. -/
theorem flatMap_eq_map_collapse {parts : List (List Char)} (nonempty : [] ∉ parts)
    (runs : ∀ part ∈ parts, part.IsChain fun a b => inRun a b = true)
    (apart : parts.IsChain fun a b => ∃ ha hb, inRun (a.getLast ha) (b.head hb) = false) :
    parts.flatMap (fun run => if run.all isSeparator then ['-'] else run) =
      (collapse false parts.flatten).map dashFor := by
  induction parts with
  | nil => rfl
  | cons part rest ih =>
    rw [List.mem_cons, not_or] at nonempty
    obtain ⟨c, more, rfl⟩ := List.exists_cons_of_ne_nil (Ne.symm nonempty.1)
    have run := runs _ List.mem_cons_self
    obtain ⟨border, apart⟩ := List.isChain_cons.mp apart
    have ih := ih nonempty.2 (fun part hp => runs part (List.mem_cons_of_mem _ hp)) apart
    rw [List.flatMap_cons, ih, List.flatten_cons, List.cons_append, collapse]
    cases hc : isSeparator c with
    | true =>
      have all := separators_of_run run hc
      have next : ∀ x ∈ rest.flatten.head?, isSeparator x = false := by
        intro x hx
        cases rest with
        | nil => cases hx
        | cons part' rest =>
          obtain ⟨y, more', rfl⟩ := List.exists_cons_of_ne_nil fun h : part' = [] =>
            nonempty.2 (h ▸ List.mem_cons_self)
          obtain rfl : y = x := Option.some.inj hx
          obtain ⟨ha, hb, hborder⟩ := border _ rfl
          rw [inRun, all _ (List.getLast_mem ha), Bool.true_and] at hborder
          exact hborder
      rw [if_pos rfl, if_neg Bool.false_ne_true,
        collapse_separators (fun x hx => all x (List.mem_cons_of_mem _ hx)) next,
        if_pos (List.all_eq_true.mpr all)]
      rfl
    | false =>
      -- The chain of a run goes through separators only.
      have single : more = [] := by
        cases more with
        | nil => rfl
        | cons d more =>
          have both := (List.isChain_cons_cons.mp run).1
          rw [inRun, hc] at both
          cases both
      have other : dashFor c = c := if_neg fun h => by
        rw [h] at hc
        exact absurd hc (by decide)
      rw [single, if_neg Bool.false_ne_true, if_neg (by simp [hc]), List.nil_append, List.map_cons,
        other]
      rfl

/-- The form of an index is the canonical form with dashes for the underscores. -/
theorem toList_indexForm {name : String} (ascii : Text.Ascii name) :
    (indexForm (Text.trim name)).toList = (canonical name).toList.map dashFor := by
  have ascii : ∀ c ∈ Text.trimChars name.toList, c.toNat < 128 := fun c hc =>
    ascii c ((Text.trimChars_infix _).mem hc)
  rw [indexForm, String.toList_ofList, flatMap_eq_map_collapse (List.nil_notMem_splitBy _ _)
    (fun _ => List.isChain_of_mem_splitBy) (List.isChain_getLast_head_splitBy _ _),
    List.flatten_splitBy, toList_canonical, Text.lowerChars, Text.lowerFrom_ascii ascii, Text.trim,
    String.toList_ofList]

/-- No dash is left, so none can be taken for an underscore. -/
theorem eq_of_map_dashFor {cs cs' : List Char} (h : Collapsed cs) (h' : Collapsed cs')
    (same : cs.map dashFor = cs'.map dashFor) : cs = cs' := by
  have back {cs : List Char} (h : Collapsed cs) :
      (cs.map dashFor).map (fun c => if c = '-' then '_' else c) = cs := by
    rw [List.map_map]
    refine (List.map_congr_left fun c hc => ?_).trans (List.map_id _)
    have notDash : c ≠ '-' := fun hd =>
      absurd (h.underscore '-' (hd ▸ hc) (by decide)) (by decide)
    by_cases hu : c = '_' <;> simp [dashFor, hu, notDash]
  rw [← back h, same, back h']

/-- Every canonical form is a normal form: it is its own canonical form, no separator but single
underscores is in it, and no white space is around it. ASCII names have the same one exactly if they
are the same for a package index. -/
theorem canonical_normal : (∀ name : String, canonical (canonical name) = canonical name ∧
      '-' ∉ (canonical name).toList ∧ '.' ∉ (canonical name).toList ∧
      ¬ ['_', '_'] <:+: (canonical name).toList ∧ Text.Trimmed (canonical name).toList) ∧
    ∀ a b : String, Text.Ascii a → Text.Ascii b →
      (canonical a = canonical b ↔ indexForm (Text.trim a) = indexForm (Text.trim b)) := by
  refine ⟨fun name => ?_, fun a b ha hb => ?_⟩
  · obtain ⟨collapsed, trimmed, lowered⟩ := canonical_toList name
    have none {c : Char} (hc : isSeparator c = true) (other : c ≠ '_') : c ∉ (canonical name).toList :=
      fun hm => other (collapsed.underscore c hm hc)
    exact ⟨canonical_of_canonical ⟨collapsed, trimmed, lowered⟩, none (by decide) (by decide),
      none (by decide) (by decide), collapsed.single, trimmed⟩
  · constructor
    · intro h
      refine String.toList_injective ?_
      rw [toList_indexForm ha, toList_indexForm hb, h]
    · intro h
      have same := congrArg String.toList h
      rw [toList_indexForm ha, toList_indexForm hb] at same
      exact String.toList_injective
        (eq_of_map_dashFor (canonical_toList a).collapsed (canonical_toList b).collapsed same)

/-- Runs of different separators and a white space around them make no difference. -/
theorem spelled_names_canonical : Text.Ascii "Zope.Interface-_.X" ∧ Text.Ascii "\tzope_interface--x " ∧
    canonical "Zope.Interface-_.X" = canonical "\tzope_interface--x " ∧
    canonical "ΟΔΥΣΣΕΥΣ-ΙΘΑΚΗΣ" = canonical (canonical "ΟΔΥΣΣΕΥΣ-ΙΘΑΚΗΣ") := by
  have ascii : Text.Ascii "Zope.Interface-_.X" ∧ Text.Ascii "\tzope_interface--x " := by decide +kernel
  exact ⟨ascii.1, ascii.2, (canonical_normal.2 _ _ ascii.1 ascii.2).mpr (by decide +kernel),
    (canonical_normal.1 _).1.symm⟩

end LayerPack.ProjectName
