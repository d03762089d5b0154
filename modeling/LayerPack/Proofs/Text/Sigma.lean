import LayerPack.Proofs.Text.Lowercase
import Mathlib.Data.List.Forall2
import Mathlib.Data.List.Induction

/-! Lowercase in context. What stands around a part of a text shows in its lowercase in one place only:
at a capital sigma that is met from there, past characters that are ignored. -/
namespace LayerPack.Text

variable {c : Char} {cs rest before before' after after' blanks : List Char} {cased : Bool}

/-! ### Looking for cased characters -/

theorem meetsCased_cons (c : Char) (rest : List Char) :
    meetsCased (c :: rest) = if isCaseIgnorable c then meetsCased rest else isCased c := by
  unfold meetsCased
  cases hc : isCaseIgnorable c with
  | true => rw [List.dropWhile_cons_of_pos hc, if_pos rfl]
  | false => rw [List.dropWhile_cons_of_neg (by simp [hc]), if_neg Bool.false_ne_true]

/-- Characters past which a cased one is looked for. -/
def Ignored (cs : List Char) : Prop := ∀ c ∈ cs, isCaseIgnorable c = true

theorem ignored_cons : Ignored (c :: cs) ↔ isCaseIgnorable c = true ∧ Ignored cs := List.forall_mem_cons

theorem meetsCased_append_of_ignored (h : Ignored cs) : meetsCased (cs ++ rest) = meetsCased rest := by
  induction cs with
  | nil => rfl
  | cons c cs ih =>
    obtain ⟨hc, h⟩ := ignored_cons.mp h
    rw [List.cons_append, meetsCased_cons, if_pos hc, ih h]

theorem meetsCased_append_of_not_ignored (h : ¬ Ignored cs) :
    meetsCased (cs ++ rest) = meetsCased cs := by
  induction cs with
  | nil => exact (h fun _ hc => by cases hc).elim
  | cons c cs ih =>
    rw [List.cons_append, meetsCased_cons, meetsCased_cons]
    split
    next hc => exact ih fun h' => h (ignored_cons.mpr ⟨hc, h'⟩)
    next => rfl

theorem meetsCased_append_congr (cs : List Char) (h : meetsCased after = meetsCased after') :
    meetsCased (cs ++ after) = meetsCased (cs ++ after') := by
  by_cases hi : Ignored cs
  · rw [meetsCased_append_of_ignored hi, meetsCased_append_of_ignored hi, h]
  · rw [meetsCased_append_of_not_ignored hi, meetsCased_append_of_not_ignored hi]

theorem sigma_not_ignored : ¬ isCaseIgnorable 'Σ' = true := by decide +kernel

/-! ### White space -/

def blankSpans : List (Nat × Nat) :=
  [(9, 13), (0x20, 0x20), (0x85, 0x85), (0xA0, 0xA0), (0x1680, 0x1680), (0x2000, 0x200A),
    (0x2028, 0x2029), (0x202F, 0x202F), (0x205F, 0x205F), (0x3000, 0x3000)]

theorem exists_blankSpan (h : isBlank c = true) :
    ∃ span ∈ blankSpans, span.1 ≤ c.toNat ∧ c.toNat ≤ span.2 := by
  simp only [isBlank, Bool.or_eq_true, Bool.and_eq_true, decide_eq_true_eq, beq_iff_eq] at h
  simp only [blankSpans, List.mem_cons, List.not_mem_nil, or_false, exists_eq_or_imp, exists_eq_left]
  omega

/-- White space is in none of the ranges that lie apart from it. -/
theorem inRanges_of_blank {ranges : List (Nat × Nat)}
    (apart : ∀ span ∈ blankSpans, ∀ range ∈ ranges, span.2 < range.1 ∨ range.2 < span.1)
    (h : isBlank c = true) : inRanges ranges c.toNat = false := by
  obtain ⟨span, hs, low, high⟩ := exists_blankSpan h
  rw [inRanges, List.any_eq_false]
  rintro range hr
  have := apart span hs range hr
  simp only [Bool.and_eq_true, decide_eq_true_eq]
  omega

/-- White space is neither cased nor ignored. -/
theorem meetsCased_blank (h : isBlank c = true) (rest : List Char) : meetsCased (c :: rest) = false := by
  have ignorable : isCaseIgnorable c = false := inRanges_of_blank (by decide +kernel) h
  rw [meetsCased_cons, ignorable, if_neg Bool.false_ne_true]
  exact inRanges_of_blank (by decide +kernel) h

theorem meetsCased_append_blanks (h : ∀ c ∈ blanks, isBlank c = true) :
    meetsCased (cs ++ blanks) = meetsCased cs := by
  have none : meetsCased blanks = meetsCased [] := by
    cases blanks with
    | nil => rfl
    | cons b more => exact meetsCased_blank (h b List.mem_cons_self) more
  have same := meetsCased_append_congr cs none
  rwa [List.append_nil] at same

/-! ### Sigmas that are met -/

/-- Past characters that are ignored a capital sigma is met, behind which a cased character is met, or
none. -/
def MeetsSigma (cased : Bool) (cs : List Char) : Prop :=
  ∃ near far, cs = near ++ 'Σ' :: far ∧ Ignored near ∧ meetsCased far = cased

theorem not_meetsSigma_nil : ¬ MeetsSigma cased [] := by
  rintro ⟨near, far, h, -⟩
  simp at h

theorem meetsSigma_cons : MeetsSigma cased (c :: cs) ↔
    (c = 'Σ' ∧ meetsCased cs = cased) ∨ (isCaseIgnorable c = true ∧ MeetsSigma cased cs) := by
  constructor
  · rintro ⟨near, far, h, hn, hf⟩
    cases near with
    | nil =>
      obtain ⟨rfl, rfl⟩ := List.cons.inj h
      exact .inl ⟨rfl, hf⟩
    | cons n near =>
      obtain ⟨rfl, rfl⟩ := List.cons.inj h
      obtain ⟨hc, hn⟩ := ignored_cons.mp hn
      exact .inr ⟨hc, near, far, rfl, hn, hf⟩
  · rintro (⟨rfl, hf⟩ | ⟨hc, near, far, rfl, hn, hf⟩)
    · exact ⟨[], cs, rfl, fun _ h => (by cases h), hf⟩
    · exact ⟨c :: near, far, rfl, ignored_cons.mpr ⟨hc, hn⟩, hf⟩

theorem meetsSigma_append_blanks (h : ∀ c ∈ blanks, isBlank c = true) :
    MeetsSigma cased (cs ++ blanks) ↔ MeetsSigma cased cs := by
  induction cs with
  | nil =>
    refine iff_of_false ?_ not_meetsSigma_nil
    rintro ⟨near, far, hb, -⟩
    exact absurd (h 'Σ' (by simp [show blanks = near ++ 'Σ' :: far from hb])) (by decide)
  | cons c cs ih => rw [List.cons_append, meetsSigma_cons, meetsSigma_cons, ih, meetsCased_append_blanks h]

/-! ### Lowercase of a part -/

/-- What a character is lowered to, with what stands before it, in reverse, and after it. -/
def lowerAt (before : List Char) (c : Char) (after : List Char) : List Char :=
  if c = 'Σ' then [if meetsCased before && !meetsCased after then 'ς' else 'σ'] else lowerChar c

/-- Lowercase of a part of a text, with what stands before it, in reverse, and after it. -/
def lowerWithin : (before part after : List Char) → List Char
  | _, [], _ => []
  | before, c :: rest, after => lowerAt before c (rest ++ after) ++ lowerWithin (c :: before) rest after

theorem lowerFrom_eq (before cs : List Char) : lowerFrom before cs = lowerWithin before cs [] := by
  induction cs generalizing before with
  | nil => rfl
  | cons c rest ih => rw [lowerFrom, lowerWithin, ih, List.append_nil, lowerAt]

theorem lowerWithin_append (before cs rest after : List Char) : lowerWithin before (cs ++ rest) after =
    lowerWithin before cs (rest ++ after) ++ lowerWithin (cs.reverse ++ before) rest after := by
  induction cs generalizing before with
  | nil => rfl
  | cons c cs ih => simp [lowerWithin, ih]

theorem lowerFrom_append (before cs rest : List Char) : lowerFrom before (cs ++ rest) =
    lowerWithin before cs rest ++ lowerFrom (cs.reverse ++ before) rest := by
  rw [lowerFrom_eq, lowerFrom_eq, lowerWithin_append, List.append_nil]

theorem lowerWithin_of_lowered (h : ∀ c ∈ cs, Lowered c) : lowerWithin before cs after = cs := by
  induction cs generalizing before with
  | nil => rfl
  | cons c rest ih =>
    obtain ⟨⟨same, hc⟩, h⟩ := List.forall_mem_cons.mp h
    rw [lowerWithin, lowerAt, if_neg hc, same, ih h, List.singleton_append]

/-- A text that is lowered in two contexts has the same characters but for its sigmas. -/
def SigmaTwins : List Char → List Char → Prop :=
  List.Forall₂ fun c c' => c = c' ∨ (Spanned c.toNat ∧ Spanned c'.toNat)

theorem SigmaTwins.refl (cs : List Char) : SigmaTwins cs cs := List.forall₂_same.mpr fun _ _ => .inl rfl

theorem sigmaTwins_lowerAt : SigmaTwins (lowerAt before c after) (lowerAt before' c after') := by
  have greek {final : Bool} : Spanned (if final then 'ς' else 'σ').toNat :=
    ⟨(0xDF, 0x167F), by decide, by cases final <;> decide, by cases final <;> decide⟩
  unfold lowerAt
  split
  · exact .cons (.inr ⟨greek, greek⟩) .nil
  · exact .refl _

theorem sigmaTwins_lowerWithin :
    SigmaTwins (lowerWithin before cs after) (lowerWithin before' cs after') := by
  induction cs generalizing before before' with
  | nil => exact .nil
  | cons c rest ih => exact List.rel_append sigmaTwins_lowerAt ih

theorem lowerAt_of_ne (h : c ≠ 'Σ') : lowerAt before c after = lowerChar c := if_neg h

theorem lowerAt_sigma_eq_iff : lowerAt before 'Σ' after = lowerAt before' 'Σ' after' ↔
    (meetsCased before && !meetsCased after) = (meetsCased before' && !meetsCased after') := by
  unfold lowerAt
  rw [if_pos rfl, if_pos rfl]
  cases meetsCased before && !meetsCased after <;>
    cases meetsCased before' && !meetsCased after' <;> decide

/-- What stands before a text shows in its lowercase only if a sigma is met from there, past which no
cased character is met. -/
theorem lowerFrom_eq_iff : lowerFrom before cs = lowerFrom before' cs ↔
    meetsCased before = meetsCased before' ∨ ¬ MeetsSigma false cs := by
  induction cs generalizing before before' with
  | nil => exact iff_of_true rfl (.inr not_meetsSigma_nil)
  | cons c rest ih =>
    have twins : SigmaTwins (lowerAt before c rest) (lowerAt before' c rest) := sigmaTwins_lowerAt
    change lowerAt before c rest ++ lowerFrom (c :: before) rest =
      lowerAt before' c rest ++ lowerFrom (c :: before') rest ↔ _
    rw [List.append_eq_append_iff_of_size_eq_left twins.length_eq, ih, meetsSigma_cons, meetsCased_cons,
      meetsCased_cons]
    by_cases hs : c = 'Σ'
    · subst hs
      rw [lowerAt_sigma_eq_iff, if_neg sigma_not_ignored, if_neg sigma_not_ignored]
      cases meetsCased before <;> cases meetsCased before' <;> cases meetsCased rest <;>
        simp [sigma_not_ignored]
    · rw [lowerAt_of_ne hs, lowerAt_of_ne hs]
      by_cases hc : isCaseIgnorable c = true <;> simp [hs, hc]

/-- What stands after a text shows in its lowercase only if a sigma is met from there, past which a cased
character is met. -/
theorem lowerWithin_eq_iff (cs : List Char) : lowerWithin [] cs after = lowerWithin [] cs after' ↔
    meetsCased after = meetsCased after' ∨ ¬ MeetsSigma true cs.reverse := by
  induction cs using List.reverseRecOn generalizing after after' with
  | nil => exact iff_of_true rfl (.inr not_meetsSigma_nil)
  | append_singleton front c ih =>
    rw [lowerWithin_append, lowerWithin_append,
      List.append_eq_append_iff_of_size_eq_left sigmaTwins_lowerWithin.length_eq, List.singleton_append,
      List.singleton_append, ih, List.reverse_append, List.reverse_singleton, List.singleton_append,
      meetsSigma_cons, meetsCased_cons, meetsCased_cons]
    simp only [lowerWithin, List.append_nil, List.nil_append]
    by_cases hs : c = 'Σ'
    · subst hs
      rw [lowerAt_sigma_eq_iff, if_neg sigma_not_ignored, if_neg sigma_not_ignored]
      cases meetsCased after <;> cases meetsCased after' <;> cases meetsCased front.reverse <;>
        simp [sigma_not_ignored]
    · rw [lowerAt_of_ne hs, lowerAt_of_ne hs]
      by_cases hc : isCaseIgnorable c = true <;> simp [hs, hc]

end LayerPack.Text
