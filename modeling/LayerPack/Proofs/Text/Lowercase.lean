import LayerPack.Proofs.Text.Lines
import LayerPack.Text.Lowercase
import Mathlib.Data.List.Basic

/-! Lowercase as a normal form. No character has a lowercase form that has another one in turn, so
lowering a text twice is lowering it once, whatever stands around a sigma the second time. Lowering
brings neither white space nor separators nor takes any away. -/
namespace LayerPack.Text

variable {c : Char} {cs before : List Char} {n : Nat} {r t : CaseRun}

/-- The targets of the first run are not covered by the second: they lie outside of it or between the
code points that it covers. -/
def CaseRun.Clears (r t : CaseRun) : Prop :=
  r.target + (r.last - r.first) < t.first ∨ t.last < r.target ∨
    ((r.step = 2 ∨ r.first = r.last) ∧ t.step = 2 ∧ (r.target + t.first) % 2 = 1)

instance (r t : CaseRun) : Decidable (r.Clears t) :=
  inferInstanceAs (Decidable (_ ∨ _ ∨ _))

theorem CaseRun.covers_iff : r.covers n = true ↔
    r.first ≤ n ∧ n ≤ r.last ∧ (n - r.first) % r.step = 0 := by
  simp [covers, and_assoc]

theorem CaseRun.Clears.not_covers (h : r.Clears t) (hn : r.covers n = true) :
    t.covers (r.target + (n - r.first)) = false := by
  obtain ⟨low, high, phase⟩ := covers_iff.mp hn
  rw [← Bool.not_eq_true, covers_iff]
  rintro ⟨low', high', phase'⟩
  rcases h with h | h | ⟨step, step', odd⟩
  · omega
  · omega
  · rw [step'] at phase'
    rcases step with step | single
    · rw [step] at phase
      omega
    · omega

theorem clears_of_mem : ∀ r ∈ lowercaseRuns, ∀ t ∈ lowercaseRuns, r.Clears t := by
  decide +kernel

/-- Between these bounds there are neither white space nor separators nor surrogates. -/
def letterSpans : List (Nat × Nat) :=
  [(0x61, 0x7A), (0xDF, 0x167F), (0x1681, 0x1FFF), (0x2060, 0x2FFF), (0x3001, 0xD7FF),
    (0xE000, 0x10FFFF)]

theorem lands_of_mem : ∀ r ∈ lowercaseRuns, ∃ span ∈ letterSpans,
    span.1 ≤ r.target ∧ r.target + (r.last - r.first) ≤ span.2 := by
  decide +kernel

/-- The code point lies between two of these bounds. -/
def Spanned (n : Nat) : Prop := ∃ span ∈ letterSpans, span.1 ≤ n ∧ n ≤ span.2

theorem Spanned.notBlank (h : Spanned c.toNat) : isBlank c = false := by
  simp only [Spanned, letterSpans, List.mem_cons, List.not_mem_nil, or_false, exists_eq_or_imp,
    exists_eq_left] at h
  simp only [isBlank, Bool.or_eq_false_iff, Bool.and_eq_false_iff, decide_eq_false_iff_not,
    beq_eq_false_iff_ne]
  omega

/-- Lowercase is where it was, or it is a letter that has no lowercase of its own. -/
theorem lowerCode_cases (n : Nat) : lowerCode n = n ∨
    (Spanned (lowerCode n) ∧ lowerCode (lowerCode n) = lowerCode n ∧ lowerCode n ≠ 0x130) := by
  cases hr : lowercaseRuns.find? (·.covers n) with
  | none => exact .inl (by rw [lowerCode, hr])
  | some r =>
    have hm := List.mem_of_find?_eq_some hr
    have hn : r.covers n = true := List.find?_some (p := (CaseRun.covers · n)) hr
    have hl : lowerCode n = r.target + (n - r.first) := by rw [lowerCode, hr]
    obtain ⟨low, high, -⟩ := CaseRun.covers_iff.mp hn
    refine .inr ⟨?_, ?_, ?_⟩
    · obtain ⟨span, hs, first, last⟩ := lands_of_mem r hm
      exact ⟨span, hs, by omega, by omega⟩
    · have none : lowercaseRuns.find? (·.covers (lowerCode n)) = none :=
        List.find?_eq_none.mpr fun t ht => by
          rw [hl, (clears_of_mem r hm t ht).not_covers hn]
          exact Bool.false_ne_true
      rw [lowerCode, none]
    · have clears : ∀ r ∈ lowercaseRuns, r.Clears ⟨0x130, 0x130, 1, 0⟩ := by decide +kernel
      intro h
      have missed := (clears r hm).not_covers hn
      rw [← hl, h] at missed
      cases missed

/-- A character that lowering leaves as it is, wherever it stands. -/
def Lowered (c : Char) : Prop := lowerChar c = [c] ∧ c ≠ 'Σ'

theorem Spanned.toNat_ofNat (h : Spanned n) : (Char.ofNat n).toNat = n := by
  have valid : n.isValidChar := by
    simp only [Spanned, letterSpans, List.mem_cons, List.not_mem_nil, or_false, exists_eq_or_imp,
      exists_eq_left] at h
    unfold Nat.isValidChar
    omega
  rw [Char.ofNat, dif_pos valid]
  rfl

theorem lowerChar_cases (c : Char) :
    lowerChar c = [c] ∨ ∀ x ∈ lowerChar c, Lowered x ∧ Spanned x.toNat := by
  rw [lowerChar]
  split
  · refine .inr fun x hx => ?_
    simp only [List.mem_cons, List.not_mem_nil, or_false] at hx
    rcases hx with rfl | rfl
    · exact ⟨⟨by decide +kernel, by decide⟩, (0x61, 0x7A), by decide, by decide, by decide⟩
    · exact ⟨⟨by decide +kernel, by decide⟩, (0xDF, 0x167F), by decide, by decide, by decide⟩
  · rcases lowerCode_cases c.toNat with same | ⟨spanned, still, undotted⟩
    · exact .inl (by rw [same, Char.ofNat_toNat])
    · refine .inr fun x hx => ?_
      obtain rfl := List.mem_singleton.mp hx
      have code := spanned.toNat_ofNat
      refine ⟨⟨?_, fun sigma => ?_⟩, by rwa [code]⟩
      · rw [lowerChar, code, if_neg undotted, still]
      · rw [sigma] at code
        rw [← code] at still
        exact absurd still (by decide +kernel)

/-- What one character of a text is lowered to. -/
theorem lowerFrom_cons (before : List Char) (c : Char) (rest : List Char) :
    ∃ piece, lowerFrom before (c :: rest) = piece ++ lowerFrom (c :: before) rest ∧ piece ≠ [] ∧
      ∀ x ∈ piece, Lowered x ∧ (x = c ∨ Spanned x.toNat) := by
  refine ⟨_, rfl, ?_, fun x hx => ?_⟩
  · unfold lowerChar
    repeat' split
    all_goals simp
  split at hx
  next =>
    have : x = 'ς' ∨ x = 'σ' := by
      split at hx
      · exact .inl (List.mem_singleton.mp hx)
      · exact .inr (List.mem_singleton.mp hx)
    rcases this with rfl | rfl
    all_goals
      exact ⟨⟨by decide +kernel, by decide⟩, .inr ⟨(0xDF, 0x167F), by decide, by decide, by decide⟩⟩
  next hc =>
    rcases lowerChar_cases c with same | lowered
    · obtain rfl := List.mem_singleton.mp (same ▸ hx)
      exact ⟨⟨same, hc⟩, .inl rfl⟩
    · exact ⟨(lowered x hx).1, .inr (lowered x hx).2⟩

theorem lowered_of_mem_lowerFrom : ∀ x ∈ lowerFrom before cs, Lowered x := by
  induction cs generalizing before with
  | nil => exact fun x hx => by cases hx
  | cons c rest ih =>
    obtain ⟨piece, h, -, lowered⟩ := lowerFrom_cons before c rest
    rw [h]
    exact fun x hx => (List.mem_append.mp hx).elim (fun hx => (lowered x hx).1) (ih x)

theorem lowerFrom_of_lowered (h : ∀ x ∈ cs, Lowered x) : lowerFrom before cs = cs := by
  induction cs generalizing before with
  | nil => rfl
  | cons c rest ih =>
    obtain ⟨same, hc⟩ := h c List.mem_cons_self
    rw [lowerFrom, if_neg hc, same, ih fun x hx => h x (List.mem_cons_of_mem _ hx)]
    rfl

theorem head?_lowerFrom : ∀ x ∈ (lowerFrom before cs).head?, x ∈ cs.head? ∨ Spanned x.toNat := by
  cases cs with
  | nil => exact fun x hx => by cases hx
  | cons c rest =>
    obtain ⟨piece, h, hne, from_⟩ := lowerFrom_cons before c rest
    obtain ⟨y, more, rfl⟩ := List.exists_cons_of_ne_nil hne
    rw [h]
    intro x hx
    obtain rfl : y = x := Option.some.inj hx
    exact (from_ y List.mem_cons_self).2.imp_left fun hy => congrArg some hy.symm

theorem getLast?_lowerFrom :
    ∀ x ∈ (lowerFrom before cs).getLast?, x ∈ cs.getLast? ∨ Spanned x.toNat := by
  induction cs generalizing before with
  | nil => exact fun x hx => by cases hx
  | cons c rest ih =>
    obtain ⟨piece, h, -, from_⟩ := lowerFrom_cons before c rest
    rw [h]
    cases rest with
    | nil =>
      rw [lowerFrom, List.append_nil]
      exact fun x hx => (from_ x (List.mem_of_getLast? hx)).2.imp_left fun hc => congrArg some hc.symm
    | cons d rest =>
      obtain ⟨piece', h', hne, -⟩ := lowerFrom_cons (c :: before) d rest
      have nonempty : lowerFrom (c :: before) (d :: rest) ≠ [] := by simp [h', hne]
      rw [List.getLast?_append_of_ne_nil _ nonempty, List.getLast?_cons_cons]
      exact ih

theorem trimmed_lowerChars (h : Trimmed cs) : Trimmed (lowerChars cs) :=
  ⟨fun x hx => (head?_lowerFrom x hx).elim (h.1 x) Spanned.notBlank,
    fun x hx => (getLast?_lowerFrom x hx).elim (h.2 x) Spanned.notBlank⟩

/-- Text of ASCII characters only. -/
def Ascii (s : String) : Prop := ∀ c ∈ s.toList, c.toNat < 128

instance (s : String) : Decidable (Ascii s) := List.decidableBAll _ s.toList

/-- ASCII text is lowered letter by letter. -/
theorem lowerFrom_ascii (h : ∀ c ∈ cs, c.toNat < 128) : lowerFrom before cs = cs.map Char.toLower := by
  have single : ∀ n < 128, lowerChar (Char.ofNat n) = [(Char.ofNat n).toLower] := by decide +kernel
  induction cs generalizing before with
  | nil => rfl
  | cons c rest ih =>
    have hc := h c List.mem_cons_self
    have sigma : c ≠ 'Σ' := by
      rintro rfl
      exact absurd hc (by decide)
    have low := single c.toNat hc
    rw [Char.ofNat_toNat] at low
    rw [lowerFrom, if_neg sigma, low, ih fun x hx => h x (List.mem_cons_of_mem _ hx)]
    rfl

end LayerPack.Text
