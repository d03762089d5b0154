import LayerPack.Text.Utf8

/-! The order of byte strings is a total order, so what is sorted by it is sorted in one way only. -/
namespace LayerPack

namespace Bytes

theorem le_refl (a : Bytes) : le a a = true := by
  induction a with
  | nil => rfl
  | cons x rest ih => simp [le, ih]

theorem le_total (a b : Bytes) : (le a b || le b a) = true := by
  induction a generalizing b with
  | nil => simp [le]
  | cons x rest ih =>
    cases b with
    | nil => simp [le]
    | cons y more =>
      have := ih more
      rcases UInt8.lt_or_le x y with h | h
      · simp [le, h]
      · rcases UInt8.lt_or_eq_of_le h with h | rfl
        · simp [le, h]
        · simpa [le] using this

theorem le_antisymm {a b : Bytes} (h : le a b = true) (h' : le b a = true) : a = b := by
  induction a generalizing b with
  | nil =>
    cases b with
    | nil => rfl
    | cons => cases h'
  | cons x rest ih =>
    cases b with
    | nil => cases h
    | cons y more =>
      simp only [le, Bool.or_eq_true, decide_eq_true_eq, Bool.and_eq_true, beq_iff_eq] at h h'
      rcases h with h | ⟨rfl, h⟩
      · rcases h' with h' | ⟨rfl, -⟩
        · exact (UInt8.lt_asymm h h').elim
        · exact (UInt8.lt_irrefl _ h).elim
      · rcases h' with h' | ⟨-, h'⟩
        · exact (UInt8.lt_irrefl _ h').elim
        · rw [ih h h']

theorem le_trans {a b c : Bytes} (h : le a b = true) (h' : le b c = true) : le a c = true := by
  induction a generalizing b c with
  | nil => rfl
  | cons x rest ih =>
    cases b with
    | nil => cases h
    | cons y more =>
      cases c with
      | nil => cases h'
      | cons z last =>
        simp only [le, Bool.or_eq_true, decide_eq_true_eq, Bool.and_eq_true, beq_iff_eq] at *
        rcases h with h | ⟨rfl, h⟩
        · rcases h' with h' | ⟨rfl, -⟩
          · exact .inl (UInt8.lt_trans h h')
          · exact .inl h
        · rcases h' with h' | ⟨rfl, h'⟩
          · exact .inl h'
          · exact .inr ⟨rfl, ih h h'⟩

end Bytes

/-- Lists with the same members in another order are the same when they are sorted by keys that tell
their members apart. -/
theorem mergeSort_of_perm {α : Type} {f : α → Bytes} {l l' : List α} (h : l.Perm l')
    (apart : ∀ a ∈ l, ∀ b ∈ l, f a = f b → a = b) :
    l.mergeSort (fun a b => Bytes.le (f a) (f b)) =
      l'.mergeSort fun a b => Bytes.le (f a) (f b) := by
  have sorted (l : List α) : (l.mergeSort fun a b => Bytes.le (f a) (f b)).Pairwise
      fun a b => Bytes.le (f a) (f b) := by
    refine List.pairwise_mergeSort (fun a b c => ?_) (fun a b => ?_) l
    · exact Bytes.le_trans
    · exact Bytes.le_total (f a) (f b)
  refine List.Perm.eq_of_pairwise (fun a b ha hb hab hba => ?_) (sorted l) (sorted l')
    ((List.mergeSort_perm l _).trans (h.trans (List.mergeSort_perm l' _).symm))
  have ha := (List.mergeSort_perm l _).mem_iff.mp ha
  have hb := h.mem_iff.mpr ((List.mergeSort_perm l' _).mem_iff.mp hb)
  exact apart a ha b hb (Bytes.le_antisymm hab hba)

end LayerPack
