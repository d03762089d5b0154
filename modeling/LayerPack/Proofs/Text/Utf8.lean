import LayerPack.Proofs.Path.Parts
import LayerPack.Text.Blank

/-! Text as bytes and back. Text that is written as bytes is read back as it was, and a slash among
the bytes of a text comes from a slash in it. -/
namespace LayerPack

namespace Text

variable {sep : Char} {cs before after part : List Char}

theorem splitAll_ne_nil (sep : Char) (cs : List Char) : splitAll sep cs ≠ [] := by
  cases cs with
  | nil => simp [splitAll]
  | cons c rest =>
    rw [splitAll]
    split
    · simp
    · split <;> simp

theorem splitAll_of_notMem (h : sep ∉ part) : splitAll sep part = [part] := by
  induction part with
  | nil => rfl
  | cons c part ih =>
    rw [List.mem_cons, not_or] at h
    rw [splitAll, ih h.2]
    exact if_neg (Ne.symm h.1)

/-- The first part goes on to the first separator. -/
theorem splitAll_append (h : sep ∉ part) (rest : List Char) :
    splitAll sep (part ++ sep :: rest) = part :: splitAll sep rest := by
  induction part with
  | nil =>
    obtain ⟨first, more, hs⟩ := List.exists_cons_of_ne_nil (splitAll_ne_nil sep rest)
    rw [List.nil_append, splitAll, hs]
    exact if_pos rfl
  | cons c part ih =>
    rw [List.mem_cons, not_or] at h
    rw [List.cons_append, splitAll, ih h.2]
    exact if_neg (Ne.symm h.1)

/-- The first occurrence is where a text is split. -/
theorem splitAt?_eq_some :
    splitAt? sep cs = some (before, after) ↔ cs = before ++ sep :: after ∧ sep ∉ before := by
  induction cs generalizing before with
  | nil => simp [splitAt?]
  | cons c rest ih =>
    rw [splitAt?]
    by_cases hc : c = sep
    · rw [if_pos hc]
      cases before with
      | nil => simp [hc, eq_comm]
      | cons b before =>
        refine iff_of_false (by simp) fun ⟨h, hn⟩ => ?_
        obtain ⟨rfl, -⟩ := List.cons.inj h
        exact hn (hc ▸ List.mem_cons_self)
    · rw [if_neg hc, Option.map_eq_some_iff]
      constructor
      · rintro ⟨⟨front, back⟩, hs, he⟩
        obtain ⟨rfl, rfl⟩ := Prod.mk.inj he
        obtain ⟨rfl, hn⟩ := ih.mp hs
        exact ⟨rfl, List.not_mem_cons_of_ne_of_not_mem (Ne.symm hc) hn⟩
      · rintro ⟨h, hn⟩
        cases before with
        | nil => exact (hc (List.cons.inj h).1).elim
        | cons b before =>
          obtain ⟨rfl, rfl⟩ := List.cons.inj h
          exact ⟨(before, after), ih.mpr ⟨rfl, fun h => hn (List.mem_cons_of_mem _ h)⟩, rfl⟩

end Text

namespace Bytes

theorem ofString_eq (s : String) : ofString s = s.toList.flatMap String.utf8EncodeChar := by
  rw [ofString, String.toUTF8_eq_toByteArray, ← String.utf8Encode_toList, List.utf8Encode]
  simp

@[simp] theorem ofString_append (s t : String) : ofString (s ++ t) = ofString s ++ ofString t := by
  simp [ofString_eq]

theorem toByteArray_ofString (s : String) : List.toByteArray (ofString s) = s.toByteArray := by
  rw [ofString_eq, ← String.utf8Encode_toList, List.utf8Encode]

@[simp] theorem toText?_ofString (s : String) : toText? (ofString s) = some s := by
  rw [toText?, toByteArray_ofString, String.fromUTF8?]
  have h : s.toByteArray.IsValidUTF8 := s.isValidUTF8
  simp [h]
  rfl

theorem ofString_injective {s t : String} (h : ofString s = ofString t) : s = t := by
  have := congrArg toText? h
  simpa using this

@[simp] theorem display_ofString (s : String) : display (ofString s) = s := by
  simp [display]

theorem ofString_of_toText? {b : Bytes} {s : String} (h : toText? b = some s) : ofString s = b := by
  rw [toText?, String.fromUTF8?] at h
  split at h
  next hv =>
    obtain rfl := Option.some.inj h
    change (List.toByteArray b).data.toList = b
    simp
  · cases h

theorem length_le_length_ofString (s : String) : s.toList.length ≤ (ofString s).length := by
  rw [ofString_eq]
  induction s.toList with
  | nil => simp
  | cons c rest ih =>
    have : 0 < (String.utf8EncodeChar c).length := List.length_pos_iff.mpr String.utf8EncodeChar_ne_nil
    simp only [List.flatMap_cons, List.length_append, List.length_cons]
    omega

theorem ascii_ne_ofNat {b : UInt8} (hb : b.toNat < 128) {n : Nat} (h : 128 ≤ n) (h' : n < 256) :
    b ≠ UInt8.ofNat n := by
  intro he
  have := congrArg UInt8.toNat he
  rw [UInt8.toNat_ofNat', Nat.mod_eq_of_lt h'] at this
  omega

/-- All bytes of a character but those of ASCII are above ASCII. -/
theorem toNat_of_mem_encode {b : UInt8} (hb : b.toNat < 128) {c : Char}
    (h : b ∈ String.utf8EncodeChar c) : c.toNat = b.toNat := by
  unfold String.utf8EncodeChar at h
  dsimp only at h
  split at h
  next hc =>
    have he := congrArg UInt8.toNat (List.mem_singleton.mp h)
    rw [UInt8.toNat_ofNat', Nat.mod_eq_of_lt (by omega)] at he
    exact he.symm
  · exfalso
    split at h
    · simp only [List.mem_cons, List.not_mem_nil, or_false] at h
      rcases h with h | h
      all_goals exact ascii_ne_ofNat hb (by omega) (by omega) h
    · split at h
      · simp only [List.mem_cons, List.not_mem_nil, or_false] at h
        rcases h with h | h | h
        all_goals exact ascii_ne_ofNat hb (by omega) (by omega) h
      · simp only [List.mem_cons, List.not_mem_nil, or_false] at h
        rcases h with h | h | h | h
        all_goals exact ascii_ne_ofNat hb (by omega) (by omega) h

/-- A byte of ASCII in a text is a character of it. -/
theorem mem_of_ofString {b : UInt8} (hb : b.toNat < 128) {s : String} (h : b ∈ ofString s) :
    ∃ c ∈ s.toList, c.toNat = b.toNat := by
  rw [ofString_eq, List.mem_flatMap] at h
  obtain ⟨c, hc, hs⟩ := h
  exact ⟨c, hc, toNat_of_mem_encode hb hs⟩

theorem slash_mem_of_ofString {s : String} (h : slash ∈ ofString s) : '/' ∈ s.toList := by
  obtain ⟨c, hc, he⟩ := mem_of_ofString (by decide) h
  obtain rfl : c = '/' := Char.ext (UInt32.toNat_inj.mp he)
  exact hc

theorem slash_mem_ofString {s : String} (h : '/' ∈ s.toList) : slash ∈ ofString s := by
  rw [ofString_eq, List.mem_flatMap]
  exact ⟨'/', h, by decide⟩

theorem takeContinuation_ge {count value : Nat} {low high : UInt8} {rest rest' : Bytes}
    {value' : Nat} (h : takeContinuation count low high value rest = (true, value', rest')) :
    value * Nat.pow 64 count ≤ value' := by
  induction count generalizing low high value rest with
  | zero =>
    simp only [takeContinuation, Prod.mk.injEq, true_and] at h
    exact Nat.le_of_eq ((Nat.mul_one value).trans h.1)
  | succ count ih =>
    cases rest with
    | nil => simp [takeContinuation] at h
    | cons b rest =>
      rw [takeContinuation] at h
      split at h
      · have := ih h
        have power : Nat.pow 64 (count + 1) = 64 * Nat.pow 64 count := Nat.pow_succ'
        calc value * Nat.pow 64 (count + 1) = (value * 64) * Nat.pow 64 count := by
              rw [power, Nat.mul_assoc]
          _ ≤ (value * 64 + (b.toNat - 0x80)) * Nat.pow 64 count :=
            Nat.mul_le_mul_right _ (Nat.le_add_right ..)
          _ ≤ value' := this
      · simp at h

/-- The first continuation byte is in the range that it must be in. -/
theorem takeContinuation_ge_low {count value : Nat} {low high : UInt8} {rest rest' : Bytes}
    {value' : Nat}
    (h : takeContinuation (count + 1) low high value rest = (true, value', rest')) :
    (value * 64 + (low.toNat - 0x80)) * Nat.pow 64 count ≤ value' := by
  cases rest with
  | nil => simp [takeContinuation] at h
  | cons b rest =>
    rw [takeContinuation] at h
    split at h
    next hb =>
      rw [Bool.and_eq_true, decide_eq_true_eq, decide_eq_true_eq] at hb
      have hl : low.toNat ≤ b.toNat := UInt8.le_iff_toNat_le.mp hb.1
      refine Nat.le_trans (Nat.mul_le_mul_right _ ?_) (takeContinuation_ge h)
      omega
    · simp at h

/-- Numbers of no character count as zero. -/
theorem toNat_ofNat_of_pos {n : Nat} (h : 0 < (Char.ofNat n).toNat) : (Char.ofNat n).toNat = n := by
  by_cases valid : n.isValidChar
  · rw [Char.ofNat, dif_pos valid]
    rfl
  · rw [Char.ofNat, dif_neg valid] at h
    exact absurd h (by decide)

/-- The smallest number that a first byte can lead to. -/
def leastOf (b : UInt8) : Nat :=
  let (count, low, _) := shape b
  let lead := if count = 1 then b.toNat - 0xC0 else if count = 2 then b.toNat - 0xE0
    else b.toNat - 0xF0
  (lead * 64 + (low.toNat - 0x80)) * Nat.pow 64 (count - 1)

theorem leastOf_beyond_ascii (b : UInt8) (h : (shape b).1 ≠ 0) : 128 ≤ leastOf b := by
  have all : ∀ n : Fin 256, (shape (UInt8.ofFin n)).1 ≠ 0 → 128 ≤ leastOf (UInt8.ofFin n) := by
    decide +kernel
  exact all b.toFin h

/-- A character of ASCII is only read from its own byte. -/
theorem nextChar_ascii {b : UInt8} {rest : Bytes} {c : Char} (pos : 0 < c.toNat) (ascii : c.toNat < 128)
    (h : (nextChar b rest).1 = some c) : b.toNat = c.toNat ∧ (nextChar b rest).2 = rest := by
  unfold nextChar at h ⊢
  split at h
  next hb =>
    obtain rfl := Option.some.inj h
    rw [if_pos hb]
    exact ⟨(toNat_ofNat_of_pos pos).symm, rfl⟩
  next hb =>
    exfalso
    have hleast := leastOf_beyond_ascii b
    unfold leastOf at hleast
    generalize shape b = form at h hleast
    obtain ⟨count, low, high⟩ := form
    dsimp only at h hleast
    generalize (if count = 1 then b.toNat - 0xC0 else if count = 2 then b.toNat - 0xE0
      else b.toNat - 0xF0) = lead at h hleast
    split at h
    · cases h
    next hc =>
      have hleast := hleast hc
      obtain ⟨count, rfl⟩ := Nat.exists_eq_succ_of_ne_zero hc
      split at h
      next hcomplete =>
        have hge := Nat.le_trans hleast (takeContinuation_ge_low (Prod.ext hcomplete rfl))
        obtain rfl := Option.some.inj h
        rw [toNat_ofNat_of_pos pos] at ascii
        exact absurd (Nat.lt_of_le_of_lt hge ascii) (by omega)
      · cases h

theorem takeContinuation_suffix (count : Nat) (low high : UInt8) (value : Nat) (rest : Bytes) :
    (takeContinuation count low high value rest).2.2 <:+ rest := by
  induction count generalizing low high value rest with
  | zero => exact List.suffix_rfl
  | succ count ih =>
    cases rest with
    | nil => exact List.suffix_rfl
    | cons b rest =>
      rw [takeContinuation]
      split
      · exact (ih ..).trans (List.suffix_cons b rest)
      · exact List.suffix_rfl

theorem nextChar_suffix (b : UInt8) (rest : Bytes) : (nextChar b rest).2 <:+ rest := by
  unfold nextChar
  split
  · exact List.suffix_rfl
  · dsimp only
    split
    · exact List.suffix_rfl
    · exact takeContinuation_suffix ..

theorem slash_mem_of_decodeChars {b : Bytes} (h : '/' ∈ decodeChars b) : slash ∈ b := by
  fun_induction decodeChars b with
  | case1 => cases h
  | case2 first rest step ih =>
    rcases List.mem_cons.mp h with h | h
    · have hs : step.1 = some '/' := by
        cases hs : step.1 with
        | none =>
          rw [hs] at h
          exact absurd h (by decide)
        | some c =>
          rw [hs] at h
          exact congrArg some h.symm
      obtain ⟨same, -⟩ := nextChar_ascii (by decide) (by decide) hs
      exact UInt8.toNat_inj.mp (same.trans (by decide : '/'.toNat = slash.toNat)) ▸ List.mem_cons_self
    · exact List.mem_cons_of_mem _ ((nextChar_suffix first rest).subset (ih h))

/-- The bytes of what a reader sees of a name have no slash either. -/
theorem notMem_ofString_display {b : Bytes} (h : slash ∉ b) : slash ∉ ofString (display b) := by
  rw [display]
  cases ht : toText? b with
  | some s =>
    exact (ofString_of_toText? ht).symm ▸ h
  | none =>
    intro hm
    refine h (slash_mem_of_decodeChars ?_)
    simpa using slash_mem_of_ofString hm

/-- A slash ends what stands before it. -/
theorem takeContinuation_append_slash {low high : UInt8} (h : slash < low) (count value : Nat)
    (rest more : Bytes) : takeContinuation count low high value (rest ++ slash :: more) =
      ((takeContinuation count low high value rest).1, (takeContinuation count low high value rest).2.1,
        (takeContinuation count low high value rest).2.2 ++ slash :: more) := by
  induction count generalizing low high value rest with
  | zero => rfl
  | succ count ih =>
    cases rest with
    | nil =>
      have outside : ¬ (decide (low ≤ slash) && decide (slash ≤ high)) = true := by
        simp [UInt8.not_le.mpr h]
      rw [List.nil_append, takeContinuation, takeContinuation, if_neg outside, List.nil_append]
    | cons b rest =>
      rw [List.cons_append, takeContinuation, takeContinuation]
      split
      · exact ih (by decide) ..
      · rfl

theorem nextChar_append_slash (b : UInt8) (rest more : Bytes) : nextChar b (rest ++ slash :: more) =
    ((nextChar b rest).1, (nextChar b rest).2 ++ slash :: more) := by
  have low : (shape b).1 ≠ 0 → slash < (shape b).2.1 := by
    have all : ∀ n : Fin 256, (shape (UInt8.ofFin n)).1 ≠ 0 → slash < (shape (UInt8.ofFin n)).2.1 := by
      decide +kernel
    exact all b.toFin
  unfold nextChar
  split
  · rfl
  · generalize shape b = form at low
    obtain ⟨count, low', high⟩ := form
    dsimp only at low ⊢
    split
    · rfl
    next hc => rw [takeContinuation_append_slash (low hc)]

theorem decodeChars_cons (b : UInt8) (rest : Bytes) : decodeChars (b :: rest) =
    (nextChar b rest).1.getD (Char.ofNat 0xFFFD) :: decodeChars (nextChar b rest).2 := by
  rw [decodeChars]

/-- What stands before a slash is decoded apart from what stands behind it. -/
theorem decodeChars_append_slash (a b : Bytes) :
    decodeChars (a ++ slash :: b) = decodeChars a ++ '/' :: decodeChars b := by
  fun_induction decodeChars a with
  | case1 =>
    rw [List.nil_append, decodeChars_cons]
    rfl
  | case2 first rest step ih =>
    rw [List.cons_append, decodeChars_cons, nextChar_append_slash, ih]
    rfl

/-- A character of ASCII at the front stands for its own byte. -/
theorem eq_cons_of_decodeChars {b : Bytes} {c : Char} {cs : List Char} (pos : 0 < c.toNat)
    (ascii : c.toNat < 128) (h : decodeChars b = c :: cs) :
    ∃ first rest, b = first :: rest ∧ first.toNat = c.toNat ∧ decodeChars rest = cs := by
  cases b with
  | nil =>
    rw [decodeChars] at h
    cases h
  | cons first rest =>
    rw [decodeChars_cons] at h
    obtain ⟨head, tail⟩ := List.cons.inj h
    have read : (nextChar first rest).1 = some c := by
      cases hn : (nextChar first rest).1 with
      | none =>
        rw [hn] at head
        rw [← head] at ascii
        exact absurd ascii (by decide)
      | some d =>
        rw [hn] at head
        exact congrArg some head
    obtain ⟨same, left⟩ := nextChar_ascii pos ascii read
    exact ⟨first, rest, rfl, same, left ▸ tail⟩

theorem splitSlash_append_of_notMem {a : Bytes} (h : slash ∉ a) (b : Bytes) :
    ∃ first rest, splitSlash b = first :: rest ∧ splitSlash (a ++ b) = (a ++ first) :: rest := by
  obtain ⟨first, rest, hb⟩ := List.exists_cons_of_ne_nil (splitSlash_ne_nil b)
  refine ⟨first, rest, hb, ?_⟩
  induction a with
  | nil => exact hb
  | cons x tail ih =>
    rw [List.mem_cons, not_or] at h
    rw [List.cons_append, splitSlash_cons (ih h.2), if_neg (Ne.symm h.1), List.cons_append]

/-- A text is cut at its slashes as its bytes are. -/
theorem splitSlash_encode (chars : List Char) :
    splitSlash (chars.flatMap String.utf8EncodeChar) =
      (Text.splitAll '/' chars).map (·.flatMap String.utf8EncodeChar) := by
  induction chars with
  | nil => rfl
  | cons c rest ih =>
    obtain ⟨part, parts, hs⟩ := List.exists_cons_of_ne_nil (Text.splitAll_ne_nil '/' rest)
    rw [hs, List.map_cons] at ih
    rw [List.flatMap_cons, Text.splitAll, hs]
    by_cases hc : c = '/'
    · have hslash : String.utf8EncodeChar '/' = [slash] := by decide
      rw [hc, hslash, List.singleton_append, splitSlash_slash, ih]
      rfl
    · have hn : slash ∉ String.utf8EncodeChar c := fun hm =>
        hc (Char.ext (UInt32.toNat_inj.mp (toNat_of_mem_encode (by decide) hm)))
      obtain ⟨first, more, hsplit, happ⟩ :=
        splitSlash_append_of_notMem hn (rest.flatMap String.utf8EncodeChar)
      obtain ⟨rfl, rfl⟩ := List.cons.inj (hsplit.symm.trans ih)
      rw [happ]
      dsimp only
      rw [if_neg hc]
      rfl

theorem splitSlash_ofString (s : String) :
    splitSlash (ofString s) = (Text.splitAll '/' s.toList).map (ofString ∘ String.ofList) := by
  rw [ofString_eq, splitSlash_encode]
  refine List.map_congr_left fun chars _ => ?_
  rw [Function.comp_apply, ofString_eq, String.toList_ofList]

/-- A text that is cut at its slashes falls into texts. -/
theorem text_of_mem_splitSlash {s : String} {part : Bytes} (h : part ∈ splitSlash (ofString s)) :
    ∃ t, ofString t = part := by
  rw [splitSlash_ofString] at h
  obtain ⟨chars, -, rfl⟩ := List.mem_map.mp h
  exact ⟨String.ofList chars, rfl⟩

end Bytes

end LayerPack
