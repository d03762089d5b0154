import LayerPack.Text.Json
import Mathlib.Data.List.Basic

/-! The grammar of JSON, and what is rendered by it. A text spells a document: its values are spelled as the
grammar has them, with gaps wherever they may stand. Every rendered document is spelled by its text. -/
namespace LayerPack.Json

/-- What may stand between the tokens of a text. -/
def Gap (text : List Char) : Prop := ∀ c ∈ text, c = ' ' ∨ c = '\t' ∨ c = '\n' ∨ c = '\r'

/-- The value of a hexadecimal digit. -/
def hexDigit? (c : Char) : Option Nat :=
  if '0' ≤ c ∧ c ≤ '9' then some (c.toNat - 48)
  else if 'a' ≤ c ∧ c ≤ 'f' then some (c.toNat - 87)
  else if 'A' ≤ c ∧ c ≤ 'F' then some (c.toNat - 55)
  else none

/-- The value of four hexadecimal digits. -/
def unit? : List Char → Option Nat
  | [a, b, c, d] => do
    return ((← hexDigit? a) * 16 + (← hexDigit? b)) * 256 + (← hexDigit? c) * 16 + (← hexDigit? d)
  | _ => none

/-- The characters that have an escape of two characters, each with the second one. -/
def shorts : List (Char × Char) := [('"', '"'), ('\\', '\\'), ('/', '/'), (Char.ofNat 8, 'b'),
  (Char.ofNat 12, 'f'), ('\n', 'n'), ('\r', 'r'), ('\t', 't')]

/-- A character within quotes: itself, unless it is a quote, a backslash or a control character, or one of its
escapes. -/
inductive Letter : Char → List Char → Prop
  | plain {c : Char} (quote : c ≠ '"') (backslash : c ≠ '\\') (printed : 0x20 ≤ c.toNat) : Letter c [c]
  | short {c letter : Char} (h : (c, letter) ∈ shorts) : Letter c ['\\', letter]
  | unit {c : Char} {digits : List Char} (h : unit? digits = some c.toNat) : Letter c ('\\' :: 'u' :: digits)
  | pair {c : Char} {high low : List Char} {a b : Nat} (first : unit? high = some a) (second : unit? low = some b)
    (ranges : 0xD800 ≤ a ∧ a < 0xDC00 ∧ 0xDC00 ≤ b ∧ b < 0xE000)
    (h : c.toNat = 0x10000 + (a - 0xD800) * 0x400 + (b - 0xDC00)) :
    Letter c ('\\' :: 'u' :: high ++ '\\' :: 'u' :: low)

inductive Letters : List Char → List Char → Prop
  | nil : Letters [] []
  | cons {c : Char} {text : List Char} {rest body : List Char} (first : Letter c text) (others : Letters rest body) :
    Letters (c :: rest) (text ++ body)

/-- A text between quotes. -/
inductive Quoted : String → List Char → Prop
  | mk {s : String} {body : List Char} (h : Letters s.toList body) : Quoted s ('"' :: (body ++ ['"']))

/-- A number in decimal digits, without a zero before others. -/
structure Digits (n : Nat) (text : List Char) : Prop where
  nonempty : text ≠ []
  digits : ∀ c ∈ text, c.isDigit
  value : Nat.ofDigitChars 10 text 0 = n
  noZero : text.head? = some '0' → text = ['0']

/-- Entries with commas between them. -/
inductive Separated {α : Type} (P : α → List Char → Prop) : List α → List Char → Prop
  | one {a : α} {text : List Char} (h : P a text) : Separated P [a] text
  | more {a : α} {rest : List α} {text body : List Char} (h : P a text) (others : Separated P rest body) :
    Separated P (a :: rest) (text ++ ',' :: body)

mutual
/-- The text of a document. -/
inductive Spells : Json → List Char → Prop
  | null : Spells null ['n', 'u', 'l', 'l']
  | true_ : Spells (boolean true) ['t', 'r', 'u', 'e']
  | false_ : Spells (boolean false) ['f', 'a', 'l', 's', 'e']
  | number {n : Nat} {text : List Char} (h : Digits n text) : Spells (number n) text
  | string {s : String} {text : List Char} (h : Quoted s text) : Spells (string s) text
  | noItems {gap : List Char} (h : Gap gap) : Spells (array []) ('[' :: (gap ++ [']']))
  | items {items : List Json} {body : List Char} (h : Separated Padded items body) :
    Spells (array items) ('[' :: (body ++ [']']))
  | noFields {gap : List Char} (h : Gap gap) : Spells (object []) ('\x7b' :: (gap ++ ['\x7d']))
  | fields {fields : List (String × Json)} {body : List Char} (h : Separated Field fields body) :
    Spells (object fields) ('\x7b' :: (body ++ ['\x7d']))

/-- The text of a document between gaps. -/
inductive Padded : Json → List Char → Prop
  | mk {document : Json} {before text after : List Char} (gap : Gap before) (h : Spells document text)
    (gap' : Gap after) : Padded document (before ++ text ++ after)

/-- A field: its key, a colon, and its value. -/
inductive Field : String × Json → List Char → Prop
  | mk {key : String} {value : Json} {before name after text : List Char} (gap : Gap before)
    (quoted : Quoted key name) (gap' : Gap after) (h : Padded value text) :
    Field (key, value) (before ++ name ++ after ++ ':' :: text)
end

/-! ### What is rendered -/

theorem gap_nil : Gap [] := by simp [Gap]

theorem gap_line (depth : Nat) : Gap ('\n' :: (indent depth).toList) := by
  intro c hc
  rcases List.mem_cons.mp hc with rfl | hc
  · simp
  · rw [indent, String.toList_ofList] at hc
    exact .inl (List.eq_of_mem_replicate hc)

theorem unit?_control : ∀ n < 0x20, unit? ('0' :: '0' :: (Text.hexByte n.toUInt8).toList) = some n := by
  decide

/-- Every character is escaped as one of its spellings. -/
theorem letter_escape (c : Char) : Letter c (escape c).toList := by
  have named {n : Nat} (h : c.toNat = n) : c = Char.ofNat n := by rw [← h, Char.ofNat_toNat]
  have short (letter : Char) (h : (c, letter) ∈ shorts) : Letter c ['\\', letter] := .short h
  unfold escape
  split
  next h => exact short '"' (by simp [h, shorts])
  split
  next h => exact short '\\' (by simp [h, shorts])
  split
  next h => exact short 'n' (by simp [h, shorts])
  split
  next h => exact short 'r' (by simp [h, shorts])
  split
  next h => exact short 't' (by simp [h, shorts])
  split
  next h => exact short 'b' (by simp [named h, shorts])
  split
  next h => exact short 'f' (by simp [named h, shorts])
  split
  next h =>
    rw [String.toList_append]
    exact .unit (unit?_control _ h)
  next quote backslash _ _ _ _ _ printed =>
    exact String.toList_singleton (c := c) ▸ .plain quote backslash (Nat.not_lt.mp printed)

theorem letters_escape (cs : List Char) : Letters cs (cs.flatMap fun c => (escape c).toList) := by
  induction cs with
  | nil => exact .nil
  | cons c rest ih => exact .cons (letter_escape c) ih

theorem quoted_quote (s : String) : Quoted s (quote s).toList := by
  have body : (quote s).toList = '"' :: (s.toList.flatMap (fun c => (escape c).toList) ++ ['"']) := by
    simp [quote, List.flatMap_def, Function.comp_def]
  exact body ▸ .mk (letters_escape s.toList)

theorem toDigits_ne_nil (n : Nat) : Nat.toDigits 10 n ≠ [] := by
  rw [Nat.toDigits_eq_if (by decide)]
  split <;> simp

/-- Only the digits of zero begin with a zero. -/
theorem head?_toDigits (n : Nat) (h : (Nat.toDigits 10 n).head? = some '0') : n = 0 := by
  induction n using Nat.strongRecOn with
  | ind n ih =>
    have single : ∀ n < 10, n.digitChar = '0' → n = 0 := by decide
    rw [Nat.toDigits_eq_if (by decide)] at h
    split at h
    next small => exact single n small (Option.some.inj h)
    next large =>
      rw [List.head?_append_of_ne_nil _ (toDigits_ne_nil _)] at h
      have := ih (n / 10) (by omega) h
      omega

theorem digits_toString (n : Nat) : Digits n (toString n).toList := by
  rw [Nat.toString_eq_repr, Nat.repr_eq_ofList_toDigits, String.toList_ofList]
  refine ⟨toDigits_ne_nil n, fun c hc => Nat.isDigit_of_mem_toDigits (by decide) (by decide) hc,
    Nat.ofDigitChars_toDigits (by decide) (by decide), fun h => ?_⟩
  rw [head?_toDigits n h]
  rfl

/-- Texts on lines of their own, with commas between them. -/
def onLines (gap last : List Char) : List (List Char) → List Char
  | [] => []
  | [text] => gap ++ text ++ last
  | text :: rest => gap ++ text ++ ',' :: onLines gap last rest

theorem toList_block (opening closing : String) (depth : Nat) {entries : List String} (hne : entries ≠ []) :
    (block opening closing depth entries).toList = opening.toList ++
      (onLines ('\n' :: (indent (depth + 1)).toList) ('\n' :: (indent depth).toList)
        (entries.map String.toList) ++ closing.toList) := by
  have lines : '\n' :: (",\n".intercalate (entries.map fun entry => indent (depth + 1) ++ entry)).toList ++
      '\n' :: (indent depth).toList = onLines ('\n' :: (indent (depth + 1)).toList)
        ('\n' :: (indent depth).toList) (entries.map String.toList) := by
    induction entries with
    | nil => exact (hne rfl).elim
    | cons entry rest ih =>
      cases rest with
      | nil => simp [onLines, String.intercalate_singleton]
      | cons second rest =>
        have ih := ih (by simp)
        simp only [List.map_cons, onLines] at ih ⊢
        rw [← ih, String.intercalate_cons_cons]
        simp
  rw [← lines, block, if_neg hne]
  simp

/-- Entries that may stand between gaps are separated when each of them stands on a line. -/
theorem separated_onLines {α : Type} {P : α → List Char → Prop} {gap last : List Char} (hg : Gap gap)
    (hl : Gap last) {as : List α} {texts : List (List Char)} (hne : texts ≠ [])
    (h : List.Forall₂ (fun a text => ∀ before after, Gap before → Gap after → P a (before ++ text ++ after))
      as texts) : Separated P as (onLines gap last texts) := by
  induction h with
  | nil => exact (hne rfl).elim
  | @cons a text as texts first others ih =>
    cases others with
    | nil => exact .one (first gap last hg hl)
    | cons =>
      have alone := first gap [] hg gap_nil
      rw [List.append_nil] at alone
      exact .more alone (ih (by simp))

mutual
/-- A document is spelled by the text that is rendered of it. -/
theorem spells_renderAt (depth : Nat) : (document : Json) → Spells document (renderAt depth document).toList
  | null => by rw [renderAt]; exact .null
  | boolean true => by rw [renderAt]; exact .true_
  | boolean false => by rw [renderAt]; exact .false_
  | number n => by rw [renderAt]; exact .number (digits_toString n)
  | string s => by rw [renderAt]; exact .string (quoted_quote s)
  | array [] => by rw [renderAt, renderItems, block, if_pos rfl]; exact .noItems gap_nil
  | array (item :: rest) => by
    have lines := padded_renderItems (depth + 1) (item :: rest)
    rw [renderAt, toList_block _ _ _ (by simp [renderItems])]
    exact .items (separated_onLines (gap_line _) (gap_line _) (by simp [renderItems]) lines)
  | object [] => by rw [renderAt, renderFields, block, if_pos rfl]; exact .noFields gap_nil
  | object (field :: rest) => by
    have lines := field_renderFields (depth + 1) (field :: rest)
    rw [renderAt, toList_block _ _ _ (by simp [renderFields])]
    exact .fields (separated_onLines (gap_line _) (gap_line _) (by simp [renderFields]) lines)

theorem padded_renderItems (depth : Nat) : (items : List Json) →
    List.Forall₂ (fun item text => ∀ before after, Gap before → Gap after →
      Padded item (before ++ text ++ after)) items ((renderItems depth items).map String.toList)
  | [] => .nil
  | item :: rest => .cons (fun _ _ gap gap' => .mk gap (spells_renderAt depth item) gap')
      (padded_renderItems depth rest)

theorem field_renderFields (depth : Nat) : (fields : List (String × Json)) →
    List.Forall₂ (fun field text => ∀ before after, Gap before → Gap after →
      Field field (before ++ text ++ after)) fields ((renderFields depth fields).map String.toList)
  | [] => .nil
  | (key, value) :: rest => by
    refine .cons (fun before after gap gap' => ?_) (field_renderFields depth rest)
    have padded : Padded value ([' '] ++ (renderAt depth value).toList ++ after) :=
      .mk (by simp [Gap]) (spells_renderAt depth value) gap'
    have field := Field.mk gap (quoted_quote key) gap_nil padded
    simpa using field
end

/-- What is rendered of a document spells it. -/
theorem spells_render (document : Json) : Spells document document.render.toList :=
  spells_renderAt 0 document

end LayerPack.Json
