import Mathlib.Data.List.Nodup
import LayerPack.Proofs.Text.Order
import LayerPack.Proofs.Text.Utf8
import LayerPack.Toml.Parser

/-! Tables of documents. However a table comes to be, no key is in it twice: the operations that add
something to a document keep it so, and so does every part of the grammar. A finished table has its
entries in the order of their keys. -/
namespace LayerPack.Toml

/-- In every table at any depth the keys are distinct and in their order. -/
inductive Value.Keyed : Value → Prop
  | string (text : String) : Keyed (.string text)
  | integer (number : Int) : Keyed (.integer number)
  | float (number : Text.Real53) : Keyed (.float number)
  | boolean (value : Bool) : Keyed (.boolean value)
  | moment (text : String) : Keyed (.moment text)
  | array {items : List Value} (each : ∀ v ∈ items, Keyed v) : Keyed (.array items)
  | table {entries : List (String × Value)}
    (sorted : entries.Pairwise fun a b => a.1 ≠ b.1 ∧ keyLe a.1 b.1)
    (each : ∀ e ∈ entries, Keyed e.2) : Keyed (.table entries)

/-- In every table at any depth the keys are distinct. -/
inductive Item.Distinct : Item → Prop
  | leaf {value : Value} (h : value.Keyed) : Distinct (.leaf value)
  | list {items : List Value} (each : ∀ v ∈ items, v.Keyed) : Distinct (.list items)
  | tables {rows : List Fields} (nodup : ∀ row ∈ rows, (row.map Prod.fst).Nodup)
    (each : ∀ row ∈ rows, ∀ e ∈ row, Distinct e.2) : Distinct (.tables rows)
  | table {origin : Origin} {entries : Fields} (nodup : (entries.map Prod.fst).Nodup)
    (each : ∀ e ∈ entries, Distinct e.2) : Distinct (.table origin entries)

theorem mem_of_lookup {α : Type} {l : List (String × α)} {key : String} {a : α}
    (h : l.lookup key = some a) : (key, a) ∈ l := by
  obtain ⟨before, after, rfl, -⟩ := List.lookup_eq_some_iff.mp h
  simp

/-- With distinct keys the lookup finds whatever is there. -/
theorem lookup_eq_some_of_nodup {α : Type} {l : List (String × α)} {key : String} {a : α}
    (nodup : (l.map Prod.fst).Nodup) : l.lookup key = some a ↔ (key, a) ∈ l := by
  refine ⟨mem_of_lookup, fun h => ?_⟩
  obtain ⟨before, after, rfl⟩ := List.append_of_mem h
  refine List.lookup_eq_some_iff.mpr ⟨before, after, rfl, fun e he => ?_⟩
  rw [List.map_append, List.map_cons, List.nodup_append] at nodup
  have apart := nodup.2.2 e.1 (List.mem_map_of_mem he) key List.mem_cons_self
  simpa using apart.symm

namespace Fields

/-- The fields of a table with distinct keys, at any depth. -/
structure Distinct (fields : Fields) : Prop where
  nodup : (fields.map Prod.fst).Nodup
  each : ∀ e ∈ fields, e.2.Distinct

end Fields

theorem Item.Distinct.entries {origin : Origin} {fields : Fields}
    (h : (Item.table origin fields).Distinct) : fields.Distinct := by
  cases h with
  | table nodup each => exact ⟨nodup, each⟩

theorem Item.Distinct.row {rows : List Fields} (h : (Item.tables rows).Distinct) {row : Fields}
    (hr : row ∈ rows) : row.Distinct := by
  cases h with
  | tables nodup each => exact ⟨nodup row hr, each row hr⟩

namespace Fields

variable {fields fields' : Fields} {key : String} {item : Item} {path : List String}
  {origin : Origin}

theorem Distinct.nil : Distinct [] := ⟨List.nodup_nil, nofun⟩

theorem Distinct.table (h : fields.Distinct) : (Item.table origin fields).Distinct := .table h.nodup h.each

theorem distinct_tables {rows : List Fields} (h : ∀ row ∈ rows, row.Distinct) :
    (Item.tables rows).Distinct :=
  .tables (fun row hr => (h row hr).nodup) fun row hr => (h row hr).each

theorem Distinct.of_lookup (h : fields.Distinct) (hl : fields.lookup key = some item) :
    item.Distinct := h.each _ (mem_of_lookup hl)

theorem mem_put {e : String × Item} (h : e ∈ put key item fields) : e ∈ fields ∨ e = (key, item) := by
  induction fields with
  | nil => exact .inr (List.mem_singleton.mp h)
  | cons first rest ih =>
    obtain ⟨k, old⟩ := first
    rw [put] at h
    split at h
    next hk =>
      rcases List.mem_cons.mp h with rfl | h
      · exact .inr (by rw [hk])
      · exact .inl (List.mem_cons_of_mem _ h)
    next =>
      rcases List.mem_cons.mp h with rfl | h
      · exact .inl List.mem_cons_self
      · exact (ih h).imp_left (List.mem_cons_of_mem _)

theorem nodup_put (h : (fields.map Prod.fst).Nodup) : ((put key item fields).map Prod.fst).Nodup := by
  induction fields with
  | nil => simp [put]
  | cons first rest ih =>
    obtain ⟨k, old⟩ := first
    rw [List.map_cons, List.nodup_cons] at h
    rw [put]
    split
    · simpa using h
    next hk =>
      rw [List.map_cons, List.nodup_cons]
      refine ⟨fun hm => ?_, ih h.2⟩
      obtain ⟨e, he, rfl⟩ := List.mem_map.mp hm
      rcases mem_put he with he | rfl
      · exact h.1 (List.mem_map.mpr ⟨e, he, rfl⟩)
      · exact hk rfl

theorem Distinct.put (h : fields.Distinct) (hi : item.Distinct) : (fields.put key item).Distinct :=
  ⟨nodup_put h.nodup, fun e he => (mem_put he).elim (h.each e) fun he => he ▸ hi⟩

/-- A change that leaves keys distinct where it is made leaves them so everywhere. -/
theorem Distinct.within {dotted : Bool} {f : Origin → Fields → Option Fields}
    (keeps : ∀ origin fields fields', f origin fields = some fields' → fields.Distinct →
      fields'.Distinct)
    (h : within dotted f path origin fields = some fields') (distinct : fields.Distinct) :
    fields'.Distinct := by
  induction path generalizing origin fields fields' with
  | nil => exact keeps _ _ _ h distinct
  | cons key path ih =>
    rw [Fields.within] at h
    split at h
    next =>
      obtain ⟨inner, hi, rfl⟩ := Option.map_eq_some_iff.mp h
      exact distinct.put (ih hi .nil).table
    next hl =>
      split at h
      next => cases h
      next =>
        obtain ⟨inner, hi, rfl⟩ := Option.map_eq_some_iff.mp h
        exact distinct.put (ih hi (distinct.of_lookup hl).entries).table
    next rows hl =>
      have each : ∀ row ∈ rows, Distinct row := fun _ => (distinct.of_lookup hl).row
      split at h
      next => cases h
      next last before hr =>
        obtain rfl : rows = before.reverse ++ [last] := by simpa using congrArg List.reverse hr
        obtain ⟨inner, hi, rfl⟩ := Option.map_eq_some_iff.mp h
        refine distinct.put (distinct_tables fun row hm => ?_)
        rcases List.mem_append.mp hm with hm | hm
        · exact each row (List.mem_append_left _ hm)
        · exact List.mem_singleton.mp hm ▸ ih hi (each last (by simp))
    next => cases h

theorem Distinct.assign (h : assign path key item fields = some fields') (distinct : fields.Distinct)
    (hi : item.Distinct) : fields'.Distinct := by
  refine Distinct.within (fun origin inner inner' h distinct => ?_) h distinct
  split at h
  · cases h
  · split at h
    · cases h
    · cases h
      exact distinct.put hi

theorem Distinct.openTable (h : openTable path key fields = some fields') (distinct : fields.Distinct) :
    fields'.Distinct := by
  refine Distinct.within (fun origin inner inner' h distinct => ?_) h distinct
  split at h
  · cases h
    exact distinct.put (Distinct.nil.table)
  next hl =>
    cases h
    exact distinct.put (distinct.of_lookup hl).entries.table
  · cases h

theorem Distinct.openRow (h : openRow path key fields = some fields') (distinct : fields.Distinct) :
    fields'.Distinct := by
  refine Distinct.within (fun origin inner inner' h distinct => ?_) h distinct
  split at h
  · cases h
    exact distinct.put (distinct_tables (by simp [Distinct.nil]))
  next rows hl =>
    cases h
    refine distinct.put (distinct_tables fun row hm => ?_)
    rcases List.mem_append.mp hm with hm | hm
    · exact (distinct.of_lookup hl).row hm
    · exact List.mem_singleton.mp hm ▸ .nil
  · cases h

theorem Distinct.assignUnder {header : List String}
    (h : assignUnder header path key item fields = some fields') (distinct : fields.Distinct)
    (hi : item.Distinct) : fields'.Distinct :=
  Distinct.within (fun _ _ _ h distinct => distinct.assign h hi) h distinct

end Fields

/-! ### Finished values -/

theorem rowValues_eq (rows : List Fields) : rowValues rows = rows.map fun row =>
    .table ((fieldValues row).mergeSort fun a b => keyLe a.1 b.1) := by
  induction rows with
  | nil => rfl
  | cons row rest ih => rw [rowValues, ih, List.map_cons]

theorem fieldValues_eq (fields : Fields) :
    fieldValues fields = fields.map fun e => (e.1, e.2.value) := by
  induction fields with
  | nil => rfl
  | cons e rest ih => rw [fieldValues, ih, List.map_cons]

theorem keys_fieldValues (fields : Fields) :
    (fieldValues fields).map Prod.fst = fields.map Prod.fst := by
  rw [fieldValues_eq, List.map_map]
  rfl

theorem keyed_table {fields : Fields} (nodup : (fields.map Prod.fst).Nodup)
    (each : ∀ e ∈ fields, e.2.value.Keyed) :
    (Value.table ((fieldValues fields).mergeSort fun a b => keyLe a.1 b.1)).Keyed := by
  have perm := List.mergeSort_perm (fieldValues fields) fun a b => keyLe a.1 b.1
  refine .table (List.Pairwise.and ?_ ?_) fun e he => ?_
  · refine List.pairwise_map.mp ((perm.map Prod.fst).nodup_iff.mpr ?_)
    rwa [keys_fieldValues]
  · refine List.pairwise_mergeSort (fun a b c => ?_) (fun a b => ?_) (fieldValues fields)
    · exact Bytes.le_trans
    · exact Bytes.le_total _ _
  · rw [perm.mem_iff, fieldValues_eq] at he
    obtain ⟨inner, hi, rfl⟩ := List.mem_map.mp he
    exact each inner hi

/-- What is finished of distinct fields has its keys in order. -/
theorem Item.Distinct.keyed {item : Item} (h : item.Distinct) : item.value.Keyed := by
  induction h with
  | leaf h => exact h
  | list each => exact .array each
  | tables nodup each ih =>
    rw [Item.value, rowValues_eq]
    refine .array fun v hv => ?_
    obtain ⟨row, hr, rfl⟩ := List.mem_map.mp hv
    exact keyed_table (nodup row hr) (ih row hr)
  | table nodup each ih => exact keyed_table nodup ih

namespace Parser

/-! ### What is read -/

theorem keyed_inRange {n : Int} {v : Value} (h : inRange n = some v) : v.Keyed := by
  unfold inRange at h
  split at h
  · cases h
    exact .integer n
  · cases h

theorem keyed_based {base : Nat} {isDigit : Char → Bool} {cs : List Char} {v : Value}
    (h : based base isDigit cs = some v) : v.Keyed := by
  obtain ⟨ds, -, h⟩ := Option.bind_eq_some_iff.mp h
  exact keyed_inRange h

theorem keyed_decimal {cs : List Char} {v : Value} (h : decimal cs = some v) : v.Keyed := by
  unfold decimal at h
  dsimp only at h
  split at h
  · cases h
    exact .float _
  split at h
  · cases h
    exact .float _
  obtain ⟨whole, -, h⟩ := Option.bind_eq_some_iff.mp h
  split at h
  · exact keyed_inRange h
  -- the rest stands in each branch: with digits after the point or none, with an exponent or none
  split at h <;> obtain ⟨part, -, h⟩ := Option.bind_eq_some_iff.mp h <;> split at h <;>
    obtain ⟨exponent, -, h⟩ := Option.bind_eq_some_iff.mp h <;> split at h <;> cases h <;>
    exact .float _

theorem keyed_word {cs rest : List Char} {v : Value} (h : word cs = some (v, rest)) : v.Keyed := by
  unfold word at h
  dsimp only at h
  split at h
  · cases h
    exact .moment _
  obtain ⟨w, hw, ⟨⟩⟩ := Option.map_eq_some_iff.mp h
  split at hw
  · exact keyed_based hw
  · exact keyed_based hw
  · exact keyed_based hw
  · split at hw
    · cases hw
      exact .boolean _
    split at hw
    · cases hw
      exact .boolean _
    · exact keyed_decimal hw

/-- With this fuel, what is read has distinct keys. -/
structure ReadsDistinct (fuel : Nat) : Prop where
  item {depth : Nat} {cs rest : List Char} {x : Item} (h : item fuel depth cs = some (x, rest)) :
    x.Distinct
  items {depth : Nat} {cs rest : List Char} {vs : List Value}
    (h : items fuel depth cs = some (vs, rest)) : ∀ v ∈ vs, v.Keyed
  pairs {depth : Nat} {cs rest : List Char} {fields fields' : Fields}
    (h : pairs fuel depth fields cs = some (fields', rest)) (distinct : fields.Distinct) :
    fields'.Distinct

variable {fuel depth : Nat} {cs rest : List Char}

theorem ReadsDistinct.item_succ (reads : ReadsDistinct fuel) {x : Item}
    (h : Parser.item (fuel + 1) depth cs = some (x, rest)) : x.Distinct := by
  rw [Parser.item.eq_def] at h
  dsimp only at h
  split at h
  -- the four kinds of strings
  iterate 4
    obtain ⟨s, -, ⟨⟩⟩ := Option.map_eq_some_iff.mp h
    exact .leaf (.string _)
  · split at h
    · cases h
    · obtain ⟨xs, hx, ⟨⟩⟩ := Option.map_eq_some_iff.mp h
      exact .list (reads.items hx)
  · split at h
    · cases h
    · split at h
      · cases h
        exact Fields.Distinct.nil.table
      · obtain ⟨xs, hx, ⟨⟩⟩ := Option.map_eq_some_iff.mp h
        exact (reads.pairs hx .nil).table
  · obtain ⟨v, hv, ⟨⟩⟩ := Option.map_eq_some_iff.mp h
    exact .leaf (keyed_word hv)

theorem ReadsDistinct.items_succ (reads : ReadsDistinct fuel) {vs : List Value}
    (h : Parser.items (fuel + 1) depth cs = some (vs, rest)) : ∀ v ∈ vs, v.Keyed := by
  rw [Parser.items] at h
  split at h
  · cases h
    exact nofun
  obtain ⟨⟨first, more⟩, hf, h⟩ := Option.bind_eq_some_iff.mp h
  have keyed := (reads.item hf).keyed
  dsimp only at h
  split at h
  · obtain ⟨⟨others, last⟩, ho, ⟨⟩⟩ := Option.bind_eq_some_iff.mp h
    exact List.forall_mem_cons.mpr ⟨keyed, reads.items ho⟩
  · cases h
    exact fun v hv => List.mem_singleton.mp hv ▸ keyed
  · cases h

theorem ReadsDistinct.pairs_succ (reads : ReadsDistinct fuel) {fields fields' : Fields}
    (h : Parser.pairs (fuel + 1) depth fields cs = some (fields', rest)) (distinct : fields.Distinct) :
    fields'.Distinct := by
  rw [Parser.pairs] at h
  obtain ⟨⟨path, more⟩, -, h⟩ := Option.bind_eq_some_iff.mp h
  dsimp only at h
  split at h
  · obtain ⟨⟨value, more⟩, hv, h⟩ := Option.bind_eq_some_iff.mp h
    obtain ⟨added, ha, h⟩ := Option.bind_eq_some_iff.mp h
    have distinct := distinct.assign ha (reads.item hv)
    split at h
    · exact reads.pairs h distinct
    · cases h
      exact distinct
    · cases h
  · cases h

theorem readsDistinct (fuel : Nat) : ReadsDistinct fuel := by
  induction fuel with
  | zero => exact ⟨nofun, nofun, nofun⟩
  | succ fuel ih => exact ⟨ih.item_succ, ih.items_succ, ih.pairs_succ⟩

/-- Each line leaves the keys distinct. -/
theorem distinct_document {header : List String} {fields fields' : Fields}
    (h : document fuel header fields cs = some fields') (distinct : fields.Distinct) :
    fields'.Distinct := by
  induction fuel generalizing header fields cs with
  | zero => cases h
  | succ fuel ih =>
    rw [document] at h
    split at h
    · cases h
      exact distinct
    · obtain ⟨⟨path, more⟩, -, h⟩ := Option.bind_eq_some_iff.mp h
      dsimp only at h
      split at h
      · obtain ⟨added, ha, h⟩ := Option.bind_eq_some_iff.mp h
        obtain ⟨more, -, h⟩ := Option.bind_eq_some_iff.mp h
        exact ih h (distinct.openRow ha)
      · cases h
    · obtain ⟨⟨path, more⟩, -, h⟩ := Option.bind_eq_some_iff.mp h
      obtain ⟨added, ha, h⟩ := Option.bind_eq_some_iff.mp h
      obtain ⟨more, -, h⟩ := Option.bind_eq_some_iff.mp h
      exact ih h (distinct.openTable ha)
    · obtain ⟨⟨path, more⟩, -, h⟩ := Option.bind_eq_some_iff.mp h
      dsimp only at h
      split at h
      · obtain ⟨⟨value, more⟩, hv, h⟩ := Option.bind_eq_some_iff.mp h
        obtain ⟨added, ha, h⟩ := Option.bind_eq_some_iff.mp h
        obtain ⟨more, -, h⟩ := Option.bind_eq_some_iff.mp h
        exact ih h (distinct.assignUnder ha ((readsDistinct _).item hv))
      · cases h

end Parser

end LayerPack.Toml
