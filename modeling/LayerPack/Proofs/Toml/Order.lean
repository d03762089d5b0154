import Mathlib.Data.List.Perm.Subperm
import LayerPack.Proofs.Project.Pyproject
import LayerPack.Proofs.Toml.Tables

/-! The order in which a document is written. Its tables are read in the order of their lines, and only
the finished value has them in the order of their keys. What holds the same keys and values has the
same value, in whatever order it is written. -/
namespace LayerPack.Toml

/-- A document as it is written: its fields in the order of their lines. -/
def written? (content : String) : Option Fields :=
  let cs := content.toList
  let cs := if cs.head? = some (Char.ofNat 0xFEFF) then cs.drop 1 else cs
  Parser.document (cs.length + 1) [] [] cs

theorem parse?_eq (content : String) : parse? content =
    (written? content).map fun fields => (Item.table .header fields).value := rfl

theorem distinct_written {content : String} {fields : Fields} (h : written? content = some fields) :
    (Item.table .header fields).Distinct :=
  (Parser.distinct_document h .nil).table

/-- The tables of a document that has been read have their keys in order. -/
theorem keyed_of_parse {content : String} {document : Value} (h : parse? content = some document) :
    document.Keyed := by
  rw [parse?_eq] at h
  obtain ⟨fields, hw, rfl⟩ := Option.map_eq_some_iff.mp h
  exact (distinct_written hw).keyed

theorem Value.at_unique {path : List String} {document value other : Value}
    (h : Value.At path document value) (h' : Value.At path document other) : value = other := by
  induction h with
  | here => exact at_nil.mp h'
  | under found _ ih =>
    obtain ⟨inner, found', h'⟩ := at_cons.mp h'
    cases found.symm.trans found'
    exact ih h'

theorem Value.Keyed.at {path : List String} {document value : Value} (h : document.Keyed)
    (found : Value.At path document value) : value.Keyed := by
  induction found with
  | here => exact h
  | under hl _ ih =>
    cases h with
    | table sorted each => exact ih (each _ (mem_of_lookup hl))

mutual
/-- The same keys and values, in any order and under any kind of header. -/
def Item.Same : Item → Item → Prop
  | .leaf value, other => other = .leaf value
  | .list items, other => other = .list items
  | .tables rows, .tables others => sameRows rows others
  | .table _ fields, .table _ others =>
    (fields.map Prod.fst).Perm (others.map Prod.fst) ∧ sameFields fields others
  | _, _ => False

def sameRows : List (List (String × Item)) → List Fields → Prop
  | [], others => others = []
  | row :: rows, other :: others =>
    (row.map Prod.fst).Perm (other.map Prod.fst) ∧ sameFields row other ∧ sameRows rows others
  | _ :: _, [] => False

/-- Each field stands among the others too, with the same item. -/
def sameFields : List (String × Item) → Fields → Prop
  | [], _ => True
  | (key, item) :: rest, others =>
    (∃ other, others.lookup key = some other ∧ item.Same other) ∧ sameFields rest others
end

theorem sameFields_iff {fields others : Fields} : sameFields fields others ↔
    ∀ e ∈ fields, ∃ other, others.lookup e.1 = some other ∧ e.2.Same other := by
  induction fields with
  | nil => simp [sameFields]
  | cons e rest ih => simp [sameFields, ih]

theorem Item.Distinct.same_of_each {origin origin' : Origin} {fields others : Fields}
    (h : (Item.table origin fields).Distinct) (perm : fields.Perm others)
    (each : ∀ e ∈ fields, e.2.Same e.2) : (Item.table origin fields).Same (.table origin' others) := by
  refine ⟨perm.map Prod.fst, sameFields_iff.mpr fun e he => ⟨e.2, ?_, each e he⟩⟩
  have nodup := (perm.map Prod.fst).nodup_iff.mp h.entries.nodup
  exact (lookup_eq_some_of_nodup nodup).mpr (perm.mem_iff.mp he)

theorem Item.Distinct.same_self {x : Item} (h : x.Distinct) : x.Same x := by
  induction h with
  | leaf | list => rfl
  | @tables rows nodup each ih =>
    rw [Item.Same]
    clear each
    induction rows with
    | nil => rfl
    | cons row rows again =>
      refine ⟨.rfl, sameFields_iff.mpr fun e he => ⟨e.2, ?_, ih row List.mem_cons_self e he⟩,
        again (fun row hr => nodup row (List.mem_cons_of_mem _ hr)) fun row hr =>
          ih row (List.mem_cons_of_mem _ hr)⟩
      exact (lookup_eq_some_of_nodup (nodup row List.mem_cons_self)).mpr he
  | table nodup each ih => exact (Item.Distinct.table nodup each).same_of_each .rfl ih

/-- Entries with distinct keys may be written in any order. -/
theorem Item.Distinct.same_of_perm {origin origin' : Origin} {fields others : Fields}
    (h : (Item.table origin fields).Distinct) (perm : fields.Perm others) :
    (Item.table origin fields).Same (.table origin' others) := by
  refine h.same_of_each perm fun e he => ?_
  cases h with
  | table nodup each => exact (each e he).same_self

/-- Tables with the same keys and the same value for each of them are finished in the same way. -/
theorem sorted_eq {fields others : Fields} (nodup : (fields.map Prod.fst).Nodup)
    (keys : (fields.map Prod.fst).Perm (others.map Prod.fst))
    (same : ∀ e ∈ fields, ∃ other, others.lookup e.1 = some other ∧ e.2.value = other.value) :
    (fieldValues fields).mergeSort (fun a b => keyLe a.1 b.1) =
      (fieldValues others).mergeSort fun a b => keyLe a.1 b.1 := by
  have nodup : ((fieldValues fields).map Prod.fst).Nodup := keys_fieldValues fields ▸ nodup
  have sub : fieldValues fields ⊆ fieldValues others := by
    intro e he
    rw [fieldValues_eq] at he
    obtain ⟨⟨key, item⟩, hm, rfl⟩ := List.mem_map.mp he
    obtain ⟨other, hl, hv⟩ := same _ hm
    rw [fieldValues_eq, hv]
    exact List.mem_map.mpr ⟨(key, other), mem_of_lookup hl, rfl⟩
  have length : (fieldValues others).length ≤ (fieldValues fields).length := by
    have := keys.length_eq
    simp only [List.length_map] at this
    simp [fieldValues_eq, this]
  have perm := (List.subperm_of_subset nodup.of_map sub).perm_of_length_le length
  refine mergeSort_of_perm (f := fun e : String × Value => Bytes.ofString e.1) perm fun a ha b hb h => ?_
  exact List.inj_on_of_nodup_map nodup ha hb (Bytes.ofString_injective h)

theorem Item.Distinct.value_eq {x y : Item} (h : x.Distinct) (same : x.Same y) : x.value = y.value := by
  induction h generalizing y with
  | leaf | list =>
    rw [Item.Same] at same
    rw [same]
  | @tables rows nodup each ih =>
    cases y with
    | leaf | list | table => exact same.elim
    | tables others =>
      rw [Item.Same] at same
      rw [Item.value, Item.value]
      congr 1
      clear each
      induction rows generalizing others with
      | nil => rw [show others = [] from same]
      | cons row rows again =>
        cases others with
        | nil => exact same.elim
        | cons other others =>
          obtain ⟨keys, fields, same⟩ := same
          rw [rowValues, rowValues, again (fun row hr => nodup row (List.mem_cons_of_mem _ hr))
            (fun row hr => ih row (List.mem_cons_of_mem _ hr)) others same,
            sorted_eq (nodup row List.mem_cons_self) keys fun e he => ?_]
          obtain ⟨other, hl, hs⟩ := sameFields_iff.mp fields e he
          exact ⟨other, hl, ih row List.mem_cons_self e he hs⟩
  | table nodup each ih =>
    cases y with
    | leaf | list | tables => exact same.elim
    | table origin others =>
      obtain ⟨keys, fields⟩ := same
      rw [Item.value, Item.value, sorted_eq nodup keys fun e he => ?_]
      obtain ⟨other, hl, hs⟩ := sameFields_iff.mp fields e he
      exact ⟨other, hl, ih e he hs⟩

namespace Item

/-- What is written under a key. -/
def get? (key : String) : Item → Option Item
  | .leaf value => (value.get? key).map leaf
  | .table _ fields => fields.lookup key
  | _ => none

/-- What is written below a path of keys. -/
def at? : List String → Item → Option Item
  | [], x => some x
  | key :: path, x => (x.get? key).bind (at? path)

variable {x y : Item} {key : String} {path : List String}

theorem Distinct.get? (h : x.Distinct) (hx : x.get? key = some y) : y.Distinct := by
  cases h with
  | leaf keyed =>
    obtain ⟨inner, hi, rfl⟩ := Option.map_eq_some_iff.mp hx
    cases keyed with
    | table sorted each => exact .leaf (each _ (mem_of_lookup hi))
    | string | integer | float | boolean | moment | array => cases hi
  | list | tables => cases hx
  | table nodup each => exact each _ (mem_of_lookup hx)

/-- What a table says of a key does not depend on the order in which it is written. -/
theorem Distinct.value_get? (h : x.Distinct) : x.value.get? key = (x.get? key).map value := by
  cases h with
  | leaf keyed =>
    next v =>
      change v.get? key = ((v.get? key).map Item.leaf).map Item.value
      rw [Option.map_map]
      exact Option.map_id'.symm
  | list | tables => rfl
  | table nodup each =>
    next origin fields =>
      have perm := List.mergeSort_perm (fieldValues fields) fun a b => keyLe a.1 b.1
      have nodup' : ((fieldValues fields).mergeSort (fun a b => keyLe a.1 b.1) |>.map Prod.fst).Nodup := by
        rwa [(perm.map Prod.fst).nodup_iff, keys_fieldValues]
      refine Option.ext fun v => ?_
      change List.lookup key _ = some v ↔ (fields.lookup key).map value = some v
      rw [lookup_eq_some_of_nodup nodup', perm.mem_iff, fieldValues_eq, Option.map_eq_some_iff]
      simp only [lookup_eq_some_of_nodup nodup, List.mem_map, Prod.mk.injEq, Prod.exists]
      constructor
      · rintro ⟨_, item, hm, rfl, hv⟩
        exact ⟨item, hm, hv⟩
      · rintro ⟨item, hm, hv⟩
        exact ⟨key, item, hm, rfl, hv⟩

theorem Distinct.at_value (h : x.Distinct) (hx : x.at? path = some y) :
    y.Distinct ∧ Value.At path x.value y.value := by
  induction path generalizing x with
  | nil =>
    cases hx
    exact ⟨h, .here _⟩
  | cons key path ih =>
    obtain ⟨inner, hi, hx⟩ := Option.bind_eq_some_iff.mp hx
    obtain ⟨distinct, found⟩ := ih (h.get? hi) hx
    refine ⟨distinct, Value.at_cons.mpr ⟨inner.value, ?_, found⟩⟩
    rw [h.value_get?, hi, Option.map_some]

end Item

/-- A key that is written in a text is a key of a table of the document. -/
theorem table_of_written {path : List String} {key content : String} {fields : Fields} {x y : Item}
    (hw : written? content = some fields) (hx : (Item.table .header fields).at? path = some x)
    (hy : x.get? key = some y) : ∃ document entries, parse? content = some document ∧
      Value.At path document (.table entries) ∧ (key, y.value) ∈ entries := by
  obtain ⟨distinct, found⟩ := (distinct_written hw).at_value hx
  have entry : x.value.get? key = some y.value := by rw [distinct.value_get?, hy, Option.map_some]
  cases hv : x.value with
  | table entries =>
    rw [hv] at entry found
    exact ⟨_, entries, by rw [parse?_eq, hw]; rfl, found, mem_of_lookup entry⟩
  | string | integer | float | boolean | moment | array =>
    rw [hv] at entry
    cases entry

/-- Two texts are documents that say the same below a path of keys, perhaps in another order. -/
def SameAt (path : List String) (content other : String) : Prop :=
  ∃ fields others x y, written? content = some fields ∧ written? other = some others ∧
    (Item.table .header fields).at? path = some x ∧ (Item.table .header others).at? path = some y ∧
    x.Same y

theorem SameAt.value_eq {path : List String} {content other : String} (h : SameAt path content other) :
    ∃ document document' value, parse? content = some document ∧ parse? other = some document' ∧
      Value.At path document value ∧ Value.At path document' value := by
  obtain ⟨fields, others, x, y, hw, hw', hx, hy, same⟩ := h
  obtain ⟨distinct, found⟩ := (distinct_written hw).at_value hx
  obtain ⟨-, found'⟩ := (distinct_written hw').at_value hy
  refine ⟨_, _, x.value, by rw [parse?_eq, hw]; rfl, by rw [parse?_eq, hw']; rfl, found, ?_⟩
  rwa [distinct.value_eq same]

/-- Documents that are written in another order are the same document. -/
theorem SameAt.parse_eq {content other : String} (h : SameAt [] content other) :
    parse? content = parse? other := by
  obtain ⟨document, document', value, hp, hp', ⟨⟩, ⟨⟩⟩ := h.value_eq
  rw [hp, hp']

end LayerPack.Toml
