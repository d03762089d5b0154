import LayerPack.Toml.Value

/-! A TOML document while it is read. A table remembers how it came to be, because that decides
what may still be added to it. -/
namespace LayerPack.Toml

/-- How a table was written. -/
inductive Origin where
  /-- By a header of its own, or the document itself. -/
  | header
  /-- Named on the way by a header that is longer. -/
  | onTheWay
  /-- Named on the way by a dotted key. -/
  | dotted
  /-- In braces; nothing may be added. -/
  | inline
  deriving DecidableEq

inductive Item where
  | leaf (value : Value)
  | list (items : List Value)
  /-- The tables under a header in double brackets. -/
  | tables (rows : List (List (String × Item)))
  | table (origin : Origin) (entries : List (String × Item))

abbrev Fields := List (String × Item)

mutual
/-- The finished value, with the entries of tables in order. -/
def Item.value : Item → Value
  | .leaf value => value
  | .list items => .array items
  | .tables rows => .array (rowValues rows)
  | .table _ entries => .table ((fieldValues entries).mergeSort fun a b => keyLe a.1 b.1)

def rowValues : List (List (String × Item)) → List Value
  | [] => []
  | row :: rows =>
    .table ((fieldValues row).mergeSort fun a b => keyLe a.1 b.1) :: rowValues rows

def fieldValues : List (String × Item) → List (String × Value)
  | [] => []
  | (key, item) :: rest => (key, item.value) :: fieldValues rest
end

namespace Fields

def put (key : String) (item : Item) : Fields → Fields
  | [] => [(key, item)]
  | (k, old) :: rest => if k = key then (k, item) :: rest else (k, old) :: put key item rest

/-- Follows the keys of a header, or the first keys of a dotted key, and changes the fields there.
Missing tables are made. A header may go through any table that is not in braces and through the
last row of a table list; a dotted key may not go through a table that has a header. -/
def within (dotted : Bool) (f : Origin → Fields → Option Fields) :
    List String → Origin → Fields → Option Fields
  | [], origin, fields => f origin fields
  | key :: path, _, fields =>
    let made := if dotted then Origin.dotted else .onTheWay
    match fields.lookup key with
    | none => (within dotted f path made []).map fun inner => fields.put key (.table made inner)
    | some (.table origin inner) =>
      if origin = .inline ∨ (dotted ∧ origin = .header) then none
      else (within dotted f path origin inner).map fun new => fields.put key (.table origin new)
    | some (.tables rows) =>
      match rows.reverse with
      | [] => none
      | last :: before =>
        (within dotted f path .header last).map fun new =>
          fields.put key (.tables (before.reverse ++ [new]))
    | some _ => none

/-- Adds `key = item` under the keys of `path`. A key of its own goes into the table at hand; a
dotted key only into tables that dotted keys made. -/
def assign (path : List String) (key : String) (item : Item) (fields : Fields) : Option Fields :=
  within true (fun origin inner =>
    if path ≠ [] ∧ origin ≠ .dotted then none
    else if (inner.lookup key).isSome then none
    else some (put key item inner)) path .header fields

/-- Opens the table of a header. It must be new, or known only as a stage of longer headers. -/
def openTable (path : List String) (key : String) (fields : Fields) : Option Fields :=
  within false (fun _ inner =>
    match inner.lookup key with
    | none => some (put key (.table .header []) inner)
    | some (.table .onTheWay entries) => some (put key (.table .header entries) inner)
    | some _ => none) path .header fields

/-- Adds a row to the table list of a header in double brackets. -/
def openRow (path : List String) (key : String) (fields : Fields) : Option Fields :=
  within false (fun _ inner =>
    match inner.lookup key with
    | none => some (put key (.tables [[]]) inner)
    | some (.tables rows) => some (put key (.tables (rows ++ [[]])) inner)
    | some _ => none) path .header fields

/-- Assigns inside the table of the header that was opened last. -/
def assignUnder (header path : List String) (key : String) (item : Item) (fields : Fields) :
    Option Fields :=
  within false (fun _ inner => assign path key item inner) header .header fields

end Fields

end LayerPack.Toml
