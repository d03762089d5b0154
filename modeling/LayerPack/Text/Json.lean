import LayerPack.Text.Quoted

/-! JSON documents and their text, with two spaces for every level and an entry a line. -/
namespace LayerPack

inductive Json where
  | null
  | boolean (b : Bool)
  | number (n : Nat)
  | string (s : String)
  | array (items : List Json)
  | object (fields : List (String × Json))

namespace Json

/-- A character between double quotes. Only quotes, backslashes and control characters are
escaped. -/
def escape (c : Char) : String :=
  if c = '"' then "\\\"" else if c = '\\' then "\\\\"
  else if c = '\n' then "\\n" else if c = '\r' then "\\r" else if c = '\t' then "\\t"
  else if c.toNat = 8 then "\\b" else if c.toNat = 12 then "\\f"
  else if c.toNat < 0x20 then "\\u00" ++ Text.hexByte c.toNat.toUInt8
  else String.singleton c

def quote (s : String) : String := "\"" ++ String.join (s.toList.map escape) ++ "\""

def indent (depth : Nat) : String := String.ofList (List.replicate (2 * depth) ' ')

/-- Entries on lines of their own between brackets. -/
def block (opening closing : String) (depth : Nat) (entries : List String) : String :=
  if entries = [] then opening ++ closing
  else opening ++ "\n" ++
    ",\n".intercalate (entries.map fun entry => indent (depth + 1) ++ entry) ++
    "\n" ++ indent depth ++ closing

mutual
/-- The text of a document that stands at a depth. -/
def renderAt (depth : Nat) : Json → String
  | null => "null"
  | boolean b => if b then "true" else "false"
  | number n => toString n
  | string s => quote s
  | array items => block "[" "]" depth (renderItems (depth + 1) items)
  | object fields => block "\x7b" "\x7d" depth (renderFields (depth + 1) fields)

def renderItems (depth : Nat) : List Json → List String
  | [] => []
  | item :: rest => renderAt depth item :: renderItems depth rest

def renderFields (depth : Nat) : List (String × Json) → List String
  | [] => []
  | (key, value) :: rest => (quote key ++ ": " ++ renderAt depth value) :: renderFields depth rest
end

def render (document : Json) : String := renderAt 0 document

end Json

end LayerPack
