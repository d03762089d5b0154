import LayerPack.Text.Blank

/-! The name and the version that a `setup.cfg` declares in its `[metadata]` section. Lines are
read one at a time; values that are computed or read from a file do not count. -/
namespace LayerPack.SetupCfg

structure Declared where
  name : Option String := none
  version : Option String := none
  deriving DecidableEq, Repr

/-- What one trimmed line says. -/
inductive Line where
  | void
  | header (section_ : List Char)
  | option (key value : List Char)
  deriving DecidableEq

/-- The text between the brackets of a header. -/
def headerText? (line : List Char) : Option (List Char) :=
  match line with
  | '[' :: rest => if line.getLast? = some ']' then some rest.dropLast else none
  | _ => none

/-- Splits at the first equals sign, or at the first colon if there is no equals sign. -/
def splitOption? (line : List Char) : Option (List Char × List Char) :=
  (Text.splitAt? '=' line).or (Text.splitAt? ':' line)

/-- Reads a line that has been trimmed. A line without a value that counts is void. -/
def Line.read (line : List Char) : Line :=
  if line = [] ∨ line.head? = some '#' ∨ line.head? = some ';' then .void
  else
    match headerText? line with
    | some inner => .header (Text.trimChars inner)
    | none =>
      match splitOption? line with
      | none => .void
      | some (key, value) =>
        let value := Text.trimChars value
        if value = [] ∨ "attr:".toList.isPrefixOf value ∨ "file:".toList.isPrefixOf value then .void
        else .option (Text.trimChars key) value

/-- Records an option of the metadata section; others are passed over. -/
def Declared.record (d : Declared) (key value : List Char) : Declared :=
  if key = "name".toList then { d with name := some (String.ofList value) }
  else if key = "version".toList then { d with version := some (String.ofList value) }
  else d

/-- Whether the lines belong to the metadata section, and what was declared so far. -/
abbrev State := Bool × Declared

def step (state : State) (line : List Char) : State :=
  match Line.read (Text.trimChars line) with
  | .void => state
  | .header name => (name = "metadata".toList, state.2)
  | .option key value => if state.1 then (true, state.2.record key value) else state

/-- What a text declares; the last declaration of a key counts. -/
def parse (content : String) : Declared :=
  ((Text.linesOf content.toList).foldl step (false, {})).2

end LayerPack.SetupCfg
