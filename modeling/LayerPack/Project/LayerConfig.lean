import LayerPack.Project.Frontend
import LayerPack.Toml.Value

/-! The table `[tool.kodegen-layer]`: defaults that a project sets for its layer. Every key must be
known and every value must have the type of its key. -/
namespace LayerPack

structure LayerConfig where
  output : Option String := none
  workspace : Option String := none
  layerPrefix : Option String := none
  python : Option String := none
  frontend : Option Frontend := none
  platforms : List String := []
  pythonVersion : Option String := none
  implementation : Option String := none
  pipArgs : List String := []
  skipReconcile : Option Bool := none
  deriving DecidableEq, Repr

namespace LayerConfig

/-- The keys in the order of their declaration. -/
def keys : List String :=
  ["output", "workspace", "layer-prefix", "python", "frontend", "platforms", "python-version",
    "implementation", "pip-args", "skip-reconcile"]

/-- A problem, and the key that it is in. -/
structure Problem where
  what : String
  key : Option String := none

def Problem.message (p : Problem) : String :=
  p.what ++ "\n" ++ match p.key with
    | some key => "in `" ++ key ++ "`\n"
    | none => ""

/-- A value as a message shows it. -/
def shown : Toml.Value → String
  | .string text => "string " ++ Text.quoted text
  | .moment text => "string " ++ Text.quoted text
  | .integer n => "integer `" ++ toString n ++ "`"
  | .float x => "floating point `" ++ x.render ++ "`"
  | .boolean b => "boolean `" ++ (if b then "true" else "false") ++ "`"
  | .array _ => "sequence"
  | .table _ => "map"

def mismatch (value : Toml.Value) (wanted : String) : String :=
  "invalid type: " ++ shown value ++ ", expected " ++ wanted

/-- A text; a date or time counts as its text. -/
def readText (wanted : String) : Toml.Value → Except String String
  | .string text => .ok text
  | .moment text => .ok text
  | value => .error (mismatch value wanted)

def readTexts : Toml.Value → Except String (List String)
  | .array items => items.mapM (readText "a string")
  | value => .error (mismatch value "a sequence")

def readFlag : Toml.Value → Except String Bool
  | .boolean b => .ok b
  | value => .error (mismatch value "a boolean")

def readVariant (name : String) : Except String Frontend :=
  if name = "pip" then .ok .pip
  else if name = "build" then .ok .build
  else .error ("unknown variant `" ++ name ++ "`, expected `pip` or `build`")

/-- A frontend is its name, or a table with its name as the only key and nothing in it. -/
def readFrontend : Toml.Value → Except String Frontend
  | .string text => readVariant text
  | .table [] => .error "wanted exactly 1 element, found 0 elements"
  | .table [(name, value)] => do
    let frontend ← readVariant name
    match value with
    | .table [] | .array [] => return frontend
    | .table _ => throw "expected empty table"
    | .array _ => throw "expected empty array"
    | other => throw ("expected table, found " ++ other.typeName)
  | .table _ => .error "wanted exactly 1 element, more than 1 element"
  | _ => .error "invalid type: unit variant, expected string only"

/-- Sets the value of a known key. -/
def set (config : LayerConfig) (key : String) (value : Toml.Value) :
    Except String LayerConfig := do
  match key with
  | "output" => return { config with output := some (← readText "path string" value) }
  | "workspace" => return { config with workspace := some (← readText "path string" value) }
  | "layer-prefix" => return { config with layerPrefix := some (← readText "a string" value) }
  | "python" => return { config with python := some (← readText "path string" value) }
  | "frontend" => return { config with frontend := some (← readFrontend value) }
  | "platforms" => return { config with platforms := ← readTexts value }
  | "python-version" => return { config with pythonVersion := some (← readText "a string" value) }
  | "implementation" =>
    return { config with implementation := some (← readText "a string" value) }
  | "pip-args" => return { config with pipArgs := ← readTexts value }
  | "skip-reconcile" => return { config with skipReconcile := some (← readFlag value) }
  | _ => throw ("unknown field `" ++ key ++ "`, expected one of " ++
      ", ".intercalate (keys.map fun k => "`" ++ k ++ "`"))

/-- Reads entries in order; the first problem wins. -/
def ofEntries (config : LayerConfig) : List (String × Toml.Value) → Except Problem LayerConfig
  | [] => .ok config
  | (key, value) :: rest =>
    match config.set key value with
    | .ok config' => ofEntries config' rest
    | .error what => .error ⟨what, if key ∈ keys then some key else none⟩

/-- Reads values by position, one for each key in the order of declaration. -/
def ofItems (config : LayerConfig) : List String → List Toml.Value → Except Problem LayerConfig
  | key :: more, value :: rest =>
    match config.set key value with
    | .ok config' => ofItems config' more rest
    | .error what => .error ⟨what, none⟩
  | _, [] => .ok config
  | [], _ :: _ => .error ⟨"invalid length 11, expected fewer elements in array", none⟩

/-- Reads the table; a list of values is taken by position. -/
def ofValue : Toml.Value → Except Problem LayerConfig
  | .table entries => ofEntries {} entries
  | .array items => ofItems {} keys items
  | value => .error ⟨mismatch value "struct LayerConfig", none⟩

end LayerConfig

end LayerPack
