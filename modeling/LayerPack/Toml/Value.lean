import LayerPack.Text.Decimal
import LayerPack.Text.Utf8

/-! Values of a TOML document. The entries of a table are in the order of their keys, so that two
documents that differ only in the order of keys have the same value. -/
namespace LayerPack.Toml

inductive Value where
  | string (text : String)
  | integer (number : Int)
  | float (number : Text.Real53)
  | boolean (value : Bool)
  /-- A date, a time or both, as its normal text. -/
  | moment (text : String)
  | array (items : List Value)
  | table (entries : List (String × Value))

namespace Value

def get? (key : String) : Value → Option Value
  | table entries => entries.lookup key
  | _ => none

def string? : Value → Option String
  | string text => some text
  | _ => none

/-- The word for the type of a value. -/
def typeName : Value → String
  | string _ => "string"
  | integer _ => "integer"
  | float _ => "float"
  | boolean _ => "boolean"
  | moment _ => "datetime"
  | array _ => "array"
  | table _ => "table"

end Value

/-- The order of keys: by their UTF-8 bytes. -/
def keyLe (a b : String) : Bool := Bytes.le (Bytes.ofString a) (Bytes.ofString b)

end LayerPack.Toml
