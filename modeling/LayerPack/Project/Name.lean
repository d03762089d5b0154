import LayerPack.Text.Blank
import LayerPack.Text.Lowercase

/-! Distribution names. Indexes and wheel files compare names in a canonical form: without white
space around them, in lower case, and with one underscore for every run of separators. -/
namespace LayerPack.ProjectName

def isSeparator (c : Char) : Bool := c = '-' || c = '_' || c = '.'

/-- One underscore for every run of separators; `after` says that one was just written. -/
def collapse (after : Bool) : List Char → List Char
  | [] => []
  | c :: rest =>
    if isSeparator c then
      if after then collapse true rest else '_' :: collapse true rest
    else c :: collapse false rest

/-- The canonical form of a name. -/
def canonical (name : String) : String :=
  String.ofList (collapse false (Text.lowerChars (Text.trimChars name.toList)))

end LayerPack.ProjectName
