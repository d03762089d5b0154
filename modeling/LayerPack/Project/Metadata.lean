import LayerPack.Path.Basic
import LayerPack.Project.LayerConfig
import LayerPack.Project.SetupCfg
import LayerPack.Text.Blank
import LayerPack.Toml.Parser

/-! What a source tree says about its project: name and version as far as they are declared, the
file that the name came from, and the defaults for the layer. -/
namespace LayerPack

structure Metadata where
  name : Option String := none
  version : Option String := none
  sourceFile : Option Path := none
  layer : LayerConfig := {}

namespace Metadata

inductive ParseError where
  | syntaxError
  | layer (problem : LayerConfig.Problem)

def ParseError.message : ParseError → String
  | syntaxError => "failed to parse: this is not a TOML document"
  | layer problem => "invalid [tool.kodegen-layer]: " ++ problem.message

/-- A field of `[project]`, or of `[tool.poetry]` if the former does not have it at all. A value
that is not a text, or a blank one, is none. -/
def field (document : Toml.Value) (key : String) : Option String :=
  let project := document.get? "project"
  let poetry := (document.get? "tool").bind (·.get? "poetry")
  (((project.bind (·.get? key)).or (poetry.bind (·.get? key))).bind (·.string?)).bind fun text =>
    let trimmed := Text.trim text
    if trimmed = "" then none else some trimmed

/-- What a parsed `pyproject.toml` says. -/
def ofDocument (document : Toml.Value) : Except ParseError Metadata := do
  let layer ← match (document.get? "tool").bind (·.get? "kodegen-layer") with
    | some value => (LayerConfig.ofValue value).mapError .layer
    | none => pure {}
  return { name := field document "name", version := field document "version", layer }

/-- Reads the text of a `pyproject.toml`. -/
def parsePyproject (content : String) : Except ParseError Metadata :=
  match Toml.parse? content with
  | some document => ofDocument document
  | none => .error .syntaxError

end Metadata

end LayerPack
