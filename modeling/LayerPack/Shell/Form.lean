import LayerPack.Path.Basic

/-! Commands as a shell reads them. A word is a list of parts, each of them quoted or not; what the
parts stand for is found out only when the command is carried out. -/
namespace LayerPack.Shell

/-- Text of a script or a value: every character stands for the byte of its number. -/
abbrev Octets := List Char

namespace Octets

def ofBytes (b : Bytes) : Octets := b.map fun x => Char.ofNat x.toNat

def toBytes (s : Octets) : Bytes := s.map fun c => UInt8.ofNat c.toNat

/-- The bytes of a text. -/
def ofText (s : String) : Octets := ofBytes (Bytes.ofString s)

def ofContent (content : ByteArray) : Octets := ofBytes content.data.toList

def toContent (s : Octets) : ByteArray := (toBytes s).toByteArray

def toPath (s : Octets) : Path := ⟨toBytes s⟩

end Octets

/-- What is made of a parameter. The operand of the first four counts if the parameter is unset;
the operand of the cuts is a pattern. -/
inductive Operation where
  | orElse
  | assign
  | demand
  | instead
  | cutFront (longest : Bool)
  | cutBack (longest : Bool)
  | length
  | value
  deriving DecidableEq

inductive Part where
  | text (quoted : Bool) (content : Octets)
  /-- The value of a parameter; with `emptyToo` an empty value counts as unset. -/
  | param (quoted : Bool) (name : Octets) (operation : Operation) (emptyToo : Bool)
    (operand : List Part)
  /-- What a script prints. -/
  | output (quoted : Bool) (script : Octets)
  | number (quoted : Bool) (expression : List Part)
  /-- Braces with something else in them; that is noticed when the word is expanded. -/
  | invalid

abbrev Word := List Part

namespace Word

/-- The text of a word that has only text in it. -/
def literal? : Word → Option Octets
  | [] => some []
  | .text _ content :: rest => (literal? rest).map (content ++ ·)
  | _ => none

def isQuoted (w : Word) : Bool :=
  w.any fun
    | .text quoted _ => quoted
    | _ => false

/-- The text of a word without quotes in it, which may be a reserved word. -/
def plain? : Word → Option String
  | [.text false content] => some (String.ofList content)
  | _ => none

end Word

inductive Direction where
  | read
  | write
  | append
  | both
  /-- The target is the number of another descriptor, or a dash that closes. -/
  | duplicate
  /-- The target is the text itself. -/
  | here
  deriving DecidableEq

structure Redirect where
  descriptor : Nat
  direction : Direction
  target : Word

inductive Form where
  | empty
  | simple (line : Nat) (assignments : List (Octets × Word)) (words : List Word)
    (redirects : List Redirect)
  | redirected (line : Nat) (body : Form) (redirects : List Redirect)
  | subshell (body : Form)
  | pipeline (stages : List Form)
  | negation (body : Form)
  | both (first second : Form)
  | either (first second : Form)
  | sequence (forms : List Form)
  | branch (condition onTrue onFalse : Form)
  /-- Goes on as long as the condition ends as `wanted`. -/
  | loop (wanted : Bool) (condition body : Form)
  | each (name : Octets) (items : Option (List Word)) (body : Form)
  | choice (subject : Word) (cases : List (List Word × Form))
  | function (name : Octets) (body : Form)
  /-- What cannot be read stops the shell when it is reached. -/
  | unreadable (line : Nat) (message : String)

end LayerPack.Shell
