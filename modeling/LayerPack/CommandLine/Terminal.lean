import LayerPack.Host.Program

/-! What the user reads on the terminal: lines with a mark in front, in color if the terminal has
colors. Quiet mode leaves nothing but errors. -/
namespace LayerPack

inductive Color where
  | red
  | green
  | yellow
  | blue
  | cyan
  | white

def Color.digit : Color → String
  | red => "1"
  | green => "2"
  | yellow => "3"
  | blue => "4"
  | cyan => "6"
  | white => "7"

structure Terminal where
  verbose : Bool
  quiet : Bool
  color : Bool
  deriving DecidableEq

namespace Terminal

open Program

/-- Colors are on if nobody forbids them and the terminal is one that knows them. -/
def hasColor (noColor term : Option Bytes) : Bool :=
  noColor.isNone && match term with
    | none => false
    | some name => name ≠ Bytes.ofString "dumb"

def openWith (verbose quiet : Bool) : Program Terminal := do
  let noColor ← request (.variable "NO_COLOR")
  let term ← request (.variable "TERM")
  return ⟨verbose, quiet, hasColor noColor term⟩

def escapeCode (code : String) : String := "\x1b[" ++ code ++ "m"

/-- How a mark is set: bold or not, in a color or not. -/
structure Style where
  bold : Bool := false
  color : Option Color := none

def Style.codes (s : Style) : String :=
  escapeCode "0" ++ (if s.bold then escapeCode "1" else "") ++
    match s.color with
    | some c => escapeCode ("3" ++ c.digit)
    | none => ""

/-- A line: a mark in its style, and a message. -/
def line (t : Terminal) (s : Style) (mark message : String) : String :=
  if t.color then s.codes ++ mark ++ escapeCode "0" ++ message ++ "\n"
  else mark ++ message ++ "\n"

def write (t : Terminal) (s : Style) (mark message : String) :
    Program (Except SystemError Unit) := request (.print .out (t.line s mark message))

def unlessQuiet (t : Terminal) (s : Style) (mark message : String) :
    Program (Except SystemError Unit) :=
  if t.quiet then return .ok () else t.write s mark message

/-- A line for those who want to know more. -/
def detail (t : Terminal) (message : String) : Program (Except SystemError Unit) :=
  if t.verbose && !t.quiet then t.write ⟨false, some .cyan⟩ "  · " message else return .ok ()

def progress (t : Terminal) (message : String) : Program (Except SystemError Unit) :=
  t.unlessQuiet ⟨true, some .blue⟩ "→ " message

def success (t : Terminal) (message : String) : Program (Except SystemError Unit) :=
  t.unlessQuiet ⟨true, some .green⟩ "✓ " message

def warning (t : Terminal) (message : String) : Program (Except SystemError Unit) :=
  t.unlessQuiet ⟨true, some .yellow⟩ "⚠ " message

def section_ (t : Terminal) (title : String) : Program (Except SystemError Unit) :=
  t.unlessQuiet ⟨true, some .white⟩ "" ("\n" ++ title)

def indented (t : Terminal) (message : String) : Program (Except SystemError Unit) :=
  t.unlessQuiet {} "    " message

/-- Errors are never held back. -/
def error (t : Terminal) (message : String) : Program (Except SystemError Unit) :=
  request (.print .err (t.line ⟨true, some .red⟩ "✗ " message))

end Terminal

end LayerPack
