import LayerPack.Shell.Arithmetic
import LayerPack.Shell.Pattern
import LayerPack.Shell.State

/-! From words to arguments: parameters, outputs of scripts and numbers are put in, what came from
a value is split at separators, and patterns become the names of files that fit. Quoted text is
never split and holds no patterns. -/
namespace LayerPack.Shell

inductive Piece where
  | cell (cell : Cell)
  /-- Something quoted stands here, so there is an argument even if it is empty. -/
  | mark
  /-- The border between two arguments of the shell, and what joins them in one text. -/
  | border (joint : Octets)

namespace Expansion

def cells (quoted fromValue : Bool) (text : Octets) : List Piece :=
  text.map fun char => .cell { char, quoted, fromValue }

/-- A value that was put in. -/
def ofValue (quoted : Bool) (text : Octets) : List Piece :=
  if quoted then .mark :: cells true false text else cells false true text

/-- Everything that is not quoted counts as a value. -/
def asValue : Piece → Piece
  | .cell c => .cell { c with fromValue := !c.quoted }
  | other => other

/-- The characters at which values are split. -/
def separators (s : State) : Octets :=
  (value? s "IFS".toList).getD [' ', '\t', '\n']

def between (s : State) : Octets :=
  match binding? s "IFS".toList with
  | some { value := some text, .. } => text.take 1
  | _ => [' ']

def ofArguments (s : State) (quoted joined : Bool) : List Piece :=
  if joined && quoted then ofValue true ((between s).intercalate s.arguments)
  else
    let joint := if joined then between s else [' ']
    [Piece.border joint].intercalate (s.arguments.map (ofValue quoted))

/-- The text of pieces that are not split. -/
def textOf (pieces : List Piece) : Octets :=
  pieces.flatMap fun
    | .cell c => [c.char]
    | .mark => []
    | .border joint => joint

def cellsOf (pieces : List Piece) : List Cell :=
  pieces.flatMap fun
    | .cell c => [c]
    | .mark => []
    | .border joint => Pattern.exact joint

def flags (s : State) : Octets :=
  (if s.options.stopOnFailure then ['e'] else []) ++ (if s.options.literalNames then ['f'] else [])
    ++ (if s.options.strict then ['u'] else []) ++ if s.options.trace then ['x'] else []

def digits (n : Nat) : Octets := (toString n).toList

/-- The value of a parameter other than the list of all arguments. -/
def parameter? (s : State) (name : Octets) : Option Octets :=
  match name with
  | ['#'] => some (digits s.arguments.length)
  | ['?'] => some (digits s.status)
  | ['$'] => some (digits s.pid)
  | ['-'] => some (flags s)
  | ['!'] => none
  | ['0'] => some s.self
  | name =>
    match (String.ofList name).toNat? with
    | some n => s.arguments[n - 1]?
    | none => value? s name

def isArguments (name : Octets) : Bool := name = ['@'] || name = ['*']

/-- The parameter's value as one text. -/
def wholeValue (s : State) (name : Octets) : Option Octets :=
  if isArguments name then
    if s.arguments.isEmpty then none else some ([' '].intercalate s.arguments)
  else parameter? s name

def notSet (name : Octets) (tail : String) : Octets :=
  name ++ ": parameter not set".toList ++ tail.toList

/-- The name of a parameter that has no value although it needs one. -/
def isMissing (s : State) (name : Octets) : Bool :=
  s.options.strict && !isArguments name && (parameter? s name).isNone

def failure (text : Octets) : Arithmetic.Failure → Octets
  | .malformed => "arithmetic expression: expecting primary: \"".toList ++ text ++ ['"']
  | .divisionByZero => "arithmetic expression: division by zero: \"".toList ++ text ++ ['"']
  | .notNumber value => "Illegal number: ".toList ++ value

/-- The value of an expression. -/
def calculate (text : Octets) : Shell Int := do
  match Arithmetic.read text with
  | none => abandon (failure text .malformed)
  | some e =>
    let s ← get
    match Arithmetic.eval e (value? s) [] with
    | .error f => abandon (failure text f)
    | .ok (n, _, changes) =>
      changes.reverse.forM fun (name, n) => assign name (Arithmetic.digitsOf n)
      return n

/-- Text without the ends of line at its end. -/
def trimEnd (text : Octets) : Octets := (text.reverse.dropWhile (· = '\n')).reverse

section
/- How nested scripts are carried out. -/
variable (run : Octets → Shell Unit)

mutual
def part : Part → Shell (List Piece)
  | .text quoted content =>
    return if quoted then .mark :: cells true false content else cells false false content
  | .output quoted script => do
    return ofValue quoted (trimEnd (← outputOf (run script)))
  | .number quoted expression => do
    let n ← calculate (textOf (← all expression))
    return ofValue quoted (Arithmetic.digitsOf n)
  | .invalid => abandon "Bad substitution".toList
  | .param quoted name operation emptyToo operand => do
    let s ← get
    let value := wholeValue s name
    let isThere := value.isSome && !(emptyToo && value = some [])
    let self := if isArguments name then ofArguments s quoted (name = ['*'])
      else ofValue quoted (value.getD [])
    match operation with
    | .value =>
      if isMissing s name then abandon (notSet name "")
      return self
    | .orElse =>
      if isThere then return self
      return (if quoted then [.mark] else []) ++ (← all operand).map asValue
    | .instead =>
      if isThere then return (if quoted then [.mark] else []) ++ (← all operand).map asValue
      return if quoted then [.mark] else []
    | .assign =>
      if isThere then return self
      let text := textOf (← all operand)
      assign name text
      return ofValue quoted text
    | .demand =>
      if isThere then return self
      let text := textOf (← all operand)
      if text = [] then abandon (notSet name (if emptyToo then " or null" else ""))
      abandon (name ++ [':', ' '] ++ text)
    | .length =>
      if isMissing s name then abandon (notSet name "")
      return ofValue quoted
        (digits (value.getD []).length)
    | .cutFront longest =>
      if isMissing s name then abandon (notSet name "")
      let pattern := cellsOf (← all operand)
      return ofValue quoted (Pattern.cutFront longest pattern (value.getD []))
    | .cutBack longest =>
      if isMissing s name then abandon (notSet name "")
      let pattern := cellsOf (← all operand)
      return ofValue quoted (Pattern.cutBack longest pattern (value.getD []))

def all : List Part → Shell (List Piece)
  | [] => return []
  | p :: rest => do
    let pieces ← part p
    return pieces ++ (← all rest)
end

/-- A tilde at the front stands for the home directory. -/
def home (s : State) (w : Word) : Word :=
  match w with
  | .text false ('~' :: text) :: rest =>
    match value? s "HOME".toList with
    | some dir =>
      if text.head?.all (· = '/') && (text ≠ [] || rest = []) then
        .text true dir :: .text false text :: rest
      else w
    | none => w
  | _ => w

def pieces (w : Word) : Shell (List Piece) := do
  let s ← get
  all run (home s w)

/-- A word as one text, which is not split. -/
def single (w : Word) : Shell Octets := return textOf (← pieces run w)

/-- A word as a pattern. -/
def pattern (w : Word) : Shell (List Cell) := return cellsOf (← pieces run w)

end

/-! ### Splitting -/

structure Split where
  /-- The arguments so far, the last one first. -/
  done : List (List Cell) := []
  /-- The cells of the argument at hand, the last one first. -/
  current : Option (List Cell) := none
  /-- The last argument was ended by a blank, and a separator may still follow. -/
  blank : Bool := false

namespace Split

def finish (s : Split) : Split :=
  match s.current with
  | some cells => { s with done := cells.reverse :: s.done, current := none }
  | none => s

def add (s : Split) (c : Cell) : Split :=
  { s with current := some (c :: s.current.getD []), blank := false }

def separate (s : Split) : Split :=
  if s.current.isNone && s.blank then { s with blank := false }
  else { s with done := (s.current.getD []).reverse :: s.done, current := none, blank := false }

def isSpace (c : Char) : Bool := c = ' ' || c = '\t' || c = '\n'

def step (separators : Octets) (s : Split) : Piece → Split
  | .mark => { s with current := some (s.current.getD []), blank := false }
  | .border _ => { s.finish with blank := false }
  | .cell c =>
    if !c.fromValue || !separators.contains c.char then s.add c
    else if isSpace c.char then
      if s.current.isSome then { s.finish with blank := true } else s
    else s.separate

def run (separators : Octets) (pieces : List Piece) : List (List Cell) :=
  (pieces.foldl (step separators) {}).finish.done.reverse

end Split

/-! ### Names of files -/

def splitSlashes (cells : List Cell) : List (List Cell) :=
  match cells with
  | [] => [[]]
  | c :: rest =>
    match splitSlashes rest with
    | [] => [[c]]
    | part :: parts => if c.char = '/' then [] :: part :: parts else (c :: part) :: parts

/-- The names in a directory that fit. A name with a dot at its front needs one in the pattern. -/
def namesIn (s : State) (front : Octets) (pattern : List Cell) : List Octets :=
  let dir := if front = [] then ['.'] else front
  match s.disk.list s.cwd (Octets.toPath dir) with
  | .error _ => []
  | .ok names =>
    (names.mergeSort Bytes.le).filterMap fun name =>
      let name := Octets.ofBytes name
      let hidden := name.head? = some '.' && !pattern.head?.any (·.char = '.')
      if !hidden && Pattern.fits pattern name then some name else none

/-- The paths that fit a pattern part by part, after what is already found. -/
def pathsFrom (s : State) : List (List Cell) → Octets → List Octets
  | [], _ => []
  | [last], front =>
    if Pattern.isActive last then (namesIn s front last).map (front ++ ·)
    else
      let path := front ++ Pattern.textOf last
      if (s.disk.stat s.cwd false (Octets.toPath path)).toBool then [path] else []
  | part :: rest, front =>
    if Pattern.isActive part then
      (namesIn s front part).flatMap fun name => pathsFrom s rest (front ++ name ++ ['/'])
    else pathsFrom s rest (front ++ Pattern.textOf part ++ ['/'])

/-- An argument, or the paths that it stands for if there are any. -/
def names (s : State) (argument : List Cell) : List Octets :=
  if s.options.literalNames || !Pattern.isActive argument then [Pattern.textOf argument]
  else
    match pathsFrom s (splitSlashes argument) [] with
    | [] => [Pattern.textOf argument]
    | found => found

/-- The arguments that words stand for. -/
def arguments (run : Octets → Shell Unit) : List Word → Shell (List Octets)
  | [] => return []
  | w :: rest => do
    let found ← pieces run w
    let s ← get
    let here := (Split.run (separators s) found).flatMap (names s)
    return here ++ (← arguments run rest)

end Expansion

end LayerPack.Shell
