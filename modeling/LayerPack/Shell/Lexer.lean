import LayerPack.Shell.Form

/-! Scripts as tokens. A word is read together with the quotes, parameters and nested scripts in
it, so that no blank or operator inside them ends it. -/
namespace LayerPack.Shell

inductive Token where
  | word (word : Word)
  | symbol (text : String)
  | redirect (descriptor : Nat) (direction : Direction)
  /-- The start of a text that follows on the next lines. -/
  | hereStart (descriptor : Nat) (quoted : Bool)
  | hereBody (text : Octets)
  | finish
  /-- A quote or bracket that is never closed. -/
  | unclosed (message : String)

namespace Lexer

def isBlank (c : Char) : Bool := c = ' ' || c = '\t'

/-- What ends a word that is not quoted. -/
def isMeta (c : Char) : Bool :=
  isBlank c || c = '\n' || c = ';' || c = '&' || c = '|' || c = '<' || c = '>' || c = '(' || c = ')'

def isNameStart (c : Char) : Bool := c.isAlpha || c = '_'

def isNameChar (c : Char) : Bool := c.isAlphanum || c = '_'

/-- The parameters of one character that are not names. -/
def isSpecial (c : Char) : Bool :=
  c = '@' || c = '*' || c = '#' || c = '?' || c = '$' || c = '!' || c = '-'

/-- What is said about a quote that is never closed. -/
def openQuote : String := "Unterminated quoted string"

/-- Splits after the closing of all brackets and quotes that are open. -/
def enclosed : List Char → Octets → Option (Octets × Octets)
  | [], rest => some ([], rest)
  | _, [] => none
  | '\'' :: opens, c :: rest =>
    (enclosed (if c = '\'' then opens else '\'' :: opens) rest).map fun (a, b) => (c :: a, b)
  | top :: opens, '\\' :: c :: rest =>
    (enclosed (top :: opens) rest).map fun (a, b) => ('\\' :: c :: a, b)
  | '"' :: opens, '$' :: '(' :: rest =>
    (enclosed ('(' :: '"' :: opens) rest).map fun (a, b) => ('$' :: '(' :: a, b)
  | top :: opens, c :: rest =>
    let opens :=
      if c = '"' then (if top = '"' then opens else '"' :: top :: opens)
      else if top = '"' then top :: opens
      else if c = '\'' then '\'' :: top :: opens
      else if c = '(' then '(' :: top :: opens
      else if c = ')' then opens
      else top :: opens
    (enclosed opens rest).map fun (a, b) => (c :: a, b)

/-- The script up to a closing backquote; a backslash protects itself, a dollar and a backquote,
and between double quotes also one of these. -/
def backquoted (quoted : Bool) : Octets → Except String (Octets × Octets)
  | [] => .error "EOF in backquote substitution"
  | '\x60' :: rest => .ok ([], rest)
  | '\\' :: c :: rest =>
    (backquoted quoted rest).map fun (a, b) =>
      (if c = '\\' ∨ c = '$' ∨ c = '\x60' ∨ (quoted ∧ c = '"') then c :: a else '\\' :: c :: a, b)
  | c :: rest => (backquoted quoted rest).map fun (a, b) => (c :: a, b)

/-- The name of a parameter. -/
def parameterName : Octets → Option (Octets × Octets)
  | [] => none
  | c :: rest =>
    if isNameStart c then some (c :: rest.takeWhile isNameChar, rest.dropWhile isNameChar)
    else if c.isDigit ∨ isSpecial c then some ([c], rest)
    else none

/-- The same between braces, where a number may have several digits. -/
def bracedName (cs : Octets) : Option (Octets × Octets) :=
  match cs.takeWhile Char.isDigit with
  | [] => parameterName cs
  | digits => some (digits, cs.dropWhile Char.isDigit)

/-- What may follow the name of a parameter between braces. -/
def operation : Octets → Option (Operation × Bool × Octets)
  | '}' :: rest => some (.value, false, '}' :: rest)
  | ':' :: '-' :: rest => some (.orElse, true, rest)
  | ':' :: '=' :: rest => some (.assign, true, rest)
  | ':' :: '?' :: rest => some (.demand, true, rest)
  | ':' :: '+' :: rest => some (.instead, true, rest)
  | '-' :: rest => some (.orElse, false, rest)
  | '=' :: rest => some (.assign, false, rest)
  | '?' :: rest => some (.demand, false, rest)
  | '+' :: rest => some (.instead, false, rest)
  | '#' :: '#' :: rest => some (.cutFront true, false, rest)
  | '#' :: rest => some (.cutFront false, false, rest)
  | '%' :: '%' :: rest => some (.cutBack true, false, rest)
  | '%' :: rest => some (.cutBack false, false, rest)
  | _ => none

def isCut : Operation → Bool
  | .cutFront _ | .cutBack _ => true
  | _ => false

/-- Where the reading of parts stops. -/
inductive Ending where
  | blank
  | quote
  | brace (quoted : Bool)
  /-- At the end of the input; all of it is quoted. -/
  | whole

namespace Ending

def isQuoted : Ending → Bool
  | blank => false
  | quote | whole => true
  | brace quoted => quoted

def stops : Ending → Char → Bool
  | blank, c => isMeta c
  | quote, c => c = '"'
  | brace _, c => c = '}'
  | whole, _ => false

end Ending

/-- Puts text before parts. -/
def addText (quoted : Bool) (text : Octets) : Word → Word
  | .text q content :: rest =>
    if q = quoted then .text q (text ++ content) :: rest
    else .text quoted text :: .text q content :: rest
  | rest => .text quoted text :: rest

/-- What a backslash protects between quotes. -/
def isProtected (ending : Ending) (c : Char) : Bool :=
  c = '$' || c = '\x60' || c = '\\' || (c = '"' && !(ending matches .whole)) ||
    (c = '}' && ending matches .brace _)

/-- A part that starts with a dollar, given what comes after it, with a way to read the parts
inside it. -/
def dollar (parts : Ending → Octets → Except String (Word × Octets)) (quoted : Bool) (cs : Octets) :
    Except String (Part × Octets) :=
  match cs with
  | '(' :: '(' :: rest =>
    match enclosed ['(', '('] rest with
    | none => .error "Missing '))'"
    | some (inside, rest) => do
      let (expression, _) ← parts .whole (inside.take (inside.length - 2))
      return (.number quoted expression, rest)
  | '(' :: rest =>
    match enclosed ['('] rest with
    | none => .error "end of file unexpected (expecting \")\")"
    | some (inside, rest) => .ok (.output quoted inside.dropLast, rest)
  | '{' :: '#' :: '}' :: rest => .ok (.param quoted ['#'] .value false [], rest)
  | '{' :: '#' :: rest =>
    match bracedName rest with
    | some (name, '}' :: rest) => .ok (.param quoted name .length false [], rest)
    | _ => do
      let (_, rest) ← parts (.brace quoted) rest
      return (.invalid, rest)
  | '{' :: rest =>
    match bracedName rest with
    | none => do
      let (_, rest) ← parts (.brace quoted) rest
      return (.invalid, rest)
    | some (name, rest) =>
      match operation rest with
      | some (op, emptyToo, rest) => do
        let (operand, rest) ← parts (.brace (quoted && !isCut op)) rest
        return (.param quoted name op emptyToo operand, rest)
      | none => do
        let (_, rest) ← parts (.brace quoted) rest
        return (.invalid, rest)
  | rest =>
    match parameterName rest with
    | some (name, rest) => .ok (.param quoted name .value false [], rest)
    | none => .ok (.text quoted ['$'], rest)

/-- Reads parts up to an ending. A closing quote or brace is taken away, everything else that ends
a word is left. -/
def parts : Nat → Ending → Octets → Except String (Word × Octets)
  | 0, _, _ => .error openQuote
  | _ + 1, ending, [] =>
    match ending with
    | .blank | .whole => .ok ([], [])
    | .quote => .error openQuote
    | .brace _ => .error "Missing '\x7d'"
  | fuel + 1, ending, c :: rest =>
    let go (put : Word → Word) (rest : Octets) :=
      (parts fuel ending rest).map fun (word, rest) => (put word, rest)
    let quoted := ending.isQuoted
    if ending.stops c then .ok ([], if ending matches .blank then c :: rest else rest)
    else if c = '\\' then
      match rest with
      | '\n' :: rest => go id rest
      | d :: rest =>
        if !quoted || isProtected ending d then go (addText true [d]) rest
        else go (addText quoted ['\\']) (d :: rest)
      | [] => go (addText quoted ['\\']) []
    else if c = '\'' && !quoted then
      let inside := rest.takeWhile (· ≠ '\'')
      match rest.dropWhile (· ≠ '\'') with
      | _ :: rest => go (.text true inside :: ·) rest
      | [] => .error openQuote
    else if c = '"' && !(ending matches .whole) then
      if quoted then go id rest
      else
        match parts fuel .quote rest with
        | .ok (inside, rest) =>
          go (fun word => if inside.isEmpty then .text true [] :: word else inside ++ word) rest
        | .error message => .error message
    else if c = '$' then
      match dollar (parts fuel) quoted rest with
      | .ok (part, rest) => go (part :: ·) rest
      | .error message => .error message
    else if c = '\x60' then
      match backquoted quoted rest with
      | .ok (script, rest) => go (.output quoted script :: ·) rest
      | .error message => .error message
    else go (addText quoted [c]) rest

def readParts (ending : Ending) (cs : Octets) : Except String (Word × Octets) :=
  parts (cs.length + 1) ending cs

/-- The operator at the front of a script. -/
def operator? : Octets → Option (String × Octets)
  | '&' :: '&' :: rest => some ("&&", rest)
  | '|' :: '|' :: rest => some ("||", rest)
  | ';' :: ';' :: rest => some (";;", rest)
  | '&' :: rest => some ("&", rest)
  | '|' :: rest => some ("|", rest)
  | ';' :: rest => some (";", rest)
  | '(' :: rest => some ("(", rest)
  | ')' :: rest => some (")", rest)
  | _ => none

/-- The direction of a redirection at the front of a script, and the descriptor that is meant if
no number stands before it. -/
def direction? : Octets → Option (Direction × Nat × Octets)
  | '>' :: '>' :: rest => some (.append, 1, rest)
  | '>' :: '&' :: rest => some (.duplicate, 1, rest)
  | '>' :: '|' :: rest => some (.write, 1, rest)
  | '>' :: rest => some (.write, 1, rest)
  | '<' :: '<' :: '-' :: rest => some (.here, 0, '-' :: rest)
  | '<' :: '<' :: rest => some (.here, 0, rest)
  | '<' :: '&' :: rest => some (.duplicate, 0, rest)
  | '<' :: '>' :: rest => some (.both, 0, rest)
  | '<' :: rest => some (.read, 0, rest)
  | _ => none

/-- A text on lines of its own that is still to come. -/
structure Awaited where
  delimiter : Octets
  dropTabs : Bool

/-- The lines up to the one that is the delimiter, and what follows it. -/
def hereLines (a : Awaited) : Nat → Octets → Octets × Octets
  | 0, cs => ([], cs)
  | _, [] => ([], [])
  | fuel + 1, cs =>
    let line := cs.takeWhile (· ≠ '\n')
    let rest := (cs.dropWhile (· ≠ '\n')).drop 1
    let line := if a.dropTabs then line.dropWhile (· = '\t') else line
    if line = a.delimiter then ([], rest)
    else
      let (more, rest) := hereLines a fuel rest
      (line ++ '\n' :: more, rest)

/-- The texts that were awaited, the last one first. -/
def hereBodies : List Awaited → Octets → List (Nat × Token) → List (Nat × Token) × Octets
  | [], cs, found => (found, cs)
  | a :: rest, cs, found =>
    let (body, cs) := hereLines a (cs.length + 1) cs
    hereBodies rest cs ((0, .hereBody body) :: found)

def countLines (cs : Octets) : Nat := cs.count '\n'

def scan : Nat → Nat → List Awaited → Octets → List (Nat × Token)
  | 0, _, _, _ => []
  | _ + 1, line, _, [] => [(line, .finish)]
  | fuel + 1, line, awaited, c :: rest =>
    let cs := c :: rest
    if isBlank c then scan fuel line awaited rest
    else if c = '\n' then
      let (bodies, after) := hereBodies awaited.reverse rest []
      (line, .symbol "\n") :: bodies ++
        scan fuel (line + 1 + countLines rest - countLines after) [] after
    else if c = '#' then scan fuel line awaited (rest.dropWhile (· ≠ '\n'))
    else
      let digits := cs.takeWhile Char.isDigit
      match direction? (cs.drop digits.length), operator? cs with
      | some (direction, usual, after), _ =>
        let descriptor := ((String.ofList digits).toNat?).getD usual
        if direction = .here then
          let dropTabs := after.head? = some '-'
          let after := (if dropTabs then after.drop 1 else after).dropWhile isBlank
          match readParts .blank after with
          | .error message => [(line, .unclosed message)]
          | .ok (word, after) =>
            (line, .hereStart descriptor word.isQuoted) ::
              scan fuel line (⟨word.literal?.getD [], dropTabs⟩ :: awaited) after
        else (line, .redirect descriptor direction) :: scan fuel line awaited after
      | none, some (text, after) => (line, .symbol text) :: scan fuel line awaited after
      | none, none =>
        match readParts .blank cs with
        | .error message => [(line, .unclosed message)]
        | .ok (word, after) =>
          (line, .word word) ::
            scan fuel (line + countLines cs - countLines after) awaited after

/-- Puts each text that came on later lines behind its redirection. -/
def attach (tokens : List (Nat × Token)) : List (Nat × Token) :=
  (tokens.foldr (fun (line, token) (done, bodies) =>
    match token, bodies with
    | .hereBody text, bodies => (done, text :: bodies)
    | .hereStart descriptor quoted, text :: bodies =>
      let word := match readParts .whole text with
        | .ok (word, _) => if quoted then [.text true text] else word
        | .error _ => [.text true text]
      ((line, .redirect descriptor .here) :: (line, .word word) :: done, bodies)
    | .hereStart .., [] => (done, [])
    | other, bodies => ((line, other) :: done, bodies))
    (([], []) : List (Nat × Token) × List Octets)).1

end Lexer

/-- The tokens of a script with their lines. -/
def tokensOf (script : Octets) : List (Nat × Token) :=
  Lexer.attach (Lexer.scan (script.length + 1) 1 [] script)

end LayerPack.Shell
