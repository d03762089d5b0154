import LayerPack.Toml.Document
import LayerPack.Toml.Moment

/-! The grammar of TOML 1.0. Each function reads from the front of the text and returns what it
read and the rest, or nothing if the text breaks the grammar. -/
namespace LayerPack.Toml

namespace Parser

def isBlank (c : Char) : Bool := c = ' ' || c = '\t'

def skipBlanks (cs : List Char) : List Char := cs.dropWhile isBlank

/-- Characters that stand for themselves in comments and literal strings. -/
def isPlain (c : Char) : Bool := c = '\t' || (0x20 ≤ c.toNat && c.toNat ≠ 0x7F)

/-- Drops one line end, if there is one. -/
def newline? : List Char → Option (List Char)
  | '\n' :: rest => some rest
  | '\r' :: '\n' :: rest => some rest
  | _ => none

/-- Drops a comment up to the line end. -/
def skipComment : List Char → List Char
  | '#' :: rest => rest.dropWhile isPlain
  | cs => cs

/-- The rest of a line holds nothing but blanks and a comment. -/
def endLine (cs : List Char) : Option (List Char) :=
  let rest := skipComment (skipBlanks cs)
  if rest = [] then some [] else newline? rest

/-- Drops blanks, line ends and comments. -/
def skipSpace : Nat → List Char → List Char
  | 0, cs => cs
  | fuel + 1, cs =>
    let rest := skipComment (skipBlanks cs)
    match newline? rest with
    | some rest' => skipSpace fuel rest'
    | none => rest

def isBareKey (c : Char) : Bool := c.isAlphanum || c = '_' || c = '-'

def hexValue (c : Char) : Option Nat :=
  if c.isDigit then some (c.toNat - 48)
  else if 'a' ≤ c ∧ c ≤ 'f' then some (c.toNat - 87)
  else if 'A' ≤ c ∧ c ≤ 'F' then some (c.toNat - 55)
  else none

def hexDigits : Nat → Nat → List Char → Option (Nat × List Char)
  | 0, value, cs => some (value, cs)
  | count + 1, value, c :: rest => do hexDigits count (value * 16 + (← hexValue c)) rest
  | _ + 1, _, [] => none

def scalar (code : Nat) : Option Char :=
  if code.isValidChar then some (Char.ofNat code) else none

/-- The character of an escape; the backslash has been read. -/
def escape : List Char → Option (Char × List Char)
  | 'b' :: rest => some (Char.ofNat 8, rest)
  | 't' :: rest => some ('\t', rest)
  | 'n' :: rest => some ('\n', rest)
  | 'f' :: rest => some (Char.ofNat 12, rest)
  | 'r' :: rest => some ('\r', rest)
  | '"' :: rest => some ('"', rest)
  | '\\' :: rest => some ('\\', rest)
  | 'u' :: rest => do
    let (code, rest) ← hexDigits 4 0 rest
    return (← scalar code, rest)
  | 'U' :: rest => do
    let (code, rest) ← hexDigits 8 0 rest
    return (← scalar code, rest)
  | _ => none

/-- The rest of a string on one line in double quotes, with the characters so far in reverse. -/
def basicFrom : Nat → List Char → List Char → Option (String × List Char)
  | 0, _, _ => none
  | fuel + 1, held, cs =>
    match cs with
    | '"' :: rest => some (String.ofList held.reverse, rest)
    | '\\' :: rest => do
      let (c, rest) ← escape rest
      basicFrom fuel (c :: held) rest
    | c :: rest => if isPlain c then basicFrom fuel (c :: held) rest else none
    | [] => none

def literalFrom (held : List Char) : List Char → Option (String × List Char)
  | '\'' :: rest => some (String.ofList held.reverse, rest)
  | c :: rest => if isPlain c then literalFrom (c :: held) rest else none
  | [] => none

/-- How many times a character stands at the front. -/
def runOf (c : Char) (cs : List Char) : Nat := (cs.takeWhile (· = c)).length

/-- Drops blanks and line ends after a backslash at the end of a line. -/
def skipFold : Nat → List Char → List Char
  | 0, cs => cs
  | fuel + 1, cs =>
    let rest := skipBlanks cs
    match newline? rest with
    | some rest' => skipFold fuel rest'
    | none => rest

/-- The rest of a string over several lines. Up to two quotes may stand before the closing three;
a line end counts as a line feed. -/
def longFrom (quote : Char) : Nat → List Char → List Char → Option (String × List Char)
  | 0, _, _ => none
  | fuel + 1, held, cs =>
    match cs with
    | [] => none
    | c :: rest =>
      if c = quote then
        let run := runOf quote cs
        if run < 3 then longFrom quote fuel (c :: held) rest
        else
          let extra := min (run - 3) 2
          some (String.ofList (held.reverse ++ List.replicate extra quote), cs.drop (extra + 3))
      else if c = '\\' ∧ quote = '"' then
        match newline? (skipBlanks rest) with
        | some rest' => longFrom quote fuel held (skipFold rest'.length rest')
        | none => do
          let (c, rest) ← escape rest
          longFrom quote fuel (c :: held) rest
      else
        match newline? cs with
        | some rest' => longFrom quote fuel ('\n' :: held) rest'
        | none => if isPlain c then longFrom quote fuel (c :: held) rest else none

/-- A long string drops a line end right after its opening quotes. -/
def long (quote : Char) (cs : List Char) : Option (String × List Char) :=
  longFrom quote (cs.length + 1) [] ((newline? cs).getD cs)

def simpleKey (cs : List Char) : Option (String × List Char) :=
  match cs with
  | '"' :: rest => basicFrom (rest.length + 1) [] rest
  | '\'' :: rest => literalFrom [] rest
  | _ =>
    let key := cs.takeWhile isBareKey
    if key = [] then none else some (String.ofList key, cs.dropWhile isBareKey)

/-- A dotted key as the list of its keys. -/
def keyPath : Nat → List Char → Option (List String × List Char)
  | 0, _ => none
  | fuel + 1, cs => do
    let (key, rest) ← simpleKey (skipBlanks cs)
    match skipBlanks rest with
    | '.' :: more =>
      let (path, rest) ← keyPath fuel more
      return (key :: path, rest)
    | rest => return ([key], rest)

/-- Digits of a base with single underscores between them. -/
def digitRun (isDigit : Char → Bool) : List Char → Option (List Char)
  | [c] => if isDigit c then some [c] else none
  | c :: '_' :: rest => if isDigit c then (digitRun isDigit rest).map (c :: ·) else none
  | c :: rest => if isDigit c then (digitRun isDigit rest).map (c :: ·) else none
  | [] => none

def numberOf (base : Nat) (ds : List Char) : Nat :=
  ds.foldl (fun n c => n * base + (hexValue c).getD 0) 0

def inRange (n : Int) : Option Value :=
  if -9223372036854775808 ≤ n ∧ n ≤ 9223372036854775807 then some (.integer n) else none

def based (base : Nat) (isDigit : Char → Bool) (cs : List Char) : Option Value := do
  inRange (numberOf base (← digitRun isDigit cs))

/-- The digits before the point: no zero in front of others. -/
def wholePart (cs : List Char) : Option (List Char) := do
  let ds ← digitRun Char.isDigit cs
  if ds.head? = some '0' ∧ ds.length > 1 then none else some ds

def splitSign : List Char → Bool × List Char
  | '-' :: rest => (true, rest)
  | '+' :: rest => (false, rest)
  | cs => (false, cs)

/-- A decimal number: an integer, or a fraction if it has a point or an exponent. -/
def decimal (cs : List Char) : Option Value := do
  let (negative, cs) := splitSign cs
  if cs = "inf".toList then return .float (.infinite negative)
  if cs = "nan".toList then return .float .notNumber
  let isExponent (c : Char) : Bool := c = 'e' || c = 'E'
  let body := cs.takeWhile (!isExponent ·)
  let tail := cs.dropWhile (!isExponent ·)
  let whole ← wholePart (body.takeWhile (· ≠ '.'))
  let after := body.dropWhile (· ≠ '.')
  if after = [] ∧ tail = [] then
    let n : Int := numberOf 10 whole
    inRange (if negative then -n else n)
  else
    let part ← if after = [] then some [] else digitRun Char.isDigit (after.drop 1)
    let exponent ← match tail with
      | [] => some 0
      | _ :: digits =>
        let (minus, digits) := splitSign digits
        (digitRun Char.isDigit digits).map fun ds =>
          let n : Int := numberOf 10 ds
          if minus then -n else n
    match Text.Real53.ofDecimal negative (numberOf 10 (whole ++ part)) (exponent - part.length) with
    | .infinite _ => none
    | number => return .float number

/-- Characters of a word that is neither a string nor a list nor a table. -/
def isWord (c : Char) : Bool :=
  c.isAlphanum || c = '_' || c = '-' || c = '+' || c = '.' || c = ':'

def word (cs : List Char) : Option (Value × List Char) :=
  let token := cs.takeWhile isWord
  let rest := cs.dropWhile isWord
  match Moment.parse cs with
  | some (text, rest') => some (.moment text, rest')
  | none =>
    (match token with
      | '0' :: 'x' :: ds => based 16 (fun c => (hexValue c).isSome) ds
      | '0' :: 'o' :: ds => based 8 (fun c => '0' ≤ c && c ≤ '7') ds
      | '0' :: 'b' :: ds => based 2 (fun c => c = '0' || c = '1') ds
      | _ =>
        if token = "true".toList then some (.boolean true)
        else if token = "false".toList then some (.boolean false)
        else decimal token).map (·, rest)

/-- How deep lists and tables in braces may be nested. -/
def maxDepth : Nat := 80

mutual
def item : Nat → Nat → List Char → Option (Item × List Char)
  | 0, _, _ => none
  | fuel + 1, depth, cs =>
    match cs with
    | '"' :: '"' :: '"' :: rest => (long '"' rest).map fun (s, rest) => (.leaf (.string s), rest)
    | '\'' :: '\'' :: '\'' :: rest =>
      (long '\'' rest).map fun (s, rest) => (.leaf (.string s), rest)
    | '"' :: rest =>
      (basicFrom (rest.length + 1) [] rest).map fun (s, rest) => (.leaf (.string s), rest)
    | '\'' :: rest => (literalFrom [] rest).map fun (s, rest) => (.leaf (.string s), rest)
    | '[' :: rest =>
      if depth ≥ maxDepth then none
      else (items fuel (depth + 1) rest).map fun (xs, rest) => (.list xs, rest)
    | '{' :: rest =>
      if depth ≥ maxDepth then none
      else
        match skipBlanks rest with
        | '}' :: rest => some (.table .inline [], rest)
        | _ => (pairs fuel (depth + 1) [] rest).map fun (fields, rest) =>
          (.table .inline fields, rest)
    | _ => (word cs).map fun (value, rest) => (.leaf value, rest)

/-- The items of a list up to its closing bracket; a comma may stand before that. -/
def items : Nat → Nat → List Char → Option (List Value × List Char)
  | 0, _, _ => none
  | fuel + 1, depth, cs =>
    match skipSpace cs.length cs with
    | ']' :: rest => some ([], rest)
    | start => do
      let (first, rest) ← item fuel depth start
      match skipSpace rest.length rest with
      | ',' :: rest =>
        let (others, rest) ← items fuel depth rest
        return (first.value :: others, rest)
      | ']' :: rest => return ([first.value], rest)
      | _ => none

/-- The entries of a table in braces. -/
def pairs : Nat → Nat → Fields → List Char → Option (Fields × List Char)
  | 0, _, _, _ => none
  | fuel + 1, depth, fields, cs => do
    let (path, rest) ← keyPath (cs.length + 1) cs
    match rest with
    | '=' :: rest =>
      let (value, rest) ← item fuel depth (skipBlanks rest)
      let fields ← fields.assign path.dropLast (path.getLast?.getD "") value
      match skipBlanks rest with
      | ',' :: rest => pairs fuel depth fields rest
      | '}' :: rest => return (fields, rest)
      | _ => none
    | _ => none
end

/-- The keys of a header up to its closing bracket. -/
def header (cs : List Char) : Option (List String × List Char) := do
  let (path, rest) ← keyPath (cs.length + 1) cs
  match rest with
  | ']' :: rest => return (path, rest)
  | _ => none

/-- Reads line after line. `at_` is the header whose table the lines belong to. -/
def document : Nat → List String → Fields → List Char → Option Fields
  | 0, _, _, _ => none
  | fuel + 1, at_, fields, cs =>
    match skipSpace cs.length cs with
    | [] => some fields
    | '[' :: '[' :: rest => do
      let (path, rest) ← header rest
      match rest with
      | ']' :: rest =>
        let fields ← fields.openRow path.dropLast (path.getLast?.getD "")
        document fuel path fields (← endLine rest)
      | _ => none
    | '[' :: rest => do
      let (path, rest) ← header rest
      let fields ← fields.openTable path.dropLast (path.getLast?.getD "")
      document fuel path fields (← endLine rest)
    | start => do
      let (path, rest) ← keyPath (start.length + 1) start
      match rest with
      | '=' :: rest =>
        let (value, rest) ← item (rest.length + 1) 0 (skipBlanks rest)
        let fields ← fields.assignUnder at_ path.dropLast (path.getLast?.getD "") value
        document fuel at_ fields (← endLine rest)
      | _ => none

end Parser

/-- The value of a document, a table; a byte order mark at the front does not count. -/
def parse? (text : String) : Option Value :=
  let cs := text.toList
  let cs := if cs.head? = some (Char.ofNat 0xFEFF) then cs.drop 1 else cs
  (Parser.document (cs.length + 1) [] [] cs).map fun fields => (Item.table .header fields).value

end LayerPack.Toml
