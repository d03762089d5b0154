import LayerPack.Shell.Arithmetic

/-! Text with backslashes in it as it is printed, and formats that are filled in with arguments. -/
namespace LayerPack.Shell.Printing

def isOctal (c : Char) : Bool := '0' ≤ c && c ≤ '7'

def octal (digits : Octets) : Char :=
  Char.ofNat ((digits.foldl (fun n c => n * 8 + (c.toNat - 48)) 0) % 256)

/-- What a letter after a backslash stands for. -/
def escape? : Char → Option Char
  | '\\' => some '\\'
  | 'a' => some '\x07'
  | 'b' => some '\x08'
  | 'e' => some '\x1b'
  | 'f' => some '\x0c'
  | 'n' => some '\n'
  | 'r' => some '\r'
  | 't' => some '\t'
  | 'v' => some '\x0b'
  | _ => none

/-- The character at the front of what follows a backslash, and the rest. A backslash that means
nothing stands for itself. -/
def escaped (cs : Octets) : Char × Octets :=
  match cs with
  | [] => ('\\', [])
  | c :: rest =>
    if isOctal c then
      let digits := (cs.take 3).takeWhile isOctal
      (octal digits, cs.drop digits.length)
    else
      match escape? c with
      | some d => (d, rest)
      | none => ('\\', cs)

/-- Puts in the characters that escapes stand for; an octal number may have a zero before it. The
second result is `true` if an escape asks to stop there. -/
def unescape : Nat → Octets → Octets × Bool
  | 0, _ => ([], false)
  | _, [] => ([], false)
  | fuel + 1, '\\' :: rest =>
    match rest with
    | 'c' :: _ => ([], true)
    | rest =>
      let rest := match rest with
        | '0' :: d :: more => if isOctal d then d :: more else rest
        | rest => rest
      let (c, rest) := escaped rest
      let (text, stop) := unescape fuel rest
      (c :: text, stop)
  | fuel + 1, c :: rest =>
    let (text, stop) := unescape fuel rest
    (c :: text, stop)

/-- The arguments with blanks between them, escapes put in, and an end of line unless the first
argument or an escape turns it off. -/
def echo (arguments : List Octets) : Octets :=
  let (ended, arguments) := match arguments with
    | ['-', 'n'] :: rest => (false, rest)
    | all => (true, all)
  let joined := [' '].intercalate arguments
  let (text, stop) := unescape (joined.length + 1) joined
  text ++ if ended && !stop then ['\n'] else []

/-! ### Formats -/

structure Directive where
  left : Bool := false
  sign : Bool := false
  blank : Bool := false
  zero : Bool := false
  alternate : Bool := false
  width : Nat := 0
  precision : Option Nat := none

/-- The state of a format that is being filled in. -/
structure Filling where
  /-- The printed characters, the last one first. -/
  printed : List Char := []
  arguments : List Octets
  warnings : List Octets := []
  stopped : Bool := false
  failure : Option Octets := none

namespace Filling

def put (f : Filling) (text : Octets) : Filling :=
  { f with printed := text.reverse ++ f.printed }

def next (f : Filling) : Option Octets × Filling :=
  match f.arguments with
  | [] => (none, f)
  | a :: rest => (some a, { f with arguments := rest })

def warn (f : Filling) (message : Octets) : Filling :=
  { f with warnings := f.warnings ++ [message] }

end Filling

/-- The digits at the front that belong to a number in its base. -/
def numberPart (cs : Octets) : Octets :=
  match cs with
  | '0' :: 'x' :: rest => '0' :: 'x' :: rest.takeWhile fun c => Arithmetic.digitValue c < 16
  | '0' :: rest => '0' :: rest.takeWhile isOctal
  | cs => cs.takeWhile Char.isDigit

/-- An argument as a number, with a warning if it is not one. After a quote it is the number of
the next character. -/
def integer (f : Filling) : Int × Filling :=
  match f.next with
  | (none, f) => (0, f)
  | (some text, f) =>
    match text with
    | '\'' :: c :: _ | '"' :: c :: _ => ((c.toNat : Int), f)
    | text => number text f
where
  number (text : Octets) (f : Filling) : Int × Filling :=
    let body := Arithmetic.skip text
    let negative := body.head? = some '-'
    let body := if negative || body.head? = some '+' then body.drop 1 else body
    let part := numberPart body
    let n : Int := (Arithmetic.ofConstant part).getD 0
    let f :=
      if part.length = body.length && part ≠ [] then f
      else if part = [] then f.warn (text ++ ": expected numeric value".toList)
      else f.warn (text ++ ": not completely converted".toList)
    (if negative then -n else n, f)

/-- Fills up to the width of a directive. -/
def pad (d : Directive) (text : Octets) : Octets :=
  let missing := List.replicate (d.width - text.length) ' '
  if d.left then text ++ missing else missing ++ text

/-- A number with its sign: zeros fill it up to the precision, or to the width. -/
def padNumber (d : Directive) (sign digits : Octets) : Octets :=
  match d.precision with
  | some p =>
    let digits := if p = 0 && digits = ['0'] then [] else digits
    pad d (sign ++ List.replicate (p - digits.length) '0' ++ digits)
  | none =>
    if d.zero && !d.left then
      sign ++ List.replicate (d.width - sign.length - digits.length) '0' ++ digits
    else pad d (sign ++ digits)

def signOf (d : Directive) (n : Int) : Octets :=
  if n < 0 then ['-'] else if d.sign then ['+'] else if d.blank then [' '] else []

def inBase (base : Nat) (upper : Bool) (n : Nat) : Octets :=
  let digits := Nat.toDigits base n
  if upper then digits.map Char.toUpper else digits

/-- What a directive prints. -/
def fill (d : Directive) (kind : Char) (f : Filling) : Option Filling :=
  if kind = 'd' ∨ kind = 'i' then
    let (n, f) := integer f
    some (f.put (padNumber d (signOf d n) (toString n.natAbs).toList))
  else if kind = 'u' ∨ kind = 'o' ∨ kind = 'x' ∨ kind = 'X' then
    let (n, f) := integer f
    let n := (n % Nat.pow 2 64).toNat
    let base := if kind = 'u' then 10 else if kind = 'o' then 8 else 16
    let mark := if !d.alternate || n = 0 then [] else if kind = 'o' then ['0']
      else if kind = 'u' then [] else ['0', kind]
    some (f.put (padNumber d mark (inBase base (kind = 'X') n)))
  else if kind = 's' then
    let (a, f) := f.next
    let text := a.getD []
    some (f.put (pad d ((d.precision.map text.take).getD text)))
  else if kind = 'b' then
    let (a, f) := f.next
    let text := a.getD []
    let (text, stop) := unescape (text.length + 1) text
    some { f.put (pad d ((d.precision.map text.take).getD text)) with stopped := stop }
  else if kind = 'c' then
    let (a, f) := f.next
    some (f.put (pad d ((a.getD []).take 1)))
  else none

/-- A number in a directive, which may be an argument. -/
def measure (cs : Octets) (f : Filling) : Int × Octets × Filling :=
  match cs with
  | '*' :: rest =>
    let (n, f) := integer f
    (n, rest, f)
  | cs =>
    let digits := cs.takeWhile Char.isDigit
    (((String.ofList digits).toNat?.getD 0 : Nat), cs.drop digits.length, f)

/-- Reads a directive after its percent sign. -/
def directive (cs : Octets) (f : Filling) : Directive × Octets × Filling :=
  let isFlag (c : Char) : Bool := c = '-' || c = '+' || c = ' ' || c = '#' || c = '0'
  let flags := cs.takeWhile isFlag
  let (width, rest, f) := measure (cs.drop flags.length) f
  let d : Directive := {
    left := flags.contains '-' || width < 0, sign := flags.contains '+'
    blank := flags.contains ' ', zero := flags.contains '0', alternate := flags.contains '#'
    width := width.natAbs }
  match rest with
  | '.' :: rest =>
    let (precision, rest, f) := measure rest f
    ({ d with precision := if precision < 0 then none else some precision.toNat }, rest, f)
  | rest => (d, rest, f)

/-- Goes through a format once. -/
def once : Nat → Octets → Filling → Filling
  | 0, _, f => f
  | _, [], f => f
  | fuel + 1, '\\' :: rest, f =>
    let (c, rest) := escaped rest
    once fuel rest (f.put [c])
  | fuel + 1, '%' :: '%' :: rest, f => once fuel rest (f.put ['%'])
  | fuel + 1, '%' :: rest, f =>
    let (d, after, f) := directive rest f
    match after with
    | [] => { f with failure := some "missing format character".toList }
    | kind :: after =>
      match fill d kind f with
      | none =>
        let shown := '%' :: rest.take (rest.length - after.length)
        { f with failure := some (shown ++ ": invalid directive".toList) }
      | some f => if f.stopped then f else once fuel after f
  | fuel + 1, c :: rest, f => once fuel rest (f.put [c])

/-- Goes through a format again as long as arguments are left and it takes some. -/
def again (format : Octets) : Nat → Filling → Filling
  | 0, f => f
  | fuel + 1, f =>
    let before := f.arguments.length
    let f := once (format.length + 1) format f
    if f.stopped || f.failure.isSome || f.arguments = [] || f.arguments.length = before then f
    else again format fuel f

def printf (format : Octets) (arguments : List Octets) : Filling :=
  let f := again format (arguments.length + 1) { arguments }
  { f with printed := f.printed.reverse }

end LayerPack.Shell.Printing
