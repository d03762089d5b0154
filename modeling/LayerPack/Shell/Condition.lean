import LayerPack.Shell.Arithmetic
import LayerPack.Shell.State

/-! Conditions on texts, numbers and files, written as lists of arguments. -/
namespace LayerPack.Shell.Condition

/-- Truth, or what is wrong with the condition. -/
abbrev Verdict := Except Octets Bool

def unaryOperators : List String := ["-n", "-z", "-e", "-f", "-d", "-r", "-w", "-x", "-s", "-h",
  "-L", "-t", "-p", "-S", "-b", "-c", "-u", "-g", "-k", "-O", "-G"]

def binaryOperators : List String := ["=", "!=", "<", ">", "-eq", "-ne", "-lt", "-le", "-gt", "-ge",
  "-nt", "-ot", "-ef"]

def isUnary (a : Octets) : Bool := unaryOperators.any (·.toList = a)

def isBinary (a : Octets) : Bool := binaryOperators.any (·.toList = a)

def stat? (s : State) (follow : Bool) (path : Octets) : Option Stat :=
  (s.disk.stat s.cwd follow (Octets.toPath path)).toOption

def hasMode (s : State) (path : Octets) (mask : Nat) : Bool :=
  (stat? s true path).any fun found => found.mode &&& mask != 0

def unary (s : State) (op : String) (a : Octets) : Bool :=
  match op with
  | "-n" => !a.isEmpty
  | "-z" => a.isEmpty
  | "-e" | "-r" | "-w" | "-O" | "-G" => (stat? s true a).isSome
  | "-f" => (stat? s true a).any (·.kind = .file)
  | "-d" => (stat? s true a).any (·.kind = .dir)
  | "-x" => hasMode s a 0o111
  | "-s" => (stat? s true a).any fun found => 0 < found.size
  | "-h" | "-L" => (stat? s false a).any (·.kind = .link)
  | "-u" => hasMode s a 0o4000
  | "-g" => hasMode s a 0o2000
  | "-k" => hasMode s a 0o1000
  | _ => false

def integer (a : Octets) : Except Octets Int :=
  let body := Arithmetic.skip a
  let body := (body.reverse.dropWhile fun c => Lexer.isBlank c || c = '\n').reverse
  let (negative, digits) := match body with
    | '-' :: rest => (true, rest)
    | '+' :: rest => (false, rest)
    | rest => (false, rest)
  match Arithmetic.ofDigits 10 digits with
  | some n => .ok (if negative then -n else n)
  | none => .error ("Illegal number: ".toList ++ a)

def placeOf (s : State) (path : Octets) : Option Place :=
  (s.disk.resolve s.cwd true (Octets.toPath path)).toOption.map (·.1)

def binary (s : State) (a : Octets) (op : String) (b : Octets) : Verdict :=
  match op with
  | "=" => .ok (a = b)
  | "!=" => .ok (a ≠ b)
  | "<" => .ok (Bytes.le a.toBytes b.toBytes && a ≠ b)
  | ">" => .ok (Bytes.le b.toBytes a.toBytes && a ≠ b)
  | "-eq" => return (← integer a) = (← integer b)
  | "-ne" => return (← integer a) ≠ (← integer b)
  | "-lt" => return (← integer a) < (← integer b)
  | "-le" => return (← integer a) ≤ (← integer b)
  | "-gt" => return (← integer b) < (← integer a)
  | "-ge" => return (← integer b) ≤ (← integer a)
  | "-nt" => .ok ((stat? s true a).isSome && (stat? s true b).isNone)
  | "-ot" => .ok ((stat? s true b).isSome && (stat? s true a).isNone)
  | "-ef" => .ok ((placeOf s a).isSome && placeOf s a = placeOf s b)
  | _ => .error (a ++ ": unexpected operator".toList)

mutual
/-- Alternatives, from which a condition takes as many arguments as it can. -/
def either (s : State) : Nat → List Octets → Except Octets (Bool × List Octets)
  | 0, _ => .error "argument expected".toList
  | fuel + 1, args => do
    let (a, rest) ← both s fuel args
    match rest with
    | ['-', 'o'] :: rest =>
      let (b, rest) ← either s fuel rest
      return (a || b, rest)
    | rest => return (a, rest)

def both (s : State) : Nat → List Octets → Except Octets (Bool × List Octets)
  | 0, _ => .error "argument expected".toList
  | fuel + 1, args => do
    let (a, rest) ← negated s fuel args
    match rest with
    | ['-', 'a'] :: rest =>
      let (b, rest) ← both s fuel rest
      return (a && b, rest)
    | rest => return (a, rest)

def negated (s : State) : Nat → List Octets → Except Octets (Bool × List Octets)
  | 0, _ => .error "argument expected".toList
  | fuel + 1, args =>
    match args with
    | [] => .error "argument expected".toList
    | [a] => .ok (!a.isEmpty, [])
    | a :: op :: rest =>
      match rest with
      | b :: after =>
        if isBinary op then do return (← binary s a (String.ofList op) b, after)
        else short s fuel a op rest
      | [] => short s fuel a op []

def short (s : State) :
    Nat → Octets → Octets → List Octets → Except Octets (Bool × List Octets)
  | 0, _, _, _ => .error "argument expected".toList
  | fuel + 1, a, b, rest =>
    if a = ['!'] then do
      let (value, rest) ← negated s fuel (b :: rest)
      return (!value, rest)
    else if a = ['('] then do
      let (value, rest) ← either s fuel (b :: rest)
      match rest with
      | [')'] :: rest => return (value, rest)
      | _ => throw "closing paren expected".toList
    else if isUnary a then .ok (unary s (String.ofList a) b, rest)
    else .ok (!a.isEmpty, b :: rest)
end

/-- The truth of a whole list of arguments. Nothing at all is false. -/
def verdict (s : State) (args : List Octets) : Verdict :=
  if args = [] then .ok false
  else
    match either s (6 * args.length + 6) args with
    | .error message => .error message
    | .ok (value, []) => .ok value
    | .ok (_, rest) =>
      .error ((args[args.length - rest.length - 1]?).getD [] ++ ": unexpected operator".toList)

end LayerPack.Shell.Condition
