import LayerPack.Shell.Lexer

/-! Whole numbers of 64 bits with the operators of the shell. An expression is read into a tree
first, so that what is not needed is not carried out. -/
namespace LayerPack.Shell

/-- A number that has overflowed starts again at the other end. -/
def wrap (n : Int) : Int := Int.bmod n (Nat.pow 2 64)

namespace Arithmetic

inductive Expr where
  | number (value : Int)
  | named (name : Octets)
  | unary (op : Char) (operand : Expr)
  | binary (op : String) (left right : Expr)
  | choose (condition onTrue onFalse : Expr)
  | assign (name : Octets) (op : Option String) (value : Expr)

inductive Failure where
  | malformed
  | divisionByZero
  | notNumber (text : Octets)

/-- The operators with two operands, from the loosest to the tightest. -/
def levels : List (List String) := [["||"], ["&&"], ["|"], ["^"], ["&"], ["==", "!="],
  ["<=", ">=", "<", ">"], ["<<", ">>"], ["+", "-"], ["*", "/", "%"]]

def skip (cs : Octets) : Octets := cs.dropWhile fun c => Lexer.isBlank c || c = '\n'

/-- What must not follow an operator, as it would be another one. -/
def clashes (op : String) (rest : Octets) : Bool :=
  match op, rest with
  | "|", '|' :: _ | "&", '&' :: _ => true
  | "<", '<' :: _ | ">", '>' :: _ => true
  | "==", _ | "!=", _ | "<=", _ | ">=", _ | "||", _ | "&&", _ => false
  | _, '=' :: _ => true
  | _, _ => false

def operatorIn (ops : List String) (cs : Octets) : Option (String × Octets) :=
  ops.findSome? fun op =>
    let size := op.toList.length
    if op.toList.isPrefixOf cs && !clashes op (cs.drop size) then some (op, cs.drop size) else none

def digitValue (c : Char) : Nat :=
  if c.isDigit then c.toNat - 48
  else if 'a' ≤ c ∧ c ≤ 'z' then c.toNat - 87
  else if 'A' ≤ c ∧ c ≤ 'Z' then c.toNat - 55
  else 99

def ofDigits (base : Nat) (cs : Octets) : Option Nat :=
  if cs = [] then none
  else cs.foldlM (fun n c =>
    if digitValue c < base then some (n * base + digitValue c) else none) 0

/-- A number: hexadecimal after `0x`, octal after `0`, else decimal. -/
def ofConstant : Octets → Option Nat
  | '0' :: 'x' :: rest | '0' :: 'X' :: rest => ofDigits 16 rest
  | '0' :: rest => if rest = [] then some 0 else ofDigits 8 rest
  | cs => ofDigits 10 cs

/-- The same with a sign before it and blanks around it, as the value of a variable. -/
def ofValue (text : Octets) : Option Int :=
  let cs := skip text
  let cs := (cs.reverse.dropWhile fun c => Lexer.isBlank c || c = '\n').reverse
  match cs with
  | [] => some 0
  | '-' :: rest => (ofConstant rest).map fun n => wrap (-n)
  | '+' :: rest => (ofConstant rest).map fun n => wrap n
  | cs => (ofConstant cs).map fun n => wrap n

def assignments : List String := ["=", "+=", "-=", "*=", "/=", "%=", "<<=", ">>=", "&=", "^=", "|="]

/-- An operator that sets a variable; the plain one must not be half of a comparison. -/
def assignment? (cs : Octets) : Option (Option String × Octets) :=
  assignments.findSome? fun op =>
    let rest := cs.drop op.toList.length
    if op.toList.isPrefixOf cs && !(op = "=" && rest.head? = some '=') then
      some (if op = "=" then none else some (String.ofList op.toList.dropLast), rest)
    else none

mutual
/-- An operand and the operators of one level that follow it. -/
def readLevel : Nat → List (List String) → Octets → Option (Expr × Octets)
  | 0, _, _ => none
  | fuel + 1, [], cs => readUnary fuel (skip cs)
  | fuel + 1, ops :: tighter, cs => do
    let (left, cs) ← readLevel fuel tighter cs
    readMore fuel ops tighter left (skip cs)

def readMore :
    Nat → List String → List (List String) → Expr → Octets → Option (Expr × Octets)
  | 0, _, _, _, _ => none
  | fuel + 1, ops, tighter, left, cs =>
    match operatorIn ops cs with
    | none => some (left, cs)
    | some (op, cs) => do
      let (right, cs) ← readLevel fuel tighter cs
      readMore fuel ops tighter (.binary op left right) (skip cs)

def readUnary : Nat → Octets → Option (Expr × Octets)
  | 0, _ => none
  | fuel + 1, cs =>
    match cs with
    | '(' :: rest => do
      let (inside, rest) ← readExpr fuel rest
      match skip rest with
      | ')' :: rest => return (inside, rest)
      | _ => none
    | c :: rest =>
      if c = '-' ∨ c = '+' ∨ c = '!' ∨ c = '~' then do
        let (operand, rest) ← readUnary fuel (skip rest)
        return (.unary c operand, rest)
      else if c.isDigit then do
        let n ← ofConstant (cs.takeWhile Lexer.isNameChar)
        return (.number (wrap n), cs.dropWhile Lexer.isNameChar)
      else if Lexer.isNameStart c then
        some (.named (cs.takeWhile Lexer.isNameChar), cs.dropWhile Lexer.isNameChar)
      else none
    | [] => none

def readExpr : Nat → Octets → Option (Expr × Octets)
  | 0, _ => none
  | fuel + 1, cs =>
    let cs := skip cs
    let name := cs.takeWhile Lexer.isNameChar
    match name.head?.any Lexer.isNameStart, assignment? (skip (cs.drop name.length)) with
    | true, some (op, rest) => do
      let (value, rest) ← readExpr fuel rest
      return (.assign name op value, rest)
    | _, _ => do
      let (condition, rest) ← readLevel fuel levels cs
      match skip rest with
      | '?' :: rest =>
        let (onTrue, rest) ← readExpr fuel rest
        match skip rest with
        | ':' :: rest =>
          let (onFalse, rest) ← readExpr fuel rest
          return (.choose condition onTrue onFalse, rest)
        | _ => none
      | rest => return (condition, rest)
end

def read (text : Octets) : Option Expr :=
  if skip text = [] then some (.number 0)
  else
    match readExpr (20 * text.length + 40) text with
    | some (e, rest) => if skip rest = [] then some e else none
    | none => none

def truth (b : Bool) : Int := if b then 1 else 0

/-- The bits of a number below zero are those of its remainder. -/
def bits (n : Int) : Nat := (n % Nat.pow 2 64).toNat

def apply (op : String) (a b : Int) : Except Failure Int :=
  match op with
  | "+" => .ok (wrap (a + b))
  | "-" => .ok (wrap (a - b))
  | "*" => .ok (wrap (a * b))
  | "/" => if b = 0 then .error .divisionByZero else .ok (wrap (a.tdiv b))
  | "%" => if b = 0 then .error .divisionByZero else .ok (wrap (a.tmod b))
  | "==" => .ok (truth (a = b))
  | "!=" => .ok (truth (a ≠ b))
  | "<" => .ok (truth (a < b))
  | ">" => .ok (truth (b < a))
  | "<=" => .ok (truth (a ≤ b))
  | ">=" => .ok (truth (b ≤ a))
  | "<<" => .ok (wrap (a * Nat.pow 2 (bits b % 64)))
  | ">>" => .ok (wrap (a.fdiv (Nat.pow 2 (bits b % 64))))
  | "&" => .ok (wrap (bits a &&& bits b))
  | "|" => .ok (wrap (bits a ||| bits b))
  | "^" => .ok (wrap (bits a ^^^ bits b))
  | _ => .error .malformed

/-- The variables as an expression sees and changes them. -/
abbrev Variables := Octets → Option Octets

def digitsOf (n : Int) : Octets := (toString n).toList

def set (vars : Variables) (name : Octets) (n : Int) : Variables := fun other =>
  if other = name then some (digitsOf n) else vars other

def numberAt (vars : Variables) (name : Octets) : Except Failure Int :=
  match vars name with
  | none => .ok 0
  | some text =>
    match ofValue text with
    | some n => .ok n
    | none => .error (.notNumber text)

/-- The value of an expression, and the variables that it has set, the last one first. -/
def eval : Expr → Variables → List (Octets × Int) →
    Except Failure (Int × Variables × List (Octets × Int))
  | .number n, vars, changes => .ok (n, vars, changes)
  | .named name, vars, changes => do return (← numberAt vars name, vars, changes)
  | .unary op operand, vars, changes => do
    let (n, vars, changes) ← eval operand vars changes
    return (if op = '-' then wrap (-n) else if op = '!' then truth (n = 0)
      else if op = '~' then wrap (-n - 1) else n, vars, changes)
  | .binary "&&" left right, vars, changes => do
    let (a, vars, changes) ← eval left vars changes
    if a = 0 then return (0, vars, changes)
    let (b, vars, changes) ← eval right vars changes
    return (truth (b ≠ 0), vars, changes)
  | .binary "||" left right, vars, changes => do
    let (a, vars, changes) ← eval left vars changes
    if a ≠ 0 then return (1, vars, changes)
    let (b, vars, changes) ← eval right vars changes
    return (truth (b ≠ 0), vars, changes)
  | .binary op left right, vars, changes => do
    let (a, vars, changes) ← eval left vars changes
    let (b, vars, changes) ← eval right vars changes
    return (← apply op a b, vars, changes)
  | .choose condition onTrue onFalse, vars, changes => do
    let (a, vars, changes) ← eval condition vars changes
    if a ≠ 0 then eval onTrue vars changes else eval onFalse vars changes
  | .assign name op value, vars, changes => do
    let (b, vars, changes) ← eval value vars changes
    let n ← match op with
      | none => pure b
      | some op => apply op (← numberAt vars name) b
    return (n, set vars name n, (name, n) :: changes)

end Arithmetic

end LayerPack.Shell
