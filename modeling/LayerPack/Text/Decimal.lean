/-! Binary fractions of 53 bits and their decimal text. Reading rounds to the nearest such number, a
tie to the even one; writing takes the fewest digits that read back, the nearest of those, and no
exponent. -/
namespace LayerPack.Text

inductive Real53 where
  | notNumber
  | infinite (negative : Bool)
  /-- The number is `mantissa * 2 ^ exponent`. -/
  | finite (negative : Bool) (mantissa : Nat) (exponent : Int)

namespace Real53

/-- A quotient rounded to the nearest whole number, a half to the even one. -/
def roundDiv (num den : Nat) : Nat :=
  let q := num / den
  let r := num % den
  if 2 * r < den then q else if den < 2 * r then q + 1 else q + q % 2

/-- The quotient of `num * 2 ^ up` by `den`, where a negative power goes to the other side. -/
def scaled (num den : Nat) (up : Int) : Nat × Nat :=
  if 0 ≤ up then (num * Nat.pow 2 up.toNat, den) else (num, den * Nat.pow 2 (-up).toNat)

/-- The position of the highest bit of a quotient that is not zero. -/
def topBit (num den : Nat) : Int :=
  let guess : Int := (Nat.log2 num : Int) - (Nat.log2 den : Int)
  let (n, d) := scaled num den (-guess)
  if n < d then guess - 1 else guess

def maxExponent : Int := 971

def minExponent : Int := -1074

/-- The number nearest to a quotient. -/
def ofRatio (negative : Bool) (num den : Nat) : Real53 :=
  if num = 0 then finite negative 0 minExponent
  else
    let e := max minExponent (topBit num den - 52)
    let (n, d) := scaled num den (-e)
    let m := roundDiv n d
    let (m, e) := if m = Nat.pow 2 53 then (Nat.pow 2 52, e + 1) else (m, e)
    if e > maxExponent then infinite negative else finite negative m e

/-- The number nearest to `digits * 10 ^ exponent`. -/
def ofDecimal (negative : Bool) (digits : Nat) (exponent : Int) : Real53 :=
  let size : Int := (Nat.toDigits 10 digits).length
  if digits = 0 ∨ size + exponent < -400 then finite negative 0 minExponent
  else if size + exponent > 400 then infinite negative
  else if 0 ≤ exponent then ofRatio negative (digits * Nat.pow 10 exponent.toNat) 1
  else ofRatio negative digits (Nat.pow 10 (-exponent).toNat)

/-- The quotient of two numbers scaled by a power of ten. -/
def scaledTen (num den : Nat) (up : Int) : Nat × Nat :=
  if 0 ≤ up then (num * Nat.pow 10 up.toNat, den) else (num, den * Nat.pow 10 (-up).toNat)

/-- How many digits a quotient has before its point; not positive if it is below one tenth. -/
def pointAt (num den : Nat) : Nat → Int → Int
  | 0, at_ => at_
  | fuel + 1, at_ =>
    let (n, d) := scaledTen num den (-at_)
    if d ≤ n then pointAt num den fuel (at_ + 1)
    else if 10 * n < d then pointAt num den fuel (at_ - 1)
    else at_

/-- The digits of a positive number and the place of its point. All quantities are in quarters, so
that the ends of the interval that reads back are whole. Of two texts equally near, the greater one
is taken. -/
def shortest (m : Nat) (e : Int) : List Char × Int :=
  let (v, s) := scaled (4 * m) 4 e
  let (half, _) := scaled 2 4 e
  let under := if m = Nat.pow 2 52 ∧ e > minExponent then half / 2 else half
  let low := v - under
  let high := v + half
  let even := m % 2 = 0
  let inside (n d : Nat) : Bool :=
    if even then low * d ≤ n * s && n * s ≤ high * d else low * d < n * s && n * s < high * d
  let point := pointAt v s 700 0
  let candidate (count : Nat) : Option Nat :=
    let (n, d) := scaledTen v s (count - point)
    let below := n / d
    let (gn, gd) := scaledTen 1 1 (point - count)
    let downIn := inside (below * gn) gd && below > 0
    let upIn := inside ((below + 1) * gn) gd
    if downIn && upIn then some (if 2 * (n % d) < d then below else below + 1)
    else if downIn then some below
    else if upIn then some (below + 1)
    else none
  match (List.range 17).findSome? fun i => (candidate (i + 1)).map (i + 1, ·) with
  | some (count, number) =>
    let digits := Nat.toDigits 10 number
    ((digits.reverse.dropWhile (· = '0')).reverse, point + digits.length - count)
  | none => (['0'], 1)

/-- Digits with a point at a place, and with a digit on both sides of it. -/
def positional (digits : List Char) (point : Int) : String :=
  String.ofList <|
    if point ≤ 0 then '0' :: '.' :: List.replicate (-point).toNat '0' ++ digits
    else if digits.length ≤ point.toNat then
      digits ++ List.replicate (point.toNat - digits.length) '0' ++ ['.', '0']
    else digits.take point.toNat ++ '.' :: digits.drop point.toNat

def render : Real53 → String
  | notNumber => "NaN"
  | infinite negative => if negative then "-inf" else "inf"
  | finite negative m e =>
    (if negative then "-" else "") ++
      if m = 0 then "0.0" else let (digits, point) := shortest m e; positional digits point

end Real53

end LayerPack.Text
