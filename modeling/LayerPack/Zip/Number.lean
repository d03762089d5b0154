/-! Numbers of a fixed width in a file, lowest byte first. -/
namespace LayerPack.Zip

/-- The lowest `width` bytes of a number. -/
def numberBytes : Nat → Nat → List UInt8
  | 0, _ => []
  | width + 1, n => n.toUInt8 :: numberBytes width (n / 256)

def numberOf : List UInt8 → Nat
  | [] => 0
  | b :: rest => b.toNat + 256 * numberOf rest

/-- Some bytes of a file, if it has them. -/
def bytesAt? (b : ByteArray) (start width : Nat) : Option ByteArray :=
  if start + width ≤ b.size then some (b.extract start (start + width)) else none

/-- The number at a place in a file. -/
def numberAt? (b : ByteArray) (start width : Nat) : Option Nat :=
  (bytesAt? b start width).map fun part => numberOf part.data.toList

@[simp] theorem length_numberBytes (width n : Nat) : (numberBytes width n).length = width := by
  induction width generalizing n with
  | zero => rfl
  | succ width ih => simp [numberBytes, ih]

theorem numberOf_numberBytes (width n : Nat) :
    numberOf (numberBytes width n) = n % Nat.pow 256 width := by
  induction width generalizing n with
  | zero => simp [numberBytes, numberOf, Nat.mod_one]
  | succ width ih =>
    have power : Nat.pow 256 (width + 1) = 256 * Nat.pow 256 width := Nat.pow_succ'
    rw [numberBytes, numberOf, ih, power, Nat.mod_mul]
    congr 1

end LayerPack.Zip
