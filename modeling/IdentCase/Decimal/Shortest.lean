/-! Decimal texts of floats: the fewest digits that read back, and of those the nearest. -/
namespace IdentCase.Decimal

/-- The magnitude `mantissa * 2 ^ exponent`. The gap below it is half the gap above if `narrow`. -/
structure Magnitude where
  mantissa : Nat
  exponent : Int
  narrow : Bool

structure Digits where
  digits : Nat
  scale : Int

def isNegative (f : Float) : Bool := f.toBits >>> 63 == 1

def magnitude (f : Float) : Magnitude :=
  let bits := f.toBits.toNat % Nat.pow 2 63
  let fraction : Nat := bits % Nat.pow 2 52
  let biased : Nat := bits / Nat.pow 2 52
  if biased = 0 then ⟨fraction, -1074, false⟩
  else ⟨fraction + Nat.pow 2 52, (biased : Int) - 1075, fraction = 0 && biased > 1⟩

/-- The number `2 ^ exponent` or `10 ^ exponent` as a fraction. -/
def power (base : Nat) (exponent : Int) : Nat × Nat :=
  (base.pow exponent.toNat, base.pow (-exponent).toNat)

namespace Magnitude

/-- The magnitude in quarters of its unit, and the ends of the interval that rounds to it. -/
def ends (m : Magnitude) : Nat × Nat × Nat :=
  let v := 4 * m.mantissa
  (if m.narrow then v - 1 else v - 2, v, v + 2)

/-- Whether a decimal number rounds to the magnitude; the ends do if the mantissa is even. -/
def holds (m : Magnitude) (d : Digits) : Bool :=
  let (lo, _, hi) := m.ends
  let (num, den) := power 2 (m.exponent - 2)
  let (up, down) := power 10 d.scale
  let x := d.digits * up * den
  if m.mantissa % 2 = 0 then lo * num * down ≤ x && x ≤ hi * num * down
  else lo * num * down < x && x < hi * num * down

/-- The greatest multiple of `10 ^ scale` up to the magnitude, and its distance to half way on. -/
def below (m : Magnitude) (scale : Int) : Nat × Ordering :=
  let (num, den) := power 2 m.exponent
  let (up, down) := power 10 scale
  let top := m.mantissa * num * down
  let bottom := den * up
  (top / bottom, compare (2 * (top % bottom)) bottom)

/-- The number `e` with the magnitude from `10 ^ (e - 1)` up to `10 ^ e`. -/
def size (m : Magnitude) : Int :=
  let (num, den) := power 2 m.exponent
  let whole := m.mantissa * num / den
  if 0 < whole then (Nat.toDigits 10 whole).length
  else
    let inverse := (den - 1) / (m.mantissa * num)
    1 - ((Nat.toDigits 10 inverse).length : Int)

/-- The nearest decimal number with `n` digits that rounds to the magnitude; of two, the even. -/
def withDigits? (m : Magnitude) (n : Nat) : Option Digits :=
  let scale := m.size - n
  let (low, half) := m.below scale
  let down : Digits := ⟨low, scale⟩
  let up : Digits := ⟨low + 1, scale⟩
  match m.holds down, m.holds up with
  | true, true =>
    match half with
    | .lt => some down
    | .gt => some up
    | .eq => some (if low % 2 = 0 then down else up)
  | true, false => some down
  | false, true => some up
  | false, false => none

def shortest (m : Magnitude) : Digits :=
  ((List.range 17).findSome? fun n => m.withDigits? (n + 1)).getD ⟨m.mantissa, 0⟩

end Magnitude

structure Layout where
  /-- Numbers below `10 ^ (leastSize - 1)` are written with an exponent. -/
  leastSize : Int
  /-- So are numbers from `10 ^ mostSize` on. -/
  mostSize : Int
  /-- The least count of digits of an exponent. -/
  exponentDigits : Nat
  nan : String
  infinity : String

/-- The digits of a number without the zeros at its end. -/
def significant (n : Nat) : List Char :=
  ((Nat.toDigits 10 n).reverse.dropWhile (· == '0')).reverse

def padded (width : Nat) (digits : List Char) : List Char :=
  List.replicate (width - digits.length) '0' ++ digits

/-- Digits with the point after the first `size` places, where `size` may lie outside them. -/
def positional (digits : List Char) (size : Int) : List Char :=
  if size ≤ 0 then '0' :: '.' :: (List.replicate (-size).toNat '0' ++ digits)
  else
    let n := size.toNat
    if digits.length ≤ n then digits ++ List.replicate (n - digits.length) '0' ++ ['.', '0']
    else digits.take n ++ '.' :: digits.drop n

def scientific (l : Layout) (digits : List Char) (exponent : Int) : List Char :=
  let fraction := digits.drop 1
  digits.take 1 ++ (if fraction.isEmpty then [] else '.' :: fraction) ++ 'e' ::
    (if exponent < 0 then '-' else '+') ::
      padded l.exponentDigits (Nat.toDigits 10 exponent.natAbs)

def render (l : Layout) (f : Float) : String :=
  if f.isNaN then l.nan
  else
    let sign := if isNegative f then "-" else ""
    if f.isInf then sign ++ l.infinity
    else
      let m := magnitude f
      if m.mantissa = 0 then sign ++ "0.0"
      else
        let d := m.shortest
        let size := (Nat.toDigits 10 d.digits).length + d.scale
        let digits := significant d.digits
        sign ++ .ofList (
          if l.leastSize ≤ size && size ≤ l.mostSize then positional digits size
          else scientific l digits (size - 1))

end IdentCase.Decimal
