import DeclSchema.Binary64
import DeclSchema.Text

/-!
# Shortest decimals

The decimal form of a floating-point number has the fewest digits that read back to the same number,
and among those the digits that are nearest to it. It is positional while the decimal point falls
between four zeros after the point and sixteen digits before it, and has an exponent otherwise.

## Main definitions

* `Binary64.shortest`: digits and power of ten
* `Binary64.decimal`: the decimal form
-/

namespace DeclSchema.Binary64

/-- A positive real number `num / den`, compared as a fraction. -/
structure Ratio where
  num : Nat
  den : Nat

/-- The fraction `n · 2 ^ e`. -/
def Ratio.ofBinary (n : Nat) (e : Int) : Ratio :=
  if 0 ≤ e then ⟨n * Nat.pow 2 e.toNat, 1⟩ else ⟨n, Nat.pow 2 (-e).toNat⟩

/-- The fraction `n · 10 ^ e`. -/
def Ratio.ofDecimal (n : Nat) (e : Int) : Ratio :=
  if 0 ≤ e then ⟨n * Nat.pow 10 e.toNat, 1⟩ else ⟨n, Nat.pow 10 (-e).toNat⟩

def Ratio.lt (a b : Ratio) : Bool :=
  a.num * b.den < b.num * a.den

def Ratio.le (a b : Ratio) : Bool :=
  a.num * b.den ≤ b.num * a.den

def Ratio.distance (a b : Ratio) : Ratio :=
  let x := a.num * b.den
  let y := b.num * a.den
  ⟨if x ≤ y then y - x else x - y, a.den * b.den⟩

/-- Whether a decimal reads back as the number `m · 2 ^ e`: it lies between the middles to the two
neighbours, and on a middle only if the mantissa is even. -/
def readsBack (m : Nat) (e : Int) (d : Ratio) : Bool :=
  let above := Ratio.ofBinary (2 * m + 1) (e - 1)
  -- Below a power of two the neighbours are twice as dense.
  let below :=
    if m == Nat.pow 2 52 && minExponent < e then Ratio.ofBinary (4 * m - 1) (e - 2)
    else Ratio.ofBinary (2 * m - 1) (e - 1)
  if m % 2 == 0 then below.le d && d.le above else below.lt d && d.lt above

/-- The power of ten of the first digit of a positive fraction, looked for downwards from `top`. -/
def leadingPower (x : Ratio) (top : Int) : Nat → Int
  | 0 => top
  | tries + 1 =>
    if (Ratio.ofDecimal 1 top).le x then top else leadingPower x (top - 1) tries

/-- The decimal with its last digit at `10 ^ power` that reads back and is nearest. -/
def nearestOnGrid? (m : Nat) (e power : Int) : Option Nat :=
  let x := Ratio.ofBinary m e
  let scale := Ratio.ofDecimal 1 power
  let low := x.num * scale.den / (x.den * scale.num)
  let hits := [low, low + 1].filter fun d => readsBack m e (Ratio.ofDecimal d power)
  match hits with
  | [a, b] =>
    let da := x.distance (Ratio.ofDecimal a power)
    let db := x.distance (Ratio.ofDecimal b power)
    some (if da.lt db || (da.le db && a % 2 == 0) then a else b)
  | [a] => some a
  | _ => none

/-- Digits and power of ten of the shortest decimal, trying `tries` finer grids from the leading
power of ten down. -/
def shortestFrom (m : Nat) (e power : Int) : Nat → Nat × Int
  | 0 => (m, 0)
  | tries + 1 =>
    match nearestOnGrid? m e power with
    | some d => (d, power)
    | none => shortestFrom m e (power - 1) tries

/-- Digits and power of ten of the shortest decimal of `m · 2 ^ e`. -/
def shortest (m : Nat) (e : Int) : Nat × Int :=
  shortestFrom m e (leadingPower (Ratio.ofBinary m e) 309 634) 18

/-- The digits of a decimal without the zeros at its end, and its power of ten. -/
def trimmed (digits : List Char) (power : Int) : List Char × Int :=
  let kept := digits.reverse.dropWhile (· == '0')
  (kept.reverse, power + Int.ofNat (digits.length - kept.length))

/-- A decimal with `digits`, whose last digit stands at `10 ^ power`. -/
def laidOut (digits : List Char) (power : Int) : List Char :=
  let point := power + Int.ofNat digits.length
  if 0 < point && point ≤ 16 then
    if 0 ≤ power then digits ++ List.replicate power.toNat '0' ++ ['.', '0']
    else digits.take point.toNat ++ '.' :: digits.drop point.toNat
  else if -4 < point && point ≤ 0 then
    ['0', '.'] ++ List.replicate (-point).toNat '0' ++ digits
  else
    let exponent := point - 1
    let places := Nat.toDigits 10 exponent.natAbs
    let places := if places.length < 2 then '0' :: places else places
    let fraction := if digits.length ≤ 1 then [] else '.' :: digits.drop 1
    digits.take 1 ++ fraction ++ ['e', if exponent < 0 then '-' else '+'] ++ places

def decimal : Binary64 → Text
  | finite negative m e =>
    let sign := if negative then ['-'] else []
    if m = 0 then .ofChars (sign ++ ['0', '.', '0'])
    else
      let (digits, power) := shortest m e
      let (digits, power) := trimmed (Nat.toDigits 10 digits) power
      .ofChars (sign ++ laidOut digits power)
  | infinite negative => .ofString (if negative then "-inf" else "inf")
  | undefined => .ofString "nan"

end DeclSchema.Binary64
