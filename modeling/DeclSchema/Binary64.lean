/-!
# Binary floating-point numbers

The numbers of the 64-bit binary format, as exact values: a finite one is `± m · 2 ^ e`. A decimal
is rounded to the nearest of them, and a tie goes to the even mantissa.

## Main definitions

* `Binary64`: the numbers of the format
* `Binary64.ofRatio`, `Binary64.ofDecimal`: rounding to the nearest number
* `Binary64.ltInt`, `Binary64.eqInt`: exact comparison with an integer
-/

namespace DeclSchema

/-- A number of the 64-bit binary format. -/
inductive Binary64 where
  /-- The number `± mantissa · 2 ^ exponent`. -/
  | finite (negative : Bool) (mantissa : Nat) (exponent : Int)
  | infinite (negative : Bool)
  /-- The value that is no number. -/
  | undefined
deriving DecidableEq

namespace Binary64

def minExponent : Int := -1074

def maxExponent : Int := 971

/-- The nearest natural number to `num / den`; a half goes to the even neighbour. -/
def roundDiv (num den : Nat) : Nat :=
  let q := num / den
  let r := num % den
  if 2 * r > den || (2 * r == den && q % 2 == 1) then q + 1 else q

/-- The number `num / den · 2 ^ (-e)`, rounded to an integer. -/
def scaled (num den : Nat) (e : Int) : Nat :=
  if 0 ≤ e then roundDiv num (den * Nat.pow 2 e.toNat) else roundDiv (num * Nat.pow 2 (-e).toNat) den

/-- The exponent for which `num / den` has a mantissa of 53 bits, if the format has it. -/
def exponentOf (num den : Nat) : Int :=
  let guess : Int := Int.ofNat (Nat.log2 num) - Int.ofNat (Nat.log2 den) - 52
  let small :=
    if 0 ≤ guess then num < Nat.pow 2 52 * (den * Nat.pow 2 guess.toNat)
    else num * Nat.pow 2 (-guess).toNat < Nat.pow 2 52 * den
  max minExponent (if small then guess - 1 else guess)

/-- The number of the format that is nearest to `± num / den`. -/
def ofRatio (negative : Bool) (num den : Nat) : Binary64 :=
  if num = 0 then finite negative 0 minExponent
  else
    let e := exponentOf num den
    let m := scaled num den e
    -- Rounding up may carry into a fifty-fourth bit.
    let (m, e) := if m = Nat.pow 2 53 then (Nat.pow 2 52, e + 1) else (m, e)
    if maxExponent < e then infinite negative else finite negative m e

/-- The number of the format that is nearest to `± digits · 10 ^ power`. -/
def ofDecimal (negative : Bool) (digits : Nat) (power : Int) : Binary64 :=
  let size : Int := power + Int.ofNat (Nat.toDigits 10 digits).length
  if digits = 0 then finite negative 0 minExponent
  else if 400 < size then infinite negative
  else if size < -400 then finite negative 0 minExponent
  else if 0 ≤ power then ofRatio negative (digits * Nat.pow 10 power.toNat) 1
  else ofRatio negative digits (Nat.pow 10 (-power).toNat)

/-- The signed mantissa of a finite number. -/
def signed (negative : Bool) (mantissa : Nat) : Int :=
  if negative then -Int.ofNat mantissa else Int.ofNat mantissa

def ltInt (x : Binary64) (n : Int) : Bool :=
  match x with
  | finite s m e =>
    if 0 ≤ e then signed s m * Int.pow 2 e.toNat < n else signed s m < n * Int.pow 2 (-e).toNat
  | infinite negative => negative
  | undefined => false

def eqInt (x : Binary64) (n : Int) : Bool :=
  match x with
  | finite s m e =>
    if 0 ≤ e then signed s m * Int.pow 2 e.toNat == n else signed s m == n * Int.pow 2 (-e).toNat
  | infinite _ => false
  | undefined => false

/-- Whether two numbers are the same member of a collection: zero has two signs, and `undefined` is
one value. -/
def equal : Binary64 → Binary64 → Bool
  | finite s m e, finite s' m' e' => m == m' && e == e' && (s == s' || m == 0)
  | infinite s, infinite s' => s == s'
  | undefined, undefined => true
  | _, _ => false

theorem equal_comm (x y : Binary64) : equal x y = equal y x := by
  cases x <;> cases y <;> simp only [equal, Bool.beq_comm]
  case finite.finite s m e s' m' e' => grind

end Binary64

end DeclSchema
