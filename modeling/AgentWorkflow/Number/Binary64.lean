/-!
Binary floating point numbers of 64 bits, as exact values.

A finite number is a signed multiple of a power of two. `nearest` rounds a quotient of natural
numbers to the closest such number, and every operation is that rounding of an exact result.
-/

namespace AgentWorkflow

/-- A floating point number: `±mantissa · 2 ^ exponent`, an infinity, or no number. -/
inductive Binary64 where
  | finite (negative : Bool) (mantissa : Nat) (exponent : Int)
  | infinite (negative : Bool)
  | nan
  deriving DecidableEq, Repr

namespace Binary64

def minExponent : Int := -1074

def maxExponent : Int := 971

def zero (negative : Bool) : Binary64 :=
  .finite negative 0 minExponent

/-- The nearest integer to a quotient; a tie goes to the even one. -/
def divEven (a b : Nat) : Nat :=
  let q := a / b
  let twice := 2 * (a % b)
  if twice < b then q else if b < twice then q + 1 else q + q % 2

/-- `a · 2 ^ e` over `b`, as a numerator and a denominator. -/
def scaled (a b : Nat) (e : Int) : Nat × Nat :=
  if 0 ≤ e then (a * Nat.pow 2 e.toNat, b) else (a, b * Nat.pow 2 (-e).toNat)

/-- The exponent of the greatest power of two not above a positive quotient. -/
def floorLog (num den : Nat) : Int :=
  let k : Int := (num.log2 : Int) - den.log2
  let (a, b) := scaled num den (-k)
  if b ≤ a then k else k - 1

/-- The floating point number nearest to a quotient; a tie goes to the even mantissa, and a value
that rounds beyond the greatest finite number is infinite. -/
def nearest (negative : Bool) (num den : Nat) : Binary64 :=
  if num = 0 then zero negative
  else
    let e := max minExponent (floorLog num den - 52)
    let (a, b) := scaled num den (-e)
    let m := divEven a b
    let (m, e) := if m = Nat.pow 2 53 then (Nat.pow 2 52, e + 1) else (m, e)
    if maxExponent < e then .infinite negative else .finite negative m e

def ofNat (n : Nat) : Binary64 :=
  nearest false n 1

def ofNegNat (n : Nat) : Binary64 :=
  nearest true n 1

def isFinite : Binary64 → Bool
  | .finite .. => true
  | _ => false

def isZero : Binary64 → Bool
  | .finite _ m _ => m == 0
  | _ => false

def negate : Binary64 → Binary64
  | .finite s m e => .finite (!s) m e
  | .infinite s => .infinite (!s)
  | .nan => .nan

/-- The product of two finite numbers, rounded. -/
def mul : Binary64 → Binary64 → Binary64
  | .finite s m e, .finite t n f =>
    let (a, b) := scaled (m * n) 1 (e + f)
    nearest (s != t) a b
  | _, _ => .nan

/-- The quotient of two finite numbers, rounded; the divisor is no zero. -/
def div : Binary64 → Binary64 → Binary64
  | .finite s m e, .finite t n f =>
    let (a, b) := scaled m n (e - f)
    nearest (s != t) a b
  | _, _ => .nan

/-- The number nearest to `digits · 10 ^ exponent`. Beyond four hundred places on either side the
result is infinite or zero whatever the digits are. -/
def ofDecimal (negative : Bool) (digits : Nat) (exponent : Int) : Binary64 :=
  let magnitude := exponent + (Nat.toDigits 10 digits).length
  if digits = 0 then zero negative
  else if 400 < magnitude then .infinite negative
  else if magnitude < -400 then zero negative
  else if 0 ≤ exponent then nearest negative (digits * Nat.pow 10 exponent.toNat) 1
  else nearest negative digits (Nat.pow 10 (-exponent).toNat)

def powerOfTen (k : Nat) : Binary64 :=
  ofDecimal false 1 k

end Binary64

end AgentWorkflow
