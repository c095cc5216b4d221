import AgentWorkflow.Json.Value
import AgentWorkflow.Number.Numeral

/-!
Numerals of JSON texts and the numbers they stand for.

The digits before and after the point are gathered into a significand of 64 bits. Digits that do not
fit any more only shift the decimal point, and the significand is then scaled by a power of ten in
floating point arithmetic; so a long numeral may come out next to the nearest number.
-/

namespace AgentWorkflow.Json

/-- A numeral, taken apart: its sign, the digits before and after the point, and the sign and the
digits of the exponent. -/
structure Numeral where
  negative : Bool
  whole : List Char
  places : Option (List Char)
  exponent : Option (Bool × List Char)
  deriving DecidableEq, Repr

namespace Numeral

/-- Gathers digits as long as the number stays below `bound`; gives the number and the digits left. -/
def gather (bound : Nat) : Nat → List Char → Nat × List Char
  | n, [] => (n, [])
  | n, d :: ds =>
    let next := 10 * n + digitValue d
    if next < bound then gather bound next ds else (n, d :: ds)

/-- A significand below `2 ^ 64` scaled by a power of ten; none when the result is too large. Two
divisions by `10 ^ 308` leave nothing of it. -/
def scale (significand : Nat) (exponent : Int) : Option Binary64 :=
  let x := Binary64.ofNat significand
  if 0 ≤ exponent then
    if significand = 0 then some x
    else if 308 < exponent then none
    else
      let y := x.mul (Binary64.powerOfTen exponent.toNat)
      if y.isFinite then some y else none
  else if -308 ≤ exponent then some (x.div (Binary64.powerOfTen (-exponent).toNat))
  else
    let y := x.div (Binary64.powerOfTen 308)
    if -616 ≤ exponent then some (y.div (Binary64.powerOfTen (-exponent - 308).toNat))
    else some (Binary64.zero false)

/-- Gives a number the sign of the numeral. -/
def sign (negative : Bool) (x : Binary64) : Number :=
  .float (if negative then x.negate else x)

/-- The floating point number of a significand, a decimal exponent and the numeral's own exponent. The
error counts the digits of the exponent that come after the one at which it grew too large. -/
def float (numeral : Numeral) (significand : Nat) (exponent : Int) : Except Nat Number :=
  let scaled (e : Int) : Except Nat Number :=
    match scale significand e with
    | some x => .ok (sign numeral.negative x)
    | none => .error 0
  match numeral.exponent with
  | none => scaled exponent
  | some (down, ds) =>
    match gather (Nat.pow 2 31) 0 ds with
    | (e, []) => scaled (if down then exponent - e else exponent + e)
    | (_, rest) =>
      if significand ≠ 0 ∧ ¬down then .error (rest.length - 1)
      else .ok (sign numeral.negative (Binary64.zero false))

/-- The number of a numeral: an integer if it is written as one and fits into 64 bits, a floating
point number otherwise. -/
def value (numeral : Numeral) : Except Nat Number :=
  let (n, dropped) := gather (Nat.pow 2 64) 0 numeral.whole
  match numeral.places with
  | some places =>
    let (n, rest) := gather (Nat.pow 2 64) n places
    numeral.float n (dropped.length - (places.length - rest.length : Nat))
  | none =>
    if numeral.exponent.isSome || !dropped.isEmpty then numeral.float n dropped.length
    else if !numeral.negative then .ok (.natural n)
    else if 0 < n ∧ n ≤ Nat.pow 2 63 then .ok (.negative n)
    else .ok (sign true (Binary64.ofNat n))

end Numeral

end AgentWorkflow.Json
