import AgentWorkflow.Number.Binary64

/-!
The shortest decimal text of a floating point number.

`shortest` finds the fewest digits that still round to the number, and among those the closest. Where
the decimal point stands and how an exponent looks is a `DecimalStyle`.
-/

namespace AgentWorkflow

/-- How digits are laid out as text. -/
structure DecimalStyle where
  /-- The least exponent of the leading digit that is written without exponent. -/
  leastPlain : Int
  /-- The greatest exponent of the leading digit that is written without exponent. -/
  greatestPlain : Int
  /-- Whether an exponent of zero or more carries a plus sign. -/
  plusSign : Bool

namespace Binary64

/-- A quotient reaches a power of ten. -/
def reachesPower (num den : Nat) (p : Int) : Bool :=
  if 0 ≤ p then den * Nat.pow 10 p.toNat ≤ num else den ≤ num * Nat.pow 10 (-p).toNat

/-- The exponent of the leading decimal digit of a positive quotient. -/
def leadingExponent (num den : Nat) : Int :=
  if den ≤ num then ((Nat.toDigits 10 (num / den)).length : Int) - 1
  else
    match (List.range 400).find? fun (j : Nat) => reachesPower num den (-(j : Int)) with
    | some j => -(j : Int)
    | none => -400

/-- The decimal numerals on the grid of `10 ^ k` next to a quotient, below and above. -/
def neighbours (num den : Nat) (k : Int) : Nat × Nat :=
  let q := if 0 ≤ k then num / (den * Nat.pow 10 k.toNat) else num * Nat.pow 10 (-k).toNat / den
  (q, q + 1)

/-- Compares `digits · 10 ^ k` with a quotient. -/
def compareGrid (digits : Nat) (k : Int) (num den : Nat) : Ordering :=
  if 0 ≤ k then compare (digits * Nat.pow 10 k.toNat * den) num
  else compare (digits * den) (num * Nat.pow 10 (-k).toNat)

/-- Drops the zeros at the end of a numeral, raising the power of ten. -/
def dropZeros : Nat → Nat → Int → Nat × Int
  | 0, digits, k => (digits, k)
  | fuel + 1, digits, k =>
    if digits % 10 = 0 then dropZeros fuel (digits / 10) (k + 1) else (digits, k)

/-- The numbers that round to `mantissa · 2 ^ exponent` lie between the first two quotients, over the
third number; the ends belong to them when the mantissa is even. -/
def roundingInterval (mantissa : Nat) (exponent : Int) : Nat × Nat × Nat :=
  let below := if mantissa = Nat.pow 2 52 ∧ minExponent < exponent then 1 else 2
  let (low, den) := scaled (4 * mantissa - below) 1 (exponent - 2)
  let (high, _) := scaled (4 * mantissa + 2) 1 (exponent - 2)
  (low, high, den)

/-- A numeral on the grid of `10 ^ k` that rounds to the number, the closer one of two, the upper one
at a tie. -/
def onGrid? (mantissa : Nat) (exponent : Int) (k : Int) : Option Nat :=
  let (low, high, den) := roundingInterval mantissa exponent
  let (num, den') := scaled mantissa 1 exponent
  let within (digits : Nat) : Bool :=
    let left := compareGrid digits k low den
    let right := compareGrid digits k high den
    (left == .gt && right == .lt) || (mantissa % 2 == 0 && left != .lt && right != .gt)
  let (down, up) := neighbours num den' k
  match within down, within up with
  | false, false => none
  | true, false => some down
  | false, true => some up
  | true, true => some (if compareGrid (down + up) k (2 * num) den' == .gt then down else up)

/-- The digits and the power of ten of the shortest decimal that rounds to
`mantissa · 2 ^ exponent`; seventeen digits always do. -/
def shortest (mantissa : Nat) (exponent : Int) : Nat × Int :=
  let (num, den) := scaled mantissa 1 exponent
  let p := leadingExponent num den
  match (List.range 17).findSome? fun (n : Nat) => (onGrid? mantissa exponent (p - n)).map (·, p - n) with
  | some (digits, k) => dropZeros 20 digits k
  | none => (0, 0)

/-- Digits laid out as text: plainly with at least one digit on either side of the point, or as a
numeral between one and ten with an exponent. -/
def layout (style : DecimalStyle) (digits : Nat) (k : Int) : List Char :=
  let ds := Nat.toDigits 10 digits
  let p := k + ds.length - 1
  if style.leastPlain ≤ p ∧ p ≤ style.greatestPlain then
    if 0 ≤ k then ds ++ List.replicate k.toNat '0' ++ ['.', '0']
    else if 0 ≤ p then ds.take (p.toNat + 1) ++ '.' :: ds.drop (p.toNat + 1)
    else '0' :: '.' :: List.replicate ((-p).toNat - 1) '0' ++ ds
  else
    let tail := match ds.drop 1 with
      | [] => []
      | rest => '.' :: rest
    let sign := if p < 0 then ['-'] else if style.plusSign then ['+'] else []
    ds.take 1 ++ tail ++ 'e' :: sign ++ Nat.toDigits 10 p.natAbs

/-- The shortest text of a number in a style. -/
def text (style : DecimalStyle) : Binary64 → List Char
  | .finite negative mantissa exponent =>
    let sign := if negative then ['-'] else []
    if mantissa = 0 then sign ++ ['0', '.', '0']
    else
      let (digits, k) := shortest mantissa exponent
      sign ++ layout style digits k
  | .infinite negative => (if negative then ['-'] else []) ++ "inf".toList
  | .nan => "NaN".toList

/-- The style of numbers in programs: plain from a ten-thousandth to below `10 ^ 16`. -/
def programStyle : DecimalStyle := ⟨-4, 15, false⟩

/-- The style of numbers in documents and in messages about them. -/
def documentStyle : DecimalStyle := ⟨-5, 15, true⟩

def programText (x : Binary64) : String :=
  .ofList (x.text programStyle)

def documentText (x : Binary64) : String :=
  .ofList (x.text documentStyle)

end Binary64

end AgentWorkflow
