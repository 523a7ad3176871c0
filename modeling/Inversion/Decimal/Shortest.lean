/-
# The shortest decimal of a number

Every decimal inside the interval of a number rounds to it; the ends of the
interval lie half way to the two neighbours and belong to it when the number's
`m` is even. For one digit, two digits and so on, `shortestDigits` tests the two
decimals of that many digits around the number, and takes the first that lies in
the interval, the nearer one of two and the greater of two equally near ones.
Seventeen digits always suffice.

`Double.display` writes those digits positionally, without an exponent and
without a point where there is nothing behind it.
-/
import Inversion.Decimal.Double

namespace Inversion
namespace Double

/-- The ends of the interval of `m * 2 ^ q`, in quarters of `2 ^ q`. The lower
neighbour of a power of two is half as far away. -/
def interval (m : Nat) (q : Int) : Nat × Nat :=
  (if m = Nat.pow 2 52 ∧ -1074 < q then 4 * m - 1 else 4 * m - 2, 4 * m + 2)

/-- The quotient of two scaled numbers as `num / den`: `a * 2 ^ q / 10 ^ k`. -/
def scaled (a : Nat) (q k : Int) : Nat × Nat :=
  (a * Nat.pow 2 q.toNat * Nat.pow 10 (-k).toNat, Nat.pow 2 (-q).toNat * Nat.pow 10 k.toNat)

/-- Whether `c * 10 ^ k` lies in the interval of `m * 2 ^ q`. -/
def covers (m : Nat) (q : Int) (c : Nat) (k : Int) : Bool :=
  let (low, high) := interval m q
  let (lowNum, den) := scaled low (q - 2) k
  let (highNum, _) := scaled high (q - 2) k
  if m % 2 = 0 then lowNum ≤ c * den && c * den ≤ highNum
  else lowNum < c * den && c * den < highNum

/-- The decimal of the grid `10 ^ k` that the number is written by, if one of
the two around it lies in the interval. -/
def onGrid (m : Nat) (q : Int) (k : Int) : Option Nat :=
  let (num, den) := scaled m q k
  let below := num / den
  let nearer := if 2 * (num % den) < den then below else below + 1
  let farther := if 2 * (num % den) < den then below + 1 else below
  if covers m q nearer k && 0 < nearer then some nearer
  else if covers m q farther k && 0 < farther then some farther
  else none

/-- The power of ten of the leading digit of `m * 2 ^ q`. -/
def leadingPlace (m : Nat) (q : Int) : Int :=
  let (num, den) := scaled m q 0
  if den ≤ num then ((Nat.toDigits 10 (num / den)).length : Int) - 1
  else
    let l : Int := (Nat.toDigits 10 (den / num)).length
    if den ≤ num * Nat.pow 10 (l - 1).toNat then 1 - l else -l

/-- The first grid, from coarse to fine, that holds a decimal of the number. -/
def searchGrids (m : Nat) (q : Int) : Nat → Int → Nat × Int
  | 0, k => ((onGrid m q k).getD 0, k)
  | n + 1, k =>
    match onGrid m q k with
    | some c => (c, k)
    | none => searchGrids m q n (k - 1)

/-- The digits of a positive number and the power of ten of the last one. The
search starts one grid above the leading digit, for a number just below a power
of ten may be written by that power. -/
def shortestDigits (m : Nat) (q : Int) : Nat × Int :=
  searchGrids m q 18 (leadingPlace m q + 1)

/-- The decimal `c * 10 ^ k` without an exponent: zeros up to the point, or a
point inside or before the digits. -/
def positional (c : Nat) (k : Int) : List Char :=
  let digits := Nat.toDigits 10 c
  if 0 ≤ k then digits ++ List.replicate k.toNat '0'
  else
    let places := (-k).toNat
    if places < digits.length then
      digits.take (digits.length - places) ++ '.' :: digits.drop (digits.length - places)
    else '0' :: '.' :: (List.replicate (places - digits.length) '0' ++ digits)

/-- The number's text. -/
def display : Double → String
  | notANumber _ => "NaN"
  | infinite s => if s then "-inf" else "inf"
  | finite s m q =>
    let digits := if m = 0 then ['0'] else
      let (c, k) := shortestDigits m q
      positional c k
    String.ofList (if s then '-' :: digits else digits)

end Double
end Inversion
