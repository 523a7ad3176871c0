/-
# Reading numbers from texts

`integer?` reads a whole number of a bounded range: an optional sign, a minus
only where the range has negative numbers, then decimal digits. `double?` reads
a decimal with an optional fraction and exponent, of which either side of the
point may be empty but not both, or one of the words for infinity and for what is
not a number, in any case of letters.
-/
import Inversion.Decimal.Double

namespace Inversion
namespace Numeral

def digit? (c : Char) : Option Nat :=
  if c.isDigit then some (c.toNat - 0x30) else none

def isDigit (c : Char) : Bool :=
  (digit? c).isSome

/-- The number that decimal digits write. -/
def ofDigits (cs : List Char) : Nat :=
  cs.foldl (fun n c => 10 * n + (digit? c).getD 0) 0

/-- The number of a non-empty text of decimal digits. -/
def natural? (cs : List Char) : Option Nat :=
  if cs ≠ [] ∧ cs.all isDigit then some (ofDigits cs) else none

/-- A sign in front of a text, and the rest. -/
def signed : List Char → Bool × List Char
  | '-' :: cs => (true, cs)
  | '+' :: cs => (false, cs)
  | cs => (false, cs)

/-- The whole number of a text, if it lies between `low` and `high`. -/
def integer? (low high : Int) (s : String) : Option Int :=
  let (negative, cs) := signed s.toList
  match natural? cs with
  | none => none
  | some n =>
    let value : Int := if negative then -n else n
    if (negative ∧ low = 0) ∨ value < low ∨ high < value then none else some value

/-- The decimal in front of a text: the digits on both sides of a point as one
number, the count of digits behind the point, and the rest. -/
def mantissa? (cs : List Char) : Option (Nat × Nat × List Char) :=
  let whole := cs.takeWhile isDigit
  let rest := cs.dropWhile isDigit
  let (fraction, rest) :=
    match rest with
    | '.' :: more => (more.takeWhile isDigit, more.dropWhile isDigit)
    | _ => ([], rest)
  if whole = [] ∧ fraction = [] then none
  else some (ofDigits (whole ++ fraction), fraction.length, rest)

/-- The exponent that a text consists of, zero for an empty text. -/
def exponent? : List Char → Option Int
  | [] => some 0
  | c :: cs =>
    if c = 'e' ∨ c = 'E' then
      let (negative, digits) := signed cs
      (natural? digits).map fun n => if negative then -(n : Int) else n
    else none

def double? (s : String) : Option Double :=
  let (negative, cs) := signed s.toList
  let word := String.ofList (cs.map Char.toLower)
  if word = "inf" ∨ word = "infinity" then some (.infinite negative)
  else if word = "nan" then some (.notANumber negative)
  else
    match mantissa? cs with
    | none => none
    | some (d, places, rest) =>
      (exponent? rest).map fun e => Double.nearest negative d (e - places)

end Numeral
end Inversion
