/-
# Binary numbers of double precision

A number is a sign with a magnitude `m * 2 ^ q`, where `m` has at most 53 bits
and `q` is at least -1074, or it is infinite, or it is not a number. `nearest`
rounds a decimal `d * 10 ^ e` to the nearest of them, the even `m` where two are
equally near. `bits` is the number's 64 bit pattern. The powers are `Nat.pow`, which
reads the same whatever instances are in scope.
-/

namespace Inversion

inductive Double where
  | finite (negative : Bool) (m : Nat) (q : Int)
  | infinite (negative : Bool)
  | notANumber (negative : Bool)
  deriving DecidableEq, Repr, Inhabited

namespace Double

/-- The quotient rounded to the nearest number, halves to the even one. -/
def roundDiv (num den : Nat) : Nat :=
  let k := num / den
  let twice := 2 * (num % den)
  if twice < den then k
  else if twice = den then (if k % 2 = 0 then k else k + 1)
  else k + 1

/-- The greatest `l` with `2 ^ l ≤ num / den`, for positive `num` and `den`. -/
def log2Quotient (num den : Nat) : Int :=
  let l : Int := (num.log2 : Int) - den.log2
  let reached := if 0 ≤ l then den * Nat.pow 2 l.toNat ≤ num else den ≤ num * Nat.pow 2 (-l).toNat
  if reached then l else l - 1

/-- The number nearest to `num / den`, for positive `num` and `den`. -/
def nearestQuotient (negative : Bool) (num den : Nat) : Double :=
  let q : Int := max (-1074) (log2Quotient num den - 52)
  let m :=
    if 0 ≤ q then roundDiv num (den * Nat.pow 2 q.toNat)
    else roundDiv (num * Nat.pow 2 (-q).toNat) den
  let (m, q) := if m = Nat.pow 2 53 then (Nat.pow 2 52, q + 1) else (m, q)
  if 971 < q then .infinite negative else .finite negative m q

/-- The number nearest to `d * 10 ^ e`. A decimal point far beyond every finite
number, or far below the smallest one, is told by its place alone. -/
def nearest (negative : Bool) (d : Nat) (e : Int) : Double :=
  let places : Int := (Nat.toDigits 10 d).length + e
  if d = 0 then .finite negative 0 (-1074)
  else if 310 < places then .infinite negative
  else if places < -330 then .finite negative 0 (-1074)
  else if 0 ≤ e then nearestQuotient negative (d * Nat.pow 10 e.toNat) 1
  else nearestQuotient negative d (Nat.pow 10 (-e).toNat)

/-- The pattern of 64 bits: the sign, eleven bits of exponent, 52 of fraction. -/
def bits : Double → Nat
  | finite s m q =>
    (if s then Nat.pow 2 63 else 0) +
      if m < Nat.pow 2 52 then m else (q + 1075).toNat * Nat.pow 2 52 + (m - Nat.pow 2 52)
  | infinite s => (if s then Nat.pow 2 63 else 0) + 2047 * Nat.pow 2 52
  | notANumber s => (if s then Nat.pow 2 63 else 0) + 2047 * Nat.pow 2 52 + Nat.pow 2 51

end Double
end Inversion
