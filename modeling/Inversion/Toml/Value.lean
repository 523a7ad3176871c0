/-
# Values of a TOML document

A table lists its entries in the order of the document and, in normal form, in
the order of their keys. A moment has a date, a time of day or both, and an
offset from universal time only with both; it is written with the letter `T`
between its parts and without the trailing zeros of the fraction.
-/
import Inversion.Decimal.Shortest

namespace Inversion
namespace Toml

structure Date where
  year : Nat
  month : Nat
  day : Nat
  deriving DecidableEq, Repr

structure TimeOfDay where
  hour : Nat
  minute : Nat
  second : Nat
  nanosecond : Nat
  deriving DecidableEq, Repr

inductive Offset where
  | universal
  | minutes (m : Int)
  deriving DecidableEq, Repr

structure Moment where
  date : Option Date
  time : Option TimeOfDay
  offset : Option Offset
  deriving DecidableEq, Repr

inductive Scalar where
  | text (s : String)
  | integer (i : Int)
  | real (x : Double)
  | flag (b : Bool)
  | moment (m : Moment)
  deriving DecidableEq, Repr

inductive Value where
  | scalar (s : Scalar)
  | array (items : List Value)
  | table (entries : List (String × Value))
  deriving Inhabited

/-- Decimal digits, with zeros in front up to the width. -/
def padded (width n : Nat) : List Char :=
  let digits := Nat.toDigits 10 n
  List.replicate (width - digits.length) '0' ++ digits

def Date.display (d : Date) : List Char :=
  padded 4 d.year ++ '-' :: padded 2 d.month ++ '-' :: padded 2 d.day

/-- The fraction of a second, nothing for a whole one. -/
def fractionDisplay (nanosecond : Nat) : List Char :=
  if nanosecond = 0 then []
  else '.' :: ((padded 9 nanosecond).reverse.dropWhile (· = '0')).reverse

def TimeOfDay.display (t : TimeOfDay) : List Char :=
  padded 2 t.hour ++ ':' :: padded 2 t.minute ++ ':' :: padded 2 t.second ++
    fractionDisplay t.nanosecond

def Offset.display : Offset → List Char
  | universal => ['Z']
  | minutes m =>
    (if m < 0 then '-' else '+') :: padded 2 (m.natAbs / 60) ++ ':' :: padded 2 (m.natAbs % 60)

def Moment.display (m : Moment) : String :=
  let date := m.date.elim [] Date.display
  let time := m.time.elim [] TimeOfDay.display
  let mark := if m.date.isSome && m.time.isSome then ['T'] else []
  String.ofList (date ++ mark ++ time ++ m.offset.elim [] Offset.display)

/-- The text that a scalar is kept as. -/
def Scalar.display : Scalar → String
  | text s => s
  | integer i => toString i
  | real x => x.display
  | flag b => if b then "true" else "false"
  | moment m => m.display

end Toml
end Inversion
