/-
# Scanning the words of a TOML document

A scanner takes what it knows off the front of a text and gives the rest back,
or refuses. This module has the scanners of blanks, comments and ends of lines,
of strings, of numbers and of moments.
-/
import Inversion.Decimal.Numeral
import Inversion.Toml.Value

namespace Inversion
namespace Toml

abbrev Scanner (α : Type) : Type :=
  List Char → Option (α × List Char)

/-! ### Blanks, comments and ends of lines -/

def isSpace (c : Char) : Bool :=
  c = ' ' || c = '\t'

def skipSpaces (cs : List Char) : List Char :=
  cs.dropWhile isSpace

/-- A character that may stand in a comment or, the quotes aside, in a string:
no control character but the tabulator. -/
def isPlain (c : Char) : Bool :=
  c = '\t' || (' ' ≤ c && c ≠ '\x7f')

def newline? : List Char → Option (List Char)
  | '\n' :: cs => some cs
  | '\r' :: '\n' :: cs => some cs
  | _ => none

def skipComment : List Char → List Char
  | '#' :: cs => cs.dropWhile isPlain
  | cs => cs

/-- What may stand behind an expression on its line: spaces, a comment and the
end of the line or of the text. -/
def lineEnd? (cs : List Char) : Option (List Char) :=
  match skipComment (skipSpaces cs) with
  | [] => some []
  | rest => newline? rest

/-- Skips spaces and ends of lines. -/
def skipBlankLines : List Char → List Char
  | [] => []
  | '\n' :: cs => skipBlankLines cs
  | '\r' :: '\n' :: cs => skipBlankLines cs
  | c :: cs => if isSpace c then skipBlankLines cs else c :: cs

/-- Skips spaces, ends of lines and comments that end with their line, at most
`n` of them. -/
def skipTrivia : Nat → List Char → Option (List Char)
  | 0, cs => some cs
  | n + 1, cs =>
    match skipBlankLines cs with
    | '#' :: rest =>
      match newline? (rest.dropWhile isPlain) with
      | some rest => skipTrivia n rest
      | none => none
    | rest => some rest

/-! ### Strings -/

def hexValue? (c : Char) : Option Nat :=
  if '0' ≤ c ∧ c ≤ '9' then some (c.toNat - 0x30)
  else if 'a' ≤ c ∧ c ≤ 'f' then some (c.toNat - 0x57)
  else if 'A' ≤ c ∧ c ≤ 'F' then some (c.toNat - 0x37)
  else none

/-- The number of exactly `width` hexadecimal digits. -/
def hexNumber? : Nat → Nat → Scanner Nat
  | 0, n, cs => some (n, cs)
  | width + 1, n, c :: cs => (hexValue? c).bind fun d => hexNumber? width (16 * n + d) cs
  | _ + 1, _, [] => none

/-- The character of a code point that may stand in a text. -/
def scalarChar? (n : Nat) : Option Char :=
  if h : n.isValidChar then some (Char.ofNatAux n h) else none

/-- The character of an escape, behind its backslash. -/
def escape? : Scanner Char
  | 'b' :: cs => some ('\x08', cs)
  | 'f' :: cs => some ('\x0c', cs)
  | 'n' :: cs => some ('\n', cs)
  | 'r' :: cs => some ('\r', cs)
  | 't' :: cs => some ('\t', cs)
  | '"' :: cs => some ('"', cs)
  | '\\' :: cs => some ('\\', cs)
  | 'u' :: cs => (hexNumber? 4 0 cs).bind fun (n, rest) => (scalarChar? n).map (·, rest)
  | 'U' :: cs => (hexNumber? 8 0 cs).bind fun (n, rest) => (scalarChar? n).map (·, rest)
  | _ => none

/-- The text up to the closing double quote, behind the opening one. Each step
takes at least one character, so the length of the text is enough for `n`. -/
def basicBody : Nat → Scanner (List Char)
  | 0, _ => none
  | _ + 1, [] => none
  | _ + 1, '"' :: cs => some ([], cs)
  | n + 1, '\\' :: cs =>
    (escape? cs).bind fun (c, rest) => (basicBody n rest).map fun (s, rest) => (c :: s, rest)
  | n + 1, c :: cs =>
    if isPlain c then (basicBody n cs).map fun (s, rest) => (c :: s, rest) else none

/-- The text up to the closing single quote, behind the opening one. -/
def literalBody : Scanner (List Char)
  | [] => none
  | c :: cs =>
    if c = '\'' then some ([], cs)
    else if isPlain c then (literalBody cs).map fun (s, rest) => (c :: s, rest)
    else none

/-- The end of a string between three quotes: a run of three to five, the first
two of five being part of the text. -/
def closing? (quote : Char) (cs : List Char) : Option (List Char × List Char) :=
  let run := (cs.takeWhile (· = quote)).length
  if run < 3 then none
  else
    let extra := min (run - 3) 2
    some (List.replicate extra quote, cs.drop (extra + 3))

/-- The text of a string between three double quotes. An end of a line is a line
feed, and a backslash at the end of a line takes away the blanks up to the next
character that is none. -/
def longBasicBody : Nat → Scanner (List Char)
  | 0, _ => none
  | n + 1, cs =>
    match closing? '"' cs with
    | some closed => some closed
    | none =>
      match cs with
      | [] => none
      | '\\' :: rest =>
        match newline? (skipSpaces rest) with
        | some rest => longBasicBody n (skipBlankLines rest)
        | none =>
          (escape? rest).bind fun (c, rest) =>
            (longBasicBody n rest).map fun (s, rest) => (c :: s, rest)
      | c :: rest =>
        match newline? cs with
        | some rest => (longBasicBody n rest).map fun (s, rest) => ('\n' :: s, rest)
        | none =>
          if isPlain c then (longBasicBody n rest).map fun (s, rest) => (c :: s, rest) else none

/-- The text of a string between three single quotes. -/
def longLiteralBody : Nat → Scanner (List Char)
  | 0, _ => none
  | n + 1, cs =>
    match closing? '\'' cs with
    | some closed => some closed
    | none =>
      match newline? cs, cs with
      | some rest, _ => (longLiteralBody n rest).map fun (s, rest) => ('\n' :: s, rest)
      | none, c :: rest =>
        if isPlain c then (longLiteralBody n rest).map fun (s, rest) => (c :: s, rest) else none
      | none, [] => none

/-- A string of one line. -/
def shortString : Scanner String
  | '"' :: cs => (basicBody (cs.length + 1) cs).map fun (s, rest) => (String.ofList s, rest)
  | '\'' :: cs => (literalBody cs).map fun (s, rest) => (String.ofList s, rest)
  | _ => none

/-- A string of any of the four kinds. A first end of line behind three quotes
does not count. -/
def string : Scanner String
  | '"' :: '"' :: '"' :: cs =>
    let body := (newline? cs).getD cs
    (longBasicBody (body.length + 1) body).map fun (s, rest) => (String.ofList s, rest)
  | '\'' :: '\'' :: '\'' :: cs =>
    let body := (newline? cs).getD cs
    (longLiteralBody (body.length + 1) body).map fun (s, rest) => (String.ofList s, rest)
  | cs => shortString cs

/-! ### Numbers -/

/-- Digits with single underscores between them, without the underscores. -/
def digitRun (isDigit : Char → Bool) : Scanner (List Char)
  | [] => none
  | c :: cs =>
    if isDigit c then
      match cs with
      | '_' :: rest => (digitRun isDigit rest).map fun (ds, rest) => (c :: ds, rest)
      | d :: rest =>
        if isDigit d then (digitRun isDigit (d :: rest)).map fun (ds, rest) => (c :: ds, rest)
        else some ([c], d :: rest)
      | [] => some ([c], [])
    else none

/-- A whole number's digits: a zero stands alone. -/
def wholeDigits : Scanner (List Char)
  | '0' :: cs => some (['0'], cs)
  | cs => digitRun Numeral.isDigit cs

def radixDigits (radix : Nat) (cs : List Char) : Option (Nat × List Char) :=
  let value (c : Char) : Nat := (hexValue? c).getD radix
  (digitRun (value · < radix) cs).map fun (ds, rest) =>
    (ds.foldl (fun n d => radix * n + value d) 0, rest)

/-- A whole number of 64 bits, in decimal with an optional sign, or without one
in base sixteen, eight or two behind its mark. -/
def integer (cs : List Char) : Option (Int × List Char) :=
  let unsigned (radix : Nat) (cs : List Char) : Option (Int × List Char) :=
    (radixDigits radix cs).bind fun (n, rest) =>
      if n < Nat.pow 2 63 then some ((n : Int), rest) else none
  match cs with
  | '0' :: 'x' :: rest => unsigned 16 rest
  | '0' :: 'o' :: rest => unsigned 8 rest
  | '0' :: 'b' :: rest => unsigned 2 rest
  | _ =>
    let (negative, rest) := Numeral.signed cs
    (wholeDigits rest).bind fun (ds, rest) =>
      let n := Numeral.ofDigits ds
      if negative then (if n ≤ Nat.pow 2 63 then some (-(n : Int), rest) else none)
      else if n < Nat.pow 2 63 then some ((n : Int), rest) else none

/-- The digits behind a point, none where there is no point. -/
def fraction? : Scanner (List Char)
  | '.' :: cs => digitRun Numeral.isDigit cs
  | cs => some ([], cs)

/-- An exponent, none where there is no letter for it. -/
def exponent? : Scanner (Option Int)
  | c :: cs =>
    if c = 'e' ∨ c = 'E' then
      let (negative, digits) := Numeral.signed cs
      (digitRun Numeral.isDigit digits).map fun (ds, rest) =>
        let n : Int := Numeral.ofDigits ds
        (some (if negative then -n else n), rest)
    else some (none, c :: cs)
  | [] => some (none, [])

/-- A number with a fraction, an exponent or both, or one of the words for
infinity and for what is not a number. A positive number too great for a finite
one is refused. -/
def real (cs : List Char) : Option (Double × List Char) :=
  let (negative, body) := Numeral.signed cs
  match body with
  | 'i' :: 'n' :: 'f' :: rest => some (.infinite negative, rest)
  | 'n' :: 'a' :: 'n' :: rest => some (.notANumber negative, rest)
  | _ =>
    (wholeDigits body).bind fun (whole, rest) =>
      (fraction? rest).bind fun (fraction, rest) =>
        (exponent? rest).bind fun (exponent, rest) =>
          if fraction = [] ∧ exponent = none then none
          else
            let d := Numeral.ofDigits (whole ++ fraction)
            let x := Double.nearest negative d (exponent.getD 0 - fraction.length)
            if x = .infinite false then none else some (x, rest)

/-! ### Moments -/

/-- The number of exactly `width` decimal digits. -/
def fixedDigits (width : Nat) (cs : List Char) : Option (Nat × List Char) :=
  (Numeral.natural? (cs.take width)).bind fun n =>
    if (cs.take width).length = width then some (n, cs.drop width) else none

/-- A number of two digits between two bounds. -/
def twoDigits (low high : Nat) (cs : List Char) : Option (Nat × List Char) :=
  (fixedDigits 2 cs).bind fun (n, rest) => if low ≤ n ∧ n ≤ high then some (n, rest) else none

def mark (c : Char) : List Char → Option (List Char)
  | d :: cs => if d = c then some cs else none
  | [] => none

def daysOf (year month : Nat) : Nat :=
  if month = 2 then (if year % 4 = 0 ∧ (year % 100 ≠ 0 ∨ year % 400 = 0) then 29 else 28)
  else if month = 4 ∨ month = 6 ∨ month = 9 ∨ month = 11 then 30
  else 31

def date (cs : List Char) : Option (Date × List Char) := do
  let (year, cs) ← fixedDigits 4 cs
  let cs ← mark '-' cs
  let (month, cs) ← twoDigits 1 12 cs
  let cs ← mark '-' cs
  let (day, cs) ← twoDigits 1 (daysOf year month) cs
  pure (⟨year, month, day⟩, cs)

/-- The fraction of a second in billionths, further digits cut off. -/
def secondFraction : Scanner Nat
  | '.' :: cs =>
    let digits := cs.takeWhile Numeral.isDigit
    if digits = [] then none
    else
      let kept := digits.take 9
      some (Numeral.ofDigits kept * Nat.pow 10 (9 - kept.length), cs.dropWhile Numeral.isDigit)
  | cs => some (0, cs)

def timeOfDay (cs : List Char) : Option (TimeOfDay × List Char) := do
  let (hour, cs) ← twoDigits 0 23 cs
  let cs ← mark ':' cs
  let (minute, cs) ← twoDigits 0 59 cs
  let cs ← mark ':' cs
  let (second, cs) ← twoDigits 0 60 cs
  let (nanosecond, cs) ← secondFraction cs
  pure (⟨hour, minute, second, nanosecond⟩, cs)

/-- An offset from universal time, if one stands here. -/
def offset (cs : List Char) : Option (Option Offset × List Char) :=
  match cs with
  | [] => some (none, [])
  | c :: rest =>
    if c = 'Z' ∨ c = 'z' then some (some .universal, rest)
    else if c = '+' ∨ c = '-' then do
      let (hour, rest) ← twoDigits 0 23 rest
      let rest ← mark ':' rest
      let (minute, rest) ← twoDigits 0 59 rest
      let m : Int := hour * 60 + minute
      pure (some (.minutes (if c = '-' then -m else m)), rest)
    else some (none, cs)

/-- A date, a date and a time with an optional offset, or a time. A time behind a
date follows the letter T or a space; behind a space it may be missing. -/
def moment (cs : List Char) : Option (Moment × List Char) :=
  match date cs with
  | none => (timeOfDay cs).map fun (t, rest) => (⟨none, some t, none⟩, rest)
  | some (d, rest) =>
    let bareDate : Moment × List Char := (⟨some d, none, none⟩, rest)
    match rest with
    | c :: behind =>
      if c = 'T' ∨ c = 't' ∨ c = ' ' then
        match timeOfDay behind with
        | none => some bareDate
        | some (t, rest) => (offset rest).map fun (o, rest) => (⟨some d, some t, o⟩, rest)
      else some bareDate
    | [] => some bareDate

/-- The moment that a whole text stands for, as it would stand in a document. -/
def Moment.ofText? (s : String) : Option Moment :=
  match moment s.toList with
  | some (m, []) => some m
  | _ => none

end Toml
end Inversion
