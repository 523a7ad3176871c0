/-
# Cutting a text at a separator

`beforeFirst` keeps what stands before the first occurrence of a pattern,
`splitLast` splits at the last occurrence of a character, and `pastLastPair`
says where the text behind the last doubled character starts.
-/

namespace Inversion
namespace Text

/-- What stands before the first occurrence of `pattern`, all of the text if
there is none. -/
def beforeFirst (pattern : List Char) : List Char → List Char
  | [] => []
  | c :: cs => if pattern.isPrefixOf (c :: cs) then [] else c :: beforeFirst pattern cs

/-- The texts before and behind the last `sep`. -/
def splitLast (sep : Char) : List Char → Option (List Char × List Char)
  | [] => none
  | c :: cs =>
    match splitLast sep cs with
    | some (before, behind) => some (c :: before, behind)
    | none => if c = sep then some ([], cs) else none

/-- How many characters end with the last place where `c` stands twice in a
row. -/
def pastLastPair (c : Char) : List Char → Option Nat
  | [] => none
  | d :: cs =>
    match pastLastPair c cs with
    | some n => some (n + 1)
    | none => if d = c ∧ cs.head? = some c then some 2 else none

end Text
end Inversion
