/-
# The lines of a text

A line ends at a line feed, and a carriage return right before that line feed
belongs to the line's end. A text that stops without a line feed has one more
line, and a text that stops with one has none after it.
-/

namespace Inversion
namespace Text

/-- The lines of a text, without their ends. -/
def lines : List Char → List (List Char)
  | [] => []
  | '\n' :: cs => [] :: lines cs
  | '\r' :: '\n' :: cs => [] :: lines cs
  | c :: cs =>
    match lines cs with
    | [] => [[c]]
    | l :: ls => (c :: l) :: ls

end Text
end Inversion
