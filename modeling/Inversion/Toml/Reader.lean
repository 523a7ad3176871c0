/-
# Reading a TOML document

`Toml.parse` reads a text as the entries of its root table, or refuses it. Keys
may have parts joined by points, fewer than eighty of them, and brackets of arrays
and inline tables may stand inside one another less than eighty deep. The root
table is never a marked one.
-/
import Inversion.Toml.Document
import Inversion.Toml.Marked

namespace Inversion
namespace Toml

/-! ### Keys -/

def isBareKeyChar (c : Char) : Bool :=
  c.isAlphanum || c = '_' || c = '-'

/-- One part of a key: a bare word or a string of one line. -/
def keyPart (cs : List Char) : Option (String × List Char) :=
  match cs with
  | '"' :: _ => shortString cs
  | '\'' :: _ => shortString cs
  | _ =>
    let word := cs.takeWhile isBareKeyChar
    if word = [] then none else some (String.ofList word, cs.dropWhile isBareKeyChar)

/-- The parts of a key with spaces around each, at most `n` of them. -/
def keyParts : Nat → List Char → Option (List String × List Char)
  | 0, _ => none
  | n + 1, cs => do
    let (part, rest) ← keyPart (skipSpaces cs)
    match skipSpaces rest with
    | '.' :: more =>
      let (parts, rest) ← keyParts n more
      pure (part :: parts, rest)
    | rest => pure ([part], rest)

def key (cs : List Char) : Option (List String × List Char) :=
  keyParts 79 cs

/-! ### Values -/

/-- The items of an array behind its bracket, with a reader for the values in
it. Each item takes at least one character, so the length of the text is enough
for `n`. -/
def arrayItems (value : Scanner Value) : Nat → Scanner (List Value)
  | 0, _ => none
  | n + 1, cs => do
    match ← skipTrivia (cs.length + 1) cs with
    | ']' :: rest => pure ([], rest)
    | cs =>
      let (v, rest) ← value cs
      match ← skipTrivia (rest.length + 1) rest with
      | ',' :: rest =>
        let (vs, rest) ← arrayItems value n rest
        pure (v :: vs, rest)
      | ']' :: rest => pure ([v], rest)
      | _ => none

/-- The pairs of an inline table up to its closing bracket, put into `node`. -/
def inlinePairs (value : Scanner Value) : Nat → Node → Scanner Node
  | 0, _, _ => none
  | n + 1, node, cs => do
    let (path, rest) ← key cs
    let rest ← mark '=' rest
    let (v, rest) ← value (skipSpaces rest)
    let name ← path.getLast?
    let node ← node.assign path.dropLast name v
    match skipSpaces rest with
    | ',' :: rest => inlinePairs value n node rest
    | '}' :: rest => pure (node, rest)
    | _ => none

def inlineTable (value : Scanner Value) (cs : List Char) : Option (Value × List Char) :=
  match skipSpaces cs with
  | '}' :: rest => some (.table [], rest)
  | _ => (inlinePairs value (cs.length + 1) Node.opened cs).map fun (node, rest) => (node.value, rest)

/-- A moment, a number with a fraction or exponent, or a whole number; the first
of them that the text starts with. -/
def numeric (cs : List Char) : Option (Value × List Char) :=
  match moment cs with
  | some (m, rest) => some (.scalar (.moment m), rest)
  | none =>
    match real cs with
    | some (x, rest) => some (.scalar (.real x), rest)
    | none => (integer cs).map fun (i, rest) => (.scalar (.integer i), rest)

/-- A value with brackets inside one another up to the given depth. -/
def value : Nat → Scanner Value
  | depth, cs =>
    match cs with
    | '"' :: _ => (string cs).map fun (s, rest) => (.scalar (.text s), rest)
    | '\'' :: _ => (string cs).map fun (s, rest) => (.scalar (.text s), rest)
    | '[' :: rest =>
      match depth with
      | 0 => none
      | depth + 1 =>
        (arrayItems (value depth) (rest.length + 1) rest).map fun (vs, rest) => (.array vs, rest)
    | '{' :: rest =>
      match depth with
      | 0 => none
      | depth + 1 => inlineTable (value depth) rest
    | 't' :: 'r' :: 'u' :: 'e' :: rest => some (.scalar (.flag true), rest)
    | 'f' :: 'a' :: 'l' :: 's' :: 'e' :: rest => some (.scalar (.flag false), rest)
    | _ => numeric cs

/-! ### Documents -/

/-- One expression of a document: a heading, or a key with a value. -/
def expression (d : Document) (cs : List Char) : Option (Document × List Char) := do
  match cs with
  | '[' :: '[' :: rest =>
    let (path, rest) ← key rest
    let rest ← (mark ']' rest).bind (mark ']')
    let d ← d.openElement path
    pure (d, rest)
  | '[' :: rest =>
    let (path, rest) ← key rest
    let rest ← mark ']' rest
    let d ← d.openTable path
    pure (d, rest)
  | _ =>
    let (path, rest) ← key cs
    let rest ← mark '=' rest
    let (v, rest) ← value 79 (skipSpaces rest)
    let name ← path.getLast?
    let d ← d.assign path.dropLast name v
    pure (d, rest)

/-- The lines of a document, each of at least one character, so that the length
of the text is enough for `n`. -/
def expressions : Nat → Document → List Char → Option Document
  | 0, d, cs => if cs = [] then some d else none
  | n + 1, d, cs =>
    match skipSpaces cs with
    | [] => some d
    | cs =>
      if cs.head? = some '#' ∨ (newline? cs).isSome then
        (lineEnd? cs).bind fun rest => expressions n d rest
      else do
        let (d, rest) ← expression d cs
        let rest ← lineEnd? rest
        expressions n d rest

/-- The text without a byte order mark in front. -/
def withoutMark : List Char → List Char
  | '\uFEFF' :: cs => cs
  | cs => cs

/-- The entries of a document's root table in normal form. -/
def parse (text : String) : Option (List (String × Value)) := do
  let cs := withoutMark text.toList
  let d ← expressions (cs.length + 1) Document.start cs
  let root ← d.settle
  match root.value with
  | .table entries => normalEntries? entries
  | _ => none

end Toml
end Inversion
