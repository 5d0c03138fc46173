/-
# Reading a TOML document

Statements stand on lines of their own, with blanks and a comment around them.
Arrays may run over several lines, tables in braces may not.

Key definitions: `value`, `statement`, `read?`.
-/
import Brokerage.Toml.Number

namespace Brokerage
namespace Toml

/-- Arrays, tables and dotted keys nest less deep than this. -/
def maxNesting : Nat := 80

def skipComment : List Char → List Char
  | '#' :: cs => cs.dropWhile isPlain
  | cs => cs

/-- The end of a statement: blanks, a comment, then a line end or the end of the
document. -/
def statementEnd? (cs : List Char) : Option (List Char) :=
  match skipComment (skipBlank cs) with
  | [] => some []
  | cs => lineEnd? cs

/-- Blanks, comments and line ends, as they stand between the items of an
array. -/
def skipFiller : Nat → List Char → List Char
  | 0, cs => cs
  | fuel + 1, cs =>
    match lineEnd? (skipComment (skipBlank cs)) with
    | some rest => skipFiller fuel rest
    | none => skipComment (skipBlank cs)

def isBare (c : Char) : Bool :=
  c.isAlphanum || c == '_' || c == '-'

/-- A key without dots: bare, or a text on one line. -/
def simpleKey (cs : List Char) : Option (Rest String) :=
  match cs with
  | '"' :: cs => (basicText (cs.length + 1) cs).map fun (key, rest) => (String.ofList key, rest)
  | '\'' :: cs => (literalText cs).map fun (key, rest) => (String.ofList key, rest)
  | cs =>
    let key := cs.takeWhile isBare
    if key.isEmpty then none else some (String.ofList key, cs.dropWhile isBare)

/-- A dotted key: the path to a table and the key in it. -/
def dottedKey : Nat → List Char → Option (Rest (List String × String))
  | 0, _ => none
  | fuel + 1, cs => do
    let (key, cs) ← simpleKey (skipBlank cs)
    match skipBlank cs with
    | '.' :: cs => do
      let ((path, last), rest) ← dottedKey fuel cs
      return ((key :: path, last), rest)
    | rest => return (([], key), rest)

def key (cs : List Char) : Option (Rest (List String × String)) :=
  dottedKey (maxNesting - 1) cs

mutual

/-- A value; `levels` bounds the nesting. -/
def value : Nat → Nat → List Char → Option (Rest Value)
  | 0, _, _ => none
  | fuel + 1, levels, cs =>
    match cs with
    | '"' :: _ | '\'' :: _ => (anyText cs).map fun (s, rest) => (.text s, rest)
    | '[' :: cs =>
      if levels = 0 then none
      else match skipFiller cs.length cs with
        | ']' :: rest => some (.array [], rest)
        | cs => (items fuel (levels - 1) cs).map fun (vs, rest) => (.array vs, rest)
    | '\x7b' :: cs =>
      if levels = 0 then none
      else match skipBlank cs with
        | '\x7d' :: rest => some (.table [], rest)
        | cs => do
          let (entries, rest) ← pairs fuel (levels - 1) cs
          let table ← inlineTable? entries
          return (table, rest)
    | 't' :: 'r' :: 'u' :: 'e' :: cs => some (.bool true, cs)
    | 'f' :: 'a' :: 'l' :: 's' :: 'e' :: cs => some (.bool false, cs)
    | cs => number cs

/-- The items of an array that is not empty, and its end. A comma may follow the
last one. -/
def items : Nat → Nat → List Char → Option (Rest (List Value))
  | 0, _, _ => none
  | fuel + 1, levels, cs => do
    let (v, cs) ← value fuel levels cs
    match skipFiller cs.length cs with
    | ']' :: rest => return ([v], rest)
    | ',' :: cs =>
      match skipFiller cs.length cs with
      | ']' :: rest => return ([v], rest)
      | cs => do
        let (vs, rest) ← items fuel levels cs
        return (v :: vs, rest)
    | _ => none

/-- The entries of a table in braces that is not empty, and its end. -/
def pairs : Nat → Nat → List Char → Option (Rest (List (List String × String × Value)))
  | 0, _, _ => none
  | fuel + 1, levels, cs => do
    let ((path, name), cs) ← key cs
    let cs ← mark '=' cs
    let (v, cs) ← value fuel levels (skipBlank cs)
    match skipBlank cs with
    | '\x7d' :: rest => return ([(path, name, v)], rest)
    | ',' :: cs => do
      let (entries, rest) ← pairs fuel levels cs
      return ((path, name, v) :: entries, rest)
    | _ => none

end

/-- A statement with the end of its line. -/
def statement (cs : List Char) : Option (Rest Statement) :=
  match cs with
  | '[' :: '[' :: cs => do
    let ((path, name), cs) ← key cs
    let cs ← mark ']' cs
    let cs ← mark ']' cs
    let rest ← statementEnd? cs
    return (.seriesHeader path name, rest)
  | '[' :: cs => do
    let ((path, name), cs) ← key cs
    let cs ← mark ']' cs
    let rest ← statementEnd? cs
    return (.header path name, rest)
  | cs => do
    let ((path, name), cs) ← key cs
    let cs ← mark '=' cs
    let (v, cs) ← value (2 * cs.length + 2) (maxNesting - 1) (skipBlank cs)
    let rest ← statementEnd? cs
    return (.value path name v, rest)

/-- The statements of a document; lines without one are passed over. -/
def statements : Nat → List Char → Option (List Statement)
  | 0, _ => none
  | fuel + 1, cs =>
    match skipBlank cs with
    | [] => some []
    | cs =>
      match statementEnd? cs with
      | some rest => statements fuel rest
      | none => do
        let (s, rest) ← statement cs
        (statements fuel rest).map (s :: ·)

/-- The entries of a document. A byte-order mark may come first. -/
def read? (s : String) : Option (List (String × Value)) :=
  let cs := match s.toList with
    | '\ufeff' :: cs => cs
    | cs => cs
  (statements (cs.length + 1) cs).bind document?

end Toml
end Brokerage
