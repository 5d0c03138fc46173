/-
# TOML texts

Basic texts have escapes, literal ones have none; either may run over several
lines between three quotes. A control character other than a tab is never part
of a text, and line ends count as one character however they are written.

Key definitions: `basicText`, `literalText`, `longBasicText`, `longLiteralText`.
-/
import Brokerage.Digit

namespace Brokerage
namespace Toml

/-- What was read and the characters after it. -/
abbrev Rest (β : Type) := β × List Char

def isBlank (c : Char) : Bool :=
  c == ' ' || c == '\t'

def skipBlank (cs : List Char) : List Char :=
  cs.dropWhile isBlank

/-- A tab, or any character but the control characters. -/
def isPlain (c : Char) : Bool :=
  c == '\t' || (' ' ≤ c && c != '\x7f')

def lineEnd? : List Char → Option (List Char)
  | '\n' :: cs => some cs
  | '\r' :: '\n' :: cs => some cs
  | _ => none

/-- The character that `count` hexadecimal digits name. -/
def numbered (count : Nat) (cs : List Char) : Option (Rest Char) :=
  if cs.length < count then none
  else do
    let n ← spelled? 16 (cs.take count)
    let c ← scalar? n
    return (c, cs.drop count)

/-- What stands after a backslash. -/
def escapeSequence : List Char → Option (Rest Char)
  | 'b' :: cs => some ('\x08', cs)
  | 't' :: cs => some ('\t', cs)
  | 'n' :: cs => some ('\n', cs)
  | 'f' :: cs => some ('\x0c', cs)
  | 'r' :: cs => some ('\r', cs)
  | '"' :: cs => some ('"', cs)
  | '\\' :: cs => some ('\\', cs)
  | 'u' :: cs => numbered 4 cs
  | 'U' :: cs => numbered 8 cs
  | _ => none

/-- Blanks and line ends after a backslash at the end of a line. -/
def skipLines : Nat → List Char → List Char
  | 0, cs => cs
  | fuel + 1, cs =>
    match lineEnd? (skipBlank cs) with
    | some rest => skipLines fuel rest
    | none => skipBlank cs

/-- A backslash at the end of a line joins the next text to it. -/
def lineJoin? (cs : List Char) : Option (List Char) :=
  (lineEnd? (skipBlank cs)).map fun rest => skipLines rest.length rest

/-- The rest of a basic text, after its opening quote. -/
def basicText : Nat → List Char → Option (Rest (List Char))
  | 0, _ => none
  | fuel + 1, cs =>
    match cs with
    | [] => none
    | '"' :: cs => some ([], cs)
    | '\\' :: cs => do
      let (c, cs) ← escapeSequence cs
      let (text, rest) ← basicText fuel cs
      return (c :: text, rest)
    | c :: cs =>
      if isPlain c then (basicText fuel cs).map fun (text, rest) => (c :: text, rest) else none

/-- The rest of a literal text, after its opening quote. -/
def literalText : List Char → Option (Rest (List Char))
  | [] => none
  | '\'' :: cs => some ([], cs)
  | c :: cs =>
    if isPlain c then (literalText cs).map fun (text, rest) => (c :: text, rest) else none

/-- A run of quotes ends a long text when there are three or more; up to two of
them still belong to it. -/
def closing (quote : Char) (cs : List Char) : Option (Option (Rest (List Char))) :=
  let run := (cs.takeWhile (· == quote)).length
  if run < 3 then none
  else if run ≤ 5 then some (some (List.replicate (run - 3) quote, cs.drop run))
  else some none

/-- The rest of a long basic text. -/
def longBasicText : Nat → List Char → Option (Rest (List Char))
  | 0, _ => none
  | fuel + 1, cs =>
    match closing '"' cs with
    | some ended => ended
    | none =>
      match cs with
      | [] => none
      | '\\' :: cs =>
        match lineJoin? cs with
        | some cs => longBasicText fuel cs
        | none => do
          let (c, cs) ← escapeSequence cs
          let (text, rest) ← longBasicText fuel cs
          return (c :: text, rest)
      | c :: after =>
        match lineEnd? cs with
        | some cs => (longBasicText fuel cs).map fun (text, rest) => ('\n' :: text, rest)
        | none =>
          if isPlain c then (longBasicText fuel after).map fun (text, rest) => (c :: text, rest)
          else none

/-- The rest of a long literal text. -/
def longLiteralText : Nat → List Char → Option (Rest (List Char))
  | 0, _ => none
  | fuel + 1, cs =>
    match closing '\'' cs with
    | some ended => ended
    | none =>
      match cs with
      | [] => none
      | c :: after =>
        match lineEnd? cs with
        | some cs => (longLiteralText fuel cs).map fun (text, rest) => ('\n' :: text, rest)
        | none =>
          if isPlain c then (longLiteralText fuel after).map fun (text, rest) => (c :: text, rest)
          else none

/-- A line end right after the opening quotes is not part of a long text. -/
def dropFirstLineEnd (cs : List Char) : List Char :=
  (lineEnd? cs).getD cs

/-- A text of any of the four kinds. -/
def anyText (cs : List Char) : Option (Rest String) :=
  let read := match cs with
    | '"' :: '"' :: '"' :: cs => longBasicText (cs.length + 1) (dropFirstLineEnd cs)
    | '"' :: cs => basicText (cs.length + 1) cs
    | '\'' :: '\'' :: '\'' :: cs => longLiteralText (cs.length + 1) (dropFirstLineEnd cs)
    | '\'' :: cs => literalText cs
    | _ => none
  read.map fun (text, rest) => (String.ofList text, rest)

end Toml
end Brokerage
