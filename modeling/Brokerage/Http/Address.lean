/-
# Addresses

An address is brought into the form in which it is sent: backslashes become slashes,
the host is named in one way, the port is left out where the scheme implies it, the
names `.` and `..` are followed, and characters that an address cannot hold are
written as the bytes of their UTF-8 form. A text whose host or port is none is no
address.

Key definitions: `Address`, `Address.ofText?`, `Address.target`, `Address.text`,
`Address.isSendable`.
-/
import Brokerage.Http.Host

namespace Brokerage
namespace Http

/-- An address in the form in which it is sent. The port is absent where the scheme
implies it, and `user` is empty or ends in an at sign. -/
structure Address where
  scheme : String
  user : String
  host : Host
  port : Option Nat
  path : String
  query : Option String
  fragment : Option String
  deriving DecidableEq, Repr

def specialInPath : List Char :=
  [' ', '"', '#', '<', '>', '?', '\x60', '\x7b', '\x7d']

def specialInQuery : List Char :=
  [' ', '"', '#', '<', '>', '\'']

def specialInFragment : List Char :=
  [' ', '"', '<', '>', '\x60']

def specialInUser : List Char :=
  specialInPath ++ ['/', ':', ';', '=', '@', '[', '\\', ']', '^', '|']

/-- A name with its dots, where they are written as bytes, made plain. -/
def plainDots : List Char → List Char
  | '%' :: '2' :: 'e' :: cs | '%' :: '2' :: 'E' :: cs => '.' :: plainDots cs
  | c :: cs => c :: plainDots cs
  | [] => []

def isSlash (c : Char) : Bool :=
  c == '/' || c == '\\'

/-- Follows names from the top: `..` leads back and `.` nowhere. At the end of an
address either leaves an empty name. `above` is what was followed, the last name
first. -/
def follow (above : List (List Char)) : List (List Char) → List (List Char)
  | [] => above.reverse
  | name :: names =>
    let dots := plainDots name
    if dots == ['.', '.'] then
      follow (if names.isEmpty then [] :: above.tail else above.tail) names
    else if dots == ['.'] then follow (if names.isEmpty then [] :: above else above) names
    else follow (encodeAll specialInPath name :: above) names

/-- The path of the characters after the host; it always begins with a slash. -/
def pathOf (cs : List Char) : String :=
  let names := match partsBetween isSlash cs with
    | [] :: names => names
    | names => names
  "/" ++ "/".intercalate ((follow [] names).map String.ofList)

/-- Control characters and blanks around an address are no part of it. -/
def trimAddress (cs : List Char) : List Char :=
  let drop (cs : List Char) := cs.dropWhile (· ≤ ' ')
  (drop (drop cs).reverse).reverse

/-- Tabs and line ends are passed over wherever they stand. -/
def isPassedOver (c : Char) : Bool :=
  c == '\t' || c == '\n' || c == '\r'

/-- The scheme, what names the host, and what follows. However many slashes stand
after the scheme, they count as two. -/
def splitHost (cs : List Char) : List Char × List Char × List Char :=
  let scheme := cs.takeWhile (· != ':')
  let rest := ((cs.dropWhile (· != ':')).drop 1).dropWhile isSlash
  let stops (c : Char) : Bool := isSlash c || c == '?' || c == '#'
  (scheme, rest.takeWhile (!stops ·), rest.dropWhile (!stops ·))

/-- Who asks, up to the last at sign, and what follows. -/
def splitUser (cs : List Char) : List Char × List Char :=
  if cs.contains '@' then
    let after := (cs.reverse.takeWhile (· != '@')).reverse
    (cs.take (cs.length - after.length - 1), after)
  else ([], cs)

/-- Who asks is told apart from the address, by name and password, and stays in it
only where that cannot be read as text. -/
def userOf (cs : List Char) : String :=
  let name := cs.takeWhile (· != ':')
  let password := (cs.dropWhile (· != ':')).drop 1
  let told := match decode? name, decode? password with
    | none, _ => false
    | some [], none => false
    | some _, _ => true
  let shown (cs : List Char) := String.ofList (encodeAll specialInUser cs)
  if told then ""
  else shown name ++ (if password.isEmpty then "" else ":" ++ shown password) ++ "@"

/-- The host up to a colon outside brackets, and what follows. -/
def splitPort (bracketed : Bool) : List Char → List Char × List Char
  | [] => ([], [])
  | c :: cs =>
    if c == ':' && !bracketed then ([], c :: cs)
    else
      let (host, port) := splitPort (if bracketed then c != ']' else c == '[') cs
      (c :: host, port)

def lastPort : Nat := 65535

def impliedPort (scheme : List Char) : Nat :=
  if scheme == "https".toList then 443 else 80

/-- The port after a colon, where the scheme does not imply it. -/
def portOf? (scheme : List Char) (cs : List Char) : Option (Option Nat) := do
  let digits := cs.drop 1
  let port ← spelled? 10 digits
  if port > lastPort then none
  else if digits.isEmpty || port == impliedPort scheme then some none
  else some (some port)

def Address.ofText? (s : String) : Option Address := do
  let cs := (trimAddress s.toList).filter (!isPassedOver ·)
  let (scheme, asked, rest) := splitHost cs
  let (user, asked) := splitUser asked
  let (host, port) := splitPort false asked
  let host ← Host.ofText? host
  let port ← portOf? scheme port
  let beforeHash := rest.takeWhile (· != '#')
  let afterHash := rest.dropWhile (· != '#')
  let path := beforeHash.takeWhile (· != '?')
  let query := beforeHash.dropWhile (· != '?')
  return {
    scheme := String.ofList scheme
    user := userOf user
    host := host
    port := port
    path := pathOf path
    query := match query with
      | [] => none
      | _ :: cs => some (String.ofList (encodeAll specialInQuery cs))
    fragment := match afterHash with
      | [] => none
      | _ :: cs => some (String.ofList (encodeAll specialInFragment cs)) }

/-- What is asked of the host. The fragment is not sent. -/
def Address.target (a : Address) : String :=
  a.path ++ match a.query with
    | none => ""
    | some q => "?" ++ q

def Address.text (a : Address) : String :=
  a.scheme ++ "://" ++ a.user ++ a.host.text
    ++ (match a.port with
      | none => ""
      | some port => ":" ++ toString port)
    ++ a.target
    ++ match a.fragment with
      | none => ""
      | some f => "#" ++ f

/-- The longest address that is sent, in bytes. -/
def longestAddress : Nat := 65534

/-- A request is made only for an address that is not too long, and whose host has
no quotes and braces. -/
def Address.isSendable (a : Address) : Bool :=
  a.text.utf8ByteSize ≤ longestAddress
    && !a.host.text.any fun c => c == '"' || c == '\x60' || c == '\x7b' || c == '\x7d'

end Http
end Brokerage
