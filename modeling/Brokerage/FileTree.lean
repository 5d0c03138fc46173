/-
# Files

A tree of directories and text files below one working directory, as far as a run
reads and writes it. A path is a text with slashes. It is followed name by name:
each name but the last has to be that of a directory, also where `.` or `..`
follows. What lies above the working directory, or hangs from the root `/`, is
entered as well, and found empty.

Key definitions: `FileTree`, `Route`, `FileTree.read`, `FileTree.makeDirectories`,
`FileTree.touch`, `FileTree.append`, `FileFault`.
-/
import Brokerage.Table

namespace Brokerage

/-- Why the operating system refuses a file operation. -/
inductive FileFault where
  | notFound
  | exists
  | notDirectory
  | isDirectory
  | nameTooLong
  | zeroByte
  | notText
  deriving DecidableEq, Repr

def FileFault.message : FileFault → String
  | .notFound => "No such file or directory (os error 2)"
  | .exists => "File exists (os error 17)"
  | .notDirectory => "Not a directory (os error 20)"
  | .isDirectory => "Is a directory (os error 21)"
  | .nameTooLong => "File name too long (os error 36)"
  | .zeroByte => "file name contained an unexpected NUL byte"
  | .notText => "stream did not contain valid UTF-8"

/-! ### Routes -/

/-- A path taken apart at its slashes, the innermost part first. -/
abbrev Route := List String

namespace Route

def ofPath (path : String) : Route :=
  (path.splitOn "/").reverse

def isIdle (name : String) : Bool :=
  name == "" || name == "."

/-- Without the parts at its end that lead nowhere. -/
def trim (route : Route) : Route :=
  route.dropWhile isIdle

/-- The route to what holds the end of a route; empty where that is the directory
that the route starts from. -/
def above (route : Route) : Route :=
  trim (trim route).tail

theorem length_trim_le (route : Route) : (trim route).length ≤ route.length :=
  (List.dropWhile_suffix isIdle).length_le

theorem length_above_lt (route : Route) (h : trim route ≠ []) :
    (above route).length < route.length := by
  have hpos : 0 < (trim route).length := List.length_pos_iff.mpr h
  have htail : (trim route).tail.length = (trim route).length - 1 := List.length_tail
  have hle := length_trim_le (trim route).tail
  have htrim := length_trim_le route
  unfold above
  omega

/-- The bytes of the path. -/
def size (route : Route) : Nat :=
  route.foldl (fun bytes name => bytes + name.utf8ByteSize) (route.length - 1)

def startsAtRoot (route : Route) : Bool :=
  route.length > 1 && route.getLast? == some ""

/-- A path that ends in a slash can only lead to a directory. -/
def endsInSlash (route : Route) : Bool :=
  route.head? == some ""

/-- The names to follow, from the outermost on. -/
def names (route : Route) : List String :=
  route.reverse.filter (· != "")

/-- The longest path, in bytes. -/
def longest : Nat := 4095

/-- What is wrong with a path before any name of it is followed. -/
def fault? (route : Route) : Option FileFault :=
  if route.any (·.contains '\x00') then some .zeroByte
  else if route.size == 0 then some .notFound
  else if route.size > longest then some .nameTooLong
  else none

end Route

/-! ### Trees -/

/-- Where something stands in the tree: the names from the working directory
down. -/
abbrev Place := List String

/-- A directory, as far as it holds directories. -/
inductive Folder where
  | holding (folders : List (String × Folder))
  deriving Repr

namespace Folder

def bare : Folder := .holding []

def folder? (name : String) : Folder → Option Folder
  | .holding folders => Table.lookup name folders

/-- With a directory at a place, and all on the way to it. -/
def withFolder : Place → Folder → Folder
  | [], folder => folder
  | name :: names, .holding folders =>
    let inner := (Table.lookup name folders).getD bare
    .holding (Table.put name (inner.withFolder names) folders)

end Folder

structure FileTree where
  files : Table Place String
  folders : Folder
  deriving Repr

/-- Where a walk stands: the names that led there, the last one first, each with
the directory that it leads to. -/
structure Spot where
  top : Folder
  trail : List (String × Folder)

namespace Spot

def folder (s : Spot) : Folder :=
  match s.trail with
  | [] => s.top
  | (_, folder) :: _ => folder

def place (s : Spot) : Place :=
  (s.trail.map (·.1)).reverse

/-- Enters a directory that is known to be there. -/
def enter (s : Spot) (name : String) : Spot :=
  { s with trail := (name, (s.folder.folder? name).getD .bare) :: s.trail }

/-- One directory back. From the working directory on `..` is a name like any
other; nothing is above the root. -/
def back (s : Spot) : Spot :=
  match s.trail with
  | [] => s.enter ".."
  | (name, _) :: trail =>
    if name == ".." then s.enter ".."
    else if name == "/" then s
    else { s with trail := trail }

end Spot

/-- What a name leads to. -/
inductive Target where
  | directory (spot : Spot)
  | file (place : Place)
  | vacant (place : Place)

namespace FileTree

def empty : FileTree := ⟨∅, .bare⟩

/-- The longest name, in bytes. -/
def longestName : Nat := 255

/-- What a name leads to from where a walk stands. -/
def look (t : FileTree) (s : Spot) (name : String) : Except FileFault Target :=
  if name == "." then .ok (.directory s)
  else if name == ".." then .ok (.directory s.back)
  else if name.utf8ByteSize > longestName then .error .nameTooLong
  else match s.folder.folder? name with
    | some folder => .ok (.directory { s with trail := (name, folder) :: s.trail })
    | none =>
      let place := s.place ++ [name]
      .ok (if t.files.contains place then .file place else .vacant place)

/-- Goes into the directory of a name. -/
def step (t : FileTree) (s : Spot) (name : String) : Except FileFault Spot :=
  match t.look s name with
  | .error fault => .error fault
  | .ok (.directory s) => .ok s
  | .ok (.file _) => .error .notDirectory
  | .ok (.vacant _) => .error .notFound

/-- Where the last name of a route stands, and that name. -/
def approach (t : FileTree) (route : Route) : Except FileFault (Spot × String) := do
  let top : Spot := ⟨t.folders, []⟩
  let start := if route.startsAtRoot then top.enter "/" else top
  let spot ← route.names.dropLast.foldlM t.step start
  return (spot, route.names.getLast?.getD ".")

/-- What a route leads to. -/
def follow (t : FileTree) (route : Route) : Except FileFault Target := do
  let (spot, name) ← t.approach route
  t.look spot name

/-- The text of a file. -/
def read (t : FileTree) (path : String) : Except FileFault String :=
  let route := Route.ofPath path
  match route.fault? with
  | some fault => .error fault
  | none =>
    match t.follow route with
    | .error fault => .error fault
    | .ok (.directory _) => .error .isDirectory
    | .ok (.vacant _) => .error .notFound
    | .ok (.file place) =>
      if route.endsInSlash then .error .notDirectory else .ok ((t.files.get? place).getD "")

/-- Makes the directory at the end of a route; what holds it has to be there. -/
def makeDirectory (t : FileTree) (route : Route) : Except FileFault FileTree :=
  match t.follow route with
  | .error fault => .error fault
  | .ok (.vacant place) => .ok { t with folders := t.folders.withFolder place }
  | .ok _ => .error .exists

def isDirectory (t : FileTree) (route : Route) : Bool :=
  match t.follow route with
  | .ok (.directory _) => true
  | _ => false

/-- Makes a directory unless it is there. -/
def ensureDirectory (t : FileTree) (route : Route) : Except FileFault FileTree :=
  match t.makeDirectory route with
  | .ok t => .ok t
  | .error fault => if t.isDirectory route then .ok t else .error fault

/-- Makes a directory and, if what holds it is missing, that first. A fault further
in leaves the directories made until then. -/
def makeWay (t : FileTree) (route : Route) : Except FileFault Unit × FileTree :=
  if h : route.trim = [] then (.ok (), t)
  else
    have := Route.length_above_lt route h
    match t.ensureDirectory route with
    | .ok t => (.ok (), t)
    | .error .notFound =>
      match t.makeWay route.above with
      | (.error fault, t) => (.error fault, t)
      | (.ok (), t) =>
        match t.ensureDirectory route with
        | .ok t => (.ok (), t)
        | .error fault => (.error fault, t)
    | .error fault => (.error fault, t)
termination_by route.length

/-- Makes the directory of a route and all that it stands in. An empty path asks
for nothing. -/
def makeDirectories (t : FileTree) (route : Route) : Except FileFault Unit × FileTree :=
  if route.size == 0 then (.ok (), t)
  else match route.fault? with
    | some fault => (.error fault, t)
    | none => t.makeWay route

/-- Creates an empty file unless there is one, and tells where it stands. -/
def touch (t : FileTree) (path : String) : Except FileFault (Place × FileTree) := do
  let route := Route.ofPath path
  match route.fault? with
  | some fault => .error fault
  | none =>
    let (spot, name) ← t.approach route
    if route.endsInSlash then .error .isDirectory
    else match ← t.look spot name with
      | .directory _ => .error .isDirectory
      | .file place => .ok (place, t)
      | .vacant place => .ok (place, { t with files := t.files.insert place "" })

/-- Adds to the end of a file. -/
def append (t : FileTree) (place : Place) (content : String) : FileTree :=
  { t with files := t.files.insert place ((t.files.get? place).getD "" ++ content) }

/-- Enters a file and the directories that it stands in. -/
def withFile (t : FileTree) (path content : String) : FileTree :=
  let (_, t) := t.makeDirectories (Route.ofPath path).above
  match t.touch path with
  | .ok (place, t) => { t with files := t.files.insert place content }
  | .error _ => t

/-- The files below the working directory. -/
def listing (t : FileTree) : List (Place × String) :=
  t.files.entries.filter fun e => e.1.head? != some ".." && e.1.head? != some "/"

end FileTree
end Brokerage
