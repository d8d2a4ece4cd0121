/-!
# Paths

Paths are texts whose parts are divided by slashes. A path is cleaned by its text alone: empty parts
and `.` go, and `..` takes the part before it away. The result names the same place as the path if
all directories on the way are there.
-/

namespace SsaCompiler.Path

variable (path : String)

/-! ## Parts -/

/-- The parts of a path, empty ones included. -/
def split : List Char → List (List Char)
  | [] => [[]]
  | c :: cs =>
    match split cs with
    | [] => [[c]]
    | p :: ps => if c == '/' then [] :: p :: ps else (c :: p) :: ps

/-- The parts of a path that are not empty. -/
def parts : List String :=
  ((split path.toList).filter fun p => !p.isEmpty).map String.ofList

def isRooted : Bool :=
  path.toList.head? == some '/'

def endsWithSlash : Bool :=
  path.toList.getLast? == some '/'

/-! ## Clean paths -/

/-- Adds a part to a clean path, given with its last part first. Nothing is above the root. -/
def push (rooted : Bool) (stack : List String) (part : String) : List String :=
  if part == "." then stack
  else if part == ".." then
    match stack with
    | [] => if rooted then [] else [".."]
    | top :: rest => if top == ".." then ".." :: top :: rest else rest
  else part :: stack

def cleanParts : List String :=
  ((parts path).foldl (push (isRooted path)) []).reverse

/-- The shortest path of the same meaning. -/
def clean : String :=
  let body := "/".intercalate (cleanParts path)
  if isRooted path then "/" ++ body
  else if body == "" then "."
  else body

def join (dir name : String) : String :=
  if dir == "" && name == "" then ""
  else if dir == "" then clean name
  else clean (dir ++ "/" ++ name)

def base : String :=
  if path == "" then "."
  else (parts path).getLast?.getD "/"

/-- The end of the last part of a path, from its last dot on. -/
def extension : String :=
  let last := (split path.toList).getLast?.getD []
  if last.contains '.' then
    "." ++ String.ofList (last.reverse.takeWhile (· != '.')).reverse
  else ""

end SsaCompiler.Path
