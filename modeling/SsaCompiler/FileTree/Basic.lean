import SsaCompiler.Path

/-!
# Files and directories

A tree of files, as seen from a working directory. A path is followed part by part, and every part
but the last has to be a directory that is there. The working directory, the directories around it
and the root are always there.

Each operation that fails says what was tried, on which path, and why it failed.
-/

namespace SsaCompiler

inductive FileError where
  | missing
  /-- A part of the path that should be a directory is a file. -/
  | notDirectory
  | isDirectory
  | taken
  | invalid
  deriving DecidableEq, Repr

def FileError.message : FileError → String
  | .missing => "no such file or directory"
  | .notDirectory => "not a directory"
  | .isDirectory => "is a directory"
  | .taken => "file exists"
  | .invalid => "invalid argument"

structure FileFault where
  action : String
  path : String
  error : FileError
  deriving DecidableEq, Repr

def FileFault.message (f : FileFault) : String :=
  f.action ++ " " ++ f.path ++ ": " ++ f.error.message

/-- A way to reach files. -/
class Files (m : Type → Type) where
  read : String → m (Except FileFault String)
  /-- Puts a text into a file, which is made if it is not there. -/
  write : String → String → m (Except FileFault Unit)
  /-- Makes a directory with all directories on the way. -/
  makeDirs : String → m (Except FileFault Unit)
  isThere : String → m Bool
  filesBelow : String → m (Except FileFault (List String))

/-- A place in a tree: the parts of a path from the working directory on. Places above it start with
`..`, and those below the root with a slash. -/
abbrev Place := List String

inductive FileEntry where
  | file (text : String)
  | directory
  deriving DecidableEq, Repr

structure FileTree where
  entries : List (Place × FileEntry) := []
  deriving Repr

namespace FileTree

variable (t : FileTree) (path : String) (p : Place)

def isFixed : Bool :=
  p == ["/"] || p.all (· == "..")

def at? : Option FileEntry :=
  if isFixed p then some .directory else t.entries.lookup p

def put (e : FileEntry) : FileTree :=
  if (t.entries.lookup p).isSome then
    { entries := t.entries.map fun (q, old) => if q == p then (q, e) else (q, old) }
  else { entries := t.entries ++ [(p, e)] }

/-! ## Following paths -/

def above : Place :=
  if p == ["/"] then p
  else if p.all (· == "..") then ".." :: p
  else p.dropLast

def enter (part : String) : Place :=
  if part == "." then p
  else if part == ".." then above p
  else p ++ [part]

def follow (t : FileTree) (p : Place) : List String → Except FileError Place
  | [] => .ok p
  | part :: rest =>
    match t.at? p with
    | none => .error .missing
    | some (.file _) => .error .notDirectory
    | some .directory => t.follow (enter p part) rest

def locate : Except FileError Place :=
  if path == "" then .error .missing
  else if path.toList.contains '\x00' then .error .invalid
  else t.follow (if Path.isRooted path then ["/"] else []) (Path.parts path)

/-- What is at a path. A path that ends with a slash leads to directories only. -/
def find : Except FileError (Place × FileEntry) :=
  match t.locate path with
  | .error e => .error e
  | .ok p =>
    match t.at? p with
    | none => .error .missing
    | some (.file text) =>
      if Path.endsWithSlash path then .error .notDirectory else .ok (p, .file text)
    | some .directory => .ok (p, .directory)

/-! ## Operations -/

def read (t : FileTree) (path : String) : Except FileFault String :=
  match t.find path with
  | .error e => .error ⟨"open", path, e⟩
  | .ok (_, .directory) => .error ⟨"read", path, .isDirectory⟩
  | .ok (_, .file text) => .ok text

def write (path text : String) : Except FileFault Unit × FileTree :=
  match t.locate path with
  | .error e => (.error ⟨"open", path, e⟩, t)
  | .ok p =>
    if Path.endsWithSlash path || t.at? p == some .directory then
      (.error ⟨"open", path, .isDirectory⟩, t)
    else (.ok (), t.put p (.file text))

def isThere : Bool :=
  (t.find path).toOption.isSome

def makeDir : Except FileFault Unit × FileTree :=
  match t.locate path with
  | .error e => (.error ⟨"mkdir", path, e⟩, t)
  | .ok p =>
    if (t.at? p).isSome then (.error ⟨"mkdir", path, .taken⟩, t)
    else (.ok (), t.put p .directory)

/-- The paths that start a path, given with its last character first, from the longest to the
shortest. -/
def starts : (fuel : Nat) → List Char → List String
  | 0, _ => []
  | fuel + 1, reversed =>
    let before := (reversed.dropWhile (· == '/')).dropWhile (· != '/')
    let rest := if before.length ≤ 1 then [] else starts fuel (before.drop 1)
    String.ofList reversed.reverse :: rest

/-- Makes the first of some directories, each of which contains the one before it. -/
def makeNested (t : FileTree) : List String → Except FileFault Unit × FileTree
  | [] => (.ok (), t)
  | path :: around =>
    match t.find path with
    | .ok (_, .directory) => (.ok (), t)
    | .ok (_, .file _) => (.error ⟨"mkdir", path, .notDirectory⟩, t)
    | .error _ =>
      match t.makeNested around with
      | (.error e, t) => (.error e, t)
      | (.ok (), t) =>
        match t.makeDir path with
        | (.ok (), t) => (.ok (), t)
        | (.error e, t) =>
          match t.find path with
          | .ok (_, .directory) => (.ok (), t)
          | _ => (.error e, t)

def makeDirs : Except FileFault Unit × FileTree :=
  t.makeNested (starts (path.length + 1) path.toList.reverse)

def partsBelow? : Place → Option (List String)
  | q => if p.isPrefixOf q && p.length < q.length then some (q.drop p.length) else none

def filesBelow : Except FileFault (List String) :=
  match t.find path with
  | .error e => .error ⟨"lstat", path, e⟩
  | .ok (_, .file _) => .ok [path]
  | .ok (p, .directory) =>
    .ok (t.entries.filterMap fun (q, e) =>
      match e, partsBelow? p q with
      | .file _, some rest => some (Path.join path ("/".intercalate rest))
      | _, _ => none)

instance : Files (StateM FileTree) where
  read path := return (← get).read path
  write path text := modifyGet fun t => t.write path text
  makeDirs path := modifyGet fun t => t.makeDirs path
  isThere path := return (← get).isThere path
  filesBelow path := return (← get).filesBelow path

end FileTree

end SsaCompiler
