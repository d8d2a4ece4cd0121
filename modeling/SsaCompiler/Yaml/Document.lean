import SsaCompiler.Yaml.Scanner

/-!
# Documents

Tokens form a tree. Only the first document of a text is read. A value may be named by an anchor and
then be repeated by a reference to it.
-/

namespace SsaCompiler.Yaml

/-- What is left of the tokens, and the anchors so far. -/
structure Reader where
  tokens : List Token
  error : Option Error
  /-- The named values, the latest first. -/
  anchors : List (String × Node) := []

abbrev Read (α : Type) : Type := StateT Reader (Except Error) α

namespace Read

def peek : Read Token := do
  let r ← get
  match r.tokens, r.error with
  | t :: _, _ => return t
  | [], some e => throw e
  | [], none => return ⟨.streamEnd, 0⟩

def look : Read Lexeme :=
  return (← peek).lexeme

def skip : Read Unit :=
  modify fun r => { r with tokens := r.tokens.drop 1 }

def fail {α : Type} (p : Problem) : Read α := do
  throw ⟨(← peek).line, p⟩

def absent (tag : Option String) : Read Node := do
  return .scalar (← peek).line tag true ""

/-- The prefix of the tags of the format itself. -/
def coreTag : String := "!<tag:yaml.org,2002:"

/-- A tag in its short form. The tag `!` says nothing. -/
def shortTag (tag : String) : Read (Option String) :=
  if tag == "!" then return none
  else if tag.startsWith coreTag && tag.endsWith ">" then
    return some ("!!" ++ String.ofList ((tag.toList.drop coreTag.length).dropLast))
  else if tag.startsWith "!!" || tag.startsWith "!<" then return some tag
  else if (tag.toList.drop 1).contains '!' then fail .unknownHandle
  else return some tag

structure Properties where
  anchor : Option String := none
  tag : Option String := none
  written : Bool := false

/-- Reads a name and a tag in either order. -/
def properties : Read Properties := do
  match ← look with
  | .anchor name =>
    skip
    match ← look with
    | .tag tag =>
      skip
      return { anchor := some name, tag := ← shortTag tag, written := true }
    | _ => return { anchor := some name, written := true }
  | .tag tag =>
    skip
    let tag ← shortTag tag
    match ← look with
    | .anchor name =>
      skip
      return { anchor := some name, tag := tag, written := true }
    | _ => return { tag := tag, written := true }
  | _ => return {}

def register (p : Properties) (n : Node) : Read Node := do
  match p.anchor with
  | some name => modify fun r => { r with anchors := (name, n) :: r.anchors }
  | none => pure ()
  return n

def reference (name : String) : Read Node := do
  match (← get).anchors.lookup name with
  | some n =>
    skip
    return n
  | none => fail (.unknownAnchor name)

/-- Whether a token ends an item, a key or a value that is not written in a block. -/
def endsBlockPart (l : Lexeme) : Bool :=
  l == .key || l == .value || l == .blockEnd

/-! ## Values -/

mutual

/-- Reads a value. In a block it may span lines, and behind a key a sequence need not be
indented. -/
def node (inBlock indentless : Bool) : (fuel : Nat) → Read Node
  | 0 => fail .noNode
  | fuel + 1 => do
    match ← look with
    | .alias name => reference name
    | _ =>
      let p ← properties
      let line := (← peek).line
      match ← look with
      | .scalar plain text =>
        skip
        register p (.scalar line p.tag plain text)
      | .openBracket =>
        skip
        let items ← flowItems true fuel
        register p (.sequence line items)
      | .openBrace =>
        skip
        let entries ← flowEntries true fuel
        register p (.mapping line entries)
      | l =>
        if l == .entry && indentless then
          let items ← looseItems fuel
          register p (.sequence line items)
        else if l == .sequenceStart && inBlock then
          skip
          let items ← blockItems fuel
          register p (.sequence line items)
        else if l == .mappingStart && inBlock then
          skip
          let entries ← blockEntries fuel
          register p (.mapping line entries)
        else if p.written then
          let n ← absent p.tag
          register p n
        else fail .noNode

def blockItems : (fuel : Nat) → Read (List Node)
  | 0 => fail .noDash
  | fuel + 1 => do
    match ← look with
    | .entry =>
      skip
      let l ← look
      let n ← if l == .entry || l == .blockEnd then absent none else node true false fuel
      let rest ← blockItems fuel
      return n :: rest
    | .blockEnd =>
      skip
      return []
    | _ => fail .noDash

/-- Reads the items of a sequence that is not indented. -/
def looseItems : (fuel : Nat) → Read (List Node)
  | 0 => fail .noDash
  | fuel + 1 => do
    match ← look with
    | .entry =>
      skip
      let l ← look
      let n ← if l == .entry || endsBlockPart l then absent none else node true false fuel
      let rest ← looseItems fuel
      return n :: rest
    | _ => return []

def blockEntries : (fuel : Nat) → Read (List (Node × Node))
  | 0 => fail .noKey
  | fuel + 1 => do
    match ← look with
    | .key =>
      skip
      let l ← look
      let k ← if endsBlockPart l then absent none else node true true fuel
      let v ← blockValue fuel
      let rest ← blockEntries fuel
      return (k, v) :: rest
    | .blockEnd =>
      skip
      return []
    | _ => fail .noKey

def blockValue : (fuel : Nat) → Read Node
  | 0 => fail .noNode
  | fuel + 1 => do
    match ← look with
    | .value =>
      skip
      let l ← look
      if endsBlockPart l then absent none else node true true fuel
    | _ => absent none

def flowItems (first : Bool) : (fuel : Nat) → Read (List Node)
  | 0 => fail .noBracket
  | fuel + 1 => do
    if (← look) == .closeBracket then
      skip
      return []
    if !first then
      if (← look) == .comma then skip else fail .noBracket
    match ← look with
    | .closeBracket =>
      skip
      return []
    | .key =>
      let line := (← peek).line
      skip
      let entry ← flowPair .closeBracket fuel
      let rest ← flowItems false fuel
      return .mapping line [entry] :: rest
    | _ =>
      let n ← node false false fuel
      let rest ← flowItems false fuel
      return n :: rest

/-- Reads a key and its value between brackets. -/
def flowPair (close : Lexeme) : (fuel : Nat) → Read (Node × Node)
  | 0 => fail .noNode
  | fuel + 1 => do
    let l ← look
    let k ← if l == .value || l == .comma || l == close then absent none else node false false fuel
    let v ← flowValue close fuel
    return (k, v)

/-- Reads the value behind a key between brackets. -/
def flowValue (close : Lexeme) : (fuel : Nat) → Read Node
  | 0 => fail .noNode
  | fuel + 1 => do
    match ← look with
    | .value =>
      skip
      let l ← look
      if l == .comma || l == close then absent none else node false false fuel
    | _ => absent none

def flowEntries (first : Bool) : (fuel : Nat) → Read (List (Node × Node))
  | 0 => fail .noBrace
  | fuel + 1 => do
    if (← look) == .closeBrace then
      skip
      return []
    if !first then
      if (← look) == .comma then skip else fail .noBrace
    match ← look with
    | .closeBrace =>
      skip
      return []
    | .key =>
      skip
      let entry ← flowPair .closeBrace fuel
      let rest ← flowEntries false fuel
      return entry :: rest
    | _ =>
      let k ← node false false fuel
      let v ← absent none
      let rest ← flowEntries false fuel
      return (k, v) :: rest

end

/-! ## Documents -/

/-- Whether a token stands before or behind a document. -/
def isOutside (l : Lexeme) : Bool :=
  [.directive, .documentStart, .documentEnd, .streamEnd].contains l

def directives : (fuel : Nat) → Read Unit
  | 0 => return ()
  | fuel + 1 => do
    if (← look) == .directive then
      skip
      directives fuel

/-- Reads the first document, if there is any. What follows it has to start with a token. -/
def document (fuel : Nat) : Read (Option Node) := do
  let l ← look
  if l == .streamEnd then
    return none
  if l == .directive || l == .documentStart then
    directives fuel
    if (← look) != .documentStart then
      fail .noDocument
    skip
    if isOutside (← look) then
      return some (← absent none)
  let n ← node true false fuel
  let _ ← look
  return some n

end Read

/-- The first document of a text, if there is any. -/
def parse (text : List Char) : Except Error (Option Node) :=
  let s := scan text
  ((Read.document (4 * s.tokens.length + 8)).run { tokens := s.tokens, error := s.error }).map
    Prod.fst

end SsaCompiler.Yaml
