/-!
# Kinds of nodes

The kind of a node, its name, and the properties that depend on the kind alone.
-/

namespace SsaCompiler

inductive NodeKind where
  | invalid | finish | error
  | package | importing | using | modifierBlock | modifierList | classDecl | field | method
  | exprStmt | localDeclare | localDeclareAssign | immutableLocal | mutableLocal | referenceLocal
  | destructure | localAssign | fieldAssign | indexAssign | branch | otherwise | loop | ret | free
  | literal | accessor | call | new | malloc | sizeofType | sizeofValue | tuple | group | cast
  | unary | binary | refAccess | derefAccess | index | arrayLiteral | arrayAlloc | selection
  deriving DecidableEq, Repr

namespace NodeKind

def all : List NodeKind := [
  .invalid, .finish, .error, .package, .importing, .using, .modifierBlock, .modifierList,
  .classDecl, .field, .method, .exprStmt, .localDeclare, .localDeclareAssign, .immutableLocal,
  .mutableLocal, .referenceLocal, .destructure, .localAssign, .fieldAssign, .indexAssign, .branch,
  .otherwise, .loop, .ret, .free, .literal, .accessor, .call, .new, .malloc, .sizeofType,
  .sizeofValue, .tuple, .group, .cast, .unary, .binary, .refAccess, .derefAccess, .index,
  .arrayLiteral, .arrayAlloc, .selection]

def name : NodeKind → String
  | .invalid => "Invalid"
  | .finish => "Finish"
  | .error => "Error"
  | .package => "Package"
  | .importing => "Import"
  | .using => "Using"
  | .modifierBlock => "ModifierBlock"
  | .modifierList => "ModifierList"
  | .classDecl => "Class"
  | .field => "Field"
  | .method => "Method"
  | .exprStmt => "ExprStmt"
  | .localDeclare => "LocalDeclare"
  | .localDeclareAssign => "LocalDeclareAssign"
  | .immutableLocal => "ImmutableLocal"
  | .mutableLocal => "MutableLocal"
  | .referenceLocal => "ReferenceLocal"
  | .destructure => "Destructure"
  | .localAssign => "LocalAssign"
  | .fieldAssign => "FieldAssign"
  | .indexAssign => "IndexAssign"
  | .branch => "If"
  | .otherwise => "Else"
  | .loop => "While"
  | .ret => "Return"
  | .free => "Free"
  | .literal => "Literal"
  | .accessor => "Accessor"
  | .call => "Call"
  | .new => "New"
  | .malloc => "Malloc"
  | .sizeofType => "SizeofType"
  | .sizeofValue => "SizeofValue"
  | .tuple => "Tuple"
  | .group => "Group"
  | .cast => "Cast"
  | .unary => "Unary"
  | .binary => "Binary"
  | .refAccess => "RefAccess"
  | .derefAccess => "DerefAccess"
  | .index => "Index"
  | .arrayLiteral => "ArrayLiteral"
  | .arrayAlloc => "ArrayAlloc"
  | .selection => "Selection"

def nameOfCode (n : Nat) : String :=
  match all[n]? with
  | some k => k.name
  | none => "Kind(" ++ toString n ++ ")"

/-- Whether nodes of the kind can put their value on the stack. -/
def onStack : NodeKind → Bool
  | .new | .arrayAlloc => true
  | _ => false

/-- Whether nodes of the kind can put their value on the heap. -/
def onHeap : NodeKind → Bool
  | .new | .malloc => true
  | _ => false

/-- Whether nodes of the kind stand for an address that can be referenced or freed. -/
def ownsPointer : NodeKind → Bool
  | .localDeclare | .localDeclareAssign | .immutableLocal | .mutableLocal | .referenceLocal
  | .new | .malloc | .refAccess | .derefAccess => true
  | _ => false

/-- Whether nodes of the kind are read by loading from an address. -/
def isLoaded : NodeKind → Bool
  | .localDeclare | .localDeclareAssign | .immutableLocal | .mutableLocal | .referenceLocal
  | .accessor | .sizeofType => true
  | _ => false

/-- Whether nodes of the kind take stores after their initialisation. -/
def isMutable : NodeKind → Bool
  | .localDeclare | .mutableLocal | .referenceLocal | .refAccess => true
  | _ => false

end NodeKind

end SsaCompiler
