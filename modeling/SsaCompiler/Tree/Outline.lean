import SsaCompiler.Text.Quoted
import SsaCompiler.Token.Basic
import SsaCompiler.Tree.Basic
import SsaCompiler.Tree.NodeKind

/-!
# Outlines

A uniform view of syntax trees: every node with the list of its children in source order. Whatever
treats all nodes alike (printing the tree, listing its nodes, finding parents) works on the outline.
-/

namespace SsaCompiler

/-- A node of any sort. -/
inductive Node where
  | decl (d : Decl)
  | member (m : Member)
  | stmt (s : Stmt)
  | elseIf (m : Mark)
  | final (m : Mark)
  | element (m : Mark)
  | expr (e : Expr)

namespace Node

def renderModifiers (modifiers : List String) : String :=
  if modifiers.isEmpty then "" else " ".intercalate modifiers ++ " "

def renderParam (p : Param) : String :=
  (if p.mutable then "mut " else "") ++ p.type.render ++ (if p.variadic then "..." else "") ++ " "
    ++ p.name.render

def describeMethod (m : Method) : String :=
  "Method " ++ renderModifiers m.modifiers ++ m.result.render ++ " " ++ m.name
    ++ TypeParam.renderList m.typeParams
    ++ "(" ++ ", ".intercalate (m.params.map renderParam) ++ ")"

def describeField (f : Field) : String :=
  "Field " ++ renderModifiers f.modifiers ++ f.type.render ++ " "
    ++ ", ".intercalate (f.entries.map FieldEntry.name)

def describeClass (c : ClassDecl) : String :=
  "Class " ++ renderModifiers c.modifiers ++ c.name ++ TypeParam.renderList c.typeParams

/-- One line that describes modifiers for all that follows. -/
def describeModifierBlock (modifiers : List String) : String :=
  "ModifierBlock " ++ " ".intercalate modifiers ++ ":"

def describeModifierList (modifiers : List String) : String :=
  "ModifierList " ++ " ".intercalate modifiers

def describeDecl : Decl → String
  | .package _ name => "Package " ++ Text.quote name
  | .importing _ name => "Import " ++ Text.quote name
  | .using _ name => "Using " ++ Text.quote name
  | .modifierBlock _ modifiers => describeModifierBlock modifiers
  | .modifierList _ modifiers => describeModifierList modifiers
  | .classDecl c => describeClass c
  | .method m => describeMethod m

def describeMember : Member → String
  | .modifierBlock _ modifiers => describeModifierBlock modifiers
  | .modifierList _ modifiers => describeModifierList modifiers
  | .field f => describeField f
  | .method m => describeMethod m

def describeStmt : Stmt → String
  | .expr .. => "ExprStmt"
  | .declare _ type name => "LocalDeclare " ++ type.render ++ " " ++ name
  | .define _ type name _ => "LocalDeclareAssign " ++ type.render ++ " " ++ name
  | .immutable _ name _ => "ImmutableLocal " ++ name
  | .mutable _ (some type) name _ => "MutableLocal " ++ type.render ++ " " ++ name
  | .mutable _ none name _ => "MutableLocal " ++ name
  | .reference _ name _ => "ReferenceLocal " ++ name
  | .destructure _ names _ => "Destructure " ++ (BindingName.group names).render
  | .assign _ name _ => "LocalAssign " ++ name
  | .fieldAssign _ target _ => "FieldAssign " ++ target.render
  | .indexAssign .. => "IndexAssign"
  | .branch .. => "If"
  | .loop .. => "While"
  | .ret .. => "Return"
  | .free _ name => "Free " ++ name

def describeExpr : Expr → String
  | .literal _ kind text => "Literal " ++ (Token.of kind text).render
  | .accessor _ name => "Accessor " ++ name.render
  | .call _ name typeArgs _ => "Call " ++ name.render ++ TypeArg.renderList typeArgs
  | .new _ type _ => "New " ++ type.render
  | .malloc _ type => "Malloc " ++ type.render
  | .sizeofType _ type => "SizeofType " ++ type.render
  | .sizeofValue .. => "SizeofValue"
  | .tuple .. => "Tuple"
  | .group .. => "Group"
  | .cast _ type _ => "Cast " ++ type.render
  | .unary _ op _ => if op.isAfter then "Unary x" ++ op.text else "Unary " ++ op.text ++ "x"
  | .binary _ op _ _ => "Binary " ++ op.text
  | .refAccess _ name => "RefAccess " ++ name
  | .derefAccess _ name => "DerefAccess " ++ name
  | .index .. => "Index"
  | .arrayLiteral _ elems => "ArrayLiteral [" ++ toString elems.length ++ "]"
  | .arrayAlloc _ elem _ => "ArrayAlloc " ++ elem.render
  | .selection .. => "Selection"

/-- One line that describes a node without its children. -/
def describe : Node → String
  | .decl d => describeDecl d
  | .member m => describeMember m
  | .stmt s => describeStmt s
  | .elseIf _ => "If"
  | .final _ => "Else"
  | .element _ => "Index"
  | .expr e => describeExpr e

def kindOfDecl : Decl → NodeKind
  | .package .. => .package
  | .importing .. => .importing
  | .using .. => .using
  | .modifierBlock .. => .modifierBlock
  | .modifierList .. => .modifierList
  | .classDecl _ => .classDecl
  | .method _ => .method

def kindOfMember : Member → NodeKind
  | .modifierBlock .. => .modifierBlock
  | .modifierList .. => .modifierList
  | .field _ => .field
  | .method _ => .method

def kindOfStmt : Stmt → NodeKind
  | .expr .. => .exprStmt
  | .declare .. => .localDeclare
  | .define .. => .localDeclareAssign
  | .immutable .. => .immutableLocal
  | .mutable .. => .mutableLocal
  | .reference .. => .referenceLocal
  | .destructure .. => .destructure
  | .assign .. => .localAssign
  | .fieldAssign .. => .fieldAssign
  | .indexAssign .. => .indexAssign
  | .branch .. => .branch
  | .loop .. => .loop
  | .ret .. => .ret
  | .free .. => .free

def kindOfExpr : Expr → NodeKind
  | .literal .. => .literal
  | .accessor .. => .accessor
  | .call .. => .call
  | .new .. => .new
  | .malloc .. => .malloc
  | .sizeofType .. => .sizeofType
  | .sizeofValue .. => .sizeofValue
  | .tuple .. => .tuple
  | .group .. => .group
  | .cast .. => .cast
  | .unary .. => .unary
  | .binary .. => .binary
  | .refAccess .. => .refAccess
  | .derefAccess .. => .derefAccess
  | .index .. => .index
  | .arrayLiteral .. => .arrayLiteral
  | .arrayAlloc .. => .arrayAlloc
  | .selection .. => .selection

def kind : Node → NodeKind
  | .decl d => kindOfDecl d
  | .member m => kindOfMember m
  | .stmt s => kindOfStmt s
  | .elseIf _ => .branch
  | .final _ => .otherwise
  | .element _ => .index
  | .expr e => kindOfExpr e

def markOfDecl : Decl → Mark
  | .package m _ | .importing m _ | .using m _ | .modifierBlock m _ | .modifierList m _ => m
  | .classDecl c => c.mark
  | .method m => m.mark

def markOfMember : Member → Mark
  | .modifierBlock m _ | .modifierList m _ => m
  | .field f => f.mark
  | .method m => m.mark

def mark : Node → Mark
  | .decl d => markOfDecl d
  | .member m => markOfMember m
  | .stmt s => s.mark
  | .elseIf m | .final m | .element m => m
  | .expr e => e.mark

def pos (n : Node) : Pos :=
  n.mark.pos

/-- A variable that a statement declares: its name, its written type and its initial value. -/
def declared? : Node → Option (String × Option Scalar × Option Expr)
  | .stmt (.declare _ type name) => some (name, some type, none)
  | .stmt (.define _ type name value) => some (name, some type, some value)
  | .stmt (.immutable _ name value) => some (name, none, some value)
  | .stmt (.mutable _ type name value) => some (name, type, value)
  | .stmt (.reference _ name value) => some (name, none, some value)
  | _ => none

/-- The names that a statement binds to the members of a tuple. -/
def bound? : Node → Option (List String)
  | .stmt (.destructure _ names _) => some (BindingName.wordsOfAll names)
  | _ => none

def method? : Node → Option Method
  | .decl (.method m) => some m
  | .member (.method m) => some m
  | _ => none

/-- Notes on a node: its kind with the properties of the kind and with what it declares. -/
def notes (n : Node) : String :=
  let k := n.kind
  k.name ++ ":"
    ++ (if k.onStack then " stack" else "")
    ++ (if k.onHeap then " heap" else "")
    ++ (if k.ownsPointer then " owner" else "")
    ++ (if k.isLoaded then " load" else "")
    ++ (if k.isMutable then " mut" else "")
    ++ (match n.declared? with
      | some (name, type, init) =>
        " local=" ++ name
          ++ (type.elim "" fun t => " type=" ++ t.render)
          ++ (init.elim "" fun e => " init=" ++ describeExpr e)
      | none => "")
    ++ (n.bound?.elim "" fun names => " names=" ++ ",".intercalate names)
    ++ (n.method?.elim "" fun m =>
      " generics=" ++ ",".intercalate ((m.typeParams.getD []).map TypeParam.name)
        ++ " unnamed=" ++ m.result.unnamed.render)

end Node

/-- A node with its children. -/
inductive Outline where
  | node (n : Node) (children : List Outline)

namespace Outline

mutual

def ofExpr : Expr → Outline
  | .literal m kind text => .node (.expr (.literal m kind text)) []
  | .accessor m name => .node (.expr (.accessor m name)) []
  | .call m name typeArgs args => .node (.expr (.call m name typeArgs args)) (ofExprs args)
  | .new m type args => .node (.expr (.new m type args)) (ofExprs args)
  | .malloc m type => .node (.expr (.malloc m type)) []
  | .sizeofType m type => .node (.expr (.sizeofType m type)) []
  | .sizeofValue m x => .node (.expr (.sizeofValue m x)) [ofExpr x]
  | .tuple m members => .node (.expr (.tuple m members)) (ofExprs members)
  | .group m x => .node (.expr (.group m x)) [ofExpr x]
  | .cast m type x => .node (.expr (.cast m type x)) [ofExpr x]
  | .unary m op x => .node (.expr (.unary m op x)) [ofExpr x]
  | .binary m op x y => .node (.expr (.binary m op x y)) [ofExpr x, ofExpr y]
  | .refAccess m name => .node (.expr (.refAccess m name)) []
  | .derefAccess m name => .node (.expr (.derefAccess m name)) []
  | .index m x i => .node (.expr (.index m x i)) [ofExpr x, ofExpr i]
  | .arrayLiteral m elems => .node (.expr (.arrayLiteral m elems)) (ofExprs elems)
  | .arrayAlloc m elem size => .node (.expr (.arrayAlloc m elem size)) [ofExpr size]
  | .selection m c x y => .node (.expr (.selection m c x y)) [ofExpr c, ofExpr x, ofExpr y]

def ofExprs : List Expr → List Outline
  | [] => []
  | e :: es => ofExpr e :: ofExprs es

end

mutual

def ofStmt : Stmt → Outline
  | .expr m x => .node (.stmt (.expr m x)) [ofExpr x]
  | .declare m type name => .node (.stmt (.declare m type name)) []
  | .define m type name value => .node (.stmt (.define m type name value)) [ofExpr value]
  | .immutable m name value => .node (.stmt (.immutable m name value)) [ofExpr value]
  | .mutable m type name value =>
    .node (.stmt (.mutable m type name value)) (value.toList.map ofExpr)
  | .reference m name value => .node (.stmt (.reference m name value)) [ofExpr value]
  | .destructure m names value => .node (.stmt (.destructure m names value)) [ofExpr value]
  | .assign m name value => .node (.stmt (.assign m name value)) [ofExpr value]
  | .fieldAssign m target value => .node (.stmt (.fieldAssign m target value)) [ofExpr value]
  | .indexAssign m target x i value =>
    .node (.stmt (.indexAssign m target x i value))
      [.node (.element target) [ofExpr x, ofExpr i], ofExpr value]
  | .branch m cond body rest =>
    .node (.stmt (.branch m cond body rest)) (ofExpr cond :: (ofStmts body ++ ofOtherwise rest))
  | .loop m cond body => .node (.stmt (.loop m cond body)) (ofExpr cond :: ofStmts body)
  | .ret m value => .node (.stmt (.ret m value)) (value.toList.map ofExpr)
  | .free m name => .node (.stmt (.free m name)) []

def ofStmts : List Stmt → List Outline
  | [] => []
  | s :: ss => ofStmt s :: ofStmts ss

/-- The outline of what follows a first branch, if there is anything. -/
def ofOtherwise : Otherwise → List Outline
  | .none => []
  | .elseIf m cond body rest =>
    [.node (.elseIf m) (ofExpr cond :: (ofStmts body ++ ofOtherwise rest))]
  | .final m body => [.node (.final m) (ofStmts body)]

end

def ofMember (m : Member) : Outline :=
  match m with
  | .modifierBlock .. | .modifierList .. => .node (.member m) []
  | .field f => .node (.member m) (f.entries.filterMap fun e => e.value.map ofExpr)
  | .method b => .node (.member m) (ofStmts b.body)

def ofDecl (d : Decl) : Outline :=
  match d with
  | .classDecl c => .node (.decl d) (c.members.map ofMember)
  | .method m => .node (.decl d) (ofStmts m.body)
  | _ => .node (.decl d) []

mutual

def nodes (parent : Option Node) : Outline → List (Node × Option Node)
  | .node n children => (n, parent) :: nodesOfAll (some n) children

/-- The nodes of several outlines with a common parent. -/
def nodesOfAll (parent : Option Node) : List Outline → List (Node × Option Node)
  | [] => []
  | o :: os => nodes parent o ++ nodesOfAll parent os

end

mutual

/-- The lines that show an outline, one node a line, indented by depth. -/
def lines (depth : Nat) : Outline → List String
  | .node n children =>
    ("".pushn ' ' (2 * depth) ++ n.describe ++ " " ++ n.pos.render)
      :: linesOfAll (depth + 1) children

def linesOfAll (depth : Nat) : List Outline → List String
  | [] => []
  | o :: os => lines depth o ++ linesOfAll depth os

end

def render (o : Outline) : String :=
  String.join ((o.lines 0).map (· ++ "\n"))

end Outline

end SsaCompiler
