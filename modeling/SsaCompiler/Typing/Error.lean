import SsaCompiler.Core.Basic
import SsaCompiler.Ssa.Builder
import SsaCompiler.Tree.Outline

/-!
# Compile errors

Everything that a unit can be refused for after parsing. An error says where it was found and what
its cause is; the class of the error and its message follow from the cause.

A compilation can also fail from within. That is no fault of the unit, and has no site.
-/

namespace SsaCompiler

open SsaCompiler.Core (ExprTy)

inductive ErrorKind where
  | unresolvedName | unresolvedType | unresolvedMethod | typeMismatch | notPointerOwner
  | notReference | notScalar | notMutable | indexOutOfBounds | invalidOperation
  deriving DecidableEq, Repr

namespace ErrorKind

/-- All classes in order; they are numbered from one. -/
def all : List ErrorKind := [
  .unresolvedName, .unresolvedType, .unresolvedMethod, .typeMismatch, .notPointerOwner,
  .notReference, .notScalar, .notMutable, .indexOutOfBounds, .invalidOperation]

def name : ErrorKind → String
  | .unresolvedName => "unresolved name"
  | .unresolvedType => "unresolved type"
  | .unresolvedMethod => "unresolved method"
  | .typeMismatch => "type mismatch"
  | .notPointerOwner => "not a pointer owner"
  | .notReference => "not a reference"
  | .notScalar => "not a scalar"
  | .notMutable => "not mutable"
  | .indexOutOfBounds => "index out of bounds"
  | .invalidOperation => "invalid operation"

/-- The name of the class with a given number, or the number itself. -/
def nameOfCode (n : Nat) : String :=
  match n with
  | 0 => "ErrorKind(0)"
  | i + 1 => (all[i]?).elim ("ErrorKind(" ++ toString n ++ ")") name

end ErrorKind

inductive Cause where
  -- Packages.
  | packageNotFound (name : String) (known : List String)
  -- Classes.
  | genericClass (name : String)
  | primitiveClass (name : String)
  | classRedeclared (name : String)
  | fieldRedeclared (field cls : String)
  | voidField (field : String)
  | unsizedField (field : String)
  | arrayFieldDefault (field : String)
  | recursiveLayout (cls : String)
  -- Methods.
  | methodRedeclared (name : String)
  | genericMethod (name : String)
  | externBody (name : String)
  | runtimeName (name : String)
  | variadicParam (name : BindingName)
  | voidParam (place : Nat) (method : String)
  | paramPattern (type : Ty) (names : List BindingName)
  | missingReturn (method : String)
  -- Types.
  | lambdaType
  | voidMember
  | genericType (type : Scalar)
  | unsizedInner (type : Scalar)
  | letType
  | undefinedPrimitive (name : QualName)
  | arrayOfVoid
  | undefinedType (name : QualName) (known : List String)
  -- Variables.
  | undefinedName (name : String) (known : List String)
  | redeclared (name : String)
  | voidLocal (name : String)
  | unsizedLocal (name : String)
  | sizeNotInteger (name : String) (type : ExprTy)
  | letWithoutValue (name : String)
  | mutWithoutValue (name : String)
  | nullInferred (name : String)
  | noValue (what : String)
  | patternCount (members : List Ty) (names : Nat)
  | patternMember (type : Ty) (names : List BindingName)
  | patternValue (type : ExprTy)
  -- References.
  | notReferable (what : String)
  | tupleReference (name : String) (type : ExprTy)
  | immutableReference (name : String)
  | noReference (name : String) (type : ExprTy)
  -- Stores.
  | mismatch (what : String) (want got : ExprTy)
  | immutableAssign (name : String)
  | arrayAssign (name : String)
  | arrayFieldAssign (name : String)
  | arrayElementAssign (type : ExprTy)
  | immutableElement (name : String)
  | missingValue (result : Ty)
  | extraValue
  | compositeFree (name : String) (type : ExprTy)
  | unownedFree (name : String)
  -- Fields.
  | fieldOfReference (name : String)
  | noFields (name : String) (type : ExprTy) (field : String)
  | noField (cls field : String) (known : List String)
  -- Expressions.
  | conditionType (what : String) (type : ExprTy)
  | strangeLiteral (token : Token)
  | overflow (text : String) (type : ExprTy)
  | notAllocatable (type : Scalar)
  | mallocSize
  | sizeofNothing (type : ExprTy)
  | sizeofUnsized (type : ExprTy)
  | tupleMember (what : String)
  | emptyArray
  | arrayElement (what : String)
  | arraySizeType (type : ExprTy)
  | negativeSize (n : Int)
  | selectionTypes (x y : ExprTy)
  | cellArguments (type : Scalar)
  | objectArguments (cls : String) (given want : Nat)
  | arrayFieldArgument (field : String)
  | castOperand (source : ExprTy) (target : Scalar)
  | redundantCast (what : String) (target : Scalar)
  | impossibleCast (source : ExprTy) (target : Scalar)
  | stepTarget (op : UnaryOp) (what : String)
  | stepImmutable (op : UnaryOp) (name : String)
  | unaryOperand (op : UnaryOp) (what : String) (type : ExprTy)
  | floatPower (x y : ExprTy)
  | unsupportedOperator (op : BinaryOp)
  | binaryOperands (op : BinaryOp) (x y : ExprTy)
  | notIndexable (what : String) (type : ExprTy)
  | indexType (type : ExprTy)
  | indexRange (index length : Int)
  -- Calls.
  | genericCall (name : QualName)
  | notPrintable (what : String)
  | noOverload (name : String) (args : List ExprTy)
  | undefinedPath (name : String)
  | undefinedMethod (name : String) (known : List String)
  | argumentDepth (place : Nat) (name : QualName) (arg : ExprTy) (param : Ty)

namespace Cause

def kind : Cause → ErrorKind
  | .packageNotFound .. | .undefinedName .. | .noField .. | .undefinedPath .. => .unresolvedName
  | .undefinedPrimitive .. | .undefinedType .. => .unresolvedType
  | .noOverload .. | .undefinedMethod .. => .unresolvedMethod
  | .paramPattern .. | .sizeNotInteger .. | .noValue .. | .patternCount .. | .patternMember ..
  | .patternValue .. | .mismatch .. | .missingValue .. | .extraValue | .conditionType ..
  | .tupleMember .. | .arraySizeType .. | .selectionTypes .. | .redundantCast ..
  | .binaryOperands .. | .indexType .. | .notPrintable .. => .typeMismatch
  | .notReferable .. | .unownedFree .. => .notPointerOwner
  | .noReference .. | .argumentDepth .. => .notReference
  | .tupleReference .. | .compositeFree .. | .fieldOfReference .. | .castOperand .. => .notScalar
  | .immutableReference .. | .immutableAssign .. | .immutableElement .. | .stepImmutable .. =>
    .notMutable
  | .indexRange .. => .indexOutOfBounds
  | _ => .invalidOperation

def message : Cause → String
  | .packageNotFound name known =>
    "package " ++ Text.quote name ++ " not found" ++ didYouMean name known
  | .genericClass name => "generic class " ++ name ++ " is not supported"
  | .primitiveClass name => "class " ++ name ++ " shadows a primitive type"
  | .classRedeclared name => "class " ++ name ++ " redeclared"
  | .fieldRedeclared field cls => "field " ++ field ++ " redeclared in class " ++ cls
  | .voidField field => "field " ++ field ++ " has type void"
  | .unsizedField field => "field " ++ field ++ " needs a constant array size"
  | .arrayFieldDefault field => "array field " ++ field ++ " cannot have a default value"
  | .recursiveLayout cls => "class " ++ cls ++ " has a recursive layout"
  | .methodRedeclared name => "method " ++ name ++ " redeclared with the same parameters"
  | .genericMethod name => "generic method " ++ name ++ " is not supported"
  | .externBody name => "extern method " ++ name ++ " cannot have a body"
  | .runtimeName name => "cannot define runtime function " ++ name
  | .variadicParam name => "variadic parameter " ++ name.render ++ " is not supported"
  | .voidParam place method =>
    "parameter " ++ toString place ++ " of " ++ method ++ " has type void"
  | .paramPattern type names =>
    "cannot destructure parameter of type " ++ type.render ++ " into "
      ++ (BindingName.group names).render
  | .missingReturn method => "missing return at end of " ++ method
  | .lambdaType => "lambda types are not supported"
  | .voidMember => "tuple member of type void"
  | .genericType type => "generic type " ++ type.render ++ " is not supported"
  | .unsizedInner type => "only the first dimension of " ++ type.render ++ " may be unsized"
  | .letType => "let is not a type"
  | .undefinedPrimitive name => "undefined type: " ++ name.render
  | .arrayOfVoid => "array of void"
  | .undefinedType name known => "undefined type: " ++ name.render ++ didYouMean name.render known
  | .undefinedName name known => "undefined: " ++ name ++ didYouMean name known
  | .redeclared name => name ++ " redeclared in this block"
  | .voidLocal name => "variable " ++ name ++ " has type void"
  | .unsizedLocal name => "array " ++ name ++ " needs a size"
  | .sizeNotInteger name type =>
    "array size " ++ name ++ " has type " ++ type.render ++ ", want an integer"
  | .letWithoutValue name => "missing initializer for let " ++ name
  | .mutWithoutValue name => "missing type or initializer for " ++ name
  | .nullInferred name => "cannot infer the type of " ++ name ++ " from null"
  | .noValue what => what ++ " has no value"
  | .patternCount members names =>
    "cannot destructure " ++ (Ty.tuple .none members).render ++ " into " ++ toString names
      ++ " names"
  | .patternMember type names =>
    "cannot destructure " ++ type.render ++ " into " ++ (BindingName.group names).render
  | .patternValue type => "cannot destructure value of type " ++ type.render
  | .notReferable what => "cannot reference " ++ what
  | .tupleReference name type => "cannot reference " ++ name ++ " of type " ++ type.render
  | .immutableReference name => "cannot reference immutable " ++ name
  | .noReference name type => "cannot dereference " ++ name ++ " of type " ++ type.render
  | .mismatch what want got =>
    "cannot use " ++ got.render ++ " as " ++ want.render ++ " in " ++ what
  | .immutableAssign name => "cannot assign to immutable " ++ name
  | .arrayAssign name => "cannot assign to array " ++ name
  | .arrayFieldAssign name => "cannot assign to array field " ++ name
  | .arrayElementAssign type => "cannot assign to array element of type " ++ type.render
  | .immutableElement name => "cannot assign to element of immutable " ++ name
  | .missingValue result => "missing return value, want " ++ result.render
  | .extraValue => "too many return values"
  | .compositeFree name type => "cannot free non-scalar " ++ name ++ " of type " ++ type.render
  | .unownedFree name => "cannot free " ++ name ++ ": it does not own heap memory"
  | .fieldOfReference name => "cannot select a field of reference " ++ name
  | .noFields name type field => name ++ " of type " ++ type.render ++ " has no field " ++ field
  | .noField cls field known =>
    "class " ++ cls ++ " has no field " ++ field ++ didYouMean field known
  | .conditionType what type =>
    "non-bool " ++ what ++ " (type " ++ type.render ++ ") used as condition"
  | .strangeLiteral token => "unexpected literal " ++ token.render
  | .overflow text type => "constant " ++ text ++ " overflows " ++ type.render
  | .notAllocatable type => "cannot allocate " ++ type.render
  | .mallocSize => "malloc needs a constant array size"
  | .sizeofNothing type => "sizeof " ++ type.render
  | .sizeofUnsized type => "sizeof unsized array " ++ type.render
  | .tupleMember what => what ++ " cannot be a tuple member"
  | .emptyArray => "empty array literal"
  | .arrayElement what => what ++ " cannot be an array element"
  | .arraySizeType type => "array size has type " ++ type.render ++ ", want an integer"
  | .negativeSize n => "negative array size " ++ toString n
  | .selectionTypes x y =>
    "mismatched types " ++ x.render ++ " and " ++ y.render ++ " in conditional expression"
  | .cellArguments type => "too many arguments to new " ++ type.render
  | .objectArguments cls given want =>
    "too many arguments to new " ++ cls ++ ": have " ++ toString given ++ ", want at most "
      ++ toString want
  | .arrayFieldArgument field => "cannot initialize array field " ++ field
  | .castOperand source target | .impossibleCast source target =>
    "cannot cast " ++ source.render ++ " to " ++ target.render
  | .redundantCast what target => "redundant cast of " ++ what ++ " to " ++ target.render
  | .stepTarget op what => "cannot apply " ++ op.text ++ " to " ++ what
  | .stepImmutable op name => "cannot apply " ++ op.text ++ " to immutable " ++ name
  | .unaryOperand op what type =>
    "operator " ++ op.text ++ " not defined on " ++ what ++ " (type " ++ type.render ++ ")"
  | .floatPower x y =>
    "operator ^ requires integer operands, have " ++ x.render ++ " and " ++ y.render
  | .unsupportedOperator op => "operator " ++ op.text ++ " is not supported"
  | .binaryOperands op x y =>
    "mismatched types " ++ x.render ++ " and " ++ y.render ++ " for operator " ++ op.text
  | .notIndexable what type => "cannot index " ++ what ++ " of type " ++ type.render
  | .indexType type => "array index has type " ++ type.render ++ ", want an integer"
  | .indexRange index length =>
    "index " ++ toString index ++ " out of bounds for array of length " ++ toString length
  | .genericCall name => "generic call of " ++ name.render ++ " is not supported"
  | .notPrintable what => "cannot print " ++ what
  | .noOverload name args =>
    "no overload of " ++ name ++ " matches (" ++ ", ".intercalate (args.map ExprTy.render) ++ ")"
  | .undefinedPath name => "undefined: " ++ name
  | .undefinedMethod name known => "undefined method: " ++ name ++ didYouMean name known
  | .argumentDepth place name arg param =>
    "argument " ++ toString place ++ " of " ++ name.render ++ ": cannot use " ++ arg.render
      ++ " as "
      ++ param.render

end Cause

/-- Where an error was found. -/
structure Site where
  kind : NodeKind
  pos : Pos
  deriving DecidableEq, Repr

def Expr.site (e : Expr) : Site :=
  ⟨Node.kindOfExpr e, e.pos⟩

def Method.site (m : Method) : Site :=
  ⟨.method, m.mark.pos⟩

def ClassDecl.site (c : ClassDecl) : Site :=
  ⟨.classDecl, c.mark.pos⟩

structure CompileError where
  site : Site
  cause : Cause

def CompileError.render (e : CompileError) : String :=
  e.site.pos.render ++ ": " ++ e.cause.message

/-! ## Failures -/

/-- A failure of the compilation itself. -/
inductive Defect where
  | misuse (e : Ssa.Misuse)
  | unresolvedClass (name : QualName)
  /-- An array without a size is to lie within an object. -/
  | unsizedStorage (s : Scalar)
  | noMachineType (t : Ty)
  | unbound (name : String)
  /-- The length of an array is read before the variable that holds it has storage. -/
  | unboundSize
  /-- An array has neither a size nor a variable that holds its length. -/
  | missingSize
  | boundTwice (name : String)
  | notScalar (name : String)
  /-- The address of an object is wanted from an expression that makes none. -/
  | noAddress
  /-- The value of an expression that has none is wanted. -/
  | noValue
  | noOperation (op : BinaryOp)
  /-- Default values make objects that need default values, without an end. -/
  | endlessDefaults
  | fallsOff (name : String)

def Defect.message : Defect → String
  | .misuse e => e.message
  | .unresolvedClass name => "compile: unresolved class " ++ name.render
  | .unsizedStorage s => "compile: inline storage of unsized array " ++ s.render
  | .noMachineType t => "compile: no backend type for " ++ t.render
  | .unbound name => "compile: variable " ++ name ++ " used before it is bound"
  | .unboundSize => "compile: array size used before it is bound"
  | .missingSize | .noValue =>
    "runtime error: invalid memory address or nil pointer dereference"
  | .boundTwice name => "compile: variable " ++ name ++ " bound twice"
  | .notScalar name => "compile: variable " ++ name ++ " has no scalar type"
  | .noAddress => "compile: no address"
  | .noOperation op => "compile: cannot lower operator " ++ op.text
  | .endlessDefaults => "compile: default values never end"
  | .fallsOff name => "compile: " ++ name ++ " falls off its end"

/-- Why a compilation ends without a result. -/
inductive Failure where
  | error (e : CompileError)
  | internal (d : Defect)

def Failure.at (site : Site) (cause : Cause) : Failure :=
  .error ⟨site, cause⟩

end SsaCompiler
