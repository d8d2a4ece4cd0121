import SsaCompiler.Tree.Basic
import SsaCompiler.Ty.Identity

/-!
# Packages

A package holds what a unit declares: methods with their overloads, and classes with their fields.
Overloads of one name are told apart by their parameter types, and a method of a class is found
under the name of the class and its own, joined with a dot.

A method is the same as another one when both come from the same place: the same node of the same
unit.
-/

namespace SsaCompiler

/-- A method with the unit that declares it. -/
structure MethodDef where
  unit : Nat
  method : Method

def MethodDef.same (x y : MethodDef) : Bool :=
  x.unit == y.unit && x.method.mark.id == y.method.mark.id

structure Overloads where
  key : String
  methods : List MethodDef

structure FieldDef where
  name : String
  type : Scalar
  value : Option Expr
  index : Nat

/-- A class with the unit that declares it. -/
structure ClassDef where
  unit : Nat
  decl : ClassDecl
  fields : List FieldDef

namespace ClassDef

def name (c : ClassDef) : String :=
  c.decl.name

def field? (c : ClassDef) (name : String) : Option FieldDef :=
  c.fields.find? fun f => f.name == name

/-- Fields without their places, from the members of a class. -/
def entries (members : List Member) : List (Scalar × FieldEntry) :=
  members.flatMap fun
    | .field f => f.entries.map fun e => (f.type, e)
    | _ => []

def ofDecl (unit : Nat) (c : ClassDecl) : ClassDef :=
  let found := entries c.members
  ⟨unit, c, found.zipWith (fun (t, e) i => ⟨e.name, t, e.value, i⟩) (List.range found.length)⟩

end ClassDef

structure Package where
  name : String
  imports : List String := []
  usings : List String := []
  /-- The methods by name, in the order in which the names were first declared. -/
  methods : List Overloads := []
  classes : List ClassDef := []

namespace Package

variable (p : Package) (key : String)

def mainName : String := "main"

/-! ## Methods -/

/-- The methods of a name in the order of their declaration. -/
def overloads : List MethodDef :=
  ((p.methods.find? fun o => o.key == key).map Overloads.methods).getD []

/-- Whether a method has already been defined under a name. -/
def defines (m : MethodDef) : Bool :=
  (p.overloads key).any m.same

/-- Adds a method behind the overloads of its name. -/
def insertMethod (key : String) (m : MethodDef) : List Overloads → List Overloads
  | [] => [⟨key, [m]⟩]
  | o :: os =>
    if o.key == key then { o with methods := o.methods ++ [m] } :: os
    else o :: insertMethod key m os

/-- Defines a method under a name, unless it has been defined. -/
def defineMethod (m : MethodDef) : Package :=
  if p.defines key m then p else { p with methods := insertMethod key m p.methods }

/-- The first overload whose parameter types are identical to the given types. -/
def resolveMethod (args : List Ty) : Option MethodDef :=
  (p.overloads key).find? fun m => Ty.identicalAll m.method.paramTypes args

/-- The name of the function that a method becomes. Outside of the main package the name of the
package comes first, and all overloads but the first get a number. -/
def linkName (m : MethodDef) : String :=
  let name := if p.name == mainName then key else p.name ++ "." ++ key
  match (p.overloads key).findIdx? m.same with
  | none | some 0 => name
  | some i => name ++ "." ++ toString i

/-! ## Classes -/

def class? (name : String) : Option ClassDef :=
  p.classes.find? fun c => c.name == name

/-- Declares a class. The flag is false if another class has its name; the package then stays as it
is. -/
def defineClass (unit : Nat) (c : ClassDecl) : Package × Bool :=
  match p.class? c.name with
  | some old => (p, old.unit == unit && old.decl.mark.id == c.mark.id)
  | none => ({ p with classes := p.classes ++ [.ofDecl unit c] }, true)

/-! ## The view from outside -/

/-- A scalar as an importing unit writes it: classes of the package carry its name. -/
def qualifyScalar (s : Scalar) : Scalar :=
  match s.name.segments with
  | [w] =>
    if s.name.isPrimitive || (p.class? w).isNone then s else s.withName ⟨[p.name, w], false⟩
  | _ => s

mutual

/-- A type as an importing unit writes it. Binding names are dropped. -/
def qualify (p : Package) : Ty → Ty
  | .scalar s => .scalar (p.qualifyScalar s)
  | .namedScalar s _ => .scalar (p.qualifyScalar s)
  | .tuple ref members => .tuple ref (p.qualifyAll members)
  | .namedGroup ref members => .tuple ref (p.qualifyAll members)
  | t => t

def qualifyAll (p : Package) : List Ty → List Ty
  | [] => []
  | t :: ts => p.qualify t :: p.qualifyAll ts

end

/-- The first overload whose parameter types, as an importing unit writes them, are identical to the
given types. -/
def resolveQualified (args : List Ty) : Option MethodDef :=
  (p.overloads key).find? fun m => Ty.identicalAll (m.method.paramTypes.map p.qualify) args

end Package

end SsaCompiler
