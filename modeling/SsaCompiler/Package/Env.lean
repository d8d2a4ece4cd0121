import SsaCompiler.Package.Basic
import SsaCompiler.Text.EditDistance
import SsaCompiler.Text.Quoted

/-!
# What a unit sees

A unit sees its own package, the packages that it uses, whose names it writes as they are, and the
packages that it imports, whose names it writes behind the name of the package. Names are looked up
in its own package first.
-/

namespace SsaCompiler

/-- Where a declaration comes from. -/
inductive Owner where
  | own
  | linked (name : String)
  deriving DecidableEq, Repr

structure ClassAt where
  owner : Owner
  cls : ClassDef

/-- The packages that a unit sees. -/
structure Env where
  own : Package
  imported : List Package := []
  used : List Package := []

structure MethodLookup where
  owner : Owner
  package : Package
  key : String
  found : Option MethodDef

namespace Env

variable (env : Env)

def imported? (name : String) : Option Package :=
  env.imported.find? fun p => p.name == name

def addImport (p : Package) : Env :=
  { env with own := { env.own with imports := env.own.imports ++ [p.name] },
             imported := p :: env.imported }

def addUsing (p : Package) : Env :=
  { env with own := { env.own with usings := env.own.usings ++ [p.name] },
             used := env.used ++ [p] }

/-! ## Looking names up -/

/-- The first used package that has an overload for given types. -/
def usedMethod? (key : String) (args : List Ty) : List Package → Option (Package × MethodDef)
  | [] => none
  | p :: ps =>
    match p.resolveMethod key args with
    | some m => some (p, m)
    | none => usedMethod? key args ps

/-- Looks a method of a single word up. If no overload fits, the package is one that has overloads
of the word, if there is any. -/
def lookupPlain (key : String) (args : List Ty) : MethodLookup :=
  match env.own.resolveMethod key args with
  | some m => ⟨.own, env.own, key, some m⟩
  | none =>
    match usedMethod? key args env.used with
    | some (p, m) => ⟨.linked p.name, p, key, some m⟩
    | none =>
      let other :=
        if (env.own.overloads key).isEmpty then
          env.used.find? fun p => !(p.overloads key).isEmpty
        else none
      match other with
      | some p => ⟨.linked p.name, p, key, none⟩
      | none => ⟨.own, env.own, key, none⟩

/-- Looks a method up for given argument types. Names of two words lead to an imported package or to
a class of the unit, names of three words to a class of an imported package. -/
def lookupMethod (name : QualName) (args : List Ty) : Option MethodLookup :=
  match name.segments with
  | [w] => some (env.lookupPlain w args)
  | [p, w] =>
    match env.imported? p with
    | some imp => some ⟨.linked imp.name, imp, w, imp.resolveQualified w args⟩
    | none => some ⟨.own, env.own, name.render, env.own.resolveMethod name.render args⟩
  | [p, c, w] =>
    (env.imported? p).map fun imp =>
      let key := c ++ "." ++ w
      ⟨.linked imp.name, imp, key, imp.resolveQualified key args⟩
  | _ => none

def usedClass? (name : String) : List Package → Option ClassAt
  | [] => none
  | p :: ps =>
    match p.class? name with
    | some c => some ⟨.linked p.name, c⟩
    | none => usedClass? name ps

def class? (env : Env) (name : QualName) : Option ClassAt :=
  match name.segments with
  | [w] =>
    match env.own.class? w with
    | some c => some ⟨.own, c⟩
    | none => usedClass? w env.used
  | [p, w] =>
    (env.imported? p).bind fun imp => (imp.class? w).map fun c => ⟨.linked imp.name, c⟩
  | _ => none

def classCount : Nat :=
  (env.own :: env.imported ++ env.used).foldl (fun n p => n + p.classes.length) 0

/-! ## Types of other packages -/

/-- The package that declarations of an owner have to be qualified with: an imported one that is not
also used. -/
def qualifying? : Owner → Option Package
  | .own => none
  | .linked name =>
    if env.used.any fun p => p.name == name then none else env.imported? name

/-- A type of a declaration of an owner, as the unit writes it. -/
def typeFrom (owner : Owner) (t : Ty) : Ty :=
  (env.qualifying? owner).elim t fun p => p.qualify t

/-- A scalar of a declaration of an owner, as the unit writes it. -/
def scalarFrom (owner : Owner) (s : Scalar) : Scalar :=
  (env.qualifying? owner).elim s fun p => p.qualifyScalar s

/-! ## Suggestions -/

def methodNames : List String :=
  let names (p : Package) : List String := p.methods.map Overloads.key
  names env.own ++ env.used.flatMap names
    ++ env.imported.flatMap fun p => (names p).map fun n => p.name ++ "." ++ n

/-- Every class name of a single word that the unit can write. -/
def classNames : List String :=
  (env.own :: env.used).flatMap fun p => p.classes.map ClassDef.name

end Env

/-- The suggestion at the end of a message about a name, or nothing. -/
def didYouMean (name : String) (candidates : List String) : String :=
  match Text.suggest name candidates with
  | some s => " (did you mean " ++ Text.quote s ++ "?)"
  | none => ""

end SsaCompiler
