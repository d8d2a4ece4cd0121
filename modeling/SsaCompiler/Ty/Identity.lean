import SsaCompiler.Ty.Basic

/-!
# Identity of types

Two types are identical when they agree in shape, names, type arguments and dimensions. Qualifiers
never take part, nor do binding names and the question whether a name was written as a type word: a
reference to an `int` is identical to an `int`, and a named result to an unnamed one.
-/

namespace SsaCompiler.Ty

mutual

def identical : Ty → Ty → Bool
  | .scalar s, .scalar t => identicalScalars s t
  | .scalar s, .namedScalar t _ => identicalScalars s t
  | .namedScalar s _, .scalar t => identicalScalars s t
  | .namedScalar s _, .namedScalar t _ => identicalScalars s t
  | .tuple _ xs, .tuple _ ys => identicalAll xs ys
  | .tuple _ xs, .namedGroup _ ys => identicalAll xs ys
  | .namedGroup _ xs, .tuple _ ys => identicalAll xs ys
  | .namedGroup _ xs, .namedGroup _ ys => identicalAll xs ys
  | .lambda r ps, .lambda s qs => identical r s && identicalParams ps qs
  | .lambda r ps, .namedLambda s qs _ => identical r s && identicalParams ps qs
  | .namedLambda r ps _, .lambda s qs => identical r s && identicalParams ps qs
  | .namedLambda r ps _, .namedLambda s qs _ => identical r s && identicalParams ps qs
  | _, _ => false

def identicalAll : List Ty → List Ty → Bool
  | [], [] => true
  | t :: ts, u :: us => identical t u && identicalAll ts us
  | _, _ => false

def identicalScalars : Scalar → Scalar → Bool
  | .mk _ n none ds, .mk _ m none es => n.segments == m.segments && ds == es
  | .mk _ n (some as) ds, .mk _ m (some bs) es =>
    n.segments == m.segments && identicalArgs as bs && ds == es
  | _, _ => false

def identicalArg : TypeArg → TypeArg → Bool
  | .mk none none, .mk none none => true
  | .mk none (some as), .mk none (some bs) => identicalArgs as bs
  | .mk (some t) none, .mk (some u) none => identical t u
  | .mk (some t) (some as), .mk (some u) (some bs) => identical t u && identicalArgs as bs
  | _, _ => false

def identicalArgs : List TypeArg → List TypeArg → Bool
  | [], [] => true
  | a :: as, b :: bs => identicalArg a b && identicalArgs as bs
  | _, _ => false

def identicalParam : LambdaParam → LambdaParam → Bool
  | .mk _ t v _, .mk _ u w _ => v == w && identical t u

def identicalParams : List LambdaParam → List LambdaParam → Bool
  | [], [] => true
  | p :: ps, q :: qs => identicalParam p q && identicalParams ps qs
  | _, _ => false

end

end SsaCompiler.Ty
