import SsaCompiler.Ssa.Ty

/-!
# Contexts of types

The types of a unit are made in a context, which keeps one of each. A type that is asked for again is
found by its written form, so two types of a context are the same if they stand at the same place.
-/

namespace SsaCompiler.Ssa

/-- The types that have been made, in order. -/
structure Context where
  types : List Ty := [.void]

namespace Context

/-- The place of a type, which is made if there is none with its written form. -/
def intern (c : Context) (t : Ty) : Nat × Context :=
  let place := c.types.findIdx (·.render == t.render)
  (place, if place < c.types.length then c else ⟨c.types ++ [t]⟩)

/-- The places of types that are asked for one after the other. -/
def internAll (c : Context) : List Ty → List Nat × Context
  | [] => ([], c)
  | t :: ts =>
    let (place, next) := c.intern t
    let (places, last) := next.internAll ts
    (place :: places, last)

end Context

end SsaCompiler.Ssa
