import SsaCompiler.Proofs.Lowering.Scene
import SsaCompiler.Proofs.Ssa.OperandTypes

/-!
# Layout of types

All integers in the machine type of a source type have a width that registers know, since they come
from primitive types. If a type cannot be laid out, this has nothing to do with blocks and variables.
-/

namespace SsaCompiler

/-! ## Types -/

theorem Primitive.machineType_standard (p : Primitive) : p.machineType.Standard := by
  cases p <;> rfl

namespace Layout

variable {env : Env} {structOf : StructOf}

theorem standard_behind {t : Ssa.Ty} (ht : t.Standard) : ∀ n, (behind n t).Standard
  | 0 => ht
  | n + 1 => Ssa.Ty.standard_pointer.mpr (standard_behind ht n)

theorem standard_arrayAddress {t : Ssa.Ty} (ht : t.Standard) (d : Dimension) :
    (arrayAddress d t).Standard := by
  unfold arrayAddress
  split <;> exact Ssa.Ty.standard_pointer.mpr ht

section

variable (hstruct : ∀ c, Computes (structOf c) Ssa.Ty.Standard)

include hstruct

theorem named_standard (s : Scalar) : Computes (named env structOf s) Ssa.Ty.Standard := by
  unfold named
  split
  next p _ _ => exact .pure p.machineType_standard
  next =>
    split
    · exact (hstruct _).bind fun t ht => .pure (Ssa.Ty.standard_pointer.mpr ht)
    · exact .throw ⟨rfl, fun _ => rfl⟩

theorem stored_standard (s : Scalar) : ∀ ds, Computes (stored env structOf s ds) Ssa.Ty.Standard
  | [] => by
    exact (named_standard hstruct s).bind fun t ht => .pure (standard_behind ht _)
  | d :: ds => by
    unfold stored
    split
    · split
      · exact (stored_standard s ds).bind fun t ht => .pure ht
      · exact .throw ⟨rfl, fun _ => rfl⟩
    · exact (stored_standard s ds).bind fun t ht =>
        .pure (standard_behind (standard_arrayAddress ht d) _)

theorem scalar_standard (s : Scalar) : Computes (scalar env structOf s) Ssa.Ty.Standard := by
  unfold scalar
  split
  · exact (named_standard hstruct s).bind fun t ht => .pure (standard_behind ht _)
  · exact (stored_standard hstruct s _).bind fun t ht =>
      .pure (standard_behind (standard_arrayAddress ht _) _)

end

mutual

theorem value_standard (hstruct : ∀ c, Computes (structOf c) Ssa.Ty.Standard) :
    ∀ t, Computes (value env structOf t) Ssa.Ty.Standard
  | .scalar s => by
    exact scalar_standard hstruct s
  | .namedScalar s _ => by
    exact scalar_standard hstruct s
  | .tuple ref members => by
    exact (values_standard hstruct members).bind fun ts hts =>
      .pure (standard_behind (Ssa.Ty.standard_pointer.mpr (Ssa.Ty.standard_struct.mpr hts)) _)
  | .namedGroup ref members => by
    exact (values_standard hstruct members).bind fun ts hts =>
      .pure (standard_behind (Ssa.Ty.standard_pointer.mpr (Ssa.Ty.standard_struct.mpr hts)) _)
  | .lambda _ _ => by
    exact .throw ⟨rfl, fun _ => rfl⟩
  | .namedLambda _ _ _ => by
    exact .throw ⟨rfl, fun _ => rfl⟩

theorem values_standard (hstruct : ∀ c, Computes (structOf c) Ssa.Ty.Standard) :
    ∀ ts, Computes (values env structOf ts) fun us => ∀ u ∈ us, u.Standard
  | [] => by
    exact .pure fun u hu => absurd hu List.not_mem_nil
  | t :: ts => by
    exact (value_standard hstruct t).bind fun u hu =>
      (values_standard hstruct ts).bind fun us hus => .pure (List.forall_mem_cons.mpr ⟨hu, hus⟩)

end

/-- The fields of a class are laid out before the class. -/
theorem struct_standard (env : Env) :
    ∀ fuel active c, Computes (struct env fuel active c) Ssa.Ty.Standard
  | 0, _, _ => by
    exact .throw trivial
  | fuel + 1, active, c => by
    unfold struct
    dsimp only
    split
    · exact .throw trivial
    · refine (Computes.mapM _ fun f _ =>
        stored_standard (fun c => struct_standard env fuel _ c) _ _).bind fun ts hts => ?_
      exact .pure (Ssa.Ty.standard_struct.mpr hts.2)

end Layout

namespace Env

variable (env : Env)

instance classStruct_standard (c : ClassAt) : Computes (env.classStruct c) Ssa.Ty.Standard :=
  Layout.struct_standard env _ _ c

instance machineType_standard (t : Ty) : Computes (env.machineType t) Ssa.Ty.Standard :=
  Layout.value_standard env.classStruct_standard t

instance exprType_standard (t : Core.ExprTy) : Computes (env.exprType t) Ssa.Ty.Standard :=
  env.machineType_standard t.type

instance storageType_standard (s : Scalar) : Computes (env.storageType s) Ssa.Ty.Standard :=
  Layout.stored_standard env.classStruct_standard s _

instance tupleStruct_standard (members : List Ty) :
    Computes (env.tupleStruct members) Ssa.Ty.Standard :=
  (Layout.values_standard env.classStruct_standard members).bind fun _ hts =>
    .pure (Ssa.Ty.standard_struct.mpr hts)

instance sizeType_standard (t : Ty) : Computes (env.sizeType t) Ssa.Ty.Standard := by
  unfold sizeType
  split
  · exact env.classStruct_standard _
  split
  · split
    · exact env.tupleStruct_standard _
    · exact env.machineType_standard _
  · exact env.storageType_standard _
  · exact env.machineType_standard _

end Env

/-- The type of the function of a method has as many parameters as the method. -/
theorem Lowering.signature_standard (env : Env) (owner : Owner) (m : Method) :
    Computes (signature env owner m) fun t =>
      t.Standard ∧ t.params.length = m.params.length := by
  refine (Computes.mapM _ fun t _ => env.machineType_standard _).bind fun ps hps => ?_
  have hlen : ps.length = m.params.length := hps.1.trans (List.length_map ..)
  dsimp only
  split
  · exact .pure ⟨Ssa.Ty.standard_func.mpr ⟨rfl, hps.2⟩, hlen⟩
  · exact (env.machineType_standard _).bind fun r hr =>
      .pure ⟨Ssa.Ty.standard_func.mpr ⟨hr, hps.2⟩, hlen⟩

end SsaCompiler
