import SsaCompiler.Proofs.Lowering.Bodies
import SsaCompiler.Proofs.Typing.Integral
import SsaCompiler.Proofs.Unit.PlainUnits

/-!
# Integral units

A unit without imports, external methods and floating-point types is integral. Every method of it
gets a function with a body.
-/

namespace SsaCompiler

open List
open Ssa (FuncRef Module)

variable {m : Method}

/-! ## Integral units -/

/-- Whether a method has a body, and no floating-point type or literal is written in it. -/
def Method.isIntegral (m : Method) : Bool :=
  !Typing.isExternal m && m.result.isFloatFree && m.params.all (fun p => p.type.isFloatFree)
    && Stmt.allFloatFree m.body

/-- Whether a member of a class has no floating-point types and is no external method. -/
def Member.isIntegral : Member → Bool
  | .field f => f.type.name.isFloatFree && f.entries.all fun e => e.value.all Expr.isFloatFree
  | .method m => m.isIntegral
  | .modifierBlock .. | .modifierList .. => true

/-- Whether a declaration imports nothing, has no floating-point types and is no external method. -/
def Decl.isIntegral : Decl → Bool
  | .importing .. | .using .. => false
  | .classDecl c => c.members.all Member.isIntegral
  | .method m => m.isIntegral
  | .package .. | .modifierBlock .. | .modifierList .. => true

namespace SourceUnit

/-- A unit without imports, external methods and floating-point types. Its methods are different
nodes. -/
structure IsIntegral (u : SourceUnit) : Prop where
  decls : ∀ d ∈ u.decls, d.isIntegral
  nodes : (u.allMethods.map fun m => m.mark.id).Nodup

/-- A method of a unit. -/
def Owns (u : SourceUnit) (f : MethodDef) : Prop :=
  ∃ m ∈ u.allMethods, f = ⟨u.number, m⟩

variable {u : SourceUnit}

theorem IsIntegral.of_read {number : Nat} {file : String} {source : List Char}
    (hread : SourceUnit.read number file source = .ok u) (h : ∀ d ∈ u.decls, d.isIntegral) :
    u.IsIntegral :=
  ⟨h, SourceUnit.nodup_methodIds_of_read hread⟩

theorem eq_of_same (hnodes : (u.allMethods.map fun m => m.mark.id).Nodup) {f g : MethodDef}
    (hf : u.Owns f) (hg : u.Owns g) (hsame : f.same g) : f = g := by
  obtain ⟨m, hm, rfl⟩ := hf
  obtain ⟨m', hm', rfl⟩ := hg
  have hid : m.mark.id = m'.mark.id := by simpa [MethodDef.same] using hsame
  rw [inj_on_of_nodup_map hnodes hm hm' hid]

theorem mem_allMethods {d : Decl} (hd : d ∈ u.decls) (hm : m ∈ d.methods) : m ∈ u.allMethods :=
  mem_flatMap.mpr ⟨d, hd, hm⟩

end SourceUnit

theorem Package.classes_defineMethod (p : Package) (key : String) (f : MethodDef) :
    (p.defineMethod key f).classes = p.classes := by
  unfold defineMethod
  split <;> rfl

theorem Method.isExternal_of_isIntegral (h : m.isIntegral) : Typing.isExternal m = false := by
  simp only [isIntegral, Bool.and_eq_true, Bool.not_eq_true'] at h
  exact h.1.1.1

theorem Decl.isIntegral_of_mem {d : Decl} (h : d.isIntegral) (hm : m ∈ d.methods) :
    m.isIntegral := by
  cases d with
  | method m' =>
    rw [mem_singleton.mp hm]
    exact h
  | classDecl c =>
    obtain ⟨x, hx, hxm⟩ := mem_filterMap.mp hm
    have hmember := all_eq_true.mp h x hx
    cases x <;> simp_all [Member.method?, Member.isIntegral]
  | _ => exact absurd hm not_mem_nil

namespace SourceUnit

variable {u : SourceUnit}

theorem IsIntegral.method (hu : u.IsIntegral) (hm : m ∈ u.allMethods) : m.isIntegral := by
  obtain ⟨d, hd, hmd⟩ := mem_flatMap.mp hm
  exact Decl.isIntegral_of_mem (hu.decls d hd) hmd

/-- The types of results and parameters are integral. -/
theorem IsIntegral.head (hu : u.IsIntegral) (hm : m ∈ u.allMethods) :
    m.result.unnamed.Integral ∧ ∀ p ∈ m.params, p.type.Integral := by
  have hint := hu.method hm
  simp only [Method.isIntegral, Bool.and_eq_true, all_eq_true] at hint
  refine ⟨?_, fun p hp => Ty.integral_iff.mpr (hint.1.2 p hp)⟩
  unfold Ty.Integral
  rw [Ty.names_unnamed]
  exact Ty.integral_iff.mpr hint.1.1.2

end SourceUnit

theorem ClassDef.exists_of_mem_fields {n : Nat} {c : ClassDecl} {f : FieldDef}
    (h : f ∈ (ClassDef.ofDecl n c).fields) : ∃ d : Field, Member.field d ∈ c.members ∧
      f.type = d.type ∧ ∃ e ∈ d.entries, f.value = e.value := by
  unfold ClassDef.ofDecl at h
  dsimp only at h
  rw [← map_uncurry_zip_eq_zipWith] at h
  obtain ⟨⟨⟨type, e⟩, i⟩, hmem, rfl⟩ := mem_map.mp h
  have hentry := (of_mem_zip hmem).1
  obtain ⟨member, hmember, hentry⟩ := mem_flatMap.mp hentry
  cases member with
  | field d =>
    obtain ⟨e', he', heq⟩ := mem_map.mp hentry
    cases heq
    exact ⟨d, hmember, rfl, e, he', rfl⟩
  | _ => exact absurd hentry not_mem_nil

theorem ClassDef.isFloatFree_of_mem_fields {n : Nat} {c : ClassDecl} {f : FieldDef}
    (hc : (Decl.classDecl c).isIntegral) (h : f ∈ (ClassDef.ofDecl n c).fields) :
    f.type.name.isFloatFree ∧ ∀ e ∈ f.value, e.isFloatFree := by
  obtain ⟨d, hd, htype, e, he, hvalue⟩ := ClassDef.exists_of_mem_fields h
  have hmember := all_eq_true.mp hc _ hd
  simp only [Member.isIntegral, Bool.and_eq_true, all_eq_true, Option.all_eq_true] at hmember
  rw [htype, hvalue]
  exact ⟨hmember.1, hmember.2 e he⟩

/-! ## Functions -/

namespace Lowering

variable {env : Env} {s t : LoweringState} {g : FuncRef}

/-- Methods are given their functions: all functions have bodies, and values for all parameters. -/
structure Giving (s : LoweringState) : Prop where
  sound : Sound s.functions s
  bodies : ∀ f < s.module.funcs.size, (s.module.func f).entry.isSome
  params : Holds s.module (paramItems s.functions)

theorem giving_start (name : String) : Giving { builder := { module := { name := name } } } where
  sound := {
    functions := rfl
    lowered := {
      value := fun v hv => absurd hv (Nat.not_lt_zero v)
      control := fun b a ha => absurd ha not_mem_nil
      home := fun b hb => absurd hb (Nat.not_lt_zero b)
      entry := fun f e he => nomatch he
      param := fun f v hv => absurd hv not_mem_nil
      sig := fun f => by
        rw [Module.func_of_size_le (Nat.zero_le f)]
        decide
      text := fun g hg => absurd hg (Array.not_mem_empty g)
      declared := fun f hf => absurd hf (Nat.not_lt_zero f) }
    current := fun b hb => nomatch hb
    texts := forall_mem_nil _
    storage := forall_mem_nil _
    bodies := forall_mem_nil _ }
  bodies := fun f hf => absurd hf (Nat.not_lt_zero f)
  params := holds_nil

theorem Giving.function (h : Giving s) {key : String} {m : MethodDef}
    (hext : Typing.isExternal m.method = false) (hr : Runs (function .own key m) env s g t) :
    Giving t := by
  cases hfind : s.functions.find? fun d => d.method.same m with
  | some d =>
    simp only [Lowering.function, runs_bind, runs_get] at hr
    obtain ⟨_, _, ⟨rfl, rfl⟩, hr⟩ := hr
    rw [hfind] at hr
    obtain ⟨-, rfl⟩ := runs_pure.mp hr
    exact h
  | none =>
    obtain ⟨sig, M, hsig, hM, rfl⟩ := runs_function_new hfind hext hr
    obtain ⟨hstandard, hlength⟩ := (signature_standard env .own m.method).result _ hsig
    obtain ⟨-, rfl, vs, hfill⟩ := Module.filling_defineFunction? h.bodies hM
    have hnone : ∀ f < s.module.funcs.size, (s.module.func f).isDeclaration →
        (s.module.func f).name ≠ env.own.linkName key m := by
      intro f hf hdecl
      have hbody := h.bodies f hf
      rw [Ssa.Func.isDeclaration, Option.isNone_iff_eq_none] at hdecl
      rw [hdecl] at hbody
      cases hbody
    obtain ⟨hlowered, hkeeps, hbody, hparams⟩ :=
      h.sound.lowered.defineFunction? hstandard hnone hM
    have hsound := h.sound.withModule hlowered hkeeps
    refine ⟨?_, fun f hf => ?_, ?_⟩
    · exact { hsound with
        functions := rfl
        bodies := forall_mem_append.mpr
          ⟨hsound.bodies, forall_mem_singleton.mpr hbody⟩ }
    · have hf : f < M.funcs.size := hf
      rcases Nat.lt_or_ge f s.module.funcs.size with hlt | hge
      · exact (hfill.func f hlt).entry ▸ h.bodies f hlt
      · obtain rfl : f = s.module.funcs.size := by
          rw [hfill.funcs] at hf
          omega
        exact hfill.added.entry ▸ rfl
    · have hitems : paramItems (s.functions ++ [⟨m, s.module.funcs.size, true⟩]) =
          paramItems s.functions ++ [.params s.module.funcs.size m.method.params.length] := by
        simp [paramItems]
      have hold := h.params.keeps h.sound.lowered hkeeps
      refine hitems ▸ hold.append (holds_singleton ⟨hbody.1, ?_⟩)
      exact Nat.le_of_eq (hparams.trans hlength).symm

end Lowering

end SsaCompiler
