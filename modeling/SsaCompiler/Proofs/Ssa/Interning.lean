import Mathlib.Data.List.Basic
import SsaCompiler.Ssa.Context
import Std.Data.String.ToInt

/-!
# Types of a context

The written form of a type can be read from its end: the last character tells the kind of the type, a
number goes back to the mark in front of it, and a list to its bracket. So different types are written
in different ways, and a context that looks for a written form finds the type itself.
-/

namespace SsaCompiler.Ssa

open List

namespace Ty

/-! ## Written forms, read from the end -/

/-- An item of a list, read from its end; without a type it stands for further arguments. -/
def back : Option Ty → List Char
  | none => ['.', '.', '.']
  | some t => t.render.toList.reverse

/-- The items of a list, the last one first. -/
def backItems (xs : List (Option Ty)) : List Char :=
  [' ', ','].intercalate (xs.map back)

/-- The items in the parentheses of a function type, the last one first. -/
def paramItems (ps : List Ty) (variadic : Bool) : List (Option Ty) :=
  (if variadic then [none] else []) ++ (ps.map some).reverse

theorem backItems_cons (x : Option Ty) (xs : List (Option Ty)) :
    backItems (x :: xs) = back x ++ if xs = [] then [] else ' ' :: ',' :: backItems xs := by
  cases xs <;> simp [backItems]

theorem intercalate_concat (sep x : List Char) : ∀ xs : List (List Char),
    sep.intercalate (xs ++ [x]) = sep.intercalate xs ++ (if xs = [] then [] else sep) ++ x
  | [] => by simp
  | [y] => by simp
  | y :: z :: xs => by
    have ih := intercalate_concat sep x (z :: xs)
    simp_all [intercalate_cons_cons]

theorem reverse_intercalate (sep : List Char) (xs : List (List Char)) :
    (sep.intercalate xs).reverse = sep.reverse.intercalate (xs.map List.reverse).reverse := by
  induction xs with
  | nil => simp
  | cons x xs ih =>
    rw [map_cons, reverse_cons, intercalate_concat, ← ih]
    cases xs <;> simp

theorem reverse_renderAll (ts : List Ty) :
    (renderAll ts).map (List.reverse ∘ String.toList) = ts.map (back ∘ some) := by
  induction ts with
  | nil => rfl
  | cons t ts ih => simp [renderAll, back, ih]

theorem back_int (n : Nat) : back (some (.int n)) = (Nat.toDigits 10 n).reverse ++ ['i'] := by
  simp [back, render]

theorem back_pointer (t : Ty) : back (some (.pointer t)) = '*' :: back (some t) := by
  simp [back, render]

theorem back_array (n : Int) (t : Ty) : back (some (.array n t)) =
    ']' :: (back (some t) ++ ' ' :: 'x' :: ' ' :: (n.repr.toList.reverse ++ ['['])) := by
  simp [back, render]

theorem back_struct (t : Ty) (ts : List Ty) : back (some (.struct (t :: ts))) =
    '\x7d' :: ' ' :: (backItems ((t :: ts).map some).reverse ++ [' ', '\x7b']) := by
  simp [back, render, backItems, reverse_intercalate, reverse_renderAll]

theorem back_func (r : Ty) (ps : List Ty) (variadic : Bool) : back (some (.func r ps variadic)) =
    ')' :: (backItems (paramItems ps variadic) ++ '(' :: ' ' :: back (some r)) := by
  cases variadic <;>
    simp [back, render, backItems, paramItems, reverse_intercalate, reverse_renderAll]

/-! ## The last character -/

/-- What the last character of an item tells. -/
def codeOf (c : Char) : Nat :=
  if c.isDigit then 1
  else match c with
  | 'd' => 0
  | 't' => 2
  | 'e' => 3
  | '*' => 4
  | ']' => 5
  | '\x7d' => 6
  | ')' => 7
  | '.' => 8
  | _ => 9

def itemCode : Option Ty → Nat
  | none => 8
  | some t => t.ctorIdx

variable {u v : List Char} {x y : Option Ty} {s t : Ty} {c : Char}

theorem back_cons (x : Option Ty) : ∃ c w, back x = c :: w ∧ codeOf c = itemCode x := by
  rcases x with _ | t
  · exact ⟨_, _, rfl, rfl⟩
  · cases t with
    | void | float | double => exact ⟨_, _, rfl, rfl⟩
    | int n =>
      cases hdigits : (Nat.toDigits 10 n).reverse with
      | nil => exact absurd (reverse_eq_nil_iff.mp hdigits) Nat.toDigits_ne_nil
      | cons c w =>
        have hmem : c ∈ Nat.toDigits 10 n := mem_reverse.mp (by simp [hdigits])
        have hdigit := Nat.isDigit_of_mem_toDigits (by decide) (by decide) hmem
        exact ⟨c, w ++ ['i'], by rw [back_int, hdigits]; rfl, if_pos hdigit⟩
    | pointer t => exact ⟨_, _, back_pointer t, rfl⟩
    | array n t => exact ⟨_, _, back_array n t, rfl⟩
    | struct ts =>
      cases ts with
      | nil => exact ⟨_, _, rfl, rfl⟩
      | cons t ts => exact ⟨_, _, back_struct t ts, rfl⟩
    | func r ps variadic => exact ⟨_, _, back_func r ps variadic, rfl⟩

theorem itemCode_eq (h : back x ++ u = c :: v) : itemCode x = codeOf c := by
  obtain ⟨d, w, hx, hd⟩ := back_cons x
  rw [hx] at h
  rw [← hd, (List.cons.inj h).1]

/-- An item is known by a text that begins with it. -/
def IsReadable (x : Option Ty) : Prop :=
  ∀ {y : Option Ty} {u v : List Char}, back x ++ u = back y ++ v → x = y ∧ u = v

theorem same_itemCode (h : back x ++ u = back y ++ v) : itemCode x = itemCode y := by
  obtain ⟨c, w, hy, hc⟩ := back_cons y
  rw [hy] at h
  exact (itemCode_eq h).trans hc

theorem isReadable_none : IsReadable none := by
  intro y u v h
  have hcode := same_itemCode h
  rcases y with _ | t
  · exact ⟨rfl, append_cancel_left h⟩
  · cases t <;> cases hcode

theorem isReadable_some (hs : ∀ {t u v}, s.ctorIdx = t.ctorIdx →
    back (some s) ++ u = back (some t) ++ v → s = t ∧ u = v) : IsReadable (some s) := by
  intro y u v h
  have hcode := same_itemCode h
  rcases y with _ | t
  · cases s <;> cases hcode
  · obtain ⟨rfl, hu⟩ := hs hcode h
    exact ⟨rfl, hu⟩

/-- A word is known by a text that begins with it and goes on with a mark. -/
theorem word_cancel {a b : List Char} (ha : c ∉ a) (hb : c ∉ b) (h : a ++ c :: u = b ++ c :: v) :
    a = b ∧ u = v := by
  induction a generalizing b with
  | nil => cases b <;> grind
  | cons d a ih => cases b <;> grind

theorem not_mem_repr (n : Int) (hc : c.isDigit = false) (hminus : c ≠ '-') :
    c ∉ n.repr.toList.reverse := by
  have hdigits (m : Nat) : c ∉ Nat.toDigits 10 m := by
    intro hmem
    exact absurd (Nat.isDigit_of_mem_toDigits (by decide) (by decide) hmem) (by simp [hc])
  cases n <;> simp [Int.repr, hminus, hdigits]

/-- A list is known by a text that begins with its items and goes on with a bracket. -/
theorem items_cancel (bracket : List Char) (hbracket : ∃ c w, bracket = c :: w ∧ codeOf c = 9)
    (hsep : ∀ w w', bracket ++ w ≠ ' ' :: ',' :: w') {xs ys : List (Option Ty)}
    (hxs : ∀ x ∈ xs, IsReadable x)
    (h : backItems xs ++ (bracket ++ u) = backItems ys ++ (bracket ++ v)) : xs = ys ∧ u = v := by
  have hitem {x w w'} : back x ++ w ≠ bracket ++ w' := by
    intro heq
    obtain ⟨c, b, rfl, hc⟩ := hbracket
    have hcode := (itemCode_eq heq).trans hc
    rcases x with _ | t
    · cases hcode
    · cases t <;> cases hcode
  induction xs generalizing ys with
  | nil =>
    cases ys with
    | nil => exact ⟨rfl, append_cancel_left h⟩
    | cons y ys =>
      rw [backItems_cons, append_assoc] at h
      exact absurd h.symm hitem
  | cons x xs ih =>
    cases ys with
    | nil =>
      rw [backItems_cons, append_assoc] at h
      exact absurd h hitem
    | cons y ys =>
      rw [backItems_cons, backItems_cons, append_assoc, append_assoc] at h
      obtain ⟨rfl, hrest⟩ := hxs x mem_cons_self h
      -- Behind an item stands a comma, or the bracket if the item is the first one.
      cases xs with
      | nil =>
        cases ys with
        | nil => exact ⟨rfl, append_cancel_left hrest⟩
        | cons y ys => exact absurd hrest (hsep _ _)
      | cons z xs =>
        cases ys with
        | nil => exact absurd hrest.symm (hsep _ _)
        | cons y ys =>
          obtain ⟨heq, hu⟩ := ih (fun w hw => hxs w (mem_cons_of_mem _ hw))
            (List.cons.inj (List.cons.inj hrest).2).2
          exact ⟨by rw [heq], hu⟩

theorem map_some_inj {ss ts : List Ty} (h : ss.map some = ts.map some) : ss = ts :=
  (map_inj_right fun _ _ => Option.some.inj).mp h

theorem paramItems_inj {ps qs : List Ty} {b d : Bool} (h : paramItems ps b = paramItems qs d) :
    ps = qs ∧ b = d := by
  have hmem := congrArg (none ∈ ·) h
  have hbd : b = d := by
    cases b <;> cases d <;> simp [paramItems] at hmem ⊢
  subst hbd
  exact ⟨map_some_inj (reverse_inj.mp (append_cancel_left h)), rfl⟩

mutual

theorem back_cancel : ∀ {s t : Ty} {u v : List Char}, s.ctorIdx = t.ctorIdx →
    back (some s) ++ u = back (some t) ++ v → s = t ∧ u = v
  | .void, .void, _, _, _, h | .float, .float, _, _, _, h | .double, .double, _, _, _, h
  | .struct [], .struct [], _, _, _, h => ⟨rfl, append_cancel_left h⟩
  | .int m, .int n, _, _, _, h => by
    have hword (k : Nat) : 'i' ∉ (Nat.toDigits 10 k).reverse := by
      simpa [Int.repr] using not_mem_repr (c := 'i') (.ofNat k) rfl (by decide)
    simp only [back_int, append_assoc] at h
    obtain ⟨heq, hu⟩ := word_cancel (hword m) (hword n) h
    rw [reverse_inj, ← Nat.toList_repr, ← Nat.toList_repr] at heq
    exact ⟨by rw [Nat.repr_inj.mp (String.toList_inj.mp heq)], hu⟩
  | .pointer s, .pointer t, _, _, _, h => by
    rw [back_pointer, back_pointer] at h
    obtain ⟨heq, hu⟩ := isReadable_some (s := s) back_cancel (List.cons.inj h).2
    exact ⟨by rw [Option.some.inj heq], hu⟩
  | .array m s, .array n t, _, _, _, h => by
    simp only [back_array, cons_append, append_assoc] at h
    obtain ⟨heq, hrest⟩ := isReadable_some (s := s) back_cancel (List.cons.inj h).2
    have hword (k : Int) : '[' ∉ k.repr.toList.reverse := not_mem_repr k rfl (by decide)
    simp only [List.cons.injEq, true_and] at hrest
    obtain ⟨hlen, hu⟩ := word_cancel (hword m) (hword n) hrest
    rw [reverse_inj, String.toList_inj, Int.repr_inj] at hlen
    exact ⟨by rw [Option.some.inj heq, hlen], hu⟩
  | .struct [], .struct (t :: ts), _, _, _, h => by
    rw [back_struct] at h
    exact absurd (List.cons.inj (List.cons.inj h).2).1 (by decide)
  | .struct (s :: ss), .struct [], _, _, _, h => by
    rw [back_struct] at h
    exact absurd (List.cons.inj (List.cons.inj h).2).1 (by decide)
  | .struct (s :: ss), .struct (t :: ts), _, _, _, h => by
    simp only [back_struct, cons_append, append_assoc, List.cons.injEq, true_and] at h
    obtain ⟨heq, hu⟩ := items_cancel [' ', '\x7b'] ⟨_, _, rfl, rfl⟩ (by simp)
      (fun x hx => isReadable_all (s :: ss) x (mem_reverse.mp hx)) h
    exact ⟨by rw [map_some_inj (reverse_inj.mp heq)], hu⟩
  | .func r ps b, .func s qs d, _, _, _, h => by
    simp only [back_func, cons_append, append_assoc, List.cons.injEq, true_and] at h
    obtain ⟨hitems, hrest⟩ := items_cancel ['(', ' '] ⟨_, _, rfl, rfl⟩ (by simp)
      (isReadable_params ps b) h
    obtain ⟨heq, hu⟩ := isReadable_some (s := r) back_cancel hrest
    obtain ⟨rfl, rfl⟩ := paramItems_inj hitems
    exact ⟨by rw [Option.some.inj heq], hu⟩

theorem isReadable_params (ps : List Ty) (b : Bool) : ∀ x ∈ paramItems ps b, IsReadable x := by
  intro x hx
  rcases mem_append.mp hx with hx | hx
  · cases b with
    | false => cases hx
    | true => exact mem_singleton.mp hx ▸ isReadable_none
  · exact isReadable_all ps x (mem_reverse.mp hx)

theorem isReadable_all : ∀ ts : List Ty, ∀ x ∈ ts.map some, IsReadable x
  | [], _, h => nomatch h
  | t :: ts, x, h => by
    rcases mem_cons.mp h with heq | h
    · exact heq ▸ isReadable_some (s := t) back_cancel
    · exact isReadable_all ts x h

end

/-- The written form of a type determines it. -/
theorem render_inj : s.render = t.render ↔ s = t := by
  refine ⟨fun h => ?_, fun h => h ▸ rfl⟩
  have hback : back (some s) ++ [] = back (some t) ++ [] := by simp [back, h]
  exact Option.some.inj (isReadable_some back_cancel hback).1

end Ty

/-! ## Contexts -/

namespace Context

/-- A context that looks for a written form finds the type itself. -/
theorem intern_eq (c : Context) (t : Ty) : c.intern t =
    (c.types.idxOf t, if t ∈ c.types then c else ⟨c.types ++ [t]⟩) := by
  have hfind : c.types.findIdx (·.render == t.render) = c.types.idxOf t := by
    congr 1
    funext s
    rw [Bool.eq_iff_iff, beq_iff_eq, beq_iff_eq, Ty.render_inj]
  simp only [intern, hfind, idxOf_lt_length_iff]

theorem intern_spec (c : Context) (t : Ty) : c.types <+: (c.intern t).2.types ∧
    t ∈ (c.intern t).2.types ∧ (c.intern t).1 = (c.intern t).2.types.idxOf t := by
  rw [intern_eq]
  by_cases ht : t ∈ c.types
  · simp [ht]
  · simp [ht, idxOf_append]

/-- All types that have been asked for keep their places. -/
theorem internAll_spec (c : Context) (ts : List Ty) : c.types <+: (c.internAll ts).2.types ∧
    (∀ t ∈ ts, t ∈ (c.internAll ts).2.types) ∧
      (c.internAll ts).1 = ts.map fun t => (c.internAll ts).2.types.idxOf t := by
  induction ts generalizing c with
  | nil => exact ⟨prefix_rfl, by simp, rfl⟩
  | cons t ts ih =>
    obtain ⟨hnext, ht, hplace⟩ := c.intern_spec t
    obtain ⟨hlast, hts, hplaces⟩ := ih (c.intern t).2
    refine ⟨hnext.trans hlast, forall_mem_cons.mpr ⟨hlast.subset ht, hts⟩, ?_⟩
    obtain ⟨more, hmore⟩ := hlast
    have hkeep : (c.internAll (t :: ts)).2.types.idxOf t = (c.intern t).1 := by
      rw [hplace, ← idxOf_append_of_mem ht, hmore]
      rfl
    rw [map_cons, hkeep]
    exact congrArg ((c.intern t).1 :: ·) hplaces

/-- Types that are asked for one after the other are the same exactly if they have the same
structure. -/
theorem internAll_exact (ts : List Ty) : ∃ place : Ty → Nat,
    (({} : Context).internAll ts).1 = ts.map place ∧
      (∀ s ∈ ts, ∀ t ∈ ts, place s = place t ↔ s = t) ∧
      ∀ s t : Ty, s.render = t.render ↔ s = t := by
  obtain ⟨-, hmem, hplaces⟩ := ({} : Context).internAll_spec ts
  exact ⟨_, hplaces, fun s hs t _ => idxOf_inj (hmem s hs), fun _ _ => Ty.render_inj⟩

end Context

end SsaCompiler.Ssa
