import SsaCompiler.Tree.Precedence

/-!
# The grouping of operator chains

However the binary nodes of a chain are nested at first, `reassociate` gives the one tree over the same
operands and operators in which every operator of a left part binds before the operator behind it,
and no operator binds before one of its right part. Precedence climbing, which reads the chain once
from left to right, gives the same tree.

The operators of a grouped tree tell its root: of two operators that might be the root, the left one
would have to bind before the right one, and must not.
-/

namespace SsaCompiler

open List BinaryOp

namespace BinaryOp

variable {x y z : BinaryOp}

theorem bindsBefore_iff : x.bindsBefore y ↔
    y.precedence < x.precedence ∨ x.precedence = y.precedence ∧ x ≠ .pow := by
  simp [bindsBefore, isRightAssoc]

theorem bindsBefore_trans (hxy : x.bindsBefore y) (hyz : y.bindsBefore z) : x.bindsBefore z := by
  rw [bindsBefore_iff] at hxy hyz ⊢
  grind

/-- The least strength of the operators in the right part of an operator: as strong as itself for the
power operator, which groups to the right, and stronger for all others. -/
def strengthBehind (op : BinaryOp) : Nat :=
  if op = .pow then op.precedence else op.precedence + 1

theorem le_strengthBehind (op : BinaryOp) : op.precedence ≤ op.strengthBehind := by
  unfold strengthBehind
  grind

theorem not_bindsBefore_iff : ¬ x.bindsBefore y ↔ x.strengthBehind ≤ y.precedence := by
  rw [bindsBefore_iff]
  unfold strengthBehind
  grind

end BinaryOp

namespace Expr

/-- An operator with the mark of its node, and the operand behind it. -/
abbrev Link : Type := (Mark × BinaryOp) × Expr

/-- The first operand of a chain. -/
def first : Expr → Expr
  | .binary _ _ x _ => x.first
  | e => e

/-- The operators of a chain from left to right, each with the operand behind it. -/
def links : Expr → List Link
  | .binary m op x y => x.links ++ ((m, op), y.first) :: y.links
  | _ => []

/-- Every operator in front of `op` binds before it, and `op` binds before none of those behind it; and
so it is on both sides. -/
def Grouped : Expr → Prop
  | .binary _ op x y =>
    (∀ p ∈ x.links, p.1.2.bindsBefore op) ∧
      (∀ p ∈ y.links, ¬ op.bindsBefore p.1.2) ∧ x.Grouped ∧ y.Grouped
  | _ => True

/-- A tree of the operands and operators of a chain in their order, which is grouped. -/
structure Groups (e t : Expr) : Prop where
  first : t.first = e.first
  links : t.links = e.links
  grouped : t.Grouped

variable {x t u e : Expr} {m : Mark} {op : BinaryOp}

theorem links_eq_nil (h : ∀ m op x y, e = .binary m op x y → False) : e.links = [] := by
  cases e with
  | binary => exact (h _ _ _ _ rfl).elim
  | _ => rfl

theorem alone_of_nil (h : e.links = []) : e.first = e ∧ e.Grouped := by
  cases e with
  | binary => simp [links] at h
  | _ => exact ⟨rfl, trivial⟩

/-! ## Uniqueness -/

/-- The operators can be divided at one place only. -/
theorem eq_of_divides {X X' Y Y' : List Link} {p p' : Link} (heq : X ++ p :: Y = X' ++ p' :: Y')
    (hY : ∀ q ∈ Y, ¬ p.1.2.bindsBefore q.1.2) (hX' : ∀ q ∈ X', q.1.2.bindsBefore p'.1.2)
    (hle : X.length ≤ X'.length) : X = X' ∧ p = p' ∧ Y = Y' := by
  obtain ⟨Z, rfl⟩ := prefix_of_prefix_length_le (prefix_append X _)
    (heq ▸ prefix_append X' _) hle
  rw [append_assoc, append_cancel_left_eq] at heq
  cases Z with
  | nil =>
    obtain ⟨rfl, rfl⟩ := List.cons.inj heq
    exact ⟨(append_nil X).symm, rfl, rfl⟩
  | cons q Z =>
    -- the left one of two roots lies in the left part of the right one
    obtain ⟨rfl, rfl⟩ := List.cons.inj heq
    exact absurd (hX' p (by simp)) (hY p' (by simp))

theorem Grouped.unique (ht : t.Grouped) (hu : u.Grouped) (hfirst : t.first = u.first)
    (hlinks : t.links = u.links) : t = u := by
  fun_induction Grouped t generalizing u with
  | case1 m op x y ihx ihy =>
    cases u with
    | binary m' op' x' y' =>
      obtain ⟨hleft, hright, hx, hy⟩ := ht
      obtain ⟨hleft', hright', hx', hy'⟩ := hu
      obtain ⟨hlx, hroot, hly⟩ : x.links = x'.links ∧ ((m, op), y.first) = ((m', op'), y'.first) ∧
          y.links = y'.links := by
        rcases Nat.le_total x.links.length x'.links.length with hle | hle
        · exact eq_of_divides hlinks hright hleft' hle
        · obtain ⟨h₁, h₂, h₃⟩ := eq_of_divides hlinks.symm hright' hleft hle
          exact ⟨h₁.symm, h₂.symm, h₃.symm⟩
      obtain ⟨hop, hfy⟩ := Prod.mk.inj hroot
      cases hop
      rw [ihx hx hx' hfirst hlx, ihy hy hy' hfy hly]
    | _ => simp [links] at hlinks
  | case2 t h =>
    have hnil := links_eq_nil h
    rwa [(alone_of_nil hnil).1, (alone_of_nil (hlinks ▸ hnil)).1] at hfirst

/-! ## Building from the right -/

/-- An operand sinks to where the operator behind it is in place. -/
theorem groups_attach (hx : x.links = []) (ht : t.Grouped) :
    Groups (.binary m op x t) (attach x m op t) := by
  have hgx := (alone_of_nil hx).2
  fun_induction attach x m op t with
  | case1 n p l r h ih =>
    obtain ⟨hl, hr, hgl, hgr⟩ := ht
    obtain ⟨hfirst, hlinks, hg⟩ := ih hgl
    refine ⟨hfirst, by simp [links, hlinks, first], fun q hq => ?_, hr, hg, hgr⟩
    rw [hlinks, links, hx, nil_append, mem_cons] at hq
    rcases hq with rfl | hq
    · exact h
    · exact hl q hq
  | case2 n p l r h =>
    -- nothing in a tree is weaker than its root
    have hstrong : ∀ q ∈ (binary n p l r).links, p.precedence ≤ q.1.2.precedence := by
      obtain ⟨hl, hr, -, -⟩ := ht
      intro q hq
      rcases mem_append.mp hq with hq | hq
      · have := bindsBefore_iff.mp (hl q hq)
        omega
      rcases mem_cons.mp hq with rfl | hq
      · exact Nat.le_refl _
      · exact Nat.le_of_not_lt fun hlt => hr q hq (bindsBefore_iff.mpr (.inl hlt))
    refine ⟨rfl, rfl, by simp [hx], fun q hq => ?_, hgx, ht⟩
    exact not_bindsBefore_iff.mpr
      (Nat.le_trans (not_bindsBefore_iff.mp h) (hstrong q hq))
  | case3 t h => exact ⟨rfl, rfl, by simp [hx], by simp [links_eq_nil h], hgx, ht⟩

theorem groups_chainOnto (e : Expr) (m : Mark) (op : BinaryOp) (c : Chain) (hc : c.tree.Grouped) :
    Groups (.binary m op e c.tree) (e.chainOnto ((m, op), c)).tree := by
  fun_induction links e generalizing m op c with
  | case1 n p x y ihx ihy =>
    have hy := ihy m op c hc
    have hx := ihx n p _ hy.grouped
    refine ⟨hx.first, hx.links.trans ?_, hx.grouped⟩
    simp [links, hy.first, hy.links, first]
  | case2 e h =>
    have htree : (e.chainOnto ((m, op), c)).tree = attach e m op c.tree := by
      cases e with
      | binary => exact (h _ _ _ _ rfl).elim
      | _ => rfl
    exact htree ▸ groups_attach (links_eq_nil h) hc

theorem groups_reassociate (e : Expr) : Groups e e.reassociate := by
  unfold reassociate
  fun_induction links e with
  | case1 m op x y _ ihy =>
    have h := groups_chainOnto x m op y.chain ihy.grouped
    exact ⟨h.first, h.links.trans (by rw [links, links, ihy.first, ihy.links]), h.grouped⟩
  | case2 e h =>
    have hchain : e.chain = ⟨[], e⟩ := by
      cases e with
      | binary => exact (h _ _ _ _ rfl).elim
      | _ => rfl
    rw [hchain]
    exact ⟨rfl, rfl, (alone_of_nil (links_eq_nil h)).2⟩

/-! ## Precedence climbing -/

/-- Precedence climbing. Behind the operand `x`, operators are read that are at least of a given
strength, each with its right part; the rest is left. -/
def climb (least : Nat) (x : Expr) (ls : List Link) :
    { r : Expr × List Link // r.2.length ≤ ls.length } :=
  match ls with
  | [] => ⟨(x, []), Nat.le_refl _⟩
  | ((m, op), y) :: rest =>
    if op.precedence < least then
      ⟨(x, ((m, op), y) :: rest), Nat.le_refl _⟩
    else
      let right := climb op.strengthBehind y rest
      let whole := climb least (.binary m op x right.1.1) right.1.2
      ⟨whole.1, Nat.le_trans whole.2 (Nat.le_succ_of_le right.2)⟩
termination_by ls.length
decreasing_by
  · exact Nat.lt_succ_self _
  · exact Nat.lt_succ_of_le right.2

/-- What precedence climbing gives for an operand and the operators behind it: a grouped tree of
operators that are strong enough, in front of what is left. -/
structure Climbs (least : Nat) (x : Expr) (ls : List Link) (r : Expr × List Link) : Prop where
  first : r.1.first = x.first
  links : r.1.links ++ r.2 = x.links ++ ls
  grouped : r.1.Grouped
  strong : ∀ q ∈ r.1.links, least ≤ q.1.2.precedence
  stops : ∀ p ∈ r.2.head?, p.1.2.precedence < least

theorem climbs_climb (least : Nat) (x : Expr) (ls : List Link) (hx : x.Grouped)
    (hls : ∀ p ∈ ls, p.2.links = []) (hstrong : ∀ q ∈ x.links, least ≤ q.1.2.precedence)
    (hbefore : ∀ q ∈ x.links, ∀ p ∈ ls.head?, q.1.2.bindsBefore p.1.2) :
    Climbs least x ls (climb least x ls).1 := by
  fun_induction climb least x ls with
  | case1 least x => exact ⟨rfl, rfl, hx, hstrong, by simp⟩
  | case2 least x m op y rest hlt => exact ⟨rfl, rfl, hx, hstrong, by simpa using hlt⟩
  | case3 least x m op y rest hge right whole ihr ihw =>
    obtain ⟨hy, hrest⟩ := forall_mem_cons.mp hls
    have hr : Climbs op.strengthBehind y rest right.1 :=
      ihr (alone_of_nil hy).2 hrest (by simp [hy]) (by simp [hy])
    have hlinks : right.1.1.links ++ right.1.2 = rest := by simpa [hy] using hr.links
    have hxop : ∀ q ∈ x.links, q.1.2.bindsBefore op := fun q hq => hbefore q hq _ rfl
    have hright : ∀ q ∈ right.1.1.links, ¬ op.bindsBefore q.1.2 := fun q hq =>
      not_bindsBefore_iff.mpr (hr.strong q hq)
    -- what is left is weaker than the right part, and `op` binds before it
    have hnext : ∀ p ∈ right.1.2.head?, op.bindsBefore p.1.2 := fun p hp =>
      Classical.not_not.mp fun h =>
        Nat.not_le_of_lt (hr.stops p hp) (not_bindsBefore_iff.mp h)
    have hw : Climbs least (.binary m op x right.1.1) right.1.2 whole.1 := by
      refine ihw ⟨hxop, hright, hx, hr.grouped⟩ (fun p hp => ?_) (fun q hq => ?_) fun q hq p hp => ?_
      · exact hrest p (hlinks ▸ mem_append_right _ hp)
      · rcases mem_append.mp hq with hq | hq
        · exact hstrong q hq
        refine Nat.le_trans (Nat.le_of_not_lt hge) ?_
        rcases mem_cons.mp hq with rfl | hq
        · exact Nat.le_refl _
        · exact Nat.le_trans op.le_strengthBehind (hr.strong q hq)
      · rcases mem_append.mp hq with hq | hq
        · exact bindsBefore_trans (hxop q hq) (hnext p hp)
        rcases mem_cons.mp hq with rfl | hq
        · exact hnext p hp
        · have hlt := Nat.lt_of_lt_of_le (hr.stops p hp) (hr.strong q hq)
          exact bindsBefore_iff.mpr (.inl hlt)
    refine ⟨hw.first, hw.links.trans ?_, hw.grouped, hw.strong, hw.stops⟩
    simp [links, hlinks, hr.first, (alone_of_nil hy).1]

/-- The tree that precedence climbing gives for a chain. -/
def climbing (e : Expr) : Expr :=
  (climb 0 e.first e.links).1.1

theorem links_first (e : Expr) : e.first.links = [] := by
  fun_induction first e with
  | case1 m op x y ih => exact ih
  | case2 e h => exact links_eq_nil h

theorem links_of_mem {p : Link} (h : p ∈ e.links) : p.2.links = [] := by
  fun_induction links e with
  | case1 m op x y ihx ihy =>
    rcases mem_append.mp h with h | h
    · exact ihx h
    rcases mem_cons.mp h with rfl | h
    · exact links_first y
    · exact ihy h
  | case2 => cases h

theorem groups_climbing (e : Expr) : Groups e e.climbing := by
  have hnil := links_first e
  have hc := climbs_climb 0 e.first e.links (alone_of_nil hnil).2 (fun p => links_of_mem)
    (fun _ _ => Nat.zero_le _) (by simp [hnil])
  have hrest : (climb 0 e.first e.links).1.2 = [] := by
    cases hr : (climb 0 e.first e.links).1.2 with
    | nil => rfl
    | cons p rest => exact absurd (hc.stops p (by rw [hr]; rfl)) (Nat.not_lt_zero _)
  refine ⟨hc.first.trans (alone_of_nil hnil).1, ?_, hc.grouped⟩
  have := hc.links
  rwa [hrest, hnil, append_nil, nil_append] at this

/-- `reassociate` gives the one tree that has the operands and operators of the chain in their order and
is grouped, the tree of precedence climbing; so it leaves alone what it has made. -/
theorem reassociate_groups (e : Expr) : (∀ t : Expr, Groups e t ↔ t = e.reassociate) ∧
    e.climbing = e.reassociate ∧ e.reassociate.reassociate = e.reassociate := by
  have h := groups_reassociate e
  have hunique : ∀ t : Expr, Groups e t → t = e.reassociate := fun t ht =>
    ht.grouped.unique h.grouped (ht.first.trans h.first.symm) (ht.links.trans h.links.symm)
  refine ⟨fun t => ⟨hunique t, ?_⟩, hunique _ (groups_climbing e), hunique _ ?_⟩
  · rintro rfl
    exact h
  · have h' := groups_reassociate e.reassociate
    exact ⟨h'.first.trans h.first, h'.links.trans h.links, h'.grouped⟩

end Expr

end SsaCompiler
