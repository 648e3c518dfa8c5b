import Abacus.Demo
import Abacus.Proofs.Expr.Rules

/-!
# The normal form of a tree

Steps may be taken in many orders and at overlapping places, as in `0 * 1` or `0 + 0`. They all lead
to one tree, because a step does not change what a well-formed tree simplifies to, and what a tree
simplifies to is reached by steps and admits none.
-/

namespace Abacus.Expr

open Answer

/-- A tree with a hole in the place of one of its subtrees. -/
inductive Context where
  | hole
  | left (op : String) (inner : Context) (r : Expr)
  | right (op : String) (l : Expr) (inner : Context)

def Context.plug : Context → Expr → Expr
  | .hole, e => e
  | .left op inner r, e => .binary op (inner.plug e) r
  | .right op l inner, e => .binary op l (inner.plug e)

theorem Rule.simplify_eq {o : Operator} {l r e : Expr} (h : Rule o l r e) (hl : l.WellFormed)
    (hr : r.WellFormed) : e.simplify = (binary o.symbol l r).simplify := by
  obtain ⟨l', hl'⟩ := exists_simplify hl
  obtain ⟨r', hr'⟩ := exists_simplify hr
  rw [simplify_symbol, hl', hr', ok_bind, ok_bind, pure_eq_ok]
  cases h with
  | zeroAdd =>
    cases hl'
    rw [hr', simplifyRoot, simplifySum_zero_left]
  | addZero =>
    cases hr'
    rw [hl', simplifyRoot, simplifySum_zero_right]
  | sum a b =>
    cases hl'
    cases hr'
    rw [simplify, simplifyRoot, simplifySum_literals]
  | product a b =>
    cases hl'
    cases hr'
    rw [simplify, simplifyRoot, simplifyProduct_literals]
  | zeroMul =>
    cases hl'
    rw [simplify, simplifyRoot, simplifyProduct_zero_left]
  | mulZero =>
    cases hr'
    rw [simplify, simplifyRoot, simplifyProduct_zero_right]
  | oneMul =>
    cases hl'
    rw [hr', simplifyRoot, simplifyProduct_one_left]
  | mulOne =>
    cases hr'
    rw [hl', simplifyRoot, simplifyProduct_one_right]

theorem Step.simplify_eq {e f : Expr} (h : Step e f) (he : e.WellFormed) :
    f.simplify = e.simplify := by
  induction h with
  | root h =>
    obtain ⟨hl, hr⟩ := wellFormed_symbol_iff.1 he
    exact h.simplify_eq hl hr
  | left h ih => rw [simplify, simplify, ih he.2.1]
  | right h ih => rw [simplify, simplify, ih he.2.2]

theorem Steps.simplify_eq {e f : Expr} (h : Steps e f) (he : e.WellFormed) :
    f.simplify = e.simplify := by
  induction h with
  | refl => rfl
  | tail steps step ih => rw [step.simplify_eq (Steps.wellFormed steps he), ih]

theorem Steps.eq_of_irreducible {e f : Expr} (h : Steps e f) (he : Irreducible e) : e = f := by
  rcases h.cases_head with heq | ⟨g, hstep, -⟩
  · exact heq
  · exact absurd hstep (he g)

theorem simplify_of_irreducible {e : Expr} (he : e.WellFormed) (hi : Irreducible e) :
    e.simplify = .ok e := by
  obtain ⟨s, hs⟩ := exists_simplify he
  have heq : e = s := (steps_simplify hs).eq_of_irreducible hi
  rw [hs, ← heq]

/-! ## Subtrees -/

theorem Context.wellFormed_of_plug {e : Expr} (c : Context) (h : (c.plug e).WellFormed) :
    e.WellFormed := by
  induction c with
  | hole => exact h
  | left op inner r ih => exact ih h.2.1
  | right op l inner ih => exact ih h.2.2

theorem Context.irreducible_of_plug {e : Expr} (c : Context) (h : Irreducible (c.plug e)) :
    Irreducible e := by
  induction c with
  | hole => exact h
  | left op inner r ih => exact ih fun f hf => h _ (.left hf)
  | right op l inner ih => exact ih fun f hf => h _ (.right hf)

/-- Only what a subtree simplifies to matters to the tree around it. -/
theorem Context.simplify_plug_congr {e f : Expr} (c : Context) (h : e.simplify = f.simplify) :
    (c.plug e).simplify = (c.plug f).simplify := by
  induction c with
  | hole => exact h
  | left op inner r ih => rw [plug, plug, simplify, simplify, ih]
  | right op l inner ih => rw [plug, plug, simplify, simplify, ih]

/-- Without variables all operations can be carried out. -/
theorem eq_literal_of_irreducible {e : Expr} (he : e.WellFormed) (hi : Irreducible e)
    (hv : e.vars = []) : ∃ v, e = .literal v := by
  induction e, he using wellFormed_induction with
  | literal v => exact ⟨v, rfl⟩
  | var x => cases hv
  | binary o l r hl hr ihl ihr =>
    obtain ⟨hvl, hvr⟩ := List.append_eq_nil_iff.1 hv
    obtain ⟨a, rfl⟩ := ihl (fun f hf => hi _ (.left hf)) hvl
    obtain ⟨b, rfl⟩ := ihr (fun f hf => hi _ (.right hf)) hvr
    cases o with
    | plus => exact absurd (.root (.sum a b)) (hi _)
    | times => exact absurd (.root (.product a b)) (hi _)

theorem vars_ne_nil_of_irreducible {op : String} {l r : Expr}
    (he : (binary op l r).WellFormed) (hi : Irreducible (.binary op l r)) :
    l.vars ≠ [] ∨ r.vars ≠ [] := by
  by_contra h
  obtain ⟨hl, hr⟩ := not_or.1 h
  have hv : (binary op l r).vars = [] := by
    rw [vars, not_ne_iff.1 hl, not_ne_iff.1 hr, List.nil_append]
  obtain ⟨v, hv⟩ := eq_literal_of_irreducible he hi hv
  cases hv

/-- Whatever steps are taken from a well-formed tree, they can be continued to one and the same
tree, which admits no further step. -/
theorem simplify_normal_form (e : Expr) (he : e.WellFormed) :
    ∃ s, e.simplify = .ok s ∧ Steps e s ∧ Irreducible s ∧
      (∀ t, Steps e t → t.simplify = .ok s) ∧
      s.simplify = .ok s ∧
      (∀ t, Steps e t → Irreducible t → t = s) ∧
      (∀ (c : Context) (t : Expr), c.plug t = e →
        ∃ t', t.simplify = .ok t' ∧ (c.plug t').simplify = .ok s) ∧
      (∀ (c : Context) (op : String) (l r : Expr), c.plug (.binary op l r) = s →
        l.vars ≠ [] ∨ r.vars ≠ []) := by
  obtain ⟨s, hs⟩ := exists_simplify he
  have reached : Steps e s := steps_simplify hs
  have irreducible : Irreducible s := irreducible_simplify hs
  have wellFormed : s.WellFormed := reached.wellFormed he
  have same : ∀ t, Steps e t → t.simplify = .ok s := fun t ht => (ht.simplify_eq he).trans hs
  refine ⟨s, hs, reached, irreducible, same, same s reached, ?_, ?_, ?_⟩
  · intro t ht hi
    have h : t.simplify = .ok t := simplify_of_irreducible (ht.wellFormed he) hi
    rw [same t ht, Except.ok.injEq] at h
    exact h.symm
  · rintro c t rfl
    obtain ⟨t', ht'⟩ := exists_simplify (c.wellFormed_of_plug he)
    have again : t'.simplify = t.simplify :=
      (steps_simplify ht').simplify_eq (wellFormed_of_simplify ht')
    exact ⟨t', ht', (c.simplify_plug_congr again).trans hs⟩
  · rintro c op l r rfl
    exact vars_ne_nil_of_irreducible (c.wellFormed_of_plug wellFormed)
      (c.irreducible_of_plug irreducible)

/-- `(x * x + 0) * 1 + (2 * 3) * y` becomes `x * x + 6 * y`, whatever is done first. -/
theorem simplify_normal_form_polynomial :
    Demo.polynomial.WellFormed ∧
      ∃ s, s = .add (.mul (.var "x") (.var "x")) (.mul (.literal 6) (.var "y")) ∧
        Steps Demo.polynomial s ∧ Irreducible s ∧
        (∀ t, Steps Demo.polynomial t → t.simplify = .ok s) ∧
        (∀ t, Steps Demo.polynomial t → Irreducible t → t = s) := by
  have he : Demo.polynomial.WellFormed := by decide
  obtain ⟨s, hs, reached, irreducible, same, -, unique, -⟩ :=
    simplify_normal_form Demo.polynomial he
  refine ⟨he, s, ?_, reached, irreducible, same, unique⟩
  cases hs
  rfl

end Abacus.Expr
