import Abacus.Proofs.Expr.Defect
import Abacus.Proofs.Expr.NormalForm
import Abacus.Proofs.Expr.Soundness

/-!
# The variables that simplification keeps

An occurrence of a variable is lost in one way only: together with a product that has a factor which
simplifies to zero. All other occurrences stay, in their order. Where none is left, all operations
could be carried out.
-/

namespace Abacus.Expr

open Answer

/-- Does the tree simplify to zero? -/
def vanishes (e : Expr) : Bool :=
  match e.simplify with
  | .ok s => s.isLiteral 0
  | .error _ => false

/-- The occurrences of variables from left to right, but for those in products with a factor that
simplifies to zero. -/
def kept : Expr → List String
  | .literal _ => []
  | .var x => [x]
  | .binary op l r =>
    if op = Operator.times.symbol ∧ (l.vanishes || r.vanishes) then [] else l.kept ++ r.kept
  | .foreign _ => []

theorem vanishes_iff {e : Expr} : e.vanishes = true ↔ e.simplify = .ok (.literal 0) := by
  unfold vanishes
  cases e.simplify <;> simp

theorem kept_add (l r : Expr) : (add l r).kept = l.kept ++ r.kept :=
  if_neg fun h => absurd h.1 (by decide)

theorem kept_mul_of_vanishes {l r : Expr} (h : (l.vanishes || r.vanishes) = true) :
    (mul l r).kept = [] :=
  if_pos ⟨rfl, h⟩

theorem kept_mul_of_not {l r : Expr} (h : ¬(l.vanishes || r.vanishes) = true) :
    (mul l r).kept = l.kept ++ r.kept :=
  if_neg fun hz => h hz.2

/-! ## What becomes of the occurrences -/

/-- Only a factor of zero makes the variables of the other operand disappear. -/
theorem Rule.vars_eq {o : Operator} {l r s : Expr} (h : Rule o l r s)
    (hz : o = .times → l ≠ .literal 0 ∧ r ≠ .literal 0) : s.vars = l.vars ++ r.vars := by
  cases h with
  | zeroAdd => rfl
  | addZero => exact (List.append_nil _).symm
  | sum a b => rfl
  | product a b => rfl
  | zeroMul => exact absurd rfl (hz rfl).1
  | mulZero => exact absurd rfl (hz rfl).2
  | oneMul => rfl
  | mulOne => exact (List.append_nil _).symm

theorem vars_simplifyRoot {o : Operator} {l r : Expr}
    (hz : o = .times → l ≠ .literal 0 ∧ r ≠ .literal 0) :
    (simplifyRoot o l r).vars = l.vars ++ r.vars := by
  rcases simplifyRoot_spec o l r with hrule | ⟨hstay, -⟩
  · exact hrule.vars_eq hz
  · rw [hstay, vars]

theorem simplifyProduct_of_zero {l r : Expr} (hz : l = .literal 0 ∨ r = .literal 0) :
    simplifyProduct l r = .literal 0 := by
  rcases hz with rfl | rfl
  · exact simplifyProduct_zero_left r
  · exact simplifyProduct_zero_right l

theorem vars_simplify {e s : Expr} (h : e.simplify = .ok s) : s.vars = e.kept := by
  induction e generalizing s with
  | literal v => cases h; rfl
  | var x => cases h; rfl
  | binary op l r ihl ihr =>
    obtain ⟨o, rfl, l', r', hl, hr, rfl⟩ := simplify_binary_eq_ok.1 h
    have hvanish : (l.vanishes || r.vanishes) = true ↔ l' = .literal 0 ∨ r' = .literal 0 := by
      rw [Bool.or_eq_true, vanishes_iff, vanishes_iff, hl, hr, Except.ok.injEq, Except.ok.injEq]
    cases o with
    | plus =>
      have hsum : (simplifyRoot .plus l' r').vars = l'.vars ++ r'.vars :=
        vars_simplifyRoot fun h => (nomatch h)
      rw [hsum, ihl hl, ihr hr, kept_add]
    | times =>
      by_cases hz : (l.vanishes || r.vanishes) = true
      · rw [kept_mul_of_vanishes hz, simplifyRoot, simplifyProduct_of_zero (hvanish.1 hz), vars]
      · have hproduct : (simplifyRoot .times l' r').vars = l'.vars ++ r'.vars :=
          vars_simplifyRoot fun _ => not_or.1 (mt hvanish.2 hz)
        rw [hproduct, ihl hl, ihr hr, kept_mul_of_not hz]
  | foreign it => cases h

/-! ## What is lost -/

theorem kept_sublist (e : Expr) : e.kept.Sublist e.vars := by
  induction e with
  | literal v => exact .slnil
  | var x => exact .refl _
  | binary op l r ihl ihr =>
    rw [kept, vars]
    split
    · exact List.nil_sublist _
    · exact ihl.append ihr
  | foreign it => exact .slnil

theorem kept_of_no_vars {e : Expr} (h : e.vars = []) : e.kept = [] :=
  List.sublist_nil.1 (h ▸ e.kept_sublist)

/-- A product that has variables and a factor that simplifies to zero. -/
def Loses (e : Expr) : Prop :=
  ∃ l r, e = mul l r ∧ (l.vanishes || r.vanishes) = true ∧ e.vars ≠ []

/-- Where a node keeps all occurrences, its operands do. -/
theorem kept_eq_of_binary {op : String} {l r : Expr}
    (h : (binary op l r).kept = (binary op l r).vars) : l.kept = l.vars ∧ r.kept = r.vars := by
  rw [kept, vars] at h
  split at h
  · obtain ⟨hl, hr⟩ := List.append_eq_nil_iff.1 h.symm
    exact ⟨(kept_of_no_vars hl).trans hl.symm, (kept_of_no_vars hr).trans hr.symm⟩
  · have hlength := congrArg List.length h
    rw [List.length_append, List.length_append] at hlength
    have hl : l.kept.length ≤ l.vars.length := l.kept_sublist.length_le
    have hr : r.kept.length ≤ r.vars.length := r.kept_sublist.length_le
    exact ⟨l.kept_sublist.eq_of_length (by omega), r.kept_sublist.eq_of_length (by omega)⟩

/-- Everything is kept unless some product loses what is in it. -/
theorem kept_eq_vars_iff {e : Expr} : e.kept = e.vars ↔ ∀ n ∈ e.nodes, ¬n.Loses := by
  constructor
  · intro h n hn hloses
    have hkept : n.kept = n.vars :=
      forall_mem_nodes (p := fun n => n.kept = n.vars) (fun _ _ _ => kept_eq_of_binary) h n hn
    obtain ⟨l, r, rfl, hz, hvars⟩ := hloses
    rw [kept_mul_of_vanishes hz] at hkept
    exact hvars hkept.symm
  · intro h
    induction e with
    | literal v => rfl
    | var x => rfl
    | binary op l r ihl ihr =>
      obtain ⟨hroot, hl, hr⟩ := forall_mem_nodes_binary.1 h
      by_cases hz : op = Operator.times.symbol ∧ (l.vanishes || r.vanishes) = true
      · obtain ⟨rfl, hz⟩ := hz
        rw [kept_mul_of_vanishes hz]
        by_contra hvars
        exact hroot ⟨l, r, rfl, hz, fun hnil => hvars hnil.symm⟩
      · rw [kept, if_neg hz, ihl hl, ihr hr, vars]
    | foreign it => rfl

/-! ## Trees that fold -/

/-- A simplified tree without variables is a literal, and no other is. -/
theorem eq_literal_iff_kept {e s : Expr} (h : e.simplify = .ok s) :
    (∃ v, s = .literal v) ↔ e.kept = [] := by
  rw [← vars_simplify h]
  constructor
  · rintro ⟨v, rfl⟩
    rfl
  · exact eq_literal_of_irreducible (wellFormed_simplified h) (irreducible_simplify h)

theorem eval_of_simplify_literal {env : Env} {e : Expr} {v : Int}
    (h : e.simplify = .ok (.literal v)) (hb : env.Binds e.vars) : e.eval env = .ok v :=
  eval_of_simplify h rfl (fun _ _ hx => hx) hb

/-- Simplification leaves the occurrences that are kept, in their order, and no others. It loses one
only with a product that has a factor which simplifies to zero, and it comes to a literal just where
it keeps none. -/
theorem simplify_keeps (e : Expr) (he : e.WellFormed) :
    ∃ s names, e.simplify = .ok s ∧ e.freeVariables = .ok names ∧
      s.occurrences = .ok e.kept ∧ e.kept.Sublist e.vars ∧
      (e.kept = e.vars ↔ ∀ n ∈ e.nodes, ¬n.Loses) ∧
      ((∃ v, s = .literal v) ↔ e.kept = []) ∧
      (∀ v, s = .literal v → ∀ env : Env, env.Binds names → e.eval env = .ok v) ∧
      (e.vars = [] → ∃ v, s = .literal v) := by
  obtain ⟨s, hs⟩ := exists_simplify he
  have hn := freeVariables_eq he.recognised
  have folds : (∃ v, s = .literal v) ↔ e.kept = [] := eq_literal_iff_kept hs
  refine ⟨s, _, hs, hn, ?_, e.kept_sublist, kept_eq_vars_iff, folds, ?_, ?_⟩
  · rw [← vars_simplify hs]
    exact occurrences_eq_vars (wellFormed_simplified hs).recognised
  · rintro v rfl env hb
    exact eval_of_simplify_literal hs ((binds_freeVariables_iff he.recognised hn).1 hb)
  · exact fun hvars => folds.2 (kept_of_no_vars hvars)

/-- Of `(x * 1) * (y + x) + (y * (2 + -2)) * z` the second product goes with all that is in it,
since its left factor folds to zero, though it has a variable. -/
theorem simplify_keeps_first_product :
    (add (.mul (.mul (.var "x") (.literal 1)) (.add (.var "y") (.var "x")))
      (.mul (.mul (.var "y") (.add (.literal 2) (.literal (-2)))) (.var "z"))).WellFormed ∧
    (∃ s, (add (.mul (.mul (.var "x") (.literal 1)) (.add (.var "y") (.var "x")))
        (.mul (.mul (.var "y") (.add (.literal 2) (.literal (-2)))) (.var "z"))).simplify = .ok s ∧
      s.occurrences = .ok ["x", "y", "x"] ∧ ¬∃ v, s = .literal v) ∧
    (mul (.var "y") (.add (.literal 2) (.literal (-2)))).WellFormed ∧
    ∃ v, (mul (.var "y") (.add (.literal 2) (.literal (-2)))).simplify = .ok (.literal v) ∧
      (mul (.var "y") (.add (.literal 2) (.literal (-2)))).eval ⟨[("y", 7)]⟩ = .ok v := by
  have he : (add (.mul (.mul (.var "x") (.literal 1)) (.add (.var "y") (.var "x")))
      (.mul (.mul (.var "y") (.add (.literal 2) (.literal (-2)))) (.var "z"))).WellFormed := by
    decide
  have hz : (mul (.var "y") (.add (.literal 2) (.literal (-2)))).WellFormed := by decide
  obtain ⟨s, -, hs, -, occurrences, -, -, folds, -⟩ := simplify_keeps _ he
  obtain ⟨u, names, hu, hn, -, -, -, foldsToZero, value, -⟩ := simplify_keeps _ hz
  refine ⟨he, ⟨s, hs, occurrences, fun h => ?_⟩, hz, ?_⟩
  · exact absurd (folds.1 h) (by decide)
  · obtain ⟨v, rfl⟩ := foldsToZero.2 rfl
    refine ⟨v, hu, value v rfl _ ((binds_freeVariables_iff hz.recognised hn).2 ?_)⟩
    exact List.forall_mem_singleton.2 ⟨7, rfl⟩

end Abacus.Expr
