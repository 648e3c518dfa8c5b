import Abacus.Expr.Eval
import Abacus.Proofs.Env
import Abacus.Proofs.Expr.Shape

/-!
# Values of trees, and which trees can be printed

Only a well-formed tree has a value. It has one under every environment that binds all its
variables, and keeps it when the environment is extended; under any other environment the
evaluation ends at the first variable from the left that has no value. No variable is excused by a
factor of zero. Printing needs no environment, and every well-formed tree can be printed.
-/

namespace Abacus.Expr

open Answer

theorem eval_symbol (env : Env) (o : Operator) (l r : Expr) :
    (binary o.symbol l r).eval env = (do
      let a ← l.eval env
      let b ← r.eval env
      return o.apply a b) := by
  rw [eval, operator_symbol, ok_bind]

/-- What a binary node with a value is made of. -/
theorem eval_binary_eq_ok {env : Env} {op : String} {l r : Expr} {v : Int} :
    (binary op l r).eval env = .ok v ↔ ∃ o : Operator, op = o.symbol ∧
      ∃ a b, l.eval env = .ok a ∧ r.eval env = .ok b ∧ o.apply a b = v := by
  simp only [eval, bind_eq_ok, operator_eq_ok, pure_eq_ok, Except.ok.injEq, exists_and_left]

theorem wellFormed_of_eval {env : Env} {e : Expr} {v : Int} (h : e.eval env = .ok v) :
    e.WellFormed := by
  induction e generalizing v with
  | literal w => trivial
  | var x => trivial
  | binary op l r ihl ihr =>
    obtain ⟨o, ho, a, b, ha, hb, -⟩ := eval_binary_eq_ok.1 h
    exact wellFormed_binary_iff.2 ⟨o, ho, ihl ha, ihr hb⟩
  | foreign it => cases h

theorem eval_of_extended {env env' : Env} {e : Expr} {v : Int} (hx : env.ExtendedBy env')
    (h : e.eval env = .ok v) : e.eval env' = .ok v := by
  induction e generalizing v with
  | literal w => exact h
  | var x => exact Env.value_eq_ok.2 (hx x v (Env.value_eq_ok.1 h))
  | binary op l r ihl ihr =>
    obtain ⟨o, ho, a, b, ha, hb, hv⟩ := eval_binary_eq_ok.1 h
    exact eval_binary_eq_ok.2 ⟨o, ho, a, b, ihl ha, ihr hb, hv⟩
  | foreign it => cases h

theorem eval_of_binds {env : Env} {e : Expr} (he : e.WellFormed) (h : env.Binds e.vars) :
    ∃ v, e.eval env = .ok v := by
  induction e, he using wellFormed_induction with
  | literal v => exact ⟨v, rfl⟩
  | var x =>
    obtain ⟨v, hv⟩ := h x (List.mem_singleton.2 rfl)
    exact ⟨v, Env.value_eq_ok.2 hv⟩
  | binary o l r hl hr ihl ihr =>
    obtain ⟨a, ha⟩ := ihl h.append.1
    obtain ⟨b, hb⟩ := ihr h.append.2
    exact ⟨o.apply a b, eval_binary_eq_ok.2 ⟨o, rfl, a, b, ha, hb, rfl⟩⟩

theorem binds_freeVariables_iff {env : Env} {e : Expr} {names : List String} (he : e.Recognised)
    (hn : e.freeVariables = .ok names) : env.Binds names ↔ env.Binds e.vars :=
  forall_congr' fun _ => imp_congr_left (mem_freeVariables he hn)

theorem eval_of_missing {env : Env} {e : Expr} {x : String} (he : e.WellFormed)
    (h : env.missing? e.vars = some x) : e.eval env = .error (.unboundVariable x) := by
  induction e, he using wellFormed_induction with
  | literal v => cases h
  | var y =>
    cases hy : env.get? y with
    | none =>
      rw [vars, Env.missing?_cons_of_unbound hy, Option.some.injEq] at h
      rw [eval, Env.value_of_unbound hy, h]
    | some v =>
      rw [vars, Env.missing?_cons_of_bound hy] at h
      cases h
  | binary o l r hl hr ihl ihr =>
    rw [vars, Env.missing?_append] at h
    rw [eval_symbol]
    cases hm : env.missing? l.vars with
    | some y =>
      rw [hm, Option.some_or] at h
      rw [ihl (hm.trans h), error_bind]
    | none =>
      rw [hm, Option.none_or] at h
      obtain ⟨a, ha⟩ := eval_of_binds hl (Env.missing?_eq_none_iff.1 hm)
      rw [ha, ok_bind, ihr h, error_bind]

/-! ## Printing -/

theorem print_binary_eq_ok {op text : String} {l r : Expr} :
    (binary op l r).print = .ok text ↔ ∃ o : Operator, op = o.symbol ∧
      ∃ left right, l.print = .ok left ∧ r.print = .ok right ∧
        "(" ++ left ++ o.symbol ++ right ++ ")" = text := by
  simp only [print, bind_eq_ok, operator_eq_ok, pure_eq_ok, Except.ok.injEq]
  constructor
  · rintro ⟨o, ho, left, hl, right, hr, h⟩
    exact ⟨o, ho, left, right, hl, hr, h⟩
  · rintro ⟨o, ho, left, right, hl, hr, h⟩
    exact ⟨o, ho, left, hl, right, hr, h⟩

theorem exists_print {e : Expr} (he : e.WellFormed) : ∃ text, e.print = .ok text := by
  induction e, he using wellFormed_induction with
  | literal v => exact ⟨_, rfl⟩
  | var x => exact ⟨_, rfl⟩
  | binary o l r hl hr ihl ihr =>
    obtain ⟨left, hleft⟩ := ihl
    obtain ⟨right, hright⟩ := ihr
    exact ⟨_, print_binary_eq_ok.2 ⟨o, rfl, left, right, hleft, hright, rfl⟩⟩

end Abacus.Expr
