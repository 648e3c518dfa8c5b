import Abacus.Proofs.Expr.Value

/-!
# What a value depends on

Evaluation asks an environment for the free variables of a tree and for nothing else, and it needs
all of them. The occurrences are asked for from left to right, up to the first one that has no
value.
-/

namespace Abacus.Expr

open Answer

/-- Environments that agree on the variables of a tree cannot be told apart by evaluating it, whatever
is wrong with the tree. -/
theorem eval_congr {env env' : Env} {e : Expr} (h : ∀ x ∈ e.vars, env.get? x = env'.get? x) :
    e.eval env = e.eval env' := by
  induction e with
  | literal v => rfl
  | var x => exact Env.value_congr (h x (List.mem_singleton.2 rfl))
  | binary op l r ihl ihr =>
    obtain ⟨hl, hr⟩ := List.forall_mem_append.1 h
    rw [eval, eval, ihl hl, ihr hr]
  | foreign it => rfl

theorem exists_eval_iff {env : Env} {e : Expr} (he : e.WellFormed) :
    (∃ v, e.eval env = .ok v) ↔ env.Binds e.vars := by
  refine ⟨fun ⟨v, hv⟩ => ?_, eval_of_binds he⟩
  rw [← Env.missing?_eq_none_iff, Option.eq_none_iff_forall_ne_some]
  intro x hx
  rw [eval_of_missing he hx] at hv
  cases hv

/-- An evaluation that fails has come to the first occurrence without a value. -/
theorem exists_split_of_eval_error {env : Env} {e : Expr} {fault : Fault} (he : e.WellFormed)
    (h : e.eval env = .error fault) :
    ∃ before x after, e.vars = before ++ x :: after ∧ env.Binds before ∧ env.get? x = none ∧
      fault = .unboundVariable x := by
  cases hm : env.missing? e.vars with
  | none =>
    obtain ⟨v, hv⟩ := eval_of_binds he (Env.missing?_eq_none_iff.1 hm)
    rw [hv] at h
    cases h
  | some x =>
    obtain ⟨before, after, hsplit, hbefore, hx⟩ := Env.exists_split_of_missing hm
    rw [eval_of_missing he hm, Except.error.injEq] at h
    exact ⟨before, x, after, hsplit, hbefore, hx, h.symm⟩

/-- Evaluation depends on the free variables alone, which are all that occur anywhere in the tree. It
succeeds where all of them are bound, and where it fails it names the one that is missing first from
left to right. -/
theorem eval_depends_on_freeVariables (e : Expr) (he : e.WellFormed) :
    ∃ names, e.freeVariables = .ok names ∧ (∀ x, x ∈ names ↔ x ∈ e.vars) ∧
      (∀ env env' : Env, (∀ x ∈ names, env.get? x = env'.get? x) → e.eval env = e.eval env') ∧
      (∀ env : Env, (∃ v, e.eval env = .ok v) ↔ env.Binds names) ∧
      ∀ (env : Env) (fault : Fault), e.eval env = .error fault →
        ∃ before x after, e.occurrences = .ok (before ++ x :: after) ∧ env.Binds before ∧
          env.get? x = none ∧ fault = .unboundVariable x := by
  have hn := freeVariables_eq he.recognised
  have hmem : ∀ x, x ∈ e.vars.eraseDups.mergeSort textLE ↔ x ∈ e.vars :=
    fun _ => mem_freeVariables he.recognised hn
  refine ⟨_, hn, hmem, ?_, ?_, ?_⟩
  · intro env env' h
    exact eval_congr fun x hx => h x ((hmem x).2 hx)
  · intro env
    rw [exists_eval_iff he, binds_freeVariables_iff he.recognised hn]
  · intro env fault h
    obtain ⟨before, x, after, hsplit, hrest⟩ := exists_split_of_eval_error he h
    exact ⟨before, x, after, hsplit ▸ occurrences_eq_vars he.recognised, hrest⟩

/-- The value of `0 * y + x` does not depend on the value of `y`, but `y` has to have one, and where
neither variable has a value `y` is the one that is missing first. -/
theorem eval_depends_on_freeVariables_zero :
    (add (.mul (.literal 0) (.var "y")) (.var "x")).WellFormed ∧
    (add (.mul (.literal 0) (.var "y")) (.var "x")).eval ⟨[("x", 3), ("y", -8)]⟩ =
      (add (.mul (.literal 0) (.var "y")) (.var "x")).eval ⟨[("y", -8), ("z", 1), ("x", 3)]⟩ ∧
    (¬∃ v, (add (.mul (.literal 0) (.var "y")) (.var "x")).eval ⟨[("x", 3)]⟩ = .ok v) ∧
    (add (.mul (.literal 0) (.var "y")) (.var "x")).eval ⟨[]⟩ = .error (.unboundVariable "y") := by
  have he : (add (.mul (.literal 0) (.var "y")) (.var "x")).WellFormed := by decide
  obtain ⟨names, -, hmem, same, succeeds, fails⟩ := eval_depends_on_freeVariables _ he
  have hy : "y" ∈ names := (hmem "y").2 List.mem_cons_self
  have agree : ∀ x ∈ ["y", "x"], Env.get? ⟨[("x", 3), ("y", -8)]⟩ x =
      Env.get? ⟨[("y", -8), ("z", 1), ("x", 3)]⟩ x :=
    List.forall_mem_cons.2 ⟨rfl, List.forall_mem_singleton.2 rfl⟩
  refine ⟨he, same _ _ fun x hx => agree x ((hmem x).1 hx), fun h => ?_, ?_⟩
  · obtain ⟨v, hv⟩ := (succeeds _).1 h "y" hy
    cases hv
  · cases h : (add (.mul (.literal 0) (.var "y")) (.var "x")).eval ⟨[]⟩ with
    | ok v => cases h
    | error fault =>
      obtain ⟨before, x, after, hocc, hbound, -, rfl⟩ := fails _ _ h
      have hsplit : ["y", "x"] = before ++ x :: after := Except.ok.inj hocc
      cases before with
      | nil =>
        cases hsplit
        rfl
      | cons y before =>
        obtain ⟨v, hv⟩ := hbound y List.mem_cons_self
        cases hv

end Abacus.Expr
