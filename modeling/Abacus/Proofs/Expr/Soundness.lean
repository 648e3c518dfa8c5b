import Abacus.Proofs.Expr.Rules

/-!
# Simplification keeps values

A factor of zero makes its other factor disappear, with all variables in it. So a simplified tree
may have a value where the original has none; where the original has one, it is the same.
-/

namespace Abacus.Expr

open Answer

theorem eval_simplify {env : Env} {e s : Expr} {v : Int} (hs : e.simplify = .ok s)
    (h : e.eval env = .ok v) : s.eval env = .ok v :=
  (steps_simplify hs).eval_eq h

/-- A value of the simplified tree is the original's once the variables that were lost are bound. -/
theorem eval_of_simplify {env env' : Env} {e s : Expr} {v : Int} (hs : e.simplify = .ok s)
    (h : s.eval env = .ok v) (hx : env.ExtendedBy env') (hb : env'.Binds e.vars) :
    e.eval env' = .ok v := by
  obtain ⟨w, hw⟩ := eval_of_binds (wellFormed_of_simplify hs) hb
  have before : s.eval env' = .ok v := eval_of_extended hx h
  have after : s.eval env' = .ok w := eval_simplify hs hw
  rw [before, Except.ok.injEq] at after
  rw [hw, after]

theorem simplify_of_not_wellFormed {e : Expr} (he : ¬e.WellFormed) :
    ∃ fault, e.simplify = .error fault :=
  not_ok_iff.1 fun ⟨_, hs⟩ => he (wellFormed_of_simplify hs)

theorem eval_of_not_wellFormed {e : Expr} (he : ¬e.WellFormed) (env : Env) :
    ∃ fault, e.eval env = .error fault :=
  not_ok_iff.1 fun ⟨_, hv⟩ => he (wellFormed_of_eval hv)

/-- Simplification is defined on the well-formed trees, as evaluation is on no others, and it is
sound: it only adds values where the original lacks variables that do not matter. -/
theorem simplify_sound (e : Expr) :
    (e.WellFormed → ∃ s names, e.simplify = .ok s ∧ e.freeVariables = .ok names ∧
      ∀ (env : Env) (v : Int), (e.eval env = .ok v → s.eval env = .ok v) ∧
        (s.eval env = .ok v → ∀ env' : Env, env.ExtendedBy env' → env'.Binds names →
          e.eval env' = .ok v)) ∧
    (¬e.WellFormed → (∃ fault, e.simplify = .error fault) ∧
      ∀ env : Env, ∃ fault, e.eval env = .error fault) := by
  refine ⟨?_, ?_⟩
  · intro he
    obtain ⟨s, hs⟩ := exists_simplify he
    have hn := freeVariables_eq he.recognised
    refine ⟨s, _, hs, hn, fun env v => ⟨eval_simplify hs, ?_⟩⟩
    intro h env' hx hb
    exact eval_of_simplify hs h hx fun x hv =>
      hb x ((mem_freeVariables he.recognised hn).2 hv)
  · intro he
    exact ⟨simplify_of_not_wellFormed he, eval_of_not_wellFormed he⟩

/-- `0 * y + 2` has the value 2 without `y` once simplified, and with `y` from the start. -/
theorem simplify_sound_lost_variable :
    ∃ s, (add (.mul (.literal 0) (.var "y")) (.literal 2)).simplify = .ok s ∧
      s.eval ⟨[]⟩ = .ok 2 ∧
      (add (.mul (.literal 0) (.var "y")) (.literal 2)).eval ⟨[("y", 7)]⟩ = .ok 2 := by
  have he : (add (.mul (.literal 0) (.var "y")) (.literal 2)).WellFormed := by decide
  obtain ⟨s, names, hs, hn, sound⟩ := (simplify_sound _).1 he
  cases hs
  refine ⟨_, rfl, rfl, (sound ⟨[]⟩ 2).2 rfl _ ?_ ?_⟩
  · intro x v h
    cases h
  · intro x hx
    have hy : x = "y" := by simpa [vars] using (mem_freeVariables he.recognised hn).1 hx
    exact ⟨7, by rw [hy]; rfl⟩

end Abacus.Expr
