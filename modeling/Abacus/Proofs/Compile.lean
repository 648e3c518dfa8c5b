import Abacus.Compile
import Abacus.Proofs.Expr.Soundness
import Abacus.Proofs.Slotted

/-!
# Compiled expressions against evaluation

Evaluation meets the variables of a tree on its way and ends at the first one without a value. A
compiled expression looks all of them up before it computes anything. Both fail at the same
variable, because leaving out repetitions does not change which one is the first without a value.
-/

namespace Abacus

open Answer

theorem Expr.eval_outcome {e : Expr} (he : e.WellFormed) (env : Env) :
    (∃ v, e.eval env = .ok v) ∨ ∃ x, e.eval env = .error (.unboundVariable x) := by
  cases hm : env.missing? e.vars with
  | none => exact .inl (eval_of_binds he (Env.missing?_eq_none_iff.1 hm))
  | some x => exact .inr ⟨x, eval_of_missing he hm⟩

namespace Compiled

/-- The parts belong together: the layout is the expression's own, and the slots are its slots. -/
structure Coherent (c : Compiled) : Prop where
  wellFormed : c.expression.WellFormed
  layout_eq : c.expression.layout = .ok c.layout
  slotted_eq : c.expression.slotted c.layout = .ok c.slotted

theorem Coherent.names_eq {c : Compiled} (h : c.Coherent) :
    c.layout.names = c.expression.vars.eraseDups := by
  obtain ⟨t, ht, hn⟩ := Expr.exists_layout h.wellFormed.recognised
  rw [h.layout_eq, Except.ok.injEq] at ht
  rw [ht, hn]

theorem Coherent.run_eq {c : Compiled} (h : c.Coherent) (env : Env) :
    c.run env = c.expression.eval env := by
  have hm : env.missing? c.layout.names = env.missing? c.expression.vars := by
    rw [h.names_eq, Env.missing?_eraseDups]
  cases hx : env.missing? c.expression.vars with
  | some x =>
    rw [hx] at hm
    rw [run, Layout.values_of_missing hm, error_bind, Expr.eval_of_missing h.wellFormed hx]
  | none =>
    rw [hx] at hm
    obtain ⟨values, hv⟩ := Layout.exists_values (Env.missing?_eq_none_iff.1 hm)
    have hrun := Expr.run_slotted h.slotted_eq hv [] true
    rw [List.append_nil] at hrun
    rw [run, hv, ok_bind, hrun]

end Compiled

namespace Expr

theorem compile_false (e : Expr) : e.compile false = (do
    let t ← e.layout
    let s ← e.slotted t
    return ⟨e, t, s⟩) := rfl

/-- A well-formed tree can be laid out and slotted. -/
theorem exists_coherent {e : Expr} (he : e.WellFormed) : ∃ c : Compiled,
    c.expression = e ∧ c.Coherent ∧ e.compile false = .ok c := by
  obtain ⟨t, ht, hn⟩ := exists_layout he.recognised
  have hx : ∀ x ∈ e.vars, x ∈ t.names := fun x hx => by rwa [hn, List.mem_eraseDups]
  obtain ⟨s, hs⟩ := exists_slotted he hx
  refine ⟨⟨e, t, s⟩, rfl, ⟨he, ht, hs⟩, ?_⟩
  simp only [compile, Bool.false_eq_true, if_false, ht, hs, ok_bind, pure_eq_ok]

theorem compile_true {e s : Expr} (hs : e.simplify = .ok s) : e.compile true = s.compile false := by
  rw [compile, compile, if_pos rfl, hs, if_neg Bool.false_ne_true]

/-- Compiling keeps every value, with and without simplification. -/
theorem exists_compile {e : Expr} (he : e.WellFormed) (simplified : Bool) :
    ∃ c, e.compile simplified = .ok c ∧ c.Coherent ∧
      ∀ (env : Env) (v : Int), e.eval env = .ok v → c.run env = .ok v := by
  cases simplified with
  | false =>
    obtain ⟨c, rfl, coherent, hcompile⟩ := exists_coherent he
    exact ⟨c, hcompile, coherent, fun env v hv => (coherent.run_eq env).trans hv⟩
  | true =>
    obtain ⟨s, hs⟩ := exists_simplify he
    obtain ⟨c, rfl, coherent, hcompile⟩ := exists_coherent ((steps_simplify hs).wellFormed he)
    refine ⟨c, (compile_true hs).trans hcompile, coherent, fun env v hv => ?_⟩
    exact (coherent.run_eq env).trans (eval_simplify hs hv)

/-- Compiling a well-formed tree always succeeds, and what it yields is evaluation: with the same
values, and with the same fault at the same variable. -/
theorem compile_run_eval (e : Expr) (he : e.WellFormed) (simplified : Bool) :
    ∃ c, e.compile simplified = .ok c ∧
      (∀ env : Env, c.run env = c.expression.eval env ∧
        ((∃ v, c.run env = .ok v) ∨ ∃ x, c.run env = .error (.unboundVariable x))) ∧
      (simplified = false → c.expression = e ∧ ∀ env : Env, c.run env = e.eval env) ∧
      (simplified = true → ∀ env : Env, (∀ v, e.eval env = .ok v → c.run env = .ok v) ∧
        ∀ fault, c.run env = .error fault → ∃ fault', e.eval env = .error fault') := by
  cases simplified with
  | false =>
    obtain ⟨c, hc, coherent, hcompile⟩ := exists_coherent he
    have hrun : ∀ env : Env, c.run env = c.expression.eval env := coherent.run_eq
    refine ⟨c, hcompile, fun env => ⟨hrun env, ?_⟩, fun _ => ⟨hc, ?_⟩, fun h => (nomatch h)⟩
    · rw [hrun env]
      exact eval_outcome coherent.wellFormed env
    · rw [← hc]
      exact hrun
  | true =>
    obtain ⟨s, hs⟩ := exists_simplify he
    obtain ⟨c, hc, coherent, hcompile⟩ := exists_coherent ((steps_simplify hs).wellFormed he)
    have hrun : ∀ env : Env, c.run env = c.expression.eval env := coherent.run_eq
    have kept : ∀ (env : Env) (v : Int), e.eval env = .ok v → c.run env = .ok v := by
      intro env v hv
      rw [hrun, hc]
      exact eval_simplify hs hv
    refine ⟨c, (compile_true hs).trans hcompile, fun env => ⟨hrun env, ?_⟩, fun h => (nomatch h),
      fun _ env => ⟨kept env, ?_⟩⟩
    · rw [hrun env]
      exact eval_outcome coherent.wellFormed env
    · intro fault hfault
      refine not_ok_iff.1 ?_
      rintro ⟨v, hv⟩
      rw [kept env v hv] at hfault
      cases hfault

/-- In `y * x + y`, with neither variable bound, both look for `y` first. -/
theorem compile_run_eval_unbound :
    (add (.mul (.var "y") (.var "x")) (.var "y")).WellFormed ∧
      ∃ c, (add (.mul (.var "y") (.var "x")) (.var "y")).compile false = .ok c ∧
        c.run ⟨[]⟩ = .error (.unboundVariable "y") ∧
        c.run ⟨[("x", 2), ("y", 3)]⟩ = .ok 9 := by
  have he : (add (.mul (.var "y") (.var "x")) (.var "y")).WellFormed := by decide
  obtain ⟨c, hc, -, same, -⟩ := compile_run_eval _ he false
  obtain ⟨-, hrun⟩ := same rfl
  refine ⟨he, c, hc, ?_, ?_⟩
  · rw [hrun]
    rfl
  · rw [hrun]
    rfl

end Expr

end Abacus
