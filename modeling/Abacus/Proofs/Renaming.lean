import Abacus.Proofs.Expr.Flaw
import Mathlib.Logic.Equiv.Basic

/-!
# Renaming of variables

Variables are told apart by their names and have no other use for them. A renaming that keeps the
variables of a tree apart gives it a layout with the new names in the old order, so that the slotted
expression is the same, and with it every text that is made from it. Evaluation meets the same values
in the same places. Simplification does not even tell variables apart, so that it does not mind a
renaming that makes some of them equal.
-/

namespace Abacus

open Answer

/-- The fault that is met under the new names. -/
def Fault.rename (f : String → String) : Fault → Fault
  | .unboundVariable x => .unboundVariable (f x)
  | fault => fault

namespace Expr

variable (f : String → String)

theorem vars_rename (e : Expr) : (e.rename f).vars = e.vars.map f := by
  induction e with
  | literal v => rfl
  | var x => rfl
  | binary op l r ihl ihr => rw [rename, vars, ihl, ihr, vars, List.map_append]
  | foreign it => rfl

theorem nodes_rename (e : Expr) : (e.rename f).nodes = e.nodes.map (rename f) := by
  induction e with
  | literal v => rfl
  | var x => rfl
  | binary op l r ihl ihr => rw [rename, nodes, ihl, ihr, nodes, List.map_cons, List.map_append]; rfl
  | foreign it => rfl

theorem leftmostUnknownNode?_rename (e : Expr) :
    (e.rename f).leftmostUnknownNode? = e.leftmostUnknownNode? := by
  have hroot : unknownNode? ∘ rename f = unknownNode? := by
    funext n
    cases n <;> rfl
  rw [leftmostUnknownNode?, nodes_rename, List.findSome?_map, hroot, leftmostUnknownNode?]

theorem recognised_rename {e : Expr} : (e.rename f).Recognised ↔ e.Recognised := by
  rw [← leftmostUnknownNode?_eq_none_iff, leftmostUnknownNode?_rename,
    leftmostUnknownNode?_eq_none_iff]

/-! ## Layouts and slots -/

/-- Slots go by position, so that only the names in a layout have to be exchanged. -/
theorem Layout.slot_rename {f : String → String} {t t' : Layout} {x : String}
    (hn : t'.names = t.names.map f) (hx : x ∈ t.names) : t'.slot (f x) = t.slot x := by
  obtain ⟨i, hi⟩ := Layout.exists_slot hx
  have hrenamed : t'.names[i]? = some (f x) := by
    rw [hn, List.getElem?_map, Layout.slot_eq_ok.1 hi, Option.map_some]
  rw [hi, Layout.slot_eq_ok.2 hrenamed]

theorem slotted_rename {f : String → String} {t t' : Layout} {e : Expr}
    (hn : t'.names = t.names.map f) (hx : ∀ x ∈ e.vars, x ∈ t.names) :
    (e.rename f).slotted t' = e.slotted t := by
  induction e with
  | literal v => rfl
  | var x => rw [rename, slotted, slotted, Layout.slot_rename hn (hx x (List.mem_singleton.2 rfl))]
  | binary op l r ihl ihr =>
    obtain ⟨hl, hr⟩ := List.forall_mem_append.1 hx
    rw [rename, slotted, ihl hl, ihr hr, slotted]
  | foreign it => rfl

/-- Either both trees have a layout, with corresponding names, or both have the same fault. -/
theorem layout_rename {f : String → String} {e : Expr}
    (h : ∀ x ∈ e.vars, ∀ y ∈ e.vars, f x = f y → x = y) :
    (∃ t t', e.layout = .ok t ∧ (e.rename f).layout = .ok t' ∧ t'.names = t.names.map f ∧
      ∀ x ∈ e.vars, x ∈ t.names) ∨
    ∃ fault, e.layout = .error fault ∧ (e.rename f).layout = .error fault := by
  by_cases he : e.Recognised
  · obtain ⟨t, ht, hn⟩ := exists_layout he
    obtain ⟨t', ht', hn'⟩ := exists_layout ((recognised_rename f).2 he)
    refine .inl ⟨t, t', ht, ht', ?_, fun x hx => by rwa [hn, List.mem_eraseDups]⟩
    rw [hn', hn, vars_rename, Env.eraseDups_map h]
  · rw [← leftmostUnknownNode?_eq_none_iff, ← ne_eq, Option.ne_none_iff_exists'] at he
    obtain ⟨fault, hfault⟩ := he
    refine .inr ⟨fault, ?_, ?_⟩
    · rw [← fault?_eq_some, fault?_layout, hfault]
    · rw [← fault?_eq_some, fault?_layout, leftmostUnknownNode?_rename, hfault]

/-! ## Simplification -/

theorem isLiteral_rename (v : Int) (e : Expr) : (e.rename f).isLiteral v = e.isLiteral v := by
  cases e <;> rfl

theorem simplifySum_rename (l r : Expr) :
    simplifySum (l.rename f) (r.rename f) = (simplifySum l r).rename f := by
  unfold simplifySum
  rw [isLiteral_rename, isLiteral_rename]
  split
  · rfl
  · split
    · rfl
    · cases l <;> cases r <;> rfl

theorem eq_literal_of_rename {v : Int} {e : Expr} (h : e.rename f = .literal v) :
    e = .literal v := by
  rwa [← isLiteral_iff, isLiteral_rename, isLiteral_iff] at h

theorem simplifyProduct_rename (l r : Expr) :
    simplifyProduct (l.rename f) (r.rename f) = (simplifyProduct l r).rename f := by
  by_cases h : ∃ a b, l = .literal a ∧ r = .literal b
  · obtain ⟨a, b, rfl, rfl⟩ := h
    rfl
  · have hrenamed : ¬∃ a b, l.rename f = .literal a ∧ r.rename f = .literal b := by
      rintro ⟨a, b, ha, hb⟩
      exact h ⟨a, b, eq_literal_of_rename f ha, eq_literal_of_rename f hb⟩
    rw [simplifyProduct_of_not_literals h, simplifyProduct_of_not_literals hrenamed]
    simp only [isLiteral_rename]
    split
    · rfl
    · split
      · rfl
      · split <;> rfl

theorem simplifyRoot_rename (o : Operator) (l r : Expr) :
    simplifyRoot o (l.rename f) (r.rename f) = (simplifyRoot o l r).rename f := by
  cases o with
  | plus => exact simplifySum_rename f l r
  | times => exact simplifyProduct_rename f l r

theorem simplify_rename (e : Expr) : (e.rename f).simplify = e.simplify.map (rename f) := by
  induction e with
  | literal v => rfl
  | var x => rfl
  | binary op l r ihl ihr =>
    rw [rename, simplify, ihl, ihr, simplify]
    cases l.simplify with
    | error fault => rfl
    | ok l' =>
      cases r.simplify with
      | error fault => rfl
      | ok r' =>
        cases operator op with
        | error fault => rfl
        | ok o => exact congrArg Except.ok (simplifyRoot_rename f o l' r')
  | foreign it => rfl

/-! ## Evaluation -/

theorem eval_rename {f : String → String} {env env' : Env} {e : Expr}
    (h : ∀ x ∈ e.vars, env'.get? (f x) = env.get? x) :
    (e.rename f).eval env' = (e.eval env).mapError (Fault.rename f) := by
  induction e with
  | literal v => rfl
  | var x =>
    rw [rename, eval, eval, Env.value, Env.value, h x (List.mem_singleton.2 rfl)]
    cases env.get? x <;> rfl
  | binary op l r ihl ihr =>
    obtain ⟨hl, hr⟩ := List.forall_mem_append.1 h
    have hop : (operator op).mapError (Fault.rename f) = operator op := by
      rw [operator]
      cases Operator.ofSymbol? op <;> rfl
    rw [rename, eval, eval, mapError_bind, hop, ihl hl, ihr hr]
    refine congrArg _ (funext fun o => ?_)
    rw [mapError_bind]
    refine congrArg _ (funext fun a => ?_)
    rw [mapError_bind]
    rfl
  | foreign it => rfl

end Expr

/-! ## Compiling -/

/-- The second compiled expression is the first one with other names. -/
structure Compiled.RenamedTo (f : String → String) (c c' : Compiled) : Prop where
  expression : c'.expression = c.expression.rename f
  names : c'.layout.names = c.layout.names.map f
  slotted : c'.slotted = c.slotted
  known : ∀ x ∈ c.expression.vars, x ∈ c.layout.names

namespace Expr

theorem compile_false_rename {f : String → String} {e : Expr}
    (h : ∀ x ∈ e.vars, ∀ y ∈ e.vars, f x = f y → x = y) :
    (∃ c c', e.compile false = .ok c ∧ (e.rename f).compile false = .ok c' ∧ c.RenamedTo f c') ∨
    ∃ fault, e.compile false = .error fault ∧ (e.rename f).compile false = .error fault := by
  rw [compile_false, compile_false]
  rcases layout_rename h with ⟨t, t', ht, ht', hn, hx⟩ | ⟨fault, ht, ht'⟩
  · rw [ht, ht', ok_bind, ok_bind, slotted_rename hn hx]
    cases hs : e.slotted t with
    | error fault => exact .inr ⟨fault, rfl, rfl⟩
    | ok s => exact .inl ⟨_, _, rfl, rfl, rfl, hn, rfl, hx⟩
  · rw [ht, ht']
    exact .inr ⟨fault, rfl, rfl⟩

theorem compile_rename {f : String → String} {e : Expr}
    (h : ∀ x ∈ e.vars, ∀ y ∈ e.vars, f x = f y → x = y) (simplified : Bool) :
    (∃ c c', e.compile simplified = .ok c ∧ (e.rename f).compile simplified = .ok c' ∧
      c.RenamedTo f c') ∨
    ∃ fault, e.compile simplified = .error fault ∧
      (e.rename f).compile simplified = .error fault := by
  cases simplified with
  | false => exact compile_false_rename h
  | true =>
    have hrenamed := simplify_rename f e
    cases hs : e.simplify with
    | error fault =>
      rw [hs] at hrenamed
      refine .inr ⟨fault, ?_, ?_⟩
      · rw [compile, if_pos rfl, hs, error_bind]
      · rw [compile, if_pos rfl, hrenamed]
        rfl
    | ok s =>
      rw [hs] at hrenamed
      rw [compile_true hs, compile_true hrenamed]
      have hvars : ∀ x ∈ s.vars, x ∈ e.vars := Steps.mem_vars (steps_simplify hs)
      exact compile_false_rename fun x hx y hy => h x (hvars x hx) y (hvars y hy)

end Expr

namespace Compiled.RenamedTo

theorem hostText_eq {f : String → String} {c c' : Compiled} (h : c.RenamedTo f c')
    (target : Target) : c'.hostText target = c.hostText target := by
  rw [Compiled.hostText, Compiled.hostText, Expr.hostText, Expr.hostText, h.expression,
    Expr.slotted_rename h.names h.known]

theorem hostFunction_eq {f : String → String} {c c' : Compiled} (h : c.RenamedTo f c')
    (target : Target) (name : String) : c'.hostFunction target name = c.hostFunction target name := by
  rw [Compiled.hostFunction, Compiled.hostFunction, Expr.hostFunction, Expr.hostFunction]
  refine congrArg _ (funext fun host => ?_)
  exact congrArg (· >>= fun body => host.function name body) (h.hostText_eq (.described host))

end Compiled.RenamedTo

namespace Expr

/-- A renaming that keeps the variables of a tree apart can be seen in the layout only: slotted
expressions, generated texts and faults are the same, and so are values under an environment for the
new names. Simplification commutes with every renaming. -/
theorem renaming_leaves_no_trace (e : Expr) (f : String → String) :
    ((∀ x ∈ e.vars, ∀ y ∈ e.vars, f x = f y → x = y) →
      ((∃ t', (e.rename f).layout = .ok t') ↔ ∃ t, e.layout = .ok t) ∧
      (∀ t t', e.layout = .ok t → (e.rename f).layout = .ok t' → t'.names = t.names.map f) ∧
      (do
        let t ← (e.rename f).layout
        (e.rename f).slotted t) = (do
        let t ← e.layout
        e.slotted t) ∧
      ∀ (simplified : Bool) (target : Target),
        (do
          let c ← (e.rename f).compile simplified
          c.hostText target) = (do
          let c ← e.compile simplified
          c.hostText target) ∧
        ∀ name, (do
          let c ← (e.rename f).compile simplified
          c.hostFunction target name) = (do
          let c ← e.compile simplified
          c.hostFunction target name)) ∧
    (∀ env env' : Env, (∀ x ∈ e.vars, env'.get? (f x) = env.get? x) →
      (e.rename f).eval env' = (e.eval env).mapError (Fault.rename f)) ∧
    (e.rename f).simplify = e.simplify.map (rename f) := by
  refine ⟨fun h => ⟨?_, ?_, ?_, ?_⟩, fun env env' => eval_rename, simplify_rename f e⟩
  · rcases layout_rename h with ⟨t, t', ht, ht', -⟩ | ⟨fault, ht, ht'⟩
    · exact ⟨fun _ => ⟨t, ht⟩, fun _ => ⟨t', ht'⟩⟩
    · rw [ht, ht']
  · intro u u' hu hu'
    rcases layout_rename h with ⟨t, t', ht, ht', hn, -⟩ | ⟨fault, ht, -⟩
    · rw [ht, Except.ok.injEq] at hu
      rw [ht', Except.ok.injEq] at hu'
      rw [← hu, ← hu', hn]
    · rw [ht] at hu
      cases hu
  · rcases layout_rename h with ⟨t, t', ht, ht', hn, hx⟩ | ⟨fault, ht, ht'⟩
    · rw [ht, ht', ok_bind, ok_bind, slotted_rename hn hx]
    · rw [ht, ht', error_bind, error_bind]
  · intro simplified target
    rcases compile_rename h simplified with ⟨c, c', hc, hc', same⟩ | ⟨fault, hc, hc'⟩
    · rw [hc, hc']
      exact ⟨same.hostText_eq target, fun name => same.hostFunction_eq target name⟩
    · rw [hc, hc']
      exact ⟨rfl, fun _ => rfl⟩

/-- In `x * y + x` the two names change places: the slots stay where they are, and evaluation fails
for want of `x` where it failed for want of `y`. Two variables that become one make no difference to
simplification. -/
theorem renaming_leaves_no_trace_swapped :
    (∀ x ∈ (add (.mul (.var "x") (.var "y")) (.var "x")).vars,
      ∀ y ∈ (add (.mul (.var "x") (.var "y")) (.var "x")).vars,
        Equiv.swap "x" "y" x = Equiv.swap "x" "y" y → x = y) ∧
    (do
      let t ← ((add (.mul (.var "x") (.var "y")) (.var "x")).rename (Equiv.swap "x" "y")).layout
      ((add (.mul (.var "x") (.var "y")) (.var "x")).rename (Equiv.swap "x" "y")).slotted t) =
      .ok (.binary "+" .plus (.binary "*" .times (.slot 0) (.slot 1)) (.slot 0)) ∧
    ((add (.mul (.var "x") (.var "y")) (.var "x")).rename (Equiv.swap "x" "y")).eval
      ⟨[("y", 5)]⟩ = .error (.unboundVariable "x") ∧
    ((add (.mul (.var "x") (.literal 1)) (.var "y")).rename fun _ => "z").simplify =
      .ok (add (.var "z") (.var "z")) := by
  have apart : ∀ x ∈ (add (.mul (.var "x") (.var "y")) (.var "x")).vars,
      ∀ y ∈ (add (.mul (.var "x") (.var "y")) (.var "x")).vars,
        Equiv.swap "x" "y" x = Equiv.swap "x" "y" y → x = y :=
    fun _ _ _ _ heq => (Equiv.swap "x" "y").injective heq
  obtain ⟨same, values, -⟩ := renaming_leaves_no_trace
    (add (.mul (.var "x") (.var "y")) (.var "x")) (Equiv.swap "x" "y")
  obtain ⟨-, -, slots, -⟩ := same apart
  obtain ⟨-, -, simplified⟩ := renaming_leaves_no_trace
    (add (.mul (.var "x") (.literal 1)) (.var "y")) fun _ => "z"
  refine ⟨apart, slots.trans rfl, (values ⟨[("x", 5)]⟩ ⟨[("y", 5)]⟩ ?_).trans rfl,
    simplified.trans rfl⟩
  decide

end Expr

end Abacus
