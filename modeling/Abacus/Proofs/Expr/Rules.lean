import Abacus.Expr.Simplify
import Abacus.Proofs.Expr.Value
import Mathlib.Logic.Relation

/-!
# The rules of simplification, one at a time

The eight rules are read as steps that may be taken anywhere in a tree and in any order. A step keeps
a tree well-formed and keeps its value. Simplification takes such steps, and stops only where none is
left.
-/

namespace Abacus

theorem Operator.symbol_injective {o p : Operator} (h : o.symbol = p.symbol) : o = p := by
  rw [← Option.some_inj, ← ofSymbol?_symbol o, h, ofSymbol?_symbol]

namespace Expr

open Answer

/-- The operator `o` with the operands `l` and `r` becomes `e`. -/
inductive Rule : Operator → Expr → Expr → Expr → Prop where
  | zeroAdd (e : Expr) : Rule .plus (.literal 0) e e
  | addZero (e : Expr) : Rule .plus e (.literal 0) e
  | sum (a b : Int) : Rule .plus (.literal a) (.literal b) (.literal (a + b))
  | product (a b : Int) : Rule .times (.literal a) (.literal b) (.literal (a * b))
  | zeroMul (e : Expr) : Rule .times (.literal 0) e (.literal 0)
  | mulZero (e : Expr) : Rule .times e (.literal 0) (.literal 0)
  | oneMul (e : Expr) : Rule .times (.literal 1) e e
  | mulOne (e : Expr) : Rule .times e (.literal 1) e

/-- One rule applied at one position of a tree. -/
inductive Step : Expr → Expr → Prop where
  | root {o : Operator} {l r e : Expr} (h : Rule o l r e) : Step (.binary o.symbol l r) e
  | left {op : String} {l l' r : Expr} (h : Step l l') : Step (.binary op l r) (.binary op l' r)
  | right {op : String} {l r r' : Expr} (h : Step r r') : Step (.binary op l r) (.binary op l r')

/-- Any number of steps. -/
abbrev Steps : Expr → Expr → Prop := Relation.ReflTransGen Step

/-- No rule fits anywhere in the tree. -/
def Irreducible (e : Expr) : Prop := ∀ f, ¬Step e f

theorem step_binary_iff {op : String} {l r e : Expr} :
    Step (.binary op l r) e ↔ (∃ o : Operator, op = o.symbol ∧ Rule o l r e) ∨
      (∃ l', Step l l' ∧ e = .binary op l' r) ∨ ∃ r', Step r r' ∧ e = .binary op l r' := by
  constructor
  · intro h
    cases h with
    | root h => exact .inl ⟨_, rfl, h⟩
    | left h => exact .inr (.inl ⟨_, h, rfl⟩)
    | right h => exact .inr (.inr ⟨_, h, rfl⟩)
  · rintro (⟨o, rfl, h⟩ | ⟨l', h, rfl⟩ | ⟨r', h, rfl⟩)
    · exact .root h
    · exact .left h
    · exact .right h

/-! ## What a rule does -/

/-- Nothing is built by a rule but literals. -/
theorem Rule.result {o : Operator} {l r e : Expr} (h : Rule o l r e) :
    e = l ∨ e = r ∨ ∃ v, e = .literal v := by
  cases h <;> simp

theorem Rule.wellFormed {o : Operator} {l r e : Expr} (h : Rule o l r e) (hl : l.WellFormed)
    (hr : r.WellFormed) : e.WellFormed := by
  rcases h.result with rfl | rfl | ⟨v, rfl⟩
  · exact hl
  · exact hr
  · trivial

/-- The result has the value of the operation, whenever the operands have values. -/
theorem Rule.eval_eq {env : Env} {o : Operator} {l r e : Expr} {a b : Int} (h : Rule o l r e)
    (ha : l.eval env = .ok a) (hb : r.eval env = .ok b) : e.eval env = .ok (o.apply a b) := by
  cases h with
  | zeroAdd =>
    cases ha
    rw [hb, Operator.apply, Int.zero_add]
  | addZero =>
    cases hb
    rw [ha, Operator.apply, Int.add_zero]
  | sum =>
    cases ha
    cases hb
    rfl
  | product =>
    cases ha
    cases hb
    rfl
  | zeroMul =>
    cases ha
    rw [eval, Operator.apply, Int.zero_mul]
  | mulZero =>
    cases hb
    rw [eval, Operator.apply, Int.mul_zero]
  | oneMul =>
    cases ha
    rw [hb, Operator.apply, Int.one_mul]
  | mulOne =>
    cases hb
    rw [ha, Operator.apply, Int.mul_one]

theorem Step.wellFormed {e f : Expr} (h : Step e f) (he : e.WellFormed) : f.WellFormed := by
  induction h with
  | root h =>
    obtain ⟨hl, hr⟩ := wellFormed_symbol_iff.1 he
    exact h.wellFormed hl hr
  | left h ih => exact ⟨he.1, ih he.2.1, he.2.2⟩
  | right h ih => exact ⟨he.1, he.2.1, ih he.2.2⟩

/-- A step keeps the value where there is one. It may give a value to a tree that had none. -/
theorem Step.eval_eq {env : Env} {e f : Expr} {v : Int} (h : Step e f) (hv : e.eval env = .ok v) :
    f.eval env = .ok v := by
  induction h generalizing v with
  | root h =>
    obtain ⟨p, hp, a, b, ha, hb, rfl⟩ := eval_binary_eq_ok.1 hv
    rw [← Operator.symbol_injective hp]
    exact h.eval_eq ha hb
  | left h ih =>
    obtain ⟨o, ho, a, b, ha, hb, rfl⟩ := eval_binary_eq_ok.1 hv
    exact eval_binary_eq_ok.2 ⟨o, ho, a, b, ih ha, hb, rfl⟩
  | right h ih =>
    obtain ⟨o, ho, a, b, ha, hb, rfl⟩ := eval_binary_eq_ok.1 hv
    exact eval_binary_eq_ok.2 ⟨o, ho, a, b, ha, ih hb, rfl⟩

/-- No variable comes about in a step. -/
theorem Step.mem_vars {e s : Expr} (h : Step e s) : ∀ x ∈ s.vars, x ∈ e.vars := by
  induction h with
  | @root o l r s h =>
    rcases h.result with rfl | rfl | ⟨v, rfl⟩
    · exact fun x hx => List.mem_append_left _ hx
    · exact fun x hx => List.mem_append_right _ hx
    · exact fun x hx => (nomatch hx)
  | left h ih =>
    intro x hx
    exact List.mem_append.2 ((List.mem_append.1 hx).imp_left (ih x))
  | right h ih =>
    intro x hx
    exact List.mem_append.2 ((List.mem_append.1 hx).imp_right (ih x))

theorem Steps.wellFormed {e f : Expr} (h : Steps e f) (he : e.WellFormed) : f.WellFormed := by
  induction h with
  | refl => exact he
  | tail _ step ih => exact step.wellFormed ih

theorem Steps.mem_vars {e s : Expr} (h : Steps e s) : ∀ x ∈ s.vars, x ∈ e.vars := by
  induction h with
  | refl => exact fun x hx => hx
  | tail _ step ih => exact fun x hx => ih x (step.mem_vars x hx)

theorem Steps.eval_eq {env : Env} {e f : Expr} {v : Int} (h : Steps e f)
    (hv : e.eval env = .ok v) : f.eval env = .ok v := by
  induction h with
  | refl => exact hv
  | tail _ step ih => exact step.eval_eq ih

theorem Steps.binary {op : String} {l l' r r' : Expr} (hl : Steps l l') (hr : Steps r r') :
    Steps (.binary op l r) (.binary op l' r') := by
  have h : Steps (.binary op l r) (.binary op l' r) :=
    hl.lift (fun e => Expr.binary op e r) fun _ _ => Step.left
  exact h.trans (hr.lift (Expr.binary op l') fun _ _ => Step.right)

/-! ## Simplification takes steps until none is left -/

theorem simplify_symbol (o : Operator) (l r : Expr) :
    (binary o.symbol l r).simplify = (do
      let l' ← l.simplify
      let r' ← r.simplify
      return simplifyRoot o l' r') := by
  simp only [simplify, operator_symbol, ok_bind]

theorem simplify_binary_eq_ok {op : String} {l r s : Expr} :
    (binary op l r).simplify = .ok s ↔ ∃ o : Operator, op = o.symbol ∧
      ∃ l' r', l.simplify = .ok l' ∧ r.simplify = .ok r' ∧ simplifyRoot o l' r' = s := by
  simp only [simplify, bind_eq_ok, operator_eq_ok, pure_eq_ok, Except.ok.injEq]
  constructor
  · rintro ⟨l', hl, r', hr, o, ho, hs⟩
    exact ⟨o, ho, l', r', hl, hr, hs⟩
  · rintro ⟨o, ho, l', r', hl, hr, hs⟩
    exact ⟨l', hl, r', hr, o, ho, hs⟩

theorem exists_simplify {e : Expr} (he : e.WellFormed) : ∃ s, e.simplify = .ok s := by
  induction e, he using wellFormed_induction with
  | literal v => exact ⟨_, rfl⟩
  | var x => exact ⟨_, rfl⟩
  | binary o l r hl hr ihl ihr =>
    obtain ⟨l', hl'⟩ := ihl
    obtain ⟨r', hr'⟩ := ihr
    exact ⟨_, simplify_binary_eq_ok.2 ⟨o, rfl, l', r', hl', hr', rfl⟩⟩

theorem wellFormed_of_simplify {e s : Expr} (h : e.simplify = .ok s) : e.WellFormed := by
  induction e generalizing s with
  | literal v => trivial
  | var x => trivial
  | binary op l r ihl ihr =>
    obtain ⟨o, ho, l', r', hl, hr, -⟩ := simplify_binary_eq_ok.1 h
    exact wellFormed_binary_iff.2 ⟨o, ho, ihl hl, ihr hr⟩
  | foreign it => cases h

theorem simplifySum_spec (l r : Expr) :
    Rule .plus l r (simplifySum l r) ∨ simplifySum l r = add l r ∧ ∀ e, ¬Rule .plus l r e := by
  by_cases hl : l = .literal 0
  · rw [hl, simplifySum_zero_left]
    exact .inl (.zeroAdd r)
  by_cases hr : r = .literal 0
  · rw [hr, simplifySum_zero_right]
    exact .inl (.addZero l)
  by_cases hlr : ∃ a b, l = .literal a ∧ r = .literal b
  · obtain ⟨a, b, rfl, rfl⟩ := hlr
    rw [simplifySum_literals]
    exact .inl (.sum a b)
  · refine .inr ⟨?_, ?_⟩
    · unfold simplifySum
      rw [if_neg (mt isLiteral_iff.1 hl), if_neg (mt isLiteral_iff.1 hr)]
      split
      · exact absurd ⟨_, _, rfl, rfl⟩ hlr
      · rfl
    · intro e h
      cases h with
      | zeroAdd => exact hl rfl
      | addZero => exact hr rfl
      | sum a b => exact hlr ⟨a, b, rfl, rfl⟩

/-- The rules for products that are left once two literals have been ruled out. -/
theorem simplifyProduct_of_not_literals {l r : Expr}
    (h : ¬∃ a b, l = .literal a ∧ r = .literal b) :
    simplifyProduct l r =
      if l.isLiteral 0 || r.isLiteral 0 then .literal 0
      else if l.isLiteral 1 then r
      else if r.isLiteral 1 then l
      else mul l r := by
  unfold simplifyProduct
  split
  · exact absurd ⟨_, _, rfl, rfl⟩ h
  · rfl

theorem simplifyProduct_spec (l r : Expr) :
    Rule .times l r (simplifyProduct l r) ∨
      simplifyProduct l r = mul l r ∧ ∀ e, ¬Rule .times l r e := by
  by_cases hlr : ∃ a b, l = .literal a ∧ r = .literal b
  · obtain ⟨a, b, rfl, rfl⟩ := hlr
    rw [simplifyProduct_literals]
    exact .inl (.product a b)
  by_cases hl : l = .literal 0
  · rw [hl, simplifyProduct_zero_left]
    exact .inl (.zeroMul r)
  by_cases hr : r = .literal 0
  · rw [hr, simplifyProduct_zero_right]
    exact .inl (.mulZero l)
  by_cases hl' : l = .literal 1
  · rw [hl', simplifyProduct_one_left]
    exact .inl (.oneMul r)
  by_cases hr' : r = .literal 1
  · rw [hr', simplifyProduct_one_right]
    exact .inl (.mulOne l)
  · refine .inr ⟨?_, ?_⟩
    · have hz : ¬(l.isLiteral 0 || r.isLiteral 0) = true := by
        rw [Bool.or_eq_true, isLiteral_iff, isLiteral_iff]
        exact not_or.2 ⟨hl, hr⟩
      rw [simplifyProduct_of_not_literals hlr, if_neg hz, if_neg (mt isLiteral_iff.1 hl'),
        if_neg (mt isLiteral_iff.1 hr')]
    · intro e h
      cases h with
      | product a b => exact hlr ⟨a, b, rfl, rfl⟩
      | zeroMul => exact hl rfl
      | mulZero => exact hr rfl
      | oneMul => exact hl' rfl
      | mulOne => exact hr' rfl

/-- The first rule that fits the root is applied; the node stays only if there is none. -/
theorem simplifyRoot_spec (o : Operator) (l r : Expr) :
    Rule o l r (simplifyRoot o l r) ∨
      simplifyRoot o l r = .binary o.symbol l r ∧ ∀ e, ¬Rule o l r e := by
  cases o with
  | plus => exact simplifySum_spec l r
  | times => exact simplifyProduct_spec l r

theorem steps_simplify {e s : Expr} (h : e.simplify = .ok s) : Steps e s := by
  induction e generalizing s with
  | literal v =>
    cases h
    exact .refl
  | var x =>
    cases h
    exact .refl
  | binary op l r ihl ihr =>
    obtain ⟨o, rfl, l', r', hl, hr, rfl⟩ := simplify_binary_eq_ok.1 h
    have operands : Steps (.binary o.symbol l r) (.binary o.symbol l' r') :=
      Steps.binary (ihl hl) (ihr hr)
    rcases simplifyRoot_spec o l' r' with hrule | ⟨hstay, -⟩
    · exact operands.tail (.root hrule)
    · rw [hstay]
      exact operands
  | foreign it => cases h

theorem wellFormed_simplified {e s : Expr} (h : e.simplify = .ok s) : s.WellFormed :=
  (steps_simplify h).wellFormed (wellFormed_of_simplify h)

theorem irreducible_literal (v : Int) : Irreducible (.literal v) := by
  intro f h
  cases h

theorem irreducible_simplify {e s : Expr} (h : e.simplify = .ok s) : Irreducible s := by
  induction e generalizing s with
  | literal v =>
    cases h
    exact irreducible_literal v
  | var x =>
    cases h
    intro f h
    cases h
  | binary op l r ihl ihr =>
    obtain ⟨o, rfl, l', r', hl, hr, rfl⟩ := simplify_binary_eq_ok.1 h
    rcases simplifyRoot_spec o l' r' with hrule | ⟨hstay, hnone⟩
    · rcases hrule.result with he | he | ⟨v, he⟩
      · rw [he]
        exact ihl hl
      · rw [he]
        exact ihr hr
      · rw [he]
        exact irreducible_literal v
    · rw [hstay]
      intro f hf
      rcases step_binary_iff.1 hf with ⟨p, hp, hrule⟩ | ⟨l'', hstep, -⟩ | ⟨r'', hstep, -⟩
      · rw [← Operator.symbol_injective hp] at hrule
        exact hnone f hrule
      · exact ihl hl l'' hstep
      · exact ihr hr r'' hstep
  | foreign it => cases h

end Expr

end Abacus
