import Abacus.Proofs.Expr.Value
import Abacus.Proofs.Slotted

/-!
# Defects of trees

A tree cannot be worked on where a variable is not known, where an operator is not one of the
language and where something stands that is no expression. One tree may have many such defects. Walks
that go from the root downwards and from left to right all end at the first one, whether they look
for slots or for values.
-/

namespace Abacus

open Answer

namespace Expr

/-- The nodes of the tree, each one before its operands and the left operand before the right. -/
def nodes : Expr → List Expr
  | .literal v => [.literal v]
  | .var x => [.var x]
  | .binary op l r => .binary op l r :: (l.nodes ++ r.nodes)
  | .foreign it => [.foreign it]

/-- What is wrong with the root alone, where just the given names are known. -/
def defect? (known : List String) : Expr → Option Fault
  | .literal _ => none
  | .var x => if x ∈ known then none else some (.unboundVariable x)
  | .binary op _ _ =>
    if (Operator.ofSymbol? op).isSome then none else some (.unrecognizedOperator op)
  | .foreign it => some (.unrecognizedNode it.kindName)

def firstDefect? (known : List String) (e : Expr) : Option Fault :=
  e.nodes.findSome? (defect? known)

theorem forall_mem_nodes_binary {p : Expr → Prop} {op : String} {l r : Expr} :
    (∀ n ∈ (binary op l r).nodes, p n) ↔
      p (binary op l r) ∧ (∀ n ∈ l.nodes, p n) ∧ ∀ n ∈ r.nodes, p n := by
  rw [nodes, List.forall_mem_cons, List.forall_mem_append]

/-- What goes from a node to its operands holds everywhere below a node that has it. -/
theorem forall_mem_nodes {p : Expr → Prop} (down : ∀ op l r, p (binary op l r) → p l ∧ p r)
    {e : Expr} (h : p e) : ∀ n ∈ e.nodes, p n := by
  induction e with
  | literal v => exact List.forall_mem_singleton.2 h
  | var x => exact List.forall_mem_singleton.2 h
  | binary op l r ihl ihr =>
    obtain ⟨hl, hr⟩ := down op l r h
    exact forall_mem_nodes_binary.2 ⟨h, ihl hl, ihr hr⟩
  | foreign it => exact List.forall_mem_singleton.2 h

/-- What is found first below a binary node, by any look at one node. -/
theorem findSome?_nodes_binary {α : Type} (look : Expr → Option α) (op : String) (l r : Expr) :
    (binary op l r).nodes.findSome? look =
      (look (binary op l r)).or ((l.nodes.findSome? look).or (r.nodes.findSome? look)) := by
  rw [nodes, List.findSome?_cons, List.findSome?_append]
  cases look (binary op l r) <;> rfl

/-- What is wrong with a root is one of three things, and the message names it. -/
theorem cases_of_defect? {known : List String} {e : Expr} {fault : Fault}
    (h : e.defect? known = some fault) :
    (∃ x, x ∉ known ∧ fault = .unboundVariable x) ∨
      (∃ op, Operator.ofSymbol? op = none ∧ fault = .unrecognizedOperator op) ∨
      ∃ it : Foreign, fault = .unrecognizedNode it.kindName := by
  cases e with
  | literal v => cases h
  | var x =>
    obtain ⟨hx, hfault⟩ := Option.ite_none_left_eq_some.1 h
    exact .inl ⟨x, hx, (Option.some.inj hfault).symm⟩
  | binary op l r =>
    obtain ⟨hop, hfault⟩ := Option.ite_none_left_eq_some.1 h
    exact .inr (.inl ⟨op, Option.not_isSome_iff_eq_none.1 hop, (Option.some.inj hfault).symm⟩)
  | foreign it => exact .inr (.inr ⟨it, (Option.some.inj h).symm⟩)

theorem cases_of_firstDefect? {known : List String} {e : Expr} {fault : Fault}
    (h : e.firstDefect? known = some fault) :
    (∃ x, x ∉ known ∧ fault = .unboundVariable x) ∨
      (∃ op, Operator.ofSymbol? op = none ∧ fault = .unrecognizedOperator op) ∨
      ∃ it : Foreign, fault = .unrecognizedNode it.kindName := by
  obtain ⟨n, -, hn⟩ := List.exists_of_findSome?_eq_some h
  exact cases_of_defect? hn

/-! ## Walks from the root -/

theorem fault?_operator (known : List String) (op : String) (l r : Expr) :
    fault? (operator op) = (binary op l r).defect? known := by
  rw [operator, defect?]
  cases Operator.ofSymbol? op <;> rfl

/-- A walk that looks at the operator, then at the left operand and then at the right one, and
that cannot fail once it has them. -/
theorem fault?_walk {α β : Type} {m : Except Fault Operator} {x y : Except Fault α}
    (f : Operator → α → α → β) :
    fault? (do
      let o ← m
      let a ← x
      let b ← y
      return f o a b) = (fault? m).or ((fault? x).or (fault? y)) :=
  fault?_bind fun o => fault?_both x y (f o)

theorem fault?_slotted (t : Layout) (e : Expr) :
    fault? (e.slotted t) = e.firstDefect? t.names := by
  induction e with
  | literal v => rfl
  | var x =>
    rw [slotted, fault?_bind_pure]
    by_cases hx : x ∈ t.names
    · obtain ⟨i, hi⟩ := Layout.exists_slot hx
      simp [hi, firstDefect?, nodes, defect?, hx]
    · simp [Layout.slot_of_not_mem hx, firstDefect?, nodes, defect?, hx]
  | binary op l r ihl ihr =>
    rw [slotted, fault?_walk, ihl, ihr, fault?_operator t.names op l r]
    exact (findSome?_nodes_binary _ op l r).symm
  | foreign it => rfl

theorem fault?_eval {known : List String} {env : Env} (h : ∀ x, x ∈ env.names ↔ x ∈ known)
    (e : Expr) : fault? (e.eval env) = e.firstDefect? known := by
  induction e with
  | literal v => rfl
  | var x =>
    by_cases hx : x ∈ known
    · obtain ⟨v, hv⟩ := Env.mem_names_iff.1 ((h x).2 hx)
      simp [eval, Env.value_eq_ok.2 hv, firstDefect?, nodes, defect?, hx]
    · have hunbound : env.get? x = none := by
        rw [Option.eq_none_iff_forall_ne_some]
        exact fun v hv => hx ((h x).1 (Env.mem_names_iff.2 ⟨v, hv⟩))
      simp [eval, Env.value_of_unbound hunbound, firstDefect?, nodes, defect?, hx]
  | binary op l r ihl ihr =>
    rw [eval, fault?_walk, ihl, ihr, fault?_operator known op l r]
    exact (findSome?_nodes_binary _ op l r).symm
  | foreign it => rfl

/-- Slotting by a layout and evaluating under an environment for the same names fail for the same
trees, and both name the first defect of the tree. -/
theorem slotting_fails_as_evaluation (e : Expr) (t : Layout) (env : Env)
    (h : ∀ x, x ∈ env.names ↔ x ∈ t.names) :
    ((∃ fault, e.slotted t = .error fault) ↔ ∃ fault, e.eval env = .error fault) ∧
    ∀ fault,
      (e.slotted t = .error fault ↔ e.eval env = .error fault) ∧
      (e.slotted t = .error fault ↔ e.firstDefect? t.names = some fault) ∧
      (e.slotted t = .error fault →
        (∃ x, x ∉ t.names ∧ fault = .unboundVariable x) ∨
        (∃ op, Operator.ofSymbol? op = none ∧ fault = .unrecognizedOperator op) ∨
        ∃ it : Foreign, fault = .unrecognizedNode it.kindName) := by
  have slots : ∀ fault, e.slotted t = .error fault ↔ e.firstDefect? t.names = some fault :=
    fun fault => by rw [← fault?_slotted, fault?_eq_some]
  have values : ∀ fault, e.eval env = .error fault ↔ e.firstDefect? t.names = some fault :=
    fun fault => by rw [← fault?_eval h, fault?_eq_some]
  have same : ∀ fault, e.slotted t = .error fault ↔ e.eval env = .error fault :=
    fun fault => (slots fault).trans (values fault).symm
  refine ⟨exists_congr same, fun fault => ⟨same fault, slots fault, fun hfault => ?_⟩⟩
  exact cases_of_firstDefect? ((slots fault).1 hfault)

/-- The operator at the root of `(x * True) - z` is found first, although the variable `z` is not
known either and a truth value stands where a factor should. With the operator mended, the truth
value comes first. -/
theorem slotting_fails_as_evaluation_first :
    (∀ x, x ∈ (⟨[("y", 1), ("x", 7)]⟩ : Env).names ↔ x ∈ ["x", "y"]) ∧
      (binary "-" (.mul (.var "x") (.foreign (.datum (.bool true) 0))) (.var "z")).slotted
        ⟨["x", "y"], by decide⟩ = .error (.unrecognizedOperator "-") ∧
      (binary "-" (.mul (.var "x") (.foreign (.datum (.bool true) 0))) (.var "z")).eval
        ⟨[("y", 1), ("x", 7)]⟩ = .error (.unrecognizedOperator "-") ∧
      (add (.mul (.var "x") (.foreign (.datum (.bool true) 0))) (.var "z")).slotted
        ⟨["x", "y"], by decide⟩ = .error (.unrecognizedNode "bool") ∧
      (add (.mul (.var "x") (.foreign (.datum (.bool true) 0))) (.var "z")).eval
        ⟨[("y", 1), ("x", 7)]⟩ = .error (.unrecognizedNode "bool") := by
  have hnames : ∀ x, x ∈ (⟨[("y", 1), ("x", 7)]⟩ : Env).names ↔ x ∈ ["x", "y"] := by
    intro x
    simp [Env.names, or_comm]
  obtain ⟨-, operator⟩ := slotting_fails_as_evaluation
    (binary "-" (.mul (.var "x") (.foreign (.datum (.bool true) 0))) (.var "z"))
    ⟨["x", "y"], by decide⟩ ⟨[("y", 1), ("x", 7)]⟩ hnames
  obtain ⟨-, node⟩ := slotting_fails_as_evaluation
    (add (.mul (.var "x") (.foreign (.datum (.bool true) 0))) (.var "z"))
    ⟨["x", "y"], by decide⟩ ⟨[("y", 1), ("x", 7)]⟩ hnames
  have hoperator := (operator (.unrecognizedOperator "-")).2.1.2 rfl
  have hnode := (node (.unrecognizedNode "bool")).2.1.2 rfl
  exact ⟨hnames, hoperator, (operator _).1.1 hoperator, hnode, (node _).1.1 hnode⟩

end Expr

end Abacus
