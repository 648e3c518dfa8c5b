import Abacus.Expr.Measure
import Abacus.Proofs.Answer

/-!
# The shape of a tree

Two things are known of a tree before it is evaluated: whether everything in it is a node of a known
kind, and the variables that occur in it. The walks over the shape succeed exactly on the first, and
the second is what they tell.
-/

namespace Abacus

/-- A text that begins with an operator tells with which. -/
theorem Operator.symbol_append_inj {o o' : Operator} {xs ys : List Char}
    (h : o.symbol.toList ++ xs = o'.symbol.toList ++ ys) : o = o' ∧ xs = ys := by
  cases o <;> cases o'
  · exact ⟨rfl, (List.cons.inj h).2⟩
  · exact absurd (List.cons.inj h).1 (by decide)
  · exact absurd (List.cons.inj h).1 (by decide)
  · exact ⟨rfl, (List.cons.inj h).2⟩

namespace Expr

open Answer

/-- Induction over the trees of the language, with one case for each kind of node. -/
@[elab_as_elim]
theorem wellFormed_induction {motive : (e : Expr) → e.WellFormed → Prop}
    (literal : ∀ v, motive (.literal v) trivial)
    (var : ∀ x, motive (.var x) trivial)
    (binary : ∀ (o : Operator) (l r : Expr) (hl : l.WellFormed) (hr : r.WellFormed),
      motive l hl → motive r hr →
      motive (.binary o.symbol l r) (wellFormed_binary_iff.2 ⟨o, rfl, hl, hr⟩))
    (e : Expr) (he : e.WellFormed) : motive e he := by
  induction e with
  | literal v => exact literal v
  | var x => exact var x
  | binary op l r ihl ihr =>
    obtain ⟨o, rfl, hl, hr⟩ := wellFormed_binary_iff.1 he
    exact binary o l r hl hr (ihl hl) (ihr hr)
  | foreign it => exact he.elim

@[simp] theorem wellFormed_symbol_iff {o : Operator} {l r : Expr} :
    WellFormed (.binary o.symbol l r) ↔ l.WellFormed ∧ r.WellFormed := by
  simp [WellFormed]

theorem operator_eq_ok {op : String} {o : Operator} : operator op = .ok o ↔ op = o.symbol := by
  rw [← Operator.ofSymbol?_eq_some_iff]
  unfold operator
  cases Operator.ofSymbol? op <;> simp

/-- Nothing in the tree is foreign. Its operators may be any texts. -/
def Recognised : Expr → Prop
  | .literal _ => True
  | .var _ => True
  | .binary _ l r => l.Recognised ∧ r.Recognised
  | .foreign _ => False

theorem WellFormed.recognised {e : Expr} (he : e.WellFormed) : e.Recognised := by
  induction e, he using wellFormed_induction with
  | literal v => trivial
  | var x => trivial
  | binary o l r hl hr ihl ihr => exact ⟨ihl, ihr⟩

theorem depth_binary_eq_ok {op : String} {l r : Expr} {d : Nat} :
    (binary op l r).depth = .ok d ↔
      ∃ m n, l.depth = .ok m ∧ r.depth = .ok n ∧ 1 + max m n = d := by
  simp only [depth, bind_eq_ok, pure_eq_ok, Except.ok.injEq, exists_and_left]

theorem exists_depth {e : Expr} (he : e.Recognised) : ∃ n, e.depth = .ok n := by
  induction e with
  | literal v => exact ⟨0, rfl⟩
  | var x => exact ⟨0, rfl⟩
  | binary op l r ihl ihr =>
    obtain ⟨m, hm⟩ := ihl he.1
    obtain ⟨n, hn⟩ := ihr he.2
    exact ⟨1 + max m n, by simp [depth, hm, hn]⟩
  | foreign it => exact he.elim

/-- The variables from left to right, as often as they occur; foreign things have none. -/
def vars : Expr → List String
  | .literal _ => []
  | .var name => [name]
  | .binary _ l r => l.vars ++ r.vars
  | .foreign _ => []

/-- The literals from left to right; foreign things have none. -/
def literals : Expr → List Int
  | .literal v => [v]
  | .var _ => []
  | .binary _ l r => l.literals ++ r.literals
  | .foreign _ => []

theorem occurrences_eq_vars {e : Expr} (he : e.Recognised) :
    e.occurrences = .ok e.vars := by
  induction e with
  | literal v => rfl
  | var x => rfl
  | binary op l r ihl ihr => simp [occurrences, ihl he.1, ihr he.2, vars]
  | foreign it => exact he.elim

theorem freeVariables_eq {e : Expr} (he : e.Recognised) :
    e.freeVariables = .ok (e.vars.eraseDups.mergeSort textLE) := by
  simp [freeVariables, occurrences_eq_vars he]

/-- The free variables are the variables that occur. -/
theorem mem_freeVariables {e : Expr} {names : List String} (he : e.Recognised)
    (h : e.freeVariables = .ok names) {x : String} : x ∈ names ↔ x ∈ e.vars := by
  rw [freeVariables_eq he, Except.ok.injEq] at h
  rw [← h, List.mem_mergeSort, List.mem_eraseDups]

end Expr

end Abacus
