import Abacus.Proofs.Expr.Defect
import Abacus.Proofs.Expr.NormalForm

/-!
# Simplification makes trees smaller

A rule puts one of the operands, or a literal, in the place of a whole node. So every step takes
nodes away and makes no way down longer, and a tree that simplification leaves at its size was left
alone. Such a tree has no place at which a rule fits.
-/

namespace Abacus.Expr

open Answer

theorem length_nodes_binary (op : String) (l r : Expr) :
    (binary op l r).nodes.length = 1 + (l.nodes.length + r.nodes.length) := by
  rw [nodes, List.length_cons, List.length_append, Nat.add_comm]

theorem length_nodes_pos (e : Expr) : 0 < e.nodes.length := by
  cases e with
  | binary op l r =>
    rw [length_nodes_binary]
    omega
  | _ => exact Nat.one_pos

/-- The size is the number of nodes. -/
theorem size_eq {e : Expr} (he : e.Recognised) : e.size = .ok e.nodes.length := by
  induction e with
  | literal v => rfl
  | var x => rfl
  | binary op l r ihl ihr =>
    rw [size, ihl he.1, ihr he.2, ok_bind, ok_bind, pure_eq_ok, length_nodes_binary, Nat.add_assoc]
  | foreign it => exact he.elim

/-! ## One step -/

theorem Rule.length_nodes_lt {o : Operator} {l r e : Expr} (h : Rule o l r e) :
    e.nodes.length < (binary o.symbol l r).nodes.length := by
  have hl : 0 < l.nodes.length := l.length_nodes_pos
  have hr : 0 < r.nodes.length := r.length_nodes_pos
  rw [length_nodes_binary]
  rcases h.result with rfl | rfl | ⟨v, rfl⟩
  · omega
  · omega
  · show 1 < 1 + (l.nodes.length + r.nodes.length)
    omega

theorem Rule.exists_depth_le {o : Operator} {l r e : Expr} {m n : Nat} (h : Rule o l r e)
    (hl : l.depth = .ok m) (hr : r.depth = .ok n) : ∃ d ≤ max m n, e.depth = .ok d := by
  rcases h.result with rfl | rfl | ⟨v, rfl⟩
  · exact ⟨m, Nat.le_max_left m n, hl⟩
  · exact ⟨n, Nat.le_max_right m n, hr⟩
  · exact ⟨0, Nat.zero_le _, rfl⟩

theorem Step.length_nodes_lt {e f : Expr} (h : Step e f) : f.nodes.length < e.nodes.length := by
  induction h with
  | root h => exact h.length_nodes_lt
  | left h ih =>
    rw [length_nodes_binary, length_nodes_binary]
    omega
  | right h ih =>
    rw [length_nodes_binary, length_nodes_binary]
    omega

theorem Step.exists_depth_le {e f : Expr} {c : Nat} (h : Step e f) (hc : e.depth = .ok c) :
    ∃ d ≤ c, f.depth = .ok d := by
  induction h generalizing c with
  | root h =>
    obtain ⟨m, n, hm, hn, rfl⟩ := depth_binary_eq_ok.1 hc
    obtain ⟨d, hd, hdepth⟩ := h.exists_depth_le hm hn
    exact ⟨d, Nat.le_trans hd (Nat.le_add_left _ 1), hdepth⟩
  | left h ih =>
    obtain ⟨m, n, hm, hn, rfl⟩ := depth_binary_eq_ok.1 hc
    obtain ⟨d, hd, hdepth⟩ := ih hm
    exact ⟨1 + max d n, by omega, depth_binary_eq_ok.2 ⟨d, n, hdepth, hn, rfl⟩⟩
  | right h ih =>
    obtain ⟨m, n, hm, hn, rfl⟩ := depth_binary_eq_ok.1 hc
    obtain ⟨d, hd, hdepth⟩ := ih hn
    exact ⟨1 + max m d, by omega, depth_binary_eq_ok.2 ⟨m, d, hm, hdepth, rfl⟩⟩

/-! ## Any number of steps -/

theorem Steps.eq_or_length_nodes_lt {e f : Expr} (h : Steps e f) :
    f = e ∨ f.nodes.length < e.nodes.length := by
  induction h with
  | refl => exact .inl rfl
  | tail _ step ih =>
    have hstep := step.length_nodes_lt
    rcases ih with rfl | ih
    · exact .inr hstep
    · exact .inr (Nat.lt_trans hstep ih)

/-- A tree that is reached by steps is the same tree or a smaller one. -/
theorem Steps.length_nodes_eq_iff {e f : Expr} (h : Steps e f) :
    f.nodes.length = e.nodes.length ↔ f = e := by
  refine ⟨fun hlength => ?_, fun heq => congrArg (List.length ∘ nodes) heq⟩
  rcases h.eq_or_length_nodes_lt with heq | hlt
  · exact heq
  · exact absurd hlength (Nat.ne_of_lt hlt)

theorem Steps.length_nodes_le {e f : Expr} (h : Steps e f) :
    f.nodes.length ≤ e.nodes.length := by
  rcases h.eq_or_length_nodes_lt with rfl | hlt
  · exact Nat.le_refl _
  · exact Nat.le_of_lt hlt

theorem Steps.exists_depth_le {e f : Expr} {c : Nat} (h : Steps e f) (hc : e.depth = .ok c) :
    ∃ d ≤ c, f.depth = .ok d := by
  induction h with
  | refl => exact ⟨c, Nat.le_refl c, hc⟩
  | tail _ step ih =>
    obtain ⟨m, hm, hdepth⟩ := ih
    obtain ⟨d, hd, hdepth'⟩ := step.exists_depth_le hdepth
    exact ⟨d, Nat.le_trans hd hm, hdepth'⟩

/-! ## Trees that are left alone -/

/-- Where no rule fits in a tree, none fits in a part of it. -/
theorem irreducible_nodes {e : Expr} (he : e.WellFormed) (hi : Irreducible e) :
    ∀ n ∈ e.nodes, n.WellFormed ∧ Irreducible n :=
  forall_mem_nodes (p := fun n => n.WellFormed ∧ Irreducible n)
    (fun _ _ _ h => ⟨⟨h.1.2.1, fun _ hf => h.2 _ (.left hf)⟩, h.1.2.2, fun _ hf => h.2 _ (.right hf)⟩)
    ⟨he, hi⟩

/-- What simplification leaves alone it leaves alone in every part. -/
theorem simplify_nodes_of_simplify {e : Expr} (h : e.simplify = .ok e) :
    ∀ n ∈ e.nodes, Irreducible n ∧ n.simplify = .ok n := by
  intro n hn
  obtain ⟨hwf, hi⟩ := irreducible_nodes (wellFormed_of_simplify h) (irreducible_simplify h) n hn
  exact ⟨hi, simplify_of_irreducible hwf hi⟩

/-- Simplification makes no tree larger or deeper, and makes every tree smaller that it changes. A
tree that keeps its size was simplified before, in every part. -/
theorem simplify_shrinks (e : Expr) (he : e.WellFormed) :
    ∃ s m n c d, e.simplify = .ok s ∧ e.size = .ok m ∧ s.size = .ok n ∧
      e.depth = .ok c ∧ s.depth = .ok d ∧
      n ≤ m ∧ (n = m ↔ s = e) ∧ d ≤ c ∧
      (n = m → ∀ t ∈ e.nodes, Irreducible t ∧ t.simplify = .ok t) := by
  obtain ⟨s, hs⟩ := exists_simplify he
  obtain ⟨c, hc⟩ := exists_depth he.recognised
  have steps : Steps e s := steps_simplify hs
  obtain ⟨d, hd, hdepth⟩ := steps.exists_depth_le hc
  refine ⟨s, _, _, c, d, hs, size_eq he.recognised, size_eq (wellFormed_simplified hs).recognised,
    hc, hdepth, steps.length_nodes_le, steps.length_nodes_eq_iff, hd, fun hsize => ?_⟩
  have hsame : s = e := steps.length_nodes_eq_iff.1 hsize
  rw [hsame] at hs
  exact simplify_nodes_of_simplify hs

/-- `(x * x + 0) * 1 + (2 * 3) * y` loses six of its thirteen nodes and two of its four levels. What
it becomes keeps its size, so its products were simplified before. -/
theorem simplify_shrinks_polynomial :
    Demo.polynomial.WellFormed ∧
    (∃ s, Demo.polynomial.simplify = .ok s ∧ Demo.polynomial.size = .ok 13 ∧ s.size = .ok 7 ∧
      Demo.polynomial.depth = .ok 4 ∧ s.depth = .ok 2 ∧ s ≠ Demo.polynomial) ∧
    (add (.mul (.var "x") (.var "x")) (.mul (.literal 6) (.var "y"))).WellFormed ∧
    (mul (.literal 6) (.var "y")).simplify = .ok (.mul (.literal 6) (.var "y")) := by
  have he : Demo.polynomial.WellFormed := by decide
  have hf : (add (.mul (.var "x") (.var "x")) (.mul (.literal 6) (.var "y"))).WellFormed := by decide
  have hmem : mul (.literal 6) (.var "y") ∈
      (add (.mul (.var "x") (.var "x")) (.mul (.literal 6) (.var "y"))).nodes :=
    List.mem_cons_of_mem _ (List.mem_append_right _ List.mem_cons_self)
  obtain ⟨s, m, n, -, -, hs, hm, hn, -, -, -, changed, -, -⟩ := simplify_shrinks _ he
  obtain ⟨t, m', n', -, -, ht, hm', hn', -, -, -, -, -, leftAlone⟩ := simplify_shrinks _ hf
  cases hs
  cases hm
  cases hn
  cases ht
  have hsize : n' = m' := Except.ok.inj (hn'.symm.trans hm')
  refine ⟨he, ⟨_, rfl, rfl, rfl, rfl, rfl, ?_⟩, hf, (leftAlone hsize _ hmem).2⟩
  exact fun heq => absurd (changed.2 heq) (by decide)

end Abacus.Expr
