import Abacus.Expr.Measure
import Abacus.Proofs.Expr.Shape
import Mathlib.Data.List.Flatten
import Mathlib.Data.List.Nodup
import Mathlib.Data.List.ProdSigma

/-!
# The corpus is complete

Every tree over the given leaves and of at most the given depth is in the corpus, however lopsided
it is, and nothing else is. Each is there once, unless a leaf is given twice. A greater depth only
adds trees.
-/

namespace Abacus.Expr

/-- A tree of the language over these leaves, of at most this depth. -/
structure BuiltOver (literals : List Int) (names : List String) (depth : Nat) (e : Expr) :
    Prop where
  wellFormed : e.WellFormed
  depth_le : ∃ n ≤ depth, e.depth = .ok n
  literals_mem : ∀ v ∈ e.literals, v ∈ literals
  names_mem : ∀ x ∈ e.vars, x ∈ names

section BuiltOver

variable {literals : List Int} {names : List String} {depth : Nat}

theorem builtOver_literal {v : Int} :
    BuiltOver literals names depth (.literal v) ↔ v ∈ literals :=
  ⟨fun h => h.literals_mem v List.mem_cons_self, fun h =>
    ⟨trivial, ⟨0, Nat.zero_le depth, rfl⟩, List.forall_mem_singleton.2 h, List.forall_mem_nil _⟩⟩

theorem builtOver_var {x : String} : BuiltOver literals names depth (.var x) ↔ x ∈ names :=
  ⟨fun h => h.names_mem x List.mem_cons_self, fun h =>
    ⟨trivial, ⟨0, Nat.zero_le depth, rfl⟩, List.forall_mem_nil _, List.forall_mem_singleton.2 h⟩⟩

theorem not_builtOver_zero {op : String} {l r : Expr} :
    ¬BuiltOver literals names 0 (.binary op l r) := by
  intro h
  obtain ⟨n, hn, hdepth⟩ := h.depth_le
  obtain ⟨m, k, -, -, hmax⟩ := depth_binary_eq_ok.1 hdepth
  omega

/-- An operator adds one to the depth of its deeper operand. -/
theorem builtOver_binary {o : Operator} {l r : Expr} :
    BuiltOver literals names (depth + 1) (.binary o.symbol l r) ↔
      BuiltOver literals names depth l ∧ BuiltOver literals names depth r := by
  constructor
  · rintro ⟨hwf, ⟨n, hn, hdepth⟩, hliterals, hnames⟩
    obtain ⟨hl, hr⟩ := wellFormed_symbol_iff.1 hwf
    obtain ⟨m, k, hm, hk, hmax⟩ := depth_binary_eq_ok.1 hdepth
    obtain ⟨hvl, hvr⟩ := List.forall_mem_append.1 hliterals
    obtain ⟨hxl, hxr⟩ := List.forall_mem_append.1 hnames
    have hboth : max m k ≤ depth := by omega
    exact ⟨⟨hl, ⟨m, (Nat.max_le.1 hboth).1, hm⟩, hvl, hxl⟩,
      ⟨hr, ⟨k, (Nat.max_le.1 hboth).2, hk⟩, hvr, hxr⟩⟩
  · rintro ⟨⟨hl, ⟨m, hm, hml⟩, hvl, hxl⟩, ⟨hr, ⟨k, hk, hkr⟩, hvr, hxr⟩⟩
    refine ⟨wellFormed_symbol_iff.2 ⟨hl, hr⟩, ⟨1 + max m k, ?_, ?_⟩,
      List.forall_mem_append.2 ⟨hvl, hvr⟩, List.forall_mem_append.2 ⟨hxl, hxr⟩⟩
    · have hboth : max m k ≤ depth := Nat.max_le.2 ⟨hm, hk⟩
      omega
    · exact depth_binary_eq_ok.2 ⟨m, k, hml, hkr, rfl⟩

theorem BuiltOver.mono {depth' : Nat} {e : Expr} (h : BuiltOver literals names depth e)
    (hle : depth ≤ depth') : BuiltOver literals names depth' e := by
  obtain ⟨n, hn, hdepth⟩ := h.depth_le
  exact ⟨h.wellFormed, ⟨n, Nat.le_trans hn hle, hdepth⟩, h.literals_mem, h.names_mem⟩

/-- A tree is a leaf, or it has an operator at the root and operands that are less deep. -/
theorem builtOver_succ {e : Expr} : BuiltOver literals names (depth + 1) e ↔
    BuiltOver literals names 0 e ∨ ∃ o : Operator, ∃ l, BuiltOver literals names depth l ∧
      ∃ r, BuiltOver literals names depth r ∧ e = binary o.symbol l r := by
  constructor
  · intro h
    cases e with
    | literal v => exact .inl (builtOver_literal.2 (builtOver_literal.1 h))
    | var x => exact .inl (builtOver_var.2 (builtOver_var.1 h))
    | binary op l r =>
      obtain ⟨o, rfl, -, -⟩ := wellFormed_binary_iff.1 h.wellFormed
      obtain ⟨hl, hr⟩ := builtOver_binary.1 h
      exact .inr ⟨o, l, hl, r, hr, rfl⟩
    | foreign it => exact h.wellFormed.elim
  · rintro (h | ⟨o, l, hl, r, hr, rfl⟩)
    · exact h.mono (Nat.zero_le _)
    · exact builtOver_binary.2 ⟨hl, hr⟩

end BuiltOver

/-! ## Leaves -/

section Leaves

variable {literals : List Int} {names : List String}

theorem mem_leaves {e : Expr} : e ∈ leaves literals names ↔ BuiltOver literals names 0 e := by
  rw [leaves, List.mem_append, List.mem_map, List.mem_map]
  constructor
  · rintro (⟨v, hv, rfl⟩ | ⟨x, hx, rfl⟩)
    · exact builtOver_literal.2 hv
    · exact builtOver_var.2 hx
  · intro h
    cases e with
    | literal v => exact .inl ⟨v, builtOver_literal.1 h, rfl⟩
    | var x => exact .inr ⟨x, builtOver_var.1 h, rfl⟩
    | binary op l r => exact absurd h not_builtOver_zero
    | foreign it => exact h.wellFormed.elim

theorem nodup_leaves : (leaves literals names).Nodup ↔ literals.Nodup ∧ names.Nodup := by
  have hliteral : Function.Injective literal := fun _ _ => literal.inj
  have hvar : Function.Injective var := fun _ _ => var.inj
  rw [leaves, List.nodup_append, List.nodup_map_iff hliteral, List.nodup_map_iff hvar]
  refine and_congr_right fun _ => and_iff_left ?_
  intro e he f hf
  obtain ⟨v, -, rfl⟩ := List.mem_map.1 he
  obtain ⟨x, -, rfl⟩ := List.mem_map.1 hf
  exact Expr.noConfusion

theorem length_leaves : (leaves literals names).length = literals.length + names.length := by
  rw [leaves, List.length_append, List.length_map, List.length_map]

end Leaves

/-! ## Pairs -/

/-- The two operators, each with every pair of operands. -/
theorem pairs_eq (trees : List Expr) : pairs trees =
    [Operator.plus, .times].flatMap fun o =>
      (trees ×ˢ trees).map fun p => binary o.symbol p.1 p.2 := by
  simp [pairs, SProd.sprod, List.product, List.map_flatMap, Function.comp_def]

theorem mem_pairs {trees : List Expr} {e : Expr} : e ∈ pairs trees ↔
    ∃ o : Operator, ∃ l ∈ trees, ∃ r ∈ trees, e = binary o.symbol l r := by
  rw [pairs_eq, List.mem_flatMap]
  constructor
  · rintro ⟨o, -, he⟩
    obtain ⟨⟨l, r⟩, hp, rfl⟩ := List.mem_map.1 he
    obtain ⟨hl, hr⟩ := List.mem_product.1 hp
    exact ⟨o, l, hl, r, hr, rfl⟩
  · rintro ⟨o, l, hl, r, hr, rfl⟩
    refine ⟨o, by cases o <;> simp, ?_⟩
    exact List.mem_map.2 ⟨(l, r), List.mem_product.2 ⟨hl, hr⟩, rfl⟩

theorem nodup_pairs {trees : List Expr} (h : trees.Nodup) : (pairs trees).Nodup := by
  rw [pairs_eq, List.nodup_flatMap]
  refine ⟨fun o _ => ?_, ?_⟩
  · refine (h.product h).map ?_
    rintro ⟨l, r⟩ ⟨l', r'⟩ heq
    obtain ⟨-, hl, hr⟩ := binary.inj heq
    exact Prod.ext hl hr
  · refine List.pairwise_pair.2 ?_
    intro e hplus htimes
    obtain ⟨p, -, rfl⟩ := List.mem_map.1 hplus
    obtain ⟨q, -, heq⟩ := List.mem_map.1 htimes
    exact absurd (binary.inj heq).1 (by decide)

theorem length_pairs (trees : List Expr) :
    (pairs trees).length = 2 * (trees.length * trees.length) := by
  simp only [pairs_eq, List.flatMap_cons, List.flatMap_nil, List.length_append, List.length_map,
    List.length_product, List.length_nil]
  omega

theorem pairs_sublist {trees others : List Expr} (h : trees.Sublist others) :
    (pairs trees).Sublist (pairs others) := by
  refine List.Sublist.flatMap_right _ fun build _ => ?_
  have hright : (trees.flatMap fun l => trees.map (build l)).Sublist
      (trees.flatMap fun l => others.map (build l)) :=
    List.Sublist.flatMap_right _ fun l _ => h.map (build l)
  exact hright.trans (h.flatMap _)

/-! ## The corpus -/

section Corpus

variable {literals : List Int} {names : List String}

theorem mem_corpus {depth : Nat} {e : Expr} :
    e ∈ corpus literals names depth ↔ BuiltOver literals names depth e := by
  induction depth generalizing e with
  | zero => exact mem_leaves
  | succ depth ih =>
    rw [corpus, List.mem_append, mem_leaves, mem_pairs, builtOver_succ]
    simp only [ih]

theorem nodup_corpus (depth : Nat) :
    (corpus literals names depth).Nodup ↔ literals.Nodup ∧ names.Nodup := by
  rw [← nodup_leaves]
  induction depth with
  | zero => rfl
  | succ depth ih =>
    rw [corpus, List.nodup_append]
    refine ⟨fun h => h.1, fun h => ⟨h, nodup_pairs (ih.2 h), ?_⟩⟩
    -- A pair is no leaf: it has an operator.
    rintro e he _ hpair rfl
    obtain ⟨o, l, -, r, -, rfl⟩ := mem_pairs.1 hpair
    exact not_builtOver_zero (mem_leaves.1 he)

theorem corpus_sublist_succ (depth : Nat) :
    (corpus literals names depth).Sublist (corpus literals names (depth + 1)) := by
  induction depth with
  | zero => exact List.sublist_append_left _ _
  | succ depth ih => exact (List.Sublist.refl _).append (pairs_sublist ih)

end Corpus

/-- The corpus has the trees over the leaves up to the depth and no others. A tree is repeated only
if a leaf was, and the corpus of the next depth has all that this one has, in the same order. -/
theorem corpus_exhausts (literals : List Int) (names : List String) (depth : Nat) :
    (∀ e, e ∈ corpus literals names depth ↔ BuiltOver literals names depth e) ∧
    ((corpus literals names depth).Nodup ↔ literals.Nodup ∧ names.Nodup) ∧
    (corpus literals names 0).length = literals.length + names.length ∧
    (corpus literals names (depth + 1)).length = literals.length + names.length +
      2 * ((corpus literals names depth).length * (corpus literals names depth).length) ∧
    (corpus literals names depth).Sublist (corpus literals names (depth + 1)) := by
  refine ⟨fun e => mem_corpus, nodup_corpus depth, length_leaves, ?_, corpus_sublist_succ depth⟩
  rw [corpus, List.length_append, length_leaves, length_pairs]

end Abacus.Expr
