import Abacus.Proofs.Infix.Spelling

/-!
# The tokens in the tree

The reader moves every operand and operator from the text into the tree, and nothing else. At any
time what it keeps, taken from the outermost level inwards and from left to right, has the nodes of
the tokens so far, in their order: parentheses only move the boundary between two levels. So the
nodes of the finished tree, each operator between its operands, are the tokens of the text without
the parentheses.
-/

namespace Abacus.Infix

/-- A node of an operand tree, without the operands of an operator. -/
inductive Node where
  | number (token : Placed)
  | name (token : Placed)
  | operation (operator : Operator)
deriving DecidableEq, Repr

def Node.leaf? : Node → Option Placed
  | .number t => some t
  | .name t => some t
  | .operation _ => none

def Node.operator? : Node → Option Operator
  | .number _ => none
  | .name _ => none
  | .operation o => some o

/-- The nodes from left to right, each operator between its operands. -/
def Tree.inOrder : Tree → List Node
  | .number t => [.number t]
  | .name t => [.name t]
  | .sum l r => l.inOrder ++ .operation .plus :: r.inOrder
  | .product l r => l.inOrder ++ .operation .times :: r.inOrder

theorem Tree.leaves_eq (t : Tree) : t.leaves = t.inOrder.filterMap Node.leaf? := by
  induction t with
  | number p | name p => rfl
  | sum l r ihl ihr | product l r ihl ihr =>
    simp [leaves, inOrder, ihl, ihr, List.filterMap_cons, Node.leaf?]

theorem Tree.operators_eq (t : Tree) : t.operators = t.inOrder.filterMap Node.operator? := by
  induction t with
  | number p | name p => rfl
  | sum l r ihl ihr | product l r ihl ihr => simp [operators, inOrder, ihl, ihr, Node.operator?]

def Kind.operator? : Kind → Option Operator
  | .plus => some .plus
  | .star => some .times
  | .int | .name | .leftParen | .rightParen => none

/-- The node that a token becomes. -/
def Placed.node? (p : Placed) : Option Node :=
  match p.token.kind with
  | .int => some (.number p)
  | .name => some (.name p)
  | .plus => some (.operation .plus)
  | .star => some (.operation .times)
  | .leftParen | .rightParen => none

theorem Placed.bind_leaf? (p : Placed) :
    p.node?.bind Node.leaf? = if p.token.kind.IsOperand then some p else none := by
  unfold node?
  cases p.token.kind <;> rfl

theorem Placed.bind_operator? (p : Placed) :
    p.node?.bind Node.operator? = p.token.kind.operator? := by
  unfold node?
  cases p.token.kind <;> rfl

/-! ## What the reader keeps -/

/-- The nodes of what stands before an operator, and the operator, if there is one. -/
def nodesBefore (operator : Operator) : Option Tree → List Node
  | none => []
  | some t => t.inOrder ++ [.operation operator]

def Pending.nodes (p : Pending) : List Node :=
  nodesBefore .plus p.sum ++ nodesBefore .times p.factor

/-- The nodes before the innermost open level. -/
def outerNodes : List Pending → List Node
  | [] => []
  | p :: outer => outerNodes outer ++ p.nodes

namespace State

/-- The nodes that the reader keeps, from left to right. -/
def nodes : State → List Node
  | .operand p outer => outerNodes outer ++ p.nodes
  | .joint sum product outer => outerNodes outer ++ (nodesBefore .plus sum ++ product.inOrder)

theorem inOrder_total (sum : Option Tree) (product : Tree) :
    (total sum product).inOrder = nodesBefore .plus sum ++ product.inOrder := by
  cases sum <;> simp [total, nodesBefore, Tree.inOrder]

theorem nodes_place (p : Pending) (outer : List Pending) (t : Tree) :
    (place p outer t).nodes = outerNodes outer ++ (p.nodes ++ t.inOrder) := by
  obtain ⟨sum, factor⟩ := p
  cases factor <;> simp [place, nodes, Pending.nodes, nodesBefore, Tree.inOrder]

/-- A token adds its own node behind all others, or none. -/
theorem nodes_step {s s' : State} {p : Placed} (h : s.step p = .ok s') :
    s'.nodes = s.nodes ++ p.node?.toList := by
  unfold Placed.node?
  cases step_eq_ok.1 h with
  | number hk | name hk =>
    rw [nodes_place, hk]
    simp [nodes, Tree.inOrder]
  | descend hk =>
    rw [hk]
    rfl
  | plus hk =>
    rw [hk]
    simp [nodes, Pending.nodes, nodesBefore, inOrder_total]
  | star hk =>
    rw [hk]
    simp [nodes, Pending.nodes, nodesBefore]
  | ascend hk =>
    rw [nodes_place, inOrder_total, hk]
    simp [nodes, outerNodes]

theorem nodes_run {s s' : State} {ps : List Placed} (h : ps.foldlM step s = .ok s') :
    s'.nodes = s.nodes ++ ps.filterMap Placed.node? := by
  induction ps generalizing s with
  | nil =>
    cases h
    simp
  | cons p ps ih =>
    rw [List.foldlM_cons, Answer.bind_eq_ok] at h
    obtain ⟨s₁, hstep, hrun⟩ := h
    rw [ih hrun, nodes_step hstep]
    cases hp : p.node? <;> simp [hp]

theorem inOrder_finish {s : State} {t : Tree} (h : s.finish = .ok t) : t.inOrder = s.nodes := by
  cases s with
  | operand p outer => cases h
  | joint sum product outer =>
    cases outer with
    | nil =>
      cases h
      exact inOrder_total sum product
    | cons p outer => cases h

end State

/-! ## The tree of a text -/

/-- The characters are a number in decimal digits, with a minus sign in front of it or none. -/
def Decimal (cs : List Char) (v : Int) : Prop :=
  ∃ ds : List Char, ds ≠ [] ∧ (∀ d ∈ ds, d.isDigit) ∧
    (cs = ds ∧ v = Nat.ofDigitChars 10 ds 0 ∨ cs = '-' :: ds ∧ v = -Nat.ofDigitChars 10 ds 0)

theorem Token.Valid.decimal {t : Token} (ht : t.Valid) (hk : t.kind = .int) :
    Decimal t.lexeme t.toInt := by
  obtain ⟨k, lexeme⟩ := t
  cases hk
  obtain ⟨ds, hne, hds, rfl | rfl⟩ := ht
  · exact ⟨_, hne, hds, .inl ⟨rfl, toInt_of_digits hds .int⟩⟩
  · exact ⟨ds, hne, hds, .inr ⟨rfl, rfl⟩⟩

/-- The tree has the tokens of the text, without the parentheses, as its nodes from left to right,
and each of its leaves knows where it stands. -/
structure Tree.KeepsTokens (t : Tree) (text : List Char) (ps : List Placed) : Prop where
  cut : CutInto [] .start text ps
  inOrder : t.inOrder = ps.filterMap Placed.node?
  leaves : t.leaves = ps.filter fun p => p.token.kind.IsOperand
  operators : t.operators = ps.filterMap fun p => p.token.kind.operator?
  shown : ∀ p ∈ t.leaves, p.place.Shows text p.token.lexeme
  ascending : t.leaves.Pairwise fun p q => p.place.Precedes q.place
  decimal : ∀ p ∈ t.leaves, p.token.kind = .int → Decimal p.token.lexeme p.token.toInt

theorem Tree.keepsTokens_of_inOrder {t : Tree} {text : List Char} {ps : List Placed}
    (hcut : CutInto [] .start text ps) (h : t.inOrder = ps.filterMap Placed.node?) :
    t.KeepsTokens text ps := by
  have hleaves : t.leaves = ps.filter fun p => p.token.kind.IsOperand := by
    rw [t.leaves_eq, h, List.filterMap_filterMap, ← List.filterMap_eq_filter]
    refine List.filterMap_congr fun p _ => ?_
    rw [p.bind_leaf?, Option.guard]
    simp only [decide_eq_true_eq]
  have hmem : ∀ p ∈ t.leaves, p ∈ ps := by
    rw [hleaves]
    exact fun p hp => List.mem_of_mem_filter hp
  refine ⟨hcut, h, hleaves, ?_, fun p hp => hcut.shows p (hmem p hp), ?_,
    fun p hp => (hcut.valid p (hmem p hp)).decimal⟩
  · rw [t.operators_eq, h, List.filterMap_filterMap]
    exact List.filterMap_congr fun p _ => p.bind_operator?
  · rw [hleaves]
    exact hcut.pairwise_precedes.filter _

/-- The tree that is read has the operands and operators of the text in their order, each once and
each operand at its line and column, and reading the text as an expression yields that tree. -/
theorem tree_keeps_tokens {text : String} {t : Tree} (h : Tree.read text = .ok t) :
    (∃ ps, t.KeepsTokens text.toList ps) ∧ parse text = .ok t.toExpr := by
  obtain ⟨hstray, s, hrun, hfinish⟩ := State.run_eq_ok.1 h
  have hnodes : t.inOrder = (lex .start text.toList).tokens.filterMap Placed.node? :=
    (State.inOrder_finish hfinish).trans (State.nodes_run hrun)
  exact ⟨⟨_, Tree.keepsTokens_of_inOrder (cutInto_of_lex .start hstray) hnodes⟩,
    parse_eq_ok_iff_read.2 ⟨t, h, rfl⟩⟩

/-- The parentheses and the blanks are gone, and the last operand is in the second line. -/
theorem tree_keeps_tokens_lines : ∃ t, Tree.read "(x + -12)\n  *y" = .ok t ∧
    t.leaves = [⟨⟨.name, ['x']⟩, 1, 1, 2⟩, ⟨⟨.int, ['-', '1', '2']⟩, 5, 1, 6⟩,
      ⟨⟨.name, ['y']⟩, 13, 2, 4⟩] ∧
    (∃ ps, t.KeepsTokens "(x + -12)\n  *y".toList ps) ∧
    parse "(x + -12)\n  *y" = .ok (.mul (.add (.var "x") (.literal (-12))) (.var "y")) := by
  have hread : Tree.read "(x + -12)\n  *y" = .ok
      (.product (.sum (.name ⟨⟨.name, ['x']⟩, 1, 1, 2⟩)
        (.number ⟨⟨.int, ['-', '1', '2']⟩, 5, 1, 6⟩)) (.name ⟨⟨.name, ['y']⟩, 13, 2, 4⟩)) := by
    decide +kernel
  obtain ⟨hkeeps, hparse⟩ := tree_keeps_tokens hread
  exact ⟨_, hread, rfl, hkeeps, hparse⟩

end Abacus.Infix
