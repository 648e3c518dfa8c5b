import Abacus.Proofs.Compile
import Abacus.Proofs.Expr.Defect
import Abacus.Proofs.Expr.Record

/-!
# Which trees belong to the language

A tree may be flawed whatever variables are known: it may hold something that is no expression, or an
operator that is not one of the language. Walks over the shape mind the first kind of flaw only; all
other work minds both, and where a tree has several flaws it depends on the order of the work which
one is found. Work that asks for the operator before the operands finds the first flaw from the root
downwards, and work that asks for it behind the operands the first one from the leaves upwards.
-/

namespace Abacus

open Answer

/-- What the writing of a record reports in place of a fault of evaluation. -/
def Fault.inRecord : Fault → Fault
  | .unrecognizedOperator op => .unwritableOperator op
  | fault => fault

namespace Expr

/-- The nodes of the tree, each one behind its operands and the left operand before the right. -/
def nodesUpwards : Expr → List Expr
  | .literal v => [.literal v]
  | .var x => [.var x]
  | .binary op l r => l.nodesUpwards ++ r.nodesUpwards ++ [.binary op l r]
  | .foreign it => [.foreign it]

/-- The fault of a node that is no expression. -/
def unknownNode? : Expr → Option Fault
  | .literal _ => none
  | .var _ => none
  | .binary _ _ _ => none
  | .foreign it => some (.unrecognizedNode it.kindName)

/-- The fault of a node whose operator is none. -/
def unknownOperator? : Expr → Option Fault
  | .literal _ => none
  | .var _ => none
  | .binary op _ _ =>
    if (Operator.ofSymbol? op).isSome then none else some (.unrecognizedOperator op)
  | .foreign _ => none

/-- What is wrong with the root alone, whatever variables are known. -/
def flaw? (e : Expr) : Option Fault := e.unknownOperator?.or e.unknownNode?

/-- The leftmost node that is no expression; such nodes have no operands. -/
def leftmostUnknownNode? (e : Expr) : Option Fault := e.nodes.findSome? unknownNode?

def firstUnknownOperator? (e : Expr) : Option Fault := e.nodes.findSome? unknownOperator?

def firstFlaw? (e : Expr) : Option Fault := e.nodes.findSome? flaw?

def firstFlawUpwards? (e : Expr) : Option Fault := e.nodesUpwards.findSome? flaw?

/-- What is found last of all at a binary node itself. -/
theorem findSome?_nodesUpwards_binary {α : Type} (look : Expr → Option α) (op : String)
    (l r : Expr) :
    (binary op l r).nodesUpwards.findSome? look =
      (l.nodesUpwards.findSome? look).or
        ((r.nodesUpwards.findSome? look).or (look (binary op l r))) := by
  rw [nodesUpwards, List.findSome?_append, List.findSome?_append, List.findSome?_singleton,
    Option.or_assoc]

/-! ## Flawless trees -/

theorem mem_nodesUpwards {e n : Expr} : n ∈ e.nodesUpwards ↔ n ∈ e.nodes := by
  induction e with
  | literal v => rfl
  | var x => rfl
  | binary op l r ihl ihr =>
    simp only [nodesUpwards, nodes, List.mem_append, List.mem_cons, ihl, ihr,
      List.not_mem_nil, or_false]
    exact or_comm
  | foreign it => rfl

theorem leftmostUnknownNode?_eq_none_iff {e : Expr} :
    e.leftmostUnknownNode? = none ↔ e.Recognised := by
  induction e with
  | literal v => exact ⟨fun _ => trivial, fun _ => rfl⟩
  | var x => exact ⟨fun _ => trivial, fun _ => rfl⟩
  | binary op l r ihl ihr =>
    rw [leftmostUnknownNode?, findSome?_nodes_binary, unknownNode?, Option.none_or,
      Option.or_eq_none_iff]
    exact and_congr ihl ihr
  | foreign it => exact ⟨fun h => (nomatch h), False.elim⟩

theorem unknownOperator?_binary_eq_none_iff {op : String} {l r : Expr} :
    (binary op l r).unknownOperator? = none ↔ (Operator.ofSymbol? op).isSome := by
  rw [unknownOperator?]
  cases Operator.ofSymbol? op <;> simp

theorem firstFlaw?_eq_none_iff {e : Expr} : e.firstFlaw? = none ↔ e.WellFormed := by
  induction e with
  | literal v => exact ⟨fun _ => trivial, fun _ => rfl⟩
  | var x => exact ⟨fun _ => trivial, fun _ => rfl⟩
  | binary op l r ihl ihr =>
    rw [firstFlaw?, findSome?_nodes_binary, flaw?, unknownNode?, Option.or_none,
      Option.or_eq_none_iff, Option.or_eq_none_iff, unknownOperator?_binary_eq_none_iff]
    exact and_congr Iff.rfl (and_congr ihl ihr)
  | foreign it => exact ⟨fun h => (nomatch h), False.elim⟩

/-- In which order the nodes are looked at makes no difference to whether a flaw is found. -/
theorem firstFlawUpwards?_eq_none_iff {e : Expr} :
    e.firstFlawUpwards? = none ↔ e.WellFormed := by
  rw [← firstFlaw?_eq_none_iff, firstFlawUpwards?, firstFlaw?, List.findSome?_eq_none_iff,
    List.findSome?_eq_none_iff]
  exact forall_congr' fun n => imp_congr_left mem_nodesUpwards

theorem unknownNode?_or_unknownOperator?_eq_none_iff {e : Expr} :
    e.leftmostUnknownNode?.or e.firstUnknownOperator? = none ↔ e.WellFormed := by
  rw [← firstFlaw?_eq_none_iff, Option.or_eq_none_iff, leftmostUnknownNode?,
    firstUnknownOperator?, firstFlaw?]
  simp only [List.findSome?_eq_none_iff, flaw?, Option.or_eq_none_iff]
  constructor
  · rintro ⟨known, operators⟩ n hn
    exact ⟨operators n hn, known n hn⟩
  · intro h
    exact ⟨fun n hn => (h n hn).2, fun n hn => (h n hn).1⟩

/-! ## What each walk finds -/

/-- A walk that looks at no operator, and that cannot fail once it has both operands. -/
theorem fault?_shapeWalk {α : Type} {walk : Expr → Except Fault α} {f : α → α → α}
    (literal : ∀ v, fault? (walk (.literal v)) = none)
    (var : ∀ x, fault? (walk (.var x)) = none)
    (binary : ∀ op l r, walk (.binary op l r) = do
      let a ← walk l
      let b ← walk r
      return f a b)
    (foreign : ∀ it, walk (.foreign it) = reject it) (e : Expr) :
    fault? (walk e) = e.leftmostUnknownNode? := by
  induction e with
  | literal v => exact literal v
  | var x => exact var x
  | binary op l r ihl ihr =>
    rw [binary, fault?_both, ihl, ihr]
    exact (findSome?_nodes_binary unknownNode? op l r).symm
  | foreign it =>
    rw [foreign]
    rfl

theorem fault?_size (e : Expr) : fault? e.size = e.leftmostUnknownNode? :=
  fault?_shapeWalk (fun _ => rfl) (fun _ => rfl) (fun _ _ _ => rfl) (fun _ => rfl) e

theorem fault?_depth (e : Expr) : fault? e.depth = e.leftmostUnknownNode? :=
  fault?_shapeWalk (fun _ => rfl) (fun _ => rfl) (fun _ _ _ => rfl) (fun _ => rfl) e

theorem fault?_occurrences (e : Expr) : fault? e.occurrences = e.leftmostUnknownNode? :=
  fault?_shapeWalk (fun _ => rfl) (fun _ => rfl) (fun _ _ _ => rfl) (fun _ => rfl) e

theorem fault?_freeVariables (e : Expr) : fault? e.freeVariables = e.leftmostUnknownNode? := by
  rw [freeVariables, fault?_bind_pure, fault?_occurrences]

theorem fault?_layout (e : Expr) : fault? e.layout = e.leftmostUnknownNode? := by
  rw [layout, fault?_bind_pure, fault?_occurrences]

theorem flaw?_binary (op : String) (l r : Expr) : (binary op l r).flaw? = fault? (operator op) := by
  rw [flaw?, unknownNode?, Option.or_none, unknownOperator?, operator]
  cases Operator.ofSymbol? op <;> rfl

theorem fault?_print (e : Expr) : fault? e.print = e.firstFlaw? := by
  induction e with
  | literal v => rfl
  | var x => rfl
  | binary op l r ihl ihr =>
    rw [print, fault?_walk, ihl, ihr, ← flaw?_binary op l r]
    exact (findSome?_nodes_binary flaw? op l r).symm
  | foreign it => rfl

theorem fault?_writableOperator (op : String) :
    fault? (writableOperator op) = (fault? (operator op)).map Fault.inRecord := by
  rw [writableOperator, operator]
  cases Operator.ofSymbol? op <;> rfl

theorem fault?_toRecord (e : Expr) : fault? e.toRecord = e.firstFlaw?.map Fault.inRecord := by
  induction e with
  | literal v => rfl
  | var x => rfl
  | binary op l r ihl ihr =>
    rw [toRecord, fault?_walk, ihl, ihr, fault?_writableOperator, ← Option.map_or, ← Option.map_or,
      ← flaw?_binary op l r]
    exact congrArg (Option.map Fault.inRecord) (findSome?_nodes_binary flaw? op l r).symm
  | foreign it => rfl

/-- The operator comes last here, so that flaws of the operands come first. -/
theorem fault?_simplify (e : Expr) : fault? e.simplify = e.firstFlawUpwards? := by
  induction e with
  | literal v => rfl
  | var x => rfl
  | binary op l r ihl ihr =>
    have hnodes : (binary op l r).firstFlawUpwards? =
        l.firstFlawUpwards?.or (r.firstFlawUpwards?.or (binary op l r).flaw?) :=
      findSome?_nodesUpwards_binary flaw? op l r
    rw [hnodes, ← ihl, ← ihr, flaw?_binary, simplify]
    exact fault?_bind fun l' => fault?_both r.simplify (operator op) fun r' o => simplifyRoot o l' r'
  | foreign it => rfl

/-- Where all variables are known and nothing is foreign, only operators can be defective. -/
theorem firstDefect?_of_known {known : List String} {e : Expr} (he : e.Recognised)
    (h : ∀ x ∈ e.vars, x ∈ known) : e.firstDefect? known = e.firstUnknownOperator? := by
  induction e with
  | literal v => rfl
  | var x =>
    rw [firstDefect?, firstUnknownOperator?, nodes, List.findSome?_singleton,
      List.findSome?_singleton, defect?, if_pos (h x (List.mem_singleton.2 rfl)), unknownOperator?]
  | binary op l r ihl ihr =>
    obtain ⟨hl, hr⟩ := List.forall_mem_append.1 h
    have left : l.nodes.findSome? (defect? known) = l.nodes.findSome? unknownOperator? :=
      ihl he.1 hl
    have right : r.nodes.findSome? (defect? known) = r.nodes.findSome? unknownOperator? :=
      ihr he.2 hr
    rw [firstDefect?, firstUnknownOperator?, findSome?_nodes_binary, findSome?_nodes_binary, left,
      right]
    rfl
  | foreign it => exact he.elim

/-- Variables are collected from the whole tree before any operator is looked at. -/
theorem fault?_compile_false (e : Expr) :
    fault? (e.compile false) = e.leftmostUnknownNode?.or e.firstUnknownOperator? := by
  rw [compile_false, ← fault?_layout]
  by_cases he : e.Recognised
  · obtain ⟨t, ht, hn⟩ := exists_layout he
    have known : ∀ x ∈ e.vars, x ∈ t.names := fun x hx => by rwa [hn, List.mem_eraseDups]
    rw [ht, ok_bind, fault?_bind_pure, fault?_slotted, firstDefect?_of_known he known]
    rfl
  · rw [← leftmostUnknownNode?_eq_none_iff, ← fault?_layout, ← ne_eq,
      Option.ne_none_iff_exists'] at he
    obtain ⟨fault, hfault⟩ := he
    rw [fault?_eq_some.1 hfault]
    rfl

/-- A simplified tree has no flaws left that compiling could find. -/
theorem fault?_compile_true (e : Expr) : fault? (e.compile true) = e.firstFlawUpwards? := by
  rw [← fault?_simplify]
  cases hs : e.simplify with
  | error fault =>
    rw [compile, if_pos rfl, hs]
    rfl
  | ok s =>
    obtain ⟨c, hc, -⟩ := exists_compile (wellFormed_of_simplify hs) true
    rw [hc]
    rfl

/-- Every walk and every work on a tree draws one of two lines: the walks over its shape accept the
trees without foreign parts, and all else accepts the well-formed trees. Beyond its line each one
reports the flaw that it meets first. -/
theorem work_decides_flaws (e : Expr) :
    Decides e.size e.Recognised e.leftmostUnknownNode? ∧
    Decides e.depth e.Recognised e.leftmostUnknownNode? ∧
    Decides e.freeVariables e.Recognised e.leftmostUnknownNode? ∧
    Decides e.layout e.Recognised e.leftmostUnknownNode? ∧
    Decides e.print e.WellFormed e.firstFlaw? ∧
    Decides e.toRecord e.WellFormed (e.firstFlaw?.map Fault.inRecord) ∧
    Decides e.simplify e.WellFormed e.firstFlawUpwards? ∧
    Decides (e.compile true) e.WellFormed e.firstFlawUpwards? ∧
    Decides (e.compile false) e.WellFormed
      (e.leftmostUnknownNode?.or e.firstUnknownOperator?) := by
  have shape : e.leftmostUnknownNode? = none ↔ e.Recognised := leftmostUnknownNode?_eq_none_iff
  have downwards : e.firstFlaw? = none ↔ e.WellFormed := firstFlaw?_eq_none_iff
  have upwards : e.firstFlawUpwards? = none ↔ e.WellFormed := firstFlawUpwards?_eq_none_iff
  refine ⟨decides_of_fault? (fault?_size e) shape, decides_of_fault? (fault?_depth e) shape,
    decides_of_fault? (fault?_freeVariables e) shape, decides_of_fault? (fault?_layout e) shape,
    decides_of_fault? (fault?_print e) downwards, decides_of_fault? (fault?_toRecord e) ?_,
    decides_of_fault? (fault?_simplify e) upwards,
    decides_of_fault? (fault?_compile_true e) upwards,
    decides_of_fault? (fault?_compile_false e) unknownNode?_or_unknownOperator?_eq_none_iff⟩
  rw [Option.map_eq_none_iff]
  exact downwards

/-- The quotient of `x - 1` and an unknown node: the walks over the shape find the node, printing and
writing find the quotient, and simplification finds the difference. -/
theorem work_decides_flaws_each :
    (binary "/" (binary "-" (.var "x") (.literal 1)) (.foreign (.node "Call" 0))).size =
      .error (.unrecognizedNode "Call") ∧
    (binary "/" (binary "-" (.var "x") (.literal 1)) (.foreign (.node "Call" 0))).print =
      .error (.unrecognizedOperator "/") ∧
    (binary "/" (binary "-" (.var "x") (.literal 1)) (.foreign (.node "Call" 0))).toRecord =
      .error (.unwritableOperator "/") ∧
    (binary "/" (binary "-" (.var "x") (.literal 1)) (.foreign (.node "Call" 0))).simplify =
      .error (.unrecognizedOperator "-") ∧
    (binary "/" (binary "-" (.var "x") (.literal 1)) (.foreign (.node "Call" 0))).compile false =
      .error (.unrecognizedNode "Call") ∧
    (binary "/" (binary "-" (.var "x") (.literal 1)) (.var "y")).compile false =
      .error (.unrecognizedOperator "/") := by
  obtain ⟨size, -, -, -, print, toRecord, simplify, -, compile⟩ := work_decides_flaws
    (binary "/" (binary "-" (.var "x") (.literal 1)) (.foreign (.node "Call" 0)))
  obtain ⟨-, -, -, -, -, -, -, -, compile'⟩ := work_decides_flaws
    (binary "/" (binary "-" (.var "x") (.literal 1)) (.var "y"))
  exact ⟨size.eq_error fun h => h.2, print.eq_error (by decide), toRecord.eq_error (by decide),
    simplify.eq_error (by decide), compile.eq_error (by decide), compile'.eq_error (by decide)⟩

end Expr

end Abacus
