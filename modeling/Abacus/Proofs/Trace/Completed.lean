import Abacus.Proofs.Expr.Place
import Abacus.Proofs.Trace.Remarks

/-!
# The traces of evaluation and of slotting

Evaluation tells a debugging writer of every operation that it completes, behind the operands, and
slotting of every variable that it finds a slot for. Both walk from the root, and both end at the
first defect that they meet. Evaluation has by then completed the operations below which the walk
has met everything, and slotting has found the slots of the variables that the walk has met.
-/

namespace Abacus.Expr

open Answer
open Traced (debugLine_bind_pure exists_lines lift_eq_remarking lift_error_bind lift_ok_bind
  pure_eq_remarking remarking remarking_error_bind remarking_ok_bind remarking_ok_bind_pure)

/-- The nodes that a walk from the root meets before the first defect. -/
def met (known : List String) (e : Expr) : List Expr := soundPart (defect? known) e.nodes

/-- The operations that lie, with all that is below them, among the first nodes of the walk from the
root, so many as are given. -/
def doneWithin (count : Nat) (e : Expr) : List Expr :=
  (e.places.filter fun p =>
    p.node.isOperation && decide (p.start + p.node.nodes.length ≤ count)).map Place.node

/-- The operations that lie before the first defect with all that is below them. -/
def completed (known : List String) (e : Expr) : List Expr := e.doneWithin (e.met known).length

/-! ## What is met and what is done -/

section Walk

variable {known : List String} {op : String} {l r : Expr} {fault : Fault}

theorem met_of_none {e : Expr} (h : e.firstDefect? known = none) : e.met known = e.nodes :=
  soundPart_of_none h

theorem length_met_lt {e : Expr} (h : e.firstDefect? known = some fault) :
    (e.met known).length < e.nodes.length :=
  length_soundPart_lt h

theorem met_of_root (h : (binary op l r).defect? known = some fault) :
    (binary op l r).met known = [] :=
  soundPart_cons_of_some h

theorem met_of_left (h : (binary op l r).defect? known = none)
    (hl : l.firstDefect? known = some fault) :
    (binary op l r).met known = binary op l r :: l.met known := by
  rw [met, nodes, soundPart_cons_of_none h, soundPart_append_of_some hl]
  rfl

theorem met_of_right (h : (binary op l r).defect? known = none)
    (hl : l.firstDefect? known = none) :
    (binary op l r).met known = binary op l r :: (l.met known ++ r.met known) := by
  rw [met, nodes, soundPart_cons_of_none h, soundPart_append_of_none hl, met_of_none hl]
  rfl

theorem doneWithin_of_le {e : Expr} {count : Nat} (h : e.nodes.length ≤ count) :
    e.doneWithin count = e.nodesUpwards.filter isOperation := by
  have hall : ∀ p ∈ e.places,
      (p.node.isOperation && decide (p.start + p.node.nodes.length ≤ count)) =
        p.node.isOperation := by
    intro p hp
    have hle := start_add_le p hp
    rw [decide_eq_true (by omega), Bool.and_true]
  rw [doneWithin, List.filter_congr hall, ← node_places, List.filter_map]
  rfl

/-- An operand begins behind the nodes that come before it. -/
theorem doneWithin_under (count before : Nat) (e : Expr) :
    ((e.places.map (Place.under before)).filter fun p =>
      p.node.isOperation && decide (p.start + p.node.nodes.length ≤ count)).map Place.node =
      e.doneWithin (count - before) := by
  have hshift : ∀ p ∈ e.places,
      (p.node.isOperation && decide (before + p.start + p.node.nodes.length ≤ count)) =
        (p.node.isOperation && decide (p.start + p.node.nodes.length ≤ count - before)) := by
    intro p hp
    have hpos := p.node.length_nodes_pos
    have hiff : before + p.start + p.node.nodes.length ≤ count ↔
        p.start + p.node.nodes.length ≤ count - before := by omega
    simp only [hiff]
  rw [List.filter_map, List.map_map, doneWithin, ← List.filter_congr hshift]
  rfl

theorem doneWithin_binary (op : String) (l r : Expr) (count : Nat) :
    (binary op l r).doneWithin count = l.doneWithin (count - 1) ++
      r.doneWithin (count - (1 + l.nodes.length)) ++
        if 1 + (l.nodes.length + r.nodes.length) ≤ count then [binary op l r] else [] := by
  have hroot : ([Place.mk (binary op l r) 0 0].filter fun p =>
      p.node.isOperation && decide (p.start + p.node.nodes.length ≤ count)).map Place.node =
      if 1 + (l.nodes.length + r.nodes.length) ≤ count then [binary op l r] else [] := by
    rw [List.filter_singleton, isOperation, Bool.true_and, Nat.zero_add, length_nodes_binary]
    by_cases h : 1 + (l.nodes.length + r.nodes.length) ≤ count
    · rw [decide_eq_true h, if_pos h]
      rfl
    · rw [decide_eq_false h, if_neg h]
      rfl
  rw [doneWithin, places, List.filter_append, List.filter_append, List.map_append,
    List.map_append, doneWithin_under, doneWithin_under, hroot]

theorem doneWithin_zero (e : Expr) : e.doneWithin 0 = [] := by
  have hnone : ∀ p ∈ e.places,
      ¬(p.node.isOperation && decide (p.start + p.node.nodes.length ≤ 0)) = true := by
    intro p hp
    have hpos := p.node.length_nodes_pos
    rw [decide_eq_false (by omega), Bool.and_false]
    exact Bool.false_ne_true
  rw [doneWithin, List.filter_eq_nil_iff.2 hnone, List.map_nil]

theorem completed_of_none {e : Expr} (h : e.firstDefect? known = none) :
    e.completed known = e.nodesUpwards.filter isOperation := by
  rw [completed, met_of_none h]
  exact doneWithin_of_le (Nat.le_refl _)

theorem completed_of_root (h : (binary op l r).defect? known = some fault) :
    (binary op l r).completed known = [] := by
  rw [completed, met_of_root h]
  exact doneWithin_zero _

theorem completed_of_left (h : (binary op l r).defect? known = none)
    (hl : l.firstDefect? known = some fault) :
    (binary op l r).completed known = l.completed known := by
  have hlt := length_met_lt hl
  have hroot : ¬1 + (l.nodes.length + r.nodes.length) ≤ (l.met known).length + 1 := by omega
  have hright : (l.met known).length + 1 - (1 + l.nodes.length) = 0 := by omega
  rw [completed, met_of_left h hl, List.length_cons, doneWithin_binary, if_neg hroot, hright,
    doneWithin_zero, List.append_nil, List.append_nil, Nat.add_sub_cancel, completed]

theorem completed_of_right (h : (binary op l r).defect? known = none)
    (hl : l.firstDefect? known = none) (hr : r.firstDefect? known = some fault) :
    (binary op l r).completed known = l.completed known ++ r.completed known := by
  have hlt := length_met_lt hr
  have hroot : ¬1 + (l.nodes.length + r.nodes.length) ≤
      l.nodes.length + (r.met known).length + 1 := by omega
  have hright : l.nodes.length + (r.met known).length + 1 - (1 + l.nodes.length) =
      (r.met known).length := by omega
  rw [completed_of_none hl, completed, met_of_right h hl, List.length_cons, List.length_append,
    met_of_none hl, doneWithin_binary, if_neg hroot, hright, Nat.add_sub_cancel,
    doneWithin_of_le (Nat.le_add_right _ _), List.append_nil, completed]

theorem completed_of_operands (h : (binary op l r).defect? known = none)
    (hl : l.firstDefect? known = none) (hr : r.firstDefect? known = none) :
    (binary op l r).completed known =
      l.completed known ++ r.completed known ++ [binary op l r] := by
  have hall : (binary op l r).firstDefect? known = none := by
    have hsearch := findSome?_nodes_binary (defect? known) op l r
    rw [h, Option.none_or] at hsearch
    rw [firstDefect?, hsearch, Option.or_eq_none_iff]
    exact ⟨hl, hr⟩
  rw [completed_of_none hall, completed_of_none hl, completed_of_none hr, nodesUpwards,
    List.filter_append, List.filter_append]
  rfl

end Walk

/-! ## What is told of operations -/

/-- The remark shows the operation with the values of its operands, and its own value. -/
def ShowsOperation (env : Env) (e : Expr) (remark : Remark) : Prop :=
  ∃ op l r a b c, e = binary op l r ∧ l.eval env = .ok a ∧ r.eval env = .ok b ∧
    e.eval env = .ok c ∧ remark = ⟨0, s!"[({a}) {op} ({b}) => {c}]"⟩

theorem exists_operations_remarked (env : Env) (e : Expr) : ∃ remarks,
    e.evalTraced env = remarking (e.eval env) remarks ∧
      List.Forall₂ (ShowsOperation env) (e.completed env.names) remarks := by
  have hfirst : ∀ n : Expr, n.firstDefect? env.names = fault? (n.eval env) :=
    fun n => (fault?_eval (fun _ => Iff.rfl) n).symm
  induction e with
  | literal v => exact ⟨[], pure_eq_remarking _, .nil⟩
  | var x => exact ⟨[], lift_eq_remarking _, .nil⟩
  | binary op l r ihl ihr =>
    obtain ⟨remarksL, htracedL, hshownL⟩ := ihl
    obtain ⟨remarksR, htracedR, hshownR⟩ := ihr
    have hroot := fault?_operator env.names op l r
    have hl := hfirst l
    have hr := hfirst r
    rw [evalTraced, htracedL, htracedR, eval]
    cases ho : operator op with
    | error fault =>
      rw [ho] at hroot
      rw [completed_of_root hroot.symm]
      exact ⟨[], lift_error_bind fault _, .nil⟩
    | ok o =>
      rw [ho] at hroot
      cases hvl : l.eval env with
      | error fault =>
        rw [hvl] at hl
        rw [completed_of_left hroot.symm hl]
        exact ⟨remarksL, lift_ok_bind (remarking_error_bind fault remarksL _), hshownL⟩
      | ok a =>
        rw [hvl] at hl
        cases hvr : r.eval env with
        | error fault =>
          rw [hvr] at hr
          rw [completed_of_right hroot.symm hl hr]
          refine ⟨remarksL ++ remarksR, ?_, List.rel_append hshownL hshownR⟩
          exact lift_ok_bind (remarking_ok_bind (remarking_error_bind fault remarksR _))
        | ok b =>
          rw [hvr] at hr
          have hvalue : (binary op l r).eval env = .ok (o.apply a b) := by
            rw [eval, ho, hvl, hvr]
            rfl
          have hshown : ShowsOperation env (binary op l r) _ :=
            ⟨op, l, r, a, b, o.apply a b, rfl, hvl, hvr, hvalue, rfl⟩
          rw [completed_of_operands hroot.symm hl hr, List.append_assoc]
          refine ⟨_, ?_, List.rel_append hshownL (List.rel_append hshownR (.cons hshown .nil))⟩
          exact lift_ok_bind (remarking_ok_bind (remarking_ok_bind (debugLine_bind_pure _ _)))
  | foreign it => exact ⟨[], lift_eq_remarking _, .nil⟩

/-! ## What is told of variables -/

/-- The name, where the node is a variable. -/
def varName? : Expr → Option String
  | .var x => some x
  | _ => none

/-- The variables that a walk from the root meets before the first defect, as often as it meets
them. -/
def metVariables (known : List String) (e : Expr) : List String :=
  (e.met known).filterMap varName?

/-- The remark shows the variable with its slot. -/
def ShowsSlot (t : Layout) (x : String) (remark : Remark) : Prop :=
  ∃ i, t.slot x = .ok i ∧ remark = ⟨0, s!"[{x} => slot {i}]"⟩

theorem fault?_slot (t : Layout) (x : String) :
    fault? (t.slot x) = (var x).defect? t.names := by
  have h := fault?_slotted t (var x)
  rwa [slotted, fault?_bind_pure, firstDefect?, nodes, List.findSome?_singleton] at h

theorem exists_slots_remarked (t : Layout) (e : Expr) : ∃ remarks,
    e.slottedTraced t = remarking (e.slotted t) remarks ∧
      List.Forall₂ (ShowsSlot t) (e.metVariables t.names) remarks := by
  induction e with
  | literal v => exact ⟨[], pure_eq_remarking _, .nil⟩
  | var x =>
    have hdefect := fault?_slot t x
    rw [slottedTraced, slotted]
    cases hx : t.slot x with
    | error fault =>
      rw [hx] at hdefect
      rw [metVariables, met, nodes, soundPart_cons_of_some hdefect.symm]
      exact ⟨[], lift_error_bind fault _, .nil⟩
    | ok i =>
      rw [hx] at hdefect
      rw [metVariables, met, nodes, soundPart_cons_of_none hdefect.symm]
      exact ⟨_, lift_ok_bind (debugLine_bind_pure _ _), .cons ⟨i, hx, rfl⟩ .nil⟩
  | binary op l r ihl ihr =>
    obtain ⟨remarksL, htracedL, hshownL⟩ := ihl
    obtain ⟨remarksR, htracedR, hshownR⟩ := ihr
    have hroot := fault?_operator t.names op l r
    have hl := fault?_slotted t l
    rw [slottedTraced, htracedL, htracedR, slotted, metVariables]
    cases ho : operator op with
    | error fault =>
      rw [ho] at hroot
      rw [met_of_root hroot.symm]
      exact ⟨[], lift_error_bind fault _, .nil⟩
    | ok o =>
      rw [ho] at hroot
      cases hsl : l.slotted t with
      | error fault =>
        rw [hsl] at hl
        rw [met_of_left hroot.symm hl.symm]
        exact ⟨remarksL, lift_ok_bind (remarking_error_bind fault remarksL _), hshownL⟩
      | ok left =>
        rw [hsl] at hl
        rw [met_of_right hroot.symm hl.symm]
        have hshown : List.Forall₂ (ShowsSlot t)
            ((binary op l r :: (l.met t.names ++ r.met t.names)).filterMap varName?)
            (remarksL ++ remarksR) := by
          rw [List.filterMap_cons_none rfl, List.filterMap_append]
          exact List.rel_append hshownL hshownR
        refine ⟨remarksL ++ remarksR, ?_, hshown⟩
        cases r.slotted t with
        | error fault =>
          exact lift_ok_bind (remarking_ok_bind (remarking_error_bind fault remarksR _))
        | ok right =>
          exact lift_ok_bind (remarking_ok_bind (remarking_ok_bind_pure right remarksR _))
  | foreign it => exact ⟨[], lift_eq_remarking _, .nil⟩

/-- In a tree without a defect all variables are met. -/
theorem filterMap_nodes (e : Expr) : e.nodes.filterMap varName? = e.vars := by
  induction e with
  | binary op l r ihl ihr =>
    rw [nodes, List.filterMap_cons_none rfl, List.filterMap_append, ihl, ihr, vars]
  | _ => rfl

/-- Evaluation tells a debugging writer of the operations that lie before the first defect with all
that is below them, each one with its own value and those of its operands, and slotting tells of the
variables before the first defect, each one with its slot. Where there is no defect these are all
operations and all variables. Neither moves the level of any writer, however it ends. -/
theorem traces_record_completed (e : Expr) (env : Env) (t : Layout) (size level : Nat)
    (stream : Stream) :
    (∃ lines,
      List.Forall₂ (fun n line => ∃ op l r a b c, n = binary op l r ∧ l.eval env = .ok a ∧
        r.eval env = .ok b ∧ n.eval env = .ok c ∧
        line = Writer.repeated ' ' (size * level) ++ s!"[({a}) {op} ({b}) => {c}]" ++ "\n")
        (e.completed env.names) lines ∧
      (e.evalTraced env ⟨size, level, true, stream⟩).written.on stream = String.join lines) ∧
    (∃ lines,
      List.Forall₂ (fun x line => ∃ i, t.slot x = .ok i ∧
        line = Writer.repeated ' ' (size * level) ++ s!"[{x} => slot {i}]" ++ "\n")
        (e.metVariables t.names) lines ∧
      (e.slottedTraced t ⟨size, level, true, stream⟩).written.on stream = String.join lines) ∧
    ((∃ v, e.eval env = .ok v) → e.completed env.names = e.nodesUpwards.filter isOperation) ∧
    ((∃ s, e.slotted t = .ok s) → e.metVariables t.names = e.vars) ∧
    ∀ w : Writer, (e.evalTraced env w).level = w.level ∧ (e.slottedTraced t w).level = w.level := by
  refine ⟨?_, ?_, ?_, ?_, fun w => ⟨?_, ?_⟩⟩
  · obtain ⟨remarks, htraced, hshown⟩ := exists_operations_remarked env e
    rw [htraced]
    refine exists_lines hshown ?_ _ stream
    rintro n _ ⟨op, l, r, a, b, c, hn, ha, hb, hc, rfl⟩
    exact ⟨op, l, r, a, b, c, hn, ha, hb, hc, rfl⟩
  · obtain ⟨remarks, htraced, hshown⟩ := exists_slots_remarked t e
    rw [htraced]
    refine exists_lines hshown ?_ _ stream
    rintro x _ ⟨i, hi, rfl⟩
    exact ⟨i, hi, rfl⟩
  · rintro ⟨v, hv⟩
    have hsound : e.firstDefect? env.names = none := by
      rw [← fault?_eval (fun _ => Iff.rfl), hv, fault?_ok]
    exact completed_of_none hsound
  · rintro ⟨s, hs⟩
    have hsound : e.firstDefect? t.names = none := by rw [← fault?_slotted, hs, fault?_ok]
    rw [metVariables, met_of_none hsound, filterMap_nodes]
  · exact (onlyRemarks_evalTraced env e).level_eq w
  · exact (onlyRemarks_slottedTraced t e).level_eq w

/-- The left factor of `(x + 2) * (y - z)` is completed before the unknown operator is met. All of
`x * (x + 2)` is completed. -/
theorem traces_record_completed_before_defect :
    ((mul (.add (.var "x") (.literal 2)) (binary "-" (.var "y") (.var "z"))).evalTraced
      ⟨[("x", 3)]⟩ ⟨2, 1, true, .standard⟩).written.on .standard = "  [(3) + (2) => 5]\n" ∧
    ((mul (.add (.var "x") (.literal 2)) (binary "-" (.var "y") (.var "z"))).slottedTraced
      ⟨["y", "x"], by decide⟩ ⟨2, 1, true, .standard⟩).written.on .standard =
        "  [x => slot 1]\n" ∧
    (mul (.var "x") (.add (.var "x") (.literal 2))).completed ["x"] =
      [add (.var "x") (.literal 2), mul (.var "x") (.add (.var "x") (.literal 2))] ∧
    (mul (.var "x") (.add (.var "x") (.literal 2))).metVariables ["x"] = ["x", "x"] := by
  obtain ⟨⟨_, operations, evaluation⟩, ⟨_, occurrences, slotting⟩, -⟩ :=
    traces_record_completed
      (mul (.add (.var "x") (.literal 2)) (binary "-" (.var "y") (.var "z"))) ⟨[("x", 3)]⟩
      ⟨["y", "x"], by decide⟩ 2 1 .standard
  obtain ⟨-, -, allCompleted, allMet, -⟩ := traces_record_completed
    (mul (.var "x") (.add (.var "x") (.literal 2))) ⟨[("x", 3)]⟩ ⟨["x"], by decide⟩ 2 1 .standard
  refine ⟨evaluation.trans ?_, slotting.trans ?_, allCompleted ⟨15, rfl⟩, allMet ⟨_, rfl⟩⟩
  · have hcompleted : (mul (.add (.var "x") (.literal 2))
        (binary "-" (.var "y") (.var "z"))).completed ["x"] = [add (.var "x") (.literal 2)] := rfl
    rw [show Env.names ⟨[("x", 3)]⟩ = ["x"] from rfl, hcompleted] at operations
    obtain - | ⟨⟨_, _, _, _, _, _, hn, ha, hb, hc, rfl⟩, ⟨⟩⟩ := operations
    cases hn
    cases ha
    cases hb
    cases hc
    rfl
  · have hmet : (mul (.add (.var "x") (.literal 2))
        (binary "-" (.var "y") (.var "z"))).metVariables ["y", "x"] = ["x"] := rfl
    rw [hmet] at occurrences
    obtain - | ⟨⟨_, hi, rfl⟩, ⟨⟩⟩ := occurrences
    cases hi
    rfl

end Abacus.Expr
