import Abacus.Proofs.Expr.Flaw
import Abacus.Proofs.Expr.Shrinking

/-!
# Places in a tree

The same node may occur at several places of a tree. A place is told by the number of nodes that a
walk from the root meets before it. Work that ends at the first thing that is wrong with a tree has
gone over the places in front of it, and it is done with an operation when it has met all that is
below the operation.
-/

namespace Abacus

/-- The part of a list in front of the first thing that is found wrong. -/
def soundPart {α β : Type} (look : α → Option β) (xs : List α) : List α :=
  xs.takeWhile fun x => (look x).isNone

section SoundPart

variable {α β : Type} {look : α → Option β} {xs : List α}

theorem soundPart_append (h : ∀ x ∈ xs, look x = none) (ys : List α) :
    soundPart look (xs ++ ys) = xs ++ soundPart look ys :=
  List.takeWhile_append_of_pos fun x hx => Option.isNone_iff_eq_none.2 (h x hx)

theorem soundPart_cons_of_some {x : α} {y : β} (h : look x = some y) :
    soundPart look (x :: xs) = [] := by
  have hfound : ¬(look x).isNone := by simp [h]
  exact List.takeWhile_cons_of_neg hfound

theorem soundPart_cons_of_none {x : α} (h : look x = none) :
    soundPart look (x :: xs) = x :: soundPart look xs := by
  have hsound : (look x).isNone := by simp [h]
  exact List.takeWhile_cons_of_pos hsound

theorem soundPart_append_of_none (h : xs.findSome? look = none) (ys : List α) :
    soundPart look (xs ++ ys) = xs ++ soundPart look ys :=
  soundPart_append (List.findSome?_eq_none_iff.1 h) ys

theorem soundPart_of_none (h : xs.findSome? look = none) : soundPart look xs = xs := by
  have happend : soundPart look (xs ++ []) = xs ++ [] := soundPart_append_of_none h []
  rwa [List.append_nil] at happend

/-- In front of what is found first everything is sound, and nothing behind it matters. -/
theorem exists_soundPart_of_some {y : β} (h : xs.findSome? look = some y) :
    ∃ x after, xs = soundPart look xs ++ x :: after ∧
      ∀ ys, soundPart look (xs ++ ys) = soundPart look xs := by
  obtain ⟨before, x, after, rfl, hx, hbefore⟩ := List.findSome?_eq_some_iff.1 h
  have hsound : ∀ zs, soundPart look (before ++ x :: zs) = before := by
    intro zs
    rw [soundPart_append hbefore, soundPart_cons_of_some hx, List.append_nil]
  refine ⟨x, after, by rw [hsound after], fun ys => ?_⟩
  rw [List.append_assoc, List.cons_append, hsound, hsound]

theorem soundPart_append_of_some {y : β} (h : xs.findSome? look = some y) (ys : List α) :
    soundPart look (xs ++ ys) = soundPart look xs := by
  obtain ⟨-, -, -, happend⟩ := exists_soundPart_of_some h
  exact happend ys

theorem length_soundPart_lt {y : β} (h : xs.findSome? look = some y) :
    (soundPart look xs).length < xs.length := by
  obtain ⟨x, after, hsplit, -⟩ := exists_soundPart_of_some h
  have hlength := congrArg List.length hsplit
  rw [List.length_append, List.length_cons] at hlength
  omega

theorem soundPart_map {γ : Type} (f : γ → α) (zs : List γ) :
    soundPart look (zs.map f) = (soundPart (look ∘ f) zs).map f :=
  List.takeWhile_map

end SoundPart

/-- A node at a place of a tree. -/
structure Place where
  node : Expr
  /-- How many nodes a walk from the root meets before this one. -/
  start : Nat
  /-- How far the node is from the root. -/
  distance : Nat

/-- A place of an operand as a place of the whole tree, where so many nodes come before the
operand. -/
def Place.under (count : Nat) (p : Place) : Place := ⟨p.node, count + p.start, p.distance + 1⟩

namespace Expr

/-- The places of the tree, each one behind the places of its operands and the left operand before
the right. -/
def places : Expr → List Place
  | .literal v => [⟨.literal v, 0, 0⟩]
  | .var x => [⟨.var x, 0, 0⟩]
  | .binary op l r =>
    l.places.map (.under 1) ++ r.places.map (.under (1 + l.nodes.length)) ++
      [⟨.binary op l r, 0, 0⟩]
  | .foreign it => [⟨.foreign it, 0, 0⟩]

theorem node_places (e : Expr) : e.places.map Place.node = e.nodesUpwards := by
  induction e with
  | binary op l r ihl ihr =>
    rw [places, nodesUpwards, ← ihl, ← ihr, List.map_append, List.map_append, List.map_map,
      List.map_map]
    rfl
  | _ => rfl

theorem mem_nodes_of_mem_places {e : Expr} {p : Place} (hp : p ∈ e.places) : p.node ∈ e.nodes := by
  rw [← mem_nodesUpwards, ← node_places]
  exact List.mem_map_of_mem hp

theorem root_mem_places (e : Expr) : ⟨e, 0, 0⟩ ∈ e.places := by
  cases e with
  | binary op l r => exact List.mem_append_right _ List.mem_cons_self
  | _ => exact List.mem_cons_self

/-- What is below a place stands together on the walk from the root. -/
theorem exists_nodes_eq {e : Expr} : ∀ p ∈ e.places, ∃ before after,
    e.nodes = before ++ (p.node.nodes ++ after) ∧ before.length = p.start := by
  have leaf : ∀ n : Expr, ∀ p ∈ [Place.mk n 0 0], ∃ before after,
      n.nodes = before ++ (p.node.nodes ++ after) ∧ before.length = p.start := by
    intro n p hp
    rw [List.mem_singleton.1 hp]
    exact ⟨[], [], (List.append_nil _).symm, rfl⟩
  induction e with
  | literal v => exact leaf _
  | var x => exact leaf _
  | binary op l r ihl ihr =>
    rw [places, List.forall_mem_append, List.forall_mem_append]
    refine ⟨⟨?_, ?_⟩, leaf _⟩
    · rw [List.forall_mem_map]
      intro q hq
      obtain ⟨before, after, hnodes, hlength⟩ := ihl q hq
      refine ⟨binary op l r :: before, after ++ r.nodes, ?_, ?_⟩
      · rw [nodes, hnodes]
        simp only [Place.under, List.cons_append, List.append_assoc]
      · rw [List.length_cons, hlength, Place.under, Nat.add_comm]
    · rw [List.forall_mem_map]
      intro q hq
      obtain ⟨before, after, hnodes, hlength⟩ := ihr q hq
      refine ⟨binary op l r :: l.nodes ++ before, after, ?_, ?_⟩
      · rw [nodes, hnodes]
        simp only [Place.under, List.cons_append, List.append_assoc]
      · show (l.nodes ++ before).length + 1 = 1 + l.nodes.length + q.start
        rw [List.length_append, hlength]
        omega
  | foreign it => exact leaf _

theorem start_add_le {e : Expr} : ∀ p ∈ e.places,
    p.start + p.node.nodes.length ≤ e.nodes.length := by
  intro p hp
  obtain ⟨before, after, hnodes, hlength⟩ := exists_nodes_eq p hp
  rw [hnodes, List.length_append, List.length_append, hlength]
  omega

/-- Two operands with an operator between them, whatever the operator is. -/
def isOperation : Expr → Bool
  | .binary _ _ _ => true
  | _ => false

theorem findSome?_places {α : Type} (look : Expr → Option α) (e : Expr) :
    e.places.findSome? (look ∘ Place.node) = e.nodesUpwards.findSome? look := by
  rw [← node_places, List.findSome?_map]

end Expr

end Abacus
