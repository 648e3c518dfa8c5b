import Abacus.Expr.Eval
import Abacus.Expr.Measure

/-!
# Layouts

A layout gives the names of variables consecutive slots from zero on, in the order in which the
names were added, and no name has two slots. It says in which order the values of an environment
are laid out in a row.
-/

namespace Abacus

/-- The name at position `i` has slot `i`. -/
structure Layout where
  names : List String
  nodup : names.Nodup
deriving Repr

namespace Layout

@[ext] theorem ext {t u : Layout} (h : t.names = u.names) : t = u := by
  cases t; cases u; cases h; rfl

instance : DecidableEq Layout := fun t u =>
  if h : t.names = u.names then .isTrue (ext h) else .isFalse fun e => h (e ▸ rfl)

def empty : Layout := ⟨[], List.nodup_nil⟩

/-- Gives a new name the next slot. -/
def push (t : Layout) (name : String) (h : name ∉ t.names) : Layout :=
  ⟨t.names ++ [name], by
    refine List.nodup_append.2 ⟨t.nodup, List.nodup_cons.2 ⟨List.not_mem_nil, List.nodup_nil⟩, ?_⟩
    intro x hx y hy e
    rw [List.mem_singleton] at hy
    exact h (hy ▸ e ▸ hx)⟩

/-- Gives a name a slot if it has none. -/
def insert (t : Layout) (name : String) : Layout :=
  if h : name ∈ t.names then t else t.push name h

/-- Gives a name a slot, which it must not have yet. -/
def insertNew (t : Layout) (name : String) : Except Fault Layout :=
  if h : name ∈ t.names then .error (.duplicateSlot name) else .ok (t.push name h)

/-- The layout that gives the names their slots in order. -/
def ofNames (names : List String) : Except Fault Layout :=
  names.foldlM insertNew empty

def size (t : Layout) : Nat := t.names.length

def slot? (t : Layout) (name : String) : Option Nat := t.names.idxOf? name

/-- The slot of a variable. -/
def slot (t : Layout) (name : String) : Except Fault Nat :=
  match t.slot? name with
  | some i => .ok i
  | none => .error (.unboundVariable name)

/-- Does the name have a slot? -/
def contains (t : Layout) (name : String) : Bool := (t.slot? name).isSome

/-- The slot of a name, or the given datum for a name that has none. -/
def getD (t : Layout) (name : String) (default : Datum) : Datum :=
  match t.slot? name with
  | some i => .int i
  | none => default

/-- The names with their slots. -/
def entries (t : Layout) : List (String × Nat) := t.names.zipIdx

/-- The layout as a mapping from names to slots. -/
def toDatum (t : Layout) : Datum :=
  .mapping (t.entries.map fun e => (.text e.1, .int e.2))

def display (t : Layout) : String := s!"SlotTable({t.toDatum.display})"

/-- The values of an environment in the order of the slots. -/
def values (t : Layout) (env : Env) : Except Fault (List Int) :=
  t.names.mapM env.value

@[simp] theorem names_empty : empty.names = [] := rfl

@[simp] theorem names_push (t : Layout) (name : String) (h : name ∉ t.names) :
    (t.push name h).names = t.names ++ [name] := rfl

theorem names_insert (t : Layout) (name : String) :
    (t.insert name).names = if name ∈ t.names then t.names else t.names ++ [name] := by
  unfold insert
  split <;> rfl

end Layout

namespace Expr

/-- The layout of a tree's variables in the order of their first occurrences. -/
def layout (e : Expr) : Except Fault Layout := do
  let names ← e.occurrences
  return names.foldl Layout.insert Layout.empty

end Expr

end Abacus
