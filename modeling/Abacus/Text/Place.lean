/-!
# Places in a text

A place counts the characters before it and names its line and column. Lines end at the newline
character only; lines and columns start at one.
-/

namespace Abacus.Text

structure Place where
  offset : Nat
  line : Nat
  column : Nat
deriving DecidableEq, Repr, Inhabited

namespace Place

def start : Place := ⟨0, 1, 1⟩

/-- The place behind one more character. -/
def after (p : Place) (c : Char) : Place :=
  if c = '\n' then ⟨p.offset + 1, p.line + 1, 1⟩ else ⟨p.offset + 1, p.line, p.column + 1⟩

def advance (p : Place) (cs : List Char) : Place :=
  cs.foldl after p

@[simp] theorem advance_nil (p : Place) : p.advance [] = p := rfl

@[simp] theorem advance_cons (p : Place) (c : Char) (cs : List Char) :
    p.advance (c :: cs) = (p.after c).advance cs := rfl

theorem advance_append (p : Place) (cs ds : List Char) :
    p.advance (cs ++ ds) = (p.advance cs).advance ds := by
  simp [advance]

theorem offset_advance (p : Place) (cs : List Char) :
    (p.advance cs).offset = p.offset + cs.length := by
  induction cs generalizing p with
  | nil => rfl
  | cons c cs ih =>
    rw [advance_cons, ih, List.length_cons]
    have : (p.after c).offset = p.offset + 1 := by unfold after; split <;> rfl
    omega

/-- Only newlines start a line. -/
theorem line_advance (p : Place) (cs : List Char) :
    (p.advance cs).line = p.line + cs.count '\n' := by
  induction cs generalizing p with
  | nil => rfl
  | cons c cs ih =>
    rw [advance_cons, ih, List.count_cons]
    unfold after
    split
    · rename_i h
      simp [h]; omega
    · rename_i h
      simp [h]

/-- Columns count from the last newline on. -/
theorem column_advance (cs : List Char) :
    (start.advance cs).column = 1 + (cs.reverse.takeWhile (· != '\n')).length := by
  obtain ⟨ds, rfl⟩ : ∃ ds : List Char, cs = ds.reverse := ⟨cs.reverse, cs.reverse_reverse.symm⟩
  rw [List.reverse_reverse]
  induction ds with
  | nil => rfl
  | cons c ds ih =>
    rw [List.reverse_cons, advance_append, advance_cons, advance_nil]
    unfold after
    split
    · rename_i h
      simp [h]
    · rename_i h
      simp [h, ih]
      omega

/-- The place at which the last `rest` characters of a text begin. -/
def before (text : List Char) (rest : List Char) : Place :=
  start.advance (text.take (text.length - rest.length))

end Place

end Abacus.Text
