import Abacus.Text.Place

/-!
# Lines of a text

A place is kept up to date one character at a time, while a reader of the text goes by its lines.
Where the characters before a place are counted, its line and column find what comes next there, as
long as that does not go over the end of its line. Later places come later in line and column.
-/

namespace Abacus.Text

/-- What follows the last newline is the beginning of a line. -/
theorem exists_last_line {cs : List Char} (h : '\n' ∈ cs) :
    ∃ above line, cs = above ++ '\n' :: line ∧ '\n' ∉ line := by
  obtain ⟨line, above, hcs, hline⟩ := List.eq_append_cons_of_mem (List.mem_reverse.2 h)
  refine ⟨above.reverse, line.reverse, ?_, fun hmem => hline (List.mem_reverse.1 hmem)⟩
  rw [List.reverse_eq_iff] at hcs
  simpa using hcs

theorem length_splitOn (cs : List Char) : (cs.splitOn '\n').length = cs.count '\n' + 1 := by
  induction cs with
  | nil => rfl
  | cons c cs ih =>
    rw [List.splitOn_cons_eq_if_modifyHead, List.count_cons]
    split
    · rw [List.length_cons, ih]
    · rw [List.length_modifyHead, ih, Nat.add_zero]

/-- A part without newlines stays on the line on which it begins. -/
theorem exists_splitOn_append {line : List Char} (h : '\n' ∉ line) (rest : List Char) :
    ∃ right below, (line ++ rest).splitOn '\n' = (line ++ right) :: below := by
  by_cases hrest : '\n' ∈ rest
  · obtain ⟨right, after, rfl, hright⟩ := List.eq_append_cons_of_mem hrest
    have hline : '\n' ∉ line ++ right := List.not_mem_append h hright
    refine ⟨right, after.splitOn '\n', ?_⟩
    rw [← List.append_assoc]
    exact List.splitOn_append_cons_self_of_not_mem hline after
  · have hline : '\n' ∉ line ++ rest := by
      rw [List.mem_append]
      exact not_or.2 ⟨h, hrest⟩
    exact ⟨rest, [], List.splitOn_eq_singleton hline⟩

namespace Place

/-- Without a newline only the column moves. -/
theorem line_column_advance {line : List Char} (h : '\n' ∉ line) (p : Place) :
    (p.advance line).line = p.line ∧ (p.advance line).column = p.column + line.length := by
  induction line generalizing p with
  | nil => exact ⟨rfl, rfl⟩
  | cons c line ih =>
    obtain ⟨hc, hline⟩ := not_or.1 (mt List.mem_cons.2 h)
    have hafter : p.after c = ⟨p.offset + 1, p.line, p.column + 1⟩ := if_neg (Ne.symm hc)
    rw [advance_cons, hafter]
    obtain ⟨hl, hcol⟩ := ih hline ⟨p.offset + 1, p.line, p.column + 1⟩
    refine ⟨hl, hcol.trans ?_⟩
    show p.column + 1 + line.length = p.column + (line.length + 1)
    omega

/-- The lexeme stands in the text at the line and column of the place: that many lines down and that
many characters in, both counted from one. -/
def Shows (p : Place) (text lexeme : List Char) : Prop :=
  ∃ above left right below, text.splitOn '\n' = above ++ (left ++ (lexeme ++ right)) :: below ∧
    p.line = above.length + 1 ∧ p.column = left.length + 1

theorem shows_advance {lexeme : List Char} (h : '\n' ∉ lexeme) (before after : List Char) :
    (start.advance before).Shows (before ++ (lexeme ++ after)) lexeme := by
  by_cases hbefore : '\n' ∈ before
  · obtain ⟨above, left, rfl, hleft⟩ := exists_last_line hbefore
    have hline : '\n' ∉ left ++ lexeme := List.not_mem_append hleft h
    obtain ⟨right, below, hsplit⟩ := exists_splitOn_append hline after
    obtain ⟨hl, hc⟩ := line_column_advance hleft ((start.advance above).after '\n')
    refine ⟨above.splitOn '\n', left, right, below, ?_, ?_, ?_⟩
    · rw [List.append_assoc, List.cons_append, List.splitOn_append_cons_self, ← List.append_assoc,
        hsplit, List.append_assoc]
    · rw [advance_append, advance_cons, hl, length_splitOn]
      show (start.advance above).line + 1 = above.count '\n' + 1 + 1
      rw [line_advance]
      show 1 + above.count '\n' + 1 = above.count '\n' + 1 + 1
      omega
    · rw [advance_append, advance_cons, hc]
      show 1 + left.length = left.length + 1
      omega
  · have hline : '\n' ∉ before ++ lexeme := by
      rw [List.mem_append]
      exact not_or.2 ⟨hbefore, h⟩
    obtain ⟨right, below, hsplit⟩ := exists_splitOn_append hline after
    obtain ⟨hl, hc⟩ := line_column_advance hbefore start
    refine ⟨[], before, right, below, ?_, hl, ?_⟩
    · rw [← List.append_assoc, hsplit, List.append_assoc]
      rfl
    · rw [hc]
      show 1 + before.length = before.length + 1
      omega

/-- Comes earlier in the text, by line and column. -/
def Precedes (p q : Place) : Prop :=
  p.line < q.line ∨ p.line = q.line ∧ p.column < q.column

theorem Precedes.trans {p q r : Place} (h : p.Precedes q) (h' : q.Precedes r) : p.Precedes r := by
  unfold Precedes at h h' ⊢
  omega

theorem precedes_after (p : Place) (c : Char) : p.Precedes (p.after c) := by
  unfold after
  split
  · exact .inl (Nat.lt_succ_self _)
  · exact .inr ⟨rfl, Nat.lt_succ_self _⟩

theorem precedes_advance {cs : List Char} (h : cs ≠ []) (p : Place) :
    p.Precedes (p.advance cs) := by
  induction cs generalizing p with
  | nil => exact absurd rfl h
  | cons c cs ih =>
    rw [advance_cons]
    cases cs with
    | nil => exact p.precedes_after c
    | cons d ds => exact (p.precedes_after c).trans (ih (List.cons_ne_nil d ds) _)

end Place

end Abacus.Text
