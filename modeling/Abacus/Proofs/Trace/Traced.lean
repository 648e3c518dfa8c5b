import Abacus.Trace.Traced

/-!
# Computations and the writer they are given

Where one computation goes on with the answer of another, the second finds the writer as the first
one leaves it, and its text comes behind. What a block does is told by what its body does with the
writer that it finds inside: the answer is the body's, the level is moved as far as the body moves
it, and the text of the block stands around the body's. None of that depends on how the body ends.
-/

namespace Abacus

variable {α β : Type}

namespace Traced

/-- The writer as the computation leaves it. -/
def after (m : Traced α) (w : Writer) : Writer := w.atLevel (m w).level

theorem bind_of_ok {m : Traced α} {w : Writer} {a : α} (h : (m w).answer = .ok a)
    (f : α → Traced β) :
    (m >>= f) w = ⟨(f a (m.after w)).answer, (f a (m.after w)).level,
      (m w).written ++ (f a (m.after w)).written⟩ := by
  show andThen m f w = _
  rw [andThen, h]
  rfl

theorem bind_of_error {m : Traced α} {w : Writer} {fault : Fault}
    (h : (m w).answer = .error fault) (f : α → Traced β) :
    (m >>= f) w = ⟨.error fault, (m w).level, (m w).written⟩ := by
  show andThen m f w = _
  rw [andThen, h]

/-- The text of the first computation comes first. -/
theorem prefix_bind (m : Traced α) (f : α → Traced β) (w : Writer) :
    (m w).written <+: ((m >>= f) w).written := by
  cases h : (m w).answer with
  | error fault =>
    have hwritten : ((m >>= f) w).written = (m w).written :=
      congrArg Outcome.written (bind_of_error h f)
    exact hwritten ▸ List.prefix_rfl
  | ok a =>
    rw [bind_of_ok h]
    exact List.prefix_append _ _

theorem suffix_bind {m : Traced α} {w : Writer} {a : α} (h : (m w).answer = .ok a)
    (f : α → Traced β) : (f a (m.after w)).written <:+ ((m >>= f) w).written := by
  rw [bind_of_ok h]
  exact List.suffix_append _ _

theorem level_shift (steps : Int) (w : Writer) :
    (shift steps w).level = w.level + if w.debugging then steps else 0 := by
  show (if w.debugging then w.level + steps else w.level) = _
  split <;> omega

theorem level_whenDebugging_write (text : Writer → String) (w : Writer) :
    (whenDebugging (write text) w).level = w.level := by
  rw [whenDebugging]
  split <;> rfl

end Traced

namespace Block

/-- The writer as the body finds it. -/
def inside (block : Block) (w : Writer) : Writer := block.enter.after w

theorem around_eq (block : Block) (body : Traced α) (w : Writer) :
    block.around body w =
      ⟨(body (block.inside w)).answer,
        (block.leave (body.after (block.inside w))).level,
        (block.enter w).written ++ ((body (block.inside w)).written ++
          (block.leave (body.after (block.inside w))).written)⟩ := by
  cases block <;> rfl

theorem answer_around (block : Block) (body : Traced α) (w : Writer) :
    (block.around body w).answer = (body (block.inside w)).answer := by
  rw [around_eq]

/-- The step that a block takes on entry is taken back on leaving it. -/
theorem level_around (block : Block) (body : Traced α) (w : Writer) :
    (block.around body w).level =
      w.level + ((body (block.inside w)).level - (block.inside w).level) := by
  rw [around_eq]
  cases block with
  | indented =>
    show (if w.debugging then (body (inside .indented w)).level + -1
        else (body (inside .indented w)).level) =
      w.level + ((body (inside .indented w)).level -
        if w.debugging then w.level + 1 else w.level)
    split <;> omega
  | boxed omitLower =>
    have hleave : ∀ v : Writer, ((boxed omitLower).leave v).level = v.level := by
      intro v
      cases omitLower <;> rfl
    rw [hleave]
    show (body w).level = w.level + ((body w).level - w.level)
    omega

theorem level_around_of_body {body : Traced α} {block : Block} {w : Writer} {steps : Int}
    (h : (body (block.inside w)).level = (block.inside w).level + steps) :
    (block.around body w).level = w.level + steps := by
  rw [block.level_around, h]
  omega

theorem infix_around (block : Block) (body : Traced α) (w : Writer) :
    (body (block.inside w)).written <:+: (block.around body w).written := by
  rw [around_eq]
  exact List.infix_append' _ _ _

/-- What a writer puts down as a rule of the usual size. -/
def ruleLine (w : Writer) : Write := ⟨w.stream, Writer.repeated '-' 80 ++ "\n"⟩

/-- The rules of a box stand around the text of its body, the lower one only if it is wanted. -/
theorem written_around_boxed (omitLower : Bool) (body : Traced α) (w : Writer) :
    ((boxed omitLower).around body w).written =
      ruleLine w :: (body w).written ++ if omitLower then [] else [ruleLine w] := by
  rw [around_eq]
  cases omitLower <;> rfl

end Block

end Abacus
