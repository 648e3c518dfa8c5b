import Abacus.Proofs.Trace.Remarks

/-!
# Programs that write

A program calls its writer, has work done on trees with that writer, opens blocks inside of blocks,
and may fail at any point. It may go on differently with every answer that it gets, and it may catch
the fault of a part of itself. Whatever it does, and however a block of it ends, the block leaves the
level moved by nothing but the calls in it that are there to move it, and a box has its rules around
its text.
-/

namespace Abacus

/-- What a program can have done in one call. -/
inductive Call where
  | debug (message : String)
  | debugLine (message : String)
  | print (message : String) (boxed : Bool)
  | printLine (message : String) (boxed : Bool)
  | newline (onlyDebugging : Bool)
  | rule (size : Int)
  | indent
  | dedent
  /-- Asks whether the writer is a debugging one. -/
  | debugging
  | eval (env : Env) (e : Expr)
  | simplify (e : Expr)
  | slotted (t : Layout) (e : Expr)

namespace Call

def Result : Call → Type
  | .debug _ | .debugLine _ | .print _ _ | .printLine _ _ | .newline _ | .rule _ => Unit
  | .indent | .dedent => Unit
  | .debugging => Bool
  | .eval _ _ => Int
  | .simplify _ => Expr
  | .slotted _ _ => Slotted

def run : (c : Call) → Traced c.Result
  | .debug message => Traced.debug message
  | .debugLine message => Traced.debugLine message
  | .print message boxed => Traced.print message boxed
  | .printLine message boxed => Traced.printLine message boxed
  | .newline onlyDebugging => Traced.newline onlyDebugging
  | .rule size => Traced.rule size
  | .indent => Traced.indent
  | .dedent => Traced.dedent
  | .debugging => fun w => ⟨.ok w.debugging, w.level, []⟩
  | .eval env e => e.evalTraced env
  | .simplify e => e.simplifyTraced
  | .slotted t e => e.slottedTraced t

def isIndent : Call → Bool
  | .indent => true
  | _ => false

def isDedent : Call → Bool
  | .dedent => true
  | _ => false

end Call

/-- A program with a result. -/
inductive Program : Type → Type 1 where
  | done {α : Type} (a : α) : Program α
  | fail {α : Type} (fault : Fault) : Program α
  | call {α : Type} (c : Call) (rest : c.Result → Program α) : Program α
  | within {α β : Type} (block : Block) (body : Program β) (rest : β → Program α) : Program α
  /-- Goes on with the answer of the body also if that is a fault. -/
  | attempt {α β : Type} (body : Program β) (rest : Except Fault β → Program α) : Program α

/-- The computation with its fault, if it ends in one, as a result. -/
def Traced.caught {α : Type} (m : Traced α) : Traced (Except Fault α) := fun w =>
  ⟨.ok (m w).answer, (m w).level, (m w).written⟩

namespace Program

def run : {α : Type} → Program α → Traced α
  | _, .done a => pure a
  | _, .fail fault => Traced.ofExcept (.error fault)
  | _, .call c rest => c.run >>= fun a => (rest a).run
  | _, .within block body rest => block.around body.run >>= fun b => (rest b).run
  | _, .attempt body rest => body.run.caught >>= fun x => (rest x).run

/-- The run of the program with the first writer goes into the block with the body, and the second
writer is the one that the block is entered with. -/
inductive Enters : {α β : Type} → Program α → Writer → Block → Program β → Writer → Prop where
  | here {α β : Type} {block : Block} {body : Program β} {rest : β → Program α} {w : Writer} :
    Enters (.within block body rest) w block body w
  | inside {α β γ : Type} {block inner : Block} {body : Program β} {rest : β → Program α}
    {p : Program γ} {w v : Writer} (h : Enters body (block.inside w) inner p v) :
    Enters (.within block body rest) w inner p v
  | behind {α β γ : Type} {block inner : Block} {body : Program β} {rest : β → Program α}
    {p : Program γ} {w v : Writer} {b : β} (hb : (block.around body.run w).answer = .ok b)
    (h : Enters (rest b) ((block.around body.run).after w) inner p v) :
    Enters (.within block body rest) w inner p v
  | afterCall {α γ : Type} {c : Call} {inner : Block} {rest : c.Result → Program α}
    {p : Program γ} {w v : Writer} {a : c.Result} (ha : (c.run w).answer = .ok a)
    (h : Enters (rest a) (c.run.after w) inner p v) : Enters (.call c rest) w inner p v
  | attempted {α β γ : Type} {inner : Block} {body : Program β} {rest : Except Fault β → Program α}
    {p : Program γ} {w v : Writer} (h : Enters body w inner p v) :
    Enters (.attempt body rest) w inner p v
  | afterAttempt {α β γ : Type} {inner : Block} {body : Program β}
    {rest : Except Fault β → Program α} {p : Program γ} {w v : Writer}
    (h : Enters (rest (body.run w).answer) (body.run.after w) inner p v) :
    Enters (.attempt body rest) w inner p v

/-- What follows on the answer of a computation, if it has one, from the writer as it is then. -/
def followed {α β : Type} (m : Traced α) (w : Writer) (next : α → Writer → List β) : List β :=
  match (m w).answer with
  | .ok a => next a (m.after w)
  | .error _ => []

/-- The calls that are carried out, in order. -/
def calls : {α : Type} → Program α → Writer → List Call
  | _, .done _, _ => []
  | _, .fail _, _ => []
  | _, .call c rest, w => c :: followed c.run w fun a v => (rest a).calls v
  | _, .within block body rest, w =>
    body.calls (block.inside w) ++
      followed (block.around body.run) w fun b v => (rest b).calls v
  | _, .attempt body rest, w =>
    body.calls w ++ followed body.run.caught w fun x v => (rest x).calls v

end Program

/-- How far calls move the level of the writer; they move a debugging one only. -/
def Writer.shift (w : Writer) (calls : List Call) : Int :=
  if w.debugging then calls.countP (·.isIndent) - calls.countP (·.isDedent) else 0

namespace Writer

theorem shift_nil (w : Writer) : w.shift [] = 0 := ite_self 0

theorem shift_append (w : Writer) (first second : List Call) :
    w.shift (first ++ second) = w.shift first + w.shift second := by
  rw [shift, shift, shift, List.countP_append, List.countP_append]
  split <;> omega

end Writer

/-! ## Levels -/

/-- Of all calls only the two that are there to move the level do so. -/
theorem Call.level_run (c : Call) (w : Writer) : (c.run w).level = w.level + w.shift [c] := by
  have still : ∀ {c : Call}, (c.run w).level = w.level → w.shift [c] = 0 →
      (c.run w).level = w.level + w.shift [c] := by
    intro c hlevel hshift
    rw [hlevel, hshift, Int.add_zero]
  cases c with
  | indent => exact Traced.level_shift 1 w
  | dedent => exact Traced.level_shift (-1) w
  | debug message => exact still (Traced.level_whenDebugging_write _ w) (ite_self 0)
  | debugLine message => exact still (Traced.level_whenDebugging_write _ w) (ite_self 0)
  | print message boxed => exact still (by cases boxed <;> rfl) (ite_self 0)
  | printLine message boxed => exact still (by cases boxed <;> rfl) (ite_self 0)
  | newline onlyDebugging =>
    refine still ?_ (ite_self 0)
    cases onlyDebugging with
    | false => rfl
    | true => exact Traced.level_whenDebugging_write _ w
  | rule size => exact still rfl (ite_self 0)
  | debugging => exact still rfl (ite_self 0)
  | eval env e => exact still ((Expr.onlyRemarks_evalTraced env e).level_eq w) (ite_self 0)
  | simplify e => exact still ((Expr.onlyRemarks_simplifyTraced e).level_eq w) (ite_self 0)
  | slotted t e => exact still ((Expr.onlyRemarks_slottedTraced t e).level_eq w) (ite_self 0)

namespace Program

open Traced

/-- The calls that follow on a computation go on from the level at which it leaves the writer. -/
theorem level_bind {α β : Type} {m : Traced α} {f : α → Traced β} {next : α → Writer → List Call}
    {w : Writer} {first : List Call} (hm : (m w).level = w.level + w.shift first)
    (hf : ∀ (a : α) (v : Writer), (f a v).level = v.level + v.shift (next a v)) :
    ((m >>= f) w).level = w.level + w.shift (first ++ followed m w next) := by
  cases ha : (m w).answer with
  | error fault =>
    rw [bind_of_error ha, followed, ha, List.append_nil]
    exact hm
  | ok a =>
    have hnext : (f a (m.after w)).level = (m w).level + w.shift (next a (m.after w)) :=
      hf a (m.after w)
    rw [bind_of_ok ha, followed, ha, Writer.shift_append, ← Int.add_assoc, ← hm]
    exact hnext

theorem level_run {α : Type} (p : Program α) (w : Writer) :
    (p.run w).level = w.level + w.shift (p.calls w) := by
  induction p generalizing w with
  | done a => exact (Int.add_zero _).symm.trans (congrArg (w.level + ·) w.shift_nil.symm)
  | fail fault => exact (Int.add_zero _).symm.trans (congrArg (w.level + ·) w.shift_nil.symm)
  | call c rest ih => exact level_bind (c.level_run w) ih
  | within block body rest ihb ih =>
    exact level_bind (Block.level_around_of_body (ihb (block.inside w))) ih
  | attempt body rest ihb ih => exact level_bind (ihb w) ih

/-! ## Blocks that are entered -/

theorem Enters.same_writer {α β : Type} {p : Program α} {w v : Writer} {block : Block}
    {body : Program β} (h : p.Enters w block body v) : v = w.atLevel v.level := by
  induction h with
  | here => rfl
  | inside h ih => exact ih
  | behind hb h ih => exact ih
  | afterCall ha h ih => exact ih
  | attempted h ih => exact ih
  | afterAttempt h ih => exact ih

/-- What a block writes is written together. -/
theorem Enters.infix {α β : Type} {p : Program α} {w v : Writer} {block : Block}
    {body : Program β} (h : p.Enters w block body v) :
    (block.around body.run v).written <:+: (p.run w).written := by
  induction h with
  | here => exact (prefix_bind _ _ _).isInfix
  | @inside _ _ _ outer _ body rest _ w _ h ih =>
    have whole : (outer.around body.run w).written <+: ((within outer body rest).run w).written :=
      prefix_bind _ _ w
    exact (ih.trans (outer.infix_around body.run w)).trans whole.isInfix
  | @behind _ _ _ _ _ _ rest _ _ _ _ hb h ih =>
    exact ih.trans (suffix_bind hb fun b => (rest b).run).isInfix
  | @afterCall _ _ _ _ rest _ _ _ _ ha h ih =>
    exact ih.trans (suffix_bind ha fun a => (rest a).run).isInfix
  | @attempted _ _ _ _ body rest _ w _ h ih =>
    have whole : (body.run.caught w).written <+: ((attempt body rest).run w).written :=
      prefix_bind _ _ w
    exact ih.trans whole.isInfix
  | @afterAttempt _ _ _ _ body rest _ w _ h ih =>
    have hcaught : (body.run.caught w).answer = .ok (body.run w).answer := rfl
    exact ih.trans (suffix_bind hcaught fun x => (rest x).run).isInfix

/-- What can be said of a block with this body once it has been left, however the body ended: the
answer is the body's, the level has been moved by the calls in the body that move it, and a box has
its rules around the text of the body. -/
structure Restored {β : Type} (block : Block) (body : Program β) (w : Writer) : Prop where
  answer : (block.around body.run w).answer = (body.run (block.inside w)).answer
  level : (block.around body.run w).level = w.level + w.shift (body.calls (block.inside w))
  rules : ∀ omitLower, block = .boxed omitLower →
    (block.around body.run w).written =
      Block.ruleLine w :: (body.run w).written ++ if omitLower then [] else [Block.ruleLine w]

theorem restored {β : Type} (block : Block) (body : Program β) (w : Writer) :
    Restored block body w := by
  have hbody : (body.run (block.inside w)).level =
      (block.inside w).level + w.shift (body.calls (block.inside w)) := body.level_run _
  refine ⟨block.answer_around body.run w, Block.level_around_of_body hbody, ?_⟩
  rintro omitLower rfl
  exact Block.written_around_boxed omitLower body.run w

/-- Every program moves the level of its writer just as far as the calls do that it carries out to
move it. Every block that it enters, however deep inside of others, is entered with the same writer
at some level, leaves the level moved by the calls in its body alone, lets a fault of its body
through, and writes its text in one piece, with the rules of a box around it. Simplification leaves
the level as it is, whatever comes of it. -/
theorem blocks_restored {α : Type} (p : Program α) (w : Writer) :
    (p.run w).level = w.level + w.shift (p.calls w) ∧
    (∀ {β : Type} (block : Block) (body : Program β) (v : Writer), p.Enters w block body v →
      v = w.atLevel v.level ∧ Restored block body v ∧
        (block.around body.run v).written <:+: (p.run w).written) ∧
    ∀ e : Expr, (e.simplifyTraced w).level = w.level := by
  refine ⟨p.level_run w, fun block body v h => ?_, ?_⟩
  · exact ⟨h.same_writer, restored block body v, h.infix⟩
  · exact fun e => (Expr.onlyRemarks_simplifyTraced e).level_eq w

/-- A box around the simplification of `(x + 0) - y`, which ends in a fault. -/
def faultyBox : Program Expr :=
  .call (.simplify (.binary "-" (.add (.var "x") (.literal 0)) (.var "y"))) fun s => .done s

/-- In an indented block, goes one level deeper by hand before the box. -/
def strayLevel : Program Expr :=
  .within .indented (.call .indent fun _ => .within (.boxed false) faultyBox .done) .done

/-- The fault ends the box and the indented block. The level that was added by hand stays, and no
other does; the box has got its lower rule. -/
theorem blocks_restored_fault :
    (strayLevel.run ⟨2, 0, true, .standard⟩).answer = .error (.unrecognizedOperator "-") ∧
    (strayLevel.run ⟨2, 0, true, .standard⟩).level = 1 ∧
    strayLevel.Enters ⟨2, 0, true, .standard⟩ (.boxed false) faultyBox ⟨2, 2, true, .standard⟩ ∧
    (Block.around (.boxed false) faultyBox.run ⟨2, 2, true, .standard⟩).level = 2 ∧
    (Block.around (.boxed false) faultyBox.run ⟨2, 2, true, .standard⟩).written =
      [Block.ruleLine ⟨2, 2, true, .standard⟩, ⟨.standard, "      [(x+0) => x]\n"⟩,
        Block.ruleLine ⟨2, 2, true, .standard⟩] := by
  obtain ⟨level, entered, -⟩ := blocks_restored strayLevel ⟨2, 0, true, .standard⟩
  have hbox : strayLevel.Enters ⟨2, 0, true, .standard⟩ (.boxed false) faultyBox
      ⟨2, 2, true, .standard⟩ := .inside (.afterCall (a := ()) rfl .here)
  obtain ⟨-, box, -⟩ := entered _ _ _ hbox
  exact ⟨rfl, level, hbox, box.level, box.rules false rfl⟩

end Program

end Abacus
